import TinyScript.Proofs.ReadExpressions

/-!
# Strings between quotes

A text is written with its strings between quotes as they are, and with no quote elsewhere (`Quotes`).
What a scanner finds in a text is some of its parts, read as strings (`Strung`). Main statement: if it
finds the strings that were written, then none of them needed an escape (`Quotes.plain`).

To be read as itself a string takes at least as many characters as were written for it. So once the
scanner is past the quote that opens a string, it gets to its end only past the quote that opens the
next one, and after the last string there is no quote left.
-/

namespace TinyScript

open Lexeme List

/-- The strings among the tokens. -/
def Lexeme.strings (w : List Lexeme) : List (List Char) :=
  (w.filter (·.kind = .stringLiteral)).map chars

namespace Lexeme

variable {l : Lexeme} {w v : List Lexeme}

@[simp] theorem strings_nil : strings [] = [] := rfl

@[simp] theorem strings_append : strings (w ++ v) = strings w ++ strings v := by
  rw [strings, filter_append, map_append, strings, strings]

theorem strings_cons : strings (l :: w) =
    if l.kind = .stringLiteral then l.chars :: strings w else strings w := by
  rw [strings, filter_cons]
  by_cases h : l.kind = .stringLiteral <;> simp [h, strings]

theorem strings_cons_of_ne (h : l.kind ≠ .stringLiteral) : strings (l :: w) = strings w := by
  rw [strings_cons, if_neg h]

@[simp] theorem strings_glue : strings (glue w) = strings w := by
  have hnot : (of .kwNot).kind ≠ .stringLiteral := by decide
  cases w with
  | nil => exact strings_cons_of_ne hnot
  | cons l w =>
    rw [glue]
    split
    · exact strings_cons_of_ne hnot
    · rename_i hl
      have hl : l.kind ≠ .stringLiteral := fun hk => hl (hk ▸ mem_cons_self)
      rw [strings_cons_of_ne hl]
      split
      · have hfrac : strings l.fraction = [] := by
          unfold fraction
          split
          · rfl
          · exact strings_cons_of_ne (by simp)
        rw [strings_cons_of_ne (by simp), strings_cons_of_ne (by decide), strings_append, hfrac,
          nil_append]
      · exact strings_cons_of_ne (by simp)

theorem strings_commas (ws : List (List Lexeme)) : strings (commas ws) = ws.flatMap strings := by
  have hcomma (w : List Lexeme) : strings (of .comma :: w) = strings w := strings_cons_of_ne (by decide)
  cases ws with
  | nil => rfl
  | cons w ws =>
    rw [commas, strings_append, flatMap_cons]
    congr 1
    induction ws with
    | nil => rfl
    | cons v ws ih => rw [flatMap_cons, strings_append, hcomma, ih, flatMap_cons]

theorem plain_of_strings (h : ∀ cs ∈ strings w, ∀ c ∈ cs, c ∉ ['\'', '\\', '\n', '\r']) :
    ∀ l ∈ w, l.Plain := by
  intro l hl hk
  exact h l.chars (mem_map_of_mem (mem_filter.2 ⟨hl, by simpa using hk⟩))

end Lexeme

namespace Scan

variable {q : Char} {cs s : List Char}

/-- A string is shorter than what is read for it, which ends with a quote. -/
theorem Quoted.length_lt (h : Quoted q cs s) : s.length < cs.length := by
  induction h with
  | close => exact Nat.one_pos
  | dropped _ ih => exact Nat.lt_succ_of_lt ih
  | plain _ _ _ _ _ ih => exact Nat.succ_lt_succ ih
  | newline _ ih => exact Nat.lt_succ_of_lt (Nat.succ_lt_succ ih)
  | quote _ _ ih => exact Nat.succ_lt_succ (Nat.lt_succ_of_lt ih)

/-- A string that takes no more than its characters and the quote has no escapes. -/
theorem Quoted.plain_of_length (h : Quoted '\'' cs s) (hl : cs.length = s.length + 1) :
    ∀ c ∈ s, c ∉ ['\'', '\\', '\n', '\r'] := by
  induction h with
  | close => simp
  | dropped h _ =>
    have := h.length_lt
    simp only [length_cons] at hl
    omega
  | plain hq hn hr hb _ ih =>
    refine forall_mem_cons.2 ⟨?_, ih (Nat.succ.inj hl)⟩
    have hn : _ ≠ '\n' := fun he => absurd (hn he) (by decide)
    simp [hq, hn, hr, hb]
  | newline h _ | quote _ h _ =>
    have := h.length_lt
    simp only [length_cons] at hl this
    omega

/-- Some parts of the text, one after the other, are read as the strings. -/
inductive Strung : List Char → List (List Char) → Prop
  | done {cs : List Char} : Strung cs []
  | skip {c : Char} {cs : List Char} {vs : List (List Char)} (h : Strung cs vs) : Strung (c :: cs) vs
  | string {q : Char} {cs s rest : List Char} {vs : List (List Char)} (hq : isQuote q = true)
      (hs : Quoted q cs s) (h : Strung rest vs) : Strung (q :: (cs ++ rest)) (s :: vs)

namespace Strung

variable {vs us : List (List Char)}

theorem skips (h : Strung cs vs) (g : List Char) : Strung (g ++ cs) vs := by
  induction g with
  | nil => exact h
  | cons c g ih => exact ih.skip

theorem of_append (h : Strung cs (us ++ vs)) : Strung cs us := by
  generalize hw : us ++ vs = ws at h
  induction h generalizing us with
  | done =>
    rw [(append_eq_nil_iff.1 hw).1]
    exact .done
  | skip _ ih => exact (ih hw).skip
  | string hq hs _ ih =>
    cases us with
    | nil => exact .done
    | cons u us =>
      obtain ⟨rfl, htail⟩ := List.cons.inj hw
      exact .string hq hs (ih htail)

/-- The first string begins at some quote and ends before the others. -/
theorem uncons (h : Strung cs (s :: vs)) : ∃ g q body rest, cs = g ++ q :: (body ++ q :: rest) ∧
    isQuote q = true ∧ Quoted q (body ++ [q]) s ∧ Strung rest vs := by
  generalize hw : s :: vs = ws at h
  induction h with
  | done => cases hw
  | skip _ ih =>
    obtain ⟨g, q, body, rest, rfl, hq, hs, h⟩ := ih hw
    exact ⟨_ :: g, q, body, rest, rfl, hq, hs, h⟩
  | @string q cs _ rest _ hq hs h _ =>
    cases hw
    obtain ⟨body, rfl⟩ := hs.ends
    exact ⟨[], q, body, rest, by simp, hq, hs, h⟩

end Strung

/-- What spells a string is read as that string, and other tokens are passed over. -/
theorem Strung.token {span rest : List Char} {l : Lexeme} {w : List Lexeme}
    (h : Strung rest (strings w)) (hs : Spells span l rest) : Strung (span ++ rest) (strings (l :: w)) := by
  by_cases hk : l.kind = .stringLiteral
  · rw [strings_cons, if_pos hk]
    cases hs with
    | string hq hs =>
      rw [show chars ⟨.stringLiteral, some (.ofList _)⟩ = _ from String.toList_ofList]
      exact .string hq hs h
    | word =>
      have hword : ∀ k ∈ .identifier :: TokenKind.keywords, k ≠ .stringLiteral := by decide
      exact absurd hk (hword _ (ofWord_mem _))
    | operator hfind =>
      have hops : ∀ k ∈ TokenKind.operators, k ≠ .stringLiteral := by decide
      exact absurd hk (hops _ (mem_of_find?_eq_some hfind))
    | _ => cases hk
  · rw [strings_cons_of_ne hk]
    exact h.skips span

theorem strung_of_tokens {c : Cursor} {ts : List Token} {stop : Option Failure}
    (h : tokens c = (ts, stop)) : Strung c.rest (strings (ts.map Token.lexeme)) := by
  fun_induction tokens c generalizing ts stop with
  | case1 =>
    cases h
    exact .done
  | case2 c t c' htok heof =>
    cases h
    have hk : t.lexeme.kind ≠ .stringLiteral := fun hk => absurd (heof.symm.trans hk) (by decide)
    rw [map_singleton, strings_cons_of_ne hk]
    exact .done
  | case3 c t c' htok heof =>
    rename_i ih
    cases h
    obtain ⟨cs, p⟩ := c
    cases token_eq_ok_iff.1 htok with
    | token _ hs => exact ((ih rfl).token hs).skips _
    | eof _ => exact absurd rfl heof
  | case4 c t c' htok heof hlt => exact absurd (token_lt htok heof) hlt

/-- The text has the strings between quotes, and no other quotes. -/
inductive Quotes : List Char → List (List Char) → Prop
  | nil {g : List Char} (hg : ∀ c ∈ g, isQuote c = false) : Quotes g []
  | cons {g v rest : List Char} {vs : List (List Char)} (hg : ∀ c ∈ g, isQuote c = false)
      (h : Quotes rest vs) : Quotes (g ++ '\'' :: (v ++ '\'' :: rest)) (v :: vs)

namespace Quotes

variable {ds rest v : List Char} {vs us : List (List Char)}

theorem unquoted {g : List Char} (hg : ∀ c ∈ g, isQuote c = false) (h : Quotes cs vs) :
    Quotes (g ++ cs) vs := by
  cases h with
  | nil hg' => exact .nil (forall_mem_append.2 ⟨hg, hg'⟩)
  | cons hg' h =>
    rw [← List.append_assoc]
    exact .cons (forall_mem_append.2 ⟨hg, hg'⟩) h

theorem append (h : Quotes cs us) (h' : Quotes ds vs) : Quotes (cs ++ ds) (us ++ vs) := by
  induction h with
  | nil hg => exact h'.unquoted hg
  | cons hg _ ih =>
    rw [List.append_assoc, cons_append, List.append_assoc, cons_append]
    exact .cons hg ih

/-- A quote is the one that opens the first string, or comes after it. -/
theorem of_quote (h : Quotes (ds ++ q :: cs) vs) (hq : isQuote q = true) :
    ∃ v us rest, vs = v :: us ∧ Quotes rest us ∧ cs <:+ v ++ '\'' :: rest := by
  have hno {g : List Char} (hg : ∀ c ∈ g, isQuote c = false) : q ∉ g := by
    intro hm
    rw [hg q hm] at hq
    cases hq
  generalize hds : ds ++ q :: cs = text at h
  cases h with
  | nil hg => exact absurd (hds ▸ mem_append_right _ mem_cons_self) (hno hg)
  | @cons g v rest us hg h =>
    refine ⟨v, us, rest, rfl, h, ?_⟩
    rcases append_eq_append_iff.1 hds with ⟨as, rfl, has⟩ | ⟨as, rfl, has⟩
    · cases as with
      | nil =>
        cases has
        exact suffix_refl _
      | cons a as =>
        cases has
        exact absurd (mem_append_right _ mem_cons_self) (hno hg)
    · cases as with
      | nil =>
        cases has
        exact suffix_refl _
      | cons a as =>
        obtain ⟨-, has⟩ := List.cons.inj has
        exact ⟨as ++ [q], by simp [has]⟩

/-- A string that ends after the quote that closes the one written there ends past the quote that opens
the next one. -/
theorem past (h : Quotes rest vs) (hq : isQuote q = true) (he : ds ++ q :: cs = v ++ '\'' :: rest)
    (hlen : v.length < ds.length) :
    ∃ u us rest', vs = u :: us ∧ Quotes rest' us ∧ cs <:+ u ++ '\'' :: rest' := by
  rw [append_cons v] at he
  obtain ⟨mid, rfl⟩ : v ++ ['\''] <+: ds :=
    prefix_of_prefix_length_le ⟨rest, rfl⟩ ⟨q :: cs, he⟩ (by simpa using Nat.succ_le_of_lt hlen)
  rw [List.append_assoc] at he
  rw [← append_cancel_left he] at h
  exact h.of_quote hq

/-- From past the quote that opens a string, reading that string goes past the quote that opens the
next one. -/
theorem late_step (h : Quotes rest vs) (hcs : cs <:+ v ++ '\'' :: rest) (hs : Strung cs (v :: vs)) :
    ∃ u us rest' cs', vs = u :: us ∧ Quotes rest' us ∧ cs' <:+ u ++ '\'' :: rest' ∧ Strung cs' vs := by
  obtain ⟨g, q, body, cs', rfl, hq, hquoted, hs'⟩ := hs.uncons
  obtain ⟨t, ht⟩ := hcs
  have hlen := hquoted.length_lt
  have he : (t ++ g ++ q :: body) ++ q :: cs' = v ++ '\'' :: rest := by simpa using ht
  obtain ⟨u, us, rest', rfl, h', hsuffix⟩ := h.past hq he (by simp at hlen ⊢; omega)
  exact ⟨u, us, rest', cs', rfl, h', hsuffix, hs'⟩

/-- So a text that begins there does not hold that string and all the next ones. -/
theorem not_strung (h : Quotes rest vs) (hcs : cs <:+ v ++ '\'' :: rest) : ¬Strung cs (v :: vs) := by
  induction vs generalizing cs v rest with
  | nil =>
    intro hs
    obtain ⟨_, _, _, _, hvs, -⟩ := h.late_step hcs hs
    cases hvs
  | cons u us ih =>
    intro hs
    obtain ⟨_, _, rest', cs', hvs, h', hcs', hs'⟩ := h.late_step hcs hs
    cases hvs
    exact ih h' hcs' hs'

/-- If the strings that are written are read, they have no escapes. -/
theorem plain (h : Quotes cs vs) (hs : Strung cs vs) :
    ∀ v ∈ vs, ∀ c ∈ v, c ∉ ['\'', '\\', '\n', '\r'] := by
  induction vs generalizing cs with
  | nil => simp
  | cons v vs ih =>
    obtain ⟨g, q, body, cs', rfl, hq, hquoted, hs'⟩ := hs.uncons
    obtain ⟨_, _, rest, hvs, h', t, ht⟩ := h.of_quote hq
    cases hvs
    rw [← List.append_assoc] at ht
    have hlen := hquoted.length_lt
    by_cases hlate : v.length < (t ++ body).length
    · obtain ⟨u, us, rest', rfl, h'', hsuffix⟩ := h'.past hq ht hlate
      exact absurd hs' (h''.not_strung hsuffix)
    · -- the string is read from the quote that opens it up to the one that closes it
      simp only [length_append, length_singleton] at hlen hlate
      obtain rfl : t = [] := length_eq_zero_iff.1 (by omega)
      obtain ⟨rfl, hrest⟩ := append_inj ht (by simp; omega)
      obtain ⟨rfl, rfl⟩ := List.cons.inj hrest
      exact forall_mem_cons.2 ⟨hquoted.plain_of_length (by simp), ih h' hs'⟩

end Quotes

end Scan

end TinyScript
