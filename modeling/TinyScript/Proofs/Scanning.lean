import TinyScript.Cursor

/-!
# What the scanner reads

Gaps, quoted strings and the spellings of tokens are relations on characters, in which places do not
occur. Main statement (`token_eq_ok_iff`): the scanner has a token at a cursor exactly if the text is a
gap and then a spelling, or a gap up to its end. The place of the token is the one after the gap.

What comes after a spelling is a part of the relation `Spells`, because a spelling may go on in it: a
number before a digit is not yet a number.
-/

namespace TinyScript

open List TokenKind Text

variable {ts : List Token}

/-- A token without its place. -/
structure Lexeme where
  kind : TokenKind
  text : Option String
deriving DecidableEq, Repr

def Token.lexeme (t : Token) : Lexeme := ⟨t.kind, t.text⟩

namespace Scan

variable {p : Position} {c' : Cursor} {k : TokenKind} {l : Lexeme} {ds : List Char} {t : Token}
  {d : Char}

/-! ### Gaps -/

/-- White space and comments, all of them closed. -/
inductive Gap : List Char → Prop
  | nil : Gap []
  | blank {c g} (hc : Text.isBlank c = true) (hg : Gap g) : Gap (c :: g)
  | line {body g} (hb : '\n' ∉ body) (hg : Gap g) : Gap ('/' :: '/' :: (body ++ '\n' :: g))
  | block {body g} (hb : ¬['*', '/'] <:+: body) (hg : Gap g) :
      Gap ('/' :: '*' :: (body ++ '*' :: '/' :: g))

/-- A comment that meets the end of the text. -/
inductive OpenComment : List Char → Prop
  | line {body} (hb : '\n' ∉ body) : OpenComment ('/' :: '/' :: body)
  | block {body} (hb : ¬['*', '/'] <:+: body) : OpenComment ('/' :: '*' :: body)

/-- A gap at the end of a text. -/
def LastGap (g : List Char) : Prop :=
  ∃ g₁ g₂, g = g₁ ++ g₂ ∧ Gap g₁ ∧ (g₂ = [] ∨ OpenComment g₂)

variable {c q : Char} {cs g span rest body s : List Char}

theorem lineLength_of_not_mem (h : '\n' ∉ body) : lineLength body = body.length := by
  induction body with
  | nil => rfl
  | cons c cs ih =>
    rw [mem_cons, not_or] at h
    rw [lineLength, if_neg (Ne.symm h.1), ih h.2, length_cons]

theorem lineLength_append (h : '\n' ∉ body) : lineLength (body ++ '\n' :: g) = body.length + 1 := by
  induction body with
  | nil => rfl
  | cons c cs ih =>
    rw [mem_cons, not_or] at h
    rw [cons_append, lineLength, if_neg (Ne.symm h.1), ih h.2, length_cons]

theorem line_cases (cs : List Char) :
    '\n' ∉ cs ∨ ∃ body g, '\n' ∉ body ∧ cs = body ++ '\n' :: g := by
  by_cases h : '\n' ∈ cs
  · obtain ⟨body, g, rfl, hb⟩ := eq_append_cons_of_mem h
    exact .inr ⟨body, g, hb, rfl⟩
  · exact .inl h

theorem not_infix_nil : ¬['*', '/'] <:+: ([] : List Char) := by simp

theorem not_infix_of_cons (h : ¬['*', '/'] <:+: c :: cs) : ¬['*', '/'] <:+: cs :=
  fun h' => h (infix_cons h')

/-- No comment ends at the first character of a text that has no end of a comment in it. -/
theorem not_ends_of_unclosed (h : ¬['*', '/'] <:+: c :: cs) : ¬(c = '*' ∧ cs.head? = some '/') := by
  rintro ⟨rfl, hd⟩
  obtain ⟨cs, rfl⟩ := head?_eq_some_iff.1 hd
  exact h (infix_cons_iff.2 (.inl ⟨cs, rfl⟩))

theorem blockLength_of_unclosed (h : ¬['*', '/'] <:+: body) : blockLength body = body.length := by
  induction body with
  | nil => rfl
  | cons c cs ih =>
    rw [blockLength, if_neg (not_ends_of_unclosed h), ih (not_infix_of_cons h), length_cons]

theorem blockLength_append (h : ¬['*', '/'] <:+: body) :
    blockLength (body ++ '*' :: '/' :: g) = body.length + 2 := by
  induction body with
  | nil => rfl
  | cons c cs ih =>
    have hends : ¬(c = '*' ∧ (cs ++ '*' :: '/' :: g).head? = some '/') := by
      cases cs with
      | nil => simp
      | cons d ds =>
        have hc := not_ends_of_unclosed h
        exact hc
    rw [cons_append, blockLength, if_neg hends, ih (not_infix_of_cons h), length_cons]

theorem block_cases (cs : List Char) : ¬['*', '/'] <:+: cs ∨
    ∃ body g, ¬['*', '/'] <:+: body ∧ cs = body ++ '*' :: '/' :: g := by
  induction cs with
  | nil => exact .inl not_infix_nil
  | cons c cs ih =>
    by_cases hc : c = '*' ∧ cs.head? = some '/'
    · obtain ⟨rfl, hd⟩ := hc
      obtain ⟨cs, rfl⟩ := head?_eq_some_iff.1 hd
      exact .inr ⟨[], cs, not_infix_nil, rfl⟩
    -- an end that begins at `c` would be one already
    · have hcons : ∀ body, body.head? = cs.head? ∨ body = [] → ¬['*', '/'] <:+: body →
          ¬['*', '/'] <:+: c :: body := by
        intro body hhead hb hinf
        rcases infix_cons_iff.1 hinf with ⟨u, hu⟩ | hinf
        · obtain ⟨rfl, rfl⟩ := List.cons.inj hu
          rcases hhead with hhead | hhead
          · exact hc ⟨rfl, hhead.symm⟩
          · cases hhead
        · exact hb hinf
      rcases ih with h | ⟨body, g, hb, rfl⟩
      · exact .inl (hcons cs (.inl rfl) h)
      · refine .inr ⟨c :: body, g, hcons body ?_ hb, rfl⟩
        cases body with
        | nil => exact .inr rfl
        | cons d ds => exact .inl rfl

theorem gapLength_blank (hc : isBlank c = true) : gapLength (c :: cs) = gapLength cs + 1 := by
  rw [gapLength.eq_def]
  exact if_pos hc

theorem gapLength_line (cs : List Char) : gapLength ('/' :: '/' :: cs) =
    gapLength (cs.drop (lineLength cs)) + lineLength cs + 2 := by
  rw [gapLength, if_neg (by decide), if_pos rfl]

theorem gapLength_block (cs : List Char) : gapLength ('/' :: '*' :: cs) =
    gapLength (cs.drop (blockLength cs)) + blockLength cs + 2 := by
  rw [gapLength, if_neg (by decide), if_pos rfl]

/-- No gap begins at a character that is neither white space nor the start of a comment. -/
theorem gapLength_eq_zero_iff : gapLength (c :: cs) = 0 ↔
    isBlank c = false ∧ ¬(c = '/' ∧ (cs.head? = some '/' ∨ cs.head? = some '*')) := by
  by_cases hb : isBlank c = true
  · simp [gapLength_blank hb, hb]
  · by_cases hc : c = '/'
    · subst hc
      rw [gapLength.eq_def]
      simp only [if_neg hb]
      cases cs with
      | nil => simpa using hb
      | cons d cs =>
        by_cases h₁ : d = '/'
        · simp [h₁]
        · by_cases h₂ : d = '*'
          · simp [h₂]
          · simp_all
    · rw [gapLength.eq_def]
      simp [hb, hc]

theorem gapLength_append (hg : Gap g) (rest : List Char) :
    gapLength (g ++ rest) = g.length + gapLength rest := by
  induction hg with
  | nil => simp
  | @blank c g hc _ ih =>
    rw [cons_append, gapLength_blank hc, ih, length_cons]
    omega
  | @line body g hb _ ih =>
    have hdrop : (body ++ '\n' :: (g ++ rest)).drop (body.length + 1) = g ++ rest := by
      rw [← drop_drop, drop_left]
      rfl
    simp only [cons_append, List.append_assoc, length_cons, length_append]
    rw [gapLength_line, lineLength_append hb, hdrop, ih]
    omega
  | @block body g hb _ ih =>
    have hdrop : (body ++ '*' :: '/' :: (g ++ rest)).drop (body.length + 2) = g ++ rest := by
      rw [← drop_drop, drop_left]
      rfl
    simp only [cons_append, List.append_assoc, length_cons, length_append]
    rw [gapLength_block, blockLength_append hb, hdrop, ih]
    omega

theorem gapLength_of_openComment (hg : OpenComment g) : gapLength g = g.length := by
  cases hg with
  | line hb =>
    rw [gapLength_line, lineLength_of_not_mem hb, drop_length]
    simp [gapLength]
  | block hb =>
    rw [gapLength_block, blockLength_of_unclosed hb, drop_length]
    simp [gapLength]

/-- The scanner skips a gap, after which there is none or the text is at its end. -/
theorem exists_gap (cs : List Char) :
    (∃ g rest, cs = g ++ rest ∧ Gap g ∧ gapLength rest = 0 ∧ rest ≠ []) ∨ LastGap cs := by
  fun_induction gapLength cs with
  | case1 => exact .inr ⟨[], [], rfl, .nil, .inl rfl⟩
  | case2 c cs hc ih =>
    rcases ih with ⟨g, rest, rfl, hg, hrest⟩ | ⟨g₁, g₂, rfl, hg, hend⟩
    · exact .inl ⟨c :: g, rest, rfl, .blank hc hg, hrest⟩
    · exact .inr ⟨c :: g₁, g₂, rfl, .blank hc hg, hend⟩
  | case3 cs _ ih =>
    rcases line_cases cs with hb | ⟨body, g, hb, rfl⟩
    · exact .inr ⟨[], _, rfl, .nil, .inr (.line hb)⟩
    · rw [lineLength_append hb, ← drop_drop, drop_left] at ih
      rcases ih with ⟨g, rest, hd, hg, hrest⟩ | ⟨g₁, g₂, hd, hg, hend⟩
      · cases hd
        exact .inl ⟨_, rest, by simp, .line hb hg, hrest⟩
      · cases hd
        exact .inr ⟨_, g₂, by simp, .line hb hg, hend⟩
  | case4 cs _ ih =>
    rcases block_cases cs with hb | ⟨body, g, hb, rfl⟩
    · exact .inr ⟨[], _, rfl, .nil, .inr (.block hb)⟩
    · rw [blockLength_append hb, ← drop_drop, drop_left] at ih
      rcases ih with ⟨g, rest, hd, hg, hrest⟩ | ⟨g₁, g₂, hd, hg, hend⟩
      · cases hd
        exact .inl ⟨_, rest, by simp, .block hb hg, hrest⟩
      · cases hd
        exact .inr ⟨_, g₂, by simp, .block hb hg, hend⟩
  | case5 cs h₁ h₂ hb =>
    refine .inl ⟨[], '/' :: cs, rfl, .nil, ?_, cons_ne_nil _ _⟩
    rw [gapLength, if_neg hb, if_pos rfl]
    · exact h₁
    · exact h₂
  | case6 c cs hb hc =>
    refine .inl ⟨[], c :: cs, rfl, .nil, ?_, cons_ne_nil _ _⟩
    rw [gapLength.eq_def]
    simp only
    rw [if_neg hb, if_neg hc]

/-! ### Strings -/

/-- `cs` goes up to the quote `q` that closes a string, and stands for `s`. Of an escaped quote only the
character after it is kept, and that character is read again. -/
inductive Quoted (q : Char) : List Char → List Char → Prop
  | close : Quoted q [q] []
  | dropped {cs s : List Char} (h : Quoted q cs s) : Quoted q ('\r' :: cs) s
  | plain {d : Char} {cs s : List Char} (hq : d ≠ q) (hn : d = '\n' → q = '\x60') (hr : d ≠ '\r') (hb : d ≠ '\\')
      (h : Quoted q cs s) : Quoted q (d :: cs) (d :: s)
  | newline {cs s : List Char} (h : Quoted q cs s) : Quoted q ('\\' :: 'n' :: cs) ('\n' :: s)
  | quote {d e : Char} {cs s : List Char} (hd : isQuote d = true) (h : Quoted q (e :: cs) s) :
      Quoted q ('\\' :: d :: e :: cs) (e :: s)

theorem Quoted.ends (h : Quoted q cs s) : ∃ body, cs = body ++ [q] := by
  induction h with
  | close => exact ⟨[], rfl⟩
  | dropped _ ih | plain _ _ _ _ _ ih =>
    obtain ⟨body, rfl⟩ := ih
    exact ⟨_ :: body, rfl⟩
  | newline _ ih =>
    obtain ⟨body, rfl⟩ := ih
    exact ⟨_ :: _ :: body, rfl⟩
  | quote _ _ ih =>
    obtain ⟨body, hb⟩ := ih
    exact ⟨_ :: _ :: body, by rw [hb]; rfl⟩

theorem skip_append (xs ys : List Char) (p : Position) :
    (⟨xs ++ ys, p⟩ : Cursor).skip xs.length = ⟨ys, p.after xs⟩ := by
  simp [Cursor.skip]

theorem skip_cons (c : Char) (cs : List Char) (p : Position) :
    (⟨c :: cs, p⟩ : Cursor).skip 1 = ⟨cs, p.next c⟩ := rfl

theorem isQuote_ne (hq : isQuote q = true) : q ≠ '\r' ∧ q ≠ '\\' := by
  constructor
  · rintro rfl
    exact absurd hq (by decide)
  · rintro rfl
    exact absurd hq (by decide)

theorem escape_eq (cs : List Char) (p : Position) : escape ⟨'\\' :: cs, p⟩ =
    match cs with
    | d :: ds =>
      if isQuote d then .ok ds.head? ⟨ds, (p.next '\\').next d⟩
      else if d = 'n' then .ok (some '\n') ⟨ds, (p.next '\\').next d⟩
      else fail (.unsupportedEscape (shownChar (some d))) ⟨cs, p.next '\\'⟩
    | [] => fail (.unsupportedEscape (shownChar none)) ⟨cs, p.next '\\'⟩ := by
  cases cs with
  | nil => rfl
  | cons d ds => rfl

theorem stringTail_of_quoted (hq : isQuote q = true) (h : Quoted q cs s) (acc rest : List Char)
    (p : Position) : stringTail q acc ⟨cs ++ rest, p⟩ =
      .ok (String.ofList (acc.reverse ++ s)) ⟨rest, p.after cs⟩ := by
  have hne := isQuote_ne hq
  induction h generalizing acc p with
  | close =>
    rw [stringTail]
    simp [skip_cons]
  | dropped _ ih =>
    rw [stringTail]
    simp [skip_cons, ih, Ne.symm hne.1]
  | @plain d cs s hdq hn hr hb _ ih =>
    have hline : ¬(d = '\n' ∧ q ≠ '\x60') := fun h => h.2 (hn h.1)
    rw [stringTail]
    simp only [cons_append, if_neg hdq, if_neg hline, if_neg hr, if_neg hb, skip_cons, ih]
    simp
  | @newline cs s _ ih =>
    have hlt : cs.length + rest.length < cs.length + rest.length + 1 + 1 := by omega
    rw [stringTail]
    simp [ih, Ne.symm hne.2, escape_eq, isQuote, hlt]
  | @quote d e cs s hd _ ih =>
    rw [stringTail]
    simp [Ne.symm hne.2, escape_eq, hd]
    simpa using ih (e :: acc) ((p.next '\\').next d)

theorem escape_cases {e : Char} (h : escape ⟨'\\' :: cs, p⟩ = .ok (some e) c') :
    (∃ d, isQuote d = true ∧ cs = d :: c'.rest ∧ c'.rest.head? = some e ∧
      c'.pos = (p.next '\\').next d) ∨
    e = '\n' ∧ cs = 'n' :: c'.rest ∧ c'.pos = (p.next '\\').next 'n' := by
  rw [escape_eq] at h
  cases cs with
  | nil => cases h
  | cons d ds =>
    simp only at h
    by_cases hd : isQuote d = true
    · rw [if_pos hd] at h
      cases hds : ds.head? with
      | none =>
        rw [hds] at h
        cases h
      | some e' =>
        rw [hds] at h
        cases h
        exact .inl ⟨d, hd, rfl, hds, rfl⟩
    · rw [if_neg hd] at h
      by_cases hn : d = 'n'
      · subst hn
        cases h
        exact .inr ⟨rfl, rfl, rfl⟩
      · rw [if_neg hn] at h
        cases h

/-- What the scanner takes for a string is one. -/
theorem quoted_of_stringTail {acc : List Char} {c : Cursor} {t : String}
    (h : stringTail q acc c = .ok t c') : ∃ cs s, c.rest = cs ++ c'.rest ∧ Quoted q cs s ∧
      t = String.ofList (acc.reverse ++ s) ∧ c'.pos = c.pos.after cs := by
  fun_induction stringTail q acc c with
  | case1 => cases h
  | case2 acc c tail hc =>
    obtain ⟨_, p⟩ := c
    cases hc
    cases h
    exact ⟨[q], [], rfl, .close, by simp, rfl⟩
  | case3 => cases h
  | case4 acc c tail hc hq hn ih =>
    obtain ⟨_, p⟩ := c
    cases hc
    obtain ⟨cs, s, hrest, hs, rfl, hpos⟩ := ih h
    exact ⟨'\r' :: cs, s, congrArg _ hrest, .dropped hs, rfl, hpos⟩
  | case5 => cases h
  | case6 => cases h
  | case7 acc c tail e c₁ hesc hlt hc _ _ _ ih =>
    obtain ⟨_, p⟩ := c
    cases hc
    obtain ⟨cs, s, hrest, hs, rfl, hpos⟩ := ih h
    rcases escape_cases hesc with ⟨d, hd, rfl, hhead, hp⟩ | ⟨rfl, rfl, hp⟩
    · obtain ⟨es, rfl⟩ : ∃ es, cs = e :: es := by
        obtain ⟨b, rfl⟩ := hs.ends
        cases b with
        | nil =>
          rw [hrest] at hhead
          cases hhead
          exact ⟨[], rfl⟩
        | cons e' b =>
          rw [hrest] at hhead
          cases hhead
          exact ⟨b ++ [q], rfl⟩
      refine ⟨'\\' :: d :: e :: es, e :: s, by rw [hrest]; rfl, .quote hd hs, by simp, ?_⟩
      rw [hpos, hp]
      rfl
    · refine ⟨'\\' :: 'n' :: cs, '\n' :: s, by rw [hrest]; rfl, .newline hs, by simp, ?_⟩
      rw [hpos, hp]
      rfl
  | case8 => cases h
  | case9 acc c d tail hc hq hn hr hb ih =>
    obtain ⟨_, p⟩ := c
    cases hc
    obtain ⟨cs, s, hrest, hs, rfl, hpos⟩ := ih h
    have hline : d = '\n' → q = '\x60' := fun hd => Classical.not_not.1 fun hq => hn ⟨hd, hq⟩
    exact ⟨d :: cs, d :: s, congrArg _ hrest, .plain hq hline hr hb hs, by simp, hpos⟩

/-! ### Spellings -/

/-- `span` spells a token where `rest` comes after it. -/
inductive Spells : List Char → Lexeme → List Char → Prop
  | int {ds rest : List Char} (hne : ds ≠ []) (hd : ∀ c ∈ ds, Text.isDigit c = true)
      (hr : ∀ c ∈ rest.head?, Text.isDigit c = false ∧ c ≠ '.') :
      Spells ds ⟨.intLiteral, some (String.ofList ds)⟩ rest
  | float {ds es rest : List Char} (hne : ds ≠ []) (hd : ∀ c ∈ ds, Text.isDigit c = true)
      (he : ∀ c ∈ es, Text.isDigit c = true) (hr : ∀ c ∈ rest.head?, Text.isDigit c = false) :
      Spells (ds ++ '.' :: es) ⟨.floatLiteral, some (String.ofList (ds ++ '.' :: es))⟩ rest
  | string {q : Char} {cs s rest : List Char} (hq : isQuote q = true) (h : Quoted q cs s) :
      Spells (q :: cs) ⟨.stringLiteral, some (String.ofList s)⟩ rest
  | word {c : Char} {cs rest : List Char} (hd : Text.isDigit c = false)
      (hc : Text.isWordStart c = true) (hcs : ∀ d ∈ cs, Text.isWordChar d = true)
      (hr : ∀ d ∈ rest.head?, Text.isWordChar d = false) :
      Spells (c :: cs) ⟨.ofWord (String.ofList (c :: cs)), some (String.ofList (c :: cs))⟩ rest
  | operator {k : TokenKind} {rest : List Char} (h : TokenKind.operators.find?
      (fun k' => k'.spelling.toList.isPrefixOf (k.spelling.toList ++ rest)) = some k) :
      Spells k.spelling.toList ⟨k, some k.spelling⟩ rest

theorem takeWhile_append_of_stops {p : Char → Bool} (h : ∀ c ∈ cs, p c = true)
    (hr : ∀ c ∈ rest.head?, p c = false) : (cs ++ rest).takeWhile p = cs := by
  rw [takeWhile_append_of_pos h]
  cases rest with
  | nil => simp
  | cons c rest => simp [hr c rfl]

theorem exists_takeWhile (p : Char → Bool) (cs : List Char) : ∃ ds rest, cs = ds ++ rest ∧
    cs.takeWhile p = ds ∧ (∀ c ∈ ds, p c = true) ∧ ∀ c ∈ rest.head?, p c = false := by
  refine ⟨_, _, takeWhile_append_dropWhile.symm, rfl, ?_, ?_⟩
  · exact all_eq_true.1 all_takeWhile
  · intro c hc
    have h := head?_dropWhile_not p cs
    rw [hc] at h
    exact h

theorem isWordChar_of_isWordStart (h : isWordStart c = true) : isWordChar c = true := by
  simp only [isWordStart, isWordChar, Bool.or_eq_true] at h ⊢
  rcases h with h | h
  · exact .inl (.inl (.inl h))
  · exact .inr h

theorem not_isQuote_of_isWordStart (h : isWordStart c = true) : isQuote c = false := by
  refine Bool.eq_false_iff.2 fun hq => ?_
  simp only [isQuote, Bool.or_eq_true, beq_iff_eq] at hq
  rcases hq with (rfl | rfl) | rfl
  all_goals exact absurd h (by decide)

theorem not_isDigit_of_isQuote (h : isQuote c = true) : isDigit c = false := by
  simp only [isQuote, Bool.or_eq_true, beq_iff_eq] at h
  rcases h with (rfl | rfl) | rfl
  all_goals decide

/-- No operator begins like another token. -/
theorem exists_spelling (hk : k ∈ operators) : ∃ c cs,
    k.spelling.toList = c :: cs ∧ isDigit c = false ∧ isQuote c = false ∧
      isWordStart c = false := by
  have h : ∀ k ∈ operators, (k.spelling.toList.head?.any fun c =>
      !isDigit c && !isQuote c && !isWordStart c) = true := by decide
  have h := h k hk
  cases hs : k.spelling.toList with
  | nil =>
    rw [hs] at h
    cases h
  | cons c cs =>
    rw [hs] at h
    simpa [and_assoc] using h

theorem Spells.ne_nil (h : Spells span l rest) : span ≠ [] := by
  cases h with
  | int hne _ _ => exact hne
  | float hne _ _ _ => simp
  | string _ _ => simp
  | word _ _ _ _ => simp
  | operator h =>
    obtain ⟨c, cs, hs, -⟩ := exists_spelling (mem_of_find?_eq_some h)
    simp [hs]

theorem ofWord_mem (w : String) : ofWord w ∈ .identifier :: keywords := by
  unfold ofWord
  cases h : keywords.find? (·.spelling == w) with
  | none => exact mem_cons_self
  | some k => exact mem_cons_of_mem _ (mem_of_find?_eq_some h)

theorem Spells.kind_ne_eof (h : Spells span l rest) : l.kind ≠ .eof := by
  cases h with
  | int _ _ _ => exact noConfusion
  | float _ _ _ _ => exact noConfusion
  | string _ _ => exact noConfusion
  | @word c cs _ _ _ _ _ =>
    have hk : ∀ k ∈ .identifier :: keywords, k ≠ .eof := by decide
    exact hk _ (ofWord_mem _)
  | operator h =>
    have hk : ∀ k ∈ operators, k ≠ .eof := by decide
    exact hk _ (mem_of_find?_eq_some h)

/-! ### Tokens -/

theorem token_eq (cs : List Char) (p : Position) : token ⟨cs, p⟩ =
    (fun c : Cursor =>
      match c.rest with
      | [] => .ok ⟨.eof, none, c.pos⟩ c
      | d :: _ =>
        if isDigit d then number c
        else if isQuote d then string c
        else if isWordStart d then word c
        else operator c) ((⟨cs, p⟩ : Cursor).skip (gapLength cs)) := rfl

theorem token_gap_append (hg : Gap g) (rest : List Char) (p : Position) :
    token ⟨g ++ rest, p⟩ = token ⟨rest, p.after g⟩ := by
  rw [token_eq, token_eq, gapLength_append hg, ← Cursor.skip_skip, skip_append]

theorem token_of_lastGap (hg : LastGap g) (p : Position) :
    token ⟨g, p⟩ = .ok ⟨.eof, none, p.after g⟩ ⟨[], p.after g⟩ := by
  obtain ⟨g₁, g₂, rfl, hg₁, hend⟩ := hg
  have hlen : gapLength g₂ = g₂.length := by
    rcases hend with rfl | hend
    · rw [gapLength]
      rfl
    · exact gapLength_of_openComment hend
  rw [token_gap_append hg₁, token_eq, hlen]
  simp [Cursor.skip, Position.after_append]

theorem number_int (hd : ∀ c ∈ ds, isDigit c = true)
    (hr : ∀ c ∈ rest.head?, isDigit c = false ∧ c ≠ '.') (p : Position) :
    number ⟨ds ++ rest, p⟩ = .ok ⟨.intLiteral, some (String.ofList ds), p⟩ ⟨rest, p.after ds⟩ := by
  have hpoint : rest.head? ≠ some '.' := fun h => (hr _ h).2 rfl
  unfold number
  simp only [takeWhile_append_of_stops hd fun c hc => (hr c hc).1, skip_append, if_neg hpoint]

theorem number_float {es : List Char} (hd : ∀ c ∈ ds, isDigit c = true)
    (he : ∀ c ∈ es, isDigit c = true) (hr : ∀ c ∈ rest.head?, isDigit c = false) (p : Position) :
    number ⟨ds ++ '.' :: (es ++ rest), p⟩ =
      .ok ⟨.floatLiteral, some (String.ofList (ds ++ '.' :: es)), p⟩
        ⟨rest, p.after (ds ++ '.' :: es)⟩ := by
  have hskip : (⟨'.' :: (es ++ rest), p.after ds⟩ : Cursor).skip (es.length + 1) =
      ⟨rest, p.after (ds ++ '.' :: es)⟩ := by
    rw [Position.after_append]
    exact skip_append ('.' :: es) rest _
  have hstop : ∀ c ∈ ('.' :: (es ++ rest)).head?, isDigit c = false := by
    rintro c ⟨⟩
    decide
  unfold number
  simp only [takeWhile_append_of_stops hd hstop, skip_append, head?_cons, tail_cons,
    takeWhile_append_of_stops he hr, hskip, if_true]

theorem string_quoted (hq : isQuote q = true) (h : Quoted q cs s) (p : Position) :
    string ⟨q :: (cs ++ rest), p⟩ =
      .ok ⟨.stringLiteral, some (String.ofList s), p⟩ ⟨rest, p.after (q :: cs)⟩ := by
  unfold string
  simp only [skip_cons, stringTail_of_quoted hq h]
  rfl

theorem word_eq (hcs : ∀ d ∈ cs, isWordChar d = true)
    (hr : ∀ d ∈ rest.head?, isWordChar d = false) (p : Position) :
    word ⟨cs ++ rest, p⟩ =
      .ok ⟨.ofWord (String.ofList cs), some (String.ofList cs), p⟩ ⟨rest, p.after cs⟩ := by
  unfold word
  simp only [takeWhile_append_of_stops hcs hr, skip_append]

theorem operator_eq (h : operators.find?
    (fun k' => k'.spelling.toList.isPrefixOf (k.spelling.toList ++ rest)) = some k) (p : Position) :
    operator ⟨k.spelling.toList ++ rest, p⟩ =
      .ok ⟨k, some k.spelling, p⟩ ⟨rest, p.after k.spelling.toList⟩ := by
  unfold operator
  simp only [h, ← String.length_toList, skip_append]

theorem token_of_spells (h : Spells span l rest) (h₀ : gapLength (span ++ rest) = 0) (p : Position) :
    token ⟨span ++ rest, p⟩ = .ok ⟨l.kind, l.text, p⟩ ⟨rest, p.after span⟩ := by
  rw [token_eq, h₀, Cursor.skip_zero]
  cases h with
  | int hne hd hr =>
    obtain ⟨c, cs, rfl⟩ := exists_cons_of_ne_nil hne
    simp only [cons_append, hd c mem_cons_self, if_true]
    exact number_int hd hr p
  | @float ds es _ hne hd he hr =>
    obtain ⟨c, cs, rfl⟩ := exists_cons_of_ne_nil hne
    simp only [cons_append, List.append_assoc, hd c mem_cons_self, if_true]
    exact number_float hd he hr p
  | string hq h =>
    simp only [cons_append, not_isDigit_of_isQuote hq, hq, if_true, Bool.false_eq_true, if_false]
    exact string_quoted hq h p
  | word hd hc hcs hr =>
    simp only [cons_append, hd, not_isQuote_of_isWordStart hc, hc, if_true, Bool.false_eq_true,
      if_false]
    exact word_eq (forall_mem_cons.2 ⟨isWordChar_of_isWordStart hc, hcs⟩) hr p
  | operator h =>
    obtain ⟨c, cs, hs, hd, hq, hw⟩ := exists_spelling (mem_of_find?_eq_some h)
    have hop := operator_eq h p
    rw [hs] at hop ⊢
    simp only [cons_append, hd, hq, hw, Bool.false_eq_true, if_false]
    exact hop

/-- The next token of `cs` from `p` on, and where the scanner is after it. -/
inductive Next (p : Position) : List Char → Token → Cursor → Prop
  | token {g span rest : List Char} {l : Lexeme} (hg : Gap g) (hs : Spells span l rest)
      (h₀ : gapLength (span ++ rest) = 0) :
      Next p (g ++ (span ++ rest)) ⟨l.kind, l.text, p.after g⟩ ⟨rest, p.after (g ++ span)⟩
  | eof {g : List Char} (hg : LastGap g) : Next p g ⟨.eof, none, p.after g⟩ ⟨[], p.after g⟩

theorem token_of_next (h : Next p cs t c') : token ⟨cs, p⟩ = .ok t c' := by
  cases h with
  | token hg hs h₀ => rw [token_gap_append hg, token_of_spells hs h₀, Position.after_append]
  | eof hg => exact token_of_lastGap hg p

/-- A scanner of one token takes a spelling that begins where it is called. -/
def TakesSpelling (x : Scan Token) (c : Cursor) : Prop :=
  ∀ t c', x c = .ok t c' → ∃ span l, c.rest = span ++ c'.rest ∧ Spells span l c'.rest ∧
    t = ⟨l.kind, l.text, c.pos⟩ ∧ c'.pos = c.pos.after span

theorem number_takes (hd : isDigit c = true) (p : Position) :
    TakesSpelling number ⟨c :: cs, p⟩ := by
  intro t c' h
  obtain ⟨ds, rest, hds, htake, hall, hr⟩ := exists_takeWhile isDigit (c :: cs)
  have hne : ds ≠ [] := by
    rintro rfl
    rw [takeWhile_cons, if_pos hd] at htake
    cases htake
  rw [hds] at h ⊢
  by_cases hpoint : rest.head? = some '.'
  · obtain ⟨rest, rfl⟩ := head?_eq_some_iff.1 hpoint
    obtain ⟨es, rest, rfl, -, he, hr⟩ := exists_takeWhile isDigit rest
    rw [number_float hall he hr] at h
    cases h
    exact ⟨_, _, by simp, .float hne hall he hr, rfl, rfl⟩
  · have hr' : ∀ c ∈ rest.head?, isDigit c = false ∧ c ≠ '.' := by
      intro c hc
      exact ⟨hr c hc, fun h => hpoint (h ▸ hc)⟩
    rw [number_int hall hr'] at h
    cases h
    exact ⟨_, _, rfl, .int hne hall hr', rfl, rfl⟩

theorem string_takes (hq : isQuote q = true) (p : Position) :
    TakesSpelling string ⟨q :: cs, p⟩ := by
  intro t c' h
  unfold string at h
  simp only [skip_cons] at h
  cases hs : stringTail q [] ⟨cs, p.next q⟩ with
  | ok s c₁ =>
    rw [hs] at h
    cases h
    obtain ⟨body, s, hrest, hbody, rfl, hpos⟩ := quoted_of_stringTail hs
    exact ⟨q :: body, _, congrArg _ hrest, .string hq hbody, rfl, hpos⟩
  | error f c₁ =>
    rw [hs] at h
    cases h

theorem word_takes (hd : isDigit c = false) (hc : isWordStart c = true) (p : Position) :
    TakesSpelling word ⟨c :: cs, p⟩ := by
  intro t c' h
  obtain ⟨ds, rest, hds, -, hall, hr⟩ := exists_takeWhile isWordChar cs
  have hall' : ∀ d ∈ c :: ds, isWordChar d = true :=
    forall_mem_cons.2 ⟨isWordChar_of_isWordStart hc, hall⟩
  rw [hds, ← cons_append] at h ⊢
  rw [word_eq hall' hr] at h
  cases h
  exact ⟨_, _, rfl, .word hd hc hall hr, rfl, rfl⟩

theorem operator_takes (cs : List Char) (p : Position) : TakesSpelling operator ⟨cs, p⟩ := by
  intro t c' h
  unfold operator at h
  simp only at h
  cases hf : operators.find? fun k => k.spelling.toList.isPrefixOf cs with
  | none =>
    rw [hf] at h
    cases h
  | some k =>
    have hpre := find?_some hf
    simp only [List.isPrefixOf_iff_prefix] at hpre
    obtain ⟨rest, rfl⟩ := hpre
    rw [hf] at h
    simp only [← String.length_toList, skip_append] at h
    cases h
    exact ⟨_, _, rfl, .operator hf, rfl, rfl⟩

theorem next_of_token (h : token ⟨cs, p⟩ = .ok t c') : Next p cs t c' := by
  rcases exists_gap cs with ⟨g, rest, rfl, hg, h₀, hne⟩ | hg
  · rw [token_gap_append hg, token_eq, h₀, Cursor.skip_zero] at h
    obtain ⟨c, cs, rfl⟩ := exists_cons_of_ne_nil hne
    have hx : ∃ x : Scan Token, TakesSpelling x ⟨c :: cs, p.after g⟩ ∧
        x ⟨c :: cs, p.after g⟩ = .ok t c' := by
      simp only at h
      by_cases hd : isDigit c = true
      · rw [if_pos hd] at h
        exact ⟨_, number_takes hd _, h⟩
      · rw [if_neg hd] at h
        by_cases hq : isQuote c = true
        · rw [if_pos hq] at h
          exact ⟨_, string_takes hq _, h⟩
        · rw [if_neg hq] at h
          by_cases hw : isWordStart c = true
          · rw [if_pos hw] at h
            exact ⟨_, word_takes (Bool.eq_false_iff.2 hd) hw _, h⟩
          · rw [if_neg hw] at h
            exact ⟨_, operator_takes _ _, h⟩
    obtain ⟨x, htakes, hx⟩ := hx
    obtain ⟨span, l, hrest, hs, rfl, hpos⟩ := htakes t c' hx
    obtain ⟨rest, pos⟩ := c'
    simp only at hrest hpos hs
    rw [hrest] at h₀ ⊢
    rw [hpos, ← Position.after_append]
    exact .token hg hs h₀
  · rw [token_of_lastGap hg] at h
    cases h
    exact .eof hg

theorem token_eq_ok_iff : token ⟨cs, p⟩ = .ok t c' ↔ Next p cs t c' :=
  ⟨next_of_token, token_of_next⟩

/-! ### What tokens end before -/

/-- No token of the kind goes on with the character, nor becomes the start of a comment with it. -/
def EndsBefore (k : TokenKind) (d : Char) : Prop :=
  if k ∈ TokenKind.operators then
    (∀ k' ∈ TokenKind.operators, k'.spelling.toList.head? = k.spelling.toList.head? →
      d ∉ k'.spelling.toList.tail) ∧ (k.spelling.toList.head? = some '/' → d ∉ ['/', '*'])
  else Text.isWordChar d = false ∧ d ≠ '.'

instance (k : TokenKind) (d : Char) : Decidable (EndsBefore k d) :=
  inferInstanceAs (Decidable (ite _ _ _))

theorem endsBefore_of_isBlank (hd : isBlank d = true) (k : TokenKind) : EndsBefore k d := by
  have hall : ∀ r ∈ blankRanges, ∀ i < r.2 - r.1 + 1,
      isWordChar (Char.ofNat (r.1 + i)) = false ∧
        Char.ofNat (r.1 + i) ∉ ['=', '.', '*', '<', '>', '/'] := by decide +kernel
  have htail : ∀ k ∈ operators,
      k.spelling.toList.tail ⊆ ['=', '.', '*', '<', '>', '/'] := by decide
  have hcomment : ['/', '*'] ⊆ ['=', '.', '*', '<', '>', '/'] := by decide
  obtain ⟨r, hr, hle, hge⟩ := (inRanges_iff _ _).1 hd
  have h := hall r hr (d.toNat - r.1) (by omega)
  rw [Nat.add_sub_cancel' hle, Char.ofNat_toNat] at h
  unfold EndsBefore
  split
  · exact ⟨fun k' hk' _ hm => h.2 (htail k' hk' hm), fun _ hm => h.2 (hcomment hm)⟩
  · exact ⟨h.1, fun hdot => h.2 (by simp [hdot])⟩

theorem isPrefixOf_append_of_not_mem {xs ys zs : List Char} (h : d ∉ xs) :
    xs.isPrefixOf (ys ++ d :: zs) = xs.isPrefixOf ys := by
  induction xs generalizing ys with
  | nil => simp
  | cons x xs ih =>
    rw [mem_cons, not_or] at h
    cases ys with
    | nil => simp [List.isPrefixOf, Ne.symm h.1]
    | cons y ys => simp only [cons_append, List.isPrefixOf, ih h.2]

theorem isPrefixOf_operator_append {k' : TokenKind} (hk : k ∈ operators)
    (hk' : k' ∈ operators) (hd : EndsBefore k d) (b : List Char) :
    k'.spelling.toList.isPrefixOf (k.spelling.toList ++ rest ++ d :: b) =
      k'.spelling.toList.isPrefixOf (k.spelling.toList ++ rest) := by
  rw [EndsBefore, if_pos hk] at hd
  have hd := hd.1 k' hk'
  obtain ⟨c, cs, hs, -⟩ := exists_spelling hk
  obtain ⟨c', cs', hs', -⟩ := exists_spelling hk'
  rw [hs, hs'] at hd ⊢
  by_cases hc : c' = c
  · have hcs' : d ∉ cs' := hd (congrArg some hc)
    simp only [cons_append, List.isPrefixOf, isPrefixOf_append_of_not_mem hcs']
  · simp [List.isPrefixOf, beq_eq_false_iff_ne.2 hc]

theorem isDigit_of_not_isWordChar (h : isWordChar d = false) : isDigit d = false := by
  simp only [isWordChar, Bool.or_eq_false_iff] at h
  exact h.1.1.2

/-- A token stays what it is if a character follows that it does not go on with. -/
theorem Spells.append (h : Spells span l rest) (hd : EndsBefore l.kind d) (b : List Char) :
    Spells span l (rest ++ d :: b) := by
  have hhead {P : Char → Prop} (hr : ∀ c ∈ rest.head?, P c) (hn : P d) :
      ∀ c ∈ (rest ++ d :: b).head?, P c := by
    cases rest with
    | nil => simpa using hn
    | cons d rest => simpa using hr
  cases h with
  | int hne hdig hr =>
    exact .int hne hdig (hhead hr ⟨isDigit_of_not_isWordChar hd.1, hd.2⟩)
  | float hne hdig he hr =>
    exact .float hne hdig he (hhead hr (isDigit_of_not_isWordChar hd.1))
  | string hq h => exact .string hq h
  | word hdig hc hcs hr =>
    have hno : ∀ k ∈ .identifier :: keywords, k ∉ operators := by decide
    rw [EndsBefore, if_neg (hno _ (ofWord_mem _))] at hd
    exact .word hdig hc hcs (hhead hr hd.1)
  | @operator k _ h =>
    refine .operator ?_
    rw [← head?_filter] at h ⊢
    have hk := (mem_filter.1 (mem_of_mem_head? h)).1
    rw [← h]
    refine congrArg List.head? (filter_congr fun k' hk' => ?_)
    rw [← List.append_assoc, isPrefixOf_operator_append hk hk' hd]

/-- A token that begins with a slash is an operator. -/
theorem Spells.slash (h : Spells ('/' :: cs) l rest) :
    l.kind ∈ operators ∧ l.kind.spelling.toList.head? = some '/' := by
  generalize hs : '/' :: cs = span at h
  cases h with
  | int _ hd _ => exact absurd (hd '/' (hs ▸ mem_cons_self)) (by decide)
  | @float ds es _ hne hd _ _ =>
    obtain ⟨c, ds, rfl⟩ := exists_cons_of_ne_nil hne
    cases hs
    exact absurd (hd '/' mem_cons_self) (by decide)
  | string hq _ =>
    cases hs
    exact absurd hq (by decide)
  | word _ hc _ _ =>
    cases hs
    exact absurd hc (by decide)
  | operator h => exact ⟨mem_of_find?_eq_some h, by simp [← hs]⟩

theorem Spells.gapLength_append (h : Spells span l rest) (h₀ : gapLength (span ++ rest) = 0)
    (hd : EndsBefore l.kind d) (b : List Char) : gapLength (span ++ (rest ++ d :: b)) = 0 := by
  obtain ⟨e, cs, rfl⟩ := exists_cons_of_ne_nil h.ne_nil
  rw [cons_append, gapLength_eq_zero_iff] at h₀ ⊢
  refine ⟨h₀.1, ?_⟩
  rintro ⟨rfl, hnext⟩
  refine h₀.2 ⟨rfl, ?_⟩
  rw [EndsBefore, if_pos h.slash.1] at hd
  have hd := hd.2 h.slash.2
  rw [← List.append_assoc] at hnext
  cases hcs : cs ++ rest with
  | nil =>
    rw [hcs] at hnext
    simp only [nil_append, head?_cons, Option.some.injEq] at hnext
    exact absurd (by rcases hnext with rfl | rfl <;> simp) hd
  | cons f fs =>
    rw [hcs] at hnext
    exact hnext

theorem token_append {c : Cursor} (h : token c = .ok t c') (ht : t.kind ≠ .eof)
    (hd : EndsBefore t.kind d) (b : List Char) :
    token ⟨c.rest ++ d :: b, c.pos⟩ = .ok t ⟨c'.rest ++ d :: b, c'.pos⟩ := by
  obtain ⟨cs, p⟩ := c
  cases token_eq_ok_iff.1 h with
  | @token g span rest l hg hs h₀ =>
    have hnext := token_of_next (Next.token (p := p) hg (hs.append hd b) (hs.gapLength_append h₀ hd b))
    simpa only [List.append_assoc] using hnext
  | eof _ => exact absurd rfl ht

/-! ### All tokens of a text -/

/-- The scanner gets from one cursor to the other by the tokens `ts`, none of which is the end. -/
inductive Passes : Cursor → List Token → Cursor → Prop
  | nil {c : Cursor} : Passes c [] c
  | cons {c c' c'' : Cursor} {t : Token} {ts : List Token} (h : token c = .ok t c')
      (ht : t.kind ≠ .eof) (hs : Passes c' ts c'') : Passes c (t :: ts) c''

/-- A token that is not the end takes characters. -/
theorem token_lt {c : Cursor} (h : token c = .ok t c') (ht : t.kind ≠ .eof) :
    c'.rest.length < c.rest.length := by
  obtain ⟨cs, p⟩ := c
  cases token_eq_ok_iff.1 h with
  | @token g span rest l hg hs h₀ =>
    have := length_pos_iff.2 hs.ne_nil
    simp only [length_append]
    omega
  | eof _ => exact absurd rfl ht

theorem token_eof {c : Cursor} (h : token c = .ok t c') (ht : t.kind = .eof) :
    LastGap c.rest ∧ t = ⟨.eof, none, c.pos.after c.rest⟩ := by
  obtain ⟨cs, p⟩ := c
  cases token_eq_ok_iff.1 h with
  | token _ hs _ => exact absurd ht hs.kind_ne_eof
  | eof hg => exact ⟨hg, rfl⟩

theorem tokens_of_passes {c : Cursor} (h : Passes c ts c') (hg : LastGap c'.rest) :
    tokens c = (ts ++ [⟨.eof, none, c'.pos.after c'.rest⟩], none) := by
  induction h with
  | @nil c =>
    rw [tokens, token_of_lastGap hg c.pos]
    rfl
  | cons h ht _ ih =>
    rw [tokens]
    simp only [h, if_neg ht, if_pos (token_lt h ht), ih hg, cons_append]

theorem Passes.kind_ne {c : Cursor} (h : Passes c ts c') : ∀ t ∈ ts, t.kind ≠ .eof := by
  induction h with
  | nil => exact fun t ht => absurd ht not_mem_nil
  | cons _ ht _ ih => exact forall_mem_cons.2 ⟨ht, ih⟩

theorem passes_of_tokens {c : Cursor} (h : tokens c = (ts, none)) :
    ∃ us c', Passes c us c' ∧ LastGap c'.rest ∧ ts = us ++ [⟨.eof, none, c'.pos.after c'.rest⟩] := by
  fun_induction tokens c generalizing ts with
  | case1 => cases h
  | case2 c t c' htok heof =>
    cases h
    obtain ⟨hg, rfl⟩ := token_eof htok heof
    exact ⟨[], c, .nil, hg, rfl⟩
  | case3 c t c' htok heof =>
    rename_i ih
    obtain ⟨rfl, hstop⟩ := Prod.mk.inj h
    obtain ⟨us, c₁, hp, hg, hus⟩ := ih (Prod.ext rfl hstop)
    exact ⟨t :: us, c₁, .cons htok heof hp, hg, congrArg (t :: ·) hus⟩
  | case4 c t c' htok heof hlt => exact absurd (token_lt htok heof) hlt

end Scan

end TinyScript
