import TinyScript.Proofs.BareParse
import TinyScript.Proofs.Formed

/-!
# Programs concatenate

Two programs with a newline between them are one program, of the statements of both. The newline
ends the last token and a line comment of the first text, so that the tokens are those of both texts
(`tokenize_concat`); no statement takes a token that begins another one, so that what is read before the
end token is read before the second text (`Reads.past`). Only a `/*` comment that is not closed would go on.
-/

namespace TinyScript

open Node List Lexeme

namespace Scan

variable {c c' c'' : Cursor} {g s : List Char} {ts us : List Token} {p : Position}

/-! ### Tokens before a newline -/

theorem Passes.newline (h : Passes c ts c') (b : List Char) :
    Passes ⟨c.rest ++ '\n' :: b, c.pos⟩ ts ⟨c'.rest ++ '\n' :: b, c'.pos⟩ := by
  induction h with
  | nil => exact .nil
  | cons h ht _ ih => exact .cons (token_append h ht (endsBefore_of_isBlank (by decide) _) b) ht ih

theorem Passes.suffix (h : Passes c ts c') : c'.rest <:+ c.rest := by
  induction h with
  | nil => exact suffix_refl _
  | @cons c c' c'' t ts h ht _ ih =>
    obtain ⟨cs, p⟩ := c
    cases token_eq_ok_iff.1 h with
    | @token g span rest l hg hs h₀ =>
      exact ih.trans ⟨g ++ span, by rw [List.append_assoc]⟩
    | eof _ => exact absurd rfl ht

theorem Passes.append (h : Passes c ts c') (h' : Passes c' us c'') : Passes c (ts ++ us) c'' := by
  induction h with
  | nil => exact h'
  | cons h ht _ ih => exact .cons h ht (ih h')

/-! ### Tokens after a gap -/

theorem Gap.append (h : Gap g) (hs : Gap s) : Gap (g ++ s) := by
  induction h with
  | nil => exact hs
  | blank hc _ ih => exact .blank hc ih
  | line hb _ ih =>
    simp only [cons_append, List.append_assoc]
    exact .line hb ih
  | block hb _ ih =>
    simp only [cons_append, List.append_assoc]
    exact .block hb ih

theorem LastGap.gap_append (hg : Gap g) (h : LastGap s) : LastGap (g ++ s) := by
  obtain ⟨g₁, g₂, rfl, hg₁, hg₂⟩ := h
  exact ⟨g ++ g₁, g₂, (List.append_assoc ..).symm, hg.append hg₁, hg₂⟩

/-- The tokens of a text do not depend on where it begins. -/
theorem Passes.moved (h : Passes c ts c') (p : Position) : ∃ ts' p',
    Passes ⟨c.rest, p⟩ ts' ⟨c'.rest, p'⟩ ∧ ts'.map Token.lexeme = ts.map Token.lexeme := by
  induction h generalizing p with
  | nil => exact ⟨[], p, .nil, rfl⟩
  | @cons c c' c'' t ts h ht _ ih =>
    obtain ⟨cs, q⟩ := c
    cases token_eq_ok_iff.1 h with
    | @token g span rest l hg hs h₀ =>
      obtain ⟨ts', p', hp, hts⟩ := ih (p.after (g ++ span))
      refine ⟨⟨l.kind, l.text, p.after g⟩ :: ts', p', ?_, ?_⟩
      · exact .cons (token_of_next (.token hg hs h₀)) ht hp
      · rw [map_cons, map_cons, hts]
        rfl
    | eof _ => exact absurd rfl ht

theorem Passes.gap_append (hg : Gap g) (h : Passes ⟨s, p.after g⟩ ts c') (hc : LastGap c'.rest) :
    ∃ c'', Passes ⟨g ++ s, p⟩ ts c'' ∧ LastGap c''.rest := by
  cases h with
  | nil => exact ⟨⟨g ++ s, p⟩, .nil, hc.gap_append hg⟩
  | cons h ht hs =>
    rw [← token_gap_append hg] at h
    exact ⟨c', .cons h ht hs, hc⟩

/-- A newline closes a gap at the end of a text, unless it is inside a `/*` comment. -/
theorem LastGap.newline (h : LastGap g)
    (hopen : ∀ g₁ body, Gap g₁ → g = g₁ ++ '/' :: '*' :: body → ['*', '/'] <:+: body) :
    Gap (g ++ ['\n']) := by
  obtain ⟨g₁, g₂, rfl, hg₁, hg₂⟩ := h
  rw [List.append_assoc]
  rcases hg₂ with rfl | hcomment
  · exact hg₁.append (.blank (by decide) .nil)
  · cases hcomment with
    | @line body hb => exact hg₁.append (.line hb .nil)
    | @block body hb => exact absurd (hopen g₁ body hg₁ rfl) hb

end Scan

/-- After the last token of the text begins a `/*` comment that is not closed. -/
def EndsInComment (src : String) : Prop :=
  ∃ ts c g body, Scan.Passes (.start src) ts c ∧ Scan.Gap g ∧ c.rest = g ++ '/' :: '*' :: body ∧
    ¬['*', '/'] <:+: body

/-- The tokens of two texts with a newline between them are those of both texts. -/
theorem tokenize_concat {a b : String} {ts us : List Token} (ha : tokenize a = (ts, none))
    (hb : tokenize b = (us, none)) (hend : ¬EndsInComment a) :
    ∃ ls ls' vs, ts.map Token.lexeme = ls ++ [.eof] ∧ us.map Token.lexeme = ls' ++ [.eof] ∧
      (∀ l ∈ ls ++ ls', l.kind ≠ .eof) ∧ tokenize (a ++ "\n" ++ b) = (vs, none) ∧
      vs.map Token.lexeme = ls ++ ls' ++ [.eof] := by
  obtain ⟨ts, c, hpa, hga, rfl⟩ := Scan.passes_of_tokens (tokenize_eq_iff.1 ha).2
  obtain ⟨us, d, hpb, hgb, rfl⟩ := Scan.passes_of_tokens (tokenize_eq_iff.1 hb).2
  have hgap : Scan.Gap (c.rest ++ ['\n']) := hga.newline fun g body hg hrest =>
    Classical.not_not.1 fun hbody => hend ⟨ts, c, g, body, hpa, hg, hrest, hbody⟩
  obtain ⟨us', p, hpb', hus⟩ := hpb.moved (c.pos.after (c.rest ++ ['\n']))
  obtain ⟨d', hpd, hgd⟩ := hpb'.gap_append hgap hgb
  have hstart : Cursor.start (a ++ "\n" ++ b) =
      ⟨(Cursor.start a).rest ++ '\n' :: b.toList, (Cursor.start a).pos⟩ := by
    simp [Cursor.start]
  have hpass : Scan.Passes (.start (a ++ "\n" ++ b)) (ts ++ us') d' := by
    rw [hstart]
    rw [List.append_assoc] at hpd
    exact (hpa.newline b.toList).append hpd
  refine ⟨ts.map Token.lexeme, us.map Token.lexeme, _, by simp; rfl, by simp; rfl, ?_,
    tokenize_eq_iff.2 ⟨?_, Scan.tokens_of_passes hpass hgd⟩, ?_⟩
  · simp only [forall_mem_append, forall_mem_map]
    exact ⟨hpa.kind_ne, hpb.kind_ne⟩
  · intro hnil
    have := congrArg String.toList hnil
    simp at this
  · simp only [map_append, hus, map_cons, map_nil]
    rfl

/-! ### Statements before statements -/

/-- The piece has no end token in it. -/
def Piece.endless : Piece → Bool
  | .token k => k != .eof
  | .after k p => k != .eof && p.endless
  | .opt p | .commas p => p.endless
  | .chain ops p | .once ops p => !ops.elem .eof && p.endless
  | .clauses word _ => word != .eof
  | _ => true

/-- The token, or `v` in place of the end token. -/
def Token.past (v : Lexeme) (t : Token) : Token :=
  ⟨if t.kind = .eof then v.kind else t.kind, if t.kind = .eof then v.text else t.text, t.pos⟩

namespace Token

variable {v : Lexeme} {t : Token} {k : TokenKind} {ks : List TokenKind}

theorem past_of_ne (h : t.kind ≠ .eof) : t.past v = t := by
  simp only [past, if_neg h]

theorem past_of_eq (h : t.kind = k) (hk : k ≠ .eof := by decide) : t.past v = t := past_of_ne (h ▸ hk)

theorem past_of_mem (h : t.kind ∈ ks) (hk : .eof ∉ ks := by decide) : t.past v = t :=
  past_of_ne fun he => hk (he ▸ h)

theorem kind_past (h : t.kind = k) (hk : k ≠ .eof := by decide) : (t.past v).kind = k := by
  rwa [past_of_eq h hk]

theorem past_not_mem (h : t.kind ∉ ks) (hv : v.kind ∉ ks) : (t.past v).kind ∉ ks := by
  unfold past
  split
  · exact hv
  · exact h

end Token

open Token (past_of_ne past_of_eq past_of_mem kind_past past_not_mem)

/-- What is read before an end token is read before other tokens too, unless they go on with it. -/
theorem Reads.past {p : Piece} {l l' : List Token} {ns : List Node} (h : Reads p l ns l')
    (hp : p.endless = true) {v : Lexeme} (hv : v.kind ∉ [.kwElif, .kwElse, .kwCase, .kwDefault])
    (z : List Token) :
    Reads p (l.map (Token.past v) ++ z) ns (l'.map (Token.past v) ++ z) := by
  induction h with
  | token ht => exact .token (kind_past ht (by simpa [Piece.endless] using hp))
  | after ht _ ih =>
    rw [Piece.endless, Bool.and_eq_true] at hp
    exact .after (kind_past ht (by simpa using hp.1)) (ih hp.2)
  | absent => exact .absent
  | present _ ih => exact .present (ih hp)
  | one _ ih => exact .one (ih hp)
  | more _ ht _ ih ihx => exact .more (ih hp) (kind_past ht) (ihx hp)
  | name ht =>
    rw [map_cons, past_of_eq ht]
    exact .name ht
  | base _ ih => exact .base (ih rfl)
  | item _ ht _ hu ihb ihk =>
    have hb := ihb rfl
    rw [map_cons, past_of_eq ht] at hb
    exact .item hb ht (ihk rfl) (kind_past hu)
  | field _ ht hu ihb =>
    have hb := ihb rfl
    simp only [map_cons, past_of_eq ht, past_of_eq hu] at hb
    exact .field hb ht hu
  | function ht _ hu hv _ hw ihp ihb =>
    exact .function (kind_past ht) (ihp rfl) (kind_past hu) (kind_past hv) (ihb rfl) (kind_past hw)
  | call hq _ ht _ hu ihf iha =>
    have hf := ihf (by rcases hq with rfl | rfl <;> rfl)
    rw [map_cons, past_of_eq ht] at hf
    exact .call hq hf ht (iha rfl) (kind_past hu)
  | int ht =>
    rw [map_cons, past_of_eq ht]
    exact .int ht
  | float ht =>
    rw [map_cons, past_of_eq ht]
    exact .float ht
  | string ht =>
    rw [map_cons, past_of_eq ht]
    exact .string ht
  | bool ht =>
    rw [map_cons, past_of_mem ht]
    exact .bool ht
  | null ht => exact .null (kind_past ht)
  | paren ht _ hu ih => exact .paren (kind_past ht) (ih rfl) (kind_past hu)
  | listOf ht _ hu ih => exact .listOf (kind_past ht) (ih rfl) (kind_past hu)
  | mapNone ht hu => exact .mapNone (kind_past ht) (kind_past hu)
  | mapOf ht _ hu ih => exact .mapOf (kind_past ht) (ih rfl) (kind_past hu)
  | setOf ht _ hu ih => exact .setOf (kind_past ht) (ih rfl) (kind_past hu)
  | operand hq _ ih => exact .operand hq (ih (by rcases hq with rfl | rfl | rfl <;> rfl))
  | entry _ ht _ ihk ihv => exact .entry (ihk rfl) (kind_past ht) (ihv rfl)
  | entries _ ht _ hu _ ih ihk ihv => exact .entries (ih rfl) (kind_past ht) (ihk rfl) (kind_past hu) (ihv rfl)
  | first _ ih => exact .first (ih (Bool.and_eq_true _ _ ▸ hp).2)
  | next _ ht _ iha ihb =>
    have hops := Bool.and_eq_true _ _ ▸ hp
    have ha := iha hp
    rw [map_cons, past_of_mem ht (by simpa using hops.1)] at ha
    exact .next ha ht (ihb hops.2)
  | lone _ ih => exact .lone (ih (Bool.and_eq_true _ _ ▸ hp).2)
  | compare _ ht _ iha ihb =>
    have hops := Bool.and_eq_true _ _ ▸ hp
    have ha := iha hops.2
    rw [map_cons, past_of_mem ht (by simpa using hops.1)] at ha
    exact .compare ha ht (ihb hops.2)
  | unsigned _ ih => exact .unsigned (ih rfl)
  | signed ht _ ih =>
    rw [map_cons, past_of_mem ht]
    exact .signed ht (ih rfl)
  | plain _ ih => exact .plain (ih rfl)
  | select _ ht _ hu _ ihc ihy ihn =>
    have hc := ihc rfl
    rw [map_cons, past_of_eq ht] at hc
    exact .select hc ht (ihy rfl) (kind_past hu) (ihn rfl)
  | done => exact .done
  | line _ _ ih ihs => exact .line (ih rfl) (ihs rfl)
  | body _ _ ihk ihb => exact .body (ihk rfl) (ihb rfl)
  | clause _ _ ihc ihb => exact .clause (ihc rfl) (ihb rfl)
  | clauses _ ht _ _ ih ihc ihb =>
    exact .clauses (ih hp) (kind_past ht (by simpa [Piece.endless] using hp)) (ihc rfl) (ihb rfl)
  | empty ht => exact .empty (kind_past ht)
  | block ht _ hu ih => exact .block (kind_past ht) (ih rfl) (kind_past hu)
  | declare ht _ _ ihn ihi =>
    rw [map_cons, past_of_mem ht]
    exact .declare ht (ihn rfl) (ihi rfl)
  | branch ht _ hu ih =>
    exact .branch (kind_past ht) (ih rfl) (past_not_mem hu fun h => hv (mem_of_mem_take (i := 2) h))
  | branchElse ht _ hu _ ih ihb =>
    have hc := ih rfl
    rw [map_cons, past_of_eq hu] at hc
    exact .branchElse (kind_past ht) hc hu (ihb rfl)
  | switch ht _ _ hu _ hw ihe ihk ihc =>
    exact .switch (kind_past ht) (ihe rfl) (ihk rfl) (kind_past hu) (ihc rfl)
      (past_not_mem hw fun h => hv (mem_of_mem_drop (i := 2) h))
  | switchDefault ht _ _ hu _ hw _ ihe ihk ihc ihb =>
    exact .switchDefault (kind_past ht) (ihe rfl) (ihk rfl) (kind_past hu) (ihc rfl) (kind_past hw) (ihb rfl)
  | repeatUntil ht _ hu _ ihb ihc => exact .repeatUntil (kind_past ht) (ihb rfl) (kind_past hu) (ihc rfl)
  | whileLoop ht _ _ ihc ihb => exact .whileLoop (kind_past ht) (ihc rfl) (ihb rfl)
  | forRange ht _ hu _ hw _ _ _ ihx ihs ihe ihd ihb =>
    exact .forRange (kind_past ht) (ihx rfl) (kind_past hu) (ihs rfl) (kind_past hw) (ihe rfl) (ihd rfl) (ihb rfl)
  | forEach ht _ _ hu _ _ ihx ihy ihe ihb =>
    exact .forEach (kind_past ht) (ihx rfl) (ihy rfl) (kind_past hu) (ihe rfl) (ihb rfl)
  | breakLoop ht => exact .breakLoop (kind_past ht)
  | continueLoop ht => exact .continueLoop (kind_past ht)
  | funcStat ht _ _ ihx ihf => exact .funcStat (kind_past ht) (ihx rfl) (ihf rfl)
  | returnNone ht hu => exact .returnNone (kind_past ht) (kind_past hu)
  | returnValue ht _ ih => exact .returnValue (kind_past ht) (ih rfl)
  | assign _ ht _ iha ihe =>
    have ha := iha rfl
    rw [map_cons, past_of_eq ht] at ha
    exact .assign ha ht (ihe rfl)
  | update _ ht _ iha ihe =>
    have ha := iha rfl
    rw [map_cons, past_of_mem ht] at ha
    exact .update ha ht (ihe rfl)
  | callStat _ ih => exact .callStat (ih rfl)

theorem Reads.stats_append {l l₁ l' : List Token} {as bs : List Node} (h : Reads .stats l as l₁)
    (h' : Reads .stats l₁ bs l') : Reads .stats l (as ++ bs) l' := by
  generalize hq : Piece.stats = q at h'
  induction h' with
  | done => rwa [append_nil]
  | @line _ bs _ s _ _ hs ih =>
    have h := Reads.line (ih h hq) hs
    cases hs : s.isEmpty <;> simpa [hs] using h
  | _ => cases hq

/-- The statements of two lists of tokens, the second one after the first. -/
theorem reads_concat {ls ls' : List Lexeme} {as bs : List Node} (hls : ∀ l ∈ ls, l.kind ≠ .eof)
    (ha : Reads .stats ((ls ++ [eof]).map token) as [eof.token])
    (hb : Reads .stats ((ls' ++ [eof]).map token) bs [eof.token]) :
    Reads .stats ((ls ++ ls' ++ [eof]).map token) (as ++ bs) [eof.token] := by
  obtain ⟨v, vs, hvs⟩ := exists_cons_of_ne_nil (append_ne_nil_of_right_ne_nil ls'
    (cons_ne_nil eof []))
  rw [hvs] at hb
  -- the second text begins with a statement, or it is empty
  have hv : v.kind ∉ [.kwElif, .kwElse, .kwCase, .kwDefault] := by
    rcases hb.stats_cases with heq | ⟨t, l, heq, ht⟩
    · have hkind : v.kind = .eof := congrArg Token.kind (List.cons.inj heq).1
      rw [hkind]
      decide
    · have hkind : v.kind = t.kind := congrArg Token.kind (List.cons.inj heq).1
      rw [← hkind] at ht
      have hall : ∀ k ∈ Piece.openers, k ∉ [.kwElif, .kwElse, .kwCase, .kwDefault] := by decide
      exact hall _ ht
  have hseam : ([eof.token].map (Token.past v)) ++ vs.map token = (v :: vs).map token := rfl
  have hfirst := ha.past rfl hv (vs.map token)
  have hkeep : (ls.map token).map (Token.past v) = ls.map token := by
    rw [map_map]
    exact map_congr_left fun l hl => past_of_ne (hls l hl)
  rw [hseam, map_append, map_append, hkeep, List.append_assoc, map_singleton, hseam] at hfirst
  rw [List.append_assoc, hvs, map_append]
  exact hfirst.stats_append hb

/-! ### Whole texts -/

theorem exists_parse_concat {a b : String} {as bs : List Node} (ha : (tokenize a).2 = none)
    (hb : (tokenize b).2 = none) (hpa : parse a = .ok (.program as)) (hpb : parse b = .ok (.program bs))
    (hend : ¬EndsInComment a) : (tokenize (a ++ "\n" ++ b)).2 = none ∧
      ∃ cs, parse (a ++ "\n" ++ b) = .ok (.program cs) ∧ cs.map bare = (as ++ bs).map bare := by
  obtain ⟨ls, ls', vs, hls, hls', hne, hab, hvs⟩ :=
    tokenize_concat (Prod.ext rfl ha) (Prod.ext rfl hb) hend
  rw [forall_mem_append] at hne
  have has : (Node.program as).bare = .program (as.map bare) := by simp
  have hbs : (Node.program bs).bare = .program (bs.map bare) := by simp
  have hreads := reads_concat hne.1
    ((exists_parse_iff_reads (Prod.ext rfl ha) hls hne.1).1 ⟨_, hpa, has⟩)
    ((exists_parse_iff_reads (Prod.ext rfl hb) hls' hne.2).1 ⟨_, hpb, hbs⟩)
  obtain ⟨tree, htree, hbare⟩ := (exists_parse_iff_reads hab hvs (forall_mem_append.2 hne)).2 hreads
  obtain ⟨-, cs, rfl, -⟩ := formed_of_parse htree
  refine ⟨by rw [hab], cs, htree, ?_⟩
  simpa using hbare

/-- Two programs with a newline between them are one program, whose statements are those of the first
and then those of the second. -/
theorem parse_concat {a b : String} {as bs : List Node} (ha : (tokenize a).2 = none)
    (hb : (tokenize b).2 = none) (hpa : parse a = .ok (.program as))
    (hpb : parse b = .ok (.program bs)) (hend : ¬EndsInComment a) :
    (tokenize (a ++ "\n" ++ b)).2 = none ∧ ∃ cs, parse (a ++ "\n" ++ b) = .ok (.program cs) ∧
      cs.map bare = as.map bare ++ bs.map bare := by
  rw [← List.map_append]
  exact exists_parse_concat ha hb hpa hpb hend

/-- A text without `/*` does not end in such a comment. -/
theorem not_endsInComment {src : String} (h : ¬['/', '*'] <:+: src.toList) :
    ¬EndsInComment src := by
  rintro ⟨ts, c, g, body, hp, -, hrest, -⟩
  have hsuffix : c.rest <:+ src.toList := hp.suffix
  rw [hrest] at hsuffix
  exact h (List.IsInfix.trans ⟨g, body, by simp⟩ hsuffix.isInfix)

/-- The line comment ends with its line, and the name after it begins a statement of its own. -/
theorem parse_concat_comment :
    ¬EndsInComment "if x : ; else y = - f // one" ∧
      ∃ as bs cs, parse "if x : ; else y = - f // one" = .ok (.program as) ∧
        parse "g, h = 1, 2 return ;" = .ok (.program bs) ∧
        parse ("if x : ; else y = - f // one" ++ "\n" ++ "g, h = 1, 2 return ;") = .ok (.program cs) ∧
        cs.map bare = as.map bare ++ bs.map bare := by
  have program_of_isOk {src : String} (h : (parse src).isOk = true) :
      ∃ stats, parse src = .ok (.program stats) := by
    have hok := parse_eq_treeOf h
    obtain ⟨stats, htree, -⟩ := isProgram_of_parse hok
    rw [htree] at hok
    exact ⟨stats, hok⟩
  have hokA : (parse "if x : ; else y = - f // one").isOk = true := by decide +kernel
  have hokB : (parse "g, h = 1, 2 return ;").isOk = true := by decide +kernel
  obtain ⟨as, hpa⟩ := program_of_isOk hokA
  obtain ⟨bs, hpb⟩ := program_of_isOk hokB
  have hend : ¬EndsInComment "if x : ; else y = - f // one" :=
    not_endsInComment (by decide +kernel)
  obtain ⟨-, cs, hpc, hcs⟩ := parse_concat (by decide +kernel) (by decide +kernel) hpa hpb hend
  exact ⟨hend, as, bs, cs, hpa, hpb, hpc, hcs⟩

end TinyScript
