import TinyScript.Proofs.Scanning

/-!
# The longest operator

The scanner goes through the table of operators in order and takes the first one that the text starts
with. That is the longest one if no operator of the table begins one that stands after it. In the table
this is so but for `*` and `*=`, which stand before `**` and `**=` (`pairwise_operators`). Main statement
(`token_operator`): where an operator stands, the longest one is read, unless the text goes on with two
stars; then one star is read.
-/

namespace TinyScript

open List

open TokenKind (operators)

namespace Scan

variable {cs rest : List Char} {k : TokenKind}

/-- `k` is the longest operator that the text starts with. -/
structure Longest (cs : List Char) (k : TokenKind) : Prop where
  mem : k ∈ operators
  starts : k.spelling.toList <+: cs
  le : ∀ k' ∈ operators, k'.spelling.toList <+: cs → k'.spelling.length ≤ k.spelling.length

/-- The operators in the order of the table, each tried on the text. -/
def firstOperator? (cs : List Char) : Option TokenKind :=
  operators.find? fun k => k.spelling.toList.isPrefixOf cs

theorem starts_of_firstOperator? (h : firstOperator? cs = some k) :
    k ∈ operators ∧ k.spelling.toList <+: cs := by
  have hstarts := find?_some h
  exact ⟨mem_of_find?_eq_some h, isPrefixOf_iff_prefix.1 hstarts⟩

theorem exists_firstOperator? (h : ∃ k ∈ operators, k.spelling.toList <+: cs) :
    ∃ k, firstOperator? cs = some k := by
  obtain ⟨k, hk, hstarts⟩ := h
  refine Option.isSome_iff_exists.1 (find?_isSome.2 ⟨k, hk, ?_⟩)
  exact isPrefixOf_iff_prefix.2 hstarts

/-- An operator does not begin one that stands after it, if that one is no power. -/
theorem pairwise_operators : operators.Pairwise fun k k' =>
    k.spelling.toList <+: k'.spelling.toList → k' ∈ [.selfPow, .pow] := by
  decide +kernel

/-- Two stars are never read as one operator. -/
theorem firstOperator?_stars (rest : List Char) :
    firstOperator? ('*' :: '*' :: rest) = some .mul := rfl

theorem longest_of_firstOperator? (h : firstOperator? cs = some k) (hstars : ¬['*', '*'] <+: cs) :
    Longest cs k := by
  obtain ⟨hmem, hstarts⟩ := starts_of_firstOperator? h
  refine ⟨hmem, hstarts, fun k' hk' hstarts' => ?_⟩
  obtain ⟨-, before, after, htable, hbefore⟩ := find?_eq_some_iff_append.1 h
  have hpairs := pairwise_operators
  rw [htable] at hk' hpairs
  rcases mem_append.1 hk' with hk' | hk'
  · have hno := hbefore k' hk'
    rw [List.isPrefixOf_iff_prefix.2 hstarts'] at hno
    cases hno
  rcases mem_cons.1 hk' with rfl | hk'
  · exact Nat.le_refl _
  -- a longer operator after `k` would begin with `k`, so it is a power
  · refine Nat.le_of_not_lt fun hlt => hstars ?_
    have hprefix : k.spelling.toList <+: k'.spelling.toList := by
      refine prefix_of_prefix_length_le hstarts hstarts' ?_
      rw [String.length_toList, String.length_toList]
      exact Nat.le_of_lt hlt
    have hpower := (pairwise_cons.1 (pairwise_append.1 hpairs).2.1).1 k' hk' hprefix
    have hpowers : ∀ p ∈ [TokenKind.selfPow, .pow], ['*', '*'] <+: p.spelling.toList := by decide
    exact (hpowers k' hpower).trans hstarts'

theorem longest_iff_of_firstOperator? (h : firstOperator? cs = some k) :
    Longest cs k ↔ ¬['*', '*'] <+: cs := by
  refine ⟨fun hk hstars => ?_, longest_of_firstOperator? h⟩
  obtain ⟨rest, rfl⟩ := id hstars
  rw [cons_append, cons_append, nil_append, firstOperator?_stars] at h
  cases h
  exact absurd (hk.le .pow (by decide) hstars) (by decide)

/-- Where an operator stands the first one of the table is read. -/
theorem token_of_firstOperator? {c c₁ : Cursor} (hskip : skipGap c = .ok () c₁)
    (h : firstOperator? c₁.rest = some k) :
    token c = .ok ⟨k, some k.spelling, c₁.pos⟩ (c₁.skip k.spelling.length) := by
  obtain ⟨hmem, hstarts⟩ := starts_of_firstOperator? h
  obtain ⟨d, ds, hspelling, hdigit, hquote, hword⟩ := exists_spelling hmem
  have hop : operator c₁ = .ok ⟨k, some k.spelling, c₁.pos⟩ (c₁.skip k.spelling.length) := by
    unfold operator
    rw [show operators.find? (fun k => k.spelling.toList.isPrefixOf c₁.rest) = some k from h]
  rw [hspelling] at hstarts
  obtain ⟨rest, hrest⟩ := hstarts
  cases hskip
  obtain ⟨cs, p⟩ := c
  rw [token_eq, ← hop]
  simp only [← hrest, cons_append, hdigit, hquote, hword, Bool.false_eq_true, if_false]

end Scan

/-- Where an operator stands, the scanner, and so the lexer (`Lexer.follows_token`), reads the longest one
and takes exactly its characters; but of two stars only one is read. -/
theorem token_operator {c c₁ : Cursor} (hskip : Scan.skipGap c = .ok () c₁)
    (hop : ∃ k ∈ operators, k.spelling.toList <+: c₁.rest) :
    ∃ k, Scan.token c = .ok ⟨k, some k.spelling, c₁.pos⟩ (c₁.skip k.spelling.length) ∧
      k ∈ operators ∧ k.spelling.toList <+: c₁.rest ∧
      (Scan.Longest c₁.rest k ↔ ¬['*', '*'] <+: c₁.rest) ∧ (['*', '*'] <+: c₁.rest → k = .mul) := by
  obtain ⟨k, hk⟩ := Scan.exists_firstOperator? hop
  obtain ⟨hmem, hstarts⟩ := Scan.starts_of_firstOperator? hk
  refine ⟨k, Scan.token_of_firstOperator? hskip hk, hmem, hstarts,
    Scan.longest_iff_of_firstOperator? hk, ?_⟩
  rintro ⟨rest, hstars⟩
  rw [← hstars] at hk
  exact (Option.some.inj ((Scan.firstOperator?_stars rest).symm.trans hk)).symm

/-- An operator of three characters after a comment, and a power. -/
theorem token_operator_shift :
    Scan.skipGap (.start " /**/<<=1") = .ok () ⟨"<<=1".toList, ⟨1, 6⟩⟩ ∧
    (∃ k, Scan.token (.start " /**/<<=1") =
        .ok ⟨k, some k.spelling, ⟨1, 6⟩⟩ ((⟨"<<=1".toList, ⟨1, 6⟩⟩ : Cursor).skip k.spelling.length) ∧
      Scan.Longest "<<=1".toList k) ∧
    Scan.skipGap (.start "**2") = .ok () (.start "**2") ∧
    Scan.token (.start "**2") = .ok ⟨.mul, some "*", ⟨1, 1⟩⟩ ⟨"*2".toList, ⟨1, 2⟩⟩ ∧
    ¬Scan.Longest "**2".toList .mul := by
  have shift : Scan.skipGap (.start " /**/<<=1") = .ok () ⟨"<<=1".toList, ⟨1, 6⟩⟩ :=
    congrArg (EStateM.Result.ok ()) (by decide +kernel)
  have power : Scan.skipGap (.start "**2") = .ok () (.start "**2") :=
    congrArg (EStateM.Result.ok ()) (by decide +kernel)
  obtain ⟨k, hk, -, -, hlongest, -⟩ := token_operator shift ⟨.lt, by decide, by decide⟩
  obtain ⟨k', hk', -, -, hlongest', hmul⟩ := token_operator power ⟨.mul, by decide, by decide⟩
  obtain rfl : k' = .mul := hmul (by decide)
  exact ⟨shift, ⟨k, hk, hlongest.2 (by decide)⟩, power, hk', fun h => hlongest'.1 h (by decide)⟩

end TinyScript
