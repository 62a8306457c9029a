import TinyScript.Proofs.Jams
import TinyScript.Proofs.StyleFailures
import TinyScript.Proofs.Syntax

/-!
# The tight style

The tight text ends each statement with a semicolon, also a body that is no block. A clause after such a
body is no part of the branch any more, and nothing else begins with `elif` or `else`. If the loose text of
a tree is a program, the tight text is one exactly if the tree is roomy, and then it is the same program.
-/

namespace TinyScript

open Precedence

theorem Node.exists_reading {es : List Node} (h : ∀ e ∈ es, e.Readable) :
    ∃ f : Node → Node, ∀ e ∈ es, Written choice (f e) e.wording := by
  have hall : ∀ e, ∃ e', e ∈ es → Written choice e' e.wording := by
    intro e
    by_cases he : e ∈ es
    · obtain ⟨e', hw⟩ := h e he
      exact ⟨e', fun _ => hw⟩
    · exact ⟨e, fun hmem => absurd hmem he⟩
  exact Classical.skolem.1 hall

/-- If the loose text of a tree is a program, then the tight text is one exactly if no clause is written
after a body that is no block, and it is the same program. -/
theorem parse_format_tight_iff {src : String} {tree loose : Node} (h : parse src = .ok tree)
    (hf : (format false tree).failure = none) (hc : ∀ e ∈ tree.exprs, e.clear = true)
    (hp : parse (format false tree).text = .ok loose) :
    (format true tree).failure = none ∧
      ((∃ tight, parse (format true tree).text = .ok tight) ↔ tree.roomy = true) ∧
      ∀ tight, parse (format true tree).text = .ok tight → tight.bare = loose.bare := by
  obtain ⟨-, stats, rfl, hformed⟩ := formed_of_parse h
  have hne : stats ≠ [] := by
    rintro rfl
    cases hp
  have hf' : (format true (.program stats)).failure = none := (Node.failure_layout _ _ _).trans hf
  -- the loose text says which expressions the written ones are
  have hfits := hformed.fits hne hf hc hp
  have hread : ∀ e ∈ (Node.program stats).exprs, e.Readable := by
    rw [Node.exprs, Node.exprsAll_eq]
    intro e he
    obtain ⟨x, hx, he⟩ := List.mem_flatMap.1 he
    exact (hfits x hx).readable e he
  obtain ⟨f, hw⟩ := Node.exists_reading hread
  obtain ⟨loose', hloose, hbare⟩ := hformed.exists_parse hne hf hc hw (by simp)
  cases hp.symm.trans hloose
  have hroomy (tight : Node) (ht : parse (format true (.program stats)).text = .ok tight) :
      (Node.program stats).roomy = true := by
    rw [Node.roomy, Node.roomyAll_eq, List.all_eq_true]
    exact fun x hx => (hformed.fits hne hf' hc ht x hx).roomy rfl
  refine ⟨hf', ⟨fun htight => htight.elim hroomy, fun hroom => ?_⟩, fun tight ht => ?_⟩
  · obtain ⟨tight, ht, -⟩ := hformed.exists_parse hne hf' hc hw fun _ => hroom
    exact ⟨tight, ht⟩
  · obtain ⟨tight', ht', hbare'⟩ := hformed.exists_parse hne hf' hc hw fun _ => hroomy tight ht
    cases ht.symm.trans ht'
    exact hbare'.trans hbare.symm

/-- A clause after a body without braces. -/
def bareBranches : String := "if a : x = 1 else : y = 2"

/-- A body without braces where no clause comes after it, and a last clause that is not written. -/
def bracedBranches : String :=
  "if a \x7b x = 1 + b * 2 \x7d elif not -b \x7b if c : f('x') elif d : g() \x7d else while c : y = 2"

theorem parse_format_tight_iff_branches :
    (parse bareBranches = .ok (treeOf bareBranches) ∧ (format false (treeOf bareBranches)).failure = none ∧
      ¬ ∃ tight, parse (format true (treeOf bareBranches)).text = .ok tight) ∧
    ∃ loose tight, parse (format false (treeOf bracedBranches)).text = .ok loose ∧
      parse (format true (treeOf bracedBranches)).text = .ok tight ∧ tight.bare = loose.bare := by
  have hbare : parse bareBranches = .ok (treeOf bareBranches) := parse_eq_treeOf (by decide +kernel)
  have hbareLoose := @parse_eq_treeOf (format false (treeOf bareBranches)).text (by decide +kernel)
  have hbraced : parse bracedBranches = .ok (treeOf bracedBranches) := parse_eq_treeOf (by decide +kernel)
  have hloose := @parse_eq_treeOf (format false (treeOf bracedBranches)).text (by decide +kernel)
  have hfail : (format false (treeOf bareBranches)).failure = none := by decide +kernel
  have h₁ := parse_format_tight_iff hbare hfail (by decide +kernel) hbareLoose
  have h₂ := parse_format_tight_iff hbraced (by decide +kernel) (by decide +kernel) hloose
  obtain ⟨tight, ht⟩ := h₂.2.1.2 (by decide +kernel)
  refine ⟨⟨hbare, hfail, fun h => ?_⟩, _, tight, hloose, ht, h₂.2.2 tight ht⟩
  exact absurd (h₁.2.1.1 h) (by decide +kernel)

end TinyScript
