import TinyScript.Proofs.Formed
import TinyScript.Proofs.RunEvolution

/-!
# How a program can fail

A program that is run on a new machine fails with a report, or with a failure that one of its own
constructs lets through: a `switch` on values of two types, a call of what is no function, a division
by zero, and so on through `Node.raises`. Apart from these the input may come to an end, and a value
that contains itself has no text.
-/

namespace TinyScript

open Exec

/-- Only nodes of the tree may be run. -/
def Setting.ofTree (tree : Node) (level : Int) : Setting := ⟨tree.Occurs, level, fun _ => False, none⟩

theorem Setting.closed_ofTree (tree : Node) (level : Int) : (Setting.ofTree tree level).Closed :=
  fun _ hn _ hk => .part hn hk

theorem Setting.spared_ofTree (tree : Node) (level : Int) (stop : Nat → Node → Machine → Bool) :
    (Setting.ofTree tree level).Spared stop := fun _ _ _ _ _ _ _ _ _ _ _ h => h

/-- Unless messages for debugging are written, a failure is a report, or some node of the program
raises it, or the input has come to an end, or a value has no text since it contains itself. -/
theorem interpret_failure {src : String} {tree : Node} {input : List Char} {level : Int} {fuel : Nat}
    {f : Failure} {m m' : Machine} (hl : LogLevel.debug.shows level = false)
    (hp : parse src = .ok tree) (hb : Host.boot { input := input, level := level } = .ok () m)
    (h : interpret fuel tree m = .error (.failed f) m') :
    (∃ p i, f = .report ⟨.interpreter, p, i⟩) ∨ f = .fault .endOfInput ∨ f = .fault .tooDeep ∨
      ∃ n, tree.Occurs n ∧ f ∈ n.raises := by
  have good := (wp_of_ok hb).1 (good_boot (c := .ofTree tree level) input level rfl)
  have runs := runs_unwatched (S := []) (Setting.closed_ofTree tree level)
    (Setting.spared_ofTree tree level fun _ _ _ => false) rfl fuel (isProgram_of_parse hp) .self good.1
  rw [Eval.visitCut_false] at runs
  have failed : Eval.visit fuel tree m = .error (.failed f) m' := by
    cases hv : Eval.visit fuel tree m with
    | ok v m₁ =>
      rw [interpret, bind_of_ok hv] at h
      cases h
    | error e m₁ =>
      rw [interpret, bind_of_error hv] at h
      cases h
      rfl
  have excused : Excused (.ofTree tree level) (.failed f) := ((wp_of_error failed).1 runs).2.2
  unfold Excused at excused
  rcases excused with shown | ⟨p, i, report, -⟩ | excuse
  · rw [Setting.ofTree, hl] at shown
    cases shown
  · exact .inl ⟨p, i, report⟩
  · exact .inr excuse

/-- A `switch` on values of two types. -/
def switchOnTypes : String := "switch 1 case 'a' : ; default : ;"

/-- The comparison fails, no report is made of it, and the program has a node that raises it. -/
theorem interpret_failure_switch :
    parse switchOnTypes = .ok (treeOf switchOnTypes) ∧
    (∃ m', interpret 9 (treeOf switchOnTypes) (leaves Host.boot {}) =
      .error (.failed (.operand .typesDiffer)) m') ∧
    ∃ n, (treeOf switchOnTypes).Occurs n ∧ .operand .typesDiffer ∈ n.raises := by
  have parsed : parse switchOnTypes = .ok (treeOf switchOnTypes) := parse_eq_treeOf (by decide +kernel)
  obtain ⟨_, booted⟩ := eq_ok_of_succeeds (x := (Host.boot : Exec Unit)) (m := {}) (by decide +kernel)
  have failed := eq_error_of_halt? (x := interpret 9 (treeOf switchOnTypes))
    (m := leaves Host.boot {}) (e := .failed (.operand .typesDiffer)) (by decide +kernel)
  refine ⟨parsed, ⟨_, failed⟩, ?_⟩
  rcases interpret_failure (by decide) parsed booted failed with ⟨_, _, h⟩ | h | h | h
  · cases h
  · cases h
  · cases h
  · exact h

end TinyScript
