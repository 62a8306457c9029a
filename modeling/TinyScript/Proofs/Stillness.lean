import TinyScript.Proofs.RunEvolution

/-!
# Programs without compound assignments

A compound assignment is the only statement that changes a number or a string in place. In programs
without one, all values but lists and maps stay as they are once they have been made, and all maps
with plain keys are tidy (`still_of_reachable`).
-/

namespace TinyScript

open Exec

namespace Node

variable {n k : Node}

/-- No compound assignment occurs in the node. -/
def Still (n : Node) : Prop := ∀ op t e p, ¬n.Occurs (.update op t e p)

theorem Still.part (h : n.Still) (hk : k ∈ n.parts) : k.Still :=
  fun op t e p ho => h op t e p (.of_part hk ho)

theorem still_of_parts (hn : ∀ op t e p, n ≠ .update op t e p) (h : ∀ k ∈ n.parts, k.Still) :
    n.Still := by
  intro op t e p ho
  rcases occurs_iff.1 ho with eq | ⟨k, hk, ho⟩
  · exact hn op t e p eq.symm
  · exact h k hk op t e p ho

/-- Looks for compound assignments in parts of parts, down to depth `d`. -/
def isStill : Nat → Node → Bool
  | 0, _ => false
  | _, .update .. => false
  | d + 1, n => n.parts.all (isStill d)

theorem still_of_isStill {d : Nat} (h : n.isStill d = true) : n.Still := by
  induction d generalizing n with
  | zero => cases n <;> cases h
  | succ d ih =>
    have found : (∀ op t e p, n ≠ .update op t e p) ∧ n.parts.all (isStill d) = true := by
      cases n with
      | update => cases h
      | _ => exact ⟨fun _ _ _ _ e => (by cases e), h⟩
    exact still_of_parts found.1 fun k hk => ih (List.all_eq_true.1 found.2 k hk)

end Node

/-- No compound assignment may occur, and no value but lists and maps may change. -/
def Setting.still (level : Int) : Setting := ⟨Node.Still, level, fun _ => True, none⟩

theorem Setting.closed_still (level : Int) : (Setting.still level).Closed :=
  fun _ hn _ hk => Node.Still.part hn hk

theorem Setting.spared_still (level : Int) (stop : Nat → Node → Machine → Bool) :
    (Setting.still level).Spared stop :=
  fun _ op t e p _ hn _ _ _ _ _ => hn op t e p .self

theorem visits_still (level : Int) (stop : Nat → Node → Machine → Bool) (k : Nat) :
    Visits (.still level) (Eval.visitCut stop k) :=
  visits_visitCut (Setting.closed_still level) (Setting.spared_still level stop) k

/-- A good machine whose maps are tidy. -/
structure MachineOf.Still (m : Machine) : Prop where
  good : m.Good (.still m.level) none
  tidy : m.store.Tidy

variable {m m' : Machine} {S : List String} {α : Type}

/-- What has become of a value that is no list and no map. -/
theorem Store.Evolves.get_eq {s s' : Store} {level : Int} (h : s.Evolves (.still level) s')
    {r : Ref} {v : Value} (hr : s.get r = v) (hv : v.isContainer = false) (ne : v ≠ .blank) :
    s'.get r = v := by
  have lt : r.index < s.cells.size := lt_of_get_ne (hr ▸ ne)
  exact (h.frozen r lt trivial (hr ▸ hv)).trans hr

namespace MachineOf.Still

theorem proceeds (h : m.Still) (hg : m'.Good (.still m.level) none) (hp : Proceeds (.still m.level) S m m') :
    m'.Still where
  good := by
    rw [hg.level]
    exact hg
  tidy := hp.store.tidy (fun _ => trivial) h.tidy

/-- Machines with the same store, records and level. -/
theorem congr (h : m.Still) (hs : m'.store = m.store) (hr : m'.stack.records = m.stack.records)
    (hl : m'.level = m.level) : m'.Still where
  good := by
    rw [hl]
    exact h.good.congr hs hr hl
  tidy := by
    rw [hs]
    exact h.tidy

end MachineOf.Still

/-- However a run ends, it leaves such a machine behind. -/
theorem Runs.still {X : Halt → Prop} {x : Exec α} {Q : α → Machine → Prop}
    (h : Runs (.still m.level) S none X x Q m) (hm : m.Still) :
    wp x (fun _ m' => m'.Still) (fun _ m' => m'.Still) m := by
  refine wp_mono h (fun _ m' h' => hm.proceeds h'.1 h'.2.1) fun _ m' h' => ?_
  refine ⟨?_, h'.2.1.store.tidy (fun _ => trivial) hm.tidy⟩
  rw [h'.1.level]
  exact h'.1

/-- The machines of sessions on programs without compound assignments. -/
theorem still_of_reachable (hm : Reachable (fun t => t.IsProgram ∧ t.Still) m) : m.Still := by
  refine Reachable.induct_runs (I := MachineOf.Still) (fun input level => ?_)
    (fun _ _ _ h => h.congr rfl rfl rfl) (fun stop fuel tree m ht h => ?_) hm
  · refine wp_mono (good_boot (c := .still level) input level rfl) (fun _ m₁ h => ⟨?_, h.2.1⟩)
      fun _ _ h => h
    rw [h.1.level]
    exact h.1
  · exact (runs_unwatched (S := []) (Setting.closed_still _) (Setting.spared_still _ stop) rfl fuel ht.1
      ht.2 h.good).still h

end TinyScript
