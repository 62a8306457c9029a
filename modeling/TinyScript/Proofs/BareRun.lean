import TinyScript.Proofs.Agreement

/-!
# Places have no part in a run

A run copies places into the names of records, into the bodies of functions and into its reports. It
never looks at them, unless the log level asks for the names of records. So trees that differ in places
only are run alike (`agreeBare_visit`): from machines that differ in places only they lead to such
machines again, and what they report differs in its place only.
-/

namespace TinyScript

open Exec Node
open MachineOf (Like)

variable {α : Type} {f : Position → Position} {i j k : Nat} {rs rs' rs'' : List Record}

/-! ### All records have been entered -/

def NoRecords (rs rs' : List Record) : Prop := rs = [] ∧ rs' = []

theorem grounds_noRecords : Grounds NoRecords where
  value h x := by rw [h.1, h.2]
  binding h x := by rw [h.1, h.2]
  rebind h x v := by
    obtain ⟨rfl, rfl⟩ := h
    exact ⟨rfl, rfl⟩
  found h _ _ _ := by rw [h.1, h.2]
  jump h _ _ _ := by
    obtain ⟨rfl, rfl⟩ := h
    exact ⟨rfl, rfl⟩
  setRetval h v := by
    obtain ⟨rfl, rfl⟩ := h
    exact ⟨rfl, rfl⟩

namespace Above

theorem refl (rs : List Record) : Above f NoRecords rs.length rs rs := by
  induction rs with
  | nil => exact .base ⟨rfl, rfl⟩
  | cons r rs ih => exact .cons (.refl r) ih

theorem length (h : Above f NoRecords k rs rs') : rs.length = k ∧ rs'.length = k := by
  induction h with
  | base h =>
    obtain ⟨rfl, rfl⟩ := h
    exact ⟨rfl, rfl⟩
  | cons _ _ ih => exact ⟨congrArg (· + 1) ih.1, congrArg (· + 1) ih.2⟩

theorem symm (h : Above f NoRecords k rs rs') : Above f NoRecords k rs' rs := by
  induction h with
  | base h => exact .base ⟨h.2, h.1⟩
  | cons h _ ih =>
    exact .cons ⟨h.kind.symm, h.members.symm, h.state.symm, h.retval.symm, fun hf => (h.name hf).symm⟩ ih

theorem trans (h : Above f NoRecords k rs rs') (h' : Above f NoRecords k rs' rs'') :
    Above f NoRecords k rs rs'' := by
  induction h generalizing rs'' with
  | base h =>
    cases h' with
    | base h' => exact .base ⟨h.1, h'.2⟩
  | cons h _ ih =>
    cases h' with
    | cons h' hs' =>
      exact .cons ⟨h.kind.trans h'.kind, h.members.trans h'.members, h.state.trans h'.state,
        h.retval.trans h'.retval, fun hf => (h.name hf).trans (h'.name hf)⟩ (ih hs')

end Above

namespace MachineOf.Like

variable {m m' m'' : Machine}

theorem refl (h : m.level < 3) : Like f NoRecords m.stack.records.length m m :=
  ⟨.refl _, .refl _, rfl, rfl, rfl, h⟩

theorem symm (h : Like f NoRecords k m m') : Like f NoRecords k m' m :=
  ⟨h.store.symm, h.records.symm, h.out.symm, h.input.symm, h.level.symm, h.quiet'⟩

theorem trans (h : Like f NoRecords k m m') (h' : Like f NoRecords k m' m'') : Like f NoRecords k m m'' :=
  ⟨h.store.trans h'.store, h.records.trans h'.records, h.out.trans h'.out, h.input.trans h'.input,
    h.level.trans h'.level, h.quiet⟩

end MachineOf.Like

/-! ### Runs that differ in places only -/

/-- The actions agree inside any record, up to places. -/
def AgreeBare (x y : Exec α) : Prop := ∀ i, Agree (fun _ => .start) NoRecords (i + 1) (i + 1) x y

namespace AgreeBare

variable {x y z : Exec α}

theorem symm (h : AgreeBare x y) : AgreeBare y x := by
  intro i m m' hm
  have ended := h i m' m hm.symm
  revert ended
  generalize x m' = r
  generalize y m = r'
  intro ended
  cases ended with
  | ok hm => exact .ok hm.symm
  | error k hm he => exact .error k hm.symm he.symm

theorem trans (h : AgreeBare x y) (h' : AgreeBare y z) : AgreeBare x z := by
  intro i m m' hm
  have refl : Like (fun _ => Position.start) NoRecords (i + 1) m' m' := hm.symm.trans hm
  have ended := h i m m' hm
  have ended' := h' i m' m' refl
  revert ended ended'
  generalize x m = r
  generalize y m' = r'
  generalize z m' = r''
  intro ended ended'
  cases ended with
  | ok hm =>
    cases ended' with
    | ok hm' => exact .ok (hm.trans hm')
  | error k hm he =>
    cases ended' with
    | error l hm' he' =>
      obtain rfl : k = l := hm.records.length.2.symm.trans hm'.records.length.1
      exact .error k (hm.trans hm') (he.trans he')

end AgreeBare

theorem Closure.moved_start (c : Closure) : c.moved (fun _ => .start) = c.bare := by
  have same : Node.moved (fun _ => .start) = Node.bare := funext Node.moved_start
  simp only [Closure.moved, Closure.bare, same]

theorem agreeBare_visit_moved (n : Nat) (node : Node) :
    AgreeBare (Eval.visit n node) (Eval.visit n (node.moved fun _ => .start)) := by
  refine grounds_noRecords.visit (fun n hv => ?_) n node
  -- functions that differ in places only have the same bare form, with which both calls agree
  intro c c' h x args p hx
  have bare : (c.moved fun _ => .start).moved (fun _ => .start) = c'.moved fun _ => .start := by
    rw [Closure.moved_start, Closure.moved_start, Closure.moved_start, Closure.bare_bare, h.1]
  have call : ∀ c, AgreeBare (Eval.callClosure (Eval.visit n) c args p)
      (Eval.callClosure (Eval.visit n) (c.moved fun _ => .start)
        (args.map (List.map (moved fun _ => .start))) .start) := fun c =>
    grounds_noRecords.inside.toWalk.callClosure grounds_noRecords.inside hv c (fun n _ => hv n) p
  have hc := call (c.moved fun _ => .start)
  have hc' := call c'
  rw [bare] at hc
  exact (show AgreeBare x _ from hx).trans (hc.trans hc'.symm)

/-- Trees that differ in places only are run alike. -/
theorem agreeBare_visit (n : Nat) {a b : Node} (h : a.bare = b.bare) :
    AgreeBare (Eval.visit n a) (Eval.visit n b) := by
  have ha := agreeBare_visit_moved n a
  have hb := agreeBare_visit_moved n b
  rw [moved_start, h, ← moved_start] at ha
  exact ha.trans hb.symm

end TinyScript
