import TinyScript.Proofs.Traversal

/-!
# The call stack is a stack

`Balanced`: an action that ends well leaves the records it found, in their order and linked as they
were; one that is halted leaves them with further records on top. Records are told by their skeleton.
Only `within` enters and leaves records, so that every action of the evaluator is balanced, whatever
tree it runs (`balanced_visitCut`). `Linked` holds of a machine that has just been started, and
depends on skeletons only.
-/

namespace TinyScript

open Exec List

variable {σ ρ α β : Type}
variable {r : RecordOf σ ρ}

/-! ### Balanced actions -/

namespace CallStackOf

theorem skeleton_push (cs : CallStackOf σ ρ) (r : RecordOf σ ρ) :
    (cs.push r).skeleton = cs.skeleton.push r.skeleton := by
  simp [push, skeleton, RecordOf.skeleton]

theorem skeleton_pop (cs : CallStackOf σ ρ) : cs.pop.2.skeleton = cs.skeleton.pop.2 := by
  cases h : cs.records <;> simp [pop, current?, skeleton, RecordOf.skeleton, h]

theorem pop_push (cs : CallStackOf σ ρ) (r : RecordOf σ ρ) : (cs.push r).pop.2 = cs := by
  simp [push, pop, current?]

/-- The second stack is the first one with records put on top. -/
inductive Pushed : CallStackOf Unit Unit → CallStackOf Unit Unit → Prop
  | refl {cs} : Pushed cs cs
  | push {cs cs'} (r : RecordOf Unit Unit) (h : Pushed (cs.push r) cs') : Pushed cs cs'

end CallStackOf

open CallStackOf (Pushed)

/-- Every record stays where it is, and none is left on top unless the action is halted. -/
def Balanced (x : ExecOf σ ρ α) : Prop := ∀ m,
  wp x (fun _ m' => m'.stack.skeleton = m.stack.skeleton)
    (fun _ m' => Pushed m.stack.skeleton m'.stack.skeleton) m

namespace Balanced

variable {x : ExecOf σ ρ α} {f : α → ExecOf σ ρ β}

/-- An action that leaves the skeleton of the stack alone, however it ends. -/
theorem of_kept (hok : ∀ m a m', x m = .ok a m' → m'.stack.skeleton = m.stack.skeleton)
    (herr : ∀ m e m', x m = .error e m' → m'.stack.skeleton = m.stack.skeleton) : Balanced x := by
  intro m
  cases h : x m with
  | ok a m' => exact (wp_of_ok h).2 (hok m a m' h)
  | error e m' =>
    rw [wp_of_error h, herr m e m' h]
    exact .refl

theorem pure (a : α) : Balanced (Pure.pure a : ExecOf σ ρ α) := fun _ => (wp_pure a).2 rfl

theorem bind (hx : Balanced x) (hf : ∀ a, Balanced (f a)) : Balanced (x >>= f) := by
  intro m
  refine wp_bind.2 (wp_mono (hx m) (fun a m₁ h₁ => ?_) fun _ _ h => h)
  refine wp_mono (hf a m₁) (fun _ m₂ h₂ => h₂.trans h₁) fun _ m₂ h₂ => ?_
  rwa [h₁] at h₂

theorem ite {c : Prop} [Decidable c] {y : ExecOf σ ρ α} (hx : Balanced x) (hy : Balanced y) :
    Balanced (if c then x else y) := by
  split
  · exact hx
  · exact hy

theorem halt (e : Halt) : Balanced (throw e : ExecOf σ ρ α) :=
  of_kept (fun _ _ _ h => by cases h) fun _ _ _ h => by cases h; rfl

theorem get : Balanced (MonadState.get : ExecOf σ ρ (MachineOf σ ρ)) :=
  of_kept (fun _ _ _ h => by cases h; rfl) fun _ _ _ h => by cases h

theorem mem (x : Mem α) : Balanced (Exec.mem x : ExecOf σ ρ α) := by
  refine of_kept (fun m a m' h => ?_) fun m e m' h => ?_ <;> unfold Exec.mem at h <;> split at h <;>
    cases h <;> rfl

theorem ofExcept (x : Except Failure α) : Balanced (Exec.ofExcept x : ExecOf σ ρ α) := by
  refine of_kept (fun m a m' h => ?_) fun m e m' h => ?_ <;> unfold Exec.ofExcept at h <;>
    split at h <;> cases h <;> rfl

theorem emit (s : String) : Balanced (Exec.emit s : ExecOf σ ρ Unit) :=
  of_kept (fun _ _ _ h => by cases h; rfl) fun _ _ _ h => by cases h

theorem log (l : LogLevel) (s : String) : Balanced (Exec.log l s : ExecOf σ ρ Unit) :=
  of_kept (fun _ _ _ h => by cases h; rfl) fun _ _ _ h => by cases h

theorem stackListing [ToString σ] : Balanced (Exec.stackListing : ExecOf σ ρ String) := fun m =>
  (wp_congr (x := Exec.stackListing) (y := Exec.ofExcept (m.stack.render m.store)) rfl).2
    (ofExcept _ m)

theorem logStack [ToString σ] : Balanced (Exec.logStack : ExecOf σ ρ Unit) :=
  bind get fun _ => ite (bind stackListing fun _ => emit _) (pure _)

theorem readLine : Balanced (Exec.readLine : ExecOf σ ρ String) := by
  refine of_kept (fun m a m' h => ?_) fun m e m' h => ?_ <;> unfold Exec.readLine at h <;>
    split at h <;> cases h <;> rfl

theorem turn {k : Handled} {handle : k.Error → ExecOf σ ρ α}
    (hh : ∀ e m, ∃ h, handle e m = .error h m) (hx : Balanced x) : Balanced (k.turn handle x) := by
  intro m
  rcases k.turn_cases handle x m with h | ⟨e, m', h, h'⟩
  · exact (wp_congr h).2 (hx m)
  · obtain ⟨h₁, e₁⟩ := hh e m'
    exact (wp_of_error (h'.trans e₁)).2 ((wp_of_error h).1 (hx m))

theorem modifyStack {g : CallStackOf σ ρ → CallStackOf σ ρ}
    (hg : ∀ cs, (g cs).skeleton = cs.skeleton) : Balanced (Exec.modifyStack g) :=
  of_kept (fun _ _ _ h => by cases h; exact hg _) fun _ _ _ h => by cases h

/-- What `enter` does to the stack, also where it fails to list it. -/
theorem wp_enter [ToString σ] (r : RecordOf σ ρ) (m : MachineOf σ ρ) :
    wp (Exec.enter r) (fun _ m' => m'.stack.skeleton = m.stack.skeleton.push r.skeleton)
      (fun _ m' => Pushed (m.stack.skeleton.push r.skeleton) m'.stack.skeleton) m := by
  have rest := bind (log .debug s!"enter ar: {r.name}") fun _ => logStack (σ := σ) (ρ := ρ)
  rw [Exec.enter, wp_bind, wp_modifyStack, ← CallStackOf.skeleton_push]
  exact rest { m with stack := m.stack.push r }

theorem wp_leave [ToString σ] {m : MachineOf σ ρ} {cs : CallStackOf Unit Unit}
    {r : RecordOf Unit Unit} (hm : m.stack.skeleton = cs.push r) :
    wp (Exec.leave : ExecOf σ ρ Unit) (fun _ m' => m'.stack.skeleton = cs)
      (fun _ m' => Pushed cs m'.stack.skeleton) m := by
  cases hr : m.stack.records with
  | nil => simp [CallStackOf.skeleton, CallStackOf.push, hr] at hm
  | cons r₁ rs =>
    have hc : m.stack.current? = some r₁ := by simp [CallStackOf.current?, hr]
    rw [Exec.leave, wp_bind, wp_get, hc]
    refine wp_bind.2 (wp_mono (log .debug s!"leave: {r₁.name}" m) (fun _ m₁ h₁ => ?_)
      fun _ _ h => ?_)
    · refine wp_bind.2 (wp_mono (logStack m₁) (fun _ m₂ h₂ => ?_) fun _ _ h => ?_)
      · rw [wp_modifyStack, CallStackOf.skeleton_pop, h₂, h₁, hm, CallStackOf.pop_push]
      · rw [h₁, hm] at h
        exact .push r h
    · rw [hm] at h
      exact .push r h

theorem within [ToString σ] (hx : Balanced x) : Balanced (Exec.within r x) := by
  intro m
  refine wp_bind.2 (wp_mono (wp_enter r m) (fun _ m₁ h₁ => ?_) fun _ _ h => .push _ h)
  refine wp_bind.2 (wp_mono (hx m₁) (fun a m₂ h₂ => ?_) fun _ _ h => ?_)
  · refine wp_bind.2 (wp_mono (wp_leave (h₂.trans h₁)) (fun _ m₃ h₃ => ?_) fun _ _ h => h)
    exact (wp_pure a).2 h₃
  · rw [h₁] at h
    exact .push _ h

/-- Balance is a property of one action, so that it does not matter what the action is compared
with. -/
theorem respected : Respected (fun x _ => Balanced x) where
  pure := pure
  bind := bind
  halt := halt
  read hg := bind get fun m => hg m m rfl rfl
  mem := mem
  ofExcept := ofExcept
  emit := emit
  log := log
  readLine := readLine
  modifyStack := modifyStack
  within := within
  turn hh := turn fun e m => (hh e).imp fun _ h => h m

theorem iterate {γ : Type} {step : γ → Exec (Option γ)} (hs : ∀ c, Balanced (step c)) (n : Nat)
    (c : γ) : Balanced (Eval.iterate step n c) := by
  induction n generalizing c with
  | zero => exact halt _
  | succ n ih =>
    refine bind (hs c) fun next => ?_
    split
    · exact ih _
    · exact pure _

end Balanced

/-- Runs are balanced, also those that are cut short. -/
theorem balanced_visitCut (stop : Nat → Node → Machine → Bool) (n : Nat) (node : Node) :
    Balanced (Eval.visitCut stop n node) := by
  induction n generalizing node with
  | zero => exact .halt _
  | succ n ih =>
    intro m
    rcases Eval.visitCut_cases stop n node m with h | h
    · exact (wp_of_error h).2 .refl
    · have step := @Respected.visitWith _ Balanced.respected (Eval.visitCut stop n)
        (Eval.visitCut stop n) ih n n (fun hs => Balanced.iterate hs n) node
      exact (wp_congr h).2 (step m)

/-! ### Links -/

namespace CallStackOf

variable {cs : CallStackOf σ ρ} {r' : RecordOf σ ρ} {i : Nat} {cs' : CallStackOf Unit Unit}

/-- Record number `i`, in the order of entering, from 1. -/
def record? (cs : CallStackOf σ ρ) (i : Nat) : Option (RecordOf σ ρ) :=
  if i = 0 then none else cs.records.reverse[i - 1]?

/-- The records that the links lead through, from number `i` on; `n` bounds their number. -/
def outward (cs : CallStackOf σ ρ) : Nat → Option Nat → List (RecordOf σ ρ)
  | n + 1, some i =>
    match cs.record? i with
    | some r => r :: cs.outward n r.outer
    | none => []
  | _, _ => []

/-- What tells the records apart, the outermost first. -/
def frames (cs : CallStackOf σ ρ) : List (String × RecordKind × Int) :=
  cs.records.reverse.map fun r => (r.name, r.kind, r.level)

/-- The records are numbered by their levels, each is linked to the one below it, and at the bottom
is the global record. -/
structure Linked (cs : CallStackOf σ ρ) : Prop where
  level : cs.level = cs.records.length
  current : cs.current = some cs.records.length
  levels : ∀ i r, cs.record? i = some r → r.level = i
  outers : ∀ i r, cs.record? i = some r → r.outer = if i = 1 then none else some (i - 1)
  global : ∃ r, cs.record? 1 = some r ∧ r.name = "__global" ∧ r.kind = .program

theorem record?_succ (cs : CallStackOf σ ρ) (i : Nat) :
    cs.record? (i + 1) = cs.records.reverse[i]? := by
  simp [record?]

theorem record?_skeleton (cs : CallStackOf σ ρ) (i : Nat) :
    cs.skeleton.record? i = (cs.record? i).map (·.skeleton) := by
  cases i with
  | zero => rfl
  | succ i => rw [record?_succ, record?_succ, skeleton, ← map_reverse, getElem?_map]

theorem linked_skeleton : cs.skeleton.Linked ↔ cs.Linked := by
  have len : cs.skeleton.records.length = cs.records.length := by simp [skeleton]
  constructor
  · intro h
    refine ⟨len ▸ h.level, len ▸ h.current, fun i r hr => ?_, fun i r hr => ?_, ?_⟩
    · exact h.levels i r.skeleton (by rw [record?_skeleton, hr]; rfl)
    · exact h.outers i r.skeleton (by rw [record?_skeleton, hr]; rfl)
    · obtain ⟨r, hr, hg⟩ := h.global
      rw [record?_skeleton, Option.map_eq_some_iff] at hr
      obtain ⟨r', hr', rfl⟩ := hr
      exact ⟨r', hr', hg⟩
  · intro h
    refine ⟨len.symm ▸ h.level, len.symm ▸ h.current, fun i r hr => ?_, fun i r hr => ?_, ?_⟩
    · rw [record?_skeleton, Option.map_eq_some_iff] at hr
      obtain ⟨r', hr', rfl⟩ := hr
      exact h.levels i r' hr'
    · rw [record?_skeleton, Option.map_eq_some_iff] at hr
      obtain ⟨r', hr', rfl⟩ := hr
      exact h.outers i r' hr'
    · obtain ⟨r, hr, hg⟩ := h.global
      exact ⟨r.skeleton, by rw [record?_skeleton, hr]; rfl, hg⟩

theorem record?_push (h : (cs.push r).record? i = some r') :
    cs.record? i = some r' ∨
      i = cs.records.length + 1 ∧ r' = { r with outer := cs.current, level := cs.level + 1 } := by
  cases i with
  | zero => cases h
  | succ i =>
    rw [record?_succ, push, reverse_cons] at h
    rcases Nat.lt_trichotomy i cs.records.length with hi | hi | hi
    · rw [getElem?_append_left (by simpa using hi)] at h
      exact .inl (by rw [record?_succ, h])
    · rw [getElem?_append_right (by simp [hi])] at h
      simp only [hi, length_reverse, Nat.sub_self, getElem?_cons_zero,
        Option.some.injEq] at h
      exact .inr ⟨by rw [hi], h.symm⟩
    · rw [getElem?_eq_none (by simp; omega)] at h
      cases h

theorem record?_push_of_some (h : cs.record? i = some r') : (cs.push r).record? i = some r' := by
  cases i with
  | zero => cases h
  | succ i =>
    rw [record?_succ] at h
    have hi := (List.getElem?_eq_some_iff.1 h).1
    rw [record?_succ, push, reverse_cons, getElem?_append_left hi, h]

theorem Linked.push (h : cs.Linked) (r : RecordOf σ ρ) : (cs.push r).Linked := by
  have pos : 0 < cs.records.length := by
    obtain ⟨g, hg, -⟩ := h.global
    rw [record?_succ] at hg
    simpa using (List.getElem?_eq_some_iff.1 hg).1
  refine ⟨?_, ?_, fun i r' hr => ?_, fun i r' hr => ?_, ?_⟩
  · simp [CallStackOf.push, h.level]
  · simp [CallStackOf.push]
  · rcases record?_push hr with hr | ⟨rfl, rfl⟩
    · exact h.levels i r' hr
    · simp [h.level]
  · rcases record?_push hr with hr | ⟨rfl, rfl⟩
    · exact h.outers i r' hr
    · rw [if_neg (by omega)]
      exact h.current
  · obtain ⟨g, hg, hk⟩ := h.global
    exact ⟨g, record?_push_of_some hg, hk⟩

theorem Linked.pushed {cs : CallStackOf Unit Unit} (h : cs.Linked) (hp : Pushed cs cs') :
    cs'.Linked := by
  induction hp with
  | refl => exact h
  | push r _ ih => exact ih (h.push r)

/-- The links lead from the innermost record through all records, in the order in which look-ups and
jumps go through them. -/
theorem Linked.outward_eq (h : cs.Linked) : cs.outward cs.records.length cs.current = cs.records := by
  have from_ : ∀ i, i ≤ cs.records.length →
      cs.outward i (if i = 0 then none else some i) = (cs.records.reverse.take i).reverse := by
    intro i
    induction i with
    | zero => intro _; rfl
    | succ i ih =>
      intro hi
      obtain ⟨r, hr⟩ : ∃ r, cs.record? (i + 1) = some r := by
        rw [record?_succ]
        exact ⟨_, getElem?_eq_getElem (by rw [length_reverse]; omega)⟩
      have ho := h.outers _ _ hr
      have next : (if i + 1 = 1 then none else some (i + 1 - 1) : Option Nat) =
          if i = 0 then none else some i := by simp
      rw [next] at ho
      rw [record?_succ] at hr
      rw [if_neg (by omega), outward, record?_succ, hr]
      simp only [ho, ih (by omega), take_add_one, hr, Option.toList_some, reverse_append,
        reverse_cons, reverse_nil, nil_append, cons_append]
  have pos : cs.records.length ≠ 0 := by
    obtain ⟨g, hg, -⟩ := h.global
    rw [record?_succ] at hg
    have := (List.getElem?_eq_some_iff.1 hg).1
    simp at this
    omega
  have all := from_ cs.records.length (Nat.le_refl _)
  rw [if_neg pos, take_of_length_le (by simp), reverse_reverse] at all
  rw [h.current, all]

theorem frames_skeleton (cs : CallStackOf σ ρ) : cs.skeleton.frames = cs.frames := by
  simp [frames, skeleton, RecordOf.skeleton, map_reverse]

theorem frames_prefix {cs : CallStackOf Unit Unit} (hp : Pushed cs cs') : cs.frames <+: cs'.frames := by
  induction hp with
  | refl => exact prefix_rfl
  | @push cs cs' r _ ih =>
    refine List.IsPrefix.trans ?_ ih
    rw [frames, frames, CallStackOf.push, reverse_cons, map_append]
    exact prefix_append _ _

end CallStackOf

/-! ### Reachable stacks -/

/-- Binding names to new cells changes nothing but the members of the record. -/
theorem wp_bindAll (xs : List (String × Value)) (r : RecordOf σ ρ) (m : MachineOf σ ρ) :
    wp (Host.bindAll r xs) (fun r' m' => r'.skeleton = r.skeleton ∧ m'.stack = m.stack)
      (fun _ _ => True) m := by
  induction xs generalizing r m with
  | nil => exact (wp_pure r).2 ⟨rfl, rfl⟩
  | cons x xs ih =>
    have ha : Exec.mem (Mem.alloc x.2) m =
        .ok (m.store.alloc x.2).1 { m with store := (m.store.alloc x.2).2 } := rfl
    rw [Host.bindAll, wp_bind, wp_of_ok ha]
    exact wp_mono (ih _ _) (fun _ _ h => h) fun _ _ h => h

theorem linked_boot (input : List Char) (level : Int) :
    wp Host.boot (fun _ (m : Machine) => m.stack.Linked) (fun _ _ => True)
      { input := input, level := level } := by
  refine wp_bind.2 (wp_mono (wp_bindAll _ _ _) (fun r m₁ h₁ => ?_) fun _ _ h => h)
  obtain ⟨hr, hm⟩ := h₁
  refine wp_mono (Balanced.wp_enter r m₁) (fun _ m₂ h₂ => ?_) fun _ _ _ => trivial
  rw [← CallStackOf.linked_skeleton, h₂, hr, hm]
  refine ⟨rfl, rfl, fun i r hr => ?_, fun i r hr => ?_, ⟨_, rfl, rfl, rfl⟩⟩
  · rcases CallStackOf.record?_push hr with hr | ⟨rfl, rfl⟩
    · cases i <;> cases hr
    · rfl
  · rcases CallStackOf.record?_push hr with hr | ⟨rfl, rfl⟩
    · cases i <;> cases hr
    · rfl

theorem linked_of_reachable {P : Node → Prop} {m : Machine} (hm : Reachable P m) :
    m.stack.Linked := by
  refine Reachable.induct_runs (I := fun m => m.stack.Linked) linked_boot (fun _ _ _ h => h)
    (fun stop fuel tree m _ h => ?_) hm
  rw [← CallStackOf.linked_skeleton] at h
  refine wp_mono (balanced_visitCut stop fuel tree m) (fun _ m' h' => ?_) fun _ m' h' => ?_
  · rwa [← CallStackOf.linked_skeleton, h']
  · exact CallStackOf.linked_skeleton.1 (h.pushed h')

/-- The call stack is linked throughout every session, and running a node leaves the records as they
were, or under those that were being run when it failed. -/
theorem visit_keeps_records {m : Machine} (hm : Reachable (fun _ => True) m) (fuel : Nat)
    (node : Node) :
    m.stack.Linked ∧ m.stack.outward m.stack.records.length m.stack.current = m.stack.records ∧
      (∀ v m', Eval.visit fuel node m = .ok v m' → m'.stack.frames = m.stack.frames) ∧
      ∀ e m', Eval.visit fuel node m = .error e m' → m.stack.frames <+: m'.stack.frames := by
  have linked := linked_of_reachable hm
  have run := balanced_visitCut (fun _ _ _ => false) fuel node m
  rw [Eval.visitCut_false] at run
  refine ⟨linked, linked.outward_eq, fun v m' h => ?_, fun e m' h => ?_⟩
  · rw [← CallStackOf.frames_skeleton, (wp_of_ok h).1 run, CallStackOf.frames_skeleton]
  · rw [← CallStackOf.frames_skeleton, ← CallStackOf.frames_skeleton m'.stack]
    exact CallStackOf.frames_prefix ((wp_of_error h).1 run)

/-- The machine after a step that fails inside a block. -/
def failedInBlock : Machine :=
  leaves (Eval.visit 5 (.program [.block [.breakLoop ⟨1, 3⟩] ⟨1, 1⟩])) (leaves Host.boot {})

/-- The block's record stays on the stack, and the next step runs on top of it. -/
theorem visit_keeps_records_failedInBlock :
    failedInBlock.stack.frames = [("__global", .program, 1), ("block<1:1>", .block, 2)] ∧
      (leaves (Eval.visit 5 (.block [] ⟨1, 1⟩)) failedInBlock).stack.frames =
        failedInBlock.stack.frames := by
  refine ⟨by decide +kernel, ?_⟩
  have hm : Reachable (fun _ => True) failedInBlock :=
    (Reachable.boot [] 1 (by decide +kernel)).run trivial 5
  obtain ⟨v, h⟩ := eq_ok_of_succeeds (x := Eval.visit 5 (.block [] ⟨1, 1⟩)) (m := failedInBlock)
    (by decide +kernel)
  exact (visit_keeps_records hm 5 (.block [] ⟨1, 1⟩)).2.2.1 v _ h

end TinyScript
