import TinyScript.Eval

/-!
# Reachable machines

`wp x Q E m`: running `x` from `m` ends well with `Q`, or is halted with `E`.

A machine is reachable if sessions lead to it: from a machine that has just been started, each tree
is run as far as it gets, and whatever a failed run leaves behind is where the next one begins. To
reach the machines in the middle of a run as well, a run may be cut short at any node, on entering
it; `visitCut` does so where it is told to.
-/

namespace TinyScript

variable {ε τ α β : Type} {b : β} {s s' : τ} {P : Node → Prop}

theorem exists_of_bind_eq_ok {x : EStateM ε τ α} {f : α → EStateM ε τ β} (h : (x >>= f) s = .ok b s') :
    ∃ a s₁, x s = .ok a s₁ ∧ f a s₁ = .ok b s' := by
  simp only [Bind.bind, EStateM.bind] at h
  split at h
  · exact ⟨_, _, ‹_›, h⟩
  · cases h

theorem map_eq_ok {g : α → β} {z : EStateM ε τ α} (h : (g <$> z) s = .ok b s') :
    ∃ a, z s = .ok a s' ∧ g a = b := by
  simp only [Functor.map, EStateM.map] at h
  split at h <;> cases h
  exact ⟨_, ‹_›, rfl⟩

namespace Exec

variable {σ ρ α β : Type}
variable {f : α → ExecOf σ ρ β}

/-- What holds at the end of an action, whether it yields a result or is halted. -/
def wp (x : ExecOf σ ρ α) (Q : α → MachineOf σ ρ → Prop) (E : Halt → MachineOf σ ρ → Prop)
    (m : MachineOf σ ρ) : Prop :=
  match x m with
  | .ok a m' => Q a m'
  | .error h m' => E h m'

variable {x : ExecOf σ ρ α} {m m' : MachineOf σ ρ} {Q : α → MachineOf σ ρ → Prop}
  {E : Halt → MachineOf σ ρ → Prop}

theorem wp_of_ok {a : α} (h : x m = .ok a m') : wp x Q E m ↔ Q a m' := by
  simp only [wp, h]

theorem wp_of_error {e : Halt} (h : x m = .error e m') : wp x Q E m ↔ E e m' := by
  simp only [wp, h]

theorem wp_congr {y : ExecOf σ ρ α} (h : x m = y m) : wp x Q E m ↔ wp y Q E m := by
  simp only [wp, h]

theorem wp_pure (a : α) : wp (pure a) Q E m ↔ Q a m := Iff.rfl

theorem wp_throw (e : Halt) : wp (throw e : ExecOf σ ρ α) Q E m ↔ E e m := Iff.rfl

theorem wp_get {Q : MachineOf σ ρ → MachineOf σ ρ → Prop} :
    wp (MonadState.get : ExecOf σ ρ _) Q E m ↔ Q m m := Iff.rfl

theorem wp_emit (s : String) {Q : Unit → MachineOf σ ρ → Prop} :
    wp (emit s) Q E m ↔ Q () { m with out := m.out ++ s } := Iff.rfl

theorem wp_modifyStack (f : CallStackOf σ ρ → CallStackOf σ ρ) {Q : Unit → MachineOf σ ρ → Prop} :
    wp (modifyStack f) Q E m ↔ Q () { m with stack := f m.stack } := Iff.rfl

theorem wp_ofExcept_ok (a : α) : wp (ofExcept (.ok a)) Q E m ↔ Q a m := Iff.rfl

theorem wp_ofExcept_error (f : Failure) : wp (ofExcept (.error f)) Q E m ↔ E (.failed f) m := Iff.rfl

theorem wp_text (v : Slot) {Q : String → MachineOf σ ρ → Prop} :
    wp (text v) Q E m ↔ wp (ofExcept (m.store.text v)) Q E m := Iff.rfl

-- a whole run must not be unfolded to see what `wp` says of it
attribute [irreducible] wp

theorem bind_of_ok {a : α} (h : x m = .ok a m') : (x >>= f) m = f a m' := by
  simp only [bind, EStateM.bind, h]

theorem bind_of_error {e : Halt} (h : x m = .error e m') : (x >>= f) m = .error e m' := by
  simp only [bind, EStateM.bind, h]

theorem wp_bind {R : β → MachineOf σ ρ → Prop} :
    wp (x >>= f) R E m ↔ wp x (fun a m' => wp (f a) R E m') E m := by
  cases h : x m with
  | ok a m' =>
    rw [wp_of_ok h]
    cases h' : f a m' with
    | ok b m'' => rw [wp_of_ok h', wp_of_ok ((bind_of_ok h).trans h')]
    | error e m'' => rw [wp_of_error h', wp_of_error ((bind_of_ok h).trans h')]
  | error e m' => rw [wp_of_error h, wp_of_error (bind_of_error h)]

theorem wp_mono {Q' : α → MachineOf σ ρ → Prop} {E' : Halt → MachineOf σ ρ → Prop}
    (h : wp x Q E m) (hQ : ∀ a m', Q a m' → Q' a m') (hE : ∀ e m', E e m' → E' e m') :
    wp x Q' E' m := by
  cases hx : x m with
  | ok a m' => exact (wp_of_ok hx).2 (hQ a m' ((wp_of_ok hx).1 h))
  | error e m' => exact (wp_of_error hx).2 (hE e m' ((wp_of_error hx).1 h))

/-- The machine that an action leaves behind. -/
def leaves (x : ExecOf σ ρ α) (m : MachineOf σ ρ) : MachineOf σ ρ :=
  match x m with
  | .ok _ m' => m'
  | .error _ m' => m'

/-- Whether an action ends well. -/
def succeeds (x : ExecOf σ ρ α) (m : MachineOf σ ρ) : Bool :=
  match x m with
  | .ok _ _ => true
  | .error _ _ => false

theorem eq_ok_of_succeeds (h : succeeds x m = true) : ∃ a, x m = .ok a (leaves x m) := by
  cases hx : x m with
  | ok a m' => exact ⟨a, by simp only [leaves, hx]⟩
  | error e m' => simp only [succeeds, hx, Bool.false_eq_true] at h

/-- The reason for which an action does not end well. -/
def halt? (x : ExecOf σ ρ α) (m : MachineOf σ ρ) : Option Halt :=
  match x m with
  | .ok _ _ => none
  | .error e _ => some e

theorem eq_error_of_halt? {e : Halt} (h : halt? x m = some e) : x m = .error e (leaves x m) := by
  cases hx : x m with
  | ok a m' => simp only [halt?, hx, reduceCtorEq] at h
  | error e' m' =>
    simp only [halt?, hx, Option.some.injEq] at h
    simp only [leaves, hx, h]

theorem reportAt_halts (n : Node) (i : Issue) :
    ∃ h, ∀ m, (reportAt n i : ExecOf σ ρ α) m = .error h m := by
  unfold reportAt
  cases n.pos? with
  | none => exact ⟨_, fun _ => rfl⟩
  | some p => exact ⟨_, fun _ => rfl⟩

theorem exists_reportAt (n : Node) (i : Issue) (m : MachineOf σ ρ) :
    ∃ h, (reportAt n i : ExecOf σ ρ α) m = .error h m := by
  obtain ⟨h, hh⟩ := reportAt_halts (σ := σ) (ρ := ρ) (α := α) n i
  exact ⟨h, hh m⟩

end Exec

/-! ### Handled errors -/

/-- The errors that actions turn into reports. -/
inductive Handled
  | operand | member

namespace Handled

open Exec

def Error : Handled → Type
  | operand => OperandError
  | member => MemberError

def failure : (k : Handled) → k.Error → Failure
  | operand => .operand
  | member => .member

/-- An action with a handler for its errors. -/
def turn {σ ρ α : Type} : (k : Handled) → (k.Error → ExecOf σ ρ α) → ExecOf σ ρ α → ExecOf σ ρ α
  | operand => onOperand
  | member => onMember

variable {σ ρ α : Type} {k : Handled} {handle : k.Error → ExecOf σ ρ α} {x : ExecOf σ ρ α}
  {m m' : MachineOf σ ρ}

theorem turn_ok {a : α} (h : x m = .ok a m') : k.turn handle x m = .ok a m' := by
  cases k <;> simp only [turn, onOperand, onMember, h]

theorem turn_failure {o : k.Error} (h : x m = .error (.failed (k.failure o)) m') :
    k.turn handle x m = handle o m' := by
  cases k <;> simp only [turn, onOperand, onMember, h, failure]

theorem turn_other {e : Halt} (h : x m = .error e m') (he : ¬∃ o, e = .failed (k.failure o)) :
    k.turn handle x m = .error e m' := by
  cases k
  all_goals
    simp only [turn, onOperand, onMember]
    split
    · rename_i o _ h'
      cases h.symm.trans h'
      exact absurd ⟨o, rfl⟩ he
    · exact h

/-- A handler is run only where there is an error to handle. -/
theorem turn_cases (k : Handled) (handle : k.Error → ExecOf σ ρ α) (x : ExecOf σ ρ α)
    (m : MachineOf σ ρ) : k.turn handle x m = x m ∨
      ∃ o m', x m = .error (.failed (k.failure o)) m' ∧ k.turn handle x m = handle o m' := by
  cases h : x m with
  | ok a m' => exact .inl (turn_ok h)
  | error e m' =>
    by_cases he : ∃ o, e = .failed (k.failure o)
    · obtain ⟨o, rfl⟩ := he
      exact .inr ⟨o, m', rfl, turn_failure h⟩
    · exact .inl (turn_other h he)

end Handled

namespace Eval

/-- Runs a node, but stops on entering a node where `stop` says so. -/
def visitCut (stop : Nat → Node → Machine → Bool) : Nat → Node → Exec Slot
  | 0, _ => Exec.outOfFuel
  | n + 1, node => fun m =>
    if stop n node m then .error .outOfFuel m else visitWith n (visitCut stop n) node m

/-- Either the run is cut short at once, or the node is run with runs of its parts cut short. -/
theorem visitCut_cases (stop : Nat → Node → Machine → Bool) (n : Nat) (node : Node) (m : Machine) :
    visitCut stop (n + 1) node m = .error .outOfFuel m ∨
      visitCut stop (n + 1) node m = visitWith n (visitCut stop n) node m := by
  simp only [visitCut]
  split
  · exact .inl rfl
  · exact .inr rfl

theorem visitCut_false (n : Nat) : visitCut (fun _ _ _ => false) n = visit n := by
  induction n with
  | zero => rfl
  | succ n ih =>
    funext node m
    simp only [visitCut, visit, ih, Bool.false_eq_true, if_false]

end Eval

/-- The machines that sessions on trees in `P` lead to. Between two runs the session reads and
writes. -/
inductive Reachable (P : Node → Prop) : Machine → Prop
  | start {input level m} (h : Host.boot { input := input, level := level } = .ok () m) :
      Reachable P m
  | talk {m} (hm : Reachable P m) (out : String) (input : List Char) :
      Reachable P { m with out := out, input := input }
  | ended {m tree stop fuel v m'} (hm : Reachable P m) (ht : P tree)
      (h : Eval.visitCut stop fuel tree m = .ok v m') : Reachable P m'
  | halted {m tree stop fuel e m'} (hm : Reachable P m) (ht : P tree)
      (h : Eval.visitCut stop fuel tree m = .error e m') : Reachable P m'

theorem Reachable.boot (input : List Char) (level : Int)
    (h : Exec.succeeds (Host.boot : Exec Unit) { input := input, level := level } = true) :
    Reachable P (Exec.leaves Host.boot { input := input, level := level }) := by
  obtain ⟨_, e⟩ := Exec.eq_ok_of_succeeds h
  exact .start e

/-- What a run leaves behind is reachable, wherever it stops. -/
theorem Reachable.cut {m : Machine} {tree : Node} (hm : Reachable P m) (ht : P tree)
    (stop : Nat → Node → Machine → Bool) (fuel : Nat) :
    Reachable P (Exec.leaves (Eval.visitCut stop fuel tree) m) := by
  unfold Exec.leaves
  split
  · rename_i h
    exact .ended hm ht h
  · rename_i h
    exact .halted hm ht h

theorem Reachable.run {m : Machine} {tree : Node} (hm : Reachable P m) (ht : P tree) (fuel : Nat) :
    Reachable P (Exec.leaves (Eval.visit fuel tree) m) := by
  rw [← Eval.visitCut_false]
  exact hm.cut ht _ fuel

/-- A property that every start and every run keeps holds of all reachable machines. -/
theorem Reachable.induct_runs {I : Machine → Prop}
    (start : ∀ input level, Exec.wp Host.boot (fun _ m => I m) (fun _ _ => True)
      { input := input, level := level })
    (talk : ∀ m out input, I m → I { m with out := out, input := input })
    (run : ∀ stop fuel tree m, P tree → I m →
      Exec.wp (Eval.visitCut stop fuel tree) (fun _ m' => I m') (fun _ m' => I m') m) {m : Machine}
    (hm : Reachable P m) : I m := by
  induction hm with
  | @start input level m h =>
    have hb := start input level
    rwa [Exec.wp_of_ok h] at hb
  | talk _ out input ih => exact talk _ out input ih
  | @ended m tree stop fuel v m' _ ht h ih =>
    have hr := run stop fuel tree m ht ih
    rwa [Exec.wp_of_ok h] at hr
  | @halted m tree stop fuel e m' _ ht h ih =>
    have hr := run stop fuel tree m ht ih
    rwa [Exec.wp_of_error h] at hr

end TinyScript
