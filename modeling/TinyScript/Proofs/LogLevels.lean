import TinyScript.Proofs.FormatRoundTrip
import TinyScript.Proofs.StoreEvolution
import TinyScript.Proofs.Traversal

/-!
# Runs at different log levels

Two runs of a program on the same input, at log levels `a` and `b`, go through machines that differ in
what has been written and in the level only. There is one way out of step: where messages for debugging
are written, the stack is listed whenever a record is entered or left, and the listing fails if a name
in some record has no value or a value without a text. So runs at levels that both write these messages,
or both do not, always end alike.
-/

namespace TinyScript

open Exec

variable {α β : Type}

/-! ### Listings -/

/-- Some record has a member that cannot be listed, for the reason `f`. -/
def MachineOf.Unlistable (m : Machine) (f : Failure) : Prop :=
  ∃ r ∈ m.stack.records, ∃ x b, (x, b) ∈ r.members ∧
    (b.value = none ∧ f = .fault .missingPart ∨ m.store.text b.value = .error f)

theorem unlistable_of_render (m : Machine) : FailsOnly m.Unlistable (m.stack.render m.store) := by
  refine .bind (.mapM fun r hr => .bind (.mapM ?_) fun _ => .ok _) fun _ => .ok _
  rintro ⟨x, b⟩ hb f h
  refine ⟨r, hr, x, b, hb, ?_⟩
  cases hv : b.value with
  | none =>
    simp only [RecordOf.memberLine, hv, Store.get?] at h
    cases h
    exact .inl ⟨rfl, rfl⟩
  | some c =>
    simp only [RecordOf.memberLine, hv, Store.get?] at h
    cases ht : m.store.text (some c) with
    | error g =>
      rw [ht] at h
      exact .inr h
    | ok t =>
      rw [ht] at h
      cases h

namespace Failure

def IsFault (f : Failure) : Prop := ∃ k, f = .fault k

end Failure

open Failure (IsFault)

theorem Store.inner_isFault (s : Store) (d : Nat) (x : Slot) : FailsOnly IsFault (s.inner d x) := by
  induction d generalizing x with
  | zero => exact .error ⟨_, rfl⟩
  | succ d ih =>
    unfold inner
    cases s.get? x with
    | none => exact .ok _
    | some v =>
      cases v with
      | num n => exact n.render_failsOnly.mono fun _ h => ⟨_, h⟩
      | list items => exact .bind (.mapM fun y _ => ih y) fun _ => .ok _
      | map t =>
        refine .bind (.mapM fun e _ => ?_) fun _ => .ok _
        exact .bind (ih _) fun _ => .bind (ih _) fun _ => .ok _
      | blank => exact .error ⟨_, rfl⟩
      | _ => exact .ok _

theorem MachineOf.Unlistable.isFault {m : Machine} {f : Failure} (h : m.Unlistable f) : IsFault f := by
  obtain ⟨r, -, x, b, -, ⟨-, rfl⟩ | h⟩ := h
  · exact ⟨_, rfl⟩
  · unfold Store.text at h
    split at h
    · cases h
    · exact m.store.inner_isFault _ _ f h

section Listing

variable {m : Machine}

theorem logStack_of_hidden (h : LogLevel.debug.shows m.level = false) :
    (Exec.logStack : Exec Unit) m = .ok () m := by
  have get : (MonadState.get : Exec Machine) m = .ok m m := rfl
  rw [Exec.logStack, bind_of_ok get, h]
  rfl

theorem logStack_of_render {s : String} (h : LogLevel.debug.shows m.level = true)
    (hs : m.stack.render m.store = .ok s) :
    (Exec.logStack : Exec Unit) m = .ok () { m with out := m.out ++ (s ++ "\n") } := by
  have get : (MonadState.get : Exec Machine) m = .ok m m := rfl
  have list : (Exec.stackListing : Exec String) m = .ok s m := by rw [Exec.stackListing, hs, Exec.ofExcept]
  rw [Exec.logStack, bind_of_ok get, h, if_pos rfl, bind_of_ok list]
  rfl

theorem logStack_of_unlistable {f : Failure} (h : LogLevel.debug.shows m.level = true)
    (hs : m.stack.render m.store = .error f) :
    (Exec.logStack : Exec Unit) m = .error (.failed f) m := by
  have get : (MonadState.get : Exec Machine) m = .ok m m := rfl
  have list : (Exec.stackListing : Exec String) m = .error (.failed f) m := by
    rw [Exec.stackListing, hs, Exec.ofExcept]
  rw [Exec.logStack, bind_of_ok get, h, if_pos rfl, bind_of_error list]

end Listing

/-! ### Runs side by side -/

/-- The machines agree in all but what has been written, and their levels are `a` and `b`. -/
structure Alike (a b : Int) (m m' : Machine) : Prop where
  store : m.store = m'.store
  stack : m.stack = m'.stack
  input : m.input = m'.input
  left : m.level = a
  right : m'.level = b

/-- Both runs end well with the same value, or both fail for the same reason, on machines that agree. -/
inductive SameEnd (a b : Int) :
    EStateM.Result Halt Machine α → EStateM.Result Halt Machine α → Prop
  | ok {v : α} {m m' : Machine} (h : Alike a b m m') : SameEnd a b (.ok v m) (.ok v m')
  | error {e : Halt} {m m' : Machine} (h : Alike a b m m') : SameEnd a b (.error e m) (.error e m')

/-- The run at level `a` fails to list the stack, and the run at level `b` does not list it. -/
def Breaks (a b : Int) (x : EStateM.Result Halt Machine α) : Prop :=
  LogLevel.debug.shows a = true ∧ LogLevel.debug.shows b = false ∧
    ∃ f m, x = .error (.failed f) m ∧ m.Unlistable f

/-- Runs of the two actions on machines that agree end alike, unless the first one breaks. -/
def Mirrors (a b : Int) (x y : Exec α) : Prop :=
  ∀ m m', Alike a b m m' → SameEnd a b (x m) (y m') ∨ Breaks a b (x m)

namespace Mirrors

variable {a b : Int} {x y : Exec α}

theorem pure (v : α) : Mirrors a b (Pure.pure v) (Pure.pure v) := fun _ _ h => .inl (.ok h)

theorem halt (e : Halt) : Mirrors a b (throw e : Exec α) (throw e) := fun _ _ h => .inl (.error h)

theorem bind {f g : α → Exec β} (hx : Mirrors a b x y) (hf : ∀ v, Mirrors a b (f v) (g v)) :
    Mirrors a b (x >>= f) (y >>= g) := by
  intro m m' h
  rcases hx m m' h with hr | ⟨hl, hr, c, m₁, he, hu⟩
  · generalize hxm : x m = r at hr
    generalize hym : y m' = r' at hr
    cases hr with
    | ok h₁ =>
      rw [bind_of_ok hxm, bind_of_ok hym]
      exact hf _ _ _ h₁
    | error h₁ =>
      rw [bind_of_error hxm, bind_of_error hym]
      exact .inl (.error h₁)
  · exact .inr ⟨hl, hr, c, m₁, bind_of_error he, hu⟩

theorem read {f g : Machine → Exec α}
    (hf : ∀ m m', m.store = m'.store → m.stack = m'.stack → Mirrors a b (f m) (g m')) :
    Mirrors a b (MonadState.get >>= f) (MonadState.get >>= g) :=
  fun m m' h => hf m m' h.store h.stack m m' h

theorem mem (z : Mem α) : Mirrors a b (Exec.mem z : Exec α) (Exec.mem z) := by
  intro m m' h
  unfold Exec.mem
  rw [← h.store]
  cases z m.store with
  | ok v s => exact .inl (.ok ⟨rfl, h.stack, h.input, h.left, h.right⟩)
  | error f s => exact .inl (.error ⟨rfl, h.stack, h.input, h.left, h.right⟩)

theorem ofExcept (z : Except Failure α) :
    Mirrors a b (Exec.ofExcept z : Exec α) (Exec.ofExcept z) := by
  intro m m' h
  cases z with
  | ok v => exact .inl (.ok h)
  | error f => exact .inl (.error h)

/-- What is written does not count. -/
theorem write {s s' : Machine → String} :
    Mirrors a b (fun m => .ok () { m with out := s m } : Exec Unit)
      (fun m => .ok () { m with out := s' m }) :=
  fun _ _ h => .inl (.ok ⟨h.store, h.stack, h.input, h.left, h.right⟩)

theorem readLine : Mirrors a b (Exec.readLine : Exec String) Exec.readLine := by
  intro m m' h
  unfold Exec.readLine
  rw [← h.input]
  cases m.input with
  | nil => exact .inl (.error h)
  | cons c cs => exact .inl (.ok ⟨h.store, h.stack, rfl, h.left, h.right⟩)

theorem modifyStack (g : CallStack → CallStack) :
    Mirrors a b (Exec.modifyStack g) (Exec.modifyStack g) :=
  fun _ _ h => .inl (.ok ⟨h.store, congrArg g h.stack, h.input, h.left, h.right⟩)

theorem turn {k : Handled} {handle : k.Error → Exec α} (hh : ∀ e, ∃ h, ∀ m, handle e m = .error h m)
    (hx : Mirrors a b x y) : Mirrors a b (k.turn handle x) (k.turn handle y) := by
  intro m m' h
  rcases hx m m' h with hr | ⟨hl, hr, f, m₁, he, hu⟩
  · generalize e : x m = r at hr
    generalize e' : y m' = r' at hr
    cases hr with
    | ok h₁ =>
      rw [Handled.turn_ok e, Handled.turn_ok e']
      exact .inl (.ok h₁)
    | @error f m₁ m₁' h₁ =>
      by_cases hk : ∃ o, f = .failed (k.failure o)
      · obtain ⟨o, rfl⟩ := hk
        obtain ⟨f', hf⟩ := hh o
        rw [Handled.turn_failure e, Handled.turn_failure e', hf, hf]
        exact .inl (.error h₁)
      · rw [Handled.turn_other e hk, Handled.turn_other e' hk]
        exact .inl (.error h₁)
  -- a failure to list the stack is not taken up
  · obtain ⟨i, rfl⟩ := hu.isFault
    exact .inr ⟨hl, hr, _, m₁, Handled.turn_other he (by cases k <;> simp [Handled.failure]), hu⟩

theorem iterate {γ : Type} {step step' : γ → Exec (Option γ)} (hs : ∀ c, Mirrors a b (step c) (step' c))
    (n : Nat) (c : γ) : Mirrors a b (Eval.iterate step n c) (Eval.iterate step' n c) := by
  induction n generalizing c with
  | zero => exact halt _
  | succ n ih =>
    refine bind (hs c) fun next => ?_
    split
    · exact ih _
    · exact pure _

theorem bindAll (r : Record) (xs : List (String × Value)) :
    Mirrors a b (Host.bindAll r xs) (Host.bindAll r xs) := by
  induction xs generalizing r with
  | nil => exact pure r
  | cons x xs ih => exact bind (mem _) fun _ => ih _

variable (hab : LogLevel.debug.shows b = true → LogLevel.debug.shows a = true)
include hab

/-- The one place where the level matters for more than what is written. -/
theorem logStack : Mirrors a b (Exec.logStack : Exec Unit) Exec.logStack := by
  intro m m' h
  have written (out out' : String) : Alike a b { m with out := out } { m' with out := out' } :=
    ⟨h.store, h.stack, h.input, h.left, h.right⟩
  cases hl : LogLevel.debug.shows a with
  | false =>
    have hr : LogLevel.debug.shows b = false := by
      rw [← Bool.not_eq_true]
      exact fun hr => Bool.false_ne_true (hl.symm.trans (hab hr))
    rw [logStack_of_hidden (h.left ▸ hl), logStack_of_hidden (h.right ▸ hr)]
    exact .inl (.ok h)
  | true =>
    cases hs : m.stack.render m.store with
    | error f =>
      rw [logStack_of_unlistable (h.left ▸ hl) hs]
      cases hr : LogLevel.debug.shows b with
      | false => exact .inr ⟨hl, hr, f, m, rfl, unlistable_of_render m f hs⟩
      | true =>
        rw [logStack_of_unlistable (h.right ▸ hr) (h.stack ▸ h.store ▸ hs)]
        exact .inl (.error h)
    | ok s =>
      rw [logStack_of_render (h.left ▸ hl) hs]
      cases hr : LogLevel.debug.shows b with
      | false =>
        rw [logStack_of_hidden (h.right ▸ hr)]
        exact .inl (.ok (written _ m'.out))
      | true =>
        rw [logStack_of_render (h.right ▸ hr) (h.stack ▸ h.store ▸ hs)]
        exact .inl (.ok (written _ _))

theorem enter (r : Record) : Mirrors a b (Exec.enter r) (Exec.enter r) :=
  bind (modifyStack _) fun _ => bind write fun _ => logStack hab

theorem leave : Mirrors a b (Exec.leave : Exec Unit) Exec.leave := by
  unfold Exec.leave
  refine read fun m m' _ hk => ?_
  rw [hk]
  split
  · exact halt _
  · exact bind write fun _ => bind (logStack hab) fun _ => modifyStack _

theorem respected : Respected (Mirrors a b) where
  pure := pure
  bind := bind
  halt := halt
  read := read
  mem := mem
  ofExcept := ofExcept
  emit _ := write
  log _ _ := write
  readLine := readLine
  modifyStack _ := modifyStack _
  within hx := bind (enter hab _) fun _ => bind hx fun v => bind (leave hab) fun _ => pure v
  turn := turn

theorem boot : Mirrors a b (Host.boot : Exec Unit) Host.boot :=
  bind (bindAll _ _) fun r => enter hab r

theorem visit (n : Nat) (node : Node) : Mirrors a b (Eval.visit n node) (Eval.visit n node) := by
  induction n generalizing node with
  | zero => exact halt _
  | succ n ih => exact (respected hab).visitWith ih (fun hs => iterate hs n) node

theorem interpret (n : Nat) (tree : Node) : Mirrors a b (interpret n tree) (interpret n tree) :=
  bind (visit hab n tree) fun _ => pure ()

end Mirrors

/-- A whole run: the global record is entered, the tree is run, and the run is closed. -/
def session (fuel : Nat) (tree : Node) : Exec Unit := do
  Host.boot
  interpret fuel tree
  finish

theorem Mirrors.session {a b : Int} (hab : LogLevel.debug.shows b = true → LogLevel.debug.shows a = true)
    (fuel : Nat) (tree : Node) : Mirrors a b (session fuel tree) (session fuel tree) :=
  bind (boot hab) fun _ => bind (interpret hab fuel tree) fun _ => bind write fun _ => logStack hab

/-- Runs of a program on the same input, at levels that both write messages for debugging or both do not,
end alike. If only the first one writes them, it may also fail because the stack cannot be listed. -/
theorem session_level (fuel : Nat) (tree : Node) (input : List Char) (a b : Int) :
    (LogLevel.debug.shows a = LogLevel.debug.shows b →
      SameEnd a b (session fuel tree { input := input, level := a })
        (session fuel tree { input := input, level := b })) ∧
    (LogLevel.debug.shows a = true → LogLevel.debug.shows b = false →
      SameEnd a b (session fuel tree { input := input, level := a })
        (session fuel tree { input := input, level := b }) ∨
      ∃ f m, session fuel tree { input := input, level := a } = .error (.failed f) m ∧ m.Unlistable f) := by
  have start : Alike a b { input := input, level := a } { input := input, level := b } :=
    ⟨rfl, rfl, rfl, rfl, rfl⟩
  constructor
  · intro same
    rcases Mirrors.session (fun h => same.trans h) fuel tree _ _ start with alike | ⟨hl, hr, -⟩
    · exact alike
    · exact absurd (hl.symm.trans (same.trans hr)) (by decide)
  · intro hl hr
    rcases Mirrors.session (fun _ => hl) fuel tree _ _ start with alike | ⟨-, -, broken⟩
    · exact .inl alike
    · exact .inr broken

/-- A function whose parameter gets no value. -/
def bareCall : String := "func f(a) \x7b\x7d f()"

theorem session_level_bareCall :
    (∃ m, session 9 (treeOf bareCall) { level := 1 } = .ok () m) ∧
    (∃ m, session 9 (treeOf bareCall) { level := 4 } = .error (.failed (.fault .missingPart)) m ∧
      m.Unlistable (.fault .missingPart)) ∧
    SameEnd 4 5 (session 9 (treeOf bareCall) { level := 4 }) (session 9 (treeOf bareCall) { level := 5 }) := by
  have quiet := eq_ok_of_succeeds (x := session 9 (treeOf bareCall)) (m := { level := 1 }) (by decide +kernel)
  have loud := eq_error_of_halt? (x := session 9 (treeOf bareCall)) (m := { level := 4 })
    (e := .failed (.fault .missingPart)) (by decide +kernel)
  have alike := (session_level 9 (treeOf bareCall) [] 4 5).1 (by decide)
  obtain ⟨_, quiet⟩ := quiet
  rcases (session_level 9 (treeOf bareCall) [] 4 1).2 (by decide) (by decide) with h | ⟨f, m, h, hu⟩
  · rw [loud, quiet] at h
    cases h
  · rw [loud] at h
    cases h
    exact ⟨⟨_, quiet⟩, ⟨_, loud, hu⟩, alike⟩

end TinyScript
