import TinyScript.Proofs.Traversal

/-!
# Runs that agree

Machines are alike if they have the same store, up to places, the same output and input, and records
that are alike, above others that are related by `D`. `Agree f D i j x y`: from such machines, with `i`
records above the others, the actions `x` and `y` end alike, with `j` records above the others. If
records related by `D` cannot be told apart by the names they bind and the jumps they let through
(`Grounds`), then runs of nodes agree (`Grounds.visit`). All this is at a log level at which the names
of records are not written.
-/

namespace TinyScript

open Exec Node

variable {α β : Type} {f : Position → Position} {D : List Record → List Record → Prop} {i j k : Nat}

/-! ### Actions that only write messages -/

namespace Exec

variable {m : Machine} (hq : m.level < 3)
include hq

theorem shows_quiet {l : LogLevel} (hl : 3 ≤ l.rank) : l.shows m.level = false := by
  simp only [LogLevel.shows, decide_eq_false_iff_not]
  omega

theorem log_quiet {l : LogLevel} (hl : 3 ≤ l.rank) (s : String) : (log l s : Exec Unit) m = .ok () m := by
  simp [log, LogLevel.log, shows_quiet hq hl]

theorem logStack_quiet : (logStack : Exec Unit) m = .ok () m := by
  show (if LogLevel.debug.shows m.level then _ else _ : Exec Unit) m = _
  rw [shows_quiet hq (by decide)]
  rfl

theorem noteJumps_quiet (what : String) (names : List String) :
    (noteJumps what names : Exec Unit) m = .ok () m := by
  induction names with
  | nil => rfl
  | cons name names ih => exact (bind_of_ok (log_quiet hq (by decide) _)).trans ih

theorem enter_quiet (r : Record) : enter r m = .ok () { m with stack := m.stack.push r } := by
  have pushed : modifyStack (·.push r) m = .ok () { m with stack := m.stack.push r } := rfl
  have hq' : ({ m with stack := m.stack.push r } : Machine).level < 3 := hq
  rw [enter, bind_of_ok pushed, bind_of_ok (log_quiet hq' (by decide) _)]
  exact logStack_quiet hq'

theorem leave_quiet {r : Record} (hr : m.stack.current? = some r) :
    (leave : Exec Unit) m = .ok () { m with stack := m.stack.pop.2 } := by
  rw [leave, bind_of_ok (rfl : (MonadState.get : Exec Machine) m = .ok m m), hr]
  show (log .debug _ >>= _ : Exec Unit) m = _
  rw [bind_of_ok (log_quiet hq (by decide) _), bind_of_ok (logStack_quiet hq)]
  rfl

theorem sendJump_quiet (st : RecordState) (goal : RecordKind) (word : String) :
    Eval.sendJump st goal word m = .ok (CallStack.jump st goal m.stack.records).found
      { m with stack := { m.stack with records := (CallStack.jump st goal m.stack.records).records } } :=
  bind_of_ok (noteJumps_quiet
    (m := { m with stack := { m.stack with records := (CallStack.jump st goal m.stack.records).records } })
    hq _ _)

end Exec

/-! ### Records above others -/

/-- As many records entered above others, each like its counterpart. -/
inductive Above (f : Position → Position) (D : List Record → List Record → Prop) :
    Nat → List Record → List Record → Prop
  | base {rs rs'} (h : D rs rs') : Above f D 0 rs rs'
  | cons {k r r' rs rs'} (h : r.Twin f r') (hs : Above f D k rs rs') : Above f D (k + 1) (r :: rs) (r' :: rs')

/-- Related records bind the same names, let through the same jumps and stay related. -/
structure Grounds (D : List Record → List Record → Prop) : Prop where
  value {rs rs'} (h : D rs rs') (x : String) : CallStack.valueOf? x rs = CallStack.valueOf? x rs'
  binding {rs rs'} (h : D rs rs') (x : String) : CallStack.bindingOf? x rs = CallStack.bindingOf? x rs'
  rebind {rs rs'} (h : D rs rs') (x : String) (v : Slot) : D (CallStack.rebind x v rs) (CallStack.rebind x v rs')
  found {rs rs'} (h : D rs rs') (st : RecordState) {goal : RecordKind} (hg : goal ≠ .block) :
    (CallStack.jump st goal rs).found = (CallStack.jump st goal rs').found
  jump {rs rs'} (h : D rs rs') (st : RecordState) {goal : RecordKind} (hg : goal ≠ .block) :
    D (CallStack.jump st goal rs).records (CallStack.jump st goal rs').records
  setRetval {rs rs'} (h : D rs rs') (v : Slot) : D (CallStack.setRetval v rs) (CallStack.setRetval v rs')

namespace RecordOf.Twin

variable {r r' : Record}

theorem of_upto (h : Upto f RecordOf.bare r r') : r.Twin f r' := by
  have e := h.1
  simp only [RecordOf.bare, RecordOf.mk.injEq] at e
  exact ⟨e.2.1, e.2.2.1, e.2.2.2.2.2.1, e.2.2.2.2.2.2, fun hf => by rw [h.2 hf]⟩

theorem get? (h : r.Twin f r') (x : String) : r.get? x = r'.get? x := by
  rw [RecordOf.get?, h.members, RecordOf.get?]

theorem set (h : r.Twin f r') (x : String) (b : Binding) : (r.set x b).Twin f (r'.set x b) :=
  { h with members := congrArg (RecordOf.bind x b) h.members }

end RecordOf.Twin

theorem Grounds.above (hD : Grounds D) (k : Nat) : Grounds (Above f D k) where
  value h x := by
    induction h with
    | base h => exact hD.value h x
    | cons h _ ih => simp only [CallStack.valueOf?, h.get?, ih]
  binding h x := by
    induction h with
    | base h => exact hD.binding h x
    | cons h _ ih => simp only [CallStack.bindingOf?, h.get?, ih]
  rebind h x v := by
    induction h with
    | base h => exact .base (hD.rebind h x v)
    | cons h hs ih =>
      simp only [CallStack.rebind, h.get?]
      split
      · exact .cons (h.set x _) hs
      · exact .cons h ih
  found h st _ hg := by
    induction h with
    | base h => exact hD.found h st hg
    | cons h _ ih =>
      simp only [CallStack.jump, h.kind, ih]
      split
      · rfl
      · split <;> rfl
  jump h st _ hg := by
    induction h with
    | base h => exact .base (hD.jump h st hg)
    | cons h hs ih =>
      simp only [CallStack.jump, h.kind]
      split
      · exact .cons { h with kind := rfl, state := rfl } hs
      · split
        · exact .cons { h with kind := rfl, state := rfl } hs
        · exact .cons { h with kind := rfl, state := rfl } ih
  setRetval h v := by
    induction h with
    | base h => exact .base (hD.setRetval h v)
    | cons h hs ih =>
      simp only [CallStack.setRetval, h.kind]
      split
      · exact .cons { h with kind := rfl, retval := rfl } hs
      · exact .cons h ih

/-! ### Machines that are alike -/

structure MachineOf.Like (f : Position → Position) (D : List Record → List Record → Prop) (k : Nat)
    (m m' : Machine) : Prop where
  store : Upto f Store.bare m.store m'.store
  records : Above f D k m.stack.records m'.stack.records
  out : m.out = m'.out
  input : m.input = m'.input
  level : m.level = m'.level
  quiet : m.level < 3

open MachineOf (Like)

namespace MachineOf.Like

variable {m m' : Machine}

theorem quiet' (h : Like f D k m m') : m'.level < 3 := h.level ▸ h.quiet

theorem current? (h : Like f D (k + 1) m m') :
    ∃ r r', m.stack.current? = some r ∧ m'.stack.current? = some r' ∧ r.Twin f r' := by
  have hr := h.records
  unfold CallStackOf.current?
  revert hr
  generalize m.stack.records = rs
  generalize m'.stack.records = rs'
  intro hr
  cases hr with
  | cons hr _ => exact ⟨_, _, rfl, rfl, hr⟩

end MachineOf.Like

/-- How two actions end: in machines that are alike again, where a failure may have left any number of
records behind. -/
inductive Ends (f : Position → Position) (D : List Record → List Record → Prop) (j : Nat) :
    EStateM.Result Halt Machine α → EStateM.Result Halt Machine α → Prop
  | ok {a m m'} (hm : Like f D j m m') : Ends f D j (.ok a m) (.ok a m')
  | error {e e' m m'} (k : Nat) (hm : Like f D k m m') (he : Upto f Halt.bare e e') :
      Ends f D j (.error e m) (.error e' m')

def Agree (f : Position → Position) (D : List Record → List Record → Prop) (i j : Nat)
    (x y : Exec α) : Prop :=
  ∀ m m', Like f D i m m' → Ends f D j (x m) (y m')

/-- Only reports differ in places. -/
theorem Upto.eq_or_report {e e' : Halt} (h : Upto f Halt.bare e e') :
    e = e' ∨ ∃ r r', e = .failed (.report r) ∧ e' = .failed (.report r') := by
  obtain ⟨hb, -⟩ := h
  rcases e with e | _ <;> rcases e' with e' | _
  · have hb := Halt.failed.inj hb
    cases e with
    | report r =>
      cases e' with
      | report r' => exact .inr ⟨r, r', rfl, rfl⟩
      | _ => cases hb
    | _ =>
      cases e' with
      | report r' => cases hb
      | _ => exact .inl (congrArg Halt.failed hb)
  · cases hb
  · cases hb
  · exact .inl rfl

namespace Agree

variable {x y : Exec α}

theorem pure (a : α) : Agree f D i i (Pure.pure a) (Pure.pure a) := fun _ _ hm => .ok hm

theorem bind {g h : α → Exec β} (hx : Agree f D i j x y) (hg : ∀ a, Agree f D j k (g a) (h a)) :
    Agree f D i k (x >>= g) (y >>= h) := by
  intro m m' hm
  simp only [Bind.bind, EStateM.bind]
  have ended := hx m m' hm
  revert ended
  generalize x m = r
  generalize y m' = r'
  intro ended
  cases ended with
  | ok hm => exact hg _ _ _ hm
  | error l hm he => exact .error l hm he

theorem get {g h : Machine → Exec α} (hg : ∀ m m', Like f D i m m' → Agree f D i j (g m) (h m')) :
    Agree f D i j (MonadState.get >>= g) (MonadState.get >>= h) := fun m m' hm => hg m m' hm m m' hm

theorem throw {e e' : Halt} (he : Upto f Halt.bare e e') :
    Agree f D i j (throw e : Exec α) (throw e') := fun _ _ hm => .error i hm he

theorem turn {k : Handled} {e e' : k.Error → Halt} (he : ∀ o, Upto f Halt.bare (e o) (e' o))
    (hx : Agree f D i j x y) : Agree f D i j (k.turn (fun o => MonadExcept.throw (e o)) x)
      (k.turn (fun o => MonadExcept.throw (e' o)) y) := by
  intro m m' hm
  have ended := hx m m' hm
  generalize ex : x m = r at ended
  generalize ey : y m' = r' at ended
  cases ended with
  | ok hm =>
    rw [Handled.turn_ok ex, Handled.turn_ok ey]
    exact .ok hm
  | @error h h' _ _ l hm hh =>
    rcases hh.eq_or_report with rfl | ⟨_, _, rfl, rfl⟩
    · by_cases hk : ∃ o, h = .failed (k.failure o)
      · obtain ⟨o, rfl⟩ := hk
        rw [Handled.turn_failure ex, Handled.turn_failure ey]
        exact .error l hm (he o)
      · rw [Handled.turn_other ex hk, Handled.turn_other ey hk]
        exact .error l hm hh
    · have hk : ∀ r, ¬∃ o, Halt.failed (.report r) = .failed (k.failure o) := by
        cases k <;> simp [Handled.failure]
      rw [Handled.turn_other ex (hk _), Handled.turn_other ey (hk _)]
      exact .error l hm hh

theorem mem {z : Mem α} (hz : z.Blind) : Agree f D i i (mem z : Exec α) (mem z) := by
  intro m m' hm
  have bare : Mem.bareEnd (z m.store) = Mem.bareEnd (z m'.store) := by
    rw [← hz, hm.store.1, hz]
  have same : f = id → z m.store = z m'.store := fun hf => by rw [hm.store.2 hf]
  unfold Exec.mem
  revert bare same
  generalize z m.store = r
  generalize z m'.store = r'
  intro bare same
  cases r with
  | ok a s =>
    cases r' with
    | ok a' s' =>
      simp only [Mem.bareEnd, EStateM.Result.ok.injEq] at bare
      obtain ⟨rfl, hs⟩ := bare
      exact .ok { hm with store := ⟨hs, fun hf => by cases same hf; rfl⟩ }
    | error e' s' => cases bare
  | error e s =>
    cases r' with
    | ok a' s' => cases bare
    | error e' s' =>
      simp only [Mem.bareEnd, EStateM.Result.error.injEq] at bare
      obtain ⟨rfl, hs⟩ := bare
      exact .error i { hm with store := ⟨hs, fun hf => by cases same hf; rfl⟩ } (.refl _)

theorem alloc {v w : Value} (h : Upto f Value.bare v w) :
    Agree f D i i (Exec.mem (Mem.alloc v) : Exec Ref) (Exec.mem (Mem.alloc w)) := by
  intro m m' hm
  have hv := m.store.bare_alloc v
  rw [hm.store.1, h.1, m'.store.bare_alloc w, Prod.mk.injEq] at hv
  have same : f = id → (m.store.alloc v).2 = (m'.store.alloc w).2 := fun hf => by
    rw [hm.store.2 hf, h.2 hf]
  show Ends f D i (.ok (m.store.alloc v).1 { m with store := (m.store.alloc v).2 })
    (.ok (m'.store.alloc w).1 { m' with store := (m'.store.alloc w).2 })
  rw [hv.1]
  exact .ok { hm with store := ⟨hv.2.symm, same⟩ }

theorem ofExcept (z : Except Failure α) : Agree f D i i (ofExcept z : Exec α) (ofExcept z) := by
  cases z with
  | ok a => exact fun _ _ hm => .ok hm
  | error e => exact fun _ _ hm => .error i hm (.refl _)

theorem emit (s : String) : Agree f D i i (emit s : Exec Unit) (emit s) :=
  fun _ _ hm => .ok { hm with out := congrArg (· ++ s) hm.out }

theorem readLine : Agree f D i i (readLine : Exec String) readLine := by
  intro m m' hm
  unfold Exec.readLine
  rw [← hm.input]
  split
  · exact .error i hm (.refl _)
  · exact .ok { hm with input := rfl }

theorem noteJump (name name' what : String) :
    Agree f D i i (noteJump name what : Exec Unit) (noteJump name' what) := by
  intro m m' hm
  unfold Exec.noteJump
  rw [log_quiet hm.quiet (by decide), log_quiet hm.quiet' (by decide)]
  exact .ok hm

theorem modifyRecords {g : List Record → List Record}
    (hg : ∀ rs rs', Above f D i rs rs' → Above f D i (g rs) (g rs')) :
    Agree f D i i (modifyRecords g : Exec Unit) (modifyRecords g) :=
  fun _ _ hm => .ok { hm with records := hg _ _ hm.records }

theorem modifyTop {g : Record → Record} (hg : ∀ r r', r.Twin f r' → (g r).Twin f (g r')) :
    Agree f D (i + 1) (i + 1) (modifyStack (·.modifyTop g) : Exec Unit) (modifyStack (·.modifyTop g)) := by
  intro m m' hm
  refine .ok { hm with records := ?_ }
  have hr := hm.records
  simp only [CallStackOf.modifyTop]
  cases e : m.stack.records <;> cases e' : m'.stack.records <;> rw [e, e'] at hr <;> cases hr
  exact .cons (hg _ _ ‹_›) ‹_›

theorem iterate {step step' : α → Exec (Option α)} (h : ∀ a, Agree f D i i (step a) (step' a)) (n : Nat)
    (a : α) : Agree f D i i (Eval.iterate step n a) (Eval.iterate step' n a) := by
  induction n generalizing a with
  | zero => exact throw (.refl _)
  | succ n ih =>
    refine bind (h a) fun next => ?_
    split
    · exact ih _
    · exact pure _

end Agree

/-! ### Runs -/

namespace Grounds

variable (hD : Grounds D)
include hD

omit hD in
theorem within {r r' : Record} {x y : Exec α} (hr : Upto f RecordOf.bare r r')
    (hx : Agree f D (i + 1) (i + 1) x y) : Agree f D i i (within r x) (within r' y) := by
  have enter : Agree f D i (i + 1) (enter r) (enter r') := by
    intro m m' hm
    rw [enter_quiet hm.quiet, enter_quiet hm.quiet']
    have twin := RecordOf.Twin.of_upto hr
    exact .ok { hm with records := .cons ⟨twin.1, twin.2, twin.3, twin.4, twin.5⟩ hm.records }
  have leave : Agree f D (i + 1) i (leave : Exec Unit) leave := by
    intro m m' hm
    obtain ⟨r, r', h, h', -⟩ := hm.current?
    rw [leave_quiet hm.quiet h, leave_quiet hm.quiet' h']
    refine .ok { hm with records := ?_ }
    have hr := hm.records
    simp only [CallStackOf.pop]
    cases e : m.stack.records <;> cases e' : m'.stack.records <;> rw [e, e'] at hr <;> cases hr
    assumption
  exact enter.bind fun _ => hx.bind fun _ => leave.bind fun _ => .pure _

theorem walk (i : Nat) :
    Walk f (Agree f D i i) (fun x y => ∀ i, Agree f D (i + 1) (i + 1) x y) where
  pure := .pure
  bind := .bind
  halt := .throw
  turn := .turn
  read hg := .get fun m m' hm => hg m m' hm.store
  mem := .mem
  alloc := .alloc
  ofExcept := .ofExcept
  emit := .emit
  readLine := .readLine
  getName x p := by
    refine .get fun m m' hm => ?_
    rw [(hD.above i).value hm.records]
    split
    · exact .pure _
    · exact .throw (.report p _)
  setName x p v force := by
    refine .get fun m m' hm => ?_
    rw [(hD.above i).binding hm.records]
    split
    · exact .throw (.report p _)
    · exact Walk.ite (R := Agree f D i i) (.throw (.report p _))
        (.modifyRecords fun _ _ h => (hD.above i).rebind h x v)
  sendJump st _ hg word := by
    intro m m' hm
    rw [sendJump_quiet hm.quiet, sendJump_quiet hm.quiet', (hD.above i).found hm.records st hg]
    exact .ok { hm with records := (hD.above i).jump hm.records st hg }
  setRetval v := .modifyRecords fun _ _ h => (hD.above i).setRetval h v
  within hr hx := within hr (hx i)

theorem inside : Inside f (fun x y => ∀ i, Agree f D (i + 1) (i + 1) x y) where
  pure a i := .pure a
  bind hx hg i := .bind (hx i) fun a => hg a i
  halt he i := .throw he
  turn he hx i := .turn he (hx i)
  read hg i := .get fun m m' hm => hg m m' hm.store i
  mem hz i := .mem hz
  alloc h i := .alloc h
  ofExcept z i := .ofExcept z
  emit s i := .emit s
  readLine i := .readLine
  getName x p i := (hD.walk (i + 1)).getName x p
  setName x p v force i := (hD.walk (i + 1)).setName x p v force
  sendJump st _ hg word i := (hD.walk (i + 1)).sendJump st hg word
  setRetval v i := (hD.walk (i + 1)).setRetval v
  within hr hx i := within hr (hx (i + 1))
  current hg i := by
    simp only [Exec.currentRecord, bind_assoc]
    refine .get fun m m' hm => ?_
    obtain ⟨r, r', h, h', hr⟩ := hm.current?
    rw [h, h']
    exact hg r r' hr i
  bindTop x b i := .modifyTop fun _ _ h => h.set x b
  setState st i := .modifyTop fun _ _ h => ⟨h.kind, h.members, rfl, h.retval, h.name⟩
  noteJump what _ i := .noteJump _ _ what

/-- Runs of nodes agree inside a record that has been entered. -/
theorem visit (swaps : ∀ n,
      (∀ node i, Agree f D (i + 1) (i + 1) (Eval.visit n node) (Eval.visit n (node.moved f))) →
      Swaps f (fun x y => ∀ i, Agree f D (i + 1) (i + 1) x y) (Eval.visit n))
    (n : Nat) (node : Node) (i : Nat) :
    Agree f D (i + 1) (i + 1) (Eval.visit n node) (Eval.visit n (node.moved f)) := by
  induction n generalizing node i with
  | zero => exact .throw (.refl _)
  | succ n ih =>
    have step := hD.inside.toWalk.visitWith hD.inside ih (fun h c i => .iterate (fun a => h a i) n c)
      (fun k _ => ih k) (fun _ _ _ _ (_ : node = _) => hD.inside) (swaps n ih)
    exact step i

end Grounds

end TinyScript
