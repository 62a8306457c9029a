import TinyScript.Proofs.Constants
import TinyScript.Proofs.ControlFlow
import TinyScript.Proofs.LogLevels
import TinyScript.Proofs.Stillness

/-!
# Rounds of a loop

A loop that binds names in its record comes, round after round, from a head to its body and from
there to a tail, which leads to the head again. `Cycle.Rounds` follows such a loop without fuel and
lists the machines at which its body begins; the evaluator does the same, given enough fuel
(`Rounds.iterate`). `exists_rounds` tells the number of rounds from an invariant of the heads.

Between two rounds the call stack is what it was when the loop was entered, but for the values in it
(`AtHead`), as long as no execution of the body ends by `break` or `return`.
-/

namespace TinyScript

open Exec List

variable {α β : Type} {m m' m₀ m₁ m₂ : Machine} {body : Node}
variable {S : List String} {v : Slot} {r : Record}

/-- A run of the node, with as much fuel as it takes, leads from `m` to `m'` and yields `v`. -/
def Eval.Gives (n : Node) (m : Machine) (v : Slot) (m' : Machine) : Prop :=
  ∃ k, Eval.visit k n m = .ok v m'

theorem Eval.Gives.unique {n : Node} {v₁ v₂ : Slot} (h₁ : Eval.Gives n m v₁ m₁)
    (h₂ : Eval.Gives n m v₂ m₂) : v₁ = v₂ ∧ m₁ = m₂ := by
  obtain ⟨_, h₁⟩ := h₁
  obtain ⟨_, h₂⟩ := h₂
  exact visit_unique h₁ h₂

theorem Runs.succeeds {c : Setting} {W : View} {x : Exec α} {Q : α → Machine → Prop}
    (h : Runs c S W (fun _ => False) x Q m) :
    ∃ a m', x m = .ok a m' ∧ m'.Good c W ∧ Proceeds c S m m' ∧ Q a m' := by
  cases hx : x m with
  | ok a m' => exact ⟨a, m', rfl, (wp_of_ok hx).1 h⟩
  | error e m' => exact ((wp_of_error hx).1 h).2.2.elim

/-! ### Heads and tails -/

/-- What a loop does before its body and after it. Without a value from the head it is over, and
without one from the tail it ends. -/
structure Cycle (α β : Type) where
  head : α → Exec (Option β)
  tail : β → Exec (Option α)

namespace Cycle

variable {L : Cycle α β} {a a' : α} {b : β}
variable {x : Exec Slot} {step : α → Exec (Option α)} {ms : List Machine} {F : Machine → Machine → Prop}
  {n : Nat}

/-- One round. -/
def round (L : Cycle α β) (body : Exec Slot) (a : α) : Exec (Option α) := do
  match ← L.head a with
  | none => return none
  | some b =>
    let _ ← body
    L.tail b

/-- All rounds from a head on, with the machines at which the body begins. -/
inductive Rounds (L : Cycle α β) (body : Node) : α → Machine → List Machine → Machine → Prop
  | ended {a : α} {m m' : Machine} (h : L.head a m = .ok none m') : Rounds L body a m [] m'
  | stop {a : α} {b : β} {v : Slot} {m m₁ m₂ m' : Machine} (h : L.head a m = .ok (some b) m₁)
      (hb : Eval.Gives body m₁ v m₂) (ht : L.tail b m₂ = .ok none m') : Rounds L body a m [m₁] m'
  | again {a a' : α} {b : β} {v : Slot} {m m₁ m₂ m₃ m' : Machine} {ms : List Machine}
      (h : L.head a m = .ok (some b) m₁) (hb : Eval.Gives body m₁ v m₂)
      (ht : L.tail b m₂ = .ok (some a') m₃) (hr : Rounds L body a' m₃ ms m') :
      Rounds L body a m (m₁ :: ms) m'

/-- The machines at which the body begins, whether or not the loop comes to an end. -/
inductive Begins (L : Cycle α β) (body : Node) : α → Machine → Machine → Prop
  | first {a : α} {b : β} {m m₁ : Machine} (h : L.head a m = .ok (some b) m₁) : Begins L body a m m₁
  | later {a a' : α} {b : β} {v : Slot} {m m₁ m₂ m₃ m' : Machine} (h : L.head a m = .ok (some b) m₁)
      (hb : Eval.Gives body m₁ v m₂) (ht : L.tail b m₂ = .ok (some a') m₃)
      (hl : Begins L body a' m₃ m') : Begins L body a m m'

theorem round_of_none (h : L.head a m = .ok none m') : L.round x a m = .ok none m' := by
  rw [round, bind_of_ok h]
  rfl

theorem round_of_some (h : L.head a m = .ok (some b) m₁) (hx : x m₁ = .ok v m₂) :
    L.round x a m = L.tail b m₂ := by
  rw [round, bind_of_ok h]
  exact bind_of_ok hx

theorem iterate_of_none (h : step a m = .ok none m') (n : Nat) :
    Eval.iterate step (n + 1) a m = .ok () m' := by
  rw [Eval.iterate, bind_of_ok h]
  rfl

theorem iterate_of_some (h : step a m = .ok (some a') m') (n : Nat) :
    Eval.iterate step (n + 1) a m = Eval.iterate step n a' m' := by
  rw [Eval.iterate, bind_of_ok h]

theorem Rounds.unique {ms' : List Machine} (h : L.Rounds body a m ms m₁) (h' : L.Rounds body a m ms' m₂) :
    ms = ms' ∧ m₁ = m₂ := by
  induction h generalizing ms' m₂ with
  | ended h =>
    cases h' with
    | ended h' =>
      cases h.symm.trans h'
      exact ⟨rfl, rfl⟩
    | stop h' => cases h.symm.trans h'
    | again h' => cases h.symm.trans h'
  | stop h hb ht =>
    cases h' with
    | ended h' => cases h.symm.trans h'
    | stop h' hb' ht' =>
      cases h.symm.trans h'
      obtain ⟨-, rfl⟩ := hb.unique hb'
      cases ht.symm.trans ht'
      exact ⟨rfl, rfl⟩
    | again h' hb' ht' =>
      cases h.symm.trans h'
      obtain ⟨-, rfl⟩ := hb.unique hb'
      cases ht.symm.trans ht'
  | again h hb ht _ ih =>
    cases h' with
    | ended h' => cases h.symm.trans h'
    | stop h' hb' ht' =>
      cases h.symm.trans h'
      obtain ⟨-, rfl⟩ := hb.unique hb'
      cases ht.symm.trans ht'
    | again h' hb' ht' hr' =>
      cases h.symm.trans h'
      obtain ⟨-, rfl⟩ := hb.unique hb'
      cases ht.symm.trans ht'
      obtain ⟨rfl, e⟩ := ih hr'
      exact ⟨rfl, e⟩

theorem Rounds.iterate (h : L.Rounds body a m ms m') :
    ∃ n, ∀ k i, n ≤ k → n ≤ i → Eval.iterate (L.round (Eval.visit k body)) i a m = .ok () m' := by
  induction h with
  | ended h =>
    refine ⟨1, fun k i _ hi => ?_⟩
    obtain ⟨i, rfl⟩ := Nat.exists_eq_add_of_le' hi
    exact iterate_of_none (round_of_none h) i
  | stop h hb ht =>
    obtain ⟨n, hb⟩ := hb
    refine ⟨n + 1, fun k i hk hi => ?_⟩
    obtain ⟨i, rfl⟩ := Nat.exists_eq_add_of_le' (Nat.le_trans (Nat.le_add_left 1 n) hi)
    have hb := visit_mono (Nat.le_of_succ_le hk) hb
    exact iterate_of_none ((round_of_some h hb).trans ht) i
  | again h hb ht _ ih =>
    obtain ⟨n, hb⟩ := hb
    obtain ⟨n', ih⟩ := ih
    refine ⟨max n n' + 1, fun k i hk hi => ?_⟩
    obtain ⟨i, rfl⟩ := Nat.exists_eq_add_of_le' (Nat.le_trans (Nat.le_add_left 1 (max n n')) hi)
    have hb := visit_mono (show n ≤ k by omega) hb
    rw [iterate_of_some ((round_of_some h hb).trans ht)]
    exact ih k i (by omega) (by omega)

/-- If every head before the one of number `n` leads to the body and from there to the next head,
and that one is over, there are `n` rounds. `F` is what is asked of the executions of the body. -/
theorem exists_rounds {I : Nat → α → Machine → Prop} {J : Nat → Machine → Prop} {K : Machine → Prop}
    (step : ∀ j a m, j < n → I j a m → ∃ b m₁, L.head a m = .ok (some b) m₁ ∧ J j m₁ ∧
      ∀ v m₂, Eval.Gives body m₁ v m₂ → F m₁ m₂ →
        ∃ a' m₃, L.tail b m₂ = .ok (some a') m₃ ∧ I (j + 1) a' m₃)
    (last : ∀ a m, I n a m → ∃ m', L.head a m = .ok none m' ∧ K m')
    (ends : ∀ m₁, L.Begins body a m m₁ → ∃ v m₂, Eval.Gives body m₁ v m₂ ∧ F m₁ m₂) (h : I 0 a m) :
    ∃ ms m', L.Rounds body a m ms m' ∧ ms.length = n ∧
      (∀ (j : Nat) m₁, ms[j]? = some m₁ → J j m₁) ∧ K m' := by
  -- with `i` rounds to go, the next one is that of number `j`
  have go : ∀ (i j : Nat) (a : α) (m : Machine), i + j = n → I j a m →
      (∀ m₁, L.Begins body a m m₁ → ∃ v m₂, Eval.Gives body m₁ v m₂ ∧ F m₁ m₂) →
      ∃ ms m', L.Rounds body a m ms m' ∧ ms.length = i ∧
        (∀ (l : Nat) m₁, ms[l]? = some m₁ → J (j + l) m₁) ∧ K m' := by
    intro i
    induction i with
    | zero =>
      intro j a m hj h _
      obtain rfl : j = n := by omega
      obtain ⟨m', hh, hk⟩ := last a m h
      exact ⟨[], m', .ended hh, rfl, fun l m₁ hl => by simp at hl, hk⟩
    | succ i ih =>
      intro j a m hj h ends
      obtain ⟨b, m₁, hh, hj₁, next⟩ := step j a m (by omega) h
      obtain ⟨v, m₂, hb, hf⟩ := ends m₁ (.first hh)
      obtain ⟨a', m₃, ht, h'⟩ := next v m₂ hb hf
      obtain ⟨ms, m', rounds, length, starts, hk⟩ := ih (j + 1) a' m₃ (by omega) h'
        fun m₁' hl => ends m₁' (.later hh hb ht hl)
      refine ⟨m₁ :: ms, m', .again hh hb ht rounds, congrArg (· + 1) length, fun l m' hl => ?_, hk⟩
      cases l with
      | zero =>
        cases hl
        exact hj₁
      | succ l =>
        have := starts l m' hl
        rwa [Nat.add_assoc, Nat.add_comm 1] at this
  obtain ⟨ms, m', rounds, length, starts, hk⟩ := go n 0 a m rfl h ends
  exact ⟨ms, m', rounds, length, fun j m₁ hj => Nat.zero_add j ▸ starts j m₁ hj, hk⟩

/-- Whether all executions of the body end, and as `F` has it, with fuel `k` for each of up to `n`. -/
def endsAll (L : Cycle α β) (body : Node) (F : Machine → Machine → Prop) [∀ m, DecidablePred (F m)]
    (k : Nat) : Nat → α → Machine → Bool
  | 0, _, _ => false
  | n + 1, a, m =>
    match L.head a m with
    | .ok (some b) m₁ =>
      match Eval.visit k body m₁ with
      | .ok _ m₂ =>
        decide (F m₁ m₂) &&
          match L.tail b m₂ with
          | .ok (some a') m₃ => endsAll L body F k n a' m₃
          | _ => true
      | .error _ _ => false
    | _ => true

theorem Begins.ends [∀ m, DecidablePred (F m)] {k : Nat} (hb : L.Begins body a m m₁)
    (h : L.endsAll body F k n a m = true) : ∃ v m₂, Eval.Gives body m₁ v m₂ ∧ F m₁ m₂ := by
  induction hb generalizing n with
  | @first _ _ _ m₁ head =>
    cases n with
    | zero => cases h
    | succ n =>
      simp only [endsAll, head] at h
      cases run : Eval.visit k body m₁ with
      | ok v m₂ =>
        simp only [run, Bool.and_eq_true, decide_eq_true_iff] at h
        exact ⟨v, m₂, ⟨k, run⟩, h.1⟩
      | error e m₂ => simp [run] at h
  | @later _ _ _ _ _ m₁ m₂ _ _ head run tail _ ih =>
    cases n with
    | zero => cases h
    | succ n =>
      simp only [endsAll, head] at h
      cases run' : Eval.visit k body m₁ with
      | ok v m₂' =>
        obtain ⟨-, rfl⟩ := run.unique ⟨k, run'⟩
        simp only [run', tail, Bool.and_eq_true] at h
        exact ih h.2
      | error e m₂' => simp [run'] at h

end Cycle

/-! ### Entering and leaving -/

theorem eq_of_logStack (h : (logStack : Exec Unit) m = .ok () m') : m' = { m with out := m'.out } := by
  cases hl : LogLevel.debug.shows m.level with
  | false =>
    rw [logStack_of_hidden hl] at h
    cases h
    rfl
  | true =>
    cases hs : m.stack.render m.store with
    | ok t =>
      rw [logStack_of_render hl hs] at h
      cases h
      rfl
    | error f =>
      rw [logStack_of_unlistable hl hs] at h
      cases h

theorem eq_of_enter (h : Exec.enter r m = .ok () m') :
    m' = { m with stack := m.stack.push r, out := m'.out } := by
  obtain ⟨_, m₁, h₁, h⟩ := exists_of_bind_eq_ok h
  obtain ⟨_, m₂, h₂, h₃⟩ := exists_of_bind_eq_ok h
  cases h₁
  cases h₂
  exact eq_of_logStack h₃

theorem leave_eq (hr : m.stack.current? = some r) :
    (Exec.leave : Exec Unit) m = (do
      log .debug s!"leave: {r.name}"
      logStack
      modifyStack fun cs => cs.pop.2 : Exec Unit) m := by
  have get : (MonadState.get : Exec Machine) m = .ok m m := rfl
  rw [Exec.leave, bind_of_ok get, hr]

theorem eq_of_leave (h : (Exec.leave : Exec Unit) m = .ok () m') :
    m' = { m with stack := m.stack.pop.2, out := m'.out } := by
  cases hr : m.stack.current? with
  | none =>
    have get : (MonadState.get : Exec Machine) m = .ok m m := rfl
    rw [Exec.leave, bind_of_ok get, hr] at h
    cases h
  | some r =>
    rw [leave_eq hr] at h
    obtain ⟨_, m₁, h₁, h⟩ := exists_of_bind_eq_ok h
    obtain ⟨_, m₂, h₂, h₃⟩ := exists_of_bind_eq_ok h
    cases h₁
    cases h₃
    rw [eq_of_logStack h₂]

theorem exists_logStack
    (h : LogLevel.debug.shows m.level = true → ∃ t, m.stack.render m.store = .ok t) :
    ∃ m', (logStack : Exec Unit) m = .ok () m' := by
  cases hl : LogLevel.debug.shows m.level with
  | false => exact ⟨m, logStack_of_hidden hl⟩
  | true =>
    obtain ⟨t, ht⟩ := h hl
    exact ⟨_, logStack_of_render hl ht⟩

/-- Only a listing of the stack may be in the way of leaving a record. -/
theorem exists_leave
    (h : LogLevel.debug.shows m.level = true → ∃ t, m.stack.render m.store = .ok t)
    (hr : m.stack.records ≠ []) : ∃ m', (Exec.leave : Exec Unit) m = .ok () m' := by
  obtain ⟨r, rs, e⟩ := exists_cons_of_ne_nil hr
  have log : (log .debug s!"leave: {r.name}" : Exec Unit) m =
    .ok () { m with out := m.out ++ LogLevel.debug.log m.level s!"leave: {r.name}" } := rfl
  obtain ⟨m₁, list⟩ := exists_logStack
    (m := { m with out := m.out ++ LogLevel.debug.log m.level s!"leave: {r.name}" }) h
  rw [leave_eq (r := r) (by rw [CallStackOf.current?, e]; rfl), bind_of_ok log, bind_of_ok list]
  exact ⟨_, rfl⟩

/-! ### What a body leaves as it is -/

/-- Record number `i` binds `x` as a constant, and its value is `v`. -/
def MachineOf.Holds (m : Machine) (i : Nat) (x : String) (v : Value) : Prop :=
  ∃ q, m.Binds i x q ∧ m.store.get q = v

theorem binds_of_top {rs : List Record} {x : String} {q : Ref} (hr : m.stack.records = r :: rs)
    (hx : r.get? x = some ⟨some q, true⟩) : m.Binds m.stack.records.length x q := by
  refine ⟨r, ?_, hx⟩
  rw [hr, length_cons, CallStackOf.record?_succ, hr, reverse_cons]
  simp

/-- However a statement ends, and wherever it is cut short, constants stay bound as they are. -/
theorem MachineOf.Still.wp_stat {P : Machine → Prop} (hm : m.Still) (hb : body.IsStat)
    (hn : body.Still) (stop : Nat → Node → Machine → Bool) (k : Nat)
    (h : ∀ m' : Machine, m.store.Evolves (.still m.level) m'.store →
      (∀ i x q, m.Binds i x q → m'.Binds i x q) → P m') :
    wp (Eval.visitCut stop k body) (fun _ => P) (fun _ => P) m := by
  have runs := (visits_still m.level stop k).stat (S := []) (.unwatched rfl hb hn) hm.good
  refine wp_mono runs (fun _ m' h' => h m' h'.2.1.store fun i x q bound => ?_)
    fun _ m' h' => h m' h'.2.1.store fun i x q bound => ?_
  · exact bound.kept (nil_append _).symm h'.2.1.records fun h => by cases h
  · obtain ⟨top, base, hr, hk, -⟩ := h'.2.1.records
    exact bound.kept hr hk fun h => by cases h

/-! ### Between two rounds -/

/-- The execution of the body of a loop has ended normally or by `continue`. -/
def MachineOf.Settles (m : Machine) : Prop :=
  ∃ r ∈ m.stack.current?, r.state = .normal ∨ r.state = .continued

instance : DecidablePred MachineOf.Settles :=
  fun m => inferInstanceAs (Decidable (∃ r ∈ m.stack.current?, _))

theorem MachineOf.Still.sound (h : m.Still) : m.Sound :=
  ⟨h.good.store.sound, fun r hr => (h.good.records r hr).sound⟩

/-- The machine `m` is at the head of a round of the loop whose record was entered at `m₀`. -/
structure AtHead (m₀ m : Machine) : Prop where
  still : m.Still
  level : m.level = m₀.level
  store : m₀.store.Evolves (.still m₀.level) m.store
  nested : m.Nested
  skeleton : m.stack.skeleton = m₀.stack.skeleton
  marks : marks m = marks m₀
  loop : ∃ g t, TinyScript.marks m = g :: t ∧ g.kind = .loop ∧ g.state = .normal

theorem settleLoop_of_settles (h : m.Settles) :
    ∃ m', Eval.settleLoop m = .ok true m' ∧ m'.store = m.store ∧ m'.level = m.level ∧
      ∀ r rs, m.stack.records = r :: rs → m'.stack.records = { r with state := .normal } :: rs := by
  obtain ⟨r, hr, hst⟩ := h
  have top : (currentRecord : Exec Record) m = .ok r m := by
    have get : (MonadState.get : Exec Machine) m = .ok m m := rfl
    rw [currentRecord, bind_of_ok get, hr]
    rfl
  have is : ∀ r' rs, m.stack.records = r' :: rs → r' = r := by
    intro r' rs e
    rw [CallStackOf.current?, e] at hr
    exact Option.some.inj hr
  rw [Eval.settleLoop, bind_of_ok top]
  rcases hst with hst | hst
  · rw [hst]
    refine ⟨m, rfl, rfl, rfl, fun r' rs e => ?_⟩
    rw [e, is r' rs e, ← hst]
  · rw [hst]
    refine ⟨_, rfl, rfl, rfl, fun r' rs e => ?_⟩
    show (m.stack.modifyTop _).records = _
    simp only [CallStackOf.modifyTop, e]

/-- The marks of a body that settles: those it began with, but for the state of the loop. -/
theorem marks_of_settles {g : Record} {t : List Record} (hm : m.Sound) (hg : marks m = g :: t)
    (hk : g.kind = .loop) (hb : body.IsStat) (run : Eval.Gives body m v m') (hs : m'.Settles) :
    ∃ st, marks m' = { g with state := st } :: t := by
  obtain ⟨k, run⟩ := run
  obtain ⟨o, ends⟩ := ((sim_visit k).2 body hb 0 (marks m)).marks_of_ok hm run
  have marked := ends.marks
  rw [hg] at marked
  obtain ⟨r, hr, hst⟩ := hs
  -- the state of the innermost record is the one that its mark has
  have top : ∀ g' t', marks m' = g' :: t' → g'.state = r.state := by
    intro g' t' e
    rw [CallStackOf.current?] at hr
    rw [marks] at e
    cases hrs : m'.stack.records with
    | nil =>
      rw [hrs] at hr
      cases hr
    | cons r' rs =>
      rw [hrs] at e hr
      cases hr
      cases e
      rfl
  cases o with
  | normal => exact ⟨g.state, marked⟩
  | broken => exact ⟨.breaked, by rw [marked, Outcome.mark, CallStack.jump, if_pos hk]⟩
  | continued => exact ⟨.continued, by rw [marked, Outcome.mark, CallStack.jump, if_pos hk]⟩
  | returned w =>
    rw [Outcome.mark, CallStack.jump, if_neg (by rw [hk]; decide), if_neg (by rw [hk]; decide)] at marked
    simp only [CallStack.setRetval, hk] at marked
    have returned := top _ _ marked
    rw [← returned] at hst
    rcases hst with hst | hst <;> cases hst

namespace AtHead

/-- From one head to another by way of something that leaves all marks. -/
theorem proceed (h : AtHead m₀ m) (hg : m'.Good (.still m.level) none)
    (hp : Proceeds (.still m.level) S m m') (hs : m'.stack.skeleton = m.stack.skeleton)
    (hk : TinyScript.marks m' = TinyScript.marks m) : AtHead m₀ m' where
  still := h.still.proceeds hg hp
  level := hg.level.trans h.level
  store := h.store.trans (h.level ▸ hp.store)
  nested := hp.nested h.nested
  skeleton := hs.trans h.skeleton
  marks := hk.trans h.marks
  loop := hk ▸ h.loop

theorem length (h : AtHead m₀ m) : m.stack.records.length = m₀.stack.records.length := by
  have := congrArg List.length h.marks
  rwa [TinyScript.marks, TinyScript.marks, length_map, length_map] at this

/-- The body is run, and the loop takes note of how it has ended. -/
theorem settle (h : AtHead m₀ m) (hb : body.IsStat) (hn : body.Still) (run : Eval.Gives body m v m')
    (hs : m'.Settles) :
    ∃ m'', Eval.settleLoop m' = .ok true m'' ∧ AtHead m₀ m'' ∧
      Proceeds (.still m.level) [] m m'' ∧ m''.store = m'.store := by
  obtain ⟨g, t, hg, loop, normal⟩ := h.loop
  obtain ⟨st, marked⟩ := marks_of_settles h.still.sound hg loop hb run hs
  obtain ⟨k, run⟩ := run
  have visits := visits_still m.level (fun _ _ _ => false) k
  have balanced := balanced_visitCut (fun _ _ _ => false) k body
  rw [Eval.visitCut_false] at visits balanced
  obtain ⟨good', hp', -⟩ := (wp_of_ok run).1 (visits.stat (S := []) (.unwatched rfl hb hn) h.still.good)
  obtain ⟨m'', settled, store, -, records⟩ := settleLoop_of_settles hs
  obtain ⟨good'', hp'', -⟩ := (wp_of_ok settled).1
    (Runs.settleLoop (S := []) (X := fun _ => True) good' (hp'.nested h.nested))
  have skeleton' := (wp_of_ok run).1 (balanced m)
  have skeleton'' := (wp_of_ok settled).1 (Balanced.respected.inside.settleLoop m')
  -- the state of the loop is what it was
  have marks'' : TinyScript.marks m'' = TinyScript.marks m := by
    obtain ⟨r, rs, e⟩ := exists_cons_of_ne_nil good'.records_ne_nil
    rw [TinyScript.marks, e] at marked
    obtain ⟨hr, hrs⟩ := List.cons.inj marked
    have tag : RecordOf.tag { r with state := .normal } = g := by
      have := congrArg (fun g' : Record => { g' with state := g.state }) hr
      exact normal ▸ this
    rw [TinyScript.marks, records r rs e, hg, map_cons, hrs, tag]
  exact ⟨m'', settled, h.proceed good'' (hp'.trans hp'') (skeleton''.trans skeleton') marks'',
    hp'.trans hp'', store⟩

theorem leave (h : AtHead m₀ m) (entered : Exec.enter r m₁ = .ok () m₀)
    (left : (Exec.leave : Exec Unit) m = .ok () m') :
    m'.stack.skeleton = m₁.stack.skeleton ∧ TinyScript.marks m' = TinyScript.marks m₁ := by
  have stack₀ : m₀.stack = m₁.stack.push r := by rw [eq_of_enter entered]
  have stack' : m'.stack = m.stack.pop.2 := by rw [eq_of_leave left]
  constructor
  · rw [stack', CallStackOf.skeleton_pop, h.skeleton, ← CallStackOf.skeleton_pop, stack₀,
      CallStackOf.pop_push]
  · have tails := congrArg List.tail h.marks
    rw [TinyScript.marks, TinyScript.marks, ← map_tail, ← map_tail, stack₀] at tails
    rw [TinyScript.marks, stack']
    exact tails

end AtHead

theorem atHead_of_enter (hm : m₁.Still) (hr : r.Good m₁.store.cells.size) (hk : r.kind = .loop)
    (hs : r.state = .normal) (h : Exec.enter r m₁ = .ok () m₀) : AtHead m₀ m₀ := by
  have e := eq_of_enter h
  have store : m₀.store = m₁.store := by rw [e]
  have stack : m₀.stack = m₁.stack.push r := by rw [e]
  have level : m₀.level = m₁.level := by rw [e]
  have pushed : { m₁ with stack := m₁.stack.push r }.Still := ⟨hm.good.push hr .unknown, hm.tidy⟩
  obtain ⟨r₁, rs, hrs⟩ := exists_cons_of_ne_nil hm.good.records_ne_nil
  have nested : m₀.Nested := by
    refine ⟨{ r with outer := m₁.stack.current, level := m₁.stack.level + 1 }, r₁, rs, ?_⟩
    rw [stack, CallStackOf.push, hrs]
  refine ⟨pushed.congr store (by rw [stack]) level, rfl, .refl, nested, rfl, rfl,
    ⟨r.tag, marks m₁, ?_, hk, hs⟩⟩
  rw [marks, stack]
  rfl

end TinyScript
