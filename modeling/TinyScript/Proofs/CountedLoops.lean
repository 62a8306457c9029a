import Mathlib.Algebra.Order.Floor.Ring
import Mathlib.Data.Rat.Floor
import TinyScript.Proofs.LoopRuns
import TinyScript.Proofs.NameLookup

/-!
# Loops over a range

A loop over a range from `s` to `e` by steps of `d` goes through `max 0 ⌈(e - s) / d⌉` rounds, and
its variable is `s + j * d` in the one of number `j`. The end and the step are read once, from cells
that nothing in a program without compound assignments can change.
-/

namespace TinyScript

open Exec Eval

variable {m m' m₀ m₁ m₂ m₃ : Machine} {x : String} {q p : Position} {body start stop step : Node}

/-! ### Rounds -/

/-- The loop goes on while the variable is less than the end, and adds the step to it. -/
def rangeCycle (x : String) (p : Position) (stop step : Slot) : Cycle Unit Slot where
  head _ := do
    let v ← getName x p
    return if ← mem (Mem.less v stop) then some v else none
  tail v := Eval.rangeTail x p v step

theorem rangeRound_eq (visit : Node → Exec Slot) (stop step : Slot) :
    rangeRound visit x p stop step body = (rangeCycle x p stop step).round (visit body) () := by
  simp only [rangeRound, Cycle.round, rangeCycle, bind_assoc, pure_bind]
  congr 1
  funext v
  congr 1
  funext b
  cases b <;> rfl

theorem gives_forRange {k : Nat} {a b c : Slot} {ms : List Machine}
    (values : rangeValues (Eval.visit k) start stop step m = .ok (a, b, c) m₁)
    (entered : Exec.enter ((loopRecord "for" p).set x ⟨a, true⟩) m₁ = .ok () m₂)
    (rounds : (rangeCycle x q b c).Rounds body () m₂ ms m₃)
    (left : (Exec.leave : Exec Unit) m₃ = .ok () m') :
    Eval.Gives (.forRange (.name x q) start stop step body p) m none m' := by
  obtain ⟨n, rounds⟩ := rounds.iterate
  have values : rangeValues (Eval.visit (max k n)) start stop step m = .ok (a, b, c) m₁ := by
    have more : ∀ e : Node, Refines (Eval.visit k e) (Eval.visit (max k n) (e.moved id)) := fun e => by
      rw [Node.moved_id]
      exact refines_visit (Nat.le_max_left k n) e
    have refines := Refines.respected.inside.rangeValues (more start) (more stop) (more step)
    simp only [Node.moved_id] at refines
    rcases refines m with ⟨_, out⟩ | same
    · cases values.symm.trans out
    · exact same.symm.trans values
  have rounds := rounds (max k n) (max k n) (Nat.le_max_right k n) (Nat.le_max_right k n)
  refine ⟨max k n + 1, ?_⟩
  show statement (runRange _ _ _ _ _ _ _ _) m = _
  have run : runRange (max k n) (Eval.visit (max k n)) (.name x q) start stop step body p m =
      .ok () m' := by
    rw [runRange, bind_of_ok values]
    simp only [rangeRound_eq, within]
    rw [bind_of_ok entered, bind_of_ok rounds, bind_of_ok left]
    rfl
  rw [statement, bind_of_ok run]
  rfl

/-- Values are found without a trace in the call stack. -/
theorem rangeValues_keeps {k : Nat} {v : Slot × Slot × Slot} (hm : m.Still) (hs : start.IsExpr)
    (he : stop.IsExpr) (hd : step ≠ .missing → step.IsExpr)
    (values : rangeValues (Eval.visit k) start stop step m = .ok v m₁) :
    m₁.stack.skeleton = m.stack.skeleton ∧ marks m₁ = marks m := by
  have balanced := balanced_visitCut (fun _ _ _ => false) k
  rw [visitCut_false] at balanced
  have balanced₁ : Balanced (rangeValues (Eval.visit k) start stop step) :=
    @Walk.rangeValues _ _ _ Balanced.respected.inside.toWalk _ (Eval.visit k) _ _ _ (balanced start)
      (balanced stop) (balanced step)
  refine ⟨(wp_of_ok values).1 (balanced₁ m), ?_⟩
  have sim := Sim.rangeValues (n := 0) (t := marks m) (sim_visit k).1 hs he hd
  obtain ⟨_, same⟩ := sim.marks_of_ok hm.sound values
  exact same.2.1

/-- A step that is not given is 1. -/
theorem step_of_missing {visit : Node → Exec Slot} {a b c : Slot}
    (values : rangeValues visit start stop .missing m = .ok (a, b, c) m₁) :
    m₁.store.get? c = some (.num (.int 1)) := by
  obtain ⟨_, _, -, values⟩ := exists_of_bind_eq_ok values
  obtain ⟨_, m₂, -, values⟩ := exists_of_bind_eq_ok values
  cases values
  exact congrArg some (Store.get_alloc_self ..)

/-! ### The variable -/

theorem Mem.less_eq {s : Store} {a b : Slot} {n e : Int} (ha : s.get? a = some (.num (.int n)))
    (hb : s.get? b = some (.num (.int e))) : Mem.less a b s = .ok (decide (n < e)) s := by
  have lt : (Number.int n).lt (.int e) = decide (n < e) := by
    rw [Number.lt, Number.compare?, Bool.eq_iff_iff, beq_iff_eq, decide_eq_true_iff, Option.some_inj,
      compare_lt_iff_lt]
  simp [Mem.less, Mem.numbers, Mem.read, bind, EStateM.bind, ha, hb, pure, EStateM.pure, lt]

/-- The machine is at the head of a round, and the variable of the loop is `n`. -/
structure Counting (m₀ : Machine) (x : String) (n : Int) (m : Machine) : Prop where
  head : AtHead m₀ m
  top : ∃ r rs v, m.stack.records = r :: rs ∧ r.get? x = some ⟨some v, true⟩ ∧
    m.store.get v = .num (.int n)

namespace Counting

variable {n e d : Int} {b c : Ref}

theorem holds (h : Counting m₀ x n m) : m.Holds m₀.stack.records.length x (.num (.int n)) := by
  obtain ⟨r, rs, v, hr, hx, hv⟩ := h.top
  exact ⟨v, h.head.length ▸ binds_of_top hr hx, hv⟩

theorem holds_throughout (h : Counting m₀ x n m) (hb : body.IsStat) (hn : body.Still)
    (stop : Nat → Node → Machine → Bool) (k : Nat) :
    wp (visitCut stop k body) (fun _ m' => m'.Holds m₀.stack.records.length x (.num (.int n)))
      (fun _ m' => m'.Holds m₀.stack.records.length x (.num (.int n))) m := by
  obtain ⟨v, bound, hv⟩ := h.holds
  exact h.head.still.wp_stat hb hn stop k fun m' ev binds =>
    ⟨v, binds _ _ _ bound, ev.get_eq hv rfl (by simp)⟩

theorem runHead (h : Counting m₀ x n m) (he : m₀.store.get b = .num (.int e)) (step : Slot) :
    ∃ v, m.store.get v = .num (.int n) ∧
      (rangeCycle x q (some b) step).head () m = .ok (if n < e then some (some v) else none) m := by
  obtain ⟨r, rs, v, hr, hx, hv⟩ := h.top
  have name : Exec.getName x q m = .ok (some v) m := (Innermost.top hr hx).getName_of_some rfl q
  have less : (mem (Mem.less (some v) (some b)) : Exec Bool) m = .ok (decide (n < e)) m := by
    have stop := h.head.store.get_eq he rfl (by simp)
    have less := Mem.less_eq (a := some v) (b := some b) (congrArg some hv) (congrArg some stop)
    simp only [mem, less]
  refine ⟨v, hv, ?_⟩
  simp only [rangeCycle]
  rw [bind_of_ok name, bind_of_ok less]
  by_cases lt : n < e
  · rw [decide_eq_true lt, if_pos lt]
    rfl
  · rw [decide_eq_false lt, if_neg lt]
    rfl

theorem rebind {r : Record} {rs : List Record} {u w : Ref} (h : AtHead m₀ m)
    (hr : m.stack.records = r :: rs) (hx : r.get? x = some ⟨some u, true⟩)
    (hw : m.store.get w = .num (.int n)) :
    ∃ m', Exec.setName x q (some w) true m = .ok () m' ∧ Counting m₀ x n m' := by
  have has : r.has x = true := by rw [RecordOf.has, hx]; rfl
  have live : Live m.store.cells.size (some w) := .some (Store.lt_of_get_ne (by simp [hw]))
  obtain ⟨_, m', set, good, hp, store, b, hb, hr'⟩ :=
    (Runs.setLoopName h.still.good hr has q live).succeeds
  cases hx.symm.trans hb
  have skeleton := (wp_of_ok set).1 (Balanced.respected.inside.setName _ _ _ _ m)
  have marks : marks m' = marks m := by
    rw [TinyScript.marks, TinyScript.marks, hr', hr]
    rfl
  refine ⟨m', set, h.proceed good hp skeleton marks, _, rs, w, hr', ?_, store ▸ hw⟩
  exact (RecordOf.get?_set ..).trans (if_pos rfl)

/-- With the body run and the step added, the machine is at the next head. -/
theorem runTail {v : Slot} {w : Ref} (h : Counting m₀ x n m) (hw : m.store.get w = .num (.int n))
    (hd : m₀.store.get c = .num (.int d)) (hb : body.IsStat) (hn : body.Still)
    (run : Eval.Gives body m v m') (hs : m'.Settles) (stop : Slot) :
    ∃ m'', (rangeCycle x q stop (some c)).tail (some w) m' = .ok (some ()) m'' ∧
      Counting m₀ x (n + d) m'' := by
  obtain ⟨m₁, settled, head₁, hp₁, -⟩ := h.head.settle hb hn run hs
  -- the sum goes to a new cell
  have sum : Mem.sum (some w) (some c) m₁.store = .ok (.num (.int (n + d))) m₁.store :=
    Mem.sum_eq (congrArg some (hp₁.store.get_eq hw rfl (by simp)))
      (congrArg some (head₁.store.get_eq hd rfl (by simp)))
  have added : mem (Mem.add (some w) (some c)) m₁ = .ok ⟨m₁.store.cells.size⟩
      { m₁ with store := (m₁.store.alloc (.num (.int (n + d)))).2 } := by
    rw [Exec.mem, Mem.add, Mem.bind_of_ok sum]
    rfl
  have acts := Mem.Acts.calculated (Mem.Acts.sum head₁.still.good.store (some w) (some c))
  obtain ⟨good₂, hp₂, -⟩ := (wp_of_ok added).1
    (Runs.mem (S := []) (X := fun _ => True) head₁.still.good acts fun _ _ => trivial)
  have head₂ := head₁.proceed good₂ hp₂ rfl rfl
  -- and the variable, which is still in the record of the loop, is bound to it
  obtain ⟨r₀, rs₀, u, e₀, hx₀, -⟩ := h.top
  obtain ⟨r₁, rs₁, e₁, hx₁⟩ := hp₁.top e₀ hx₀ rfl
  have value : (m₁.store.alloc (.num (.int (n + d)))).2.get ⟨m₁.store.cells.size⟩ = .num (.int (n + d)) :=
    Store.get_alloc_self ..
  obtain ⟨m₃, set, counting⟩ := rebind (q := q) head₂ e₁ hx₁ value
  refine ⟨m₃, ?_, counting⟩
  simp only [rangeCycle]
  rw [rangeTail, bind_of_ok settled, if_pos rfl, bind_of_ok added, bind_of_ok set]
  rfl

theorem lt_stop_iff {s e d : Int} (pos : 0 < d) (j : Nat) :
    s + j * d < e ↔ j < ⌈((e - s : Int) : Rat) / d⌉.toNat := by
  have pos : (0 : Rat) < d := Int.cast_pos.2 pos
  rw [Int.lt_toNat, Int.lt_ceil, lt_div_iff₀ pos]
  norm_cast
  omega

theorem exists_rounds {s : Int} (h : Counting m₀ x s m₀) (he : m₀.store.get b = .num (.int e))
    (hd : m₀.store.get c = .num (.int d)) (pos : 0 < d) (hb : body.IsStat) (hn : body.Still)
    (ends : ∀ m₁, (rangeCycle x q (some b) (some c)).Begins body () m₀ m₁ →
      ∃ v m₂, Eval.Gives body m₁ v m₂ ∧ m₂.Settles) :
    ∃ starts m₃, (rangeCycle x q (some b) (some c)).Rounds body () m₀ starts m₃ ∧
      starts.length = ⌈((e - s : Int) : Rat) / d⌉.toNat ∧
      (∀ (j : Nat) m₁, starts[j]? = some m₁ → Counting m₀ x (s + j * d) m₁) ∧ AtHead m₀ m₃ := by
  refine Cycle.exists_rounds (I := fun j _ m => Counting m₀ x (s + j * d) m)
    (F := fun _ m₂ => m₂.Settles) (fun j _ m hj h => ?_) (fun _ m h => ?_) ends (by simpa using h)
  · obtain ⟨w, hw, head⟩ := h.runHead (q := q) he (some c)
    rw [if_pos ((lt_stop_iff pos j).2 hj)] at head
    refine ⟨some w, m, head, h, fun v m₂ run hs => ?_⟩
    obtain ⟨m₃, tail, next⟩ := h.runTail (q := q) hw hd hb hn run hs (some b)
    refine ⟨(), m₃, tail, ?_⟩
    rwa [Nat.cast_succ, add_one_mul, ← add_assoc]
  · obtain ⟨w, -, head⟩ := h.runHead (q := q) he (some c)
    rw [if_neg fun lt => lt_irrefl _ ((lt_stop_iff pos _).1 lt)] at head
    exact ⟨m, head, h.head⟩

end Counting

/-- In a program without compound assignments, a loop over a range whose start, end and step are
integers runs its body as often as there are integers of the range, whatever the body does, as long
as no execution of it ends by `break` or `return`. The variable is `s + j * d` all through the
execution of number `j`. Then the loop ends, and the call stack is as it was. If the stack is listed
on leaving the loop, that has to be possible. -/
theorem counted_rounds {k : Nat} {a b c : Ref} {s e d : Int}
    (hm : Reachable (fun t => t.IsProgram ∧ t.Still) m)
    (hl : (Node.forRange (.name x q) start stop step body p).IsStat)
    (hn : (Node.forRange (.name x q) start stop step body p).Still)
    (values : Eval.rangeValues (Eval.visit k) start stop step m = .ok (some a, some b, some c) m₁)
    (hs : m₁.store.get a = .num (.int s)) (he : m₁.store.get b = .num (.int e))
    (hd : m₁.store.get c = .num (.int d)) (pos : 0 < d)
    (entered : Exec.enter ((Eval.loopRecord "for" p).set x ⟨some a, true⟩) m₁ = .ok () m₂)
    (ends : ∀ m', (rangeCycle x q (some b) (some c)).Begins body () m₂ m' →
      ∃ v m'', Eval.Gives body m' v m'' ∧ m''.Settles) :
    (step = .missing → d = 1) ∧ ∃ starts m₃,
      (∀ ms m', (rangeCycle x q (some b) (some c)).Rounds body () m₂ ms m' ↔
        ms = starts ∧ m' = m₃) ∧
      (starts.length : Int) = max 0 ⌈((e - s : Int) : Rat) / d⌉ ∧
      (∀ (j : Nat) m', starts[j]? = some m' →
        m'.Holds m₂.stack.records.length x (.num (.int (s + j * d))) ∧
        ∀ cut n, wp (Eval.visitCut cut n body)
          (fun _ m'' => m''.Holds m₂.stack.records.length x (.num (.int (s + j * d))))
          (fun _ m'' => m''.Holds m₂.stack.records.length x (.num (.int (s + j * d)))) m') ∧
      (∀ m₄, (Exec.leave : Exec Unit) m₃ = .ok () m₄ →
        Eval.Gives (.forRange (.name x q) start stop step body p) m none m₄ ∧
        m₄.stack.skeleton = m.stack.skeleton ∧ marks m₄ = marks m) ∧
      ((LogLevel.debug.shows m.level = true → ∃ t, m₃.stack.render m₃.store = .ok t) →
        ∃ m₄, (Exec.leave : Exec Unit) m₃ = .ok () m₄) := by
  cases hl with
  | forRange _ hstart hstop hstep hb =>
  have part : ∀ n ∈ [Node.name x q, start, stop, step, body], n.Still := fun n h => hn.part h
  simp only [List.forall_mem_cons] at part
  obtain ⟨-, nstart, nstop, nstep, nb, -⟩ := part
  have still := still_of_reachable hm
  have visits := visits_still m.level (fun _ _ _ => false) k
  rw [Eval.visitCut_false] at visits
  obtain ⟨good₁, hp₁, live, -⟩ := (wp_of_ok values).1
    (Runs.rangeValues (S := []) visits (.unwatched rfl hstart nstart) (.unwatched rfl hstop nstop)
      (fun h => .unwatched rfl (hstep h) nstep) still.good)
  have keeps := rangeValues_keeps still hstart hstop hstep values
  have loop : ((Eval.loopRecord "for" p : Record).set x ⟨some a, true⟩).Good m₁.store.cells.size :=
    (RecordOf.good_new _ _ _).set (.inl live.live)
  have head₂ := atHead_of_enter (still.proceeds good₁ hp₁) loop rfl rfl entered
  have at₂ := eq_of_enter entered
  have store₂ : m₂.store = m₁.store := by rw [at₂]
  have first : Counting m₂ x s m₂ := by
    refine ⟨head₂, _, m₁.stack.records, a, by rw [at₂]; rfl, ?_, store₂ ▸ hs⟩
    exact (RecordOf.get?_set _ x x _).trans (if_pos rfl)
  obtain ⟨starts, m₃, rounds, length, counting, last⟩ :=
    first.exists_rounds (store₂ ▸ he) (store₂ ▸ hd) pos hb nb ends
  refine ⟨fun missing => ?_, starts, m₃, fun ms m' => ⟨fun h => h.unique rounds, ?_⟩, ?_,
    fun j m' hj => ?_, fun m₄ left => ?_, fun listed => ?_⟩
  · subst missing
    cases (congrArg some hd).symm.trans (step_of_missing values)
    rfl
  · rintro ⟨rfl, rfl⟩
    exact rounds
  · rw [length, Int.toNat_eq_max, max_comm]
  · have h := counting j m' hj
    exact ⟨h.holds, h.holds_throughout hb nb⟩
  · obtain ⟨skeleton, marks⟩ := last.leave entered left
    exact ⟨gives_forRange values entered rounds left, skeleton.trans keeps.1, marks.trans keeps.2⟩
  · have level₂ : m₂.level = m₁.level := by rw [at₂]
    have level : m₃.level = m.level := last.level.trans (level₂.trans good₁.level)
    exact exists_leave (level ▸ listed) last.still.good.records_ne_nil

/-- `{ n = 0 continue }` -/
def clearEnd : Node :=
  .block [.assign [.name "n" ⟨2, 18⟩] [.number "0" true ⟨2, 22⟩] ⟨2, 20⟩, .continueLoop ⟨2, 24⟩] ⟨2, 16⟩

/-- `for i is 0, n, 2 { n = 0 continue }` -/
def clearingLoop : Node :=
  .forRange (.name "i" ⟨2, 5⟩) (.number "0" true ⟨2, 10⟩) (.name "n" ⟨2, 13⟩) (.number "2" true ⟨2, 16⟩)
    clearEnd ⟨2, 1⟩

/-- The same after `var n = 3`. -/
def clearing : Node :=
  .program [.declare [.name "n" ⟨1, 5⟩] (some [.number "3" true ⟨1, 9⟩]) false ⟨1, 1⟩, clearingLoop]

/-- The machine about to run the loop. -/
def atClearing : Machine :=
  leaves (Eval.visitCut (fun _ node _ => node matches .forRange ..) 9 clearing) (leaves Host.boot {})

theorem isStat_clearingLoop : clearingLoop.IsStat := by
  refine .forRange ⟨_, _, rfl⟩ .number .name (fun _ => .number) (.block ?_)
  simp only [List.forall_mem_cons]
  refine ⟨.assign ?_ ?_, .continueLoop, fun _ h => absurd h List.not_mem_nil⟩
  · exact List.forall_mem_singleton.2 .name
  · exact List.forall_mem_singleton.2 .number

theorem isProgram_clearing : clearing.IsProgram := by
  refine ⟨_, rfl, ?_⟩
  simp only [List.forall_mem_cons]
  refine ⟨.declare ?_ ?_, isStat_clearingLoop, fun _ h => absurd h List.not_mem_nil⟩
  · exact List.forall_mem_singleton.2 ⟨_, _, rfl⟩
  · exact List.forall_mem_singleton.2 .number

/-- The loop goes on to the end that it found: the body runs with 0 and with 2. -/
theorem counted_rounds_clearing : ∃ m₁ m₂ starts m₃ m₄,
    Eval.rangeValues (Eval.visit 3) (.number "0" true ⟨2, 10⟩) (.name "n" ⟨2, 13⟩)
      (.number "2" true ⟨2, 16⟩) atClearing = .ok (some ⟨13⟩, some ⟨12⟩, some ⟨14⟩) m₁ ∧
    m₁.store.get ⟨12⟩ = .num (.int 3) ∧
    (rangeCycle "i" ⟨2, 5⟩ (some ⟨12⟩) (some ⟨14⟩)).Rounds clearEnd () m₂ starts m₃ ∧
    starts.length = 2 ∧ (∀ m', starts[1]? = some m' → m'.Holds 2 "i" (.num (.int 2))) ∧
    Eval.Gives clearingLoop atClearing none m₄ := by
  have hm : Reachable (fun t => t.IsProgram ∧ t.Still) atClearing :=
    (Reachable.boot [] 1 (by decide +kernel)).cut
      ⟨isProgram_clearing, Node.still_of_isStill (d := 9) (by decide +kernel)⟩ _ 9
  have still : clearingLoop.Still := Node.still_of_isStill (d := 9) (by decide +kernel)
  have hidden : LogLevel.debug.shows atClearing.level = false := by decide +kernel
  obtain ⟨_, m₁, values, h₁⟩ := exists_of_endsWith (m := atClearing)
    (x := Eval.rangeValues (Eval.visit 3) (.number "0" true ⟨2, 10⟩) (.name "n" ⟨2, 13⟩)
      (.number "2" true ⟨2, 16⟩))
    (P := fun v m => v = (some ⟨13⟩, some ⟨12⟩, some ⟨14⟩) ∧ m.store.get ⟨13⟩ = .num (.int 0) ∧
      m.store.get ⟨12⟩ = .num (.int 3) ∧ m.store.get ⟨14⟩ = .num (.int 2) ∧
      endsWith (Exec.enter ((Eval.loopRecord "for" ⟨2, 1⟩).set "i" ⟨some ⟨13⟩, true⟩))
        (fun _ m => m.stack.records.length = 2 ∧
          (rangeCycle "i" ⟨2, 5⟩ (some ⟨12⟩) (some ⟨14⟩)).endsAll clearEnd
            (fun _ m => m.Settles) 9 9 () m) m = true)
    (by decide +kernel)
  simp only [decide_eq_true_iff] at h₁
  obtain ⟨rfl, hs, he, hd, h₁⟩ := h₁
  obtain ⟨_, m₂, entered, h₂⟩ := exists_of_endsWith h₁
  obtain ⟨two, ends⟩ := of_decide_eq_true h₂
  obtain ⟨-, starts, m₃, rounds, length, counted, left, leaves⟩ := counted_rounds hm
    isStat_clearingLoop still values hs he hd (by decide) entered fun _ h => h.ends ends
  obtain ⟨m₄, left₄⟩ := leaves fun shows => absurd (hidden.symm.trans shows) Bool.false_ne_true
  refine ⟨m₁, m₂, starts, m₃, m₄, values, he, (rounds _ _).2 ⟨rfl, rfl⟩, ?_, fun m' h => ?_,
    (left m₄ left₄).1⟩
  · have ceil : ⌈(((3 - 0 : Int) : Int) : Rat) / (2 : Int)⌉ = 2 := by norm_num [Int.ceil_eq_iff]
    rw [ceil] at length
    exact_mod_cast length
  · have := (counted 1 m' h).1
    rw [two] at this
    exact this

end TinyScript
