import TinyScript.Proofs.Formed
import TinyScript.Proofs.Simulation

/-!
# Control flow

Two results of the simulation. A program with marks on its records runs as the structured one does,
which has none (`interpret_accords`). And marks keep to their places: what a statement leaves in a
frame without marks is nothing, a `break` or `continue` on its way to a loop, or a `return` on its
way to the function; nothing below the frame is touched, and no expression changes a mark
(`visit_keeps_marks`).
-/

namespace TinyScript

open Exec List

variable {cut : Prop} {n : Nat} {t : List Record}
variable {α β : Type} {x : Exec α} {x' : Plain β} {Q : α → β → Nat → List Record → Prop}
  {stats : List Node} {o : Outcome} {n' : Nat} {t' : List Record}

/-! ### The start of a session -/

/-- Binding names to new cells goes the same way with and without marks. -/
theorem Sim.bindAll {xs : List (String × Value)} (hx : ∀ x ∈ xs, x.2.Sound 0) {r : Record}
    (hr : r.Sound n) :
    Sim cut n t (Host.bindAll r xs) (Host.bindAll r.plain xs)
      fun r₁ r₁' n' t' => r₁' = r₁.plain ∧ t' = t ∧ r₁.Sound n' ∧ r₁.tag = r.tag := by
  induction xs generalizing n r with
  | nil => exact pure fun n' hn' => ⟨rfl, rfl, hr.mono hn', rfl⟩
  | cons x xs ih =>
    obtain ⟨h₁, h₂⟩ := forall_mem_cons.1 hx
    refine then_ (mem (w := none) (.alloc (h₁.mono (Nat.zero_le _)))) fun c n₁ hn₁ hc => ?_
    refine ih h₂ ((hr.mono hn₁).set x.1 fun v hv => ?_)
    cases hv
    exact hc

theorem sound_builtins : ∀ x ∈ Host.builtins, x.2.Sound 0 := by
  intro x hx
  rcases mem_append.1 hx with hx | hx
  · obtain ⟨_, -, rfl⟩ := mem_map.1 hx
    trivial
  · simp only [mem_cons, not_mem_nil, or_false] at hx
    rcases hx with rfl | rfl | rfl <;> trivial

/-- The mark of the global record. -/
def globalMark : Record := { name := "__global", kind := .program }

theorem Sim.boot : Sim cut n t Host.boot Host.boot fun _ _ _ t' => t' = globalMark :: t := by
  refine bind (bindAll sound_builtins fun _ he => absurd he not_mem_nil) fun r r' n₁ t₁ _ h => ?_
  obtain ⟨rfl, rfl, hr, htag⟩ := h
  exact (enter hr).mono fun _ _ _ _ _ h => by rw [h, htag]; rfl

theorem paired_start (input : List Char) (level : Int) :
    Paired { input := input, level := level } { input := input, level := level } :=
  ⟨⟨rfl, rfl, rfl, rfl, fun _ => rfl⟩, fun r => by simp [Store.get, Store.empty, Value.Sound],
    fun _ h => absurd h not_mem_nil⟩

/-- The machine without its marks. -/
def MachineOf.plain (m : Machine) : MachineOf Unit Unit := { m with stack := m.stack.plain }

theorem paired_plain {m : Machine} (hm : m.Sound) : Paired m m.plain :=
  ⟨⟨rfl, rfl, rfl, rfl, fun _ => rfl⟩, hm⟩

/-- What follows a structured run from a sound machine ends in one. -/
theorem Sim.wp_sound {m : Machine} (hx : Sim cut 0 (marks m) x x' Q) (hm : m.Sound) :
    wp x (fun _ m' => m'.Sound) (fun _ m' => m'.Sound) m := by
  have h := hx m m.plain (paired_plain hm) (Nat.zero_le _) rfl
  generalize x' m.plain = r at h
  cases e : x m with
  | ok a m₁ =>
    rw [e] at h
    cases h with
    | ok hp => exact (wp_of_ok e).2 hp.sound
  | error f m₁ =>
    rw [e] at h
    cases h with
    | error hp => exact (wp_of_error e).2 hp.sound
    | cut _ hs => exact (wp_of_error e).2 hs

theorem wp_runAll_sound (stop : Nat → Node → Machine → Bool) (k : Nat) (hst : ∀ s ∈ stats, s.IsStat)
    {m : Machine} (hm : m.Sound) :
    wp (Eval.runAll (Eval.visitCut stop k) stats) (fun _ m' => m'.Sound) (fun _ m' => m'.Sound) m := by
  induction stats generalizing m with
  | nil => exact (wp_pure ()).2 hm
  | cons s ss ih =>
    obtain ⟨h₁, h₂⟩ := forall_mem_cons.1 hst
    have first := ((sim_visitCut stop k).2 s h₁ 0 (marks m)).wp_sound hm
    exact wp_bind.2 (wp_mono first (fun _ m₁ hm₁ => ih h₂ hm₁) fun _ _ h => h)

/-- Sessions on programs only ever lead to sound machines. -/
theorem sound_of_reachable {m : Machine} (hm : Reachable Node.IsProgram m) : m.Sound := by
  refine Reachable.induct_runs (I := MachineOf.Sound) (fun input level => ?_)
    (fun _ _ _ h => ⟨h.store, h.records⟩) (fun stop fuel tree m ht h => ?_) hm
  · have start : Sim False 0 [] Host.boot Host.boot _ := Sim.boot
    exact wp_mono (start.wp_sound (paired_start input level).sound) (fun _ _ h => h)
      fun _ _ _ => trivial
  · obtain ⟨stats, rfl, hs⟩ := ht
    cases fuel with
    | zero => exact (wp_of_error rfl).2 h
    | succ k =>
      rcases Eval.visitCut_cases stop k (.program stats) m with e | e
      · exact (wp_of_error e).2 h
      · refine (wp_congr e).2 (wp_bind.2 (wp_mono (wp_runAll_sound stop k hs h) ?_ fun _ _ h => h))
        exact fun _ _ h => (wp_pure none).2 h

/-! ### Programs -/

/-- Outside of loops and functions every statement ends normally. -/
theorem Outcome.Ends.eq_normal (h : o.Ends [globalMark] n' t') : o = .normal ∧ t' = [globalMark] := by
  obtain ⟨hm, ha, -⟩ := h
  cases o with
  | normal => exact ⟨rfl, hm⟩
  | _ => cases ha

theorem Sim.runAll {visit : Node → Exec Slot} {exec : Node → Plain Outcome}
    (hs : ∀ s : Node, s.IsStat → ∀ n t, Sim cut n t (visit s) (exec s) fun _ o n' t' => o.Ends t n' t')
    (hst : ∀ s ∈ stats, s.IsStat) :
    Sim cut n [globalMark] (Eval.runAll visit stats) (Structured.sequence exec stats)
      fun _ o _ _ => o = .normal := by
  induction stats generalizing n with
  | nil => exact pure fun _ _ => rfl
  | cons s ss ih =>
    obtain ⟨h₁, h₂⟩ := forall_mem_cons.1 hst
    refine bind (hs s h₁ n _) fun _ o n₁ t₁ _ h => ?_
    obtain ⟨rfl, rfl⟩ := h.eq_normal
    exact ih h₂

theorem Sim.program (k : Nat) {tree : Node} (ht : tree.IsProgram) :
    Sim False n [globalMark] (interpret k tree) (Structured.exec k tree) fun _ o _ _ => o = .normal := by
  obtain ⟨stats, rfl, hs⟩ := ht
  cases k with
  | zero => exact outOfFuel
  | succ k =>
    refine andPure () (andPure none ?_)
    exact runAll (sim_visit k).2 hs

/-- How runs of a program with and without marks belong together: both end, or both are halted for
the same reason, in machines that differ in marks only. -/
inductive Accords : EStateM.Result Halt Machine Unit →
    EStateM.Result Halt (MachineOf Unit Unit) Outcome → Prop
  | ended {m m'} (h : Matches m m') : Accords (.ok () m) (.ok .normal m')
  | halted {e m m'} (h : Matches m m') : Accords (.error e m) (.error e m')

/-- A new interpreter runs every program of the parser as structured control flow has it, on every
input and with any fuel: the output is the same, so are the cells, the bindings of all records and
what is left to read, and a run that fails does so in the same way. -/
theorem interpret_accords {src : String} {tree : Node} (h : parse src = .ok tree) (fuel : Nat)
    (input : List Char) (level : Int) :
    Accords ((do Host.boot; interpret fuel tree) { input := input, level := level })
      ((do Host.boot; Structured.exec fuel tree) { input := input, level := level }) := by
  have run : Sim False 0 [] (do Host.boot; interpret fuel tree)
      (do Host.boot; Structured.exec fuel tree) fun _ o _ _ => o = .normal := by
    refine Sim.bind Sim.boot fun _ _ n₁ t₁ _ ht => ?_
    subst ht
    exact Sim.program fuel (isProgram_of_parse h)
  have ended := run _ _ (paired_start input level) (Nat.zero_le _) rfl
  revert ended
  generalize (do Host.boot; interpret fuel tree : Exec Unit) _ = r
  generalize (do Host.boot; Structured.exec fuel tree : Plain Outcome) _ = r'
  intro ended
  cases ended with
  | ok hp _ ho => exact ho ▸ .ended hp.toMatches
  | error hp => exact .halted hp.toMatches
  | cut hc => exact hc.elim

/-- A program with a `return` inside a block inside a loop, and a `break` that has no loop. -/
def returnInLoop : String := "func f(){while true{{return 3}}}println(f())break"

theorem interpret_accords_returnInLoop :
    parse returnInLoop = .ok (treeOf returnInLoop) ∧
      (leaves (do Host.boot; interpret 20 (treeOf returnInLoop)) {}).out = "3\n" ∧
      Accords ((do Host.boot; interpret 20 (treeOf returnInLoop)) { input := [], level := 1 })
        ((do Host.boot; Structured.exec 20 (treeOf returnInLoop)) { input := [], level := 1 }) := by
  have h : parse returnInLoop = .ok (treeOf returnInLoop) := parse_eq_treeOf (by decide +kernel)
  exact ⟨h, by decide +kernel, interpret_accords h 20 [] 1⟩

/-! ### Frames -/

namespace CallStack

/-- The records of the function under way: from the innermost one up to and including the nearest
function, or all of them if there is none. -/
def frame : List Record → List Record
  | [] => []
  | r :: rs => if r.kind = .function then [r] else r :: frame rs

/-- The records outside the frame. -/
def below : List Record → List Record
  | [] => []
  | r :: rs => if r.kind = .function then rs else below rs

/-- No jump is under way. -/
def Quiet (rs : List Record) : Prop := ∀ r ∈ rs, r.state = .normal

/-- A jump marked `st` is on its way to the nearest loop, and no other one is under way. -/
def LeavesLoop (st : RecordState) (rs : List Record) : Prop :=
  ∃ inner loop outer, rs = inner ++ loop :: outer ∧ loop.kind = .loop ∧
    (∀ r ∈ inner, r.kind ≠ .loop) ∧ (∀ r ∈ inner, r.state = st) ∧ loop.state = st ∧ Quiet outer

/-- A `return` is on its way to the function at the end, which has its result. -/
def LeavesFunction (rs : List Record) : Prop :=
  (∀ r ∈ rs, r.state = .returned) ∧ ∃ f, rs.getLast? = some f ∧ f.kind = .function ∧ f.retval ≠ none

instance (rs : List Record) : Decidable (Quiet rs) := inferInstanceAs (Decidable (∀ r ∈ rs, _))

/-- One of three, and no other one. -/
def ExactlyOne (a b c : Prop) : Prop := a ∧ ¬b ∧ ¬c ∨ ¬a ∧ b ∧ ¬c ∨ ¬a ∧ ¬b ∧ c

variable {st : RecordState} {rs : List Record}

theorem LeavesLoop.not_quiet (h : LeavesLoop st rs) (hst : st ≠ .normal) : ¬Quiet rs := by
  obtain ⟨inner, loop, outer, rfl, -, -, -, hl, -⟩ := h
  exact fun hq => hst (hl ▸ hq loop (by simp))

theorem LeavesLoop.not_leavesFunction (h : LeavesLoop st rs) (hst : st ≠ .returned) :
    ¬LeavesFunction rs := by
  obtain ⟨inner, loop, outer, rfl, -, -, -, hl, -⟩ := h
  exact fun hf => hst (hl ▸ hf.1 loop (by simp))

theorem LeavesFunction.not_quiet (h : LeavesFunction rs) : ¬Quiet rs := by
  obtain ⟨hr, f, hf, -⟩ := h
  have hf := mem_of_getLast? hf
  intro hq
  have both := (hr f hf).symm.trans (hq f hf)
  cases both

/-- A jump to a loop marks the frame up to the loop, and nothing else. -/
theorem leavesLoop_jump (st : RecordState) (hw : (Structured.route .loop rs).2 = true) (hq : Quiet (frame rs)) :
    LeavesLoop st (frame (jump st .loop rs).records) ∧ below (jump st .loop rs).records = below rs := by
  induction rs with
  | nil => cases hw
  | cons r rs ih =>
    by_cases hl : r.kind = .loop
    · have hf : r.kind ≠ .function := by rw [hl]; decide
      simp only [frame, hf, if_false] at hq
      simp only [jump, hl, if_true, frame, below, reduceCtorEq, if_false, and_true]
      exact ⟨[], _, frame rs, rfl, rfl, by simp, by simp, rfl, (forall_mem_cons.1 hq).2⟩
    · by_cases hf : r.kind = .function
      · simp [Structured.route, hf] at hw
      · simp only [Structured.route, hl, hf, if_false] at hw
        simp only [frame, hf, if_false] at hq
        simp only [jump, hl, hf, if_false, frame, below]
        obtain ⟨⟨inner, loop, outer, e, hk, hi, hs, hls, ho⟩, hb⟩ := ih hw (forall_mem_cons.1 hq).2
        refine ⟨⟨_ :: inner, loop, outer, by rw [e]; rfl, hk, ?_, ?_, hls, ho⟩, hb⟩
        · exact forall_mem_cons.2 ⟨hl, hi⟩
        · exact forall_mem_cons.2 ⟨rfl, hs⟩

/-- A `return` marks the whole frame, and nothing else. -/
theorem leavesFunction_jump (hw : (Structured.route .function rs).2 = true) {v : Slot}
    (hv : v ≠ none) :
    LeavesFunction (frame (setRetval v (jump .returned .function rs).records)) ∧
      below (setRetval v (jump .returned .function rs).records) = below rs := by
  induction rs with
  | nil => cases hw
  | cons r rs ih =>
    by_cases hf : r.kind = .function
    · simp only [jump, hf, if_true, setRetval, frame, below, and_true]
      exact ⟨by simp, _, rfl, rfl, hv⟩
    · simp only [Structured.route, hf, if_false] at hw
      simp only [jump, hf, if_false, setRetval, frame, below]
      obtain ⟨⟨hs, f, hl, hk⟩, hb⟩ := ih hw
      refine ⟨⟨forall_mem_cons.2 ⟨rfl, hs⟩, f, ?_, hk⟩, hb⟩
      rw [getLast?_cons, hl]
      rfl

end CallStack

open CallStack

/-- The marks that a statement leaves in a frame without any. -/
theorem Outcome.Ends.exactlyOne (h : o.Ends t n' t') (hq : Quiet (frame t)) :
    ExactlyOne (Quiet (frame t'))
      (LeavesLoop .breaked (frame t') ∨ LeavesLoop .continued (frame t'))
      (LeavesFunction (frame t')) ∧ below t' = below t := by
  obtain ⟨rfl, ha, hl⟩ := h
  cases o with
  | normal =>
    refine ⟨.inl ⟨hq, ?_, fun hf => hf.not_quiet hq⟩, rfl⟩
    rintro (hb | hb) <;> exact hb.not_quiet (by decide) hq
  | broken =>
    obtain ⟨hj, hb⟩ := leavesLoop_jump .breaked ha hq
    exact ⟨.inr (.inl ⟨hj.not_quiet (by decide), .inl hj, hj.not_leavesFunction (by decide)⟩), hb⟩
  | continued =>
    obtain ⟨hj, hb⟩ := leavesLoop_jump .continued ha hq
    exact ⟨.inr (.inl ⟨hj.not_quiet (by decide), .inr hj, hj.not_leavesFunction (by decide)⟩), hb⟩
  | returned v =>
    have hv : v ≠ none := by
      obtain ⟨r, rfl, -⟩ := hl v rfl
      exact Option.some_ne_none r
    obtain ⟨hf, hb⟩ := leavesFunction_jump ha hv
    refine ⟨.inr (.inr ⟨hf.not_quiet, ?_, hf⟩), hb⟩
    rintro (hj | hj) <;> exact hj.not_leavesFunction (by decide) hf

theorem Outcome.mark_plain (o : Outcome) (t : List Record) :
    (o.mark t).map (·.plain) = t.map (·.plain) := by
  cases o with
  | normal => rfl
  | broken => exact jump_plain _ _ t
  | continued => exact jump_plain _ _ t
  | returned v => exact (setRetval_plain v _).trans (jump_plain _ _ t)

/-- What is known of the marks after an action that follows a structured one. -/
theorem Sim.marks_of_ok {m m₁ : Machine} {a : α} (hx : Sim False 0 (marks m) x x' Q) (hm : m.Sound)
    (h : x m = .ok a m₁) : ∃ b, Q a b m₁.store.cells.size (marks m₁) := by
  have hf := hx m m.plain (paired_plain hm) (Nat.zero_le _) rfl
  generalize x' m.plain = r at hf
  rw [h] at hf
  cases hf with
  | ok _ _ hq => exact ⟨_, hq⟩

/-- In every machine that sessions on programs lead to, a statement that ends leaves marks in a frame
without any only as one jump needs them, and none outside the frame; an expression that ends leaves
all marks as they were. -/
theorem visit_keeps_marks {m : Machine} (hm : Reachable Node.IsProgram m) (fuel : Nat) :
    (∀ s v m', s.IsStat → Quiet (frame (marks m)) → Eval.visit fuel s m = .ok v m' →
      ExactlyOne (Quiet (frame (marks m')))
        (LeavesLoop .breaked (frame (marks m')) ∨ LeavesLoop .continued (frame (marks m')))
        (LeavesFunction (frame (marks m'))) ∧
      below (marks m') = below (marks m) ∧ (marks m').map (·.plain) = (marks m).map (·.plain)) ∧
    ∀ e v m', e.IsExpr → Eval.visit fuel e m = .ok v m' → marks m' = marks m := by
  have sound := sound_of_reachable hm
  refine ⟨fun s v m' hs hq h => ?_, fun e v m' he h => ?_⟩
  · obtain ⟨o, ends⟩ := ((sim_visit fuel).2 s hs 0 (marks m)).marks_of_ok sound h
    obtain ⟨one, rest⟩ := ends.exactlyOne hq
    exact ⟨one, rest, ends.marks ▸ o.mark_plain (marks m)⟩
  · obtain ⟨u, same⟩ := ((sim_visit fuel).1 e he 0 (marks m)).marks_of_ok sound h
    exact same.2.1

/-- A call of a function with a `return` inside a loop. -/
def returningCall : Node :=
  .program [.call (.funcDef none false
    [.whileLoop (.bool "true" ⟨1, 14⟩) (.returnValue (.null ⟨1, 26⟩) ⟨1, 19⟩) ⟨1, 8⟩] ⟨1, 1⟩) none ⟨1, 30⟩]

theorem isProgram_returningCall : returningCall.IsProgram := by
  refine ⟨_, rfl, forall_mem_singleton.2 (.call (.funcDef ?_ ?_) ?_)⟩
  · exact fun _ h => absurd h not_mem_nil
  · exact forall_mem_singleton.2 (.whileLoop .bool (.returnValue fun _ => .null))
  · exact fun _ h => absurd h not_mem_nil

/-- The machine about to run the `return`. -/
def atReturn : Machine :=
  leaves (Eval.visitCut (fun _ node _ => node matches .returnValue ..) 9 returningCall)
    (leaves Host.boot {})

/-- The machine after it. -/
def afterReturn : Machine := leaves (Eval.visit 2 (.returnValue (.null ⟨1, 26⟩) ⟨1, 19⟩)) atReturn

/-- The `return` marks the loop and the function, but not the global record. -/
theorem visit_keeps_marks_atReturn :
    (marks afterReturn).map (fun r => (r.kind, r.state)) =
        [(.loop, .returned), (.function, .returned), (.program, .normal)] ∧
      ExactlyOne (Quiet (frame (marks afterReturn)))
        (LeavesLoop .breaked (frame (marks afterReturn)) ∨
          LeavesLoop .continued (frame (marks afterReturn)))
        (LeavesFunction (frame (marks afterReturn))) ∧
      below (marks afterReturn) = below (marks atReturn) := by
  have hm : Reachable Node.IsProgram atReturn :=
    (Reachable.boot [] 1 (by decide +kernel)).cut isProgram_returningCall _ 9
  obtain ⟨v, h⟩ := eq_ok_of_succeeds (m := atReturn)
    (x := Eval.visit 2 (.returnValue (.null ⟨1, 26⟩) ⟨1, 19⟩)) (by decide +kernel)
  have marked := (visit_keeps_marks hm 2).1 _ v _ (.returnValue fun _ => .null) (by decide +kernel) h
  exact ⟨by decide +kernel, marked.1, marked.2.1⟩

end TinyScript
