import TinyScript.Proofs.Agreement
import TinyScript.Proofs.StackDiscipline

/-!
# Bodies in braces

A statement in braces is run in a record of its own, which has no names and lets jumps through. Unless
the statement declares something, that record makes no difference, wherever in the run it stands on the
stack: inside the functions that are called, on the way of each jump. Main statement: a statement and
the same in braces end alike (`visit_braces`).
-/

namespace TinyScript

open Exec Node List Eval
open MachineOf (Like)

/-! ### One record more -/

variable {n l : Nat} {rs rs' : List Record}
variable {b : Record} {m₁ : Machine}

theorem CallStack.length_rebind (x : String) (v : Slot) (rs : List Record) :
    (rebind x v rs).length = rs.length := by
  simpa using congrArg List.length (skeleton_rebind x v rs)

theorem CallStack.length_jump (st : RecordState) (goal : RecordKind) (rs : List Record) :
    (jump st goal rs).records.length = rs.length := by
  simpa using congrArg List.length (skeleton_jump st goal rs)

theorem CallStack.length_setRetval (v : Slot) (rs : List Record) :
    (setRetval v rs).length = rs.length := by
  simpa using congrArg List.length (skeleton_setRetval v rs)

/-- On top of the same `l` records the second list has a block without names. -/
def UnderBlock (l : Nat) (rs rs' : List Record) : Prop :=
  ∃ b : Record, rs' = b :: rs ∧ b.kind = .block ∧ b.members = [] ∧ rs.length = l

theorem grounds_underBlock (l : Nat) : Grounds (UnderBlock l) where
  value h x := by
    obtain ⟨b, rfl, -, hm, -⟩ := h
    simp [CallStack.valueOf?, RecordOf.get?, hm]
  binding h x := by
    obtain ⟨b, rfl, -, hm, -⟩ := h
    simp [CallStack.bindingOf?, RecordOf.get?, hm]
  rebind h x v := by
    obtain ⟨b, rfl, hk, hm, hl⟩ := h
    exact ⟨b, by simp [CallStack.rebind, RecordOf.get?, hm], hk, hm,
      (CallStack.length_rebind x v _).trans hl⟩
  found h st goal hg := by
    obtain ⟨b, rfl, hk, -, -⟩ := h
    simp [CallStack.jump, hk, hg.symm]
  jump h st goal hg := by
    obtain ⟨b, rfl, hk, hm, hl⟩ := h
    exact ⟨{ b with state := st }, by simp [CallStack.jump, hk, hg.symm], hk, hm,
      (CallStack.length_jump st goal _).trans hl⟩
  setRetval h v := by
    obtain ⟨b, rfl, hk, hm, hl⟩ := h
    exact ⟨b, by simp [CallStack.setRetval, hk], hk, hm, (CallStack.length_setRetval v _).trans hl⟩

theorem Above.split (h : Above id (UnderBlock l) n rs rs') :
    ∃ above above' below, rs = above ++ below ∧ rs' = above' ++ below ∧ below.length = l := by
  induction h with
  | @base rs _ h =>
    obtain ⟨b, rfl, -, -, hl⟩ := h
    exact ⟨[], [b], rs, rfl, rfl, hl⟩
  | @cons _ r r' _ _ _ _ ih =>
    obtain ⟨above, above', below, rfl, rfl, hl⟩ := ih
    exact ⟨r :: above, r' :: above', below, rfl, rfl, hl⟩

/-! ### Statements that declare nothing -/

namespace Node

/-- The statement declares a name in the record that it is run in. -/
inductive Declares : Node → Prop
  | declare {names inits isConst p} : Declares (.declare names inits isConst p)
  | branch {conds bodies p s} (hs : s ∈ bodies) (h : Declares s) : Declares (.branch conds bodies p)
  | switch {subject cases bodies fallback p s} (hs : s ∈ bodies) (h : Declares s) :
      Declares (.switch subject cases bodies fallback p)
  | fallback {subject cases bodies fallback p} (h : Declares fallback) :
      Declares (.switch subject cases bodies fallback p)

/-- What may be run without a look at the innermost record. -/
inductive Neutral : Node → Prop
  | missing : Neutral .missing
  | expr {e} (he : IsExpr e) : Neutral e
  | stat {s} (hs : IsStat s) (hd : ¬Declares s) : Neutral s

theorem Neutral.of_ne {e : Node} (h : e ≠ .missing → e.IsExpr) : e.Neutral := by
  by_cases he : e = .missing
  · exact he ▸ .missing
  · exact .expr (h he)

theorem IsExpr.neutral_here {e : Node} (h : e.IsExpr) : ∀ k ∈ e.here, k.Neutral := by
  intro k hk
  refine .expr ?_
  cases h with
  | call hc ha =>
    rcases mem_cons.1 hk with rfl | hk
    · exact hc
    · exact ha k hk
  | listOf hi => exact hi k hk
  | mapOf hks hvs =>
    rcases mem_append.1 hk with hk | hk
    · exact hks k hk
    · exact hvs k hk
  | _ => simp only [here, mem_cons, not_mem_nil, or_false] at hk <;> grind

theorem Neutral.here {n : Node} (h : n.Neutral) : ∀ k ∈ n.here, k.Neutral := by
  intro k hk
  cases h with
  | missing => cases hk
  | expr he => exact he.neutral_here k hk
  | stat hs hd =>
    cases hs with
    | declare => exact absurd .declare hd
    | branch hc hb =>
      rcases mem_append.1 hk with hk | hk
      · exact .expr (hc k hk)
      · exact .stat (hb k hk) fun h => hd (.branch hk h)
    | switch hsub hc hb hf =>
      simp only [Node.here, mem_cons, mem_append] at hk
      rcases hk with rfl | rfl | hk | hk
      · exact .expr hsub
      · by_cases hm : k = .missing
        · exact hm ▸ .missing
        · exact .stat (hf hm) fun h => hd (.fallback h)
      · exact .expr (hc k hk)
      · exact .stat (hb k hk) fun h => hd (.switch hk h)
    | forRange _ hst he hstep =>
      simp only [Node.here, mem_cons, not_mem_nil, or_false] at hk
      rcases hk with rfl | rfl | rfl
      · exact .expr hst
      · exact .expr he
      · exact .of_ne hstep
    | returnValue he =>
      obtain rfl := mem_singleton.1 hk
      exact .of_ne he
    | assign ht hsrc =>
      rcases mem_append.1 hk with hk | hk
      · obtain ⟨t, htm, hk⟩ := mem_flatMap.1 hk
        have htarget := ht t htm
        cases t with
        | access => exact htarget.neutral_here k hk
        | _ => cases hk
      · exact .expr (hsrc k hk)
    | update ht hsrc =>
      simp only [Node.here, mem_cons, not_mem_nil, or_false] at hk
      rcases hk with rfl | rfl
      · exact .expr ht
      · exact .expr hsrc
    | call hc ha => exact (IsExpr.call hc ha).neutral_here k hk
    | _ => cases hk

end Node

theorem agree_visit_neutral (l n : Nat) {node : Node} (h : node.Neutral) :
    Agree id (UnderBlock l) 0 0 (visit n node) (visit n node) := by
  have hg := grounds_underBlock l
  induction n generalizing node with
  | zero => exact .throw (.refl _)
  | succ n ih =>
    have inner := hg.visit (fun n _ => @Respected.swaps_id _ (visit n)) n
    have step : Agree id (UnderBlock l) 0 0 (visitWith n (visit n) node)
        (visitWith n (visit n) (node.moved id)) := by
      refine (hg.walk 0).visitWith hg.inside inner (fun h c i => .iterate (fun a => h a i) n c)
        (fun k hk => ?_) (fun _ _ _ _ e => ?_) (@Respected.swaps_id _ (visit n))
      · rw [moved_id]
        exact ih (h.here k hk)
      · subst e
        cases h with
        | expr he => cases he
        | stat _ hd => exact absurd .declare hd
    rwa [moved_id] at step

/-! ### The end of the block -/

def blockRecord (p : Position) : Record := { name := s!"block<{p.render}>", kind := .block }

/-- What two runs from the same `l` records have left behind when they are halted. -/
structure LeftAlike (l : Nat) (m m' : Machine) : Prop where
  store : m.store = m'.store
  out : m.out = m'.out
  input : m.input = m'.input
  records : ∃ above above' below,
    m.stack.records = above ++ below ∧ m'.stack.records = above' ++ below ∧ below.length = l

/-- How a statement ends, and how it ends in braces. -/
inductive EndAlikeBraced (l : Nat) :
    EStateM.Result Halt Machine Slot → EStateM.Result Halt Machine Slot → Prop
  | ok {v m} : EndAlikeBraced l (.ok v m) (.ok none m)
  | error {e m m'} (h : LeftAlike l m m') : EndAlikeBraced l (.error e m) (.error e m')

theorem settleBlock_quiet {m : Machine} (hq : m.level < 3) (hr : m.stack.records = b :: rs) :
    ∃ go b', settleBlock m = .ok go { m with stack := { m.stack with records := b' :: rs } } := by
  have top : (currentRecord : Exec Record) m = .ok b m := by
    rw [currentRecord, bind_of_ok (rfl : (MonadState.get : Exec Machine) m = .ok m m),
      CallStackOf.current?, hr]
    rfl
  have reset : ∀ what, (do setState .normal; noteJump b.name what; return false) m =
      .ok false { m with stack := { m.stack with records := { b with state := .normal } :: rs } } := by
    intro what
    have set : setState .normal m =
        .ok () { m with stack := { m.stack with records := { b with state := .normal } :: rs } } := by
      have e : m.stack.modifyTop (fun r => { r with state := .normal }) =
          { m.stack with records := { b with state := .normal } :: rs } := by
        simp only [CallStackOf.modifyTop, hr]
      exact congrArg (fun cs => EStateM.Result.ok () { m with stack := cs }) e
    rw [bind_of_ok set]
    exact bind_of_ok (log_quiet (by exact hq) (by decide) _)
  unfold settleBlock
  rw [bind_of_ok top]
  cases b.state with
  | normal => exact ⟨true, b, by rw [← hr]; rfl⟩
  | _ => exact ⟨false, _, reset _⟩

theorem block_of_ok {s : Node} {p : Position} {v : Slot} {m : Machine} (hq : m.level < 3)
    (h : visit n s { m with stack := m.stack.push (blockRecord p) } = .ok v m₁)
    (hr : m₁.stack.records = b :: rs) (hq₁ : m₁.level < 3) :
    ∃ cs, cs.records = rs ∧ visit (n + 1) (.block [s] p) m = .ok none { m₁ with stack := cs } := by
  obtain ⟨go, b', settled⟩ := settleBlock_quiet hq₁ hr
  have run : runSettled (visit n) settleBlock [s]
      { m with stack := m.stack.push (blockRecord p) } =
      .ok () { m₁ with stack := { m₁.stack with records := b' :: rs } } := by
    rw [runSettled, bind_of_ok h, bind_of_ok settled]
    cases go <;> rfl
  have left := leave_quiet (m := { m₁ with stack := { m₁.stack with records := b' :: rs } }) hq₁ rfl
  have whole : Exec.within (blockRecord p) (runSettled (visit n) settleBlock [s]) m =
      .ok () { m₁ with stack := ({ m₁.stack with records := b' :: rs } : CallStack).pop.2 } := by
    rw [within, bind_of_ok (enter_quiet hq _), bind_of_ok run]
    exact bind_of_ok left
  exact ⟨_, rfl, bind_of_ok whole⟩

theorem block_of_error {s : Node} {p : Position} {e : Halt} {m : Machine} (hq : m.level < 3)
    (h : visit n s { m with stack := m.stack.push (blockRecord p) } = .error e m₁) :
    visit (n + 1) (.block [s] p) m = .error e m₁ := by
  have run := bind_of_error (f := fun _ => do
    if ← settleBlock then runSettled (visit n) settleBlock [] else pure ()) h
  have whole : Exec.within (blockRecord p) (runSettled (visit n) settleBlock [s]) m =
      .error e m₁ := by
    rw [within, bind_of_ok (enter_quiet hq _)]
    exact bind_of_error run
  exact bind_of_error whole

theorem CallStack.ext_of_skeleton {cs cs' : CallStack} (hr : cs.records = cs'.records)
    (h : cs.skeleton = cs'.skeleton) : cs = cs' := by
  obtain ⟨-, hc, hl⟩ := CallStackOf.mk.inj h
  cases cs
  cases cs'
  cases hr
  cases hc
  cases hl
  rfl

/-- A statement that declares nothing ends in braces as it does without, whatever the machine: it runs
on, it ends with the same machine, or it halts for the same reason with the same left behind on the
records that were there. -/
theorem visit_braces {s : Node} {m : Machine} (hs : s.IsStat) (hd : ¬s.Declares) (hq : m.level < 3)
    (p : Position) (n : Nat) : EndAlikeBraced m.stack.records.length (Eval.visit n s m)
      (Eval.visit (n + 1) (.block [s] p) m) := by
  have like : Like id (UnderBlock m.stack.records.length) 0 m
      { m with stack := m.stack.push (blockRecord p) } :=
    ⟨.refl _, .base ⟨_, rfl, rfl, rfl, rfl⟩, rfl, rfl, rfl, hq⟩
  have agree := agree_visit_neutral _ n (.stat hs hd) _ _ like
  generalize h : Eval.visit n s m = r at agree ⊢
  generalize h' : Eval.visit n s { m with stack := m.stack.push (blockRecord p) } = r' at agree
  cases agree with
  | @ok v m₁ m₂ hm =>
    obtain ⟨b, hr, -⟩ : UnderBlock _ m₁.stack.records m₂.stack.records := by
      have := hm.records
      cases this
      assumption
    obtain ⟨cs, hcs, braced⟩ := block_of_ok hq h' hr hm.quiet'
    have kept := fun n node => balanced_visitCut (fun _ _ _ => false) n node m
    simp only [Eval.visitCut_false] at kept
    have same : cs = m₁.stack := CallStack.ext_of_skeleton hcs
      (((wp_of_ok braced).1 (kept _ _)).trans ((wp_of_ok h).1 (kept _ _)).symm)
    have machine : { m₂ with stack := cs } = m₁ := by
      obtain ⟨hst, -, hout, hin, hlv, -⟩ := hm
      cases m₁
      cases m₂
      cases hst.2 rfl
      cases hout
      cases hin
      cases hlv
      cases same
      rfl
    rw [braced, machine]
    exact .ok
  | error k hm he =>
    obtain rfl := he.2 rfl
    rw [block_of_error hq h']
    exact .error ⟨hm.store.2 rfl, hm.out, hm.input, hm.records.split⟩

/-- `if (true) break` -/
def breakIfTrue : Node := .branch [.bool "true" ⟨1, 18⟩] [.breakLoop ⟨1, 24⟩] ⟨1, 14⟩

def insideLoop : Machine := leaves (do Host.boot; enter (Eval.loopRecord "while" ⟨1, 1⟩)) {}

theorem visit_braces_breakIfTrue :
    breakIfTrue.IsStat ∧ ¬breakIfTrue.Declares ∧ insideLoop.level < 3 ∧
      (∀ n, EndAlikeBraced 2 (Eval.visit n breakIfTrue insideLoop)
        (Eval.visit (n + 1) (.block [breakIfTrue] ⟨1, 14⟩) insideLoop)) ∧
      (leaves (Eval.visit 3 (.block [breakIfTrue] ⟨1, 14⟩)) insideLoop).stack.records.map (·.state) =
        [.breaked, .normal] := by
  have formed : breakIfTrue.IsStat :=
    .branch (fun _ he => List.mem_singleton.1 he ▸ .bool) fun _ hs => List.mem_singleton.1 hs ▸ .breakLoop
  have neutral : ¬breakIfTrue.Declares := by
    rintro (_ | ⟨hs, h⟩)
    obtain rfl := List.mem_singleton.1 hs
    cases h
  have quiet : insideLoop.level < 3 := by decide +kernel
  have depth : insideLoop.stack.records.length = 2 := by decide +kernel
  exact ⟨formed, neutral, quiet, fun n => depth ▸ visit_braces formed neutral quiet _ n,
    by decide +kernel⟩

end TinyScript
