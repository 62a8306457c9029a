import TinyScript.Proofs.Evolution

/-!
# Which construct raises what

A failure at run time is a report with a position, with few exceptions: `Node.raises` lists the
failures that a node lets through as they are, not counting those of its parts. `Excused c e`: the
reason `e` is a report, which is not about the watched name, or a node of the setting raises it, or it
has to do with the input, with values that contain themselves, or with listings for debugging. The
operators, the access to members and the host functions are gone through here.
-/

namespace TinyScript

open Exec Eval
open Failure (IsTextless IsOperand IsMember)

variable {i : Issue} {f : Failure} {op : TokenKind} {p : Position} {z : Mem Slot}

namespace TokenKind

/-- The faults of an operator: they are not about the types of its operands. -/
def faults : TokenKind → List Fault
  | .eq | .ne => [.missingPart]
  | .add | .selfAdd => [.overflow, .badNumeral]
  | .sub | .selfSub | .mul => [.overflow]
  | .div => [.overflow, .divisionByZero]
  | _ => []

end TokenKind

namespace Node

/-- What can be assigned to. -/
def isPlace : Node → Bool
  | .name .. | .access .. => true
  | _ => false

/-- The failures that a node lets through without a report of its own. -/
def raises : Node → List Failure
  | .switch .. => [.operand .typesDiffer, .fault .missingPart]
  | .forRange _ _ _ step _ _ =>
    .fault .overflow :: if step.isMissing then [] else [.operand .rightNotNumber]
  | .forEach .. => [.fault .wrongKind, .fault .indexRange, .fault .missingKey]
  | .assign targets _ _ => if targets.all isPlace then [] else [.fault .assertion]
  | .update op .. | .binary op .. => op.faults.map .fault
  | .call .. => [.fault .assertion, .fault .badNumeral, .fault .missingPart]
  | .mapOf .. => [.member .keyNotAllowed]
  | .access .. | .number .. => [.fault .badNumeral]
  | _ => []

theorem IsExpr.exists_pos {e : Node} (h : e.IsExpr) : ∃ p, e.pos? = some p := by
  cases h <;> exact ⟨_, rfl⟩

end Node

/-- The name that an issue is about. -/
def Issue.name? : Issue → Option String
  | .nameNotDeclared x | .nameDuplicated x | .nameNotAssignable x => some x
  | _ => none

/-- With each node the setting has its parts. -/
def Setting.Closed (c : Setting) : Prop := ∀ n, c.nodes n → ∀ k ∈ n.parts, c.nodes k

def Excused (c : Setting) : Halt → Prop
  | .outOfFuel => True
  | .failed f => LogLevel.debug.shows c.level = true ∨
      (∃ p i, f = .report ⟨.interpreter, p, i⟩ ∧ ∀ x, i.name? = some x → c.watched ≠ some x) ∨
      f = .fault .endOfInput ∨ f = .fault .tooDeep ∨ ∃ n, c.nodes n ∧ f ∈ n.raises

variable {c : Setting} {S : List String} {W W' : View} {m : Machine} {n : Node} {α : Type}

namespace Excused

theorem shown (h : LogLevel.debug.shows c.level = true) (f : Failure) : Excused c (.failed f) := .inl h

theorem report (p : Position) (hi : ∀ x, i.name? = some x → c.watched ≠ some x) :
    Excused c (.failed (.report ⟨.interpreter, p, i⟩)) := .inr (.inl ⟨p, i, rfl, hi⟩)

theorem nameless (p : Position) (hi : i.name? = none) :
    Excused c (.failed (.report ⟨.interpreter, p, i⟩)) :=
  report p fun _ hx => by rw [hi] at hx; cases hx

theorem named (p : Position) {y : String} (hi : i.name? = some y) (hy : c.watched ≠ some y) :
    Excused c (.failed (.report ⟨.interpreter, p, i⟩)) :=
  report p fun _ hx => Option.some.inj (hi.symm.trans hx) ▸ hy

theorem of_raises (hn : c.nodes n) (hf : f ∈ n.raises) : Excused c (.failed f) :=
  .inr (.inr (.inr (.inr ⟨n, hn, hf⟩)))

/-- A value has no text, where a node may meet a number with too many digits. -/
theorem textless (hn : c.nodes n) (hb : .fault .badNumeral ∈ n.raises) (hf : IsTextless f) :
    Excused c (.failed f) := by
  rcases hf with rfl | rfl
  · exact .inr (.inr (.inr (.inl rfl)))
  · exact of_raises hn hb

end Excused

/-- The action goes as it should, whatever its result. -/
abbrev Does (c : Setting) (S : List String) (W : View) (x : Exec α) (m : Machine) : Prop :=
  Runs c S W (Excused c) x (fun _ _ => True) m

/-- The action goes as it should, and has a value as its result. -/
abbrev Yields (c : Setting) (S : List String) (W : View) (x : Exec Slot) (m : Machine) : Prop :=
  Runs c S W (Excused c) x (fun v m' => Live m'.store.cells.size v) m

/-- An excuse, or a failure in `P`, which is about to be turned into a report. -/
def ExcusedOr (c : Setting) (P : Failure → Prop) (e : Halt) : Prop :=
  Excused c e ∨ ∃ f, e = .failed f ∧ P f

namespace Runs

variable {X : Halt → Prop} {Q : α → Machine → Prop}

theorem report (hm : m.Good c W') (p : Position) (hi : i.name? = none) :
    Runs c S W (Excused c) (Exec.report p i : Exec α) Q m := throw hm (.nameless p hi)

theorem reportAt (hm : m.Good c W') (he : n.IsExpr) (hi : i.name? = none) :
    Runs c S W (Excused c) (Exec.reportAt n i : Exec α) Q m := by
  obtain ⟨p, hp⟩ := he.exists_pos
  unfold Exec.reportAt
  rw [hp]
  exact report hm p hi

theorem reportTurn {k : Handled} {x : Exec α} {handle : k.Error → Exec α}
    (hx : Runs c S W (ExcusedOr c fun f => ∃ o, f = k.failure o) x Q m)
    (hh : ∀ o, ∃ p i, handle o = Exec.report p i ∧ i.name? = none) :
    Runs c S W (Excused c) (k.turn handle x) Q m := by
  refine turn hx (fun o m' => ?_) ?_
  · obtain ⟨p, i, h, hi⟩ := hh o
    exact ⟨_, by rw [h]; rfl, .nameless p hi⟩
  · rintro e (he | ⟨f, rfl, o, rfl⟩) ho
    · exact he
    · exact absurd ⟨o, rfl⟩ ho

/-! ### Operators -/

/-- Operand errors of an operation are reported, and its other failures are those of a node. -/
theorem runOp {P : Slot → Store → Prop} (hm : m.Good c W) (hn : c.nodes n)
    (hz : Mem.Acts c z P (fun f => IsOperand f ∨ f ∈ n.raises) m.store) :
    Runs c S W (Excused c) (Eval.runOp op p (some z)) (fun v m' => P v m'.store) m := by
  refine reportTurn (k := .operand) (mem hm hz fun f hf => ?_) fun o => ⟨_, _, rfl, rfl⟩
  rcases hf with hf | hf
  · exact .inr ⟨f, rfl, hf⟩
  · exact .inl (.of_raises hn hf)

end Runs

namespace Mem.Acts

variable {s : Store} {a b : Slot}

theorem mem_faults {k : Fault} (hf : f = .fault k) (hk : k ∈ op.faults) :
    f ∈ op.faults.map Failure.fault :=
  List.mem_map.2 ⟨k, hk, hf.symm⟩

theorem sum_faults (hs : s.Good c) (hop : op.faults = [.overflow, .badNumeral]) :
    Acts c (Mem.sum a b) (Calculated s a)
      (fun f => IsOperand f ∨ f ∈ op.faults.map Failure.fault) s := by
  refine (sum hs a b).failing fun f hf => ?_
  rcases hf with hf | ⟨hf, -⟩ | ⟨hf, -⟩
  · exact .inr (mem_faults hf (by simp [hop]))
  · exact .inr (mem_faults hf (by simp [hop]))
  · exact .inl hf

theorem equals_faults (hs : s.Good c) : Acts c (Mem.equals a b) (fun _ _ => True)
    (fun f => IsOperand f ∨ f ∈ TokenKind.eq.faults.map Failure.fault) s := by
  refine (equals hs a b).failing fun f hf => ?_
  rcases hf with rfl | rfl
  · exact .inl ⟨_, rfl⟩
  · exact .inr (by decide)

/-- An operator yields a new cell, or writes its result to the cell of its left operand. -/
theorem binaryOp (hs : s.Good c) (h : binaryOp? op a b = some z) (ha : Live s.cells.size a)
    (hf : op ∈ TokenKind.updates → ∀ r, a = some r → ¬c.frozen r) :
    Acts c z (fun v s' => op ∉ TokenKind.updates → Live s'.cells.size v)
      (fun f => IsOperand f ∨ f ∈ op.faults.map Failure.fault) s := by
  have new : ∀ {op : TokenKind} {y : Mem Ref} {P : Ref → Store → Prop},
      Acts c y (fun r s' => Mem.Fresh s'.cells.size r ∧ P r s')
        (fun f => IsOperand f ∨ f ∈ op.faults.map Failure.fault) s →
      Acts c (some <$> y) (fun v s' => op ∉ TokenKind.updates → Live s'.cells.size v)
        (fun f => IsOperand f ∨ f ∈ op.faults.map Failure.fault) s :=
    fun hy => hy.map fun r s' hr _ => .some hr.1
  have bool : ∀ {s' : Store} (b : Bool), s'.Good c → Acts c (Mem.newBool b)
      (fun r s'' => Mem.Fresh s''.cells.size r ∧ True)
      (fun f => IsOperand f ∨ f ∈ op.faults.map Failure.fault) s' :=
    fun b hs' => (newBool hs' b).mono (fun _ _ h => ⟨h, trivial⟩) fun _ h => h
  unfold binaryOp? at h
  split at h <;> cases h
  · exact new (bind (equals_faults hs) fun v _ hs' _ _ => bool v hs')
  · exact new (bind ((less hs a b).failing fun f hf => .inl hf.1)
      fun v _ hs' _ _ => bool v hs')
  · exact new (bind ((lessEq hs a b).failing fun f hf => .inl hf) fun v _ hs' _ _ => bool v hs')
  · exact new (calculated (sum_faults hs rfl))
  · exact new (calculated (arithmetic hs (fun m n => (m.lift_failsOnly _ _ n).mono fun _ h =>
      mem_faults h (by decide)) a b))
  · exact new (calculated (arithmetic hs (fun m n => (m.lift_failsOnly _ _ n).mono fun _ h =>
      mem_faults h (by decide)) a b))
  · refine new (calculated (arithmetic hs (fun m n => (m.div_failsOnly n).mono fun _ h => ?_) a b))
    rcases h with h | h <;> exact mem_faults h (by decide)
  · refine (updated ha (hf (by decide)) (sum_faults hs rfl)).map fun _ _ _ h => ?_
    exact absurd (by decide) h
  · refine (updated ha (hf (by decide)) (arithmetic hs (fun m n => (m.lift_failsOnly _ _ n).mono
      fun _ h => mem_faults h (by decide)) a b)).map fun _ _ _ h => ?_
    exact absurd (by decide) h

theorem unaryOp (hs : s.Good c) (h : unaryOp? op a = some z) (ha : Live s.cells.size a) :
    Acts c z (fun v s' => Live s'.cells.size v) IsOperand s := by
  unfold unaryOp? at h
  split at h <;> cases h
  · exact plus hs ha
  · exact (minus hs a).map fun _ _ hr => .some hr
  · exact (not hs a).map fun _ _ hr => .some hr

/-- The negation of a comparison fails as the comparison does. -/
theorem negatedOp {op' : TokenKind} (hs : s.Good c) (h : negatedOp? op = some op') :
    ∃ y, binaryOp? op' a b = some y ∧ Acts c (y >>= Mem.negate) (fun v s' => Live s'.cells.size v)
      (fun f => IsOperand f ∨ f ∈ op.faults.map Failure.fault) s := by
  unfold negatedOp? at h
  split at h <;> cases h <;> refine ⟨_, rfl, negated ?_⟩
  · exact equals_faults hs
  · exact (less hs a b).failing fun f hf => .inl hf.1
  · exact (lessEq hs a b).failing fun f hf => .inl hf

end Mem.Acts

namespace Runs

variable {a b : Slot} {args : List Slot}

/-- An operator that changes a variable, which must not be a frozen one. -/
theorem runUpdate (hm : m.Good c W) (hn : c.nodes n) (hr : n.raises = op.faults.map .fault)
    (ha : Live m.store.cells.size a) (hf : ∀ r, a = some r → ¬c.frozen r) :
    Does c S W (Eval.runOp op p (binaryOp? op a b)) m := by
  cases h : binaryOp? op a b with
  | none => exact report hm p rfl
  | some z =>
    have acts := Mem.Acts.binaryOp hm.store h ha fun _ => hf
    rw [← hr] at acts
    exact (runOp hm hn acts).forget

theorem runBinary (hop : op ∉ TokenKind.updates) (hm : m.Good c W) (hn : c.nodes n)
    (hr : n.raises = op.faults.map .fault) (ha : Live m.store.cells.size a) :
    Yields c S W (Eval.runBinary op a b p) m := by
  unfold Eval.runBinary
  split
  · rename_i op' hneg
    obtain ⟨y, hy, acts⟩ := Mem.Acts.negatedOp (a := a) (b := b) hm.store hneg
    rw [hy]
    exact runOp hm hn (hr ▸ acts)
  · cases h : binaryOp? op a b with
    | none => exact report hm p rfl
    | some z =>
      have acts := Mem.Acts.binaryOp hm.store h ha fun h => absurd h hop
      exact runOp hm hn ((hr ▸ acts).mono (fun _ _ h => h hop) fun _ h => h)

theorem runUnary (hm : m.Good c W) (hn : c.nodes n) (ha : Live m.store.cells.size a) :
    Yields c S W (Eval.runOp op p (unaryOp? op a)) m := by
  cases h : unaryOp? op a with
  | none => exact report hm p rfl
  | some z =>
    exact runOp hm hn ((Mem.Acts.unaryOp hm.store h ha).failing fun _ h => .inl h)

/-! ### Host functions -/

theorem text {v : Slot} (hm : m.Good c W) (hn : c.nodes n) (hb : .fault .badNumeral ∈ n.raises)
    (hv : Live m.store.cells.size v) :
    Does c S W (Exec.text v) m :=
  (wp_text v).2 (ofExcept hm (fun _ _ => trivial) (hm.store.text_failsOnly hv)
    fun _ hf => .textless hn hb hf)

theorem print (hm : m.Good c W) (hn : c.nodes n) (hb : .fault .badNumeral ∈ n.raises)
    (ha : ∀ v ∈ args, Live m.store.cells.size v) : Does c S W (Host.print args) m := by
  induction args generalizing m with
  | nil => exact pure hm trivial
  | cons v vs ih =>
    obtain ⟨hv, hvs⟩ := List.forall_mem_cons.1 ha
    cases vs with
    | nil => exact bind (text hm hn hb hv) fun _ _ hm₁ _ _ => emit hm₁ _
    | cons u us =>
      refine bind (text hm hn hb hv) fun _ _ hm₁ hp₁ _ => bind (emit hm₁ _) fun _ _ hm₂ hp₂ _ => ?_
      exact ih hm₂ fun w hw => (hp₁.trans hp₂).live (hvs w hw)

theorem promptOf (hm : m.Good c W) (hn : c.nodes n) (hb : .fault .missingPart ∈ n.raises)
    (ha : ∀ v ∈ args, Live m.store.cells.size v) :
    Runs c S W (Excused c) (Host.promptOf args) (fun shown _ => FailsOnly IsTextless shown) m := by
  cases args with
  | nil => exact pure hm (.ok _)
  | cons v vs =>
    have fails := hm.store.prompt_failsOnly (ha v (by simp))
    refine get ?_
    split
    · exact throw hm (.of_raises hn hb)
    · rename_i h
      refine pure hm fun f hf => ?_
      rcases fails f hf with rfl | hf'
      · exact absurd hf h
      · exact hf'

theorem wanted (hm : m.Good c W) (args : List Slot) :
    Runs c S W (ExcusedOr c IsOperand) (Host.wanted args) (fun _ _ => True) m := by
  unfold Host.wanted
  split
  · refine get ?_
    split
    · exact pure hm trivial
    · exact pure hm trivial
    · exact throw hm (.inr ⟨_, rfl, _, rfl⟩)
  · exact pure hm trivial

theorem inputValue_plain {w : Host.Wanted} {line : String} {v : Value}
    (h : Host.inputValue w line = some v) : v.IsScalar := by
  cases w with
  | string =>
    cases h
    exact .inr ⟨_, rfl⟩
  | int | float =>
    obtain ⟨k, -, rfl⟩ := Option.map_eq_some_iff.1 h
    exact .inl ⟨_, rfl⟩

theorem input (hm : m.Good c W) (hn : c.nodes n) (hb : .fault .badNumeral ∈ n.raises)
    (hb' : .fault .missingPart ∈ n.raises) (ha : ∀ v ∈ args, Live m.store.cells.size v) :
    Runs c S W (ExcusedOr c IsOperand) (Host.input args) (fun r m' => r.index < m'.store.cells.size) m := by
  refine bind ((promptOf hm hn hb' ha).failing fun _ h => .inl h)
    fun prompt m₁ hm₁ _ hprompt => ?_
  refine bind (wanted hm₁ args) fun w m₂ hm₂ _ _ => ?_
  refine bind (ofExcept (Q := fun _ _ => True) hm₂ (fun _ _ => trivial) hprompt
    fun f hf => .inl (.textless hn hb hf)) fun s m₃ hm₃ _ _ => ?_
  refine bind (emit hm₃ s) fun _ m₄ hm₄ _ _ => ?_
  refine bind (readLine hm₄ (.inl (.inr (.inr (.inl rfl))))) fun line m₅ hm₅ _ _ => ?_
  split
  · rename_i v hv
    have scalar := inputValue_plain hv
    have new := Mem.Acts.alloc (X := fun _ => False) hm₅.store scalar.sound scalar.made
      fun t e => absurd e (scalar.ne_map t)
    exact (mem hm₅ new fun _ h => h.elim).left
  · exact throw hm₅ (.inr ⟨_, rfl, _, rfl⟩)

theorem hostRun (action : HostAction) (hm : m.Good c W) (hn : c.nodes n)
    (hb : .fault .badNumeral ∈ n.raises) (hb' : .fault .missingPart ∈ n.raises)
    (ha : ∀ v ∈ args, Live m.store.cells.size v) :
    Runs c S W (ExcusedOr c IsOperand) (Host.run action args)
      (fun r m' => ∀ v, r = .ok (some v) → v.index < m'.store.cells.size) m := by
  have printed : Runs c S W (ExcusedOr c IsOperand) (Host.print args) (fun _ _ => True) m :=
    (print hm hn hb ha).failing fun _ h => .inl h
  cases action with
  | print => exact bind printed fun _ _ hm₁ _ _ => pure hm₁ fun _ h => by cases h
  | println =>
    refine bind (bind printed fun _ _ hm₁ _ _ => emit hm₁ _) fun _ _ hm₁ _ _ => pure hm₁ fun _ h => ?_
    cases h
  | input =>
    refine bind (input hm hn hb hb' ha) fun r m₁ hm₁ _ hr => pure hm₁ fun v h => ?_
    cases h
    exact hr
  | foreign truthy =>
    refine pure hm fun v h => ?_
    cases truthy <;> cases h

/-! ### Members -/

theorem getMember {x key : Slot} (hm : m.Good c W) (hn : c.nodes n)
    (hb : .fault .badNumeral ∈ n.raises) (hx : Live m.store.cells.size x)
    (hc : m.store.IsContainer x) (hk : Live m.store.cells.size key) :
    Runs c S W (ExcusedOr c IsMember) (Eval.getMember x key) (fun v m' => Live m'.store.cells.size v) m := by
  refine bind (mem hm (Mem.Acts.member? hm.store hc key) fun f hf => ?_) fun y m₁ hm₁ hp₁ hy => ?_
  · rcases hf with hf | rfl
    · exact .inr ⟨f, rfl, hf⟩
    · exact .inl (.of_raises hn hb)
  · split
    · exact pure hm₁ (hy _ rfl)
    · refine bind (emit hm₁ _) fun _ m₂ hm₂ hp₂ _ => get ?_
      have live₂ : Live m₂.store.cells.size x := (hp₁.trans hp₂).live hx
      refine bind (ofExcept (Q := fun _ _ => True) hm₂ (fun _ _ => trivial)
        (hm₂.store.inner_failsOnly _ live₂) fun f hf => .inl (.textless hn hb hf))
        fun s m₃ hm₃ hp₃ _ => ?_
      refine bind (emit hm₃ _) fun _ m₄ hm₄ hp₄ _ => ?_
      have live₄ := (((hp₁.trans hp₂).trans hp₃).trans hp₄).live hk
      refine bind ((text hm₄ hn hb live₄).failing fun _ h => .inl h)
        fun shown m₅ hm₅ _ _ => ?_
      exact throw hm₅ (.inr ⟨_, rfl, _, rfl⟩)

end Runs

end TinyScript
