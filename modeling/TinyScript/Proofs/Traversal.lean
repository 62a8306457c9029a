import TinyScript.Proofs.BareStore

/-!
# Relations that runs respect

The run of a node is compared with the run of the same node at other places. A map `f` tells where the
places have gone: if it is `id`, one and the same node is run twice. `Walk f R R'` says that `R` holds
between each action of the machine and itself, up to places, and between what is built from related
actions, where those inside a new record are related by `R'`. `Inside f R` adds the actions on the
record that a run is in. Then runs of a node are related as soon as runs of its parts are, and loops of
related rounds (`Walk.visitWith`). The evaluator is gone through here once for all relations of that
kind; for those between runs of one node, `Respected` is what there is to show.

Changes of the records are told by skeletons: a skeleton is all of a record but its members and
marks, and only entering and leaving records change the skeleton of the stack.
-/

namespace TinyScript

open Exec Node List

variable {σ ρ α β : Type} {f : Position → Position}

/-! ### Skeletons -/

/-- A record without its members and marks. -/
def RecordOf.skeleton (r : RecordOf σ ρ) : RecordOf Unit Unit :=
  { name := r.name, kind := r.kind, level := r.level, outer := r.outer }

namespace CallStackOf

def skeleton (cs : CallStackOf σ ρ) : CallStackOf Unit Unit :=
  ⟨cs.records.map (·.skeleton), cs.current, cs.level⟩

theorem skeleton_modifyTop (cs : CallStackOf σ ρ) {f : RecordOf σ ρ → RecordOf σ ρ}
    (hf : ∀ r, (f r).skeleton = r.skeleton) : (cs.modifyTop f).skeleton = cs.skeleton := by
  cases h : cs.records <;> simp [modifyTop, skeleton, h, hf]

end CallStackOf

namespace CallStack

theorem skeleton_rebind (x : String) (v : Slot) (rs : List (RecordOf σ ρ)) :
    (rebind x v rs).map (·.skeleton) = rs.map (·.skeleton) := by
  induction rs with
  | nil => rfl
  | cons r rs ih =>
    simp only [rebind]
    split
    · rfl
    · rw [map_cons, ih, map_cons]

theorem skeleton_jump (st : RecordState) (goal : RecordKind) (rs : List Record) :
    (jump st goal rs).records.map (·.skeleton) = rs.map (·.skeleton) := by
  induction rs with
  | nil => rfl
  | cons r rs ih =>
    simp only [jump]
    split
    · rfl
    · split
      · rfl
      · rw [map_cons, ih, map_cons]
        rfl

theorem skeleton_setRetval (v : Slot) (rs : List Record) :
    (setRetval v rs).map (·.skeleton) = rs.map (·.skeleton) := by
  induction rs with
  | nil => rfl
  | cons r rs ih =>
    simp only [setRetval]
    split
    · rfl
    · rw [map_cons, ih, map_cons]

end CallStack

/-! ### Trees at other places -/

namespace Node

mutual

/-- The tree with every place in it moved by `f`. -/
@[simp] def moved (f : Position → Position) : Node → Node
  | .missing => .missing
  | .empty => .empty
  | .program stats => .program (movedAll f stats)
  | .block stats p => .block (movedAll f stats) (f p)
  | .declare names inits isConst p => .declare (movedAll f names) (movedOpt f inits) isConst (f p)
  | .branch conds bodies p => .branch (movedAll f conds) (movedAll f bodies) (f p)
  | .switch subject cases bodies fallback p =>
    .switch (moved f subject) (movedAll f cases) (movedAll f bodies) (moved f fallback) (f p)
  | .repeatUntil cond body p => .repeatUntil (moved f cond) (moved f body) (f p)
  | .whileLoop cond body p => .whileLoop (moved f cond) (moved f body) (f p)
  | .forRange var start stop step body p =>
    .forRange (moved f var) (moved f start) (moved f stop) (moved f step) (moved f body) (f p)
  | .forEach key val subject body p =>
    .forEach (moved f key) (moved f val) (moved f subject) (moved f body) (f p)
  | .breakLoop p => .breakLoop (f p)
  | .continueLoop p => .continueLoop (f p)
  | .returnValue expr p => .returnValue (moved f expr) (f p)
  | .assign targets sources p => .assign (movedAll f targets) (movedAll f sources) (f p)
  | .update op target source p => .update op (moved f target) (moved f source) (f p)
  | .funcDef params vararg body p => .funcDef (movedOpt f params) vararg (movedAll f body) (f p)
  | .call callee args p => .call (moved f callee) (movedOpt f args) (f p)
  | .select cond yes no p => .select (moved f cond) (moved f yes) (moved f no) (f p)
  | .binary op left right p => .binary op (moved f left) (moved f right) (f p)
  | .unary op operand p => .unary op (moved f operand) (f p)
  | .listOf items p => .listOf (movedOpt f items) (f p)
  | .mapOf keys values p => .mapOf (movedAll f keys) (movedAll f values) (f p)
  | .setOf items p => .setOf (movedOpt f items) (f p)
  | .access base key dot p => .access (moved f base) (moved f key) dot (f p)
  | .name ident p => .name ident (f p)
  | .number text isInt p => .number text isInt (f p)
  | .string value p => .string value (f p)
  | .bool value p => .bool value (f p)
  | .null p => .null (f p)

def movedAll (f : Position → Position) : List Node → List Node
  | [] => []
  | n :: ns => moved f n :: movedAll f ns

def movedOpt (f : Position → Position) : Option (List Node) → Option (List Node)
  | none => none
  | some ns => some (movedAll f ns)

end

@[simp] theorem movedAll_eq (f : Position → Position) (ns : List Node) :
    movedAll f ns = ns.map (moved f) := by
  induction ns with
  | nil => rfl
  | cons n ns ih => rw [movedAll, ih, map_cons]

@[simp] theorem movedOpt_eq (f : Position → Position) (ns : Option (List Node)) :
    movedOpt f ns = ns.map (List.map (moved f)) := by
  cases ns with
  | none => rfl
  | some ns => rw [movedOpt, movedAll_eq, Option.map_some]

@[simp] theorem moved_id (n : Node) : n.moved id = n := by
  apply @Node.rec (fun n => n.moved id = n) (fun ns => ns.map (moved id) = ns)
    (fun o => o.map (List.map (moved id)) = o)
  all_goals intros
  all_goals simp_all

@[simp] theorem bare_moved (f : Position → Position) (n : Node) : (n.moved f).bare = n.bare := by
  apply @Node.rec (fun n => (n.moved f).bare = n.bare)
    (fun ns => (ns.map (moved f)).map bare = ns.map bare)
    (fun o => (o.map (List.map (moved f))).map (List.map bare) = o.map (List.map bare))
  all_goals intros
  all_goals simp_all

/-- With all places moved to the same one, none is left. -/
theorem moved_start (n : Node) : n.moved (fun _ => .start) = n.bare := by
  apply @Node.rec (fun n => n.moved (fun _ => .start) = n.bare)
    (fun ns => ns.map (moved fun _ => .start) = ns.map bare)
    (fun o => o.map (List.map (moved fun _ => .start)) = o.map (List.map bare))
  all_goals intros
  all_goals simp_all

@[simp] theorem ident?_moved (n : Node) : (n.moved f).ident? = n.ident? := by
  cases n <;> rfl

@[simp] theorem isMissing_moved (n : Node) : (n.moved f).isMissing = n.isMissing := by
  cases n <;> rfl

theorem pos?_moved (n : Node) : (n.moved f).pos? = n.pos?.map f := by
  cases n <;> rfl

@[simp] theorem getD_moved (ns : Option (List Node)) :
    (ns.map (List.map (moved f))).getD [] = (ns.getD []).map (moved f) := by
  cases ns <;> rfl

/-- The parts that are run to find where to assign. -/
def operands : Node → List Node
  | .access base key _ _ => [base, key]
  | _ => []

end Node

/-- A function with the places of its parameters and its body moved. -/
def Closure.moved (f : Position → Position) (c : Closure) : Closure :=
  { c with params := c.params.map (List.map (Node.moved f)), body := c.body.map (Node.moved f) }

theorem Closure.moved_id (c : Closure) : c.moved id = c := by
  have same : Node.moved id = id := funext Node.moved_id
  simp [Closure.moved, same]

/-! ### Equality up to places -/

/-- A failure without the place it is reported at. -/
def Failure.bare : Failure → Failure
  | .report r => .report { r with pos := .start }
  | f => f

def Halt.bare : Halt → Halt
  | .failed f => .failed f.bare
  | .outOfFuel => .outOfFuel

/-- A record without its name, which tells where it was entered. -/
def RecordOf.bare (r : Record) : Record := { r with name := "" }

/-- The same without places, and the same at all if places stay where they are. -/
def Upto (f : Position → Position) (bare : α → α) (a b : α) : Prop := bare a = bare b ∧ (f = id → a = b)

namespace Upto

variable {bare : α → α} {a b c : α} {s s' : Store}

theorem refl (a : α) : Upto f bare a a := ⟨rfl, fun _ => rfl⟩

theorem symm (h : Upto f bare a b) : Upto f bare b a := ⟨h.1.symm, fun hf => (h.2 hf).symm⟩

theorem trans (h : Upto f bare a b) (h' : Upto f bare b c) : Upto f bare a c :=
  ⟨h.1.trans h'.1, fun hf => (h.2 hf).trans (h'.2 hf)⟩

theorem report (p : Position) (i : Issue) :
    Upto f Halt.bare (.failed (.report ⟨.interpreter, p, i⟩)) (.failed (.report ⟨.interpreter, f p, i⟩)) :=
  ⟨rfl, fun hf => by rw [hf]; rfl⟩

/-- What does not depend on places is the same for both stores. -/
theorem congr_store (h : Upto f Store.bare s s') (g : Store → β) (hg : ∀ s : Store, g s.bare = g s) :
    g s = g s' := by
  rw [← hg s, h.1, hg]

/-- A slot has the same value in both stores, or functions that differ in places only. -/
theorem get? (h : Upto f Store.bare s s') (x : Slot) : s.get? x = s'.get? x ∨
    ∃ c c', s.get? x = some (.func c) ∧ s'.get? x = some (.func c') ∧ Upto f Closure.bare c c' := by
  have hb : (s.get? x).map Value.bare = (s'.get? x).map Value.bare := by
    rw [← Store.get?_bare, h.1, Store.get?_bare]
  rcases Value.eq_or_func hb with e | ⟨c, c', e, e', hc⟩
  · exact .inl e
  · refine .inr ⟨c, c', e, e', hc, fun hf => ?_⟩
    rw [h.2 hf, e'] at e
    cases e
    rfl

end Upto

/-- What is looked at in the record that a run is in. -/
structure RecordOf.Twin (f : Position → Position) (r r' : Record) : Prop where
  kind : r.kind = r'.kind
  members : r.members = r'.members
  state : r.state = r'.state
  retval : r.retval = r'.retval
  name : f = id → r.name = r'.name

theorem RecordOf.Twin.refl (r : Record) : r.Twin f r := ⟨rfl, rfl, rfl, rfl, fun _ => rfl⟩

/-- The reason to halt with which an issue at a node is reported. -/
def Node.haltAt (n : Node) (i : Issue) : Halt :=
  match n.pos? with
  | some p => .failed (.report ⟨.interpreter, p, i⟩)
  | none => .failed (.fault .missingPart)

theorem reportAt_eq (n : Node) (i : Issue) : (Exec.reportAt n i : Exec α) = throw (n.haltAt i) := by
  unfold Exec.reportAt Node.haltAt
  cases n.pos? <;> rfl

theorem Upto.haltAt (n : Node) (i : Issue) : Upto f Halt.bare (n.haltAt i) ((n.moved f).haltAt i) := by
  unfold Node.haltAt
  rw [pos?_moved]
  cases n.pos? with
  | none => exact .refl _
  | some p => exact .report p i

/-! ### Actions of the machine -/

/-- Actions outside of records entered later are related by `R`, those inside by `R'`. -/
structure Walk (f : Position → Position) (R R' : {α : Type} → Exec α → Exec α → Prop) : Prop where
  pure {α : Type} (a : α) : R (Pure.pure a : Exec α) (Pure.pure a)
  bind {α β : Type} {x y : Exec α} {g h : α → Exec β} (hx : R x y) (hg : ∀ a, R (g a) (h a)) :
    R (x >>= g) (y >>= h)
  halt {α : Type} {e e' : Halt} (he : Upto f Halt.bare e e') : R (throw e : Exec α) (throw e')
  /-- Handlers only ever halt. -/
  turn {α : Type} {k : Handled} {x y : Exec α} {e e' : k.Error → Halt}
    (he : ∀ o, Upto f Halt.bare (e o) (e' o)) (hx : R x y) :
    R (k.turn (fun o => throw (e o)) x) (k.turn (fun o => throw (e' o)) y)
  read {α : Type} {g h : Machine → Exec α}
    (hg : ∀ m m', Upto f Store.bare m.store m'.store → R (g m) (h m')) :
    R (MonadState.get >>= g) (MonadState.get >>= h)
  mem {α : Type} {z : Mem α} (hz : z.Blind) : R (Exec.mem z : Exec α) (Exec.mem z)
  alloc {v w : Value} (h : Upto f Value.bare v w) :
    R (Exec.mem (Mem.alloc v) : Exec Ref) (Exec.mem (Mem.alloc w))
  ofExcept {α : Type} (z : Except Failure α) : R (Exec.ofExcept z : Exec α) (Exec.ofExcept z)
  emit (s : String) : R (Exec.emit s : Exec Unit) (Exec.emit s)
  readLine : R (Exec.readLine : Exec String) Exec.readLine
  getName (x : String) (p : Position) : R (Exec.getName x p : Exec Slot) (Exec.getName x (f p))
  setName (x : String) (p : Position) (v : Slot) (force : Bool) :
    R (Exec.setName x p v force : Exec Unit) (Exec.setName x (f p) v force)
  sendJump (st : RecordState) {goal : RecordKind} (hg : goal ≠ .block) (word : String) :
    R (Eval.sendJump st goal word) (Eval.sendJump st goal word)
  setRetval (v : Slot) :
    R (Exec.modifyRecords (CallStack.setRetval v)) (Exec.modifyRecords (CallStack.setRetval v))
  within {α : Type} {r r' : Record} {x y : Exec α} (hr : Upto f RecordOf.bare r r') (hx : R' x y) :
    R (Exec.within r x) (Exec.within r' y)

/-- Also what is done with the record that a run is in is related by `R`. -/
structure Inside (f : Position → Position) (R : {α : Type} → Exec α → Exec α → Prop) : Prop
    extends Walk f R R where
  current {α : Type} {g h : Record → Exec α} (hg : ∀ r r', r.Twin f r' → R (g r) (h r')) :
    R (Exec.currentRecord >>= g) (Exec.currentRecord >>= h)
  bindTop (x : String) (b : Binding) :
    R (Exec.modifyStack (·.modifyTop (·.set x b))) (Exec.modifyStack (·.modifyTop (·.set x b)))
  setState (st : RecordState) : R (Exec.setState st) (Exec.setState st)
  noteJump {name name' : String} (what : String) (h : f = id → name = name') :
    R (Exec.noteJump name what) (Exec.noteJump name' what)

namespace Walk

variable {R R' : {α : Type} → Exec α → Exec α → Prop} (hR : Walk f R R')
include hR

theorem map {x y : Exec α} (g : α → β) (hx : R x y) : R (g <$> x) (g <$> y) :=
  hR.bind hx fun a => hR.pure (g a)

omit hR in
theorem ite {c : Prop} [Decidable c] {x y x' y' : Exec α} (hx : R x y) (hx' : R x' y') :
    R (if c then x else x') (if c then y else y') := by
  split
  · exact hx
  · exact hx'

theorem fail (e : Failure) : R (Exec.fail e : Exec α) (Exec.fail e) := hR.halt (.refl _)

theorem fault (e : Fault) : R (Exec.fault e : Exec α) (Exec.fault e) := hR.halt (.refl _)

theorem report (p : Position) (i : Issue) : R (Exec.report p i : Exec α) (Exec.report (f p) i) :=
  hR.halt (.report p i)

theorem reportAt (n : Node) (i : Issue) :
    R (Exec.reportAt n i : Exec α) (Exec.reportAt (n.moved f) i) := by
  rw [reportAt_eq, reportAt_eq]
  exact hR.halt (.haltAt n i)

theorem text (v : Slot) : R (Exec.text v : Exec String) (Exec.text v) := by
  refine hR.read (g := fun m => Exec.ofExcept (m.store.text v))
    (h := fun m => Exec.ofExcept (m.store.text v)) fun m m' hs => ?_
  rw [hs.congr_store (·.text v) fun s => s.text_bare v]
  exact hR.ofExcept _

theorem container (c : Slot) {x y x' y' : Exec α} (hx : R x x') (hy : R y y') :
    R (do
        match (← MonadState.get).store.get? c with
        | some (.list _) | some (.map _) => x
        | _ => y)
      (do
        match (← MonadState.get).store.get? c with
        | some (.list _) | some (.map _) => x'
        | _ => y') := by
  refine hR.read fun m m' hs => ?_
  rcases hs.get? c with e | ⟨_, _, e, e', -⟩
  · rw [e]
    split
    · exact hx
    · exact hx
    · exact hy
  · rw [e, e']
    exact hy

theorem new {v w : Value} (h : Upto f Value.bare v w) : R (Eval.new v : Exec Slot) (Eval.new w) :=
  hR.map _ (hR.alloc h)

theorem newNull : R (some <$> Exec.mem Mem.newNull : Exec Slot) (some <$> Exec.mem Mem.newNull) :=
  hR.new (.refl Value.null)

theorem statement {x y : Exec Unit} (h : R x y) : R (Eval.statement x) (Eval.statement y) :=
  hR.bind h fun _ => hR.pure _

/-! ### Host functions -/

theorem print (args : List Slot) : R (Host.print args : Exec Unit) (Host.print args) := by
  induction args with
  | nil => exact hR.pure _
  | cons v vs ih =>
    cases vs with
    | nil => exact hR.bind (hR.text v) fun _ => hR.emit _
    | cons u us => exact hR.bind (hR.text v) fun _ => hR.bind (hR.emit _) fun _ => ih

theorem promptOf (args : List Slot) : R (Host.promptOf args : Exec _) (Host.promptOf args) := by
  cases args with
  | nil => exact hR.pure _
  | cons x _ =>
    refine hR.read fun m m' hs => ?_
    rw [hs.congr_store (·.prompt x) fun s => s.prompt_bare x]
    split
    · exact hR.fault _
    · exact hR.pure _

theorem wanted (args : List Slot) : R (Host.wanted args : Exec _) (Host.wanted args) := by
  unfold Host.wanted
  split
  · rename_i x _
    refine hR.read fun m m' hs => ?_
    rcases hs.get? x with e | ⟨_, _, e, e', -⟩
    · rw [e]
      split
      · exact hR.pure _
      · exact hR.pure _
      · exact hR.fail _
    · rw [e, e']
      exact hR.fail _
  · exact hR.pure _

theorem input (args : List Slot) : R (Host.input args : Exec Ref) (Host.input args) := by
  refine hR.bind (hR.promptOf args) fun prompt => hR.bind (hR.wanted args) fun w => ?_
  refine hR.bind (hR.ofExcept prompt) fun s => hR.bind (hR.emit s) fun _ => ?_
  refine hR.bind hR.readLine fun line => ?_
  split
  · exact hR.alloc (.refl _)
  · exact hR.fail _

theorem hostRun (action : HostAction) (args : List Slot) :
    R (Host.run action args : Exec _) (Host.run action args) := by
  unfold Host.run
  split
  · exact hR.bind (hR.print args) fun _ => hR.pure _
  · exact hR.bind (hR.bind (hR.print args) fun _ => hR.emit _) fun _ => hR.pure _
  · exact hR.bind (hR.input args) fun _ => hR.pure _
  · exact hR.pure _

/-! ### Operators, members and jumps -/

theorem runOp (op : TokenKind) (p : Position) {z : Option (Mem Slot)}
    (hz : ∀ x, z = some x → Mem.Blind x) :
    R (Eval.runOp op p z : Exec Slot) (Eval.runOp op (f p) z) := by
  cases z with
  | none => exact hR.report _ _
  | some x => exact hR.turn (k := .operand) (fun _ => .report p _) (hR.mem (hz x rfl))

theorem runBinary (op : TokenKind) (a b : Slot) (p : Position) :
    R (Eval.runBinary op a b p : Exec Slot) (Eval.runBinary op a b (f p)) := by
  unfold Eval.runBinary
  split
  · refine hR.runOp _ _ fun x hx => ?_
    obtain ⟨y, hy, rfl⟩ := Option.map_eq_some_iff.1 hx
    exact .bind (Mem.blind_of_binaryOp? hy) Mem.blind_negate
  · exact hR.runOp _ _ fun x hx => Mem.blind_of_binaryOp? hx

theorem getMember (c key : Slot) : R (Eval.getMember c key : Exec Slot) (Eval.getMember c key) := by
  refine hR.bind (hR.mem (Mem.blind_member? c key)) fun v => ?_
  split
  · exact hR.pure _
  · refine hR.bind (hR.emit _) fun _ => hR.read fun m m' hs => ?_
    rw [hs.congr_store (·.repr c) fun s => s.repr_bare c]
    exact hR.bind (hR.ofExcept _) fun _ => hR.bind (hR.emit _) fun _ =>
      hR.bind (hR.text key) fun _ => hR.fail _

theorem jumpLoop (st : RecordState) (word : String) (p : Position) :
    R (Eval.jumpLoop st word p) (Eval.jumpLoop st word (f p)) :=
  hR.bind (hR.sendJump _ (by decide) _) fun _ => ite (hR.pure _) (hR.report _ _)

theorem funcDef (params : Option (List Node)) (vararg : Bool) (body : List Node) :
    R (do Eval.new (.func (← Exec.ofExcept (Closure.make params vararg body))))
      (do Eval.new (.func (← Exec.ofExcept
        (Closure.make (params.map (List.map (moved f))) vararg (body.map (moved f)))))) := by
  have names : Closure.paramNames (params.map (List.map (moved f))) = Closure.paramNames params := by
    cases params with
    | none => rfl
    | some ps => simp [Closure.paramNames, mapM_map, Function.comp_def]
  simp only [Closure.make, names]
  cases Closure.paramNames params with
  | error e => exact hR.fail _
  | ok xs =>
    refine hR.new ⟨?_, ?_⟩
    · simp [Value.bare, Closure.bare, Function.comp_def]
    · rintro rfl
      have same : moved id = id := funext moved_id
      simp [same]

/-! ### Parts of nodes -/

section Parts

variable {visit visit' : Node → Exec Slot} {n : Node} {ns : List Node}

theorem runAll (hv : ∀ n ∈ ns, R (visit n) (visit' (n.moved f))) :
    R (Eval.runAll visit ns) (Eval.runAll visit' (ns.map (moved f))) := by
  induction ns with
  | nil => exact hR.pure _
  | cons n ns ih =>
    obtain ⟨h, hs⟩ := forall_mem_cons.1 hv
    exact hR.bind h fun _ => ih hs

theorem values (hv : ∀ n ∈ ns, R (visit n) (visit' (n.moved f))) :
    R (Eval.values visit ns) (Eval.values visit' (ns.map (moved f))) := by
  induction ns with
  | nil => exact hR.pure _
  | cons n ns ih =>
    obtain ⟨h, hs⟩ := forall_mem_cons.1 hv
    exact hR.bind h fun _ => hR.bind (ih hs) fun _ => hR.pure _

theorem valueOr (v : Value) (hv : R (visit n) (visit' (n.moved f))) :
    R (Eval.valueOr visit v n) (Eval.valueOr visit' v (n.moved f)) := by
  unfold Eval.valueOr
  rw [isMissing_moved]
  exact ite (hR.new (.refl v)) hv

theorem condition (hv : R (visit n) (visit' (n.moved f))) :
    R (Eval.condition visit n) (Eval.condition visit' (n.moved f)) := by
  unfold Eval.condition
  simp only [reportAt_eq]
  exact hR.turn (k := .operand) (fun _ => .haltAt n _) (hR.bind hv fun v => hR.mem (Mem.blind_truth v))

theorem valuesFor (count : Nat) (hv : ∀ n ∈ ns, R (visit n) (visit' (n.moved f))) :
    R (Eval.valuesFor visit count ns) (Eval.valuesFor visit' count (ns.map (moved f))) := by
  induction count generalizing ns with
  | zero => exact hR.pure _
  | succ count ih =>
    cases ns with
    | nil => exact hR.bind (hR.mem Mem.blind_newNull) fun _ => hR.bind (ih hv) fun _ => hR.pure _
    | cons n ns =>
      obtain ⟨h, hs⟩ := forall_mem_cons.1 hv
      exact hR.bind h fun _ => hR.bind (ih hs) fun _ => hR.pure _

theorem assignTo (hv : ∀ k ∈ n.operands, R (visit k) (visit' (k.moved f))) (v : Slot) :
    R (Eval.assignTo visit n v) (Eval.assignTo visit' (n.moved f) v) := by
  cases n with
  | name x p => exact hR.setName _ _ _ _
  | access base key dot p =>
    obtain ⟨hb, hk⟩ := by simpa [Node.operands] using hv
    refine hR.bind hb fun c => hR.container c (hR.turn (k := .member) (fun _ => .report p _) ?_) (hR.reportAt base _)
    exact hR.bind hk fun k => hR.mem (Mem.blind_setMember c k v)
  | _ => exact hR.fault _

theorem assignAll (hv : ∀ n ∈ ns, ∀ k ∈ n.operands, R (visit k) (visit' (k.moved f))) (vs : List Slot) :
    R (Eval.assignAll visit ns vs) (Eval.assignAll visit' (ns.map (moved f)) vs) := by
  induction ns generalizing vs with
  | nil => exact hR.pure _
  | cons n ns ih =>
    obtain ⟨h, hs⟩ := forall_mem_cons.1 hv
    cases vs with
    | nil => exact hR.pure _
    | cons v vs => exact hR.bind (hR.assignTo h v) fun _ => ih hs vs

theorem rangeBound (hv : R (visit n) (visit' (n.moved f))) :
    R (Eval.rangeBound visit n) (Eval.rangeBound visit' (n.moved f)) := by
  refine hR.bind hv fun v => hR.read fun m m' hs => ?_
  rcases hs.get? v with e | ⟨_, _, e, e', -⟩
  · rw [e]
    split
    · exact hR.pure _
    · exact hR.reportAt n _
  · rw [e, e']
    exact hR.reportAt n _

theorem rangeValues {start stop step : Node} (hs : R (visit start) (visit' (start.moved f)))
    (he : R (visit stop) (visit' (stop.moved f))) (hd : R (visit step) (visit' (step.moved f))) :
    R (Eval.rangeValues visit start stop step)
      (Eval.rangeValues visit' (start.moved f) (stop.moved f) (step.moved f)) :=
  hR.bind (hR.rangeBound hs) fun _ => hR.bind (hR.rangeBound he) fun _ =>
    hR.bind (hR.valueOr _ hd) fun _ => hR.pure _

theorem runAccess {base key : Node} (hb : R (visit base) (visit' (base.moved f)))
    (hk : R (visit key) (visit' (key.moved f))) (p : Position) :
    R (Eval.runAccess visit base key p) (Eval.runAccess visit' (base.moved f) (key.moved f) (f p)) :=
  hR.bind hb fun c => hR.bind hk fun k =>
    hR.container c (hR.turn (k := .member) (fun _ => .report p _) (hR.getMember c k)) (hR.report _ _)

theorem jumpReturn (hv : R (visit n) (visit' (n.moved f))) (p : Position) :
    R (Eval.jumpReturn visit n p) (Eval.jumpReturn visit' (n.moved f) (f p)) :=
  hR.bind (hR.sendJump _ (by decide) _) fun _ =>
    ite (hR.bind (hR.valueOr _ hv) fun v => hR.setRetval v) (hR.report _ _)

section Pairs

variable {cs : List (Node × Node)}
  (hv : ∀ c ∈ cs, R (visit c.1) (visit' (c.1.moved f)) ∧ R (visit c.2) (visit' (c.2.moved f)))
include hv

theorem runBranches :
    R (Eval.runBranches visit cs) (Eval.runBranches visit' (cs.map (Prod.map (moved f) (moved f)))) := by
  induction cs with
  | nil => exact hR.pure _
  | cons c cs ih =>
    obtain ⟨h, hs⟩ := forall_mem_cons.1 hv
    exact hR.bind (hR.condition h.1) fun _ => ite (hR.bind h.2 fun _ => hR.pure _) (ih hs)

theorem runCases (subject : Slot) : R (Eval.runCases visit subject cs)
    (Eval.runCases visit' subject (cs.map (Prod.map (moved f) (moved f)))) := by
  induction cs with
  | nil => exact hR.pure _
  | cons c cs ih =>
    obtain ⟨h, hs⟩ := forall_mem_cons.1 hv
    exact hR.bind h.1 fun v => hR.bind (hR.mem (Mem.blind_equals subject v)) fun _ =>
      ite (hR.bind h.2 fun _ => hR.pure _) (ih hs)

theorem fillMap (c : Ref) :
    R (Eval.fillMap visit c cs) (Eval.fillMap visit' c (cs.map (Prod.map (moved f) (moved f)))) := by
  induction cs with
  | nil => exact hR.pure _
  | cons e es ih =>
    obtain ⟨h, hs⟩ := forall_mem_cons.1 hv
    exact hR.bind h.1 fun k => hR.bind (hR.valueOr .null h.2) fun v =>
      hR.bind (hR.mem (Mem.blind_setMember _ k v)) fun _ => ih hs

end Pairs

/-! ### Calls -/

theorem argument (hv : ∀ n ∈ ns, R (visit n) (visit' (n.moved f))) :
    R (Eval.argument visit ns) (Eval.argument visit' (ns.map (moved f))) := by
  cases ns with
  | nil => exact hR.pure _
  | cons a as =>
    have h := hv a mem_cons_self
    cases a with
    | missing => exact hR.pure _
    | _ => exact h

theorem bindParams (r : Record) (ps : List Node) (hv : ∀ n ∈ ns, R (visit n) (visit' (n.moved f))) :
    R (Eval.bindParams visit r ps ns) (Eval.bindParams visit' r (ps.map (moved f)) (ns.map (moved f))) := by
  induction ps generalizing r ns with
  | nil => exact hR.pure _
  | cons p ps ih =>
    unfold Eval.bindParams
    simp only [map_cons, ident?_moved, ← map_tail]
    split
    · exact hR.fault _
    · exact hR.bind (hR.argument hv) fun _ => ih _ fun n hn => hv n (mem_of_mem_tail hn)

theorem callHost (action : HostAction) {args : Option (List Node)}
    (hv : ∀ n ∈ args.getD [], R (visit n) (visit' (n.moved f))) (p : Position) :
    R (Eval.callHost visit action args p)
      (Eval.callHost visit' action (args.map (List.map (moved f))) (f p)) := by
  unfold Eval.callHost
  rw [getD_moved]
  refine hR.bind (hR.values hv) fun vs => ?_
  refine hR.bind (hR.turn (k := .operand) (fun _ => .report p _) (hR.hostRun action vs)) fun result => ?_
  split
  · exact hR.pure _
  · exact hR.newNull
  · exact hR.report _ _

end Parts

end Walk

/-! ### Inside a record -/

namespace Inside

variable {R : {α : Type} → Exec α → Exec α → Prop} (hR : Inside f R)
include hR

theorem declareAll (isConst : Bool) (ns : List Node) (vs : List Slot) :
    R (Eval.declareAll isConst ns vs : Exec Unit) (Eval.declareAll isConst (ns.map (moved f)) vs) := by
  induction ns generalizing vs with
  | nil => exact hR.pure _
  | cons n ns ih =>
    cases vs with
    | nil => exact hR.pure _
    | cons v vs =>
      cases n with
      | name x p =>
        refine hR.current fun r r' h => ?_
        have hx : r.has x = r'.has x := by simp only [RecordOf.has, RecordOf.get?, h.members]
        rw [hx]
        exact Walk.ite (hR.report _ _) (hR.bind (hR.bindTop _ _) fun _ => ih vs)
      | _ => exact hR.fault _

theorem bindEntry (key val : Node) (k v : Slot) :
    R (Eval.bindEntry key val k v : Exec Unit) (Eval.bindEntry (key.moved f) (val.moved f) k v) := by
  simp only [Eval.bindEntry, ident?_moved, isMissing_moved]
  refine Walk.ite ?_ (hR.bind ?_ fun _ => ?_)
  all_goals
    split
    · exact hR.bindTop _ _
    · exact hR.fault _

theorem reset {r r' : Record} (h : r.Twin f r') (what : String) (b : Bool) :
    R (do Exec.setState .normal; Exec.noteJump r.name what; return b)
      (do Exec.setState .normal; Exec.noteJump r'.name what; return b) :=
  hR.bind (hR.setState _) fun _ => hR.bind (hR.noteJump _ h.name) fun _ => hR.pure _

theorem settleBlock : R Eval.settleBlock Eval.settleBlock := by
  refine hR.current fun r r' h => ?_
  rw [h.state]
  split
  · exact hR.pure _
  all_goals exact hR.reset h _ _

theorem settleLoop : R Eval.settleLoop Eval.settleLoop := by
  refine hR.current fun r r' h => ?_
  rw [h.state]
  split
  · exact hR.pure _
  all_goals exact hR.reset h _ _

theorem settleFunction : R Eval.settleFunction Eval.settleFunction := by
  refine hR.current fun r r' h => ?_
  rw [h.state]
  split
  · exact hR.reset h _ _
  · exact hR.pure _

/-! ### Rounds -/

variable {visit visit' : Node → Exec Slot} (hv : ∀ n, R (visit n) (visit' (n.moved f)))
include hv

theorem runSettled {settle : Exec Bool} (hs : R settle settle) (ns : List Node) :
    R (Eval.runSettled visit settle ns) (Eval.runSettled visit' settle (ns.map (moved f))) := by
  induction ns with
  | nil => exact hR.pure _
  | cons n ns ih =>
    exact hR.bind (hv n) fun _ => hR.bind hs fun _ => Walk.ite ih (hR.pure _)

theorem rangeRound (x : String) (p : Position) (stop step : Slot) (body : Node) :
    R (Eval.rangeRound visit x p stop step body)
      (Eval.rangeRound visit' x (f p) stop step (body.moved f)) := by
  refine hR.bind (hR.getName x p) fun v => hR.bind (hR.mem (Mem.blind_less v stop)) fun _ =>
    Walk.ite ?_ (hR.pure _)
  refine hR.bind (hv body) fun _ => hR.bind hR.settleLoop fun _ => Walk.ite ?_ (hR.pure _)
  exact hR.bind (hR.mem (Mem.blind_add v step)) fun _ => hR.bind (hR.setName _ _ _ _) fun _ => hR.pure _

theorem eachRound (key val : Node) (c : Slot) (body : Node) (k : Slot) :
    R (Eval.eachRound visit key val c body k)
      (Eval.eachRound visit' (key.moved f) (val.moved f) c (body.moved f) k) := by
  refine hR.bind (hR.mem (Mem.blind_next c k)) fun kv => hR.read fun m m' hs => ?_
  have go : R
      (do
        Eval.bindEntry key val kv.1 kv.2
        let _ ← visit body
        return if ← Eval.settleLoop then some kv.1 else none)
      (do
        Eval.bindEntry (key.moved f) (val.moved f) kv.1 kv.2
        let _ ← visit' (body.moved f)
        return if ← Eval.settleLoop then some kv.1 else none) :=
    hR.bind (hR.bindEntry _ _ _ _) fun _ => hR.bind (hv body) fun _ =>
      hR.bind hR.settleLoop fun _ => hR.pure _
  rcases hs.get? kv.1 with e | ⟨_, _, e, e', -⟩
  · simp only [e]
    split
    · exact hR.pure _
    · exact go
  · simp only [e, e']
    exact go

end Inside

/-! ### Nodes -/

namespace Node

/-- The parts that are run in the record that the node is run in. -/
def here : Node → List Node
  | .program stats => stats
  | .declare _ inits _ _ => inits.getD []
  | .branch conds bodies _ => conds ++ bodies
  | .switch subject cases bodies fallback _ => subject :: fallback :: (cases ++ bodies)
  | .forRange _ start stop step _ _ => [start, stop, step]
  | .returnValue expr _ => [expr]
  | .assign targets sources _ => targets.flatMap operands ++ sources
  | .update _ target source _ => [target, source]
  | .call callee args _ => callee :: args.getD []
  | .select cond yes no _ => [cond, yes, no]
  | .binary _ left right _ => [left, right]
  | .unary _ operand _ => [operand]
  | .listOf items _ => items.getD []
  | .mapOf keys values _ => keys ++ values
  | .access base key _ _ => [base, key]
  | _ => []

end Node

/-- The record of a call may be named after its parameters are bound. -/
theorem Eval.bindParams_name (visit : Node → Exec Slot) (name : String) (r : Record) (ps args : List Node) :
    Eval.bindParams visit { r with name := name } ps args =
      (fun r => { r with name := name }) <$> Eval.bindParams visit r ps args := by
  induction ps generalizing r args with
  | nil => rfl
  | cons p ps ih =>
    unfold Eval.bindParams
    cases p.ident? with
    | none => rfl
    | some x =>
      simp only [map_bind]
      exact congrArg (Eval.argument visit args >>= ·) (funext fun v => ih (r.set x ⟨v, false⟩) args.tail)

/-- A call of a function may be changed into one of the same function at other places. -/
def Swaps (f : Position → Position) (R : {α : Type} → Exec α → Exec α → Prop)
    (visit : Node → Exec Slot) : Prop :=
  ∀ {c c' : Closure}, Upto f Closure.bare c c' → ∀ {x : Exec Slot} {args : Option (List Node)}
    {p : Position}, R x (Eval.callClosure visit (c.moved f) args p) → R x (Eval.callClosure visit c' args p)

namespace Walk

variable {R R' : {α : Type} → Exec α → Exec α → Prop} (hR : Walk f R R') (hI : Inside f R')
  {visit visit' : Node → Exec Slot} (hv : ∀ n, R' (visit n) (visit' (n.moved f)))
include hR hI hv

theorem callClosure (c : Closure) {args : Option (List Node)}
    (ha : ∀ n ∈ args.getD [], R (visit n) (visit' (n.moved f))) (p : Position) :
    R (Eval.callClosure visit c args p)
      (Eval.callClosure visit' (c.moved f) (args.map (List.map (moved f))) (f p)) := by
  have params : (c.moved f).params.getD [] = (c.params.getD []).map (moved f) := getD_moved c.params
  have further : R (Eval.checkFurther c args p)
      (Eval.checkFurther (c.moved f) (args.map (List.map (moved f))) (f p)) := by
    unfold Eval.checkFurther
    refine ite ?_ (hR.pure _)
    cases args with
    | none => exact hR.fault _
    | some args =>
      simp only [Option.map_some, params, length_map]
      exact ite (hR.report _ _) (hR.pure _)
  -- the parameters are bound in a record without a name
  have start : ∀ name : String, ({ name := name, kind := .function } : Record) =
      { ({ name := "", kind := .function } : Record) with name := name } := fun _ => rfl
  unfold Eval.callClosure Eval.callRecord
  rw [params, getD_moved, start s!"{c.signature}<{p.render}>", Eval.bindParams_name,
    start s!"{(c.moved f).signature}<{(f p).render}>", Eval.bindParams_name]
  simp only [map_eq_pure_bind, bind_assoc, pure_bind]
  refine hR.bind (hR.bindParams _ _ ha) fun r => hR.bind further fun _ => hR.within ⟨rfl, ?_⟩
    (hI.bind (hI.runSettled hv hI.settleFunction c.body) fun _ => hI.current fun r r' h => ?_)
  · rintro rfl
    rfl
  · rw [h.retval]
    split
    · exact hI.pure _
    · exact hI.newNull

/-! ### Loops -/

variable {n n' : Nat} (hn : ∀ {γ : Type} {step step' : γ → Exec (Option γ)},
  (∀ c, R' (step c) (step' c)) → ∀ c, R' (Eval.iterate step n c) (Eval.iterate step' n' c))
include hn

omit hR hI hv hn in
theorem upto_loopRecord (word : String) (p : Position) :
    Upto f RecordOf.bare (Eval.loopRecord word p) (Eval.loopRecord word (f p)) :=
  ⟨rfl, fun hf => by rw [hf]; rfl⟩

theorem runRepeat (cond body : Node) (p : Position) :
    R (Eval.runRepeat n visit cond body p)
      (Eval.runRepeat n' visit' (cond.moved f) (body.moved f) (f p)) :=
  hR.within (upto_loopRecord _ p) (hn (fun _ => hI.bind (hv body) fun _ => hI.bind hI.settleLoop fun _ =>
    ite (hI.bind (hI.condition (hv cond)) fun _ => hI.pure _) (hI.pure _)) ())

theorem runWhile (cond body : Node) (p : Position) :
    R (Eval.runWhile n visit cond body p)
      (Eval.runWhile n' visit' (cond.moved f) (body.moved f) (f p)) :=
  hR.within (upto_loopRecord _ p) (hn (fun _ => hI.bind (hI.condition (hv cond)) fun _ =>
    ite (hI.bind (hv body) fun _ => hI.bind hI.settleLoop fun _ => hI.pure _) (hI.pure _)) ())

theorem runRange (var body : Node) {start stop step : Node} (p : Position)
    (values : R (Eval.rangeValues visit start stop step)
      (Eval.rangeValues visit' (start.moved f) (stop.moved f) (step.moved f))) :
    R (Eval.runRange n visit var start stop step body p) (Eval.runRange n' visit' (var.moved f)
      (start.moved f) (stop.moved f) (step.moved f) (body.moved f) (f p)) := by
  refine hR.bind values fun v => ?_
  obtain ⟨s, e, d⟩ := v
  cases var with
  | name x q =>
    refine hR.within ⟨rfl, ?_⟩ (hn (fun _ => hI.rangeRound hv x q e d body) ())
    rintro rfl
    rfl
  | _ => exact hR.fault _

theorem runEach (key val subject body : Node) (p : Position) :
    R (Eval.runEach n visit key val subject body p) (Eval.runEach n' visit' (key.moved f)
      (val.moved f) (subject.moved f) (body.moved f) (f p)) :=
  hR.within (upto_loopRecord _ p) (hI.bind (hv subject) fun c => hI.container c
    (hI.bind (hI.mem Mem.blind_newNull) fun _ => hn (hI.eachRound hv key val c body) _) (hI.report _ _))

/-- Runs of a node are related if runs of its parts are. Only a declaration changes the record that it
is run in. -/
theorem visitWith {node : Node} (here : ∀ k ∈ node.here, R (visit k) (visit' (k.moved f)))
    (own : ∀ names inits isConst p, node = .declare names inits isConst p → Inside f R)
    (swaps : Swaps f R visit') :
    R (Eval.visitWith n visit node) (Eval.visitWith n' visit' (node.moved f)) := by
  have clauses : ∀ as bs : List Node, (as.map (moved f)).zip (bs.map (moved f)) =
      (as.zip bs).map (Prod.map (moved f) (moved f)) := fun _ _ => zip_map ..
  have pairs : ∀ {as bs : List Node}, (∀ k ∈ as ++ bs, R (visit k) (visit' (k.moved f))) →
      ∀ c ∈ as.zip bs, R (visit c.1) (visit' (c.1.moved f)) ∧ R (visit c.2) (visit' (c.2.moved f)) :=
    fun h c hc => ⟨h _ (mem_append_left _ (of_mem_zip hc).1),
      h _ (mem_append_right _ (of_mem_zip hc).2)⟩
  cases node <;> simp only [moved, movedAll_eq, movedOpt_eq, Eval.visitWith, clauses, getD_moved,
    length_map, isMissing_moved] <;> simp only [Node.here, forall_mem_cons] at here
  case missing => exact hR.fail _
  case empty => exact hR.pure _
  case program stats => exact hR.statement (hR.runAll here)
  case block stats p =>
    refine hR.statement (hR.within ⟨rfl, ?_⟩ (hI.runSettled hv hI.settleBlock stats))
    rintro rfl
    rfl
  case declare names inits isConst p =>
    exact hR.statement (hR.bind (hR.valuesFor _ here) fun vs =>
      (own _ _ _ _ rfl).declareAll isConst names vs)
  case branch conds bodies p => exact hR.statement (hR.runBranches (pairs here))
  case switch subject cases bodies fallback p =>
    exact hR.statement (hR.bind here.1 fun v => hR.bind (hR.runCases (pairs here.2.2) v) fun _ =>
      ite (hR.pure _) (ite (hR.pure _) (hR.bind here.2.1 fun _ => hR.pure _)))
  case repeatUntil cond body p => exact hR.statement (hR.runRepeat hI hv hn cond body p)
  case whileLoop cond body p => exact hR.statement (hR.runWhile hI hv hn cond body p)
  case forRange var start stop step body p =>
    exact hR.statement (hR.runRange hI hv hn var body p (hR.rangeValues here.1 here.2.1 here.2.2.1))
  case forEach key val subject body p => exact hR.statement (hR.runEach hI hv hn _ _ _ _ p)
  case breakLoop p => exact hR.statement (hR.jumpLoop _ _ p)
  case continueLoop p => exact hR.statement (hR.jumpLoop _ _ p)
  case returnValue expr p => exact hR.statement (hR.jumpReturn here.1 p)
  case assign targets sources p =>
    refine hR.statement (hR.bind (hR.valuesFor _ fun k hk => here k (mem_append_right _ hk))
      fun vs => hR.assignAll (fun t ht k hk => ?_) vs)
    exact here k (mem_append_left _ (mem_flatMap.2 ⟨t, ht, hk⟩))
  case update op target source p =>
    exact hR.statement (hR.bind here.1 fun a => hR.bind here.2.1 fun b =>
      hR.bind (hR.runOp _ p fun x hx => Mem.blind_of_binaryOp? hx) fun _ => hR.pure _)
  case funcDef params vararg body p => exact hR.funcDef params vararg body
  case call callee args p =>
    refine hR.bind here.1 fun g => hR.read fun m m' hs => ?_
    have call := fun c => hR.callClosure hI hv c here.2 p
    rcases hs.get? g with e | ⟨c, c', e, e', h⟩
    · rw [e]
      split
      · exact hR.callHost _ here.2 p
      · exact swaps (.refl _) (call _)
      · exact hR.fault _
    · rw [e, e']
      exact swaps h (call c)
  case select cond yes no p =>
    exact hR.bind (hR.condition here.1) fun _ => ite here.2.1 here.2.2.1
  case binary op left right p =>
    exact hR.bind here.1 fun _ => hR.bind here.2.1 fun _ => hR.runBinary _ _ _ p
  case unary op operand p =>
    exact hR.bind here.1 fun _ => hR.runOp _ p fun x hx => Mem.blind_of_unaryOp? hx
  case listOf items p => exact hR.bind (hR.values here) fun _ => hR.new (.refl _)
  case mapOf keys values p =>
    exact hR.bind (hR.mem (.alloc rfl)) fun c => hR.bind (hR.fillMap (pairs here) c) fun _ => hR.pure _
  case setOf items p => exact hR.report p _
  case access base key dot p => exact hR.runAccess here.1 here.2.1 p
  case name x p => exact hR.getName x p
  case number text isInt p => exact hR.bind (hR.ofExcept _) fun _ => hR.new (.refl _)
  case string value p => exact hR.new (.refl _)
  case bool value p => exact hR.new (.refl _)
  case null p => exact hR.new (.refl _)

end Walk

/-! ### Runs of one node -/

/-- What is to be shown of a relation between runs of one and the same node. -/
structure Respected (R : {α : Type} → Exec α → Exec α → Prop) : Prop where
  pure {α : Type} (a : α) : R (Pure.pure a : Exec α) (Pure.pure a)
  bind {α β : Type} {x y : Exec α} {g h : α → Exec β} (hx : R x y) (hg : ∀ a, R (g a) (h a)) :
    R (x >>= g) (y >>= h)
  halt {α : Type} (e : Halt) : R (throw e : Exec α) (throw e)
  /-- What is done next depends on the store and the stack of the machine, and on nothing else of it. -/
  read {α : Type} {g h : Machine → Exec α}
    (hg : ∀ m m', m.store = m'.store → m.stack = m'.stack → R (g m) (h m')) :
    R (MonadState.get >>= g) (MonadState.get >>= h)
  mem {α : Type} (z : Mem α) : R (Exec.mem z : Exec α) (Exec.mem z)
  ofExcept {α : Type} (z : Except Failure α) : R (Exec.ofExcept z : Exec α) (Exec.ofExcept z)
  emit (s : String) : R (Exec.emit s : Exec Unit) (Exec.emit s)
  log (l : LogLevel) (s : String) : R (Exec.log l s : Exec Unit) (Exec.log l s)
  readLine : R (Exec.readLine : Exec String) Exec.readLine
  modifyStack {g : CallStack → CallStack} (hg : ∀ cs, (g cs).skeleton = cs.skeleton) :
    R (Exec.modifyStack g) (Exec.modifyStack g)
  within {α : Type} {r : Record} {x y : Exec α} (hx : R x y) : R (Exec.within r x) (Exec.within r y)
  /-- Handlers only ever halt. -/
  turn {α : Type} {k : Handled} {handle : k.Error → Exec α} {x y : Exec α}
    (hh : ∀ e, ∃ h, ∀ m, handle e m = .error h m) (hx : R x y) : R (k.turn handle x) (k.turn handle y)

namespace Respected

variable {R : {α : Type} → Exec α → Exec α → Prop} (hR : Respected R)
include hR

theorem modifyRecords {g : List Record → List Record}
    (hg : ∀ rs, (g rs).map (·.skeleton) = rs.map (·.skeleton)) :
    R (Exec.modifyRecords g) (Exec.modifyRecords g) :=
  hR.modifyStack fun cs => by simp only [CallStackOf.skeleton, hg]

theorem noteJumps (what : String) (names : List String) :
    R (Exec.noteJumps what names : Exec Unit) (Exec.noteJumps what names) := by
  induction names with
  | nil => exact hR.pure _
  | cons name names ih => exact hR.bind (hR.log _ _) fun _ => ih

theorem sendJump (st : RecordState) (goal : RecordKind) (word : String) :
    R (Eval.sendJump st goal word) (Eval.sendJump st goal word) := by
  -- the records that are changed are those that were looked at
  have e : Eval.sendJump st goal word = (do
      let j := CallStack.jump st goal (← MonadState.get).stack.records
      Exec.modifyRecords fun rs => (CallStack.jump st goal rs).records
      Exec.noteJumps s!"set {word}" j.passed
      return j.found) := rfl
  rw [e]
  refine hR.read fun m m' _ hk => ?_
  rw [hk]
  exact hR.bind (hR.modifyRecords (CallStack.skeleton_jump st goal)) fun _ =>
    hR.bind (hR.noteJumps _ _) fun _ => hR.pure _

theorem inside : Inside id R where
  pure := hR.pure
  bind := hR.bind
  halt he := he.2 rfl ▸ hR.halt _
  turn he hx := by
    rw [funext fun o => (he o).2 rfl]
    exact hR.turn (fun _ => ⟨_, fun _ => rfl⟩) hx
  read hg := hR.read fun m m' hs _ => hg m m' (hs ▸ .refl _)
  mem _ := hR.mem _
  alloc h := h.2 rfl ▸ hR.mem _
  ofExcept := hR.ofExcept
  emit := hR.emit
  readLine := hR.readLine
  getName x p := by
    refine hR.read fun m m' _ hk => ?_
    rw [hk]
    split
    · exact hR.pure _
    · exact hR.halt _
  setName x p v force := by
    refine hR.read fun m m' _ hk => ?_
    rw [hk]
    split
    · exact hR.halt _
    · exact Walk.ite (hR.halt _) (hR.modifyRecords (CallStack.skeleton_rebind x v))
  sendJump st _ _ word := hR.sendJump st _ word
  setRetval v := hR.modifyRecords (CallStack.skeleton_setRetval v)
  within hr hx := hr.2 rfl ▸ hR.within hx
  current hg := by
    refine hR.bind (hR.read fun m m' _ hk => ?_) fun r => hg r r (.refl r)
    rw [hk]
    split
    · exact hR.pure _
    · exact hR.halt _
  bindTop x b := hR.modifyStack fun cs => cs.skeleton_modifyTop fun _ => rfl
  setState st := hR.modifyStack fun cs => cs.skeleton_modifyTop fun _ => rfl
  noteJump what h := h rfl ▸ hR.log _ _

omit hR in
theorem swaps_id (visit : Node → Exec Slot) : Swaps id R visit := by
  intro c c' h x args p hx
  obtain rfl := h.2 rfl
  rwa [Closure.moved_id] at hx

theorem visitWith {visit visit' : Node → Exec Slot} (hv : ∀ n, R (visit n) (visit' n)) {n n' : Nat}
    (hn : ∀ {γ : Type} {step step' : γ → Exec (Option γ)}, (∀ c, R (step c) (step' c)) →
      ∀ c, R (Eval.iterate step n c) (Eval.iterate step' n' c)) (node : Node) :
    R (Eval.visitWith n visit node) (Eval.visitWith n' visit' node) := by
  have hv' : ∀ n : Node, R (visit n) (visit' (n.moved id)) := fun n => by
    rw [moved_id]
    exact hv n
  have step := hR.inside.toWalk.visitWith hR.inside hv' hn (fun k _ => hv' k)
    (fun _ _ _ _ (_ : node = _) => hR.inside) (swaps_id visit')
  rwa [moved_id] at step

end Respected

end TinyScript
