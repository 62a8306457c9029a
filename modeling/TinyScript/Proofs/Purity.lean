import TinyScript.Proofs.Renaming
import TinyScript.Proofs.Update

/-!
# Expressions without calls are values

An expression without calls has no effect but new cells, and cells that are added before it is
evaluated have no effect on it: it fails or has the same value, with its new cells further up
(`shifts_visit`). So it does not matter where, among other such expressions, it is evaluated.
-/

namespace TinyScript

open Exec List

variable {α β : Type} {n d : Nat}
variable {x' : Exec α} {s t : Store} {v : Slot}

/-! ### Handlers -/

/-- Both actions lack fuel, or none of them does. -/
def Halt.Like (e e' : Halt) : Prop := e = .outOfFuel ↔ e' = .outOfFuel

theorem Halt.like_failed (f f' : Failure) : Like (.failed f) (.failed f') := by
  constructor <;> intro h <;> cases h

namespace Exec

variable {x : Exec α} {m m' : Machine}

theorem reportAt_fails (n : Node) (i : Issue) (m : Machine) :
    ∃ f, (reportAt n i : Exec α) m = .error (.failed f) m := by
  unfold reportAt
  cases n.pos? with
  | none => exact ⟨_, rfl⟩
  | some p => exact ⟨_, rfl⟩

/-- The second action is the first one, but for what it says when it fails. -/
def Reworded (x x' : Exec α) : Prop :=
  ∀ m, x' m = x m ∨ ∃ f f' m', x m = .error (.failed f) m' ∧ x' m = .error (.failed f') m'

/-- A handler that only ever halts does not save an action from failing. -/
theorem reworded_turn (k : Handled) {handle : k.Error → Exec α}
    (hh : ∀ e m, ∃ f, handle e m = .error (.failed f) m) : Reworded x (k.turn handle x) := by
  intro m
  rcases k.turn_cases handle x m with same | ⟨e, m', failed, handled⟩
  · exact .inl same
  · obtain ⟨f, halts⟩ := hh e m'
    exact .inr ⟨_, f, m', failed, handled.trans halts⟩

theorem Reworded.of_ok {a : α} (hx : Reworded x x') (h : x m = .ok a m') : x' m = .ok a m' := by
  rcases hx m with same | ⟨_, _, _, failed, -⟩
  · exact same.trans h
  · rw [h] at failed
    cases failed

theorem Reworded.of_error {e : Halt} (hx : Reworded x x') (h : x m = .error e m') :
    ∃ e', x' m = .error e' m' ∧ e'.Like e := by
  rcases hx m with same | ⟨f, f', m₁, failed, failed'⟩
  · exact ⟨e, same.trans h, Iff.rfl⟩
  · rw [h] at failed
    cases failed
    exact ⟨_, failed', Halt.like_failed f' f⟩

end Exec

/-! ### Actions on machines in step with each other -/

/-- The second machine has `d` cells more than the first one, which stand after the first `n`. No
name leads to later cells. -/
structure MachineOf.Shifted (n d : Nat) (m t : Machine) : Prop where
  store : m.store.Shifted n d t.store
  stack : t.stack = m.stack
  records : ∀ r ∈ m.stack.records, r.Sound n

/-- The actions are in step on machines one of which has `d` cells more. -/
abbrev Exec.Shifts (n d : Nat) (g : α → β) (x : Exec α) (y : Exec β) : Prop :=
  Tandem Halt.Like (MachineOf.Shifted n d) g x y

namespace Exec.Shifts

variable {g : α → β} {x : Exec α} {y : Exec β}

theorem mem {x : Mem α} {y : Mem β} (h : Mem.Shifts n d g x y) :
    Shifts n d g (Exec.mem x) (Exec.mem y) := by
  intro m t hm
  have ended := h _ _ hm.store
  unfold Exec.mem
  revert ended
  generalize x m.store = r
  generalize y t.store = r'
  intro ended
  cases ended with
  | ok hs => exact .ok ⟨hs, hm.stack, hm.records⟩
  | error => exact .error (Halt.like_failed _ _)

theorem get {p : Machine → Exec α} {q : Machine → Exec β}
    (h : ∀ m t, MachineOf.Shifted n d m t → Shifts n d g (p m) (q t)) :
    Shifts n d g (MonadState.get >>= p) (MonadState.get >>= q) :=
  fun m t hm => h m t hm m t hm

theorem ofExcept (x : Except Failure α) : Shifts n d id (Exec.ofExcept x) (Exec.ofExcept x) := by
  cases x with
  | ok a => exact .pure a
  | error f => exact .throw (Halt.like_failed _ _)

theorem reworded {y' : Exec β} (h : Shifts n d g x y) (hx : Reworded x x') (hy : Reworded y y') :
    Shifts n d g x' y' := by
  intro m t hm
  have ended := h m t hm
  generalize hr : x m = r at ended
  generalize hr' : y t = r' at ended
  cases ended with
  | ok hm =>
    rw [hx.of_ok hr, hy.of_ok hr']
    exact .ok hm
  | error like =>
    obtain ⟨_, e, he⟩ := hx.of_error hr
    obtain ⟨_, e', he'⟩ := hy.of_error hr'
    exact .of_errors e e' (he.trans (like.trans he'.symm))

theorem new (v : Value) : Shifts n d (Option.map (Ref.shift n d)) (Eval.new v)
    (Eval.new (v.rename (Ref.shift n d))) :=
  .map (mem (.alloc v)) fun _ => rfl

theorem getName (x : String) (p : Position) :
    Shifts n d (Option.map (Ref.shift n d)) (Exec.getName x p) (Exec.getName x p) := by
  refine get fun m t hm => ?_
  rw [hm.stack]
  cases h : CallStack.valueOf? x m.stack.records with
  | none => exact .throw (Halt.like_failed _ _)
  | some r =>
    have fixed : (some r : Slot).map (Ref.shift n d) = some r :=
      congrArg some (Ref.shift_of_lt (CallStack.lt_of_valueOf? hm.records h))
    have same := Tandem.pure (E := Halt.Like) (R := MachineOf.Shifted n d)
      (g := Option.map (Ref.shift n d)) (some r)
    rwa [fixed] at same

/-! ### Operators -/

theorem binaryOp (op : TokenKind) (a b : Slot) :
    Option.Rel (Mem.Shifts n d (Option.map (Ref.shift n d))) (Eval.binaryOp? op a b)
      (Eval.binaryOp? op (a.map (Ref.shift n d)) (b.map (Ref.shift n d))) := by
  have new {x y : Mem Ref} (h : Mem.Shifts n d (Ref.shift n d) x y) :
      Mem.Shifts n d (Option.map (Ref.shift n d)) (some <$> x) (some <$> y) :=
    .map h fun _ => rfl
  have result {x y : Mem Value} (h : Mem.Shifts n d (Value.rename (Ref.shift n d)) x y) :
      Mem.Shifts n d (Ref.shift n d) (do Mem.alloc (← x)) (do Mem.alloc (← y)) :=
    .bind h Mem.Shifts.alloc
  have change {x y : Mem Value} (h : Mem.Shifts n d (Value.rename (Ref.shift n d)) x y) :
      Mem.Shifts n d (Option.map (Ref.shift n d))
        ((fun _ => none) <$> (do Mem.writeSlot a (← x)))
        ((fun _ => none) <$> (do Mem.writeSlot (a.map (Ref.shift n d)) (← y))) :=
    .map (.bind h (Mem.Shifts.writeSlot a)) fun _ => rfl
  cases op with
  | eq => exact .some (new (Mem.Shifts.eq a b))
  | lt => exact .some (new (Mem.Shifts.lt a b))
  | le => exact .some (new (Mem.Shifts.le a b))
  | add => exact .some (new (result (Mem.Shifts.sum a b)))
  | sub | mul | div => exact .some (new (result (Mem.Shifts.arithmetic a b _)))
  | selfAdd => exact .some (change (Mem.Shifts.sum a b))
  | selfSub => exact .some (change (Mem.Shifts.arithmetic a b _))
  | _ => exact .none

theorem unaryOp (op : TokenKind) (a : Slot) :
    Option.Rel (Mem.Shifts n d (Option.map (Ref.shift n d))) (Eval.unaryOp? op a)
      (Eval.unaryOp? op (a.map (Ref.shift n d))) := by
  cases op with
  | add => exact .some (.plus a)
  | sub => exact .some (.map (Mem.Shifts.minus a) fun _ => rfl)
  | kwNot => exact .some (.map (Mem.Shifts.not a) fun _ => rfl)
  | _ => exact .none

theorem runOp (op : TokenKind) (p : Position) {x y : Option (Mem Slot)} {g : Slot → Slot}
    (h : Option.Rel (Mem.Shifts n d g) x y) :
    Shifts n d g (Eval.runOp op p x) (Eval.runOp op p y) := by
  cases h with
  | none => exact .throw (Halt.like_failed _ _)
  | some h =>
    exact reworded (mem h) (reworded_turn .operand fun _ _ => ⟨_, rfl⟩) (reworded_turn .operand fun _ _ => ⟨_, rfl⟩)

theorem runBinary (op : TokenKind) (a b : Slot) (p : Position) :
    Shifts n d (Option.map (Ref.shift n d)) (Eval.runBinary op a b p)
      (Eval.runBinary op (a.map (Ref.shift n d)) (b.map (Ref.shift n d)) p) := by
  unfold Eval.runBinary
  cases Eval.negatedOp? op with
  | none => exact runOp op p (binaryOp op a b)
  | some op' =>
    refine runOp op' p ?_
    have operation := binaryOp (n := n) (d := d) op' a b
    revert operation
    generalize Eval.binaryOp? op' a b = x
    generalize Eval.binaryOp? op' (a.map (Ref.shift n d)) (b.map (Ref.shift n d)) = y
    intro operation
    cases operation with
    | none => exact .none
    | some h => exact .some (.bind h Mem.Shifts.negate)

/-! ### Members -/

theorem getMember (c key : Slot) : Shifts n d (Option.map (Ref.shift n d)) (Eval.getMember c key)
    (Eval.getMember (c.map (Ref.shift n d)) (key.map (Ref.shift n d))) := by
  refine .bind (mem (.member? c key)) fun v => ?_
  cases v with
  | some v => exact .pure v
  | none =>
    intro m t _
    obtain ⟨_, e⟩ := keyNotFound_fails (α := Slot) c key m
    obtain ⟨_, e'⟩ := keyNotFound_fails (α := Slot) (c.map (Ref.shift n d)) (key.map (Ref.shift n d)) t
    exact .of_errors e e' (Halt.like_failed _ _)

/-! ### Parts of expressions -/

section Parts

variable {visit : Node → Exec Slot}
  (hv : ∀ e : Node, e.CallFree → Shifts n d (Option.map (Ref.shift n d)) (visit e) (visit e))
variable {e : Node}
include hv

theorem values {es : List Node} (hc : ∀ e ∈ es, e.CallFree) :
    Shifts n d (List.map (Option.map (Ref.shift n d))) (Eval.values visit es)
      (Eval.values visit es) := by
  induction es with
  | nil => exact .pure []
  | cons e es ih =>
    obtain ⟨hc, hcs⟩ := forall_mem_cons.1 hc
    exact .bind (hv e hc) fun v => .bind (ih hcs) fun vs => .pure (v :: vs)

theorem condition (hc : e.CallFree) : Shifts n d id (Eval.condition visit e) (Eval.condition visit e) :=
  reworded (.bind (hv e hc) fun v => mem (.truth v))
    (reworded_turn .operand fun _ m => reportAt_fails e _ m)
    (reworded_turn .operand fun _ m => reportAt_fails e _ m)

theorem fillMap (c : Ref) {entries : List (Node × Node)}
    (hc : ∀ e ∈ entries, e.1.CallFree ∧ e.2.CallFree) :
    Shifts n d id (Eval.fillMap visit c entries) (Eval.fillMap visit (c.shift n d) entries) := by
  induction entries with
  | nil => exact .pure ()
  | cons e es ih =>
    obtain ⟨hc, hcs⟩ := forall_mem_cons.1 hc
    refine .bind (hv e.1 hc.1) fun k => .bind (.ite (new .null) (hv e.2 hc.2)) fun v => ?_
    exact .bind (mem (.setMember (some c) k v)) fun _ => ih hcs

theorem runAccess {base key : Node} (hb : base.CallFree) (hk : key.CallFree) (p : Position) :
    Shifts n d (Option.map (Ref.shift n d)) (Eval.runAccess visit base key p)
      (Eval.runAccess visit base key p) := by
  refine .bind (hv base hb) fun c => .bind (hv key hk) fun k => ?_
  refine get fun m t hm => ?_
  rw [hm.store.renamed.get?]
  have member : Shifts n d (Option.map (Ref.shift n d))
      (Exec.onMember (fun e => report p (.member e)) (Eval.getMember c k))
      (Exec.onMember (fun e => report p (.member e))
        (Eval.getMember (c.map (Ref.shift n d)) (k.map (Ref.shift n d)))) :=
    reworded (getMember c k) (reworded_turn .member fun _ _ => ⟨_, rfl⟩) (reworded_turn .member fun _ _ => ⟨_, rfl⟩)
  cases m.store.get? c with
  | none => exact .throw (Halt.like_failed _ _)
  | some v =>
    cases v with
    | list _ => exact member
    | map _ => exact member
    | _ => exact .throw (Halt.like_failed _ _)

theorem visitWith (k : Nat) (hc : e.CallFree) :
    Shifts n d (Option.map (Ref.shift n d)) (Eval.visitWith k visit e) (Eval.visitWith k visit e) := by
  cases hc with
  | funcDef => exact .bind (ofExcept _) fun f => new (.func f)
  | select hc hy hn => exact .bind (condition hv hc) fun _ => .ite (hv _ hy) (hv _ hn)
  | binary hl hr => exact .bind (hv _ hl) fun a => .bind (hv _ hr) fun b => runBinary _ a b _
  | unary ho => exact .bind (hv _ ho) fun a => runOp _ _ (unaryOp _ a)
  | listOf hi => exact .bind (values hv hi) fun vs => new (.list vs)
  | mapOf hk hvals =>
    refine .bind (mem (.alloc (.map .empty))) fun c => .bind (fillMap hv c ?_) fun _ => .pure (some c)
    exact fun e he => ⟨hk e.1 (of_mem_zip he).1, hvals e.2 (of_mem_zip he).2⟩
  | setOf hi => exact .throw (Halt.like_failed _ _)
  | access hb hk => exact runAccess hv hb hk _
  | name => exact getName _ _
  | @number text isInt p =>
    simp only [Eval.visitWith]
    cases h : Eval.literal text isInt with
    | error f => exact fun _ _ _ => .error (Halt.like_failed _ _)
    | ok v =>
      have made := new (n := n) (d := d) v
      rwa [(Sim.literal_sound h).rename_eq fun _ => Ref.shift_of_lt] at made
  | string => exact new (.str _)
  | bool => exact new (.bool _)
  | null => exact new .null

end Parts

end Exec.Shifts

/-- Expressions without calls are evaluated in step. -/
theorem shifts_visit (k : Nat) : ∀ e : Node, e.CallFree →
    Shifts n d (Option.map (Ref.shift n d)) (Eval.visit k e) (Eval.visit k e) := by
  induction k with
  | zero => exact fun _ _ => .throw Iff.rfl
  | succ k ih => exact fun e hc => Exec.Shifts.visitWith ih k hc

/-! ### Values in larger stores -/

/-- What `u` is in `s` is `v` in `t`: the cells of `s` are found in `t` under other names, but the
first `n` under their own. -/
def Store.Copies (n : Nat) (s : Store) (u : Slot) (t : Store) (v : Slot) : Prop :=
  ∃ f : Ref → Ref, Function.Injective f ∧ (∀ r, r.index < n → f r = r) ∧
    (∀ r, r.index < s.cells.size → (f r).index < t.cells.size ∧ t.get (f r) = (s.get r).rename f) ∧
    v = u.map f

/-- What was there before is not copied. -/
theorem Store.Copies.eq_of_lt {r : Ref} (h : Copies n s (some r) t v) (hr : r.index < n) :
    v = some r := by
  obtain ⟨f, -, fixed, -, rfl⟩ := h
  exact congrArg some (fixed r hr)

theorem Store.Copies.grow {t' : Store} {u : Slot} (h : Copies n s u t v) (hg : t.Grows none t') :
    Copies n s u t' v := by
  obtain ⟨f, injective, fixed, cells, rfl⟩ := h
  refine ⟨f, injective, fixed, fun r hr => ?_, rfl⟩
  obtain ⟨lt, get⟩ := cells r hr
  exact ⟨Nat.lt_of_lt_of_le lt hg.size, (hg.kept _ lt (by simp)).trans get⟩

theorem Store.Shifted.copies (h : Shifted n d s t) (u : Slot) : Copies n s u t (u.map (Ref.shift n d)) :=
  ⟨_, Ref.shift_injective, fun _ => Ref.shift_of_lt,
    fun r hr => ⟨(h.index_shift_lt r).2 hr, h.cells r⟩, rfl⟩

section Grown

variable {m m' t : Machine} {e : Node} {k : Nat}
variable {t' : Machine}

theorem Grown.shifted (hm : m.Sound) (h : Grown none m t) :
    MachineOf.Shifted m.store.cells.size (t.store.cells.size - m.store.cells.size) m t where
  store := .of_grows hm.store h.grows
  stack := by rw [h.rest]
  records := hm.records

/-- An expression without calls that has a value after cells have been added had the same value
before. -/
theorem Grown.exists_visit (hm : m.Sound) (h : Grown none m t) (hc : e.CallFree)
    (run : Eval.visit k e t = .ok v t') :
    ∃ u m', Eval.visit k e m = .ok u m' ∧ Store.Copies m.store.cells.size m'.store u t'.store v := by
  have ended := shifts_visit k e hc m t (h.shifted hm)
  rw [run] at ended
  generalize hr : Eval.visit k e m = r at ended
  cases ended with
  | ok shifted => exact ⟨_, _, rfl, shifted.store.copies _⟩

/-- An expression without calls that has no value after cells have been added had none before. -/
theorem Grown.exists_visit_error (hm : m.Sound) (h : Grown none m t) (hc : e.CallFree) {stop : Halt}
    (run : Eval.visit k e t = .error stop t') :
    ∃ stop' m', Eval.visit k e m = .error stop' m' ∧ stop'.Like stop := by
  have ended := shifts_visit k e hc m t (h.shifted hm)
  rw [run] at ended
  generalize hr : Eval.visit k e m = r at ended
  cases ended with
  | error like => exact ⟨_, _, rfl, like⟩

end Grown

/-! ### No side effects -/

/-- Wherever a session leads, evaluating an expression without calls writes nothing and reads
nothing, and leaves all records and all cells as they are. -/
theorem visit_callFree_frame {m m' : Machine} (hm : Reachable Node.IsProgram m) {e : Node}
    (he : e.IsExpr) (hc : e.CallFree) {k : Nat} {v : Slot} (run : Eval.visit k e m = .ok v m') :
    m'.out = m.out ∧ m'.input = m.input ∧ m'.level = m.level ∧ m'.stack = m.stack ∧
      ∀ r : Ref, r.index < m.store.cells.size → m'.store.get r = m.store.get r := by
  have grown := grown_of_visit he hc (sound_of_reachable hm) run
  have kept (r : Ref) (hr : r.index < m.store.cells.size) : m'.store.get r = m.store.get r :=
    grown.grows.kept r hr (by simp)
  rw [grown.rest]
  exact ⟨rfl, rfl, rfl, rfl, kept⟩

/-- `[+a, {a: b}, a != b ? a : -b]` -/
def mixture : Node :=
  .listOf (some
    [.unary .add (.name "a" ⟨3, 3⟩) ⟨3, 2⟩,
      .mapOf [.name "a" ⟨3, 7⟩] [.name "b" ⟨3, 10⟩] ⟨3, 6⟩,
      .select (.binary .ne (.name "a" ⟨3, 14⟩) (.name "b" ⟨3, 19⟩) ⟨3, 16⟩) (.name "a" ⟨3, 23⟩)
        (.unary .sub (.name "b" ⟨3, 28⟩) ⟨3, 27⟩) ⟨3, 21⟩]) ⟨3, 1⟩

theorem isExpr_mixture : mixture.IsExpr := by
  refine .listOf (forall_mem_cons.2 ⟨.unary .name, forall_mem_cons.2 ⟨?_, ?_⟩⟩)
  · exact .mapOf (forall_mem_singleton.2 .name) (forall_mem_singleton.2 .name)
  · exact forall_mem_singleton.2 (.select (.binary (by decide) .name .name) .name (.unary .name))

theorem callFree_mixture : mixture.CallFree := by
  refine .listOf (forall_mem_cons.2 ⟨.unary .name, forall_mem_cons.2 ⟨?_, ?_⟩⟩)
  · exact .mapOf (forall_mem_singleton.2 .name) (forall_mem_singleton.2 .name)
  · exact forall_mem_singleton.2 (.select (.binary .name .name) .name (.unary .name))

/-- Cells are shared, negated and put into containers, and nothing is changed. -/
theorem visit_callFree_frame_mixture : ∃ v m', Eval.visit 9 mixture shared = .ok v m' ∧
    m'.stack = shared.stack ∧ m'.store.get ⟨12⟩ = shared.store.get ⟨12⟩ := by
  obtain ⟨v, run⟩ := eq_ok_of_succeeds (x := Eval.visit 9 mixture) (m := shared) (by decide +kernel)
  obtain ⟨-, -, -, stack, cells⟩ :=
    visit_callFree_frame reachable_shared isExpr_mixture callFree_mixture run
  exact ⟨v, _, run, stack, cells ⟨12⟩ (by decide +kernel)⟩

end TinyScript
