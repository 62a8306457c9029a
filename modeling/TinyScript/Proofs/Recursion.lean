import Mathlib.Data.Nat.Factorial.Basic
import Mathlib.Data.Nat.Fib.Basic
import TinyScript.Proofs.Agreement
import TinyScript.Proofs.Building
import TinyScript.Proofs.LoopRuns
import TinyScript.Proofs.NameLookup

/-!
# Recursive functions

`Evaluates m e v`: run on the machine `m`, the expression `e` yields the value `v` and does nothing else but
add cells. It is what a call needs of its argument and what it has of its result (`Evaluates.call`), so that
calls in calls compose, and a function that calls itself is followed by induction on what it computes
(`evaluates_factorial`, `evaluates_fibonacci`). All this is at a log level at which jumps are not written.
-/

namespace TinyScript

open Exec CallStack Eval

variable {m m₁ : Machine} {e e₁ e₂ b c : Node} {cs bs : List Node} {v w u : Value} {s : Store}
  {op : TokenKind} {p q : Position} {x y z : Slot}
variable {r : Record} {f : String} {n : Nat}

/-- The expression yields the value in a cell, and only cells are added. -/
def Evaluates (m : Machine) (e : Node) (v : Value) : Prop :=
  ∃ z s, Eval.Gives e m z { m with store := s } ∧ m.store.Grows none s ∧ s.get? z = some v

/-- The machine in the innermost function, at its end. -/
def returned (m : Machine) (s : Store) (y : Ref) : Machine :=
  { m with store := s, stack := m.stack.modifyTop fun r => { r with state := .returned, retval := some y } }

/-- The statement returns the value from the innermost function, and only cells are added. -/
def Returns (m : Machine) (b : Node) (v : Value) : Prop :=
  ∃ y s, Eval.Gives b m none (returned m s y) ∧ m.store.Grows none s ∧ s.get y = v

/-! ### Expressions -/

theorem evaluates_new (v : Value) (h : ∀ k, Eval.visit (k + 1) e m = new v m) : Evaluates m e v := by
  exact ⟨some (m.store.alloc v).1, (m.store.alloc v).2, ⟨1, (h 0).trans rfl⟩, .alloc,
    congrArg some (m.store.get_alloc_self v)⟩

theorem evaluates_number {x : String} (h : literal x true = .ok v) : Evaluates m (.number x true p) v := by
  refine evaluates_new v fun k => bind_of_ok (a := v) ?_
  rw [h]
  rfl

theorem evaluates_true : Evaluates m (.bool "true" p) (.bool true) := evaluates_new _ fun _ => rfl

theorem evaluates_name {x : String} {r : Ref} (h : valueOf? x m.stack.records = some r) (hr : m.store.get r = v) :
    Evaluates m (.name x p) v := by
  refine ⟨some r, m.store, ⟨1, ?_⟩, .refl, congrArg some hr⟩
  exact (getName_eq x p m).trans (by rw [lookUp_eq, h])

/-- Operands that have been found are found by the operator. -/
def Operates (op : TokenKind) (v w u : Value) : Prop :=
  ∀ (m : Machine) (x y : Slot) (p : Position), m.store.get? x = some v → m.store.get? y = some w →
    Eval.runBinary op x y p m = Eval.new u m

theorem operates_sub (a b : Int) : Operates .sub (.num (.int a)) (.num (.int b)) (.num (.int (a - b))) :=
  fun _ _ _ _ hx hy => runOp_eq_new .sub (Mem.arithmetic_eq hx hy)

theorem operates_mul (a b : Int) : Operates .mul (.num (.int a)) (.num (.int b)) (.num (.int (a * b))) :=
  fun _ _ _ _ hx hy => runOp_eq_new .mul (Mem.arithmetic_eq hx hy)

theorem operates_add (a b : Int) : Operates .add (.num (.int a)) (.num (.int b)) (.num (.int (a + b))) :=
  fun _ _ _ _ hx hy => runOp_eq_new .add (Mem.sum_eq hx hy)

theorem runBinary_eq {c : Bool} (h : Mem.equals x y m.store = .ok c m.store) :
    runBinary .eq x y p m = new (.bool c) m := by
  simp [runBinary, negatedOp?, binaryOp?, runOp, onOperand, mem, Mem.eq, bind, EStateM.bind,
    Functor.map, EStateM.map, h, Mem.newBool, Mem.alloc, new]

theorem operates_eq (a b : Int) : Operates .eq (.num (.int a)) (.num (.int b)) (.bool (a == b)) := by
  intro m x y p hx hy
  have hequal : Mem.equals x y m.store = .ok (a == b) m.store := by
    show Mem.ofExcept (Mem.isEqual m.store (m.store.get? x) (m.store.get? y)) m.store = _
    have hab : Number.eq (.int a) (.int b) = (a == b) := by
      rw [Number.eq, Number.compare?, Bool.eq_iff_iff, beq_iff_eq, Option.some_inj, beq_iff_eq, Int.compare_eq_eq]
    rw [hx, hy, ← hab]
    rfl
  exact runBinary_eq hequal

theorem Store.Grows.get?_eq (h : m.store.Grows none s) (hx : m.store.get? x = some v) (hv : v ≠ .blank) :
    s.get? x = some v := by
  obtain ⟨r, rfl, hr⟩ := Option.map_eq_some_iff.1 hx
  exact congrArg some ((h.kept r (Store.lt_of_get_ne (hr ▸ hv)) (by simp)).trans hr)

theorem Evaluates.binary (hop : Operates op v w u) (hv : v ≠ .blank) (h₁ : Evaluates m e₁ v)
    (h₂ : ∀ s, m.store.Grows none s → Evaluates { m with store := s } e₂ w) :
    Evaluates m (.binary op e₁ e₂ p) u := by
  obtain ⟨x, s₁, ⟨k₁, hx⟩, hs₁, hv₁⟩ := h₁
  obtain ⟨y, s₂, ⟨k₂, hy⟩, hs₂, hw₂⟩ := h₂ s₁ hs₁
  have hx₂ : s₂.get? x = some v := Store.Grows.get?_eq (m := { m with store := s₁ }) hs₂ hv₁ hv
  have hrun := hop { m with store := s₂ } x y p hx₂ hw₂
  refine ⟨some (s₂.alloc u).1, (s₂.alloc u).2, ⟨max k₁ k₂ + 1, ?_⟩, (hs₁.trans hs₂).trans .alloc, ?_⟩
  · refine (bind_of_ok (visit_mono (Nat.le_max_left ..) hx)).trans ?_
    exact (bind_of_ok (visit_mono (Nat.le_max_right ..) hy)).trans (hrun.trans rfl)
  · rw [Store.get?, Option.map_some, Store.get_alloc]
    exact congrArg some (if_pos rfl)

/-! ### Statements -/

theorem condition_eq {k : Nat} {t : Bool} (h : Eval.visit k c m = .ok z m₁)
    (hz : m₁.store.get? z = some (.bool t)) : condition (Eval.visit k) c m = .ok t m₁ := by
  have htruth : (Exec.mem (Mem.truth z) : Exec Bool) m₁ = .ok t m₁ := by
    simp [Exec.mem, Mem.truth, Mem.read, bind, EStateM.bind, hz, pure, EStateM.pure]
  rw [condition, onOperand, bind_of_ok h, htruth]

/-- The statement runs the body of its first clause if the condition holds. -/
theorem Returns.pos (hc : Evaluates m c (.bool true))
    (hb : ∀ s, m.store.Grows none s → Returns { m with store := s } b v) :
    Returns m (.branch (c :: cs) (b :: bs) p) v := by
  obtain ⟨z, s₁, ⟨k₁, hz⟩, hs₁, ht⟩ := hc
  obtain ⟨y, s₂, ⟨k₂, hy⟩, hs₂, hv⟩ := hb s₁ hs₁
  refine ⟨y, s₂, ⟨max k₁ k₂ + 1, ?_⟩, hs₁.trans hs₂, hv⟩
  have hcond := condition_eq (visit_mono (Nat.le_max_left k₁ k₂) hz) ht
  show statement (runBranches _ ((c, b) :: cs.zip bs)) m = _
  rw [statement, runBranches, bind_assoc, bind_of_ok hcond, if_pos rfl, bind_assoc]
  exact bind_of_ok (visit_mono (Nat.le_max_right k₁ k₂) hy)

theorem Returns.neg (hc : Evaluates m c (.bool false))
    (hb : ∀ s, m.store.Grows none s → Returns { m with store := s } (.branch cs bs p) v) :
    Returns m (.branch (c :: cs) (b :: bs) p) v := by
  obtain ⟨z, s₁, ⟨k₁, hz⟩, hs₁, ht⟩ := hc
  obtain ⟨y, s₂, ⟨k₂, hy⟩, hs₂, hv⟩ := hb s₁ hs₁
  refine ⟨y, s₂, ⟨max k₁ k₂ + 1, ?_⟩, hs₁.trans hs₂, hv⟩
  have hcond := condition_eq (visit_mono (Nat.le_max_left k₁ k₂) hz) ht
  have hrest := visit_mono (Nat.le_succ_of_le (Nat.le_max_right k₁ k₂)) hy
  show statement (runBranches _ ((c, b) :: cs.zip bs)) m = _
  rw [statement, runBranches, bind_assoc, bind_of_ok hcond, if_neg Bool.false_ne_true]
  exact hrest

/-- The innermost record is that of a function. -/
def InFunction (m : Machine) : Prop := ∃ r rs, m.stack.records = r :: rs ∧ r.kind = .function

/-- The value is found after the function has been marked. -/
theorem Evaluates.returns (hq : m.level < 3) (hm : InFunction m) (he : e.isMissing = false)
    (h : Evaluates { m with stack := m.stack.modifyTop fun r => { r with state := .returned } } e v) :
    Returns m (.returnValue e p) v := by
  obtain ⟨r, rs, hr, hk⟩ := hm
  obtain ⟨z, s, ⟨k, hz⟩, hs, hv⟩ := h
  obtain ⟨c, rfl, hc⟩ := Option.map_eq_some_iff.1 hv
  refine ⟨c, s, ⟨k + 1, ?_⟩, hs, hc⟩
  have hsend := sendJump_quiet hq .returned .function "return"
  show statement (jumpReturn _ e p) m = _
  rw [statement, jumpReturn, bind_assoc, bind_of_ok hsend]
  simp only [returned, CallStackOf.modifyTop, hr, CallStack.jump, hk, if_true] at hz ⊢
  rw [bind_assoc, valueOr, if_neg (by simp [he]), bind_of_ok hz]
  refine (bind_of_ok (bind_of_ok (x := modifyRecords _) rfl)).trans ?_
  simp [CallStack.setRetval, pure, EStateM.pure]

/-! ### Calls -/

/-- The record of a call with one argument. -/
def calling (name x : String) (z : Slot) : Record := { name, kind := .function, members := [(x, ⟨z, false⟩)] }

theorem CallStack.pop_push (cs : CallStack) (r : Record) (g : Record → Record) (hg : ∀ r, (g r).outer = r.outer) :
    ((cs.push r).modifyTop g).pop.2 = cs := by
  simp [CallStackOf.push, CallStackOf.modifyTop, CallStackOf.pop, CallStackOf.current?, hg]

theorem settleFunction_returned (hq : m.level < 3) (h : InFunction m) (s : Store) (y : Ref) :
    settleFunction (returned m s y) = .ok false { returned m s y with
      stack := m.stack.modifyTop fun r => { r with state := .normal, retval := some y } } := by
  obtain ⟨r, rs, hr, -⟩ := h
  have hcur : (currentRecord : Exec Record) (returned m s y) =
      .ok { r with state := .returned, retval := some y } (returned m s y) := by
    rw [currentRecord, bind_of_ok (x := MonadState.get) rfl, CallStackOf.current?, returned,
      CallStackOf.modifyTop, hr]
    rfl
  rw [settleFunction, bind_of_ok hcur]
  have hnormal : setState .normal (returned m s y) = .ok () { returned m s y with
      stack := m.stack.modifyTop fun r => { r with state := .normal, retval := some y } } := by
    have hset : setState .normal (returned m s y) = .ok () { returned m s y with
        stack := (returned m s y).stack.modifyTop fun r => { r with state := .normal } } := rfl
    rw [hset]
    simp [returned, CallStackOf.modifyTop, hr]
  exact (bind_of_ok hnormal).trans (bind_of_ok (log_quiet (by exact hq) (by decide) _))

theorem callClosure_eq {visit : Node → Exec Slot} {f : Closure} {args : Option (List Node)} {s' : Store}
    {y : Ref} (hq : m.level < 3) (hf : f.body = [b]) (hk : r.kind = .function)
    (hr : callRecord visit f args p m = .ok r { m with store := s })
    (hb : visit b { m with store := s, stack := m.stack.push r } =
      .ok none (returned { m with store := s, stack := m.stack.push r } s' y)) :
    callClosure visit f args p m = .ok (some y) { m with store := s' } := by
  have hsettle := settleFunction_returned (m := { m with store := s, stack := m.stack.push r }) hq
    ⟨_, _, rfl, hk⟩ s' y
  have hbody : runSettled visit settleFunction [b] { m with store := s, stack := m.stack.push r } =
      .ok () _ := (bind_of_ok hb).trans (bind_of_ok hsettle)
  rw [callClosure, bind_of_ok hr, within, bind_of_ok (enter_quiet (m := { m with store := s }) hq _), hf,
    bind_assoc, bind_of_ok hbody, bind_assoc]
  refine (bind_of_ok (x := currentRecord) rfl).trans ?_
  refine (bind_of_ok (leave_quiet (by exact hq) rfl)).trans ?_
  have hpop : ((m.stack.push r).modifyTop fun r => { r with state := .normal, retval := some y }).pop.2 = m.stack :=
    CallStack.pop_push m.stack r _ fun _ => rfl
  exact congrArg (fun cs => EStateM.Result.ok (some y) { m with store := s', stack := cs }) hpop

theorem Evaluates.call {g x sig : String} {r : Ref} {q' : Position} (hq : m.level < 3)
    (hg : valueOf? g m.stack.records = some r)
    (hr : m.store.get r = .func ⟨some [.name x q'], false, [b], sig⟩) (he : Evaluates m e v)
    (hb : ∀ z s name, m.store.Grows none s → s.get? z = some v →
      Returns { m with store := s, stack := m.stack.push (calling name x z) } b w) :
    Evaluates m (.call (.name g p) (some [e]) q) w := by
  obtain ⟨z, s₁, ⟨k₁, hz⟩, hs₁, hv⟩ := he
  obtain ⟨y, s₂, ⟨k₂, hy⟩, hs₂, hw⟩ := hb z s₁ s!"{sig}<{q.render}>" hs₁ hv
  have harg : Eval.argument (Eval.visit (max k₁ k₂ + 1)) [e] m = .ok z { m with store := s₁ } := by
    have hz := visit_mono (Nat.le_succ_of_le (Nat.le_max_left k₁ k₂)) hz
    cases e with
    | missing => cases hz
    | _ => exact hz
  have hbody := visit_mono (Nat.le_succ_of_le (Nat.le_max_right k₁ k₂)) hy
  refine ⟨some y, s₂, ⟨max k₁ k₂ + 2, ?_⟩, hs₁.trans hs₂, congrArg some hw⟩
  have hname : Eval.visit (max k₁ k₂ + 1) (.name g p) m = .ok (some r) m :=
    (getName_eq g p m).trans (by rw [lookUp_eq, hg])
  refine (bind_of_ok hname).trans ?_
  refine (bind_of_ok (x := MonadState.get) rfl).trans ?_
  rw [Store.get?, Option.map_some, hr]
  have hrecord : callRecord (Eval.visit (max k₁ k₂ + 1)) ⟨some [.name x q'], false, [b], sig⟩ (some [e]) q m =
      .ok (calling s!"{sig}<{q.render}>" x z) { m with store := s₁ } := by
    have hbind : bindParams (Eval.visit (max k₁ k₂ + 1)) { name := s!"{sig}<{q.render}>", kind := .function }
        [.name x q'] [e] m = .ok (calling s!"{sig}<{q.render}>" x z) { m with store := s₁ } :=
      bind_of_ok harg
    exact bind_of_ok hbind
  exact callClosure_eq hq rfl rfl hrecord hbody

/-! ### The functions -/

def recursion : String :=
"func factorial(n) \x7b
    if n == 0
        return 1
    else
        return n * factorial(n - 1)
\x7d

func fibonacci(n) \x7b
    if n == 0
        return 1
    elif n == 1
        return 1
    else
        return fibonacci(n - 1) + fibonacci(n - 2)
\x7d
"

def recursionTokens : List Token :=
  [⟨.kwFunc, some "func", ⟨1, 1⟩⟩, ⟨.identifier, some "factorial", ⟨1, 6⟩⟩, ⟨.lparen, some "(", ⟨1, 15⟩⟩,
    ⟨.identifier, some "n", ⟨1, 16⟩⟩, ⟨.rparen, some ")", ⟨1, 17⟩⟩, ⟨.lbrace, some "\x7b", ⟨1, 19⟩⟩,
    ⟨.kwIf, some "if", ⟨2, 5⟩⟩, ⟨.identifier, some "n", ⟨2, 8⟩⟩, ⟨.eq, some "==", ⟨2, 10⟩⟩,
    ⟨.intLiteral, some "0", ⟨2, 13⟩⟩, ⟨.kwReturn, some "return", ⟨3, 9⟩⟩, ⟨.intLiteral, some "1", ⟨3, 16⟩⟩,
    ⟨.kwElse, some "else", ⟨4, 5⟩⟩, ⟨.kwReturn, some "return", ⟨5, 9⟩⟩, ⟨.identifier, some "n", ⟨5, 16⟩⟩,
    ⟨.mul, some "*", ⟨5, 18⟩⟩, ⟨.identifier, some "factorial", ⟨5, 20⟩⟩, ⟨.lparen, some "(", ⟨5, 29⟩⟩,
    ⟨.identifier, some "n", ⟨5, 30⟩⟩, ⟨.sub, some "-", ⟨5, 32⟩⟩, ⟨.intLiteral, some "1", ⟨5, 34⟩⟩,
    ⟨.rparen, some ")", ⟨5, 35⟩⟩, ⟨.rbrace, some "\x7d", ⟨6, 1⟩⟩, ⟨.kwFunc, some "func", ⟨8, 1⟩⟩,
    ⟨.identifier, some "fibonacci", ⟨8, 6⟩⟩, ⟨.lparen, some "(", ⟨8, 15⟩⟩, ⟨.identifier, some "n", ⟨8, 16⟩⟩,
    ⟨.rparen, some ")", ⟨8, 17⟩⟩, ⟨.lbrace, some "\x7b", ⟨8, 19⟩⟩, ⟨.kwIf, some "if", ⟨9, 5⟩⟩,
    ⟨.identifier, some "n", ⟨9, 8⟩⟩, ⟨.eq, some "==", ⟨9, 10⟩⟩, ⟨.intLiteral, some "0", ⟨9, 13⟩⟩,
    ⟨.kwReturn, some "return", ⟨10, 9⟩⟩, ⟨.intLiteral, some "1", ⟨10, 16⟩⟩, ⟨.kwElif, some "elif", ⟨11, 5⟩⟩,
    ⟨.identifier, some "n", ⟨11, 10⟩⟩, ⟨.eq, some "==", ⟨11, 12⟩⟩, ⟨.intLiteral, some "1", ⟨11, 15⟩⟩,
    ⟨.kwReturn, some "return", ⟨12, 9⟩⟩, ⟨.intLiteral, some "1", ⟨12, 16⟩⟩, ⟨.kwElse, some "else", ⟨13, 5⟩⟩,
    ⟨.kwReturn, some "return", ⟨14, 9⟩⟩, ⟨.identifier, some "fibonacci", ⟨14, 16⟩⟩, ⟨.lparen, some "(", ⟨14, 25⟩⟩,
    ⟨.identifier, some "n", ⟨14, 26⟩⟩, ⟨.sub, some "-", ⟨14, 28⟩⟩, ⟨.intLiteral, some "1", ⟨14, 30⟩⟩,
    ⟨.rparen, some ")", ⟨14, 31⟩⟩, ⟨.add, some "+", ⟨14, 33⟩⟩, ⟨.identifier, some "fibonacci", ⟨14, 35⟩⟩,
    ⟨.lparen, some "(", ⟨14, 44⟩⟩, ⟨.identifier, some "n", ⟨14, 45⟩⟩, ⟨.sub, some "-", ⟨14, 47⟩⟩,
    ⟨.intLiteral, some "2", ⟨14, 49⟩⟩, ⟨.rparen, some ")", ⟨14, 50⟩⟩, ⟨.rbrace, some "\x7d", ⟨15, 1⟩⟩,
    ⟨.eof, none, ⟨16, 1⟩⟩]

def factorialBody : Node :=
  .branch [.binary .eq (.name "n" ⟨2, 8⟩) (.number "0" true ⟨2, 13⟩) ⟨2, 10⟩, .bool "true" ⟨4, 5⟩]
    [.returnValue (.number "1" true ⟨3, 16⟩) ⟨3, 9⟩,
      .returnValue (.binary .mul (.name "n" ⟨5, 16⟩) (.call (.name "factorial" ⟨5, 20⟩)
        (some [.binary .sub (.name "n" ⟨5, 30⟩) (.number "1" true ⟨5, 34⟩) ⟨5, 32⟩]) ⟨5, 29⟩) ⟨5, 18⟩) ⟨5, 9⟩]
    ⟨2, 5⟩

def fibonacciBody : Node :=
  .branch [.binary .eq (.name "n" ⟨9, 8⟩) (.number "0" true ⟨9, 13⟩) ⟨9, 10⟩,
      .binary .eq (.name "n" ⟨11, 10⟩) (.number "1" true ⟨11, 15⟩) ⟨11, 12⟩, .bool "true" ⟨13, 5⟩]
    [.returnValue (.number "1" true ⟨10, 16⟩) ⟨10, 9⟩, .returnValue (.number "1" true ⟨12, 16⟩) ⟨12, 9⟩,
      .returnValue (.binary .add
        (.call (.name "fibonacci" ⟨14, 16⟩)
          (some [.binary .sub (.name "n" ⟨14, 26⟩) (.number "1" true ⟨14, 30⟩) ⟨14, 28⟩]) ⟨14, 25⟩)
        (.call (.name "fibonacci" ⟨14, 35⟩)
          (some [.binary .sub (.name "n" ⟨14, 45⟩) (.number "2" true ⟨14, 49⟩) ⟨14, 47⟩]) ⟨14, 44⟩) ⟨14, 33⟩) ⟨14, 9⟩]
    ⟨9, 5⟩

/-- `func f(n)` with a body of one statement -/
def defining (f : String) (b : Node) (p q p₁ p₂ : Position) : Node :=
  .declare [.name f p] (some [.funcDef (some [.name "n" q]) false [b] p₁]) true p₂

def recursionTree : Node :=
  .program [defining "factorial" factorialBody ⟨1, 6⟩ ⟨1, 16⟩ ⟨1, 15⟩ ⟨8, 1⟩,
    defining "fibonacci" fibonacciBody ⟨8, 6⟩ ⟨8, 16⟩ ⟨8, 15⟩ ⟨16, 1⟩]

theorem parse_recursion : parse recursion = .ok recursionTree := by
  have hfeed : Feed.ofSource recursion = .ok (Feed.ofList recursionTokens none) := by
    have htokens : tokenize recursion = (recursionTokens, none) := by decide +kernel
    rw [Feed.ofSource, htokens]
    rfl
  exact (parse_eq_ok hfeed).2 ⟨_, rfl⟩

/-- The function of `n` with the given body. -/
abbrev functionOf (q : Position) (b : Node) : Closure :=
  ⟨some [.name "n" q], false, [b], Closure.signatureOf ["n"] false⟩

/-- The name stands for the function with the body. -/
def Defines (m : Machine) (f : String) (b : Node) : Prop :=
  ∃ r q, valueOf? f m.stack.records = some r ∧ m.store.get r = .func (functionOf q b)

/-- Both functions are known, and jumps are not written. -/
structure Ready (m : Machine) : Prop where
  quiet : m.level < 3
  factorial : Defines m "factorial" factorialBody
  fibonacci : Defines m "fibonacci" fibonacciBody

/-- One of the functions is called with the argument `n`. -/
structure Called (m : Machine) (n : Int) : Prop extends Ready m where
  inside : InFunction m
  argument : ∃ c, valueOf? "n" m.stack.records = some c ∧ m.store.get c = .num (.int n)

theorem Defines.grows (h : Defines m f b) (hs : m.store.Grows none s) :
    Defines { m with store := s } f b := by
  obtain ⟨r, q, hr, hf⟩ := h
  exact ⟨r, q, hr, (hs.kept r (Store.lt_of_get_ne (by simp [hf])) (by simp)).trans hf⟩

theorem Ready.grows (h : Ready m) (hs : m.store.Grows none s) : Ready { m with store := s } :=
  ⟨h.quiet, h.factorial.grows hs, h.fibonacci.grows hs⟩

/-- Whether a record is in the way of a name depends on its members only. -/
theorem valueOf?_modifyTop {x : String} {cs : CallStack} {g : Record → Record}
    (hg : ∀ r, (g r).members = r.members) : valueOf? x (cs.modifyTop g).records = valueOf? x cs.records := by
  unfold CallStackOf.modifyTop
  split
  · rfl
  · simp [*, valueOf?, RecordOf.get?]

namespace Called

variable {n : Int}
variable {a : Int} {p₁ p₂ : Position}

theorem grows (h : Called m n) (hs : m.store.Grows none s) : Called { m with store := s } n := by
  obtain ⟨hr, hi, c, hc, hn⟩ := h
  exact ⟨hr.grows hs, hi, c, hc, (hs.kept c (Store.lt_of_get_ne (by simp [hn])) (by simp)).trans hn⟩

theorem marked (h : Called m n) (st : RecordState) :
    Called { m with stack := m.stack.modifyTop fun r => { r with state := st } } n := by
  have hvalue (x : String) : valueOf? x (m.stack.modifyTop fun r => { r with state := st }).records =
      valueOf? x m.stack.records := valueOf?_modifyTop fun _ => rfl
  obtain ⟨⟨hq, hfact, hfib⟩, ⟨r, rs, hr, hk⟩, harg⟩ := h
  refine ⟨⟨hq, ?_, ?_⟩, ⟨{ r with state := st }, rs, by simp [CallStackOf.modifyTop, hr], hk⟩, ?_⟩
  · simpa [Defines, hvalue] using hfact
  · simpa [Defines, hvalue] using hfib
  · simpa [hvalue] using harg

theorem of_call (h : Ready m) (hs : m.store.Grows none s) {name : String}
    (hz : s.get? z = some (.num (.int n))) :
    Called { m with store := s, stack := m.stack.push (calling name "n" z) } n := by
  obtain ⟨hq, hfact, hfib⟩ := h.grows hs
  obtain ⟨c, rfl, hc⟩ := Option.map_eq_some_iff.1 hz
  exact ⟨⟨hq, hfact, hfib⟩, ⟨_, _, rfl, rfl⟩, c, rfl, hc⟩

theorem argument_evaluates (h : Called m n) : Evaluates m (.name "n" p) (.num (.int n)) := by
  obtain ⟨c, hc, hn⟩ := h.argument
  exact evaluates_name hc hn

theorem equals (h : Called m n) {x : String} (hx : literal x true = .ok (.num (.int a))) :
    Evaluates m (.binary .eq (.name "n" p₁) (.number x true p₂) p) (.bool (n == a)) :=
  h.argument_evaluates.binary (operates_eq n a) (by simp) fun _ _ => evaluates_number hx

theorem minus (h : Called m n) {x : String} (hx : literal x true = .ok (.num (.int a))) :
    Evaluates m (.binary .sub (.name "n" p₁) (.number x true p₂) p) (.num (.int (n - a))) :=
  h.argument_evaluates.binary (operates_sub n a) (by simp) fun _ _ => evaluates_number hx

theorem returns (h : Called m n) (he : e.isMissing = false)
    (hv : ∀ m, Called m n → Evaluates m e v) : Returns m (.returnValue e p) v :=
  (hv _ (h.marked .returned)).returns h.quiet h.inside he

end Called

theorem Ready.call {n : Int} (hm : Ready m) (hf : Defines m f b) (he : Evaluates m e (.num (.int n)))
    (hb : ∀ m, Called m n → Returns m b v) : Evaluates m (.call (.name f p) (some [e]) q) v := by
  obtain ⟨r, q', hr, hf⟩ := hf
  exact he.call hm.quiet hr hf fun _ _ _ hs hz => hb _ (.of_call hm hs hz)

theorem literal_zero : literal "0" true = .ok (.num (.int 0)) := by rfl

theorem literal_one : literal "1" true = .ok (.num (.int 1)) := by rfl

/-- `factorial` computes the factorial. -/
theorem evaluates_factorial (hm : Ready m) (he : Evaluates m e (.num (.int n))) :
    Evaluates m (.call (.name "factorial" p) (some [e]) q) (.num (.int n.factorial)) := by
  refine hm.call hm.factorial he fun m h => ?_
  clear hm he
  induction n generalizing m with
  | zero =>
    refine .pos (by simpa using h.equals literal_zero) fun s hs => ?_
    exact (h.grows hs).returns rfl fun _ _ => evaluates_number literal_one
  | succ n ih =>
    have hzero : ((n + 1 : Nat) == (0 : Int)) = false := by simp; omega
    have hpred : ((n + 1 : Nat) : Int) - 1 = n := by omega
    refine .neg (hzero ▸ h.equals literal_zero) fun s hs => .pos evaluates_true fun s' hs' => ?_
    refine ((h.grows hs).grows hs').returns rfl fun m h => ?_
    rw [Nat.factorial_succ, Int.natCast_mul]
    refine h.argument_evaluates.binary (operates_mul _ _) (by simp) fun s hs => ?_
    have hm := (h.grows hs).toReady
    exact hm.call hm.factorial (hpred ▸ (h.grows hs).minus literal_one) ih

/-- `fibonacci` computes the numbers of the sequence 1, 1, 2, 3, 5, ... -/
theorem evaluates_fibonacci (hm : Ready m) (he : Evaluates m e (.num (.int n))) :
    Evaluates m (.call (.name "fibonacci" p) (some [e]) q) (.num (.int (Nat.fib (n + 1)))) := by
  refine hm.call hm.fibonacci he fun m h => ?_
  clear hm he
  induction n using Nat.twoStepInduction generalizing m with
  | zero =>
    refine .pos (by simpa using h.equals literal_zero) fun s hs => ?_
    exact (h.grows hs).returns rfl fun _ _ => evaluates_number literal_one
  | one =>
    refine .neg (by simpa using h.equals literal_zero) fun s hs => ?_
    refine .pos (by simpa using (h.grows hs).equals literal_one) fun s' hs' => ?_
    exact ((h.grows hs).grows hs').returns rfl fun _ _ => evaluates_number literal_one
  | more n ih₀ ih₁ =>
    have hzero : ((n + 2 : Nat) == (0 : Int)) = false := by simp; omega
    have hone : ((n + 2 : Nat) == (1 : Int)) = false := by simp; omega
    have hpred : ((n + 2 : Nat) : Int) - 1 = (n + 1 : Nat) := by omega
    have hpred' : ((n + 2 : Nat) : Int) - 2 = n := by omega
    refine .neg (hzero ▸ h.equals literal_zero) fun s hs => ?_
    refine .neg (hone ▸ (h.grows hs).equals literal_one) fun s' hs' => .pos evaluates_true fun s'' hs'' => ?_
    refine (((h.grows hs).grows hs').grows hs'').returns rfl fun m h => ?_
    rw [Nat.fib_add_two, Nat.add_comm, Int.natCast_add]
    refine .binary (operates_add _ _) (by simp) ?_ fun s hs => ?_
    · exact h.toReady.call h.fibonacci (hpred ▸ h.minus literal_one) ih₁
    · have hm := (h.grows hs).toReady
      exact hm.call hm.fibonacci (hpred' ▸ (h.grows hs).minus (by rfl)) ih₀

/-! ### After their declarations -/

/-- The machine in which a function has just been declared. -/
def declared (m : Machine) (f : String) (q : Position) (b : Node) : Machine :=
  { m with store := (m.store.alloc (.func (functionOf q b))).2,
           stack := m.stack.modifyTop (·.set f ⟨some (m.store.alloc (.func (functionOf q b))).1, true⟩) }

section Declarations

variable {f g : String} {r : Record} {rs : List Record} (hm : m.stack.records = r :: rs)
include hm

theorem visit_defining (hr : r.get? f = none) (k : Nat) (p p₁ p₂ : Position) :
    Eval.visit (k + 2) (defining f b p q p₁ p₂) m = .ok none (declared m f q b) := by
  have hvalues : valuesFor (Eval.visit (k + 1)) 1 [.funcDef (some [.name "n" q]) false [b] p₁] m =
      .ok [some (m.store.alloc (.func (functionOf q b))).1]
        { m with store := (m.store.alloc (.func (functionOf q b))).2 } := rfl
  have hdeclare : declareAll true _ _ _ = _ :=
    declareAll_eq (p := p) (z := some (m.store.alloc (.func (functionOf q b))).1)
    (m := { m with store := (m.store.alloc (.func (functionOf q b))).2 }) hm hr
  exact bind_of_ok ((bind_of_ok hvalues).trans hdeclare)

theorem records_declared : (declared m f q b).stack.records =
    r.set f ⟨some (m.store.alloc (.func (functionOf q b))).1, true⟩ :: rs := by
  simp [declared, CallStackOf.modifyTop, hm]

theorem defines_declared : Defines (declared m f q b) f b := by
  refine ⟨(m.store.alloc (.func (functionOf q b))).1, q, ?_, Store.get_alloc_self ..⟩
  rw [records_declared hm, valueOf?, RecordOf.get?_set, if_pos rfl]
  rfl

theorem Defines.declared (h : Defines m g c) (hne : g ≠ f) : Defines (declared m f q b) g c := by
  obtain ⟨z, q', hz, hg⟩ := h.grows (Store.Grows.alloc (v := .func (functionOf q b)))
  refine ⟨z, q', ?_, hg⟩
  rw [hm, valueOf?] at hz
  rw [records_declared hm, valueOf?, RecordOf.get?_set, if_neg hne]
  exact hz

end Declarations

theorem ready_of_boot (hq : m.level < 3) (hm : m.stack.records = [r])
    (hr : ∀ x, Host.isBuiltin x = false → r.get? x = none) :
    ∃ m', interpret 3 recursionTree m = .ok () m' ∧ Ready m' := by
  have hm₁ := records_declared (f := "factorial") (q := ⟨1, 16⟩) (b := factorialBody) hm
  have hfree : (r.set "factorial" ⟨some (m.store.alloc (.func (functionOf ⟨1, 16⟩ factorialBody))).1, true⟩).get?
      "fibonacci" = none := by
    rw [RecordOf.get?_set, if_neg (by decide), hr "fibonacci" (by decide)]
  have hready : Ready (declared (declared m "factorial" ⟨1, 16⟩ factorialBody) "fibonacci" ⟨8, 16⟩ fibonacciBody) :=
    ⟨hq, (defines_declared hm).declared hm₁ (by decide), defines_declared hm₁⟩
  refine ⟨_, ?_, hready⟩
  have hfirst := visit_defining (q := ⟨1, 16⟩) (b := factorialBody) hm (hr "factorial" (by decide)) 0
    ⟨1, 6⟩ ⟨1, 15⟩ ⟨8, 1⟩
  have hsecond := visit_defining (q := ⟨8, 16⟩) (b := fibonacciBody) hm₁ hfree 0 ⟨8, 6⟩ ⟨8, 15⟩ ⟨16, 1⟩
  exact bind_of_ok (bind_of_ok ((bind_of_ok hfirst).trans (bind_of_ok hsecond)))

/-- Once they have been declared, `factorial` and `fibonacci` compute their functions. -/
theorem recursion_evaluates (input : List Char) {level : Int} (hq : level < 3) :
    ∃ tree m₀ m, parse recursion = .ok tree ∧ Host.boot { input := input, level := level } = .ok () m₀ ∧
      interpret 3 tree m₀ = .ok () m ∧
      (∀ (d : Digits) p, Evaluates m (.number d.text true p) (.num (.int d.value))) ∧
      ∀ (n : Nat) e, Evaluates m e (.num (.int n)) → ∀ p q,
        Evaluates m (.call (.name "factorial" p) (some [e]) q) (.num (.int n.factorial)) ∧
        Evaluates m (.call (.name "fibonacci" p) (some [e]) q) (.num (.int (Nat.fib (n + 1)))) := by
  obtain ⟨m₀, r, hboot, hm₀, hlevel, hfree⟩ := exists_boot input level
  obtain ⟨m, hrun, hm⟩ := ready_of_boot (hlevel ▸ hq) hm₀ hfree
  refine ⟨recursionTree, m₀, m, parse_recursion, hboot, hrun, fun d p => evaluates_number d.literal_text, ?_⟩
  exact fun n e he p q => ⟨evaluates_factorial hm he, evaluates_fibonacci hm he⟩

/-- A call with a numeral, and one whose argument is a call. -/
theorem recursion_evaluates_nested : ∃ tree m₀ m, parse recursion = .ok tree ∧ Host.boot {} = .ok () m₀ ∧
    interpret 3 tree m₀ = .ok () m ∧
    Evaluates m (.call (.name "factorial" ⟨1, 1⟩) (some [.number "20" true ⟨1, 11⟩]) ⟨1, 10⟩)
      (.num (.int 2432902008176640000)) ∧
    Evaluates m (.call (.name "fibonacci" ⟨1, 1⟩)
      (some [.call (.name "factorial" ⟨1, 11⟩) (some [.number "3" true ⟨1, 21⟩]) ⟨1, 20⟩]) ⟨1, 10⟩)
      (.num (.int 13)) := by
  obtain ⟨tree, m₀, m, hparse, hboot, hrun, hlit, hcall⟩ := recursion_evaluates [] (show (1 : Int) < 3 by decide)
  have htwenty := hlit ⟨['2', '0'], by decide, by simp, by decide⟩ ⟨1, 11⟩
  have hthree := hlit ⟨['3'], by decide, by simp, by decide⟩ ⟨1, 21⟩
  refine ⟨tree, m₀, m, hparse, hboot, hrun, (hcall 20 _ htwenty _ _).1, ?_⟩
  exact (hcall 6 _ (hcall 3 _ hthree _ _).1 _ _).2

end TinyScript
