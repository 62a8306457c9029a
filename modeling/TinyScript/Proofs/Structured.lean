import TinyScript.Eval

/-!
# Structured control flow

A second evaluator, on machines whose records carry neither a state nor a result. Every statement
tells how it ends: a sequence stops at the first statement that does not end normally, a loop takes
up `break` and `continue`, and a call takes up `return`. Nothing is marked, and nothing is looked at
afterwards. What has no part in control flow is shared with `Eval`.
-/

namespace TinyScript

/-- How a statement ends. -/
inductive Outcome
  | normal
  | broken
  | continued
  | returned (v : Slot)
deriving DecidableEq, Repr, Inhabited

/-- Actions on machines without marks. -/
abbrev Plain := ExecOf Unit Unit

namespace Structured

open Exec Eval

/-! ### Jumps -/

/-- The names of the records from the innermost on up to the nearest one of kind `goal`, and whether
there is one. What lies outside the function is not looked at. -/
def route {σ ρ : Type} (goal : RecordKind) : List (RecordOf σ ρ) → List String × Bool
  | [] => ([], false)
  | r :: rs =>
    if r.kind = goal then ([r.name], true)
    else if r.kind = .function then ([r.name], false)
    else (r.name :: (route goal rs).1, (route goal rs).2)

/-- Notes the records that a jump is about to leave; tells whether it has somewhere to go. -/
def announce (goal : RecordKind) (word : String) : Plain Bool := do
  let way := route goal (← get).stack.records
  noteJumps s!"set {word}" way.1
  return way.2

/-- `break` and `continue`. -/
def jumpLoop (o : Outcome) (word : String) (p : Position) : Plain Outcome := do
  if ← announce .loop word then return o else report p (.invalidSyntax word)

/-- `return` -/
def jumpReturn (eval : Node → Plain Slot) (expr : Node) (p : Position) : Plain Outcome := do
  if ← announce .function "return" then
    let v ← valueOr eval .null expr
    return .returned v
  else report p (.invalidSyntax "return")

/-- A note on a jump at the innermost record. -/
def note (what : String) : Plain Unit := do
  noteJump (← currentRecord).name what

/-! ### Statements in a row -/

/-- Goes on after a normal end only. -/
def proceed (o : Outcome) (next : Plain Outcome) : Plain Outcome :=
  match o with
  | .normal => next
  | o => return o

theorem proceed_of_ne {o : Outcome} (h : o ≠ .normal) (next : Plain Outcome) :
    proceed o next = return o := by
  cases o with
  | normal => exact absurd rfl h
  | _ => rfl

/-- Runs statements up to the first one that does not end normally. -/
def sequence (exec : Node → Plain Outcome) : List Node → Plain Outcome
  | [] => return .normal
  | n :: ns => do
    let o ← exec n
    proceed o (sequence exec ns)

/-- A block ends as its statements do. -/
def endBlock (o : Outcome) : Plain Outcome := do
  match o with
  | .normal => return .normal
  | .broken =>
    note "pass break"
    return o
  | .continued =>
    note "pass continue"
    return o
  | .returned _ =>
    note "pass return"
    return o

def runBranches (eval : Node → Plain Slot) (exec : Node → Plain Outcome) :
    List (Node × Node) → Plain Outcome
  | [] => return .normal
  | (cond, body) :: rest => do
    if ← condition eval cond then exec body else runBranches eval exec rest

/-- Runs the body of the first case whose value equals `subject`, or else `fallback`. -/
def runCases (eval : Node → Plain Slot) (exec : Node → Plain Outcome) (subject : Slot)
    (fallback : Node) : List (Node × Node) → Plain Outcome
  | [] => if fallback.isMissing then return .normal else exec fallback
  | (case, body) :: rest => do
    let v ← eval case
    if ← mem (Mem.equals subject v) then exec body else runCases eval exec subject fallback rest

/-! ### Loops -/

/-- A round of a loop leads to another one or ends the loop. -/
inductive Round (α : Type)
  | again (a : α)
  | done (o : Outcome)

/-- Goes round until a round ends the loop. -/
def loop {α : Type} (round : α → Plain (Round α)) : Nat → α → Plain Outcome
  | 0, _ => outOfFuel
  | n + 1, a => do
    match ← round a with
    | .again b => loop round n b
    | .done o => return o

/-- What a loop does after its body: it goes on with `next`, or ends. -/
def settle {α : Type} (o : Outcome) (next : Plain (Round α)) : Plain (Round α) := do
  match o with
  | .normal => next
  | .continued =>
    note "handle continue"
    next
  | .broken =>
    note "handle break"
    return .done .normal
  | .returned v =>
    note "pass return"
    return .done (.returned v)

def repeatRound (eval : Node → Plain Slot) (exec : Node → Plain Outcome) (cond body : Node) :
    Plain (Round Unit) := do
  let o ← exec body
  settle o do return if ← condition eval cond then .done .normal else .again ()

def whileRound (eval : Node → Plain Slot) (exec : Node → Plain Outcome) (cond body : Node) :
    Plain (Round Unit) := do
  if ← condition eval cond then
    let o ← exec body
    settle o (return .again ())
  else return .done .normal

def rangeRound (exec : Node → Plain Outcome) (x : String) (p : Position) (stop step : Slot)
    (body : Node) : Plain (Round Unit) := do
  let v ← getName x p
  if ← mem (Mem.less v stop) then
    let o ← exec body
    settle o do
      let v' ← mem (Mem.add v step)
      setName x p (some v') true
      return .again ()
  else return .done .normal

def runRange (n : Nat) (eval : Node → Plain Slot) (exec : Node → Plain Outcome)
    (var start stop step body : Node) (p : Position) : Plain Outcome := do
  let (s, e, d) ← rangeValues eval start stop step
  match var with
  | .name x q =>
    within ((loopRecord "for" p).set x ⟨s, true⟩) do
      loop (fun _ => rangeRound exec x q e d body) n ()
  | _ => fault .missingPart

def eachRound (exec : Node → Plain Outcome) (key val : Node) (c : Slot) (body : Node) (k : Slot) :
    Plain (Round Slot) := do
  let (k, v) ← mem (Mem.next c k)
  match (← get).store.get? k with
  | some .null => return .done .normal
  | _ =>
    bindEntry key val k v
    let o ← exec body
    settle o (return .again k)

def runEach (n : Nat) (eval : Node → Plain Slot) (exec : Node → Plain Outcome)
    (key val subject body : Node) (p : Position) : Plain Outcome :=
  within (loopRecord "for" p) do
    let c ← eval subject
    match (← get).store.get? c with
    | some (.list _) | some (.map _) =>
      let k ← mem Mem.newNull
      loop (eachRound exec key val c body) n (some k)
    | _ => report p .notIterable

/-! ### Calls -/

/-- A call has the value that the function returns, or null. -/
def endCall (o : Outcome) : Plain Slot := do
  match o with
  | .returned v =>
    note "handle return"
    return v
  | _ => some <$> mem Mem.newNull

def callClosure (eval : Node → Plain Slot) (exec : Node → Plain Outcome) (f : Closure)
    (args : Option (List Node)) (p : Position) : Plain Slot := do
  let r ← callRecord eval f args p
  within r do
    let o ← sequence exec f.body
    endCall o

def call (eval : Node → Plain Slot) (exec : Node → Plain Outcome) (callee : Node)
    (args : Option (List Node)) (p : Position) : Plain Slot := do
  let f ← eval callee
  match (← get).store.get? f with
  | some (.host _ action) => callHost eval action args p
  | some (.func c) => callClosure eval exec c args p
  | _ => fault .assertion

/-! ### Nodes -/

/-- Evaluates an expression, with `eval` and `exec` for its parts. A statement has no value. -/
def evalWith (eval : Node → Plain Slot) (exec : Node → Plain Outcome) : Node → Plain Slot
  | .funcDef params vararg body _ => do new (.func (← ofExcept (Closure.make params vararg body)))
  | .call callee args p => call eval exec callee args p
  | .select cond yes no _ => do if ← condition eval cond then eval yes else eval no
  | .binary op left right p => do
    let a ← eval left
    let b ← eval right
    runBinary op a b p
  | .unary op operand p => do
    let a ← eval operand
    runOp op p (unaryOp? op a)
  | .listOf items _ => do new (.list (← values eval (items.getD [])))
  | .mapOf keys values _ => do
    let c ← mem (Mem.alloc (.map .empty))
    fillMap eval c (keys.zip values)
    return some c
  | .setOf _ p => report p .setConstructor
  | .access base key _ p => runAccess eval base key p
  | .name x p => getName x p
  | .number text isInt _ => do new (← ofExcept (literal text isInt))
  | .string value _ => new (.str value)
  | .bool value _ => new (.bool (value == "true"))
  | .null _ => new .null
  | _ => fail (.unsupported .hole)

/-- Runs a statement, with `eval` and `exec` for its parts and `n` rounds for each loop. -/
def execWith (n : Nat) (eval : Node → Plain Slot) (exec : Node → Plain Outcome) :
    Node → Plain Outcome
  | .empty => return .normal
  | .program stats => sequence exec stats
  | .block stats p => within { name := s!"block<{p.render}>", kind := .block } do
    let o ← sequence exec stats
    endBlock o
  | .declare names inits isConst _ => do
    let vs ← valuesFor eval names.length (inits.getD [])
    declareAll isConst names vs
    return .normal
  | .branch conds bodies _ => runBranches eval exec (conds.zip bodies)
  | .switch subject cases bodies fallback _ => do
    let v ← eval subject
    runCases eval exec v fallback (cases.zip bodies)
  | .repeatUntil cond body p =>
    within (loopRecord "repeat" p) (loop (fun _ => repeatRound eval exec cond body) n ())
  | .whileLoop cond body p =>
    within (loopRecord "while" p) (loop (fun _ => whileRound eval exec cond body) n ())
  | .forRange var start stop step body p => runRange n eval exec var start stop step body p
  | .forEach key val subject body p => runEach n eval exec key val subject body p
  | .breakLoop p => jumpLoop .broken "break" p
  | .continueLoop p => jumpLoop .continued "continue" p
  | .returnValue expr p => jumpReturn eval expr p
  | .assign targets sources _ => do
    let vs ← valuesFor eval targets.length sources
    assignAll eval targets vs
    return .normal
  | .update op target source p => do
    let a ← eval target
    let b ← eval source
    let _ ← runOp op p (binaryOp? op a b)
    return .normal
  | .call callee args p => do
    let _ ← call eval exec callee args p
    return .normal
  | _ => fail (.unsupported .hole)

mutual

/-- Evaluates an expression with the given fuel. -/
def eval : Nat → Node → Plain Slot
  | 0, _ => outOfFuel
  | n + 1, node => evalWith (eval n) (exec n) node

/-- Runs a statement with the given fuel. -/
def exec : Nat → Node → Plain Outcome
  | 0, _ => outOfFuel
  | n + 1, node => execWith n (eval n) (exec n) node

end

end Structured

end TinyScript
