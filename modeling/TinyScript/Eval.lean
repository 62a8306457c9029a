import TinyScript.Host

/-!
# Running trees

`visitWith n visit` runs one node, with `visit` for its parts and loops that go round at most `n`
times; `visit` closes the recursion. Statements yield nothing. A jump marks the records it passes
through; blocks, loops and functions look at the state of their record after each statement, and
put it back to normal once they have acted on it.
-/

namespace TinyScript

namespace Eval

open Exec

variable {σ ρ : Type}

/-! ### Parts of statements -/

/-- Runs nodes for their effects. -/
def runAll (visit : Node → Exec Slot) : List Node → Exec Unit
  | [] => pure ()
  | n :: ns => do
    let _ ← visit n
    runAll visit ns

/-- The values of nodes, from left to right. -/
def values (visit : Node → ExecOf σ ρ Slot) : List Node → ExecOf σ ρ (List Slot)
  | [] => return []
  | n :: ns => do
    let v ← visit n
    let vs ← values visit ns
    return v :: vs

/-- The value of a node; where there is none, a new cell with `v`. -/
def valueOr (visit : Node → ExecOf σ ρ Slot) (v : Value) (n : Node) : ExecOf σ ρ Slot :=
  if n.isMissing then some <$> mem (Mem.alloc v) else visit n

/-- Whether a condition holds. -/
def condition (visit : Node → ExecOf σ ρ Slot) (n : Node) : ExecOf σ ρ Bool :=
  onOperand (fun e => reportAt n (.badValue e.message)) do
    let v ← visit n
    mem (Mem.truth v)

/-- Goes round with a value of type `α` from round to round until there is none. -/
def iterate {α : Type} (step : α → Exec (Option α)) : Nat → α → Exec Unit
  | 0, _ => outOfFuel
  | n + 1, a => do
    match ← step a with
    | some b => iterate step n b
    | none => pure ()

/-- After a statement in a block: whether to go on with the next one. -/
def settleBlock : Exec Bool := do
  let r ← currentRecord
  match r.state with
  | .normal => return true
  | .returned =>
    setState .normal
    noteJump r.name "pass return"
    return false
  | .breaked =>
    setState .normal
    noteJump r.name "pass break"
    return false
  | .continued =>
    setState .normal
    noteJump r.name "pass continue"
    return false

/-- After the body of a loop: whether to go round again. -/
def settleLoop : Exec Bool := do
  let r ← currentRecord
  match r.state with
  | .normal => return true
  | .returned =>
    setState .normal
    noteJump r.name "pass return"
    return false
  | .breaked =>
    setState .normal
    noteJump r.name "handle break"
    return false
  | .continued =>
    setState .normal
    noteJump r.name "handle continue"
    return true

/-- After a statement of a function: whether to go on with the next one. -/
def settleFunction : Exec Bool := do
  let r ← currentRecord
  match r.state with
  | .returned =>
    setState .normal
    noteJump r.name "handle return"
    return false
  | _ => return true

/-- Runs statements as long as `settle` says so. -/
def runSettled (visit : Node → Exec Slot) (settle : Exec Bool) : List Node → Exec Unit
  | [] => pure ()
  | n :: ns => do
    let _ ← visit n
    if ← settle then runSettled visit settle ns else pure ()

/-- Runs the body of the first clause whose condition holds. -/
def runBranches (visit : Node → Exec Slot) : List (Node × Node) → Exec Unit
  | [] => pure ()
  | (cond, body) :: rest => do
    if ← condition visit cond then
      let _ ← visit body
    else runBranches visit rest

/-- Runs the body of the first case whose value equals `subject`; tells whether there was one. -/
def runCases (visit : Node → Exec Slot) (subject : Slot) : List (Node × Node) → Exec Bool
  | [] => return false
  | (case, body) :: rest => do
    let v ← visit case
    if ← mem (Mem.equals subject v) then
      let _ ← visit body
      return true
    else runCases visit subject rest

/-- The values for `count` names: those of the first nodes, then nulls. -/
def valuesFor (visit : Node → ExecOf σ ρ Slot) : Nat → List Node → ExecOf σ ρ (List Slot)
  | 0, _ => return []
  | count + 1, [] => do
    let v ← mem Mem.newNull
    let vs ← valuesFor visit count []
    return some v :: vs
  | count + 1, n :: ns => do
    let v ← visit n
    let vs ← valuesFor visit count ns
    return v :: vs

/-- Declares names in the innermost record, one after the other. -/
def declareAll (isConst : Bool) : List Node → List Slot → ExecOf σ ρ Unit
  | n :: ns, v :: vs => do
    match n with
    | .name x p =>
      if (← currentRecord).has x then report p (.nameDuplicated x)
      else
        modifyStack (·.modifyTop (·.set x ⟨v, isConst⟩))
        declareAll isConst ns vs
    | _ => fault .missingPart
  | _, _ => pure ()

/-- Assigns a value to a name or a member. -/
def assignTo (visit : Node → ExecOf σ ρ Slot) (target : Node) (v : Slot) : ExecOf σ ρ Unit := do
  match target with
  | .name x p => setName x p v false
  | .access base key _ p =>
    let c ← visit base
    match (← get).store.get? c with
    | some (.list _) | some (.map _) =>
      onMember (fun e => report p (.member e)) do
        let k ← visit key
        mem (Mem.setMember c k v)
    | _ => reportAt base .notContainer
  | _ => fault .assertion

def assignAll (visit : Node → ExecOf σ ρ Slot) : List Node → List Slot → ExecOf σ ρ Unit
  | n :: ns, v :: vs => do
    assignTo visit n v
    assignAll visit ns vs
  | _, _ => pure ()

/-! ### Jumps -/

/-- Sends a jump to the nearest record of kind `goal`; tells whether there is one. -/
def sendJump (st : RecordState) (goal : RecordKind) (word : String) : Exec Bool := do
  let j := CallStack.jump st goal (← get).stack.records
  modifyRecords fun _ => j.records
  noteJumps s!"set {word}" j.passed
  return j.found

/-- Sends a `break` or `continue` to the innermost loop of the function. -/
def jumpLoop (st : RecordState) (word : String) (p : Position) : Exec Unit := do
  if ← sendJump st .loop word then pure () else report p (.invalidSyntax word)

/-- Sends a `return` to the innermost function, and only then finds its value. -/
def jumpReturn (visit : Node → Exec Slot) (expr : Node) (p : Position) : Exec Unit := do
  if ← sendJump .returned .function "return" then
    let v ← valueOr visit .null expr
    modifyRecords (CallStack.setRetval v)
  else report p (.invalidSyntax "return")

/-! ### Loops -/

def loopRecord [Inhabited σ] [Inhabited ρ] (word : String) (p : Position) : RecordOf σ ρ :=
  { name := s!"{word}<{p.render}>", kind := .loop }

def runRepeat (n : Nat) (visit : Node → Exec Slot) (cond body : Node) (p : Position) : Exec Unit :=
  within (loopRecord "repeat" p) do
    iterate (fun _ => do
      let _ ← visit body
      if ← settleLoop then
        return if ← condition visit cond then none else some ()
      else return none) n ()

def runWhile (n : Nat) (visit : Node → Exec Slot) (cond body : Node) (p : Position) : Exec Unit :=
  within (loopRecord "while" p) do
    iterate (fun _ => do
      if ← condition visit cond then
        let _ ← visit body
        return if ← settleLoop then some () else none
      else return none) n ()

/-- The value of a bound of a range, which must be a number. -/
def rangeBound (visit : Node → ExecOf σ ρ Slot) (bound : Node) : ExecOf σ ρ Slot := do
  let v ← visit bound
  match (← get).store.get? v with
  | some (.num _) => return v
  | _ => reportAt bound (.wrongType "num")

/-- The start, end and step of a range; the step is 1 if none is given. -/
def rangeValues (visit : Node → ExecOf σ ρ Slot) (start stop step : Node) :
    ExecOf σ ρ (Slot × Slot × Slot) := do
  let s ← rangeBound visit start
  let e ← rangeBound visit stop
  let d ← valueOr visit (.num (.int 1)) step
  return (s, e, d)

/-- One round of a loop over a range. -/
def rangeRound (visit : Node → Exec Slot) (x : String) (p : Position) (stop step : Slot)
    (body : Node) : Exec (Option Unit) := do
  let v ← getName x p
  if ← mem (Mem.less v stop) then
    let _ ← visit body
    if ← settleLoop then
      let v' ← mem (Mem.add v step)
      setName x p (some v') true
      return some ()
    else return none
  else return none

def runRange (n : Nat) (visit : Node → Exec Slot) (var start stop step body : Node)
    (p : Position) : Exec Unit := do
  let (s, e, d) ← rangeValues visit start stop step
  match var with
  | .name x q =>
    within ((loopRecord "for" p).set x ⟨s, true⟩) do
      iterate (fun _ => rangeRound visit x q e d body) n ()
  | _ => fault .missingPart

/-- Binds the names of a loop over a container to an entry. -/
def bindEntry (key val : Node) (k v : Slot) : ExecOf σ ρ Unit := do
  let set (n : Node) (v : Slot) : ExecOf σ ρ Unit :=
    match n.ident? with
    | some x => modifyStack (·.modifyTop (·.set x ⟨v, true⟩))
    | none => fault .missingPart
  if val.isMissing then set key v
  else
    set key k
    set val v

/-- One round of a loop over a container, after key `k`. -/
def eachRound (visit : Node → Exec Slot) (key val : Node) (c : Slot) (body : Node) (k : Slot) :
    Exec (Option Slot) := do
  let (k, v) ← mem (Mem.next c k)
  match (← get).store.get? k with
  | some .null => return none
  | _ =>
    bindEntry key val k v
    let _ ← visit body
    return if ← settleLoop then some k else none

def runEach (n : Nat) (visit : Node → Exec Slot) (key val subject body : Node) (p : Position) :
    Exec Unit :=
  within (loopRecord "for" p) do
    let c ← visit subject
    match (← get).store.get? c with
    | some (.list _) | some (.map _) =>
      let k ← mem Mem.newNull
      iterate (eachRound visit key val c body) n (some k)
    | _ => report p .notIterable

/-! ### Calls -/

/-- The value of the first argument, if there is one. -/
def argument (visit : Node → ExecOf σ ρ Slot) : List Node → ExecOf σ ρ Slot
  | [] | .missing :: _ => return none
  | a :: _ => visit a

/-- Binds parameters to arguments; a parameter without one gets no value. Further arguments are not
looked at. -/
def bindParams (visit : Node → ExecOf σ ρ Slot) :
    RecordOf σ ρ → List Node → List Node → ExecOf σ ρ (RecordOf σ ρ)
  | r, [], _ => return r
  | r, p :: ps, args => do
    match p.ident? with
    | none => fault .missingPart
    | some x =>
      let v ← argument visit args
      bindParams visit (r.set x ⟨v, false⟩) ps args.tail

/-- Further arguments are refused by a function that could take them. -/
def checkFurther (f : Closure) (args : Option (List Node)) (p : Position) : ExecOf σ ρ Unit :=
  if f.vararg then
    match args with
    | none => fault .wrongKind
    | some args =>
      if (f.params.getD []).length < args.length then report p .extraArguments else pure ()
  else pure ()

/-- The record of a call, with its parameters bound. -/
def callRecord [Inhabited σ] [Inhabited ρ] (visit : Node → ExecOf σ ρ Slot) (f : Closure)
    (args : Option (List Node)) (p : Position) : ExecOf σ ρ (RecordOf σ ρ) := do
  let r ← bindParams visit { name := s!"{f.signature}<{p.render}>", kind := .function }
    (f.params.getD []) (args.getD [])
  checkFurther f args p
  return r

def callClosure (visit : Node → Exec Slot) (f : Closure) (args : Option (List Node))
    (p : Position) : Exec Slot := do
  let r ← callRecord visit f args p
  within r do
    runSettled visit settleFunction f.body
    match (← currentRecord).retval with
    | some v => return some v
    | none => some <$> mem Mem.newNull

def callHost (visit : Node → ExecOf σ ρ Slot) (action : HostAction) (args : Option (List Node))
    (p : Position) : ExecOf σ ρ Slot := do
  let args ← values visit (args.getD [])
  let result ← onOperand (fun e => report p (.operand e)) (Host.run action args)
  match result with
  | .ok (some v) => return some v
  | .ok none => some <$> mem Mem.newNull
  | .error () => report p .hostResult

/-! ### Expressions -/

/-- What a binary operator does; the operators that change a variable yield nothing. -/
def binaryOp? (op : TokenKind) (a b : Slot) : Option (Mem Slot) :=
  match op with
  | .eq => some (some <$> Mem.eq a b)
  | .lt => some (some <$> Mem.lt a b)
  | .le => some (some <$> Mem.le a b)
  | .add => some (some <$> Mem.add a b)
  | .sub => some (some <$> Mem.sub a b)
  | .mul => some (some <$> Mem.mul a b)
  | .div => some (some <$> Mem.div a b)
  | .selfAdd => some ((fun _ => none) <$> Mem.updateAdd a b)
  | .selfSub => some ((fun _ => none) <$> Mem.updateSub a b)
  | _ => none

/-- The comparisons that are the negation of another one. -/
def negatedOp? : TokenKind → Option TokenKind
  | .ne => some .eq
  | .ge => some .lt
  | .gt => some .le
  | _ => none

def unaryOp? (op : TokenKind) (a : Slot) : Option (Mem Slot) :=
  match op with
  | .add => some (Mem.plus a)
  | .sub => some (some <$> Mem.minus a)
  | .kwNot => some (some <$> Mem.not a)
  | _ => none

/-- Runs the operation of an operator, if there is one. -/
def runOp (op : TokenKind) (p : Position) : Option (Mem Slot) → ExecOf σ ρ Slot
  | some x => onOperand (fun e => report p (.badValue e.message)) (mem x)
  | none => report p (.opNotImplemented op.spelling)

/-- Runs a binary operator; one that is a negation turns the result of the other one around. -/
def runBinary (op : TokenKind) (a b : Slot) (p : Position) : ExecOf σ ρ Slot :=
  match negatedOp? op with
  | some op' => runOp op' p ((binaryOp? op' a b).map fun x => do Mem.negate (← x))
  | none => runOp op p (binaryOp? op a b)

/-- Adds entries to the map in a cell. -/
def fillMap (visit : Node → ExecOf σ ρ Slot) (c : Ref) : List (Node × Node) → ExecOf σ ρ Unit
  | [] => pure ()
  | (key, value) :: rest => do
    let k ← visit key
    let v ← valueOr visit .null value
    mem (Mem.setMember (some c) k v)
    fillMap visit c rest

/-- The member of a container; asking a map for a key it does not have also shows the map. -/
def getMember (c key : Slot) : ExecOf σ ρ Slot := do
  match ← mem (Mem.member? c key) with
  | some v => return v
  | none =>
    emit "container: "
    emit ((← ofExcept ((← get).store.repr c)) ++ "\n")
    fail (.member (.keyNotFound (← text key)))

def runAccess (visit : Node → ExecOf σ ρ Slot) (base key : Node) (p : Position) :
    ExecOf σ ρ Slot := do
  let c ← visit base
  let k ← visit key
  match (← get).store.get? c with
  | some (.list _) | some (.map _) => onMember (fun e => report p (.member e)) (getMember c k)
  | _ => report p .fieldAccess

/-- The value of a number literal. -/
def literal (text : String) (isInt : Bool) : Except Failure Value :=
  let n := if isInt then (Numeral.int? text).map Number.int else (Numeral.float? text).map Number.float
  match n with
  | some n => .ok (.num n)
  | none => .error (.fault .badNumeral)

/-- A new cell. -/
def new (v : Value) : ExecOf σ ρ Slot := some <$> mem (Mem.alloc v)

/-- A statement yields nothing. -/
def statement (x : Exec Unit) : Exec Slot := do
  x
  return none

/-- Runs a node, with `visit` for its parts and `n` rounds for each loop. -/
def visitWith (n : Nat) (visit : Node → Exec Slot) : Node → Exec Slot
  | .missing => fail (.unsupported .hole)
  | .empty => return none
  | .program stats => statement (runAll visit stats)
  | .block stats p => statement <|
    within { name := s!"block<{p.render}>", kind := .block } (runSettled visit settleBlock stats)
  | .declare names inits isConst _ => statement do
    let vs ← valuesFor visit names.length (inits.getD [])
    declareAll isConst names vs
  | .branch conds bodies _ => statement (runBranches visit (conds.zip bodies))
  | .switch subject cases bodies fallback _ => statement do
    let v ← visit subject
    if ← runCases visit v (cases.zip bodies) then pure ()
    else if fallback.isMissing then pure ()
    else
      let _ ← visit fallback
  | .repeatUntil cond body p => statement (runRepeat n visit cond body p)
  | .whileLoop cond body p => statement (runWhile n visit cond body p)
  | .forRange var start stop step body p => statement (runRange n visit var start stop step body p)
  | .forEach key val subject body p => statement (runEach n visit key val subject body p)
  | .breakLoop p => statement (jumpLoop .breaked "break" p)
  | .continueLoop p => statement (jumpLoop .continued "continue" p)
  | .returnValue expr p => statement (jumpReturn visit expr p)
  | .assign targets sources _ => statement do
    let vs ← valuesFor visit targets.length sources
    assignAll visit targets vs
  | .update op target source p => statement do
    let a ← visit target
    let b ← visit source
    let _ ← runOp op p (binaryOp? op a b)
  | .funcDef params vararg body _ => do new (.func (← ofExcept (Closure.make params vararg body)))
  | .call callee args p => do
    let f ← visit callee
    match (← get).store.get? f with
    | some (.host _ action) => callHost visit action args p
    | some (.func c) => callClosure visit c args p
    | _ => fault .assertion
  | .select cond yes no _ => do if ← condition visit cond then visit yes else visit no
  | .binary op left right p => do
    let a ← visit left
    let b ← visit right
    runBinary op a b p
  | .unary op operand p => do
    let a ← visit operand
    runOp op p (unaryOp? op a)
  | .listOf items _ => do new (.list (← values visit (items.getD [])))
  | .mapOf keys values _ => do
    let c ← mem (Mem.alloc (.map .empty))
    fillMap visit c (keys.zip values)
    return some c
  | .setOf _ p => report p .setConstructor
  | .access base key _ p => runAccess visit base key p
  | .name x p => getName x p
  | .number text isInt _ => do new (← ofExcept (literal text isInt))
  | .string value _ => new (.str value)
  | .bool value _ => new (.bool (value == "true"))
  | .null _ => new .null

/-- Runs a node with the given fuel: nodes may be nested, and loops go round, that often. -/
def visit : Nat → Node → Exec Slot
  | 0, _ => outOfFuel
  | n + 1, node => visitWith n (visit n) node

end Eval

/-- Runs a tree. -/
def interpret (fuel : Nat) (tree : Node) : Exec Unit := do
  let _ ← Eval.visit fuel tree

/-- Closes a run: lists the call stack if messages for debugging are written. -/
def finish : Exec Unit := do
  Exec.log .debug "program finish"
  Exec.logStack

end TinyScript
