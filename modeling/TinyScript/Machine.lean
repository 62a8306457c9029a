import TinyScript.Record
import TinyScript.Store.Members

/-!
# The machine

All that a run can change: the store, the call stack, what has been written, what is left to read,
and the log level. An `Exec` action that fails leaves the machine as it was at that moment, so a
session can go on.
-/

namespace TinyScript

/-- The levels of log messages, by their names. -/
inductive LogLevel
  | error | warning | info | debug | all
deriving DecidableEq, Repr, Inhabited

namespace LogLevel

def rank : LogLevel → Int
  | .error => 1
  | .warning => 2
  | .info => 3
  | .debug => 4
  | .all => 5

/-- Messages are written if their level is at most the one that is set. -/
def shows (set : Int) (l : LogLevel) : Bool := l.rank ≤ set

/-- What a message adds to the output. -/
def log (set : Int) (l : LogLevel) (msg : String) : String :=
  if l.shows set then msg ++ "\n" else ""

end LogLevel

structure MachineOf (σ ρ : Type) where
  store : Store := .empty
  stack : CallStackOf σ ρ := {}
  out : String := ""
  input : List Char := []
  level : Int := 1
deriving Inhabited

abbrev Machine := MachineOf RecordState Slot

/-- Actions on a machine. -/
abbrev ExecOf (σ ρ : Type) := EStateM Halt (MachineOf σ ρ)

abbrev Exec := ExecOf RecordState Slot

namespace Exec

variable {σ ρ : Type}

def outOfFuel {α : Type} : ExecOf σ ρ α := throw .outOfFuel

def fail {α : Type} (f : Failure) : ExecOf σ ρ α := throw (.failed f)

def fault {α : Type} (f : Fault) : ExecOf σ ρ α := fail (.fault f)

/-- Reports an issue at a position. -/
def report {α : Type} (p : Position) (issue : Issue) : ExecOf σ ρ α :=
  fail (.report ⟨.interpreter, p, issue⟩)

/-- Reports an issue at a node, which must have a position. -/
def reportAt {α : Type} (n : Node) (issue : Issue) : ExecOf σ ρ α :=
  match n.pos? with
  | some p => report p issue
  | none => fault .missingPart

/-- Runs an action on the store. -/
def mem {α : Type} (x : Mem α) : ExecOf σ ρ α := fun m =>
  match x m.store with
  | .ok a s => .ok a { m with store := s }
  | .error f s => .error (.failed f) { m with store := s }

def ofExcept {α : Type} (x : Except Failure α) : ExecOf σ ρ α := fun m =>
  match x with
  | .ok a => .ok a m
  | .error f => .error (.failed f) m

/-- Turns operand errors of an action into reports. -/
def onOperand {α : Type} (handle : OperandError → ExecOf σ ρ α) (x : ExecOf σ ρ α) :
    ExecOf σ ρ α := fun m =>
  match x m with
  | .error (.failed (.operand e)) m => handle e m
  | r => r

/-- Turns member errors of an action into reports. -/
def onMember {α : Type} (handle : MemberError → ExecOf σ ρ α) (x : ExecOf σ ρ α) :
    ExecOf σ ρ α := fun m =>
  match x m with
  | .error (.failed (.member e)) m => handle e m
  | r => r

/-! ### Output and input -/

def emit (s : String) : ExecOf σ ρ Unit := fun m => .ok () { m with out := m.out ++ s }

def log (l : LogLevel) (msg : String) : ExecOf σ ρ Unit := fun m =>
  .ok () { m with out := m.out ++ l.log m.level msg }

/-- The text of a value. -/
def text (x : Slot) : ExecOf σ ρ String := fun m => ofExcept (m.store.text x) m

/-- The call stack as listings show it. -/
def stackListing [ToString σ] : ExecOf σ ρ String := fun m => ofExcept (m.stack.render m.store) m

/-- Lists the call stack if messages for debugging are written. -/
def logStack [ToString σ] : ExecOf σ ρ Unit := do
  if LogLevel.debug.shows (← get).level then
    emit ((← stackListing) ++ "\n")

/-- Reads up to the end of the line, and drops the newline. -/
def readLine : ExecOf σ ρ String := fun m =>
  match m.input with
  | [] => fault .endOfInput m
  | cs =>
    .ok (String.ofList (cs.takeWhile (· ≠ '\n')))
      { m with input := (cs.dropWhile (· ≠ '\n')).tail }

/-! ### Records -/

def modifyStack (f : CallStackOf σ ρ → CallStackOf σ ρ) : ExecOf σ ρ Unit :=
  modify fun m => { m with stack := f m.stack }

def modifyRecords (f : List (RecordOf σ ρ) → List (RecordOf σ ρ)) : ExecOf σ ρ Unit :=
  modifyStack fun cs => { cs with records := f cs.records }

def enter [ToString σ] (r : RecordOf σ ρ) : ExecOf σ ρ Unit := do
  modifyStack (·.push r)
  log .debug s!"enter ar: {r.name}"
  logStack

/-- Leaves the innermost record. -/
def leave [ToString σ] : ExecOf σ ρ Unit := do
  match (← get).stack.current? with
  | none => fault .missingPart
  | some r =>
    log .debug s!"leave: {r.name}"
    logStack
    modifyStack fun cs => cs.pop.2

/-- Takes the innermost record off the stack. Without one this fails once the level is lowered. -/
def pop : ExecOf σ ρ (RecordOf σ ρ) := do
  let (r, cs) := (← get).stack.pop
  modifyStack fun _ => cs
  match r with
  | some r => return r
  | none => fault .missingPart

/-- The innermost record. -/
def currentRecord : ExecOf σ ρ (RecordOf σ ρ) := do
  match (← get).stack.current? with
  | some r => return r
  | none => fault .missingPart

/-- Runs an action inside a new record. -/
def within {α : Type} [ToString σ] (r : RecordOf σ ρ) (x : ExecOf σ ρ α) : ExecOf σ ρ α := do
  enter r
  let a ← x
  leave
  return a

def setState (st : RecordState) : Exec Unit :=
  modifyStack (·.modifyTop fun r => { r with state := st })

/-- A note on a jump at record `name`. -/
def noteJump (name what : String) : ExecOf σ ρ Unit :=
  log .info s!"[!] {Text.padRight 12 name} {what}"

/-- Notes on a jump at several records. -/
def noteJumps (what : String) : List String → ExecOf σ ρ Unit
  | [] => pure ()
  | name :: names => do
    noteJump name what
    noteJumps what names

/-! ### Names -/

/-- The value of a name. -/
def getName (x : String) (p : Position) : ExecOf σ ρ Slot := do
  match CallStack.valueOf? x (← get).stack.records with
  | some r => return some r
  | none => report p (.nameNotDeclared x)

/-- Changes the value of a name; a constant only if `force` is set. -/
def setName (x : String) (p : Position) (v : Slot) (force : Bool) : ExecOf σ ρ Unit := do
  match CallStack.bindingOf? x (← get).stack.records with
  | none => report p (.nameNotDeclared x)
  | some b =>
    if b.isConst && !force then report p (.nameNotAssignable x)
    else modifyRecords (CallStack.rebind x v)

end Exec

end TinyScript
