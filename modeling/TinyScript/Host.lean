import TinyScript.Machine

/-!
# Host functions and the names known from the start

Three functions write and read lines. The names of types are constants too; they serve as the
second argument of `input`.
-/

namespace TinyScript.Host

open Exec

variable {σ ρ : Type}

/-- Writes values with blanks between them. -/
def print : List Slot → ExecOf σ ρ Unit
  | [] => pure ()
  | [x] => do emit (← text x)
  | x :: xs => do
    emit ((← text x) ++ " ")
    print xs

/-- Writes values and ends the line. -/
def println (args : List Slot) : ExecOf σ ρ Unit := do
  print args
  emit "\n"

/-- What `input` makes of a line. -/
inductive Wanted
  | string | int | float

/-- The second argument of `input`. -/
def wanted : List Slot → ExecOf σ ρ Wanted
  | _ :: x :: _ => do
    match (← get).store.get? x with
    | some (.type "int") => return .int
    | some (.type "float") => return .float
    | _ => fail (.operand .inputTypeUnknown)
  | _ => return .string

def inputValue (w : Wanted) (line : String) : Option Value :=
  match w with
  | .string => some (.str line)
  | .int => (Numeral.int? line).map fun n => .num (.int n)
  | .float => (Numeral.float? line).map fun x => .num (.float x)

/-- The prompt of `input`. A value without a text of its own fails before anything else is looked
at, any other failure only when the prompt is written. -/
def promptOf : List Slot → ExecOf σ ρ (Except Failure String)
  | [] => return .ok ""
  | x :: _ => do
    match (← get).store.prompt x with
    | .error (.fault .missingPart) => fault .missingPart
    | shown => return shown

/-- Writes a prompt and reads a line. -/
def input (args : List Slot) : ExecOf σ ρ Ref := do
  let prompt ← promptOf args
  let w ← wanted args
  emit (← ofExcept prompt)
  let line ← readLine
  match inputValue w line with
  | some v => mem (Mem.alloc v)
  | none => fail (.operand .inputUnreadable)

/-- Runs a host function: a value, or nothing, or something that is no value. -/
def run (action : HostAction) (args : List Slot) : ExecOf σ ρ (Except Unit Slot) := do
  match action with
  | .print =>
    print args
    return .ok none
  | .println =>
    println args
    return .ok none
  | .input => return .ok (some (← input args))
  | .foreign truthy => return if truthy then .error () else .ok none

/-- The names known from the start, with their values. -/
def builtins : List (String × Value) :=
  (["null", "bool", "int", "float", "string", "list", "map", "function", "object"].map
    fun x => (x, .type x))
  ++ [("print", .host "print" .print), ("println", .host "println" .println),
      ("input", .host "input" .input)]

def isBuiltin (x : String) : Bool := builtins.any (·.1 == x)

/-- Binds names to new cells in a record, as constants. -/
def bindAll : RecordOf σ ρ → List (String × Value) → ExecOf σ ρ (RecordOf σ ρ)
  | r, [] => return r
  | r, (x, v) :: xs => do
    let c ← mem (Mem.alloc v)
    bindAll (r.set x ⟨some c, true⟩) xs

/-- Enters the global record. -/
def boot [Inhabited σ] [Inhabited ρ] [ToString σ] : ExecOf σ ρ Unit := do
  enter (← bindAll { name := "__global", kind := .program } builtins)

/-- Adds host functions to the innermost record. -/
def register (hosts : List (String × Bool)) : ExecOf σ ρ Unit := do
  let r ← currentRecord
  let r ← bindAll r (hosts.map fun (x, truthy) => (x, .host x (.foreign truthy)))
  modifyStack (·.modifyTop fun _ => r)

end TinyScript.Host
