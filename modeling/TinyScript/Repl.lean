import TinyScript.Diagram
import TinyScript.Eval
import TinyScript.Grammar

/-!
# Interactive sessions

A session reads lines. A line that ends with a backslash is put aside and continued by the next
one; any other line of code completes a text, which is run at once. Reports are written and the
session goes on; a failure that is no report ends it.
-/

namespace TinyScript

/-- Runs an action and writes the report if it ends in one, then runs `next`. -/
def Exec.reporting (x : Exec Unit) (next : Exec Unit) : Exec Unit := fun m =>
  match x m with
  | .error (.failed (.report r)) m => (do emit (r.message ++ "\n"); next) m
  | .ok _ m => next m
  | failed => failed

/-- The tree of a text that also has a diagram. -/
def Exec.tree (src : String) : Exec Node := fun m =>
  match parse src with
  | .error h => .error h m
  | .ok tree =>
    match tree.diagram with
    | .error f => .error (.failed f) m
    | .ok _ => .ok tree m

namespace Repl

/-- What a line asks of a session. -/
inductive Entry
  | nothing
  | quit
  /-- List the call stack. -/
  | info
  | unknownCommand
  /-- Code that goes on in the next line. -/
  | more (code : String)
  /-- The last line of a text. -/
  | last (code : String)
deriving DecidableEq, Repr, Inhabited

/-- A line without the blanks around it. -/
def stripped (line : String) : String := Text.trim Text.isBlank line

/-- Reads a line as an entry. -/
def Entry.ofLine (line : String) : Entry :=
  let line := stripped line
  if line.isEmpty then .nothing
  else if line = "exit" then .quit
  else if line.toList.head? = some '%' then
    if stripped (String.ofList line.toList.tail) = "info" then .info else .unknownCommand
  else if line.toList.getLast? = some '\\' then
    .more (stripped (String.ofList line.toList.dropLast))
  else .last line

def promptText : String := "toy> "

/-- Runs one text of a session. -/
def runText (fuel : Nat) (src : String) : Exec Unit := do
  interpret fuel (← Exec.tree src)
  Exec.emit "\n"

/-- Reads and runs up to `n` lines; `pending` is the code put aside. -/
def lines (fuel : Nat) : Nat → String → Exec Unit
  | 0, _ => Exec.outOfFuel
  | n + 1, pending => do
    Exec.emit promptText
    match Entry.ofLine (← Exec.readLine) with
    | .nothing => lines fuel n pending
    | .quit => pure ()
    | .info => do
      Exec.emit ((← Exec.stackListing) ++ "\n")
      lines fuel n pending
    | .unknownCommand => do
      Exec.emit "unknown command\n"
      lines fuel n pending
    | .more code => lines fuel n (pending ++ " " ++ code)
    | .last code => (runText fuel (pending ++ " " ++ code)).reporting (lines fuel n "")

/-- Runs a session on all there is to read. Every line takes at least its line end, so the length
of the input bounds their number. -/
def run (fuel : Nat) : Exec Unit := do
  lines fuel ((← get).input.length + 1) ""

end Repl

end TinyScript
