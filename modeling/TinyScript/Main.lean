import TinyScript.Tool

/-!
# The command line

The first argument names a tool and the others are its arguments. The file a tool needs and all of
the standard input are read first, then the tool runs on them.
-/

namespace TinyScript.Main

/-- How often nodes may be nested and loops may go round in one run. -/
def fuel : Nat := 1000000000000

/-- Reads a file, if there is one at the path. -/
def fileAt (path : String) : IO (Option String) := do
  try
    return some (← IO.FS.readFile path)
  catch _ => return none

/-- The exit code of a run, and what it says about a failure that was left to it. -/
def ending : Halt → UInt32 × String
  | .failed (.fault (.exit code)) => (UInt32.ofNat code, "")
  | .failed f => (1, f.message?.getD "the program failed")
  | .outOfFuel => (1, "the program ran too long")

def runTool (tool : Tool) (args : List String) : IO UInt32 := do
  let path := tool.path? args
  let file ← match path with
    | some p => fileAt p
    | none => pure none
  let input ← (← IO.getStdin).readToEnd
  let files : Tool.Files := fun p => if path = some p then file else none
  match Tool.run fuel files tool args { input := input.toList } with
  | .ok _ m =>
    IO.print m.out
    return 0
  | .error h m =>
    IO.print m.out
    let (code, text) := ending h
    unless text.isEmpty do IO.eprintln text
    return code

end TinyScript.Main

def main (args : List String) : IO UInt32 := do
  match args with
  | name :: rest =>
    match TinyScript.Tool.ofName? name with
    | some tool => TinyScript.Main.runTool tool rest
    | none =>
      IO.eprintln "tools: lexer, parser, analyzer, fmt, interpreter"
      return 2
  | [] =>
    IO.eprintln "tools: lexer, parser, analyzer, fmt, interpreter"
    return 2
