import TinyScript.Analysis
import TinyScript.Layout
import TinyScript.Options
import TinyScript.Repl
import TinyScript.Text.Layout

/-!
# Command-line tools

Each tool is an action on a machine: what it writes is the machine's output, and what it reads its
input. Files are a function from paths to their texts. A tool writes the reports it knows of and
ends well; other failures are left to the surroundings.
-/

namespace TinyScript

inductive Tool
  | lexer | parser | analyzer | formatter | interpreter
deriving DecidableEq, Repr, Inhabited

namespace Tool

/-- The texts of the files there are. -/
abbrev Files := String → Option String

/-- Reads a file; its line ends become newlines. -/
def readFile (files : Files) (path : String) : Exec String :=
  match files path with
  | some text => pure (String.ofList (Text.unifyLineEnds text.toList))
  | none => Exec.fault .fileNotFound

/-- Hands the text of the file that the first argument names to `use`. -/
def onFile (files : Files) (args : List String) (use : String → Exec Unit) : Exec Unit := do
  match args with
  | [] =>
    Exec.emit "usage: python toy.py <src.toy>\n"
    Exec.fault (.exit 0)
  | path :: _ =>
    let text ← readFile files path
    (use text).reporting (pure ())

/-- Hands the settings that the arguments make to `use`. -/
def onSettings (form : Options.Form) (args : List String) (use : Options.Settings → Exec Unit) :
    Exec Unit :=
  match form.read args with
  | .ok settings => use settings
  | .error .help => do
    Exec.emit form.usage
    Exec.fault (.exit 0)
  | .error .misuse => Exec.fault (.exit 2)

/-! ### The tools -/

/-- Writes the tokens of a text, one a line. -/
def listTokens (src : String) : Exec Unit := do
  let (tokens, failure) := tokenize src
  Exec.emit (String.join (tokens.map fun t => t.render ++ "\n"))
  match failure with
  | none => pure ()
  | some f => Exec.fail f

/-- Checks the names of a text. -/
def checkNames (src : String) : Exec Unit := do
  let tree ← Exec.tree src
  match analyze tree {} with
  | .ok _ a => Exec.emit a.out
  | .error f a => do
    Exec.emit a.out
    Exec.fail f

def formatterForm : Options.Form where
  choices := [⟨"-h", .help⟩, ⟨"--help", .help⟩, ⟨"--tight", .flag⟩]
  takesOperand := true
  usage := String.intercalate "\n"
    ["usage: toyfmt.py [-h] [--tight] file", "", "toylang formator", "",
      "positional arguments:", "  file        source file", "",
      "options:", "  -h, --help  show this help message and exit", "  --tight     tight mode", ""]

/-- Writes a text in its standard layout. -/
def formatFile (files : Files) (settings : Options.Settings) : Exec Unit := do
  let src ← readFile files (settings.operand.getD "")
  match parse src with
  | .error h => throw h
  | .ok tree =>
    let layout := format (settings.has "--tight") tree
    Exec.emit layout.text
    match layout.failure with
    | none => pure ()
    | some f => Exec.fail f

def interpreterForm : Options.Form where
  choices := [⟨"-h", .help⟩, ⟨"--help", .help⟩, ⟨"--src", .text⟩, ⟨"--repl", .flag⟩,
    ⟨"--level", .number⟩]
  takesOperand := false
  usage := String.intercalate "\n"
    ["usage: toyinterpreter.py [-h] [--src SRC] [--repl] [--level LEVEL]", "",
      "toylang interpreter", "",
      "options:", "  -h, --help     show this help message and exit",
      "  --src SRC      source file", "  --repl         repl mode", "  --level LEVEL  log level", ""]

/-- Runs a file. -/
def runFile (fuel : Nat) (files : Files) (path : String) : Exec Unit :=
  Exec.reporting (do interpret fuel (← Exec.tree (← readFile files path))) finish

/-- Runs the file that is named, or a session if none is. A log level of zero is no setting. -/
def runProgram (fuel : Nat) (files : Files) (settings : Options.Settings) : Exec Unit := do
  match settings.number? "--level" with
  | none | some 0 => pure ()
  | some level => modify fun m => { m with level := level }
  Host.boot
  match settings.text? "--src" with
  | none | some "" => Repl.run fuel
  | some path => runFile fuel files path

/-- The path a tool reads, if its arguments name one. -/
def path? (tool : Tool) (args : List String) : Option String :=
  match tool with
  | .lexer | .parser | .analyzer => args.head?
  | .formatter => (formatterForm.read args).toOption.bind (·.operand)
  | .interpreter => (interpreterForm.read args).toOption.bind (·.text? "--src")

/-- The tool of a name. -/
def ofName? : String → Option Tool
  | "lexer" => some .lexer
  | "parser" => some .parser
  | "analyzer" => some .analyzer
  | "fmt" => some .formatter
  | "interpreter" => some .interpreter
  | _ => none

/-- Runs a tool on its arguments. -/
def run (fuel : Nat) (files : Files) (tool : Tool) (args : List String) : Exec Unit :=
  match tool with
  | .lexer => onFile files args listTokens
  | .parser => onFile files args fun src => do let _ ← Exec.tree src
  | .analyzer => onFile files args checkNames
  | .formatter => onSettings formatterForm args (formatFile files)
  | .interpreter => onSettings interpreterForm args (runProgram fuel files)

end Tool

end TinyScript
