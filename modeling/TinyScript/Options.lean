import TinyScript.Number.Numeral

/-!
# Command-line arguments

A tool has a form: its options, whether it takes one operand, and its help text. Arguments are
first sorted one by one, which does not depend on their neighbours except that all that follow
`--` are plain. Then they are taken from left to right.

A long option may be shortened as long as one option only begins that way, and its value may be
joined to it by `=`. Numbers below zero and arguments with a blank in them are plain.
-/

namespace TinyScript.Options

/-- What an option does. -/
inductive Role
  | help
  | flag
  | text
  | number
deriving DecidableEq, Repr, Inhabited

/-- An option by its spelling, dashes included. -/
structure Choice where
  spelling : String
  role : Role
deriving DecidableEq, Repr, Inhabited

structure Form where
  choices : List Choice
  takesOperand : Bool
  usage : String
deriving DecidableEq, Repr, Inhabited

/-- How arguments are turned down, all of them together. -/
inductive Refusal
  /-- The help text is asked for. -/
  | help
  /-- The arguments do not fit the form. -/
  | misuse
deriving DecidableEq, Repr, Inhabited

/-- What the arguments say. An option that is given twice has its last value. -/
structure Settings where
  flags : List String := []
  texts : List (String × String) := []
  numbers : List (String × Int) := []
  operand : Option String := none
deriving DecidableEq, Repr, Inhabited

namespace Settings

def has (s : Settings) (spelling : String) : Bool := s.flags.contains spelling

def text? (s : Settings) (spelling : String) : Option String := s.texts.lookup spelling

def number? (s : Settings) (spelling : String) : Option Int := s.numbers.lookup spelling

end Settings

/-! ### Sorting single arguments -/

/-- What an argument is, seen by itself. -/
inductive Arg
  | plain (text : String)
  /-- An option, with the value joined to it if there is one. -/
  | option (choice : Choice) (value : Option String)
  /-- A short option with further letters behind it. -/
  | cluster (choice : Choice) (letters : List Char)
  | unknown
deriving DecidableEq, Repr, Inhabited

/-- Splits at the first `=`. -/
def splitValue (arg : List Char) : List Char × Option String :=
  match arg.dropWhile (· ≠ '=') with
  | [] => (arg, none)
  | _ :: value => (arg.takeWhile (· ≠ '='), some (String.ofList value))

/-- Digits, or digits with a point before the last of them. -/
def isUnsigned (cs : List Char) : Bool :=
  let isDigit (c : Char) : Bool := (Text.decimalValue? c).isSome
  match cs.dropWhile isDigit with
  | [] => !cs.isEmpty
  | '.' :: fraction => !fraction.isEmpty && fraction.all isDigit
  | _ => false

/-- A number below zero; a newline may end it. -/
def isNegative : List Char → Bool
  | '-' :: cs => isUnsigned (if cs.getLast? = some '\n' then cs.dropLast else cs)
  | _ => false

/-- The option with exactly this spelling. -/
def Form.find? (form : Form) (spelling : List Char) : Option Choice :=
  form.choices.find? fun c => c.spelling.toList == spelling

/-- The options an argument may stand for, with what is joined to them, when it spells none. -/
def Form.candidates (form : Form) : List Char → List Arg
  | '-' :: '-' :: name =>
    let (name, value) := splitValue name
    (form.choices.filter fun c => ('-' :: '-' :: name).isPrefixOf c.spelling.toList).map
      fun c => .option c value
  | '-' :: letter :: letters =>
    ((form.find? ['-', letter]).map fun c => .cluster c letters).toList
  | _ => []

/-- Sorts one argument other than `--`. -/
def Form.sort (form : Form) (arg : String) : Except Refusal Arg :=
  let cs := arg.toList
  let (name, value) := splitValue cs
  if cs.head? ≠ some '-' then .ok (.plain arg)
  else if let some c := form.find? cs then .ok (.option c none)
  else if cs.length = 1 then .ok (.plain arg)
  else if let (some c, some v) := (form.find? name, value) then .ok (.option c (some v))
  else
    match form.candidates cs with
    | [a] => .ok a
    | _ :: _ :: _ => .error .misuse
    | [] => .ok (if isNegative cs || cs.contains ' ' then .plain arg else .unknown)

/-- Arguments up to the first `--`, sorted, and those behind it if there is one. -/
def Form.sortAll (form : Form) : List String → Except Refusal (List Arg × Option (List String))
  | [] => .ok ([], none)
  | "--" :: rest => .ok ([], some rest)
  | arg :: rest => do
    let a ← form.sort arg
    let (as, behind) ← form.sortAll rest
    return (a :: as, behind)

/-! ### Taking arguments -/

/-- What has been taken so far. -/
structure Taken where
  settings : Settings := {}
  /-- Something did not fit. It is told at the end only, so that help can still be asked for. -/
  surplus : Bool := false
  /-- The argument taken last was the operand. -/
  atOperand : Bool := false
deriving DecidableEq, Repr, Inhabited

/-- Sets an option to a value. -/
def set (s : Settings) (c : Choice) (value : String) : Except Refusal Settings :=
  match c.role with
  | .number =>
    match Numeral.int? value with
    | some n => .ok { s with numbers := (c.spelling, n) :: s.numbers }
    | none => .error .misuse
  | _ => .ok { s with texts := (c.spelling, value) :: s.texts }

/-- How a short help option ends that has further letters behind it: its own letter repeats it,
and other letters stay surplus, unless one of them begins a value or an option. -/
def helpCluster (letter : Option Char) : List Char → Refusal
  | [] => .help
  | c :: cs =>
    if c = '-' || c = '=' then .misuse
    else if letter = some c then
      match cs with
      | '=' :: _ => .misuse
      | _ => helpCluster letter cs
    else .help

/-- Takes sorted arguments from left to right. -/
def take (form : Form) : Taken → List Arg → Except Refusal Taken
  | t, [] => .ok t
  | t, .plain arg :: rest =>
    if form.takesOperand && t.settings.operand.isNone then
      take form { t with settings := { t.settings with operand := some arg }, atOperand := true } rest
    else take form { t with surplus := true, atOperand := false } rest
  | t, .unknown :: rest => take form { t with surplus := true, atOperand := false } rest
  | _, .cluster c letters :: _ => .error (helpCluster c.spelling.toList[1]? letters)
  | t, .option c value :: rest =>
    let t := { t with atOperand := false }
    match c.role, value with
    | .help, none => .error .help
    | .flag, none =>
      take form { t with settings := { t.settings with flags := c.spelling :: t.settings.flags } } rest
    | .help, some _ | .flag, some _ => .error .misuse
    | _, some v =>
      match set t.settings c v with
      | .ok settings => take form { t with settings := settings } rest
      | .error r => .error r
    | _, none =>
      match rest with
      | .plain v :: rest =>
        match set t.settings c v with
        | .ok settings => take form { t with settings := settings } rest
        | .error r => .error r
      | _ => .error .misuse

/-- Takes the arguments behind `--`, which stands beside the operand or nowhere. -/
def takeBehind (form : Form) (t : Taken) : Option (List String) → Taken
  | none => t
  | some [arg] =>
    if form.takesOperand && t.settings.operand.isNone then
      { t with settings := { t.settings with operand := some arg } }
    else { t with surplus := true }
  | some [] => { t with surplus := t.surplus || !t.atOperand }
  | some _ => { t with surplus := true }

/-- Reads the arguments of a tool. -/
def Form.read (form : Form) (args : List String) : Except Refusal Settings := do
  let (sorted, behind) ← form.sortAll args
  let t := takeBehind form (← take form {} sorted) behind
  if t.surplus || (form.takesOperand && t.settings.operand.isNone) then .error .misuse
  else return t.settings

end TinyScript.Options
