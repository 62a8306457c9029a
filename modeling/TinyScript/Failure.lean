import TinyScript.Token

/-!
# What can go wrong

Every cause is a constructor; the wording is in the `message` functions. A stage of processing
reports an `Issue` at a position. Operations on values fail without a position, and the stage that
called them may turn such a failure into a report. Faults are failures no stage speaks about.
-/

namespace TinyScript

/-- Stages that report issues at positions. -/
inductive Stage
  | lexer | parser | semantic | interpreter
deriving DecidableEq, Repr, Inhabited

namespace Stage

/-- The word a report of the stage begins with. -/
def label : Stage → String
  | .lexer => "LexerError"
  | .parser => "ParserError"
  | .semantic => "SemanticError"
  | .interpreter => "InterpreterError"

end Stage

/-- Operands of the wrong type. -/
inductive OperandError
  | typesDiffer
  | leftNotComparable
  | rightNotComparable
  | leftNotNumber
  | rightNotNumber
  | leftNotNumberOrString
  | rightNotNumberOrString
  | notNumber
  | notTruthValue
  | inputTypeUnknown
  | inputUnreadable
deriving DecidableEq, Repr, Inhabited

namespace OperandError

def message : OperandError → String
  | .typesDiffer => "operand not same type"
  | .leftNotComparable => "left operand not a number"
  | .rightNotComparable => "right operand not a number"
  | .leftNotNumber => "left operand not number"
  | .rightNotNumber => "right operand not number"
  | .leftNotNumberOrString => "left operand not number or string"
  | .rightNotNumberOrString => "right operand not number or string"
  | .notNumber => "operand not number"
  | .notTruthValue => "cannot convert to bool"
  | .inputTypeUnknown => "arg[1] not `int` or `float`"
  | .inputUnreadable => "parser input fail"

end OperandError

/-- Access to a list or map with a key it does not have. -/
inductive MemberError
  | indexOutOfRange (index : String)
  | indexNotInt
  | keyNotAllowed
  | keyNotFound (key : String)
deriving DecidableEq, Repr, Inhabited

namespace MemberError

def message : MemberError → String
  | .indexOutOfRange i => s!"list index({i}) out of range"
  | .indexNotInt => "list index invalid (not int)"
  | .keyNotAllowed => "map key invalid (only support null,int,string)"
  | .keyNotFound k => s!"map key({k}) not found"

end MemberError

/-- What a stage reports. -/
inductive Issue
  | unrecognizedChar (item : String)
  | unsupportedEscape (item : String)
  | stringNotEnded
  | expected (kind : TokenKind)
  | unexpectedToken (item want : String)
  | typeNotImplemented (item : String)
  | nameNotDeclared (name : String)
  | nameDuplicated (name : String)
  | nameNotAssignable (name : String)
  | nameNotCallable (name : String)
  | invalidSyntax (word : String)
  | wrongType (want : String)
  | badValue (why : String)
  | opNotImplemented (op : String)
  | operand (e : OperandError)
  | member (e : MemberError)
  | notContainer
  | hostResult
  | extraArguments
  | setConstructor
  | fieldAccess
  | notIterable
  | other (text : String)
deriving DecidableEq, Repr, Inhabited

namespace Issue

def message : Issue → String
  | .unrecognizedChar c => s!"unrecognized char `{c}`"
  | .unsupportedEscape c => s!"unsupport escape char `{c}`"
  | .stringNotEnded => "literal string is not end"
  | .expected k => s!"expect TokenType.{k.label}"
  | .unexpectedToken item want => s!"token `{item}` is not expected, want `{want}`"
  | .typeNotImplemented t => s!"type `{t}` is not implemented"
  | .nameNotDeclared x => s!"name `{x}` not declared"
  | .nameDuplicated x => s!"name `{x}` duplicate declared"
  | .nameNotAssignable x => s!"name `{x}` not assignable"
  | .nameNotCallable x => s!"name `{x}` not callable"
  | .invalidSyntax w => s!"invalid syntax `{w}`"
  | .wrongType want => s!"expr type error, want `{want}`"
  | .badValue why => s!"expr value error: {why}"
  | .opNotImplemented op => s!"op `{op}` is not implemented"
  | .operand e => e.message
  | .member e => e.message
  | .notContainer => "expr not list or map"
  | .hostResult => "host function return invalid type value"
  | .extraArguments => "TODO: vararg"
  | .setConstructor => "TODO: set not implement!"
  | .fieldAccess => "TODO: built-in field access not implement!"
  | .notIterable => "TODO: foreach now only support list and map"
  | .other text => text

end Issue

/-- A text with the place it is about, under the heading `label`. -/
def headed (label : String) (pos : Position) (text : String) : String :=
  s!"{label}: <{pos.render}>: {text}"

/-- An issue, the stage that found it, and where. -/
structure Report where
  stage : Stage
  pos : Position
  issue : Issue
deriving DecidableEq, Repr, Inhabited

namespace Report

def message (r : Report) : String :=
  headed r.stage.label r.pos r.issue.message

end Report

/-- Failures that no stage reports. -/
inductive Fault
  /-- An index outside a list or text. -/
  | indexRange
  /-- An operation on a thing of a kind it is not made for. -/
  | wrongKind
  /-- A part asked of a thing that has no such part. -/
  | missingPart
  /-- An internal check that does not hold. -/
  | assertion
  /-- A key without an entry. -/
  | missingKey
  /-- A text that is no number, or a number with too many digits. -/
  | badNumeral
  | divisionByZero
  /-- An integer beyond the range of floating-point numbers. -/
  | overflow
  | endOfInput
  | fileNotFound
  /-- A value nested too deeply to be shown. -/
  | tooDeep
  /-- The tool stops with an exit code. -/
  | exit (code : Nat)
deriving DecidableEq, Repr, Inhabited

/-- Parts of the language that a tool does not handle. -/
inductive Unsupported
  /-- A tree with a hole where a node is needed. -/
  | hole
  /-- A construct the tool leaves out. -/
  | construct
deriving DecidableEq, Repr, Inhabited

namespace Unsupported

def message : Unsupported → String
  | .hole => "No visit_NoneType method"
  | .construct => "TODO: not implement!"

end Unsupported

inductive Failure
  | report (r : Report)
  | operand (e : OperandError)
  | member (e : MemberError)
  | unsupported (u : Unsupported)
  | fault (f : Fault)
deriving DecidableEq, Repr, Inhabited

namespace Failure

/-- The text of a failure; faults have none. -/
def message? : Failure → Option String
  | .report r => some r.message
  | .operand e => some e.message
  | .member e => some e.message
  | .unsupported u => some u.message
  | .fault _ => none

end Failure

/-- Why a computation stopped without a result. Running out of fuel is no failure of the program
under way: with more fuel it goes on. -/
inductive Halt
  | failed (f : Failure)
  | outOfFuel
deriving DecidableEq, Repr, Inhabited

end TinyScript
