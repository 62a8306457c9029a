import TinyScript.Lexer

/-!
# Feeding tokens to a parser

The parser sees one token at a time. A feed that has come to its last token goes on giving that
token, unless reading stopped there with a failure: then asking for more is that failure.
-/

namespace TinyScript

structure Feed where
  current : Token
  rest : List Token
  stop : Option Failure
deriving DecidableEq, Repr, Inhabited

namespace Feed

/-- A feed at the first of the tokens. -/
def ofTokens : List Token → Option Failure → Except Failure Feed
  | t :: ts, stop => .ok ⟨t, ts, stop⟩
  | [], some f => .error f
  | [], none => .error (.fault .indexRange)

/-- A feed at the first token of a text. -/
def ofSource (src : String) : Except Failure Feed :=
  let (ts, stop) := tokenize src
  ofTokens ts stop

end Feed

/-- Actions that take tokens from a feed. -/
abbrev Parse := EStateM Halt Feed

namespace Parse

def outOfFuel {α : Type} : Parse α := throw .outOfFuel

/-- Reports an issue at the current token. -/
def fail {α : Type} (issue : Issue) : Parse α := fun s =>
  .error (.failed (.report ⟨.parser, s.current.pos, issue⟩)) s

def current : Parse Token := fun s => .ok s.current s

def kind : Parse TokenKind := fun s => .ok s.current.kind s

def position : Parse Position := fun s => .ok s.current.pos s

/-- The text of the current token. -/
def text : Parse String := fun s => .ok (s.current.text.getD "") s

/-- Goes on to the next token. -/
def advance : Parse Unit := fun s =>
  match s.rest, s.stop with
  | t :: ts, _ => .ok () { s with current := t, rest := ts }
  | [], none => .ok () s
  | [], some f => .error (.failed f) s

/-- Takes a token of the given kind. -/
def eat (k : TokenKind) : Parse Unit := fun s =>
  if s.current.kind = k then advance s else fail (.expected k) s

/-- Takes a token of the given kind if it is the current one. -/
def eat? (k : TokenKind) : Parse Unit := fun s =>
  if s.current.kind = k then advance s else .ok () s

end Parse

end TinyScript
