import TinyScript.Position
import TinyScript.Text.Quoted

/-!
# Tokens

A token has a kind, the text it was read from (for a string literal, the text it stands for) and
the place of its first character. The end of the text is a token of its own, without a text.
-/

namespace TinyScript

inductive TokenKind
  | identifier | intLiteral | floatLiteral | stringLiteral | eof | lparen | rparen | lbrack
  | rbrack | lbrace | rbrace | comma | dot | colon | semi | query | vararg | eq | ne | lt | le | gt
  | ge | add | sub | mul | div | pow | mod | bshl | bshr | band | bxor | bor | bnot | len | assign
  | selfAdd | selfSub | selfMul | selfDiv | selfPow | selfMod | selfBshl | selfBshr | selfBand
  | selfBxor | selfBor | kwAnd | kwNot | kwOr | kwIf | kwElif | kwElse | kwSwitch | kwCase
  | kwDefault | kwLabel | kwGoto | kwBreak | kwContinue | kwRepeat | kwUntil | kwWhile | kwFor
  | kwIs | kwIn | kwFunc | kwReturn | kwVar | kwConst | kwTrue | kwFalse | kwNull
  /-- Marks the start of the list of reserved words; no text spells it. -/
  | wordsStart
  /-- Marks the end of the list of reserved words; no text spells it. -/
  | wordsEnd
deriving DecidableEq, Repr, Inhabited

namespace TokenKind

/-- The name of the kind in messages. -/
def label : TokenKind → String
  | .identifier => "IDENTIFIER"
  | .intLiteral => "INT_LITERAL"
  | .floatLiteral => "FLOAT_LITERAL"
  | .stringLiteral => "STRING_LITERAL"
  | .eof => "EOF"
  | .lparen => "LPAREN"
  | .rparen => "RPAREN"
  | .lbrack => "LBRACK"
  | .rbrack => "RBRACK"
  | .lbrace => "LBRACE"
  | .rbrace => "RBRACE"
  | .comma => "COMMA"
  | .dot => "DOT"
  | .colon => "COLON"
  | .semi => "SEMI"
  | .query => "QUERY"
  | .vararg => "VARARG"
  | .eq => "EQ"
  | .ne => "NE"
  | .lt => "LT"
  | .le => "LE"
  | .gt => "GT"
  | .ge => "GE"
  | .add => "ADD"
  | .sub => "SUB"
  | .mul => "MUL"
  | .div => "DIV"
  | .pow => "POW"
  | .mod => "MOD"
  | .bshl => "BSHL"
  | .bshr => "BSHR"
  | .band => "BAND"
  | .bxor => "BXOR"
  | .bor => "BOR"
  | .bnot => "BNOT"
  | .len => "LEN"
  | .assign => "ASSIGN"
  | .selfAdd => "SELF_ADD"
  | .selfSub => "SELF_SUB"
  | .selfMul => "SELF_MUL"
  | .selfDiv => "SELF_DIV"
  | .selfPow => "SELF_POW"
  | .selfMod => "SELF_MOD"
  | .selfBshl => "SELF_BSHL"
  | .selfBshr => "SELF_BSHR"
  | .selfBand => "SELF_BAND"
  | .selfBxor => "SELF_BXOR"
  | .selfBor => "SELF_BOR"
  | .kwAnd => "AND"
  | .kwNot => "NOT"
  | .kwOr => "OR"
  | .kwIf => "IF"
  | .kwElif => "ELIF"
  | .kwElse => "ELSE"
  | .kwSwitch => "SWITCH"
  | .kwCase => "CASE"
  | .kwDefault => "DEFAULT"
  | .kwLabel => "LABEL"
  | .kwGoto => "GOTO"
  | .kwBreak => "BREAK"
  | .kwContinue => "CONTINUE"
  | .kwRepeat => "REPEAT"
  | .kwUntil => "UNTIL"
  | .kwWhile => "WHILE"
  | .kwFor => "FOR"
  | .kwIs => "IS"
  | .kwIn => "IN"
  | .kwFunc => "FUNC"
  | .kwReturn => "RETURN"
  | .kwVar => "VAR"
  | .kwConst => "CONST"
  | .kwTrue => "TRUE"
  | .kwFalse => "FALSE"
  | .kwNull => "NULL"
  | .wordsStart => "KW_START"
  | .wordsEnd => "KW_END"

/-- How a token of the kind is written; kinds of many spellings give their name. -/
def spelling : TokenKind → String
  | .identifier => "IDENTIFIER"
  | .intLiteral => "INT_LITERAL"
  | .floatLiteral => "FLOAT_LITERAL"
  | .stringLiteral => "STRING_LITERAL"
  | .eof => "EOF"
  | .lparen => "("
  | .rparen => ")"
  | .lbrack => "["
  | .rbrack => "]"
  | .lbrace => "\x7b"
  | .rbrace => "\x7d"
  | .comma => ","
  | .dot => "."
  | .colon => ":"
  | .semi => ";"
  | .query => "?"
  | .vararg => "..."
  | .eq => "=="
  | .ne => "!="
  | .lt => "<"
  | .le => "<="
  | .gt => ">"
  | .ge => ">="
  | .add => "+"
  | .sub => "-"
  | .mul => "*"
  | .div => "/"
  | .pow => "**"
  | .mod => "%"
  | .bshl => "<<"
  | .bshr => ">>"
  | .band => "&"
  | .bxor => "^"
  | .bor => "|"
  | .bnot => "~"
  | .len => "#"
  | .assign => "="
  | .selfAdd => "+="
  | .selfSub => "-="
  | .selfMul => "*="
  | .selfDiv => "/="
  | .selfPow => "**="
  | .selfMod => "%="
  | .selfBshl => "<<="
  | .selfBshr => ">>="
  | .selfBand => "&="
  | .selfBxor => "^="
  | .selfBor => "|="
  | .kwAnd => "and"
  | .kwNot => "not"
  | .kwOr => "or"
  | .kwIf => "if"
  | .kwElif => "elif"
  | .kwElse => "else"
  | .kwSwitch => "switch"
  | .kwCase => "case"
  | .kwDefault => "default"
  | .kwLabel => "label"
  | .kwGoto => "goto"
  | .kwBreak => "break"
  | .kwContinue => "continue"
  | .kwRepeat => "repeat"
  | .kwUntil => "until"
  | .kwWhile => "while"
  | .kwFor => "for"
  | .kwIs => "is"
  | .kwIn => "in"
  | .kwFunc => "func"
  | .kwReturn => "return"
  | .kwVar => "var"
  | .kwConst => "const"
  | .kwTrue => "true"
  | .kwFalse => "false"
  | .kwNull => "null"
  | .wordsStart => "__kw_start"
  | .wordsEnd => "__kw_end"

def all : List TokenKind :=
  [.identifier, .intLiteral, .floatLiteral, .stringLiteral, .eof, .lparen, .rparen, .lbrack,
   .rbrack, .lbrace, .rbrace, .comma, .dot, .colon, .semi, .query, .vararg, .eq, .ne, .lt, .le,
   .gt, .ge, .add, .sub, .mul, .div, .pow, .mod, .bshl, .bshr, .band, .bxor, .bor, .bnot, .len,
   .assign, .selfAdd, .selfSub, .selfMul, .selfDiv, .selfPow, .selfMod, .selfBshl, .selfBshr,
   .selfBand, .selfBxor, .selfBor, .kwAnd, .kwNot, .kwOr, .kwIf, .kwElif, .kwElse, .kwSwitch,
   .kwCase, .kwDefault, .kwLabel, .kwGoto, .kwBreak, .kwContinue, .kwRepeat, .kwUntil, .kwWhile,
   .kwFor, .kwIs, .kwIn, .kwFunc, .kwReturn, .kwVar, .kwConst, .kwTrue, .kwFalse, .kwNull,
   .wordsStart, .wordsEnd]

/-- The kind of a given name. -/
def ofLabel? (s : String) : Option TokenKind :=
  all.find? (·.label == s)

/-- The reserved words. -/
def keywords : List TokenKind :=
  [.kwAnd, .kwNot, .kwOr, .kwIf, .kwElif, .kwElse, .kwSwitch, .kwCase, .kwDefault, .kwLabel,
   .kwGoto, .kwBreak, .kwContinue, .kwRepeat, .kwUntil, .kwWhile, .kwFor, .kwIs, .kwIn, .kwFunc,
   .kwReturn, .kwVar, .kwConst, .kwTrue, .kwFalse, .kwNull]

/-- A word is the keyword it spells, or an identifier. -/
def ofWord (w : String) : TokenKind :=
  (keywords.find? (·.spelling == w)).getD .identifier

/-- The operators and separators in the order in which they are tried; the first one that the text
starts with is taken. -/
def operators : List TokenKind :=
  [.eq, .assign, .vararg, .dot, .selfAdd, .add, .selfSub, .sub, .selfMul, .mul, .selfDiv, .div,
   .selfPow, .pow, .selfMod, .mod, .selfBshl, .le, .bshl, .lt, .selfBshr, .ge, .bshr, .gt,
   .selfBand, .band, .selfBxor, .bxor, .selfBor, .bor, .lparen, .rparen, .lbrack, .rbrack,
   .lbrace, .rbrace, .comma, .colon, .semi, .query, .ne, .bnot, .len]

/-- The operators that change a variable in place. -/
def updates : List TokenKind :=
  [.selfAdd, .selfSub, .selfMul, .selfDiv, .selfPow, .selfMod, .selfBshl, .selfBshr, .selfBand,
   .selfBxor, .selfBor]

/-- The operators that stand before their operand. -/
def unaries : List TokenKind :=
  [.add, .sub, .kwNot, .len, .bnot]

theorem mem_all (k : TokenKind) : k ∈ all := by
  cases k <;> decide

end TokenKind

structure Token where
  kind : TokenKind
  text : Option String
  pos : Position
deriving DecidableEq, Repr, Inhabited

namespace Token

/-- How messages show the text of a token: the end of the text has none. -/
def shownText (t : Token) : String :=
  t.text.getD "None"

/-- A token as token listings and messages show it. -/
def render (t : Token) : String :=
  let text := (t.text.map Text.quoted).getD "None"
  s!"Token(TokenType.{t.kind.label}, {text}, pos={t.pos.render})"

end Token

end TinyScript
