import TinyScript.Failure
import TinyScript.Text.Blank
import TinyScript.Text.Alphabetic

/-!
# Reading tokens from a text

A cursor is the text still to be read and the place of its first character. `Scan` actions move the
cursor; one that fails leaves it at the character it stopped at, and reading can go on from there.
They read by the length of what is there; the lexer reads the same character by character
(`Lexer.follows_token`).
-/

namespace TinyScript

structure Cursor where
  rest : List Char
  pos : Position
deriving DecidableEq, Repr, Inhabited

namespace Cursor

/-- The cursor before the first character of a text. -/
def start (src : String) : Cursor := ⟨src.toList, .start⟩

/-- The cursor after `n` characters, or after the last if there are fewer. -/
def skip (c : Cursor) (n : Nat) : Cursor :=
  ⟨c.rest.drop n, c.pos.after (c.rest.take n)⟩

@[simp] theorem skip_zero (c : Cursor) : c.skip 0 = c := by
  simp [skip]

theorem skip_skip (c : Cursor) (m n : Nat) : (c.skip m).skip n = c.skip (m + n) := by
  simp only [skip, List.drop_drop, ← Position.after_append, List.take_add]

end Cursor

/-- Actions on a cursor. -/
abbrev Scan := EStateM Failure Cursor

namespace Scan

def fail {α : Type} (issue : Issue) : Scan α := fun c =>
  .error (.report ⟨.lexer, c.pos, issue⟩) c

/-- Reads `n` characters, which must be there. -/
def advance (n : Nat) : Scan Unit := fun c =>
  if n ≤ c.rest.length then .ok () (c.skip n) else .error (.fault .assertion) c

/-! ### Between tokens -/

/-- Length of the rest of a line, its newline included. -/
def lineLength : List Char → Nat
  | [] => 0
  | c :: cs => if c = '\n' then 1 else lineLength cs + 1

/-- Length of what is left of a `/*` comment; one that is not closed ends with the text. -/
def blockLength : List Char → Nat
  | [] => 0
  | c :: cs => if c = '*' ∧ cs.head? = some '/' then 2 else blockLength cs + 1

/-- Length of the longest run of white space and comments at the start of a text. -/
def gapLength (cs : List Char) : Nat :=
  match cs with
  | [] => 0
  | c :: cs =>
    if Text.isBlank c then gapLength cs + 1
    else if c = '/' then
      match cs with
      | '/' :: cs => gapLength (cs.drop (lineLength cs)) + lineLength cs + 2
      | '*' :: cs => gapLength (cs.drop (blockLength cs)) + blockLength cs + 2
      | _ => 0
    else 0
termination_by cs.length

/-- Moves past white space and comments. -/
def skipGap : Scan Unit := fun c => .ok () (c.skip (gapLength c.rest))

/-! ### Numbers and words -/

/-- Reads digits, with a point and more digits if a point follows. -/
def number : Scan Token := fun c =>
  let whole := c.rest.takeWhile Text.isDigit
  let c₁ := c.skip whole.length
  if c₁.rest.head? = some '.' then
    let fraction := c₁.rest.tail.takeWhile Text.isDigit
    .ok ⟨.floatLiteral, some (String.ofList (whole ++ '.' :: fraction)), c.pos⟩
      (c₁.skip (fraction.length + 1))
  else
    .ok ⟨.intLiteral, some (String.ofList whole), c.pos⟩ c₁

/-- Reads a keyword or an identifier. -/
def word : Scan Token := fun c =>
  let chars := c.rest.takeWhile Text.isWordChar
  let w := String.ofList chars
  .ok ⟨.ofWord w, some w, c.pos⟩ (c.skip chars.length)

/-! ### Strings -/

/-- The three quotes a string may stand between; only the last one may hold newlines. -/
def isQuote (c : Char) : Bool :=
  c == '"' || c == '\'' || c == '\x60'

def shownChar (c : Option Char) : String :=
  (c.map fun c => String.ofList [c]).getD "None"

/-- Reads a backslash and the character it escapes. An escaped quote yields the character after the
quote, which stays unread; at the end of the text there is none. -/
def escape : Scan (Option Char) := do
  advance 1
  fun c =>
    match c.rest with
    | d :: ds =>
      if isQuote d then .ok ds.head? (c.skip 1)
      else if d = 'n' then .ok (some '\n') (c.skip 1)
      else fail (.unsupportedEscape (shownChar (some d))) c
    | [] => fail (.unsupportedEscape (shownChar none)) c

/-- Reads the rest of a string up to its closing quote `q`; `acc` holds the characters so far, the
last one first. -/
def stringTail (q : Char) (acc : List Char) (c : Cursor) : EStateM.Result Failure Cursor String :=
  match _h : c.rest with
  | [] => fail .stringNotEnded c
  | d :: _ =>
    if d = q then .ok (String.ofList acc.reverse) (c.skip 1)
    else if d = '\n' ∧ q ≠ '\x60' then fail .stringNotEnded c
    else if d = '\r' then stringTail q acc (c.skip 1)
    else if d = '\\' then
      match escape c with
      | .error f c' => .error f c'
      | .ok none c' => .error (.fault .wrongKind) c'
      | .ok (some e) c' =>
        if c'.rest.length < c.rest.length then stringTail q (e :: acc) c'
        else .error (.fault .assertion) c'
    else stringTail q (d :: acc) (c.skip 1)
termination_by c.rest.length
decreasing_by all_goals simp_all [Cursor.skip]

/-- Reads a string from its opening quote on. -/
def string : Scan Token := fun c =>
  match c.rest with
  | [] => .error (.fault .assertion) c
  | q :: _ =>
    match stringTail q [] (c.skip 1) with
    | .ok s c' => .ok ⟨.stringLiteral, some s, c.pos⟩ c'
    | .error f c' => .error f c'

/-! ### Tokens -/

/-- Reads the first operator of the table that the text starts with. -/
def operator : Scan Token := fun c =>
  match TokenKind.operators.find? fun k => k.spelling.toList.isPrefixOf c.rest with
  | some k => .ok ⟨k, some k.spelling, c.pos⟩ (c.skip k.spelling.length)
  | none => fail (.unrecognizedChar (shownChar c.rest.head?)) c

/-- Reads the next token; at the end of the text, the end token again and again. -/
def token : Scan Token := do
  skipGap
  fun c =>
    match c.rest with
    | [] => .ok ⟨.eof, none, c.pos⟩ c
    | d :: _ =>
      if Text.isDigit d then number c
      else if isQuote d then string c
      else if Text.isWordStart d then word c
      else operator c

/-- The tokens from the cursor on: up to the end token, or up to the failure that stopped
reading. -/
def tokens (c : Cursor) : List Token × Option Failure :=
  match token c with
  | .error f _ => ([], some f)
  | .ok t c' =>
    if t.kind = .eof then ([t], none)
    else if c'.rest.length < c.rest.length then
      let more := tokens c'
      (t :: more.1, more.2)
    else ([t], none)
termination_by c.rest.length

end Scan

end TinyScript
