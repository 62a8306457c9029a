import TinyScript.Cursor

/-!
# The lexer

A lexer keeps the text that is left and its place, the number of characters that are left, and the
first of them. They change only in `advance` (`Steps`). What is to be read is told from the first
character and, where that is not enough, from what the text starts with. The actions of `Scan` read
the same from a cursor alone.
-/

namespace TinyScript

structure Lexer extends Cursor where
  residual : Nat
  current : Option Char
deriving DecidableEq, Repr, Inhabited

/-- Actions on a lexer. -/
abbrev Lex := EStateM Failure Lexer

namespace Lexer

variable {α β : Type} {n : Nat} {l l' l'' : Lexer}

/-- The lexer before the first character of a text, which must have one. -/
def start (src : String) : Except Failure Lexer :=
  match src.toList with
  | [] => .error (.fault .indexRange)
  | c :: cs => .ok ⟨.start src, (c :: cs).length, some c⟩

def fail (issue : Issue) : Lex α := fun l => .error (.report ⟨.lexer, l.pos, issue⟩) l

/-- Reads `n` characters, which must be there. -/
def advance (n : Nat) : Lex Unit := fun l =>
  if n ≤ l.residual then
    let residual := l.residual - n
    let c := l.skip n
    .ok () ⟨c, residual, if residual = 0 then none else c.rest.head?⟩
  else .error (.fault .assertion) l

def startsWith (l : Lexer) (s : String) : Bool := s.toList.isPrefixOf l.rest

/-! ### Steps -/

theorem residual_of_advance (h : advance n l = .ok () l') : l'.residual + n = l.residual := by
  unfold advance at h
  split at h
  · cases h
    exact Nat.sub_add_cancel ‹_›
  · cases h

/-- The second lexer comes out of the first by advancing. -/
inductive Steps : Lexer → Lexer → Prop
  | refl {l : Lexer} : Steps l l
  | advance {n : Nat} {l l' l'' : Lexer} (h : advance n l = .ok () l') (hs : Steps l' l'') : Steps l l''

theorem Steps.trans (h : Steps l l') (h' : Steps l' l'') : Steps l l'' := by
  induction h with
  | refl => exact h'
  | advance h _ ih => exact .advance h (ih h')

theorem Steps.residual_le (h : Steps l l') : l'.residual ≤ l.residual := by
  induction h with
  | refl => exact Nat.le_refl _
  | advance h _ ih => exact Nat.le_trans ih (residual_of_advance h ▸ Nat.le_add_right _ _)

/-- Where an action has left the lexer, whether it ended well or failed. -/
def left : EStateM.Result Failure Lexer α → Lexer
  | .ok _ l | .error _ l => l

/-- The action only advances. -/
def Onward (x : Lex α) : Prop := ∀ l : Lexer, Steps l (left (x l))

/-- The action only advances, and cannot succeed without. -/
structure Forward (x : Lex α) : Prop where
  onward : Onward x
  residual_lt : ∀ {l l' : Lexer} {a : α}, x l = .ok a l' → l'.residual < l.residual

theorem Onward.steps {x : Lex α} {r : EStateM.Result Failure Lexer α} (hx : Onward x) (h : x l = r) :
    Steps l (left r) :=
  h ▸ hx l

theorem Onward.bind {x : Lex α} {f : α → Lex β} (hx : Onward x) (hf : ∀ a, Onward (f a)) :
    Onward (x >>= f) := by
  intro l
  simp only [Bind.bind, EStateM.bind]
  split <;> rename_i e
  · exact (hx.steps e).trans (hf _ _)
  · exact hx.steps e

theorem Onward.advance (n : Nat) : Onward (advance n) := by
  intro l
  cases h : Lexer.advance n l with
  | ok _ l' => exact .advance h .refl
  | error f l' =>
    unfold Lexer.advance at h
    split at h <;> cases h
    exact .refl

theorem Forward.bind {x : Lex α} {f : α → Lex β} (hx : Forward x) (hf : ∀ a, Onward (f a)) :
    Forward (x >>= f) := by
  refine ⟨hx.onward.bind hf, fun {l l' b} h => ?_⟩
  simp only [Bind.bind, EStateM.bind] at h
  split at h
  · rename_i a l₁ e
    exact Nat.lt_of_le_of_lt ((hf a).steps h).residual_le (hx.residual_lt e)
  · cases h

theorem Forward.advance (hn : 0 < n) : Forward (advance n) := by
  refine ⟨.advance n, fun {l l' _} h => ?_⟩
  have := residual_of_advance h
  omega

/-- Reads character by character while `goes` says so. -/
def readWhile (goes : Lexer → Bool) (l : Lexer) : EStateM.Result Failure Lexer (List Char) :=
  if goes l then
    match _h : advance 1 l with
    | .error f l' => .error f l'
    | .ok _ l' =>
      match readWhile goes l' with
      | .error f l'' => .error f l''
      | .ok cs l'' => .ok (l.current.toList ++ cs) l''
  else .ok [] l
termination_by l.residual
decreasing_by exact (Forward.advance Nat.one_pos).residual_lt _h

theorem Onward.readWhile (goes : Lexer → Bool) : Onward (readWhile goes) := by
  intro l
  fun_induction Lexer.readWhile goes l with
  | case1 l _ f l' h => exact (Onward.advance 1).steps h
  | case2 l _ _ l' h f l'' e ih | case3 l _ _ l' h cs l'' e ih =>
    rw [e] at ih
    exact .advance h ih
  | case4 => exact .refl

/-! ### Between tokens -/

/-- Reads to the end of a comment, which `ends` tells and which has `n` characters itself. A comment
may end with the text. -/
def closeComment (ends : Lexer → Char → Bool) (n : Nat) : Lex Unit := do
  let _ ← readWhile fun l => l.current.any fun c => !ends l c
  if (← get).current.isSome then advance n

/-- Reads a comment whose opening mark is the next two characters. -/
def skipComment (oneLine : Bool) : Lex Unit := do
  advance 2
  if oneLine then closeComment (fun _ c => c == '\n') 1
  else closeComment (fun l c => c == '*' && l.startsWith "*/") 2

theorem Onward.closeComment (ends : Lexer → Char → Bool) (n : Nat) : Onward (closeComment ends n) := by
  refine bind (readWhile _) fun _ l => ?_
  show Steps l (left ((if l.current.isSome = true then Lexer.advance n else pure ()) l))
  split
  · exact advance n l
  · exact .refl

theorem Forward.skipComment (oneLine : Bool) : Forward (skipComment oneLine) := by
  refine bind (advance Nat.two_pos) fun _ => ?_
  split <;> exact .closeComment _ _

/-- What stands between tokens at this place: white space, a comment or nothing. -/
def gapPart? (l : Lexer) : Option (Lex Unit) :=
  match l.current with
  | none => none
  | some c =>
    if Text.isBlank c then some (advance 1)
    else if l.startsWith "//" then some (skipComment true)
    else if l.startsWith "/*" then some (skipComment false)
    else none

theorem Forward.gapPart {part : Lex Unit} (h : gapPart? l = some part) : Forward part := by
  unfold gapPart? at h
  split at h
  · cases h
  · split at h
    · cases h
      exact advance Nat.one_pos
    · split at h
      · cases h
        exact skipComment true
      · split at h <;> cases h
        exact skipComment false

/-- Reads white space and comments. -/
def skipGap (l : Lexer) : EStateM.Result Failure Lexer Unit :=
  match _hp : gapPart? l with
  | none => .ok () l
  | some part =>
    match _h : part l with
    | .error f l' => .error f l'
    | .ok _ l' => skipGap l'
termination_by l.residual
decreasing_by exact (Forward.gapPart _hp).residual_lt _h

/-! ### Numbers and words -/

/-- Reads digits, with a point and more digits if a point follows. -/
def number : Lex Token := do
  let l ← get
  let whole ← readWhile (·.current.any Text.isDigit)
  if (← get).current = some '.' then
    advance 1
    let fraction ← readWhile (·.current.any Text.isDigit)
    return ⟨.floatLiteral, some (String.ofList (whole ++ '.' :: fraction)), l.pos⟩
  else return ⟨.intLiteral, some (String.ofList whole), l.pos⟩

/-- Reads a keyword or an identifier. -/
def word : Lex Token := do
  let l ← get
  let chars ← readWhile (·.current.any Text.isWordChar)
  let w := String.ofList chars
  return ⟨.ofWord w, some w, l.pos⟩

/-! ### Strings -/

/-- Reads what follows a backslash. An escaped quote yields the character after it, if there is one. -/
def escaped : Lex (Option Char) := do
  let l ← get
  if l.current.any Scan.isQuote then
    advance 1
    return (← get).current
  else if l.current = some 'n' then
    advance 1
    return some '\n'
  else fail (.unsupportedEscape (Scan.shownChar l.current))

/-- Reads a backslash and the character it escapes. -/
def escape : Lex (Option Char) := do
  advance 1
  escaped

/-- Reads the character `c` of a string, or the escape that it begins; a carriage return is dropped. -/
def stringPart (c : Char) : Lex (List Char) := do
  if c = '\r' then
    advance 1
    return []
  else if c = '\\' then
    match ← escape with
    | some d => return [d]
    | none => throw (.fault .wrongKind)
  else
    advance 1
    return [c]

theorem Onward.escaped : Onward escaped := by
  intro l
  show Steps l (left ((if _ then _ else if _ then _ else _ : Lex (Option Char)) l))
  split
  · exact bind (advance 1) (fun _ _ => .refl) l
  · split
    · exact bind (advance 1) (fun _ _ => .refl) l
    · exact .refl

theorem Forward.escape : Forward escape := (advance Nat.one_pos).bind fun _ => .escaped

theorem Forward.stringPart (c : Char) : Forward (stringPart c) := by
  unfold Lexer.stringPart
  split
  · exact (advance Nat.one_pos).bind fun _ _ => .refl
  · split
    · refine escape.bind fun d _ => ?_
      split <;> exact .refl
    · exact (advance Nat.one_pos).bind fun _ _ => .refl

/-- Reads the rest of a string up to its closing quote `q`; `acc` holds the characters so far, the
last one first. -/
def stringTail (q : Option Char) (acc : List Char) (l : Lexer) : EStateM.Result Failure Lexer String :=
  if l.current = q then (do advance 1; return String.ofList acc.reverse : Lex String) l
  else
    match l.current with
    | none => fail .stringNotEnded l
    | some c =>
      if c = '\n' ∧ q ≠ some '\x60' then fail .stringNotEnded l
      else
        match _h : stringPart c l with
        | .error f l' => .error f l'
        | .ok cs l' => stringTail q (cs ++ acc) l'
termination_by l.residual
decreasing_by exact (Forward.stringPart c).residual_lt _h

/-- Reads a string from its opening quote on. -/
def string : Lex Token := do
  let l ← get
  advance 1
  let s ← stringTail l.current []
  return ⟨.stringLiteral, some s, l.pos⟩

/-! ### Tokens -/

/-- Reads the first operator of the table that the text starts with. -/
def operator : Lex Token := do
  let l ← get
  match TokenKind.operators.find? fun k => k.spelling.toList.head? = l.current && l.startsWith k.spelling with
  | some k =>
    advance k.spelling.length
    return ⟨k, some k.spelling, l.pos⟩
  | none => fail (.unrecognizedChar (Scan.shownChar l.current))

/-- Reads the next token; at the end of the text, the end token again and again. -/
def token : Lex Token := do
  skipGap
  let l ← get
  match l.current with
  | none => return ⟨.eof, none, l.pos⟩
  | some c =>
    if Text.isDigit c then number
    else if Scan.isQuote c then string
    else if Text.isWordStart c then word
    else operator

/-- The tokens from here on: up to the end token, or up to the failure that stopped reading. -/
def tokens (l : Lexer) : List Token × Option Failure :=
  match token l with
  | .error f _ => ([], some f)
  | .ok t l' =>
    if t.kind = .eof then ([t], none)
    else if l'.residual < l.residual then
      let more := tokens l'
      (t :: more.1, more.2)
    else ([t], none)
termination_by l.residual

end Lexer

/-- The tokens of a text and the failure that ended reading, if one did. -/
def tokenize (src : String) : List Token × Option Failure :=
  match Lexer.start src with
  | .error f => ([], some f)
  | .ok l => l.tokens

end TinyScript
