/-!
# Places in a source text

Lines and columns count from one, columns in code points.
-/

namespace TinyScript

structure Position where
  line : Int
  col : Int
deriving DecidableEq, Repr, Inhabited

namespace Position

/-- The place of the first character of a text. -/
def start : Position := ⟨1, 1⟩

/-- The place after character `c` at `p`. -/
def next (p : Position) (c : Char) : Position :=
  if c = '\n' then ⟨p.line + 1, 1⟩ else ⟨p.line, p.col + 1⟩

/-- The place after the characters `cs` from `p` on. -/
def after (p : Position) (cs : List Char) : Position :=
  cs.foldl next p

/-- Line and column with a colon between them. -/
def render (p : Position) : String :=
  s!"{p.line}:{p.col}"

@[simp] theorem after_nil (p : Position) : p.after [] = p := rfl

@[simp] theorem after_cons (p : Position) (c : Char) (cs : List Char) :
    p.after (c :: cs) = (p.next c).after cs := rfl

theorem after_append (p : Position) (as bs : List Char) :
    p.after (as ++ bs) = (p.after as).after bs := by
  simp [after, List.foldl_append]

end Position

end TinyScript
