import TinyScript.Tree

/-!
# Writing a tree as source text

A layout is the pieces that have been written, in order, and the failure that ended the writing if
one did; nothing is written after a failure. In the loose style every statement has a line of its
own, indented by four blanks a level. In the tight style blanks stand for line ends and every
statement ends with a semicolon.
-/

namespace TinyScript

structure Layout where
  pieces : List String
  failure : Option Failure
deriving Inhabited, Repr

namespace Layout

def nil : Layout := ⟨[], none⟩

def piece (s : String) : Layout := ⟨[s], none⟩

def fail (f : Failure) : Layout := ⟨[], some f⟩

/-- `a`, and then `b` unless `a` ended with a failure. -/
def append (a b : Layout) : Layout :=
  match a.failure with
  | some _ => a
  | none => ⟨a.pieces ++ b.pieces, b.failure⟩

instance : Append Layout := ⟨append⟩

/-- Layouts one after the other. -/
def concat : List Layout → Layout
  | [] => nil
  | l :: ls => l ++ concat ls

/-- Layouts with commas between them; there must be at least one. -/
def commas : List Layout → Layout
  | [] => fail (.fault .indexRange)
  | [l] => l
  | l :: ls => l ++ piece ", " ++ commas ls

/-- The text of a layout. -/
def text (l : Layout) : String :=
  String.join l.pieces

end Layout

/-- How a tree is written: the style, and the depth of indentation. -/
structure Style where
  tight : Bool
  level : Nat
deriving Inhabited, Repr

namespace Style

open Layout

def deeper (st : Style) : Style := { st with level := st.level + 1 }

def newline (st : Style) : Layout := piece (if st.tight then " " else "\n")

def indent (st : Style) : Layout :=
  if st.tight then nil else piece (String.ofList (List.replicate (4 * st.level) ' '))

/-- A statement on a line of its own; `body` is how it is written at this level. -/
def statement (st : Style) (body : Layout) : Layout :=
  st.indent ++ body ++ if st.tight then piece ";" else nil

/-- A statement and the end of its line. -/
def line (st : Style) (body : Layout) : Layout :=
  st.statement body ++ st.newline

end Style

namespace Node

open Layout

/-- The name of a node that has to be a name. -/
def identLayout (n : Node) : Layout :=
  match n.ident? with
  | some x => piece x
  | none => fail (.fault .missingPart)

def isBlock : Node → Bool
  | .block .. => true
  | _ => false

/-- The literal `true`, which stands for the condition of a last `else`. -/
def isTrue : Node → Bool
  | .bool "true" _ => true
  | _ => false

/-- The style the body of a branch or loop is written in. -/
def bodyStyle (st : Style) (n : Node) : Style :=
  if n.isBlock then st else st.deeper

/-- The body `n` of a branch or loop: a block goes on in the same line, anything else in the next.
`body` is how it is written in its style. -/
def bodyLayout (st : Style) (n : Node) (body : Layout) : Layout :=
  if n.isBlock then piece " " ++ body
  else piece ":" ++ st.newline ++ st.deeper.statement body

/-- Clauses after the first: all but the last are written as `elif`, the last one as `else` if
its condition is the literal `true`, and not at all otherwise. `last` is the very last body. -/
def laterClauses (st : Style) (last : Layout) : List (Layout × Bool) → List Layout → Layout
  | [], _ => nil
  | [(_, isTrue)], _ =>
    if isTrue then st.newline ++ st.indent ++ piece "else" ++ last else nil
  | (cond, _) :: conds, body :: bodies =>
    st.newline ++ st.indent ++ piece "elif " ++ cond ++ body ++ laterClauses st last conds bodies
  | (cond, _) :: _, [] =>
    st.newline ++ st.indent ++ piece "elif " ++ cond ++ fail (.fault .indexRange)

mutual

def layout (st : Style) : Node → Layout
  | .missing => fail (.unsupported .hole)
  | .empty => piece ";"
  | .program stats => concat ((layouts st stats).map st.line)
  | .block stats _ =>
    piece "\x7b" ++ st.newline ++ concat ((layouts st.deeper stats).map st.deeper.line)
      ++ st.indent ++ piece "\x7d"
  | .declare names inits isConst _ =>
    piece (if isConst then "const " else "var ") ++ commas (names.map identLayout) ++
      match inits with
      | none | some [] => nil
      | some (e :: es) => piece " = " ++ commas (e.layout st :: layouts st es)
  | .branch conds bodies _ =>
    let marks := conds.map isTrue
    let bodies := bodyLayouts st bodies
    match (layouts st conds).zip marks, bodies with
    | [], _ => piece "if " ++ fail (.fault .indexRange)
    | (cond, _) :: _, [] => piece "if " ++ cond ++ fail (.fault .indexRange)
    | (cond, _) :: conds, body :: bodies =>
      piece "if " ++ cond ++ body ++ laterClauses st (bodies.getLastD body) conds bodies
  | .whileLoop cond body _ =>
    piece "while " ++ cond.layout st ++ bodyLayout st body (body.layout (bodyStyle st body))
  | .forRange var start stop step body _ =>
    piece "for " ++ var.layout st ++ piece " is " ++ start.layout st ++ piece ", "
      ++ stop.layout st
      ++ (match step with
        | .missing => nil
        | step => piece ", " ++ step.layout st)
      ++ bodyLayout st body (body.layout (bodyStyle st body))
  | .breakLoop _ => piece "break"
  | .continueLoop _ => piece "continue"
  | .assign targets sources _ =>
    commas (layouts st targets) ++
      match sources with
      | [] => nil
      | e :: es => piece " = " ++ commas (e.layout st :: layouts st es)
  | .update op target source _ =>
    target.layout st ++ piece s!" {op.spelling} " ++ source.layout st
  | .call callee args _ =>
    callee.layout st ++ piece "("
      ++ (match args with
        | none | some [] => nil
        | some (e :: es) => commas (e.layout st :: layouts st es))
      ++ piece ")"
  | .select cond yes no _ =>
    cond.layout st ++ piece " ? " ++ yes.layout st ++ piece " : " ++ no.layout st
  | .binary op left right _ => left.layout st ++ piece s!" {op.spelling} " ++ right.layout st
  | .unary op operand _ => piece op.spelling ++ operand.layout st
  | .name x _ => piece x
  | .number text _ _ => piece text
  | .string value _ => piece s!"'{value}'"
  | .bool value _ => piece value
  | .null _ => piece "null"
  | .switch .. | .repeatUntil .. | .forEach .. | .returnValue .. | .funcDef .. | .listOf ..
  | .mapOf .. | .setOf .. | .access .. => fail (.unsupported .construct)
termination_by structural n => n

def layouts (st : Style) : List Node → List Layout
  | [] => []
  | n :: ns => n.layout st :: layouts st ns
termination_by structural ns => ns

/-- Several nodes as the bodies of branches. -/
def bodyLayouts (st : Style) : List Node → List Layout
  | [] => []
  | n :: ns => bodyLayout st n (n.layout (bodyStyle st n)) :: bodyLayouts st ns
termination_by structural ns => ns

end

end Node

/-- A tree as source text, as far as it could be written. -/
def format (tight : Bool) (tree : Node) : Layout :=
  tree.layout ⟨tight, 0⟩

end TinyScript
