import TinyScript.Text.Layout

/-!
# Scopes

A scope is a table of the symbols declared in it. A chain of scopes is a list, the innermost first;
looking a name up goes along the chain. Every step can be logged.
-/

namespace TinyScript

inductive SymbolKind
  | plain | builtinType | var | name
deriving DecidableEq, Repr, Inhabited

namespace SymbolKind

def label : SymbolKind → String
  | .plain => "Symbol"
  | .builtinType => "BuiltinTypeSymbol"
  | .var => "VarSymbol"
  | .name => "NameSymbol"

end SymbolKind

/-- A declared name; only variables can be assigned to. -/
structure Symbol where
  kind : SymbolKind
  ident : String
  level : Int
deriving DecidableEq, Repr, Inhabited

namespace Symbol

def render (s : Symbol) : String := s!"{s.kind.label}('{s.ident}')"

end Symbol

structure Scope where
  name : String
  level : Int
  /-- The name of the scope around it. -/
  outer : Option String
  symbols : List Symbol := []
  inLoop : Bool := false
  inFunction : Bool := false
deriving DecidableEq, Repr, Inhabited

namespace Scope

/-- A scope with its symbols, as listings show it. -/
def render (s : Scope) : String :=
  let outer := s.outer.getD "None"
  let head := s!"SCOPE SYMBOL TABLE <{s.name},{s.level},{outer}>"
  let rule := String.ofList (List.replicate head.length '=')
  let lines := s.symbols.map fun x => s!"{Text.padRight 10 x.ident}: {x.render}"
  "\n".intercalate (head :: rule :: lines ++ [rule])

/-- The symbols with `x` among them; one of the same name keeps its place. -/
def put (x : Symbol) : List Symbol → List Symbol
  | [] => [x]
  | y :: ys => if y.ident == x.ident then x :: ys else y :: put x ys

/-- Declares a name; the symbol takes the level of the scope. -/
def insert (s : Scope) (kind : SymbolKind) (x : String) : Scope :=
  { s with symbols := put ⟨kind, x, s.level⟩ s.symbols }

def find? (s : Scope) (x : String) : Option Symbol := s.symbols.find? (·.ident == x)

def insertNote (s : Scope) (x : String) : String := s!"insert: {x}. (scope: {s.name})"

def lookupNote (s : Scope) (x : String) : String := s!"lookup: {x}. (scope identifier: {s.name})"

/-- Looks a name up along a chain, or in its innermost scope only. The second part tells which
scopes were asked. -/
def lookup (x : String) (here : Bool) : List Scope → Option Symbol × List String
  | [] => (none, [])
  | s :: outer =>
    match s.find? x with
    | some y => (some y, [s.lookupNote x])
    | none =>
      if here then (none, [s.lookupNote x])
      else
        let (y, notes) := lookup x false outer
        (y, s.lookupNote x :: notes)

end Scope

end TinyScript
