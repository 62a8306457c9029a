import TinyScript.Number
import TinyScript.Text.Layout
import TinyScript.Tree

/-!
# Values

Values live in the cells of a store and are passed around as references, so that a change in place
is seen through every reference. A slot is a place that may hold a reference or nothing.

A map keeps its entries in the order of insertion. What an entry is found by, its mark, is taken
from the key when the entry is made; a key that is changed in place afterwards no longer fits it.
-/

namespace TinyScript

/-- The number of a cell. -/
structure Ref where
  index : Nat
deriving DecidableEq, Repr, Inhabited

/-- A place for a reference. -/
abbrev Slot := Option Ref

/-- What a key is found by. Numbers are marked by their residues; one that is no number is marked by
the cell it stands in. -/
inductive Mark
  | null
  | number (residue : Int)
  | notANumber (cell : Ref)
  | text (s : String)
deriving DecidableEq, Repr, Inhabited

/-- An entry of a map, with the mark its key had when the entry was made. -/
structure Entry (α : Type) where
  mark : Mark
  key : Ref
  value : α
deriving Repr, Inhabited

/-- A map. The successors lead from each key to the next one, for going through the map; they are
made when they are first asked for after keys have been added. -/
structure Table where
  entries : List (Entry Slot)
  grown : Bool
  successors : Option (List (Entry Ref))
deriving Repr, Inhabited

namespace Table

def empty : Table := ⟨[], false, none⟩

end Table

/-- What a host function does. -/
inductive HostAction
  | print
  | println
  | input
  /-- Yields something that is no value: nothing if it counts as false. -/
  | foreign (truthy : Bool)
deriving DecidableEq, Repr, Inhabited

/-- A function written in the language. -/
structure Closure where
  params : Option (List Node)
  vararg : Bool
  body : List Node
  signature : String
deriving Repr, Inhabited

namespace Closure

/-- The names of all parameters, which must be names. -/
def paramNames (params : Option (List Node)) : Except Failure (List String) :=
  (params.getD []).mapM fun p =>
    match p.ident? with
    | some x => .ok x
    | none => .error (.fault .missingPart)

/-- How a function with the given parameters is shown. -/
def signatureOf (names : List String) (vararg : Bool) : String :=
  let listed := String.join (names.map (· ++ ", ")) ++ if vararg then "..." else ""
  let inside := Text.trim (fun c => c == ',' || c == ' ') listed
  s!"func({inside})"

/-- A function of the given parameters and body. -/
def make (params : Option (List Node)) (vararg : Bool) (body : List Node) :
    Except Failure Closure := do
  let names ← paramNames params
  return ⟨params, vararg, body, signatureOf names vararg⟩

end Closure

/-- The content of a cell. -/
inductive Value
  | null
  | bool (b : Bool)
  | num (n : Number)
  | str (s : String)
  | list (items : List Slot)
  | map (t : Table)
  | object
  | type (name : String)
  | func (f : Closure)
  | host (name : String) (action : HostAction)
  /-- A value of no type, which cannot be shown. -/
  | blank
deriving Repr, Inhabited

namespace Value

/-- The name of the type of a value. -/
def typeName : Value → String
  | .null => "Null"
  | .bool _ => "Bool"
  | .num n => if n.isInt then "Int" else "Float"
  | .str _ => "String"
  | .list _ => "List"
  | .map _ => "Map"
  | .object => "Object"
  | .type _ => "Type"
  | .func _ => "Function"
  | .host .. => "HostFunction"
  | .blank => ""

/-- Values that `==` can tell apart: all numbers are of one kind. -/
def sameKind : Value → Value → Bool
  | .null, .null | .bool _, .bool _ | .num _, .num _ | .str _, .str _ | .list _, .list _
  | .map _, .map _ | .object, .object | .type _, .type _ | .func _, .func _ | .host .., .host ..
  | .blank, .blank => true
  | _, _ => false

/-- Values a map may have as keys. -/
def isKey : Value → Bool
  | .null | .num _ | .str _ => true
  | _ => false

def isNull : Value → Bool
  | .null => true
  | _ => false

/-- Values with members. -/
def isContainer : Value → Bool
  | .list _ | .map _ => true
  | _ => false

end Value

end TinyScript
