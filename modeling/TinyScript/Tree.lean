import TinyScript.Failure

/-!
# Trees

One type holds statements and expressions, because a tree may come from outside and hold anything
anywhere; what the parser builds is a smaller class. `missing` is a place where a node may stand
and none does. Number literals keep the text they were written with.
-/

namespace TinyScript

inductive Node
  | missing
  | empty
  | program (stats : List Node)
  | block (stats : List Node) (pos : Position)
  /-- Declares names, with values for the first of them. -/
  | declare (names : List Node) (inits : Option (List Node)) (isConst : Bool) (pos : Position)
  /-- The first condition that holds selects the body at the same place. -/
  | branch (conds bodies : List Node) (pos : Position)
  | switch (subject : Node) (cases bodies : List Node) (fallback : Node) (pos : Position)
  | repeatUntil (cond body : Node) (pos : Position)
  | whileLoop (cond body : Node) (pos : Position)
  | forRange (var start stop step body : Node) (pos : Position)
  /-- Without a second name the first one takes the values. -/
  | forEach (key val subject body : Node) (pos : Position)
  | breakLoop (pos : Position)
  | continueLoop (pos : Position)
  | returnValue (expr : Node) (pos : Position)
  | assign (targets sources : List Node) (pos : Position)
  | update (op : TokenKind) (target source : Node) (pos : Position)
  | funcDef (params : Option (List Node)) (vararg : Bool) (body : List Node) (pos : Position)
  | call (callee : Node) (args : Option (List Node)) (pos : Position)
  | select (cond yes no : Node) (pos : Position)
  | binary (op : TokenKind) (left right : Node) (pos : Position)
  | unary (op : TokenKind) (operand : Node) (pos : Position)
  | listOf (items : Option (List Node)) (pos : Position)
  | mapOf (keys values : List Node) (pos : Position)
  | setOf (items : Option (List Node)) (pos : Position)
  | access (base key : Node) (dot : Bool) (pos : Position)
  | name (ident : String) (pos : Position)
  | number (text : String) (isInt : Bool) (pos : Position)
  | string (value : String) (pos : Position)
  | bool (value : String) (pos : Position)
  | null (pos : Position)
deriving Inhabited, Repr, BEq

namespace Node

/-- The place a node is reported at; holes, empty statements and programs have none. -/
def pos? : Node → Option Position
  | .missing | .empty | .program _ => none
  | .block _ p | .declare _ _ _ p | .branch _ _ p | .switch _ _ _ _ p | .repeatUntil _ _ p
  | .whileLoop _ _ p | .forRange _ _ _ _ _ p | .forEach _ _ _ _ p | .breakLoop p
  | .continueLoop p | .returnValue _ p | .assign _ _ p | .update _ _ _ p | .funcDef _ _ _ p
  | .call _ _ p | .select _ _ _ p | .binary _ _ _ p | .unary _ _ p | .listOf _ p | .mapOf _ _ p
  | .setOf _ p | .access _ _ _ p | .name _ p | .number _ _ p | .string _ p | .bool _ p
  | .null p => some p

/-- The identifier of a name. -/
def ident? : Node → Option String
  | .name x _ => some x
  | _ => none

def isMissing : Node → Bool
  | .missing => true
  | _ => false

def isEmpty : Node → Bool
  | .empty => true
  | _ => false

end Node

end TinyScript
