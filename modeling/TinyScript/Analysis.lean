import TinyScript.Scope
import TinyScript.Tree

/-!
# Checking names before a run

Goes through a tree with a chain of scopes and reports names that are used before they are declared,
declared twice, or assigned to although they are not variables. Functions, lists, maps, sets and
member access are not handled. A check that fails leaves the scopes open that it was in.
-/

namespace TinyScript

structure Analysis where
  scopes : List Scope := []
  /-- Whether a `repeat` loop has been met. -/
  metLoop : Bool := false
  out : String := ""
  logScopes : Bool := false
  logSteps : Bool := false
deriving Repr, Inhabited

/-- Actions on an analysis. -/
abbrev Check := EStateM Failure Analysis

namespace Check

def report {α : Type} (p : Position) (issue : Issue) : Check α :=
  throw (.report ⟨.semantic, p, issue⟩)

def fault {α : Type} (f : Fault) : Check α := throw (.fault f)

/-- Logs a step of the analysis. -/
def note (msg : String) : Check Unit :=
  modify fun a => if a.logSteps then { a with out := a.out ++ msg ++ "\n" } else a

/-- Logs what happens to scopes. -/
def scopeNotes (msgs : List String) : Check Unit :=
  modify fun a =>
    if a.logScopes then { a with out := a.out ++ String.join (msgs.map (· ++ "\n")) } else a

/-! ### Scopes -/

/-- The innermost scope. -/
def currentScope : Check Scope := do
  match (← get).scopes with
  | s :: _ => return s
  | [] => fault .missingPart

/-- Enters a scope; one that inherits is in the same loops and functions as the scope around it. -/
def enter (name : String) (inherits : Bool) : Check Unit := do
  note s!"enter scope: {name}"
  let scopes := (← get).scopes
  let s : Scope := match scopes with
    | outer :: _ => { name, level := outer.level + 1, outer := some outer.name }
    | [] => { name, level := 0, outer := none }
  let s ← if inherits then do
      let outer ← currentScope
      pure { s with inLoop := outer.inLoop, inFunction := outer.inFunction }
    else pure s
  modify fun a => { a with scopes := s :: scopes }

def leave : Check Unit := do
  let s ← currentScope
  note s.render
  note s!"leave scope: {s.name}"
  note ""
  modify fun a => { a with scopes := a.scopes.tail }

def insert (kind : SymbolKind) (x : String) : Check Unit := do
  let s ← currentScope
  scopeNotes [s.insertNote x]
  modify fun a => { a with scopes := s.insert kind x :: a.scopes.tail }

def lookup (x : String) (here : Bool) : Check (Option Symbol) := do
  let (y, notes) := Scope.lookup x here (← get).scopes
  scopeNotes notes
  return y

/-! ### Parts of statements -/

/-- The identifier of a node that has to be a name. -/
def identOf (n : Node) : Check String :=
  match n.ident? with
  | some x => pure x
  | none => fault .missingPart

def declareAll (p : Position) : List Node → Check Unit
  | [] => pure ()
  | n :: ns => do
    let x ← identOf n
    if (← lookup x true).isSome then report p (.nameDuplicated x)
    else
      insert .var x
      declareAll p ns

/-- A name that is assigned to must be that of a variable. -/
def assignable (x : String) (p : Position) : Check Unit := do
  match ← lookup x false with
  | none => report p (.nameNotDeclared x)
  | some s => if s.kind = .var then pure () else report p (.nameNotAssignable x)

/-- A jump out of a round must be in a loop. -/
def insideLoop (word : String) (p : Position) : Check Unit := do
  if (← currentScope).inLoop then pure () else report p (.invalidSyntax word)

/-- Checks one after the other. -/
def inOrder : List (Check Unit) → Check Unit
  | [] => pure ()
  | x :: xs => do
    x
    inOrder xs

/-- Pairs of checks, as far as there are both. -/
def inPairs : List (Check Unit) → List (Check Unit) → Check Unit
  | x :: xs, y :: ys => do
    x
    y
    inPairs xs ys
  | _, _ => pure ()

mutual

def node : Node → Check Unit
  | .missing => throw (.unsupported .hole)
  | .program stats => do
    enter "program" false
    inOrder (nodes stats)
    leave
  | .block stats _ => do
    enter "block" true
    inOrder (nodes stats)
    leave
  | .declare names inits _ p => do
    declareAll p names
    match inits with
    | none => pure ()
    | some inits => inOrder (nodes inits)
  | .branch conds bodies _ => inPairs (nodes conds) (nodes bodies)
  | .switch subject cases bodies fallback _ => do
    node subject
    inPairs (nodes cases) (nodes bodies)
    node fallback
  | .repeatUntil cond body _ => do
    modify fun a => { a with metLoop := true }
    node cond
    node body
  | .whileLoop cond body _ => do
    node cond
    node body
  | .forRange var start stop step body _ => do
    enter "for" true
    insert .name (← identOf var)
    node start
    node stop
    match step with
    | .missing => pure ()
    | step => node step
    node body
    leave
  | .forEach key val subject body _ => do
    enter "for" true
    insert .name (← identOf key)
    if val.isMissing then pure () else insert .name (← identOf val)
    node subject
    node body
    leave
  | .breakLoop p => insideLoop "break" p
  | .continueLoop p => insideLoop "continue" p
  | .assign targets sources _ => do
    inOrder (nodesAsTargets targets)
    inOrder (nodes sources)
  | .update _ target source _ => do
    match target with
    | .name x p => assignable x p
    | target => node target
    node source
  | .call _ args _ =>
    match args with
    | none => fault .wrongKind
    | some args => inOrder (nodes args)
  | .select cond yes no _ => do
    node cond
    node yes
    node no
  | .binary _ left right _ => do
    node left
    node right
  | .unary _ operand _ => node operand
  | .name x p => do
    if (← lookup x false).isSome then pure () else report p (.nameNotDeclared x)
  | .empty | .number .. | .string .. | .bool .. | .null _ => pure ()
  | .returnValue .. | .funcDef .. | .listOf .. | .mapOf .. | .setOf .. | .access .. =>
    throw (.unsupported .construct)
termination_by structural n => n

/-- The checks of several nodes. -/
def nodes : List Node → List (Check Unit)
  | [] => []
  | n :: ns => node n :: nodes ns
termination_by structural ns => ns

/-- The checks of several nodes that are assigned to. -/
def nodesAsTargets : List Node → List (Check Unit)
  | [] => []
  | n :: ns =>
    (match n with
      | .name x p => assignable x p
      | n => node n) :: nodesAsTargets ns
termination_by structural ns => ns

end

end Check

/-- Checks a whole tree. -/
def analyze (tree : Node) : Check Unit := do
  Check.enter "__scope_0" false
  Check.node tree
  Check.leave

end TinyScript
