import TinyScript.Store.Text

/-!
# Activation records

A record holds the names declared in one run of a program, block, loop or function. The call stack
holds the records under way, the innermost first; a name that a record does not hold is looked up in
the record below it. The state of a record tells that a jump is passing through it, and its result
is what a `return` has left for the caller. All but jumps works with any type of states and results,
`Unit` included.
-/

namespace TinyScript

inductive RecordKind
  | program | block | loop | function
deriving DecidableEq, Repr, Inhabited

namespace RecordKind

def label : RecordKind → String
  | .program => "PROGRAM"
  | .block => "BLOCK"
  | .loop => "LOOP"
  | .function => "FUNCTION"

end RecordKind

inductive RecordState
  | normal | breaked | continued | returned
deriving DecidableEq, Repr, Inhabited

namespace RecordState

def label : RecordState → String
  | .normal => "NORMAL"
  | .breaked => "BREAKED"
  | .continued => "CONTINUED"
  | .returned => "RETURNED"

instance : ToString RecordState := ⟨label⟩

end RecordState

/-- What a name stands for. A parameter without an argument has no value. -/
structure Binding where
  value : Slot
  isConst : Bool
deriving DecidableEq, Repr, Inhabited

/-- A record with states in `σ` and results in `ρ`. `outer` is the number of the record below it, in
the order of entering, from 1. -/
structure RecordOf (σ ρ : Type) where
  name : String
  kind : RecordKind
  members : List (String × Binding) := []
  level : Int := 0
  outer : Option Nat := none
  state : σ := by exact default
  retval : ρ := by exact default
deriving DecidableEq, Repr

abbrev Record := RecordOf RecordState Slot

namespace RecordOf

variable {σ ρ : Type}

instance [Inhabited σ] [Inhabited ρ] : Inhabited (RecordOf σ ρ) :=
  ⟨{ name := default, kind := default }⟩

def get? (r : RecordOf σ ρ) (x : String) : Option Binding := r.members.lookup x

def has (r : RecordOf σ ρ) (x : String) : Bool := (r.get? x).isSome

/-- The members with `x` bound to `b`; a name that is there keeps its place. -/
def bind (x : String) (b : Binding) : List (String × Binding) → List (String × Binding)
  | [] => [(x, b)]
  | (y, c) :: ms => if x == y then (y, b) :: ms else (y, c) :: bind x b ms

def set (r : RecordOf σ ρ) (x : String) (b : Binding) : RecordOf σ ρ :=
  { r with members := bind x b r.members }

/-- Binds each name to the value at the same place; there must be one for each. -/
def setValues (r : RecordOf σ ρ) (xs : List String) (vs : List Slot) (isConst : Bool) :
    Except Failure (RecordOf σ ρ) :=
  if xs.length = vs.length then
    .ok ((xs.zip vs).foldl (fun r (x, v) => r.set x ⟨v, isConst⟩) r)
  else .error (.fault .assertion)

/-- A line of a listing; a member without a value cannot be listed. -/
def memberLine (s : Store) (x : String) (b : Binding) : Except Failure String :=
  match s.get? b.value with
  | none => .error (.fault .missingPart)
  | some v => do
    let shown ← s.text b.value
    let mark := if b.isConst then "const" else ""
    return s!"    {Text.padRight 20 x}: {Text.padRight 12 v.typeName}: {shown} {mark}"

/-- A record with its members, as listings show it. -/
def render [ToString σ] (s : Store) (r : RecordOf σ ρ) : Except Failure String := do
  let lines ← r.members.mapM fun (x, b) => memberLine s x b
  let head := s!"{r.level}: {r.name} {r.kind.label} {r.state}"
  return "ACTIVATION RECORD:\n" ++ "\n".intercalate (head :: lines)

end RecordOf

/-- The records under way, the innermost first; `current` is the number of the innermost one. -/
structure CallStackOf (σ ρ : Type) where
  records : List (RecordOf σ ρ) := []
  current : Option Nat := none
  level : Int := 0
deriving DecidableEq, Repr, Inhabited

abbrev CallStack := CallStackOf RecordState Slot

namespace CallStackOf

variable {σ ρ : Type}

def current? (cs : CallStackOf σ ρ) : Option (RecordOf σ ρ) := cs.records.head?

def push (cs : CallStackOf σ ρ) (r : RecordOf σ ρ) : CallStackOf σ ρ :=
  ⟨{ r with outer := cs.current, level := cs.level + 1 } :: cs.records,
    some (cs.records.length + 1), cs.level + 1⟩

/-- Takes the innermost record off the stack. -/
def pop (cs : CallStackOf σ ρ) : Option (RecordOf σ ρ) × CallStackOf σ ρ :=
  (cs.current?, ⟨cs.records.tail, cs.current?.bind (·.outer), cs.level - 1⟩)

/-- The stack with its innermost record changed. -/
def modifyTop (cs : CallStackOf σ ρ) (f : RecordOf σ ρ → RecordOf σ ρ) : CallStackOf σ ρ :=
  match cs.records with
  | [] => cs
  | r :: rs => { cs with records := f r :: rs }

/-- All records, as listings show them. -/
def render [ToString σ] (s : Store) (cs : CallStackOf σ ρ) : Except Failure String := do
  let shown ← cs.records.mapM (RecordOf.render s)
  let rule := "========================================"
  let between := "\n----------------------------------------\n"
  return s!"CALL STACK:\n{rule}\n" ++ between.intercalate shown ++ s!"\n{rule}\n"

end CallStackOf

namespace CallStack

variable {σ ρ : Type}

/-! ### Names -/

/-- The value of the innermost binding of a name that has one. -/
def valueOf? (x : String) : List (RecordOf σ ρ) → Option Ref
  | [] => none
  | r :: rs =>
    match (r.get? x).bind (·.value) with
    | some v => some v
    | none => valueOf? x rs

/-- The innermost binding of a name. -/
def bindingOf? (x : String) : List (RecordOf σ ρ) → Option Binding
  | [] => none
  | r :: rs =>
    match r.get? x with
    | some b => some b
    | none => bindingOf? x rs

/-- The records with the innermost binding of a name changed to a new value. -/
def rebind (x : String) (v : Slot) : List (RecordOf σ ρ) → List (RecordOf σ ρ)
  | [] => []
  | r :: rs =>
    match r.get? x with
    | some b => r.set x ⟨v, b.isConst⟩ :: rs
    | none => r :: rebind x v rs

/-! ### Jumps -/

/-- What came of a jump: the records with their new states, the names of those it passed through,
and whether it found where to go. -/
structure Jump where
  records : List Record
  passed : List String
  found : Bool

/-- Marks the records from the innermost on up to the nearest one of kind `goal`. A jump that stays
inside functions ends at a function without having found its goal. -/
def jump (st : RecordState) (goal : RecordKind) : List Record → Jump
  | [] => ⟨[], [], false⟩
  | r :: rs =>
    let r' := { r with state := st }
    if r.kind = goal then ⟨r' :: rs, [r.name], true⟩
    else if r.kind = .function then ⟨r' :: rs, [r.name], false⟩
    else
      let rest := jump st goal rs
      ⟨r' :: rest.records, r.name :: rest.passed, rest.found⟩

/-- The records with the result of the innermost function set. -/
def setRetval (v : Slot) : List Record → List Record
  | [] => []
  | r :: rs => if r.kind = .function then { r with retval := v } :: rs else r :: setRetval v rs

end CallStack

end TinyScript
