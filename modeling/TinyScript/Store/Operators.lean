import TinyScript.Store.Text

/-!
# Operators on values

Results are new cells, but for `+x`, which is `x` itself. `updateAdd` and `updateSub` change the
cell of their left operand in place, and `negate` that of its operand.
-/

namespace TinyScript.Mem

def newBool (b : Bool) : Mem Ref := alloc (.bool b)

def newNum (n : Number) : Mem Ref := alloc (.num n)

def newNull : Mem Ref := alloc .null

/-! ### Comparison -/

/-- Equal lists have slots that are alike. -/
def listsEqual (s : Store) : List Slot → List Slot → Bool
  | [], [] => true
  | x :: xs, y :: ys => s.alike x y && listsEqual s xs ys
  | _, _ => false

/-- Equal maps have as many entries, and for each entry of one the other has one that fits, with a
value alike. -/
def mapsEqual (s : Store) (a b : List (Entry Slot)) : Bool :=
  a.length == b.length && a.all fun e =>
    match s.find? e.mark e.key b with
    | some e' => s.alike e.value e'.value
    | none => false

/-- Whether two values of one kind are equal. Null and functions cannot be compared. -/
def isEqual (s : Store) (a b : Option Value) : Except Failure Bool :=
  match a, b with
  | some v, some w =>
    if !v.sameKind w then .error (.operand .typesDiffer)
    else
      match v, w with
      | .bool x, .bool y => .ok (x == y)
      | .num m, .num n => .ok (m.eq n)
      | .str x, .str y => .ok (x == y)
      | .list xs, .list ys => .ok (listsEqual s xs ys)
      | .map t, .map u => .ok (mapsEqual s t.entries u.entries)
      | .object, .object => .ok true
      | .type x, .type y => .ok (x == y)
      | _, _ => .error (.fault .missingPart)
  | none, none => .error (.fault .missingPart)
  | _, _ => .error (.operand .typesDiffer)

/-- Whether `a == b`. -/
def equals (a b : Slot) : Mem Bool := do
  let s ← get
  ofExcept (isEqual s (s.get? a) (s.get? b))

/-- `a == b` -/
def eq (a b : Slot) : Mem Ref := do newBool (← equals a b)

/-- Two numbers, or the error that tells which operand is none. -/
def numbers (left right : OperandError) (a b : Slot) : Mem (Number × Number) := do
  match ← read a with
  | some (.num m) =>
    match ← read b with
    | some (.num n) => return (m, n)
    | _ => operandError right
  | _ => operandError left

/-- Whether `a < b`. -/
def less (a b : Slot) : Mem Bool := do
  let (m, n) ← numbers .leftNotComparable .rightNotComparable a b
  return m.lt n

/-- `a < b` -/
def lt (a b : Slot) : Mem Ref := do newBool (← less a b)

/-- Whether `a <= b`. -/
def lessEq (a b : Slot) : Mem Bool := do
  let (m, n) ← numbers .leftNotComparable .rightNotComparable a b
  return m.le n

/-- `a <= b` -/
def le (a b : Slot) : Mem Ref := do newBool (← lessEq a b)

/-! ### Arithmetic -/

/-- The sum of two numbers, or a string followed by a string or the text of a number. -/
def sum (a b : Slot) : Mem Value := do
  match ← read a with
  | some (.num m) =>
    match ← read b with
    | some (.num n) => return .num (← ofExcept (m.add n))
    | _ => operandError .rightNotNumber
  | some (.str x) =>
    match ← read b with
    | some (.num n) => return .str (x ++ (← ofExcept n.render))
    | some (.str y) => return .str (x ++ y)
    | _ => operandError .rightNotNumberOrString
  | _ => operandError .leftNotNumberOrString

/-- The result of an operation on two numbers. -/
def arithmetic (op : Number → Number → Except Failure Number) (a b : Slot) : Mem Value := do
  let (m, n) ← numbers .leftNotNumber .rightNotNumber a b
  return .num (← ofExcept (op m n))

/-- `a + b` -/
def add (a b : Slot) : Mem Ref := do alloc (← sum a b)

/-- `a - b` -/
def sub (a b : Slot) : Mem Ref := do alloc (← arithmetic Number.sub a b)

/-- `a * b` -/
def mul (a b : Slot) : Mem Ref := do alloc (← arithmetic Number.mul a b)

/-- `a / b` -/
def div (a b : Slot) : Mem Ref := do alloc (← arithmetic Number.div a b)

/-- Writes to the cell in a slot, if there is one. -/
def writeSlot (x : Slot) (v : Value) : Mem Unit :=
  match x with
  | some r => write r v
  | none => pure ()

/-- `a += b` -/
def updateAdd (a b : Slot) : Mem Unit := do writeSlot a (← sum a b)

/-- `a -= b` -/
def updateSub (a b : Slot) : Mem Unit := do writeSlot a (← arithmetic Number.sub a b)

/-! ### One operand -/

/-- `+a` -/
def plus (a : Slot) : Mem Slot := do
  match ← read a with
  | some (.num _) => return a
  | _ => operandError .notNumber

/-- `-a` -/
def minus (a : Slot) : Mem Ref := do
  match ← read a with
  | some (.num n) => newNum n.neg
  | _ => operandError .notNumber

/-- Whether a value counts as true. -/
def truth (a : Slot) : Mem Bool := do
  match ← read a with
  | some .null => return false
  | some (.bool b) => return b
  | some (.num n) => return !n.isZero
  | _ => operandError .notTruthValue

/-- A value as a bool; a bool stays the same cell. -/
def toBool (a : Slot) : Mem Slot := do
  let b ← truth a
  match ← read a with
  | some (.bool _) => return a
  | _ => return some (← newBool b)

/-- `not a` -/
def not (a : Slot) : Mem Ref := do newBool (!(← truth a))

/-- Turns a bool into its opposite, in its own cell. -/
def negate (a : Slot) : Mem Slot := do
  writeSlot a (.bool !(← truth a))
  return a

end TinyScript.Mem
