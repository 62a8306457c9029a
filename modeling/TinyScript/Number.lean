import TinyScript.Failure
import TinyScript.Number.Numeral
import TinyScript.Number.Shortest

/-!
# Numbers

A number is an integer of any size or a floating-point number. An operation on two integers is
exact and yields an integer; any other works on floating-point numbers. Comparisons are exact in
every case.
-/

namespace TinyScript

inductive Number
  | int (n : Int)
  | float (x : Float)
deriving Inhabited, Repr

namespace Number

def isInt : Number → Bool
  | .int _ => true
  | .float _ => false

/-- The number as a floating-point number; an integer out of range has none. -/
def toFloat : Number → Except Failure Float
  | .int n =>
    let x := Double.ofInt n
    if Double.isInfinite x then .error (.fault .overflow) else .ok x
  | .float x => .ok x

/-- Applies the integer operation to two integers and the floating-point one otherwise. -/
def lift (f : Int → Int → Int) (g : Float → Float → Float) : Number → Number → Except Failure Number
  | .int a, .int b => .ok (.int (f a b))
  | a, b => return .float (g (← a.toFloat) (← b.toFloat))

def add : Number → Number → Except Failure Number := lift (· + ·) (· + ·)

def sub : Number → Number → Except Failure Number := lift (· - ·) (· - ·)

def mul : Number → Number → Except Failure Number := lift (· * ·) (· * ·)

/-- Division of two integers goes to the floor. -/
def div : Number → Number → Except Failure Number
  | .int a, .int b => if b = 0 then .error (.fault .divisionByZero) else .ok (.int (a.fdiv b))
  | a, b => do
    let x ← a.toFloat
    let y ← b.toFloat
    if y == 0 then throw (.fault .divisionByZero) else return .float (x / y)

def neg : Number → Number
  | .int n => .int (-n)
  | .float x => .float (-x)

def isZero : Number → Bool
  | .int n => n == 0
  | .float x => x == 0

/-- How an integer stands to a floating-point number. -/
def compareFloat (n : Int) (x : Float) : Option Ordering :=
  match Double.view x with
  | .nan => none
  | .infinite neg => some (if neg then .gt else .lt)
  | .finite neg m q =>
    let m := Numeral.negated neg (m * Nat.pow 2 q.toNat)
    some (compare (n * Nat.pow 2 (-q).toNat) m)

/-- How two numbers stand to each other; with a number that is none, not at all. -/
def compare? : Number → Number → Option Ordering
  | .int a, .int b => some (compare a b)
  | .int a, .float y => compareFloat a y
  | .float x, .int b => (compareFloat b x).map Ordering.swap
  | .float x, .float y =>
    if x < y then some .lt else if x == y then some .eq else if y < x then some .gt else none

def lt (a b : Number) : Bool := a.compare? b == some .lt

def le (a b : Number) : Bool := a.compare? b == some .lt || a.compare? b == some .eq

def eq (a b : Number) : Bool := a.compare? b == some .eq

/-- The text of a number; integers with too many digits have none. -/
def render : Number → Except Failure String
  | .int n =>
    let ds := Nat.repr n.natAbs
    if ds.length > Numeral.maxDigits then .error (.fault .badNumeral)
    else .ok (if n < 0 then "-" ++ ds else ds)
  | .float x => .ok (Shortest.render x)

/-! ### Residues

Equal numbers have equal residues, whether written as integers or not. -/

def modulus : Nat := Nat.pow 2 61 - 1

/-- The residue of `± r`; minus one is moved to minus two. -/
def signedResidue (neg : Bool) (r : Nat) : Int :=
  let n := Numeral.negated neg r
  if n = -1 then -2 else n

/-- The residue of a number modulo `2 ^ 61 - 1`, with its sign; a number that is none has no
residue. -/
def residue? : Number → Option Int
  | .int n => some (signedResidue (n < 0) (n.natAbs % modulus))
  | .float x =>
    match Double.view x with
    | .nan => none
    | .infinite neg => some (if neg then -314159 else 314159)
    | .finite neg m q => some (signedResidue neg (m * Nat.pow 2 (q % 61).toNat % modulus))

end Number

end TinyScript
