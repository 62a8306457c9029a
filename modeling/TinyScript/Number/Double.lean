/-!
# Floating-point numbers as exact fractions

`Double.view` reads a number off its 64 bits as a sign, a whole number and a power of two.
`Double.nearest` goes the other way: the number closest to a fraction, a tie going to the one with
the even last bit, and infinity beyond the largest.
-/

namespace TinyScript.Double

/-- A floating-point number taken apart; a finite one is `± m * 2 ^ q`. -/
inductive View
  | nan
  | infinite (neg : Bool)
  | finite (neg : Bool) (m : Nat) (q : Int)
deriving DecidableEq, Repr, Inhabited

def view (x : Float) : View :=
  let bits := x.toBits.toNat
  let neg := bits ≥ Nat.pow 2 63
  let e : Nat := bits / Nat.pow 2 52 % 2048
  let f := bits % Nat.pow 2 52
  if e = 2047 then if f = 0 then .infinite neg else .nan
  else if e = 0 then .finite neg f (-1074)
  else .finite neg (f + Nat.pow 2 52) ((e : Int) - 1075)

/-- The whole number closest to `a / b`, a tie going to the even one. -/
def roundDiv (a b : Nat) : Nat :=
  let k := a / b
  let r := a % b
  if 2 * r < b then k
  else if 2 * r > b then k + 1
  else if k % 2 = 0 then k else k + 1

/-- `a / b * 2 ^ (-q)` as a fraction of whole numbers. -/
def scale (a b : Nat) (q : Int) : Nat × Nat :=
  if q < 0 then (a * Nat.pow 2 (-q).toNat, b) else (a, b * Nat.pow 2 q.toNat)

/-- The bits of the number closest to `a / b`, without a sign. -/
def nearestBits (a b : Nat) : Nat :=
  if a = 0 ∨ b = 0 then 0
  else
    -- `2 ^ 52 < a / b / 2 ^ q₀ < 2 ^ 54`
    let q₀ : Int := (Nat.log2 a : Int) - (Nat.log2 b : Int) - 53
    let (a₀, b₀) := scale a b q₀
    let q₁ := if a₀ / b₀ < Nat.pow 2 53 then q₀ else q₀ + 1
    let q := max q₁ (-1074)
    let (a₁, b₁) := scale a b q
    let m := roundDiv a₁ b₁
    let bits := if m < Nat.pow 2 52 then m else (q + 1075).toNat * Nat.pow 2 52 + (m - Nat.pow 2 52)
    min bits (2047 * Nat.pow 2 52)

/-- The number closest to `± a / b`. -/
def nearest (neg : Bool) (a b : Nat) : Float :=
  Float.ofBits (UInt64.ofNat (nearestBits a b + if neg then Nat.pow 2 63 else 0))

/-- The number closest to `± d * 10 ^ e`. Exponents far out of range are settled by the number of
digits alone. -/
def ofDecimal (neg : Bool) (d : Nat) (e : Int) : Float :=
  let places := (Nat.toDigits 10 d).length + e
  if d = 0 ∨ places < -400 then nearest neg 0 1
  else if places > 400 then nearest neg (Nat.pow 2 1100) 1
  else if e < 0 then nearest neg d (Nat.pow 10 (-e).toNat)
  else nearest neg (d * Nat.pow 10 e.toNat) 1

/-- The number closest to an integer. -/
def ofInt (n : Int) : Float := nearest (n < 0) n.natAbs 1

def isInfinite (x : Float) : Bool :=
  match view x with
  | .infinite _ => true
  | _ => false

end TinyScript.Double
