import TinyScript.Number.Double

/-!
# The text of a floating-point number

Of all decimals that read back as the number, the one with the fewest digits is written, and of
those the closest. The decimal point stands where it is as long as the first digit is between the
fourth place after it and the sixteenth before it; otherwise an exponent is written.
-/

namespace TinyScript.Shortest

/-- A positive decimal `digits * 10 ^ exponent`. -/
structure Decimal where
  digits : Nat
  exponent : Int
deriving DecidableEq, Repr, Inhabited

/-- The decimals of a number `m * 2 ^ q` on the grid of multiples of `10 ^ e`: those of its two
neighbours that read back as it, the closest first. -/
def onGrid (m : Nat) (q e : Int) : Option Nat :=
  -- quarters of the last bit, as a fraction over the same denominator as the grid
  let unit := Nat.pow 2 (q - 2).toNat * Nat.pow 10 (-e).toNat
  let step := Nat.pow 2 (2 - q).toNat * Nat.pow 10 e.toNat
  let value := 4 * m * unit
  -- below a power of two the next number is only half as far away
  let below := (4 * m - if m = Nat.pow 2 52 ∧ q > -1074 then 1 else 2) * unit
  let above := (4 * m + 2) * unit
  let readsBack (k : Nat) : Bool :=
    if m % 2 = 0 then below ≤ k * step ∧ k * step ≤ above
    else below < k * step ∧ k * step < above
  let lo := value / step
  let hi := lo + 1
  let lower := 2 * value < (lo + hi) * step ∨ 2 * value = (lo + hi) * step ∧ lo % 2 = 0
  match readsBack lo, readsBack hi with
  | true, true => some (if lower then lo else hi)
  | true, false => some lo
  | false, true => some hi
  | false, false => none

/-- The place of the first digit of `m * 2 ^ q`: the `e` with `10 ^ e ≤ m * 2 ^ q < 10 ^ (e + 1)`. -/
def firstPlace (m : Nat) (q : Int) : Int :=
  let guess : Int := ((Nat.log2 m + q) * 30103) / 100000
  let reaches (e : Int) : Bool :=
    Nat.pow 10 e.toNat * Nat.pow 2 (-q).toNat ≤ m * Nat.pow 2 q.toNat * Nat.pow 10 (-e).toNat
  if reaches (guess + 1) then guess + 1 else if reaches guess then guess else guess - 1

/-- Tries grids from the coarsest on; `n` is how many more there are. -/
def search (m : Nat) (q : Int) (e : Int) : Nat → Decimal
  | 0 => ⟨0, 0⟩
  | n + 1 =>
    match onGrid m q e with
    | some k => ⟨k, e⟩
    | none => search m q (e - 1) n

/-- The shortest decimal that reads back as `m * 2 ^ q`, for `m` not zero. -/
def shortest (m : Nat) (q : Int) : Decimal :=
  search m q (firstPlace m q) 17

/-- The layout of a number: where positional notation ends, and how exponents are written. -/
structure Format where
  leastPlace : Int
  mostPlace : Int
  mark : Char
  exponentWidth : Nat

/-- Positional from `0.0001` to below `10 ^ 16`, else an `e`, a sign and at least two digits. -/
def format : Format := ⟨-4, 15, 'e', 2⟩

def zeros (n : Nat) : List Char := List.replicate n '0'

/-- The digits of a decimal without zeros at the end, and the place of the first one. -/
def significant (d : Decimal) : List Char × Int :=
  let ds := Nat.toDigits 10 d.digits
  let trimmed := (ds.reverse.dropWhile (· == '0')).reverse
  (trimmed, d.exponent + ds.length - 1)

/-- The digits `ds`, the first of which stands at the given place. -/
def write (f : Format) (ds : List Char) (place : Int) : List Char :=
  if place < f.leastPlace ∨ place > f.mostPlace then
    let mantissa := match ds with
      | [] => ['0']
      | [d] => [d]
      | d :: ds => d :: '.' :: ds
    let e := Nat.toDigits 10 place.natAbs
    mantissa ++ [f.mark, if place < 0 then '-' else '+'] ++ zeros (f.exponentWidth - e.length) ++ e
  else if place < 0 then
    ['0', '.'] ++ zeros (-place - 1).toNat ++ ds
  else
    let whole := place.toNat + 1
    if ds.length ≤ whole then ds ++ zeros (whole - ds.length) ++ ['.', '0']
    else ds.take whole ++ '.' :: ds.drop whole

/-- The text of a floating-point number. -/
def render (x : Float) : String :=
  match Double.view x with
  | .nan => "nan"
  | .infinite neg => if neg then "-inf" else "inf"
  | .finite neg m q =>
    let body :=
      if m = 0 then ['0', '.', '0']
      else
        let (ds, place) := significant (shortest m q)
        write format ds place
    String.ofList (if neg then '-' :: body else body)

end TinyScript.Shortest
