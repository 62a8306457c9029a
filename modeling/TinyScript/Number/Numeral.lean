import TinyScript.Number.Double
import TinyScript.Text.Blank
import TinyScript.Text.Numeric

/-!
# Reading numbers

White space around a numeral is ignored. Digits may be those of any decimal system, and single
underscores may stand between digits. Integers have at most 4300 digits.
-/

namespace TinyScript.Numeral

/-- The most digits an integer may be read from or written with. -/
def maxDigits : Nat := 4300

/-- White space around a numeral; the separators of files and records are not taken for it. -/
def isAround (c : Char) : Bool :=
  Text.isBlank c && !(0x1C ≤ c.toNat && c.toNat ≤ 0x1F)

def trimmed (s : String) : List Char :=
  ((s.toList.dropWhile isAround).reverse.dropWhile isAround).reverse

/-- Splits off a sign. -/
def sign : List Char → Bool × List Char
  | '-' :: cs => (true, cs)
  | '+' :: cs => (false, cs)
  | cs => (false, cs)

/-- The digits at the start of a text, and what follows them. `afterDigit` tells whether a digit
stands right before the text, so that an underscore may follow. -/
def digitRun (afterDigit : Bool) : List Char → List Nat × List Char
  | [] => ([], [])
  | c :: cs =>
    match Text.decimalValue? c with
    | some d =>
      let (ds, rest) := digitRun true cs
      (d :: ds, rest)
    | none =>
      if afterDigit && c == '_' && (cs.head?.bind Text.decimalValue?).isSome then
        digitRun false cs
      else ([], c :: cs)

/-- The number that decimal digits stand for. -/
def valueOf (ds : List Nat) : Nat := ds.foldl (fun n d => 10 * n + d) 0

def negated (neg : Bool) (n : Nat) : Int := if neg then -n else n

/-- Reads an integer. -/
def int? (s : String) : Option Int :=
  let (neg, cs) := sign (trimmed s)
  match digitRun false cs with
  | (d :: ds, []) =>
    if ds.length < maxDigits then some (negated neg (valueOf (d :: ds))) else none
  | _ => none

/-- Reads an exponent, if there is one. -/
def exponent? : List Char → Option Int
  | [] => some 0
  | c :: cs =>
    if c = 'e' ∨ c = 'E' then
      let (neg, cs) := sign cs
      match digitRun false cs with
      | (d :: ds, []) => some (negated neg (valueOf (d :: ds)))
      | _ => none
    else none

/-- Reads a floating-point number: digits with a point and an exponent, or one of the words `inf`,
`infinity` and `nan` in any case. -/
def float? (s : String) : Option Float :=
  let (neg, cs) := sign (trimmed s)
  let lower := String.ofList (cs.map Char.toLower)
  if lower = "inf" ∨ lower = "infinity" then some (if neg then -1.0 / 0.0 else 1.0 / 0.0)
  else if lower = "nan" then some (0.0 / 0.0)
  else
    let (whole, rest) := digitRun false cs
    let (fraction, rest) := match rest with
      | '.' :: rest => digitRun false rest
      | _ => ([], rest)
    if whole.isEmpty ∧ fraction.isEmpty then none
    else
      (exponent? rest).map fun e =>
        Double.ofDecimal neg (valueOf (whole ++ fraction)) (e - fraction.length)

end TinyScript.Numeral
