import TinyScript.Text.Ranges

/-!
# Digits and other numerals

Three nested classes of Unicode 14: decimal digits have a value in a positional system, digits
add superscripts, circled digits and the like, numerals add fractions and letters of counting.
-/

namespace TinyScript.Text

/-- The zeros of the decimal systems beyond ASCII; the ten digits of a system are consecutive. -/
def decimalZeros : List Nat :=
  [0x660, 0x6F0, 0x7C0, 0x966, 0x9E6, 0xA66, 0xAE6, 0xB66, 0xBE6, 0xC66, 0xCE6, 0xD66, 0xDE6, 0xE50,
   0xED0, 0xF20, 0x1040, 0x1090, 0x17E0, 0x1810, 0x1946, 0x19D0, 0x1A80, 0x1A90, 0x1B50, 0x1BB0,
   0x1C40, 0x1C50, 0xA620, 0xA8D0, 0xA900, 0xA9D0, 0xA9F0, 0xAA50, 0xABF0, 0xFF10, 0x104A0,
   0x10D30, 0x11066, 0x110F0, 0x11136, 0x111D0, 0x112F0, 0x11450, 0x114D0, 0x11650, 0x116C0,
   0x11730, 0x118E0, 0x11950, 0x11C50, 0x11D50, 0x11DA0, 0x16A60, 0x16AC0, 0x16B50, 0x1D7CE,
   0x1D7D8, 0x1D7E2, 0x1D7EC, 0x1D7F6, 0x1E140, 0x1E2F0, 0x1E950, 0x1FBF0]

/-- Digits beyond ASCII that belong to no decimal system. -/
def looseDigitRanges : List (Nat × Nat) :=
  [(0xB2, 0xB3), (0xB9, 0xB9), (0x1369, 0x1371), (0x19DA, 0x19DA), (0x2070, 0x2070),
   (0x2074, 0x2079), (0x2080, 0x2089), (0x2460, 0x2468), (0x2474, 0x247C), (0x2488, 0x2490),
   (0x24EA, 0x24EA), (0x24F5, 0x24FD), (0x24FF, 0x24FF), (0x2776, 0x277E), (0x2780, 0x2788),
   (0x278A, 0x2792), (0x10A40, 0x10A43), (0x10E60, 0x10E68), (0x11052, 0x1105A),
   (0x1F100, 0x1F10A)]

/-- Numerals beyond ASCII that are neither digits nor letters. -/
def numeralRuns : List Nat :=
  [188, 3, 2357, 6, 376, 6, 120, 3, 133, 7, 217, 7, 17, 9, 433, 10, 1086, 11, 881, 3, 255, 10, 2390,
   51, 2, 5, 735, 11, 9, 11, 9, 11, 79, 10, 9, 1, 640, 1, 9, 1, 9, 1, 1385, 1, 777, 1, 25, 9, 14, 3,
   343, 4, 138, 10, 30, 8, 1, 15, 32, 10, 39, 15, 29734, 10, 320, 6, 22737, 45, 12, 57, 17, 2, 341,
   27, 36, 4, 29, 1, 8, 1, 134, 5, 1154, 8, 25, 7, 39, 9, 75, 5, 22, 6, 160, 2, 2, 16, 2, 46, 68, 5,
   52, 2, 30, 3, 75, 5, 104, 8, 24, 8, 41, 7, 330, 6, 361, 22, 158, 10, 42, 4, 112, 7, 143, 11, 379,
   20, 1349, 2, 430, 9, 871, 19, 851, 21, 1067, 111, 18156, 7, 798, 23, 25673, 20, 108, 25, 5454, 9,
   929, 59, 1, 3, 1, 4, 76, 45, 1, 15, 973, 2]

/-- The value of a decimal digit of any script. -/
def decimalValue? (c : Char) : Option Nat :=
  if '0' ≤ c ∧ c ≤ '9' then some (c.toNat - 48)
  else if c.toNat < 128 then none
  else (decimalZeros.find? fun z => z ≤ c.toNat && c.toNat < z + 10).map (c.toNat - ·)

/-- Characters that begin and continue a number. -/
def isDigit (c : Char) : Bool :=
  (decimalValue? c).isSome || (128 ≤ c.toNat && inRanges looseDigitRanges c.toNat)

/-- Numerals that may stand inside a word although they are neither letters nor digits. -/
def isNumeral (c : Char) : Bool :=
  128 ≤ c.toNat && inRuns numeralRuns c.toNat

end TinyScript.Text
