import TinyScript.Text.Ranges

/-!
# White space

Blank characters are those of bidirectional type `WS`, `B` or `S`, or of category `Zs`
(Unicode 14). The zero-width space and the byte order mark are not among them.
-/

namespace TinyScript.Text

def blankRanges : List (Nat × Nat) :=
  [(0x9, 0xD), (0x1C, 0x20), (0x85, 0x85), (0xA0, 0xA0), (0x1680, 0x1680), (0x2000, 0x200A),
   (0x2028, 0x2029), (0x202F, 0x202F), (0x205F, 0x205F), (0x3000, 0x3000)]

/-- White space between tokens, and around the text of a number. -/
def isBlank (c : Char) : Bool :=
  inRanges blankRanges c.toNat

end TinyScript.Text
