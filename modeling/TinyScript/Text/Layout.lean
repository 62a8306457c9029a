/-!
# Laying out text

Padding, trimming and line ends, all counted in code points.
-/

namespace TinyScript.Text

/-- `s` followed by as many blanks as it takes to fill `width` columns. -/
def padRight (width : Nat) (s : String) : String :=
  s ++ String.ofList (List.replicate (width - s.length) ' ')

/-- `s` without the characters of the class `p` at either end. -/
def trim (p : Char → Bool) (s : String) : String :=
  String.ofList (((s.toList.dropWhile p).reverse.dropWhile p).reverse)

/-- Every line end (`\r\n`, `\r` or `\n`) as a single newline. -/
def unifyLineEnds : List Char → List Char
  | [] => []
  | '\r' :: '\n' :: cs => '\n' :: unifyLineEnds cs
  | '\r' :: cs => '\n' :: unifyLineEnds cs
  | c :: cs => c :: unifyLineEnds cs

end TinyScript.Text
