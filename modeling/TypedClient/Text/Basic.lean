/-!
# Characters and lines of text

The few operations on text that the rest of the library shares. They work on
lists of characters, so that each has a structural definition; the versions on
`String` only convert. Blank characters are those with the Unicode property
`White_Space`.
-/

namespace TypedClient.Text

/-- The characters with the Unicode property `White_Space`. -/
def isBlank (c : Char) : Bool :=
  c == ' ' || ('\t' ≤ c && c ≤ '\r') || c == '\u0085' || c == '\u00a0' || c == '\u1680' ||
    ('\u2000' ≤ c && c ≤ '\u200a') || c == '\u2028' || c == '\u2029' || c == '\u202f' ||
    c == '\u205f' || c == '\u3000'

/-- A list without the longest part at its end that consists of members of `p`. -/
def dropEndWhile {α : Type} (p : α → Bool) (xs : List α) : List α :=
  (xs.reverse.dropWhile p).reverse

/-- The text without leading blanks. -/
def trimStart (s : String) : String := String.ofList (s.toList.dropWhile isBlank)

/-- The text without trailing blanks. -/
def trimEnd (s : String) : String := String.ofList (dropEndWhile isBlank s.toList)

/-- The text without leading and trailing blanks. -/
def trim (s : String) : String :=
  String.ofList (dropEndWhile isBlank (s.toList.dropWhile isBlank))

/-- The pieces between the separators `p`: one piece more than there are separators. -/
def splitList {α : Type} (p : α → Bool) : List α → List (List α)
  | [] => [[]]
  | x :: xs =>
    if p x then [] :: splitList p xs
    else match splitList p xs with
      | [] => [[x]]
      | piece :: pieces => (x :: piece) :: pieces

/-- The pieces of a text between the separators `p`. -/
def split (p : Char → Bool) (s : String) : List String :=
  (splitList p s.toList).map String.ofList

/-- A line without the carriage return that may end it. -/
def dropReturn (line : List Char) : List Char :=
  if line.getLast? = some '\r' then line.dropLast else line

/-- The lines of a text. A line feed ends a line, so that none follows the last one, and a
carriage return before it belongs to the line end. -/
def lineList (cs : List Char) : List (List Char) :=
  match (splitList (· == '\n') cs).reverse with
  | [] => []
  | last :: ended =>
    (ended.map dropReturn).reverse ++ (if last.isEmpty then [] else [last])

/-- The lines of a text, without their line ends. -/
def lines (s : String) : List String := (lineList s.toList).map String.ofList

/-- Every occurrence of a character replaced by a text. -/
def replaceChar (c : Char) (replacement : String) (s : String) : String :=
  String.ofList (s.toList.flatMap fun d => if d = c then replacement.toList else [d])

/-- The texts, one after the other. -/
def concat (parts : List String) : String := parts.foldr (· ++ ·) ""

/-- The text with every character of the range `a` to `z` in upper case. -/
def upperAscii (s : String) : String := String.ofList (s.toList.map Char.toUpper)

/-- The text with every character of the range `A` to `Z` in lower case. -/
def lowerAscii (s : String) : String := String.ofList (s.toList.map Char.toLower)

end TypedClient.Text
