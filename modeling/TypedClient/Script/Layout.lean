import TypedClient.Text.Basic

/-!
# Layout of generated code

Lines are trimmed and indented by the number of brackets that are open. A line
that ends with an opening bracket opens one, a line that starts with a closing
bracket closes one and is itself indented a level less. Comment lines open and
close nothing. Blank lines are dropped at both ends of a text and otherwise
reduced to one in a row.
-/

namespace TypedClient.Script

/-- The columns of one level. -/
def indentWidth : Nat := 4

/-- The brackets that open a level when they end a line. -/
def isOpening (c : Char) : Bool := c == '(' || c == '\x7b' || c == '['

/-- The brackets that close a level when they start a line. -/
def isClosing (c : Char) : Bool := c == ')' || c == '\x7d' || c == ']'

/-- A line without the blanks at its ends. -/
def trimLine (line : List Char) : List Char :=
  Text.dropEndWhile Text.isBlank (line.dropWhile Text.isBlank)

/-- Comment lines start with an asterisk or a slash. -/
def isComment (line : List Char) : Bool := line.head? == some '*' || line.head? == some '/'

/-- Whether a line opens a level. -/
def opensLevel (line : List Char) : Bool := !isComment line && line.getLast?.any isOpening

/-- Whether a line closes a level. -/
def closesLevel (line : List Char) : Bool := !isComment line && line.head?.any isClosing

/-- The level of a line, and the level after it, at a given depth. -/
def levels (depth : Nat) (line : List Char) : Nat × Nat :=
  let after := if opensLevel line then depth + 1 else depth
  if closesLevel line && depth > 0 then (depth - 1, after - 1) else (depth, after)

/-- A trimmed line at its level. The lines inside a doc comment stand one column further in. -/
def placeLine (level : Nat) (line : List Char) : List Char :=
  List.replicate (level * indentWidth) ' ' ++
    (if line.head? == some '*' then ' ' :: line else line)

/-- The lines of a text in place. `gap` says that blank lines were passed, which show only if
another line follows. -/
def placeLines (depth : Nat) (started gap : Bool) : List (List Char) → List (List Char)
  | [] => []
  | raw :: rest =>
    let line := trimLine raw
    if line.isEmpty then placeLines depth started true rest
    else
      let (level, after) := levels depth line
      let placed := placeLine level line :: placeLines after true false rest
      if started && gap then [] :: placed else placed

/-- The text with every line in place. -/
def layout (text : String) : String :=
  String.ofList ((placeLines 0 false false (Text.lineList text.toList)).flatMap (· ++ ['\n']))

end TypedClient.Script
