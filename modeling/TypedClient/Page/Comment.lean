import TypedClient.Text.Basic

/-!
# Doc comments

Text of the document inside a doc comment of the generated code: its lines, without
blanks at their ends, and with the end of a comment broken up.
-/

namespace TypedClient.Page

/-- A line with a backslash inside every `*/`. -/
def breakTerminators : List Char → List Char
  | '*' :: '/' :: rest => '*' :: '\\' :: '/' :: breakTerminators rest
  | c :: rest => c :: breakTerminators rest
  | [] => []

/-- The lines of a text inside a doc comment. -/
def commentLines (text : String) : List String :=
  (Text.lineList text.toList).map fun line =>
    String.ofList (breakTerminators (Text.dropEndWhile Text.isBlank line))

end TypedClient.Page
