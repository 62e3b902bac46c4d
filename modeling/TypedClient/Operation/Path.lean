import TypedClient.Document.Basic
import TypedClient.Naming.Identifier

/-!
# Paths of operations

A declared path is literal text with placeholders in braces. It is cut into its
pieces once; the text of a template literal, the pattern of a router and the list
of placeholder names are all read off the pieces. A brace that is never closed is
literal text.
-/

namespace TypedClient

/-- A path cut into pieces: the text before the first placeholder, and every placeholder with the
text behind it. -/
structure PathTemplate where
  head : String
  holes : List (String × String)
deriving DecidableEq, Repr

namespace PathTemplate

mutual

/-- Cuts text outside of placeholders. -/
def cutText : List Char → List Char × List (List Char × List Char)
  | [] => ([], [])
  | c :: cs =>
    if c = '\x7b' ∧ '\x7d' ∈ cs then ([], cutHole cs)
    else ((c :: (cutText cs).1), (cutText cs).2)

/-- Cuts text inside a placeholder. -/
def cutHole : List Char → List (List Char × List Char)
  | [] => []
  | c :: cs =>
    if c = '\x7d' then ([], (cutText cs).1) :: (cutText cs).2
    else match cutHole cs with
      | [] => []
      | (token, text) :: rest => (c :: token, text) :: rest

end

/-- The pieces of a path. -/
def parse (path : String) : PathTemplate :=
  let (head, holes) := cutText path.toList
  { head := String.ofList head
    holes := holes.map fun (token, text) => (String.ofList token, String.ofList text) }

/-- The path with every placeholder written by `render`. -/
def render (write : String → String) (t : PathTemplate) : String :=
  t.head ++ Text.concat (t.holes.map fun (token, text) => write token ++ text)

/-- The names of the placeholders, from left to right, each once. -/
def names (t : PathTemplate) : List String :=
  ((t.holes.map (·.1)).filter (· != "")).foldl
    (fun seen name => if name ∈ seen then seen else seen ++ [name]) []

/-- The placeholder for the version of the API. -/
def versionPlaceholder : String := "api-version"

/-- An expression inside a template literal. -/
def interpolation (expression : String) : String := "$\x7b" ++ expression ++ "\x7d"

/-- The expression for the version of the API. -/
def versionExpression : String := "OpenAPI.VERSION"

/-- A path as the text of a template literal, placeholders written by `identifier`. -/
def literalWith (identifier : String → String) (path : String) : String :=
  (parse path).render fun token =>
    interpolation (if token = versionPlaceholder then versionExpression else identifier token)

/-- A path as the text of a template literal, without regard to any arguments. -/
def literal (path : String) : String := literalWith Naming.valueName path

/-- A path as a router reads it. -/
def route (path : String) : String := (parse path).render fun token => ":" ++ token

/-- The names of the placeholders of a path. -/
def placeholders (path : String) : List String := (parse path).names

end PathTemplate

namespace Operation

/-- The part of an operation's name for one segment of its path. -/
def segmentName (segment : List Char) : String :=
  match segment with
  | '\x7b' :: inner =>
    if inner.getLast? = some '\x7d' then "By" ++ Naming.pascalCase (String.ofList inner.dropLast)
    else Naming.pascalCase (String.ofList segment)
  | _ => Naming.pascalCase (String.ofList segment)

/-- The name of an operation: its identifier, or its method and its path. -/
def nameFor (operationId : Option String) (method : Method) (path : String) : String :=
  match operationId.filter (Text.trim · != "") with
  | some id => Naming.valueName id
  | none =>
    let segments := (Text.splitList (· == '/') path.toList).filter (!·.isEmpty)
    Naming.valueName (method.key ++ Text.concat (segments.map segmentName))

end Operation

end TypedClient
