import TypedClient.Decimal.Text
import TypedClient.Json.Basic

/-!
# Templates

A template is a list of nodes: fixed text, the value of a variable, a part that
depends on a test, and a part that is repeated for the items of a list. Rendering
looks variables up by their path in a JSON context and fails if a value that is
to be written, compared or listed is missing. A test for a missing value is
simply not passed.
-/

namespace TypedClient

namespace Template

/-- A condition on the context. -/
inductive Test where
  /-- The value is there and is neither empty nor zero nor false. -/
  | holds (path : List String)
  /-- The value is the given text. -/
  | equals (path : List String) (text : String)
deriving DecidableEq, Repr

/-- A part of a template. -/
inductive Node where
  | text (text : String)
  | value (path : List String)
  | when (test : Test) (yes no : List Node)
  | each (name : String) (path : List String) (body : List Node)
deriving BEq, Repr

/-- What variables stand for: the items of the lists that are being gone through, innermost first,
and the context behind them. -/
structure Env where
  items : List (String × Json) := []
  context : Json

/-- The value at the end of a path of members. -/
def member? (value : Json) : List String → Option Json
  | [] => some value
  | key :: rest => (value.member? key).bind fun v => member? v rest

/-- The value of a variable. A path that leads nowhere in one item is tried further outside. -/
def Env.lookup? (env : Env) (path : List String) : Option Json :=
  match path with
  | [] => none
  | name :: rest =>
    (env.items.findSome? fun (item, value) => if item = name then member? value rest else none).or
      (member? env.context path)

/-- Whether a value counts as true. -/
def isTruthy : Json → Bool
  | .null => false
  | .bool b => b
  | .number (.int n) => n != 0
  | .number (.float x) => !x.isZero
  | .string s => !s.isEmpty
  | .array items => !items.isEmpty
  | .object members => !members.isEmpty

mutual

/-- The text of a value. Strings are written as they are, `null` not at all. -/
def valueText : Json → String
  | .null => ""
  | .bool b => if b then "true" else "false"
  | .number (.int n) => Decimal.intText n
  | .number (.float x) => x.text .plain
  | .string s => s
  | .array items => "[" ++ itemsText items ++ "]"
  | .object _ => "[object]"

/-- The texts of the items of a list, between commas. -/
def itemsText : List Json → String
  | [] => ""
  | item :: rest =>
    valueText item ++ (if rest.isEmpty then "" else ", ") ++ itemsText rest

end

/-- Whether a test is passed; nothing if it cannot be decided. -/
def Test.passes? (env : Env) : Test → Option Bool
  | .holds path => some ((env.lookup? path).any isTruthy)
  | .equals path text =>
    (env.lookup? path).map fun value =>
      match value with
      | .string s => s == text
      | _ => false

/-- What a list is gone through as: the items of an array, or the characters of a string. -/
def itemsOf? : Json → Option (List Json)
  | .array items => some items
  | .string s => some (s.toList.map fun c => .string (String.ofList [c]))
  | _ => none

/-- The environment inside a repeated part. -/
def Env.bind (env : Env) (name : String) (item : Json) : Env :=
  { env with items := (name, item) :: env.items }

mutual

/-- The text of a node. -/
def Node.render? (env : Env) : Node → Option String
  | .text s => some s
  | .value path => (env.lookup? path).map valueText
  | .when test yes no =>
    match test.passes? env with
    | some true => renderAll? env yes
    | some false => renderAll? env no
    | none => none
  | .each name path body =>
    match (env.lookup? path).bind itemsOf? with
    | some items =>
      (items.mapM fun item => renderAll? (env.bind name item) body).map fun texts =>
        texts.foldr (· ++ ·) ""
    | none => none

/-- The text of some nodes, one after the other. -/
def renderAll? (env : Env) : List Node → Option String
  | [] => some ""
  | node :: rest =>
    match Node.render? env node with
    | some s => (renderAll? env rest).map (s ++ ·)
    | none => none

end

/-- The text of a template in a context, which has to be an object. -/
def render? (nodes : List Node) (context : Json) : Option String :=
  match context with
  | .object _ => renderAll? { context := context } nodes
  | _ => none

/-- Lines of text, with a line end between each two. -/
def lines (ls : List String) : String := String.intercalate "\n" ls

end Template

end TypedClient
