import TypedClient.Json.Printer
import TypedClient.Proofs.Text.Pieces

/-!
# Statements of a module

A module is a list of statements, comments included. `moduleText` prints them one after the other,
and `scope` lists the names that they bring into the scope of the module: what is imported under
a name, and what is declared.
-/

namespace TypedClient.Script

/-- What a declaration starts with. -/
inductive Keyword where
  | constant
  | exportConstant
  | exportType
  | exportFunction
deriving DecidableEq, Repr

def Keyword.text : Keyword → String
  | .constant => "const "
  | .exportConstant => "export const "
  | .exportType => "export type "
  | .exportFunction => "export function "

/-- A statement of a module. -/
inductive Statement where
  /-- The lines of a doc comment, and a line end. -/
  | comment (lines : List String)
  /-- Names that another module exports; only their types, if so marked. -/
  | importNames (types : Bool) (names : List String) (module : String)
  /-- What another module exports by default, under a name. -/
  | importDefault (name module : String)
  /-- A name with what it stands for. -/
  | declare (keyword : Keyword) (name rest : String)
deriving DecidableEq, Repr

/-- A doc comment, from the line end before it to the end of its last line; nothing without lines. -/
def commentText (lines : List String) : String :=
  if lines.isEmpty then ""
  else "\n/**" ++ Text.concat (lines.map ("\n* " ++ ·)) ++ "\n*/"

namespace Statement

/-- A statement in a module. -/
def text : Statement → String
  | comment lines => commentText lines ++ "\n"
  | importNames types names module =>
    (if types then "import type \x7b " else "import \x7b ") ++ Json.joinWith ", " names ++
      " \x7d from '" ++ module ++ "';\n"
  | importDefault name module => "import " ++ name ++ " from '" ++ module ++ "';\n"
  | declare keyword name rest => keyword.text ++ name ++ rest

/-- The names that a statement brings into scope. -/
def names : Statement → List String
  | comment _ => []
  | importNames _ names _ => names
  | importDefault name _ => [name]
  | declare _ name _ => [name]

end Statement

/-- The text of a module. -/
def moduleText (statements : List Statement) : String := Text.concat (statements.map (·.text))

/-- The names in the scope of a module. -/
def scope (statements : List Statement) : List String := statements.flatMap (·.names)

theorem moduleText_append (ss ts : List Statement) :
    moduleText (ss ++ ts) = moduleText ss ++ moduleText ts := by
  rw [moduleText, List.map_append, Text.concat_append, moduleText, moduleText]

theorem moduleText_cons (s : Statement) (ss : List Statement) :
    moduleText (s :: ss) = s.text ++ moduleText ss := rfl

/-- Statements for items, item by item. -/
theorem moduleText_flatMap {α : Type} (statements : α → List Statement) (items : List α) :
    moduleText (items.flatMap statements) =
      Text.concat (items.map fun a => moduleText (statements a)) := by
  induction items with
  | nil => rfl
  | cons a items ih =>
      rw [List.flatMap_cons, moduleText_append, ih]
      rfl

@[simp]
theorem scope_append (ss ts : List Statement) : scope (ss ++ ts) = scope ss ++ scope ts :=
  List.flatMap_append

theorem scope_flatMap {α : Type} (statements : α → List Statement) (items : List α) :
    scope (items.flatMap statements) = items.flatMap fun a => scope (statements a) :=
  List.flatMap_assoc

end TypedClient.Script
