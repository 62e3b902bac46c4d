import TypedClient.Document.Basic
import TypedClient.Schema.Pointer

/-!
# Following references to components

A reference is looked up by its last segment in the components of its own kind.
At most fifteen references are followed in a row, so that a cycle ends without a
value.
-/

namespace TypedClient.Document

/-- The number of places that are looked at: an item and fifteen further ones behind references. -/
def maxPlaces : Nat := 16

/-- Follows references through a table, looking at a bounded number of places. -/
def followIn {α : Type} (table : Option (List (String × RefOr α))) : Nat → RefOr α → Option α
  | 0, _ => none
  | _ + 1, .inline value => some value
  | places + 1, .ref target =>
    match table.bind (·.lookup (Pointer.key target)) with
    | some item => followIn table places item
    | none => none

/-- The parameter that an item stands for. -/
def parameter? (d : Document) (item : RefOr Parameter) : Option Parameter :=
  followIn (d.components.map (·.parameters)) maxPlaces item

/-- The request body that an item stands for. -/
def requestBody? (d : Document) (item : RefOr RequestBody) : Option RequestBody :=
  followIn (d.components.map (·.requestBodies)) maxPlaces item

/-- The response that an item stands for. -/
def response? (d : Document) (item : RefOr Response) : Option Response :=
  followIn (d.components.map (·.responses)) maxPlaces item

end TypedClient.Document
