/-!
# Sorted names

Names are ordered character by character. `sortedNames` lists every name once,
in that order.
-/

namespace TypedClient.Text

/-- Puts a name into its place in a sorted list, unless it is there already. -/
def insertName (name : String) : List String → List String
  | [] => [name]
  | other :: rest =>
    if name < other then name :: other :: rest
    else if name = other then other :: rest
    else other :: insertName name rest

/-- The names in order, each once. -/
def sortedNames (names : List String) : List String := names.foldr insertName []

end TypedClient.Text
