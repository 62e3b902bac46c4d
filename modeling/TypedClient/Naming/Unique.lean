import TypedClient.Text.Basic

/-!
# Free names

`unique base taken` is `base` if it is free, and otherwise `base` with the least
number from 2 on that makes it free. Among one more candidates than there are
taken names at least one is free, so that the search never runs out.
-/

namespace TypedClient.Naming

/-- A name with a number behind it. -/
def numbered (base : String) (n : Nat) : String := base ++ toString n

/-- The first free one among `fuel` names numbered from `n` on; the base if there is none. -/
def firstFree (base : String) (taken : List String) : Nat → Nat → String
  | 0, _ => base
  | fuel + 1, n =>
    if numbered base n ∈ taken then firstFree base taken fuel (n + 1) else numbered base n

/-- The base itself if it is free, otherwise the base with the least free number from 2 on. -/
def unique (base : String) (taken : List String) : String :=
  if base ∈ taken then firstFree base taken (taken.length + 1) 2 else base

end TypedClient.Naming
