import TypedClient.Naming.Identifier

/-!
# References

A reference names its target by the last segment of a JSON pointer. In a segment
a slash is written `~1` and a tilde `~0`.
-/

namespace TypedClient.Pointer

/-- The characters behind the last slash. -/
def lastSegment (cs : List Char) : List Char := (cs.reverse.takeWhile (· != '/')).reverse

/-- The characters that a segment stands for. -/
def unescape : List Char → List Char
  | [] => []
  | '~' :: '1' :: cs => '/' :: unescape cs
  | '~' :: '0' :: cs => '~' :: unescape cs
  | c :: cs => c :: unescape cs

/-- A key as a segment. -/
def escape : List Char → List Char
  | [] => []
  | c :: cs =>
    if c = '~' then '~' :: '0' :: escape cs
    else if c = '/' then '~' :: '1' :: escape cs
    else c :: escape cs

/-- The key that a reference names. -/
def key (ref : String) : String := String.ofList (unescape (lastSegment ref.toList))

/-- The name of the type that a reference names. -/
def typeName (ref : String) : String := Naming.typeName (key ref)

end TypedClient.Pointer
