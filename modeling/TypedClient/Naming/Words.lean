import TypedClient.Text.Capital

/-!
# Words of a name

A name taken from a document may hold any characters. Its words are the longest
runs of ASCII letters and digits; a word without a lower-case letter is taken as
shouted and lowered. `pascalCase` and `camelCase` join the words again.
-/

namespace TypedClient.Naming

/-- A word that is longer than one letter and has no lower-case letter is lowered. -/
def quietWord (word : List Char) : List Char :=
  if word.length > 1 && !word.any Char.isLower then word.map Char.toLower else word

/-- The words of a name. -/
def wordList (cs : List Char) : List (List Char) :=
  ((Text.splitList (fun c => !c.isAlphanum) cs).filter (!·.isEmpty)).map quietWord

/-- A list of characters with its first ASCII letter lowered. -/
def lowerFirst : List Char → List Char
  | [] => []
  | c :: cs => c.toLower :: cs

/-- The words, each capitalised, without separators. -/
def pascalCase (name : String) : String :=
  String.ofList ((wordList name.toList).flatMap Text.capitalizeList)

/-- The words without separators, the first one in lower case, the others capitalised. -/
def camelCase (name : String) : String :=
  match wordList name.toList with
  | [] => ""
  | first :: others => String.ofList (lowerFirst first ++ others.flatMap Text.capitalizeList)

end TypedClient.Naming
