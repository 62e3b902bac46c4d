import TypedClient.Naming.Words

/-!
# Identifiers

The names that appear in the generated code. Type names stay close to what the
document says: only the characters that an identifier cannot hold are replaced.
Names of values are put into camel case and kept apart from the reserved words.
All of them are ASCII.
-/

namespace TypedClient.Naming

/-- The words that TypeScript does not accept as names of values. -/
def reservedWords : List String :=
  ["arguments", "await", "break", "case", "catch", "class", "const", "continue", "debugger",
    "default", "delete", "do", "else", "enum", "eval", "export", "extends", "false", "finally",
    "for", "function", "if", "implements", "import", "in", "instanceof", "interface", "let", "new",
    "null", "package", "private", "protected", "public", "return", "static", "super", "switch",
    "this", "throw", "true", "try", "typeof", "var", "void", "while", "with", "yield"]

/-- The characters with which a type name may start. -/
def isNameStart (c : Char) : Bool := c.isAlpha || c == '_' || c == '$'

/-- The characters of a type name. -/
def isNameChar (c : Char) : Bool := c.isAlphanum || c == '_' || c == '$'

/-- Every run of foreign characters becomes one underscore. The flag says whether the last
character was foreign. -/
def joinRuns : Bool → List Char → List Char
  | _, [] => []
  | inRun, c :: cs =>
    if isNameChar c then c :: joinRuns false cs
    else if inRun then joinRuns true cs
    else '_' :: joinRuns true cs

/-- The characters of a type name for any text. Leading characters that cannot start a name are
dropped; where that leaves nothing, the other characters are kept behind an underscore. -/
def typeNameList (cs : List Char) : List Char :=
  match joinRuns false (cs.dropWhile (!isNameStart ·)) with
  | [] =>
    match Text.dropEndWhile (· == '_') ((joinRuns false cs).dropWhile (· == '_')) with
    | [] => ['M', 'o', 'd', 'e', 'l']
    | body => '_' :: body
  | name => name

/-- The type name for any text. -/
def typeName (name : String) : String := String.ofList (typeNameList name.toList)

/-- An underscore in front of a name that starts with a digit. -/
def guardDigit (name : List Char) : List Char :=
  match name with
  | c :: _ => if c.isDigit then '_' :: name else name
  | [] => []

/-- The name of a value for any text: in camel case, and no reserved word. -/
def valueName (name : String) : String :=
  if (camelCase name).isEmpty then "_empty"
  else
    let guarded := String.ofList (guardDigit (camelCase name).toList)
    if guarded ∈ reservedWords then "_" ++ guarded else guarded

/-- The name of a service for a tag. -/
def serviceName (tag : String) : String :=
  let name := pascalCase (String.ofList (tag.toList.dropWhile (!·.isAlpha)))
  if name.isEmpty then "Default" else name

/-- The name of the service of operations without a tag. -/
def defaultService : String := "Default"

/-- The state in which the characters of an enumeration member are taken. -/
structure MemberState where
  afterLower : Bool
  inRun : Bool

/-- The characters of an enumeration member: upper case, an underscore where a capital follows a
small letter, and one underscore for every run of foreign characters. -/
def memberChars (st : MemberState) : List Char → List Char
  | [] => []
  | c :: cs =>
    if c.isAlphanum || c == '_' then
      let rest := c.toUpper :: memberChars ⟨c.isLower, false⟩ cs
      if c.isUpper && st.afterLower then '_' :: rest else rest
    else if st.inRun then memberChars st cs
    else '_' :: memberChars ⟨false, true⟩ cs

/-- The name of an enumeration member for a string value. -/
def memberName (value : String) : String :=
  match memberChars ⟨false, false⟩ value.toList with
  | [] => "_"
  | c :: cs => String.ofList (if c.isDigit then '_' :: c :: cs else c :: cs)

/-- The name of the model of a shared response for one media type. -/
def responseModelName (component mediaType : String) : String :=
  component ++ pascalCase mediaType ++ "Response"

/-- The name that a definition gets from the place where its schema stands. -/
def placeName (segments : List String) : String :=
  typeName (Text.concat (segments.map pascalCase))

end TypedClient.Naming
