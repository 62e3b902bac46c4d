import TypedClient.Json.Printer
import TypedClient.Naming.Identifier

/-!
# Literals and keys

How strings, enumeration values and property names are written in generated
code. A string stands between single quotes; quotes, backslashes and line ends
inside it are escaped. A property name is written bare if it is an identifier.
-/

namespace TypedClient.Script

/-- A character between single quotes. -/
def escapeChar (c : Char) : List Char :=
  match c with
  | '\\' => ['\\', '\\']
  | '\'' => ['\\', '\'']
  | '\n' => ['\\', 'n']
  | '\r' => ['\\', 'r']
  | c => [c]

/-- The text of a string between single quotes. -/
def escape (s : String) : String := String.ofList (s.toList.flatMap escapeChar)

/-- A string literal. -/
def quoted (s : String) : String := "'" ++ escape s ++ "'"

/-- The names that can be written without quotes. -/
def isIdentifier (name : String) : Bool :=
  match name.toList with
  | [] => false
  | c :: cs => Naming.isNameStart c && cs.all Naming.isNameChar

/-- A property name. -/
def propertyKey (name : String) : String := if isIdentifier name then name else quoted name

/-- The name of an enumeration member; a reserved word is quoted. -/
def memberKey (name : String) : String :=
  if name ∈ Naming.reservedWords then "'" ++ name ++ "'" else propertyKey name

/-- A JSON value as a literal. -/
def literal : Json → String
  | .string s => quoted s
  | value => value.compact

end TypedClient.Script
