import TypedClient.Error
import TypedClient.Json.Printer

/-!
# Declared versions

Before a document is read as such, the version that it declares is looked at. The
part before the first point decides: only documents of the third major version
pass.
-/

namespace TypedClient.Document

/-- The version that a tree declares, in words. -/
def declaredVersion (tree : Json) : String :=
  match (tree.member? "openapi").or (tree.member? "swagger") with
  | some (.string s) => s
  | some value => value.compact
  | none => ""

/-- The part of a version before its first point, without blanks around it. -/
def majorVersion (declared : String) : String :=
  Text.trim (String.ofList (declared.toList.takeWhile (· != '.')))

/-- Refuses trees that declare any version but the third. -/
def checkVersion (tree : Json) : Except Error Unit :=
  let declared := declaredVersion tree
  if majorVersion declared = "2" then .error .swagger2
  else if majorVersion declared = "3" then .ok ()
  else .error (.unsupportedVersion declared)

end TypedClient.Document
