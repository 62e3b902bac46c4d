import TypedClient.Text.Basic

/-!
# Paths

A path is a list of steps: to the root, up, or to a named entry. `normalize`
resolves the steps up as far as there is something before them to take back; it
never looks at a disk.
-/

namespace TypedClient.Files

/-- One step of a path. -/
inductive Step where
  | root
  | up
  | name (name : String)
deriving DecidableEq, Repr, Inhabited

/-- A path, from its first step to its last. -/
abbrev Path := List Step

namespace Path

/-- The step that a piece between slashes stands for; none for `.` and for nothing at all. -/
def stepOf? (piece : String) : Option Step :=
  if piece = "" ∨ piece = "." then none
  else if piece = ".." then some .up
  else some (.name piece)

/-- The steps of a path as text. -/
def parse (text : String) : Path :=
  let steps := (Text.split (· == '/') text).filterMap stepOf?
  if text.toList.head? == some '/' then .root :: steps else steps

/-- Takes one step, on a path held in reverse. A step up takes back the step before it, unless
there is none or it is the root. -/
def resolveStep : List Step → Step → List Step
  | [], .up => [.up]
  | .root :: done, .up => .up :: .root :: done
  | _ :: done, .up => done
  | done, step => step :: done

/-- The path with its steps up resolved. -/
def normalize (path : Path) : Path := (path.foldl resolveStep []).reverse

/-- Whether a path starts at the root. -/
def isAbsolute (path : Path) : Bool := path.head? == some .root

/-- The second path as seen from the first. -/
def join (base path : Path) : Path := if path.isAbsolute then path else base ++ path

/-- The text of a step. -/
def stepText : Step → String
  | .root => ""
  | .up => ".."
  | .name n => n

/-- The text of a path. -/
def text : Path → String
  | [.root] => "/"
  | path => String.intercalate "/" (path.map stepText)

/-- Whether `child`, as seen from `parent`, lies strictly below it. -/
def isBelow (parent child : Path) : Bool :=
  let parent := parent.normalize
  let child := normalize (parent.join child)
  child != parent && parent.isPrefixOf child

/-- An entry directly below a path. -/
def entry (dir : Path) (name : String) : Path := dir ++ [.name name]

/-- The path of which a path is an entry. -/
def parent (path : Path) : Path := path.dropLast

/-- The last name of a path. -/
def fileName? (path : Path) : Option String :=
  match path.getLast? with
  | some (.name n) => some n
  | _ => none

/-- The part of the last name behind its last point; none if the name starts with its only
point. -/
def extension? (path : Path) : Option String :=
  match fileName? path with
  | none => none
  | some n =>
    let reversed := n.toList.reverse
    let extension := reversed.takeWhile (· != '.')
    match reversed.drop extension.length with
    | '.' :: _ :: _ => some (String.ofList extension.reverse)
    | _ => none

end Path

end TypedClient.Files
