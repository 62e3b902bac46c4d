import TypedClient.Error

/-!
# File trees

A disk without links: directories and files under absolute paths. The operations
below answer as an operating system does, with the changed tree or with the fault
that stops them. Contents are kept as text where they are text.
-/

namespace TypedClient.Files

/-- What a file holds: text, or bytes that are not the encoding of any text. -/
inductive Contents where
  | text (text : String)
  | bytes (bytes : List UInt8)
deriving DecidableEq, Repr, Inhabited

/-- The contents with the given bytes. -/
def Contents.ofBytes (bytes : List UInt8) : Contents :=
  match String.fromUTF8? ⟨bytes.toArray⟩ with
  | some s => .text s
  | none => .bytes bytes

/-- The length in bytes. -/
def Contents.size : Contents → Nat
  | .text s => s.utf8ByteSize
  | .bytes b => b.length

/-- What stands under a path. -/
inductive Entry where
  | directory
  | file (contents : Contents)
deriving DecidableEq, Repr, Inhabited

/-- The entries of a disk by their paths. The root is a directory in any case. -/
structure Tree where
  entries : List (Path × Entry) := []
deriving DecidableEq, Repr, Inhabited

namespace Tree

/-- The entry under a path from the root. -/
def entry? (t : Tree) (path : Path) : Option Entry :=
  if path = [.root] then some .directory else t.entries.lookup path

/-- The tree with one entry set. -/
def set (t : Tree) (path : Path) (e : Entry) : Tree :=
  ⟨(t.entries.filter (·.1 != path)) ++ [(path, e)]⟩

/-- The tree without an entry and everything below it. -/
def erase (t : Tree) (path : Path) : Tree := ⟨t.entries.filter fun e => !path.isPrefixOf e.1⟩

/-- The longest name of an entry, in bytes. -/
def maxNameLength : Nat := 255

/-- A name that no disk takes. -/
def nameFault? (name : String) : Option Fault :=
  if name.toList.contains (Char.ofNat 0) then some .invalidInput
  else if maxNameLength < name.utf8ByteSize then some .invalidFilename
  else none

/-- The path from the root to which steps lead from a directory. Every entry that is passed has to
be a directory; the last one need not be there. -/
def resolveFrom (t : Tree) (here : Path) : List Step → Except Fault Path
  | [] => .ok here
  | step :: rest =>
    match t.entry? here with
    | none => .error .notFound
    | some (.file _) => .error .notADirectory
    | some .directory =>
      match step with
      | .root => resolveFrom t [.root] rest
      | .up => resolveFrom t (if here = [.root] then here else here.dropLast) rest
      | .name n =>
        match nameFault? n with
        | some fault => .error fault
        | none => resolveFrom t (here ++ [.name n]) rest

/-- The path from the root to which a path leads. -/
def resolve (t : Tree) (path : Path) : Except Fault Path := resolveFrom t [.root] path

/-- Whether there is an entry under a path. -/
def has (t : Tree) (path : Path) : Bool :=
  match t.resolve path with
  | .ok p => (t.entry? p).isSome
  | .error _ => false

/-- Makes the directories on the way to a path, and the last one. -/
def makeFrom (t : Tree) (here : Path) : List Step → Except Fault Tree
  | [] =>
    match t.entry? here with
    | some (.file _) => .error .alreadyExists
    | _ => .ok t
  | step :: rest =>
    match t.entry? here with
    | some (.file _) => .error .notADirectory
    | _ =>
      match step with
      | .root => makeFrom t [.root] rest
      | .up => makeFrom t (if here = [.root] then here else here.dropLast) rest
      | .name n =>
        match nameFault? n with
        | some fault => .error fault
        | none =>
          let next := here ++ [.name n]
          match t.entry? next with
          | some _ => makeFrom t next rest
          | none => makeFrom (t.set next .directory) next rest

/-- Makes a directory and those on the way to it. -/
def makeDirectory (t : Tree) (path : Path) : Except Fault Tree := makeFrom t [.root] path

/-- Removes a directory with everything below it. It need not be there. -/
def removeDirectory (t : Tree) (path : Path) : Except Fault Tree :=
  match t.resolve path with
  | .error .notFound => .ok t
  | .error fault => .error fault
  | .ok p =>
    match t.entry? p with
    | none => .ok t
    | some (.file _) => .error .notADirectory
    | some .directory => .ok (t.erase p)

/-- Writes a file, in place of the one that may be there. -/
def writeFile (t : Tree) (path : Path) (contents : Contents) : Except Fault Tree := do
  let p ← t.resolve path
  match t.entry? p with
  | some .directory => throw .isADirectory
  | _ => return t.set p (.file contents)

/-- The contents of a file. -/
def readFile (t : Tree) (path : Path) : Except Fault Contents := do
  let p ← t.resolve path
  match t.entry? p with
  | none => throw .notFound
  | some .directory => throw .isADirectory
  | some (.file contents) => return contents

/-- The longest path that a disk takes as text, in bytes. -/
def maxPathLength : Nat := 4095

/-- Whether a path as text can only mean a directory: it ends in a slash or in `.`. -/
def meansDirectory (name : String) : Bool :=
  match (Text.split (· == '/') name).getLast? with
  | some piece => piece == "" || piece == "."
  | none => false

/-- The text of a file that is named as seen from a directory. -/
def readNamed (t : Tree) (here : Path) (name : String) : Except Fault String := do
  if name.toList.contains (Char.ofNat 0) then throw .invalidInput
  if name = "" then throw .notFound
  if maxPathLength < name.utf8ByteSize then throw .invalidFilename
  let path := here.join (Path.parse name)
  match ← t.readFile path with
  | .text s => if meansDirectory name then throw .notADirectory else return s
  | .bytes _ => if meansDirectory name then throw .notADirectory else throw .invalidData

/-- Removes a file. -/
def removeFile (t : Tree) (path : Path) : Except Fault Tree := do
  let p ← t.resolve path
  match t.entry? p with
  | none => throw .notFound
  | some .directory => throw .isADirectory
  | some (.file _) => return t.erase p

/-- Copies a file over another one. The target is emptied first, so that a file copied over itself
ends up empty. -/
def copyFile (t : Tree) (source target : Path) : Except Fault Tree := do
  let s ← t.resolve source
  match t.entry? s with
  | none => throw .notFound
  | some .directory => throw .invalidInput
  | some (.file _) =>
    let emptied ← t.writeFile target (.text "")
    match emptied.entry? s with
    | some (.file contents) => emptied.writeFile target contents
    | _ => return emptied

end Tree

end TypedClient.Files
