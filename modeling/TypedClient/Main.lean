import TypedClient.CommandLine
import TypedClient.Script.Layout
import TypedClient.Template.Artifact

/-!
# The program

Reads from the disk what a run may look at, works the run out, and then makes its
calls on the disk. Other programs are never started from here: every validator
runtime counts as missing.
-/

namespace TypedClient.Main

open Files Emission

/-- The tree with the directories on the way to a path. -/
def withParents (t : Tree) (p : Path) : Tree :=
  match t.makeDirectory p.parent with
  | .ok t => t
  | .error _ => t

/-- The tree with what the disk holds under a path. -/
partial def snapshot (t : Tree) (p : Path) : IO Tree := do
  let onDisk := (← IO.currentDir) / p.text
  if ← onDisk.isDir then
    let mut t := (withParents t p).set p .directory
    for e in ← onDisk.readDir do
      t ← snapshot t (p.entry e.fileName)
    return t
  else if ← onDisk.pathExists then
    let bytes ← IO.FS.readBinFile onDisk
    return (withParents t p).set p (.file (.ofBytes bytes.toList))
  else return t

/-- Makes a call on the disk. -/
def make : Call → IO Unit
  | .exists _ => return
  | .makeDirectory p => IO.FS.createDirAll p.text
  | .removeDirectory p => do
    if ← (← IO.currentDir).join p.text |>.pathExists then IO.FS.removeDirAll p.text
  | .write p contents => do
    match contents with
    | .text s => IO.FS.writeFile p.text s
    | .bytes b => IO.FS.writeBinFile p.text ⟨b.toArray⟩
  | .copy source target => do
    IO.FS.writeBinFile target.text (← IO.FS.readBinFile source.text)
  | .remove p => IO.FS.removeFile p.text

/-- Makes the calls of a run, in order. -/
def replay (events : List Event) : IO Unit :=
  events.forM fun event =>
    match event with
    | .call c => make c
    | .start _ _ => return

/-- Works out a run in a directory and makes its calls. -/
def generate (here : Path) (input : String) (request : CommandLine.Request) : IO UInt32 := do
  let machine : Machine :=
    { workingDirectory := here
      render := Artifact.render
      format := Script.layout
      program? := fun _ => none }
  let look (t : Tree) (name : String) : IO Tree :=
    snapshot t (here.join (Path.parse name)).normalize
  let mut tree := withParents {} (here.entry "")
  for name in [input] ++ request.config.toList do
    if !Source.isInline name then tree ← look tree name
  let (options, _) := (request.options.run machine).run.run { tree := tree }
  match options with
  | .error _ => pure ()
  | .ok options =>
    if here.isBelow (Path.parse options.output) then
      for name in [options.output] ++ options.request.toList do tree ← look tree name
  let (outcome, state) := ((CommandLine.run input request).run machine).run.run { tree := tree }
  let ending := CommandLine.Ending.of outcome
  try
    replay state.events
    (← IO.getStderr).putStr ending.complaint
    return ending.exitCode.toUInt32
  catch e =>
    (← IO.getStderr).putStrLn
      (if ending.complaint.isEmpty then e.toString else Text.trimEnd ending.complaint)
    return 1

end TypedClient.Main

/-- Runs the program with the given arguments. -/
def main (arguments : List String) : IO UInt32 := do
  match TypedClient.CommandLine.parse arguments with
  | .error .usage =>
    (← IO.getStderr).putStrLn "usage: typed-client --input SPEC [--output DIR] [--config FILE]"
    return 2
  | .error reason =>
    (← IO.getStdout).putStrLn "typed-client: a typed client for an OpenAPI document"
    return reason.exitCode.toUInt32
  | .ok (input, request) =>
    let directory := TypedClient.Files.Path.parse (← IO.currentDir).toString
    TypedClient.Main.generate directory input request
