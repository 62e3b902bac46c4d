import TypedClient.Artifact
import TypedClient.Files.Tree
import TypedClient.Json.Basic

/-!
# Surroundings of a run

What a run finds around it: a working directory, a way to render, programs that it
can start, and a disk whose calls may fail. All calls are recorded in the order in
which they are made. The files of one category are written independently of each
other; a schedule says in which order that happens, and which files are still under
way when one of them fails.
-/

namespace TypedClient

namespace Emission

open Files

/-- A call to the disk. -/
inductive Call where
  | exists (path : Path)
  | makeDirectory (path : Path)
  | removeDirectory (path : Path)
  | write (path : Path) (contents : Contents)
  | copy (source target : Path)
  | remove (path : Path)
deriving DecidableEq, Repr

namespace Call

/-- The path that a call is about; of a copy, its target. -/
def path : Call → Path
  | .exists p => p
  | .makeDirectory p => p
  | .removeDirectory p => p
  | .write p _ => p
  | .copy _ p => p
  | .remove p => p

/-- The name of a call. -/
def name : Call → String
  | .exists _ => "exists"
  | .makeDirectory _ => "mkdir"
  | .removeDirectory _ => "rmdir"
  | .write _ _ => "write"
  | .copy _ _ => "copy"
  | .remove _ => "remove"

/-- Whether a call may change the disk. -/
def isMutating : Call → Bool
  | .exists _ => false
  | _ => true

/-- The tree after a call. -/
def apply (t : Tree) : Call → Except Fault Tree
  | .exists _ => .ok t
  | .makeDirectory p => t.makeDirectory p
  | .removeDirectory p => t.removeDirectory p
  | .write p contents => t.writeFile p contents
  | .copy source target => t.copyFile source target
  | .remove p => t.removeFile p

/-- The failure of a call: what was done, to which path, and what went wrong. A disk names the
source of a copy. -/
def failure (fault : Fault) : Call → Error
  | .exists p => .disk .read p.text fault
  | .makeDirectory p => .disk .createDirectory p.text fault
  | .removeDirectory p => .disk .removeDirectory p.text fault
  | .write p _ => .disk .write p.text fault
  | .copy source _ => .disk .copy source.text fault
  | .remove p => .disk .remove p.text fault

end Call

/-- What is recorded of a run. -/
inductive Event where
  | call (call : Call)
  | start (program : String) (directory : Path)
deriving DecidableEq, Repr

/-- A program: what it does to the disk when it is started in a directory, and its exit code. -/
abbrev Program := Path → Tree → Tree × Nat

instance : DecidableEq (Except Error String)
  | .ok s, .ok t => decidable_of_iff (s = t) (by simp)
  | .error e, .error f => decidable_of_iff (e = f) (by simp)
  | .ok _, .error _ | .error _, .ok _ => isFalse nofun

/-- A file to be written into a category: its name, and its text unless rendering fails. -/
structure Job where
  file : String
  text : Except Error String
deriving DecidableEq

/-- Why a file cannot be rendered. -/
def Job.failure? (job : Job) : Option Error :=
  match job.text with
  | .error e => some e
  | .ok _ => none

/-- If no file is under way, all are among the others. -/
theorem nothing_underWay_perm (jobs : List Job) : ∃ others, ([] ++ others).Perm jobs :=
  ⟨jobs, List.Perm.refl jobs⟩

/-- What stays the same during a run. -/
structure Machine where
  workingDirectory : Path
  render : Artifact → Json → Except Error String
  format : String → String
  /-- The program of a name, if there is one. -/
  program? : String → Option Program
  /-- The path, as text, under which the program of a name is found. -/
  programPath : String → String := id
  /-- What keeps a program from starting, by the number of calls and starts before it. -/
  startFault? : Nat → String → Option Fault := fun _ _ => none
  /-- The failure of a call, by the number of calls and starts before it. -/
  fault? : Nat → Call → Option Error := fun _ _ => none
  /-- The order in which the files of a category are written. -/
  schedule : List Job → List Job := id
  schedule_perm : ∀ jobs, (schedule jobs).Perm jobs := by intro _; exact List.Perm.refl _
  /-- Which of the files that would follow are under way when one cannot be written. -/
  underWay : List Job → List Job := fun _ => []
  underWay_perm : ∀ jobs, ∃ others, (underWay jobs ++ others).Perm jobs := by
    -- Elaborated where a machine is made, in whatever namespace that is.
    exact TypedClient.Emission.nothing_underWay_perm

/-- What changes during a run. -/
structure State where
  tree : Tree
  events : List Event := []

/-- A step of a run. It may fail; what it has done until then stays done. -/
abbrev Run := ReaderT Machine (ExceptT Error (StateM State))

/-- Records an event. -/
def record (e : Event) : Run Unit := modify fun s => { s with events := s.events ++ [e] }

/-- Makes a call that may change the disk. -/
def perform (c : Call) : Run Unit := do
  let machine ← read
  let s ← get
  record (.call c)
  match machine.fault? s.events.length c with
  | some e => throw e
  | none =>
    match c.apply s.tree with
    | .ok tree => modify fun s => { s with tree := tree }
    | .error fault => throw (c.failure fault)

/-- Asks whether there is an entry under a path. -/
def exists? (p : Path) : Run Bool := do
  let s ← get
  record (.call (.exists p))
  return s.tree.has p

/-- Starts a program in a directory and waits for its exit code. -/
def start (name : String) (program : Program) (directory : Path) : Run Nat := do
  let machine ← read
  let s ← get
  record (.start name directory)
  match machine.startFault? s.events.length name with
  | some fault => throw (.disk .run (machine.programPath name) fault)
  | none =>
    let (tree, code) := program directory s.tree
    modify fun s => { s with tree := tree }
    return code

/-- The text of an artifact. -/
def render (artifact : Artifact) (context : Json) : Run String := do
  let machine ← read
  match machine.render artifact context with
  | .ok text => return text
  | .error e => throw e

end Emission

end TypedClient
