import TypedClient.Source

/-!
# Command line

What the arguments of the program ask for. Every parameter may be given once. A
value stands behind its parameter, in the next argument or attached to it; the short
names of switches can be strung together. The first argument that does not fit
decides, and so does the first one that asks for help or for the version.
-/

namespace TypedClient.CommandLine

/-- What is asked for: a document, and options that take precedence over those of a file. -/
structure Request where
  input : Option String := none
  /-- The file with options. -/
  config : Option String := none
  /-- What the arguments change about the options. -/
  change : Options → Options := id

/-- Why nothing is to be generated. -/
inductive Stop where
  | help
  | version
  | usage
deriving DecidableEq, Repr, Inhabited

/-- The exit code of a run that is not even started. -/
def Stop.exitCode : Stop → Nat
  | .help => 0
  | .version => 0
  | .usage => 2

/-- What a parameter does. -/
inductive Effect where
  /-- It takes a value, which it may refuse. -/
  | takes (use : String → Option (Request → Request))
  /-- It takes none. -/
  | switch (use : Request → Request)
  | stop (reason : Stop)

/-- A parameter. -/
structure Parameter where
  long : String
  short : Option Char := none
  effect : Effect

/-- The request with one more change to the options. -/
def Request.edit (change : Options → Options) (r : Request) : Request :=
  { r with change := fun o => change (r.change o) }

/-- Takes any text. -/
def textual (use : String → Request → Request) : Effect := .takes fun s => some (use s)

/-- Takes the name of a file or directory, which is not empty. -/
def named (use : String → Request → Request) : Effect :=
  .takes fun s => if s.isEmpty then none else some (use s)

/-- Takes a truth value. -/
def decided (set : Bool → Options → Options) : Effect :=
  .takes fun s =>
    if s = "true" then some (Request.edit (set true))
    else if s = "false" then some (Request.edit (set false))
    else none

/-- All parameters. -/
def parameters : List Parameter :=
  [{ long := "input", short := some 'i', effect := textual fun s r => { r with input := some s } },
    { long := "output", short := some 'o'
      effect := named fun s => .edit fun o => { o with output := s } },
    { long := "config", short := some 'c', effect := named fun s r => { r with config := some s } },
    { long := "client"
      effect := .takes fun s => (HttpClient.ofName? s).map fun c =>
        .edit fun o => { o with httpClient := c } },
    { long := "variation"
      effect := .takes fun s => (Variation.ofName? s).map fun v =>
        .edit fun o => { o with variation := v } },
    { long := "use-options", effect := decided fun b o => { o with useOptions := b } },
    { long := "use-union-types", effect := decided fun b o => { o with useUnionTypes := b } },
    { long := "export-core", effect := decided fun b o => { o with exportCore := b } },
    { long := "export-services", effect := decided fun b o => { o with exportServices := b } },
    { long := "export-models", effect := decided fun b o => { o with exportModels := b } },
    { long := "export-schemas", effect := decided fun b o => { o with exportSchemas := b } },
    { long := "response-schema-as-model"
      effect := decided fun b o => { o with responseSchemaAsModel := b } },
    { long := "runtime-validation"
      effect := decided fun b o => { o with runtimeValidation := b } },
    { long := "precompile-validator"
      effect := decided fun b o => { o with precompileValidator := b } },
    { long := "throw-on-request-failed"
      effect := decided fun b o => { o with throwOnRequestFailed := b } },
    { long := "verbose-http-log", effect := decided fun b o => { o with verboseHttpLog := b } },
    { long := "request", effect := named fun s => .edit fun o => { o with request := some s } },
    { long := "validator-runtime"
      effect := textual fun s => .edit fun o => { o with validatorRuntime := s } },
    { long := "no-write", effect := .switch (.edit fun o => { o with write := false }) },
    { long := "verbose", short := some 'v', effect := .switch id },
    { long := "help", short := some 'h', effect := .stop .help },
    { long := "version", short := some 'V', effect := .stop .version }]

/-- The arguments in the course of reading. -/
structure Progress where
  request : Request := {}
  /-- The parameters that have been given. -/
  given : List String := []
  /-- The parameter whose value has to be the next argument. -/
  pending : Option Parameter := none

/-- Gives a parameter its value, or none. -/
def Progress.give (p : Progress) (parameter : Parameter) (value : Option String) :
    Except Stop Progress :=
  if p.given.contains parameter.long then .error .usage
  else
    let given := parameter.long :: p.given
    match parameter.effect, value with
    | .takes use, some value =>
      match use value with
      | some change => .ok { request := change p.request, given := given }
      | none => .error .usage
    | .takes _, none => .ok { p with pending := some parameter }
    | .switch use, none => .ok { request := use p.request, given := given }
    | .stop reason, none => .error reason
    | _, some _ => .error .usage

/-- Takes a string of short names, up to the first one that takes a value. -/
def Progress.takeShort (p : Progress) : List Char → Except Stop Progress
  | [] => .ok p
  | c :: cs =>
    match parameters.find? (·.short == some c) with
    | none => .error .usage
    | some parameter =>
      match parameter.effect, cs with
      | .takes _, [] => p.give parameter none
      | .takes _, '=' :: value => p.give parameter (some (String.ofList value))
      | .takes _, value => p.give parameter (some (String.ofList value))
      | _, _ => do (← p.give parameter none).takeShort cs

/-- Takes a long name, to which a value may be attached. -/
def Progress.takeLong (p : Progress) (cs : List Char) : Except Stop Progress :=
  let name := String.ofList (cs.takeWhile (· != '='))
  match parameters.find? (·.long == name) with
  | none => .error .usage
  | some parameter =>
    match cs.dropWhile (· != '=') with
    | [] => p.give parameter none
    | _ :: value => p.give parameter (some (String.ofList value))

/-- Takes one argument. Where a value is due, nothing else may stand. -/
def Progress.take (p : Progress) (argument : String) : Except Stop Progress :=
  match p.pending, argument.toList with
  | none, '-' :: '-' :: name => p.takeLong name
  | none, '-' :: c :: cs => p.takeShort (c :: cs)
  | none, _ => .error .usage
  | some _, '-' :: _ :: _ => .error .usage
  | some parameter, _ => { p with pending := none }.give parameter (some argument)

/-- Takes the arguments up to the mark behind which no names may stand; as nothing has a place of
its own, it has to be the last one. -/
def Progress.takeAll (p : Progress) : List String → Except Stop Progress
  | [] => .ok p
  | ["--"] => .ok p
  | argument :: rest => do (← p.take argument).takeAll rest

/-- The document and the request that arguments make up. -/
def parse (arguments : List String) : Except Stop (String × Request) := do
  let p ← Progress.takeAll {} arguments
  match p.pending, p.request.input with
  | none, some input => return (input, p.request)
  | _, _ => throw .usage

/-- The options of a request: those of its file, with its changes. -/
def Request.options (r : Request) : Emission.Run Options := do
  match r.config with
  | none => return r.change {}
  | some name =>
    match Options.ofFile (← get).tree (← read).workingDirectory name with
    | .ok options => return r.change options
    | .error e => throw e

/-- Generates what is asked for. -/
def run (input : String) (r : Request) : Emission.Run Client := do
  Emission.generateFrom input (← r.options)

/-- How a run ended: its exit code, and what it has to say about it. -/
structure Ending where
  exitCode : Nat
  complaint : String := ""
deriving DecidableEq, Repr, Inhabited

/-- The ending of a run with an outcome. -/
def Ending.of {α : Type} : Except Error α → Ending
  | .ok _ => { exitCode := 0 }
  | .error e => { exitCode := 1, complaint := e.message ++ "\n" }

end TypedClient.CommandLine
