import TypedClient.Decode.Basic
import TypedClient.Error

/-!
# Options

What is to be generated, where and in which flavour. Every option has a default;
a record of options names only what differs.
-/

namespace TypedClient

/-- The flavours of the core. -/
inductive HttpClient where
  | fetch
  | node
deriving DecidableEq, Repr, Inhabited

/-- The flavours of the services. -/
inductive Variation where
  | reactHook
  | fastify
deriving DecidableEq, Repr, Inhabited

namespace HttpClient

/-- The name of a flavour. -/
def name : HttpClient → String
  | .fetch => "fetch"
  | .node => "node"

/-- The flavour of a name. -/
def ofName? (name : String) : Option HttpClient := [fetch, node].find? (·.name == name)

end HttpClient

namespace Variation

/-- The name of a flavour. -/
def name : Variation → String
  | .reactHook => "react-hook"
  | .fastify => "fastify"

/-- The flavour of a name. -/
def ofName? (name : String) : Option Variation := [reactHook, fastify].find? (·.name == name)

end Variation

/-- The options of a run. -/
structure Options where
  /-- The directory to write to. -/
  output : String := ""
  httpClient : HttpClient := .fetch
  variation : Variation := .reactHook
  /-- Whether operations take one object instead of several arguments. -/
  useOptions : Bool := false
  /-- Whether enumerations are written as unions of values. -/
  useUnionTypes : Bool := false
  exportCore : Bool := true
  exportServices : Bool := true
  exportModels : Bool := true
  exportSchemas : Bool := false
  /-- Whether shared responses become definitions. -/
  responseSchemaAsModel : Bool := true
  runtimeValidation : Bool := true
  precompileValidator : Bool := false
  throwOnRequestFailed : Bool := false
  verboseHttpLog : Bool := false
  /-- A file to take the place of the generated request function. -/
  request : Option String := none
  /-- Whether anything is written at all. -/
  write : Bool := true
  /-- The program that runs the validator compiler. -/
  validatorRuntime : String := "node"
deriving DecidableEq, Repr, Inhabited

namespace Options

open Decode

/-- Whether any category of files is to be written. -/
def anyCategory (o : Options) : Bool :=
  o.exportCore || o.exportServices || o.exportModels || o.exportSchemas || o.precompileValidator

/-- Reads the name of a flavour of the core. -/
def readHttpClient (value : Json) : Result HttpClient := do
  let name ← string value
  match HttpClient.ofName? name with
  | some client => return client
  | none => throw (.unknownHttpClient name)

/-- Reads the name of a flavour of the services. -/
def readVariation (value : Json) : Result Variation := do
  let name ← string value
  match Variation.ofName? name with
  | some variation => return variation
  | none => throw (.unknownVariation name)

/-- An option that is on or off. -/
def flag (name : String) (set : Options → Bool → Options) : FieldReader Options :=
  ⟨name, .defaulted, fun o v => (bool v).map (set o)⟩

/-- The options and how each is read. -/
def fields : List (FieldReader Options) :=
  [⟨"output", .defaulted, fun o v => return { o with output := ← pathText v }⟩,
    ⟨"httpClient", .defaulted, fun o v => return { o with httpClient := ← readHttpClient v }⟩,
    ⟨"variation", .defaulted, fun o v => return { o with variation := ← readVariation v }⟩,
    flag "useOptions" fun o b => { o with useOptions := b },
    flag "useUnionTypes" fun o b => { o with useUnionTypes := b },
    flag "exportCore" fun o b => { o with exportCore := b },
    flag "exportServices" fun o b => { o with exportServices := b },
    flag "exportModels" fun o b => { o with exportModels := b },
    flag "exportSchemas" fun o b => { o with exportSchemas := b },
    flag "responseSchemaAsModel" fun o b => { o with responseSchemaAsModel := b },
    flag "runtimeValidation" fun o b => { o with runtimeValidation := b },
    flag "precompileValidator" fun o b => { o with precompileValidator := b },
    flag "throwOnRequestFailed" fun o b => { o with throwOnRequestFailed := b },
    flag "verboseHttpLog" fun o b => { o with verboseHttpLog := b },
    ⟨"request", .defaulted, fun o v => return { o with request := ← optional pathText v }⟩,
    flag "write" fun o b => { o with write := b },
    ⟨"validatorRuntime", .defaulted, fun o v => return { o with validatorRuntime := ← string v }⟩]

/-- Reads one member; the options are all that may be named. -/
def readMember (o : Options) (key : String) (value : Json) : Result Options :=
  match fields.find? (·.name == key) with
  | some field => field.read o value
  | none => .error (.unknownField key (fields.map (·.name)))

/-- Reads options. -/
def decode : Json → Result Options
  | .object members => members.foldlM (fun o (key, value) => o.readMember key value) {}
  | value => record "Options" fields {} value

end Options

end TypedClient
