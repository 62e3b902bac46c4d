import TypedClient.Client.Draft
import TypedClient.Client.Finish
import TypedClient.Document.Decode
import TypedClient.Document.Version
import TypedClient.Emission.Machine
import TypedClient.Page.Model
import TypedClient.Page.Service

/-!
# Writing a client

The files of a client are written in categories. The directory of a category is
removed and made again before anything is put into it, so that nothing stale stays
behind; the categories follow each other in a fixed order, and the index comes
last. Nothing is touched unless the output lies inside the working directory and a
file that is to replace the request function is there.
-/

namespace TypedClient.Emission

open Files

/-- The categories, in the order in which they are written. -/
inductive Category where
  | core
  | services
  | schemas
  | validators
  | models
deriving DecidableEq, Repr, Inhabited

namespace Category

/-- The directory of a category. -/
def directory : Category → String
  | .core => "core"
  | .services => "services"
  | .schemas => "schemas"
  | .validators => "validators"
  | .models => "models"

/-- All categories. -/
def all : List Category := [.core, .services, .schemas, .validators, .models]

/-- Whether a category is to be written. -/
def isEnabled (options : Options) : Category → Bool
  | .core => options.exportCore
  | .services => options.exportServices
  | .schemas => options.exportSchemas
  | .validators => options.precompileValidator
  | .models => options.exportModels

end Category

/-- The file whose place another one can take. -/
def requestFile : String := "request.ts"

/-- The file that exports everything. -/
def indexFile : String := "index.ts"

/-- The script that compiles the validators. -/
def generatorFile : String := "$$generator.js"

/-- The files of the core. -/
def coreFiles (variation : Variation) : List (String × Artifact) :=
  [("OpenAPI.ts", .settings), ("ApiError.ts", .apiError), ("ApiRequestOptions.ts", .requestOptions),
    ("ApiResult.ts", .apiResult), (requestFile, .request)] ++
    (if variation = .reactHook then [("requestReactHook.ts", .requestHook)] else [])

/-- The artifact of a service. -/
def serviceArtifact : Variation → Artifact
  | .reactHook => .reactHookService
  | .fastify => .fastifyService

/-- The modules of the core. -/
def coreJobs (m : Machine) (options : Options) (c : Client) : List Job :=
  (coreFiles options.variation).map fun (file, artifact) =>
    { file := file, text := m.render artifact (Page.coreContext options c) }

/-- The modules of the services. -/
def serviceJobs (m : Machine) (options : Options) (c : Client) : List Job :=
  c.services.map fun s =>
    { file := Page.serviceModule s ++ ".ts"
      text := (m.render (serviceArtifact options.variation)
        (Page.ofService options s).context).map m.format }

/-- The modules of the JSON Schemas. -/
def schemaJobs (m : Machine) (c : Client) : List Job :=
  c.models.map fun model =>
    { file := "$" ++ model.name ++ ".ts"
      text := m.render .schema (Page.schemaContext model) }

/-- The modules of the definitions. -/
def modelJobs (m : Machine) (options : Options) (c : Client) : List Job :=
  c.models.map fun model =>
    { file := model.name ++ ".ts"
      text := (m.render .model (Page.ofModel options model).context).map m.format }

/-- The inputs of the validator compiler. -/
def validatorJobs (m : Machine) (options : Options) (c : Client) : List Job :=
  (c.models.map fun model =>
    { file := Page.validatorInput model
      text := m.render .validatorSchema (Page.schemaContext model) }) ++
    [{ file := generatorFile
       text := m.render .validatorGenerator (Page.generatorContext options c.models) }]

/-- Removes a directory and makes it again. -/
def acquire (directory : Path) : Run Unit := do
  perform (.removeDirectory directory)
  perform (.makeDirectory directory)

/-- Writes one file into a directory. -/
def writeJob (directory : Path) (job : Job) : Run Unit := do
  match job.text with
  | .ok text => perform (.write (directory.entry job.file) (.text text))
  | .error e => throw e

/-- The outcome of a step that is not to end the run. -/
def attempt (step : Run Unit) : Run (Option Error) :=
  tryCatch (do step; return none) fun e => return some e

/-- Writes all files, whether or not some fail, and gives the outcome of each. -/
def writeEach (directory : Path) (jobs : List Job) : Run (List (Job × Option Error)) :=
  jobs.mapM fun job => do return (job, ← attempt (writeJob directory job))

/-- Writes one file after the other until one fails. Files that are under way then are still
written, but the run ends with the first failure. -/
def writeInTurn (directory : Path) : List Job → Run Unit
  | [] => return ()
  | job :: rest => do
    match ← attempt (writeJob directory job) with
    | none => writeInTurn directory rest
    | some e =>
      let machine ← read
      let _ ← writeEach directory (machine.underWay rest)
      throw e

/-- Writes files into a directory, until one fails. -/
def writeJobs (directory : Path) (jobs : List Job) : Run Unit := do
  let machine ← read
  writeInTurn directory (machine.schedule jobs)

/-- The outcomes of files, in the order in which the files are listed. -/
def collect : List (Job × Option Error) → List Job → List (Job × Option Error)
  | _, [] => []
  | results, job :: rest =>
    (job, (results.lookup job).join) :: collect (results.eraseP (·.1 == job)) rest

/-- Writes all files in whatever order, whether or not some fail, and gives the outcomes in the
order in which the files are listed. -/
def writeAll (directory : Path) (jobs : List Job) : Run (List (Job × Option Error)) := do
  let machine ← read
  return collect (← writeEach directory (machine.schedule jobs)) jobs

/-- Removes files, whether or not some cannot be removed. -/
def removeAll (directory : Path) (files : List String) : Run Unit :=
  files.forM fun file => do
    let _ ← attempt (perform (.remove (directory.entry file)))

/-- Compiles the validators, once their inputs are written. -/
def compileValidators (name : String) (program : Program) (directory : Path) : Run Unit := do
  let code ← start name program directory
  if code ≠ 0 then throw (.validatorCompiler code)

/-- Writes the inputs of the validator compiler, runs it and removes the inputs that were written.
Nothing is written unless the program is there and all inputs can be rendered. -/
def writeValidators (options : Options) (c : Client) (directory : Path) : Run Unit := do
  let machine ← read
  match machine.program? options.validatorRuntime with
  | none => throw (.missingExecutable options.validatorRuntime)
  | some program =>
    let jobs := validatorJobs machine options c
    match jobs.findSome? Job.failure? with
    | some e => throw e
    | none =>
      let results ← writeAll directory jobs
      let failure ← match results.findSome? (·.2) with
        | some e => pure (some e)
        | none => attempt (compileValidators options.validatorRuntime program directory)
      removeAll directory ((results.filter (·.2.isNone)).map (·.1.file))
      match failure with
      | some e => throw e
      | none => return ()

/-- Writes the files of one category into its directory. -/
def fill (options : Options) (c : Client) (override : Option Path) (directory : Path) :
    Category → Run Unit
  | .core => do
    writeJobs directory (coreJobs (← read) options c)
    match override with
    | some source => perform (.copy source (directory.entry requestFile))
    | none => return ()
  | .services => do writeJobs directory (serviceJobs (← read) options c)
  | .schemas => do writeJobs directory (schemaJobs (← read) c)
  | .validators => writeValidators options c directory
  | .models => do writeJobs directory (modelJobs (← read) options c)

/-- Writes one category anew. -/
def writeCategory (options : Options) (c : Client) (override : Option Path) (output : Path)
    (category : Category) : Run Unit := do
  let directory := output.entry category.directory
  acquire directory
  fill options c override directory category

/-- Writes the index into the output directory. -/
def writeIndex (options : Options) (c : Client) (output : Path) : Run Unit := do
  perform (.makeDirectory output)
  let machine ← read
  let text ← render .index (Page.indexContext options c)
  perform (.write (output.entry indexFile) (.text (machine.format text)))

/-- The file that is to take the place of the request function. It has to be there. -/
def findOverride (options : Options) : Run (Option Path) := do
  match options.request with
  | none => return none
  | some request =>
    if options.exportCore then
      let path := Path.normalize ((← read).workingDirectory.join (Path.parse request))
      if ← exists? path then return some path
      else throw (.missingRequestFile path)
    else return none

/-- Writes all categories that are enabled, and then the index. -/
def writeClient (c : Client) (options : Options) : Run Unit := do
  let here := (← read).workingDirectory
  let output := Path.parse options.output
  if !here.isBelow output then throw (.unsafeOutput options.output)
  let output := (here.join output).normalize
  let override ← findOverride options
  (Category.all.filter (·.isEnabled options)).forM (writeCategory options c override output)
  if options.anyCategory then writeIndex options c output

end TypedClient.Emission

namespace TypedClient

/-- The client of a document. -/
def Client.ofTree (tree : Json) (promote : Bool) : Except Error Client := do
  Document.checkVersion tree
  let document ← (Document.decode tree).mapError Error.json
  (← Client.draft document promote).finish

/-- Builds the client of a document and writes it if the options say so. -/
def Emission.generate (tree : Json) (options : Options) : Emission.Run Client := do
  match Client.ofTree tree options.responseSchemaAsModel with
  | .error e => throw e
  | .ok c =>
    if options.write then Emission.writeClient c options
    return c

end TypedClient
