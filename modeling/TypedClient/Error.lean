import TypedClient.Artifact
import TypedClient.Decode.Basic
import TypedClient.Files.Path

/-!
# Failures

Everything that can end a run, by its cause, and the wording of each. What a
disk, a reader of a foreign format or a template engine would say in detail is
not kept: only the kind of failure matters.
-/

namespace TypedClient

namespace Files

/-- The ways in which access to a disk fails. -/
inductive Fault where
  | notFound
  | alreadyExists
  | isADirectory
  | notADirectory
  | invalidInput
  | invalidData
  | invalidFilename
  | permissionDenied
deriving DecidableEq, Repr, Inhabited

/-- The name of a fault. -/
def Fault.name : Fault → String
  | .notFound => "NotFound"
  | .alreadyExists => "AlreadyExists"
  | .isADirectory => "IsADirectory"
  | .notADirectory => "NotADirectory"
  | .invalidInput => "InvalidInput"
  | .invalidData => "InvalidData"
  | .invalidFilename => "InvalidFilename"
  | .permissionDenied => "PermissionDenied"

/-- What an operating system says about a fault. -/
def Fault.text : Fault → String
  | .notFound => "No such file or directory (os error 2)"
  | .alreadyExists => "File exists (os error 17)"
  | .isADirectory => "Is a directory (os error 21)"
  | .notADirectory => "Not a directory (os error 20)"
  | .invalidInput => "Invalid argument (os error 22)"
  | .invalidData => "stream did not contain valid UTF-8"
  | .invalidFilename => "File name too long (os error 36)"
  | .permissionDenied => "Permission denied (os error 13)"

/-- What is done to a disk. -/
inductive Action where
  | read
  | write
  | createDirectory
  | removeDirectory
  | copy
  | remove
  | run
deriving DecidableEq, Repr, Inhabited

/-- The wording of an action. -/
def Action.text : Action → String
  | .read => "read"
  | .write => "write"
  | .createDirectory => "create directory"
  | .removeDirectory => "remove directory"
  | .copy => "copy"
  | .remove => "remove"
  | .run => "run"

end Files

/-- Why a run ended without a client. -/
inductive Error where
  | unsupportedVersion (declared : String)
  | swagger2
  | unsafeOutput (path : String)
  | missingRequestFile (path : Files.Path)
  | unknownVariation (name : String)
  | unknownHttpClient (name : String)
  | nameCollision (name origin : String)
  | validatorCompiler (exitCode : Nat)
  | missingExecutable (program : String)
  | disk (action : Files.Action) (path : String) (fault : Files.Fault)
  | render (artifact : Artifact)
  | jsonSyntax
  | json (cause : DecodeError)
  | yaml
  | tomlSyntax
  | toml (cause : DecodeError)
deriving DecidableEq, Repr

namespace Error

/-- The wording of a failure. -/
def message : Error → String
  | .unsupportedVersion declared => "Unsupported Open API version: \"" ++ declared ++ "\""
  | .swagger2 => "OpenAPI V2 is not supported"
  | .unsafeOutput path =>
    "Output folder " ++ path ++ " is not a subdirectory of the current working directory"
  | .missingRequestFile path => "Custom request file \"" ++ path.text ++ "\" does not exist"
  | .unknownVariation name => "Unknown variation: " ++ name
  | .unknownHttpClient name => "Unknown http client: " ++ name
  | .nameCollision name origin =>
    "Model name \"" ++ name ++ "\" synthesized for " ++ origin ++
      " collides with an existing model"
  | .validatorCompiler code =>
    "Validator compiler exited with exit status: " ++ Decimal.natText code
  | .missingExecutable program =>
    "Could not locate \x60" ++ program ++
      "\x60 to precompile validators: cannot find binary path"
  | .disk action path fault => "Failed to " ++ action.text ++ " " ++ path ++ ": " ++ fault.text
  | .render artifact => "Failed to render " ++ artifact.template
  | .jsonSyntax => "Invalid OpenAPI document: not JSON"
  | .json cause => "Invalid OpenAPI document: " ++ cause.message .json
  | .yaml => "Invalid OpenAPI document: not YAML"
  | .tomlSyntax => "Invalid configuration: not TOML"
  | .toml cause => "Invalid configuration: " ++ cause.message .pointed

end Error

end TypedClient
