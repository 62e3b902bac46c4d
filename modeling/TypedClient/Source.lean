import TypedClient.Emission.Category
import TypedClient.Json.Parser
import TypedClient.Options.Basic
import TypedClient.Toml.Parser
import TypedClient.Yaml.Parser

/-!
# Sources

Where a run takes its document and its options from. A document is given as the JSON
text itself or by the name of a file, whose extension tells YAML from JSON; options
are read from a TOML file.
-/

namespace TypedClient

open Files

/-- The text of a file that is named as seen from a directory. -/
def readNamed (tree : Tree) (here : Path) (name : String) : Except Error String :=
  (tree.readNamed here name).mapError (Error.disk .read name)

namespace Options

/-- The options that TOML text holds. -/
def ofToml (text : String) : Except Error Options :=
  match Toml.parse? text with
  | none => .error .tomlSyntax
  | some value => (decode value).mapError Error.toml

/-- The options that a TOML file holds. -/
def ofFile (tree : Tree) (here : Path) (name : String) : Except Error Options := do
  ofToml (← readNamed tree here name)

end Options

namespace Source

/-- The formats of documents. -/
inductive Format where
  | json
  | yaml
deriving DecidableEq, Repr, Inhabited

/-- The format of a file. -/
def Format.ofName (name : String) : Format :=
  match (Path.parse name).extension? with
  | none => .json
  | some e => if ["yaml", "yml"].contains (Text.lowerAscii e) then .yaml else .json

/-- The tree that a text holds. -/
def parse (format : Format) (text : String) : Except Error Json :=
  match format with
  | .json => (Json.parse? text).elim (.error .jsonSyntax) .ok
  | .yaml => (Yaml.parse? text).elim (.error .yaml) .ok

/-- Whether a text is JSON itself and not the name of a file. -/
def isInline (text : String) : Bool := (Text.trimStart text).toList.head? == some '\x7b'

/-- The document that is given as text or by the name of a file. -/
def load (tree : Tree) (here : Path) (text : String) : Except Error Json :=
  if isInline text then parse .json text
  else do parse (Format.ofName text) (← readNamed tree here text)

end Source

/-- Loads a document, builds its client and writes it. -/
def Emission.generateFrom (source : String) (options : Options) : Emission.Run Client := do
  match Source.load (← get).tree (← read).workingDirectory source with
  | .ok tree => generate tree options
  | .error e => throw e

end TypedClient
