import TypedClient.Client.Basic
import TypedClient.Operation.Build

/-!
# From documents to clients

The client of a document before its names are final: the models of the components
and everything that was lifted out of them and out of the operations, and the
operations grouped by their first tag.
-/

namespace TypedClient

namespace Client

/-- A version without the letter that may stand before it. -/
def versionNumber (version : String) : String :=
  match version.toList with
  | 'v' :: rest => String.ofList rest
  | 'V' :: rest => String.ofList rest
  | _ => version

/-- Every occurrence of a text replaced, from left to right. -/
def replaceText (pattern replacement : List Char) : Nat → List Char → List Char
  | 0, cs => cs
  | _ + 1, [] => []
  | fuel + 1, c :: cs =>
    if pattern.isPrefixOf (c :: cs) then
      replacement ++ replaceText pattern replacement fuel ((c :: cs).drop pattern.length)
    else c :: replaceText pattern replacement fuel cs

/-- An address with one variable replaced by its default value. -/
def substituteVariable (url : List Char) (name value : String) : List Char :=
  replaceText ('\x7b' :: name.toList ++ ['\x7d']) value.toList url.length url

/-- The address of the first server, with its variables replaced and no slash at the end. -/
def serverAddress (d : Document) : String :=
  match d.servers with
  | [] => ""
  | server :: _ =>
    let url := server.placeholders.foldl
      (fun url (name, known) => substituteVariable url name known.default)
      server.url.toList
    String.ofList (Text.dropEndWhile (· == '/') url)

/-- The operations of a document in the order in which they are declared, each with the definitions
lifted out of it. -/
def operations (d : Document) (promotions : Model.Promotions) : List (Operation × List Model) :=
  d.paths.flatMap fun (path, item) =>
    item.operations.map fun (method, op) =>
      Operation.build d promotions path method op item.parameters

/-- Adds an operation to the service that it belongs to, which is new if need be. -/
def addOperation (op : Operation) : List Service → List Service
  | [] => [{ name := op.service, operations := [op] }]
  | s :: rest =>
    if s.name = op.service then { s with operations := s.operations ++ [op] } :: rest
    else s :: addOperation op rest

/-- The operations grouped by service, in the order of the first operation of each. -/
def group (ops : List Operation) : List Service :=
  ops.foldl (fun services op => addOperation op services) []

/-- The client of a document, with names that are not final. -/
def draft (d : Document) (promote : Bool) : Except Error Client := do
  let components ← Model.ofComponents d promote
  let built := operations d components.promotions
  return {
    version := versionNumber d.info.version
    server := serverAddress d
    models := components.models ++ built.flatMap (·.2)
    services := group (built.map (·.1)) }

end Client

end TypedClient
