import TypedClient.Document.Basic
import TypedClient.Schema.Decode

/-!
# Reading documents

The records of a document with their fields. Where a reference may stand instead
of a component, the reference is tried first; if neither fits, nothing is said
about which part was at fault.
-/

namespace TypedClient.Document

open Decode

/-- Reads a reference: a record of which only the target matters. -/
def decodeReference : Json → Result String :=
  record "Reference" [⟨"$ref", .needed, fun _ value => string value⟩] ""

/-- Reads a reference or a component. -/
def RefOr.decode {α : Type} (read : Json → Result α) : Json → Result (RefOr α) :=
  firstOf "RefOr"
    [fun value => (decodeReference value).map .ref, fun value => (read value).map .inline]

/-- Reads a location: its key, or an object whose only member has that key and no value. -/
def Location.decode (value : Json) : Result Location :=
  let ofKey (key : String) : Result Location :=
    match ofKey? key with
    | some location => .ok location
    | none => wrongType "a location" value
  match value with
  | .string key => ofKey key
  | .object [(key, .null)] => ofKey key
  | value => wrongType "a location" value

/-- Reads the body for one media type. -/
def MediaType.decode : Json → Result MediaType :=
  record "MediaType"
    [⟨"schema", .optional, fun m v => return { m with schema := ← optional Schema.decode v }⟩] {}

/-- Reads bodies by media type. -/
def Content.decode : Json → Result Content := map MediaType.decode

/-- Reads a parameter. -/
def Parameter.decode : Json → Result Parameter :=
  record "Parameter"
    [⟨"name", .needed, fun p v => return { p with name := ← string v }⟩,
      ⟨"in", .needed, fun p v => return { p with location := ← Location.decode v }⟩,
      ⟨"description", .optional, fun p v => return { p with description := ← optional string v }⟩,
      ⟨"required", .defaulted, fun p v => return { p with required := ← bool v }⟩,
      ⟨"deprecated", .defaulted, fun p v => return { p with deprecated := ← bool v }⟩,
      ⟨"schema", .optional, fun p v => return { p with schema := ← optional Schema.decode v }⟩,
      ⟨"content", .optional, fun p v => return { p with content := ← optional Content.decode v }⟩]
    { name := "", location := .path }

/-- Reads the body of a request. -/
def RequestBody.decode : Json → Result RequestBody :=
  record "RequestBody"
    [⟨"description", .optional, fun b v => return { b with description := ← optional string v }⟩,
      ⟨"required", .defaulted, fun b v => return { b with required := ← bool v }⟩,
      ⟨"content", .defaulted, fun b v => return { b with content := ← Content.decode v }⟩]
    {}

/-- Reads a header of a response. -/
def Header.decode : Json → Result Header :=
  record "Header"
    [⟨"description", .optional, fun h v => return { h with description := ← optional string v }⟩,
      ⟨"schema", .optional, fun h v => return { h with schema := ← optional Schema.decode v }⟩]
    {}

/-- Reads a response. -/
def Response.decode : Json → Result Response :=
  record "Response"
    [⟨"description", .defaulted, fun r v => return { r with description := ← string v }⟩,
      ⟨"content", .defaulted, fun r v => return { r with content := ← Content.decode v }⟩,
      ⟨"headers", .defaulted, fun r v =>
        return { r with headers := ← map (RefOr.decode Header.decode) v }⟩]
    {}

/-- Reads an operation. -/
def Operation.decode : Json → Result Operation :=
  record "Operation"
    [⟨"operationId", .optional, fun o v => return { o with operationId := ← optional string v }⟩,
      ⟨"summary", .optional, fun o v => return { o with summary := ← optional string v }⟩,
      ⟨"description", .optional, fun o v => return { o with description := ← optional string v }⟩,
      ⟨"tags", .defaulted, fun o v => return { o with tags := ← list string v }⟩,
      ⟨"deprecated", .defaulted, fun o v => return { o with deprecated := ← bool v }⟩,
      ⟨"parameters", .defaulted, fun o v =>
        return { o with parameters := ← list (RefOr.decode Parameter.decode) v }⟩,
      ⟨"requestBody", .optional, fun o v =>
        return { o with requestBody := ← optional (RefOr.decode RequestBody.decode) v }⟩,
      ⟨"responses", .defaulted, fun o v =>
        return { o with responses := ← map (RefOr.decode Response.decode) v }⟩]
    {}

/-- Reads one member of a path item: an operation under its method, or the shared parameters. -/
def PathItem.member (item : PathItem) (key : String) (value : Json) : Result PathItem :=
  if key = "parameters" then do
    return { item with parameters := ← list (RefOr.decode Parameter.decode) value }
  else match Method.ofKey? key with
    | some method => do
      return { item with operations := item.operations ++ [(method, ← Operation.decode value)] }
    | none => .ok item

/-- Reads a path item, member by member. -/
def PathItem.decode : Json → Result PathItem
  | .object members => members.foldlM (fun item (key, value) => item.member key value) {}
  | value => wrongType "a map" value

/-- Reads what the document says about itself. -/
def Info.decode : Json → Result Info :=
  record "Info"
    [⟨"title", .defaulted, fun i v => return { i with title := ← string v }⟩,
      ⟨"version", .defaulted, fun i v => return { i with version := ← string v }⟩]
    {}

/-- Reads a variable in the address of a server. -/
def ServerVariable.decode : Json → Result ServerVariable :=
  record "ServerVariable" [⟨"default", .needed, fun _ v => (string v).map ServerVariable.mk⟩] ⟨""⟩

/-- Reads a server. -/
def Server.decode : Json → Result Server :=
  record "Server"
    [⟨"url", .needed, fun s v => return { s with url := ← string v }⟩,
      ⟨"variables", .defaulted, fun s v =>
        return { s with placeholders := ← map ServerVariable.decode v }⟩]
    { url := "" }

/-- Reads the shared parts of a document. -/
def Components.decode : Json → Result Components :=
  record "Components"
    [⟨"schemas", .defaulted, fun c v => return { c with schemas := ← map Schema.decode v }⟩,
      ⟨"responses", .defaulted, fun c v =>
        return { c with responses := ← map (RefOr.decode Response.decode) v }⟩,
      ⟨"parameters", .defaulted, fun c v =>
        return { c with parameters := ← map (RefOr.decode Parameter.decode) v }⟩,
      ⟨"requestBodies", .defaulted, fun c v =>
        return { c with requestBodies := ← map (RefOr.decode RequestBody.decode) v }⟩]
    {}

/-- The fields of a document. -/
def fields : List (FieldReader Document) :=
  [⟨"openapi", .needed, fun d v => return { d with openapi := ← string v }⟩,
    ⟨"info", .defaulted, fun d v => return { d with info := ← Info.decode v }⟩,
    ⟨"servers", .defaulted, fun d v => return { d with servers := ← list Server.decode v }⟩,
    ⟨"paths", .defaulted, fun d v => return { d with paths := ← map PathItem.decode v }⟩,
    ⟨"components", .optional, fun d v =>
      return { d with components := ← optional Components.decode v }⟩]

/-- Reads a document. -/
def decode : Json → Result Document := record "Document" fields { openapi := "" }

end TypedClient.Document
