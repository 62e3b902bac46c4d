import TypedClient.Client.Draft
import TypedClient.Proofs.Document.Schemas
import TypedClient.Proofs.Model.Closed
import TypedClient.Proofs.Operation.Identifiers
import TypedClient.Proofs.Operation.Models

/-!
# What the models of an operation are built from

A `Declaration` is an operation as a document declares it, with the path and the method.
Its `sources` are the models of its parameters, its body and its responses, each with the
definitions lifted out of it. The definitions of an operation are those of its sources
(`build_snd`), and every model in every list of the operation is the model of a source with
its imports set (`exists_source_of_mem_models`). `closed_source` says that a source mentions
only known names and its own definitions.
-/

namespace TypedClient.Operation

open Document (RefOr Parameter)

/-- The schema of a response that no promoted definition stands for, if it has one. -/
def inlineSchema? (promotions : Model.Promotions) (item : RefOr Document.Response)
    (response : Document.Response) : Option Schema :=
  match preferred? response.content with
  | some (mediaType, s) => if (promotion? promotions item mediaType).isSome then none else some s
  | none => none

/-- An operation that a document declares. -/
structure Declaration where
  path : String
  method : Method
  op : Document.Operation
  /-- The parameters that the path shares. -/
  shared : List (RefOr Parameter)

namespace Declaration

/-- The scope of the definitions lifted out of the operation. -/
def scope (x : Declaration) : String := x.method.key ++ " " ++ x.path

/-- The first segment of their places. -/
def root (x : Declaration) : String :=
  Text.capitalize (nameFor x.op.operationId x.method x.path)

/-- The service that the operation belongs to. -/
def service (x : Declaration) : String := serviceOf x.op.tags

def parameters (x : Declaration) (d : Document) : List Parameter :=
  mergeParameters d x.shared x.op.parameters

/-- The arguments for the parameters. -/
def sent (x : Declaration) (d : Document) : List (Argument × List Model) :=
  ((x.parameters d).zip (identifiers (x.parameters d))).map fun (p, identifier) =>
    argumentOf x.scope x.root p identifier

/-- The argument for the body. -/
def body? (x : Declaration) (d : Document) : Option (Argument × List Model) :=
  bodyOf? d x.scope x.root (identifiers (x.parameters d)) x.op.requestBody

/-- The schema of the body, with the media type that it stands for. -/
def bodySource? (x : Declaration) (d : Document) :
    Option (Document.RequestBody × String × Schema) := do
  let body ← x.op.requestBody.bind d.requestBody?
  let (mediaType, s) ← preferred? body.content
  return (body, mediaType, s)

/-- The argument for a body with its schema. -/
def bodyArgument (x : Declaration) (d : Document) :
    Document.RequestBody × String × Schema → Argument × List Model
  | (body, mediaType, s) =>
    let (model, lifted) := Model.inline x.scope "requestBody" [x.root, "RequestBody"] s
    ({ wireName := "requestBody"
       identifier := Naming.unique "requestBody" (identifiers (x.parameters d))
       place := .body
       description := body.description
       mediaType := some mediaType
       model := { model with isRequired := body.required } }, lifted)

/-- The responses that have a status and lead somewhere. -/
def responses (x : Declaration) (d : Document) :
    List (Status × RefOr Document.Response × Document.Response) :=
  x.op.responses.filterMap fun (key, item) => do
    let status ← Status.ofKey? key
    let response ← d.response? item
    return (status, item, response)

/-- The model of a response, and the definitions lifted out of it. -/
def responseModel (x : Declaration) (promotions : Model.Promotions) :
    Status × RefOr Document.Response × Document.Response → Model × List Model
  | (status, item, response) =>
    match preferred? response.content with
    | none => (Model.primitive "" "void", [])
    | some (mediaType, s) =>
      match promotion? promotions item mediaType with
      | some name => (Model.reference "" name, [])
      | none => Model.inline x.scope "" [x.root, "Response" ++ status.label] s

/-- The outcomes for the responses. -/
def outcomes (x : Declaration) (d : Document) (promotions : Model.Promotions) :
    List (Outcome × List Model) :=
  x.op.responses.filterMap fun (key, item) => outcomeOf? d promotions x.scope x.root key item

/-- The operation of the client, and the definitions lifted out of it. -/
def build (x : Declaration) (d : Document) (promotions : Model.Promotions) :
    Operation × List Model :=
  Operation.build d promotions x.path x.method x.op x.shared

/-- The models of an operation, each with the definitions lifted out of it. -/
def sources (x : Declaration) (d : Document) (promotions : Model.Promotions) :
    List (Model × List Model) :=
  (x.sent d ++ (x.body? d).toList).map (fun (a, lifted) => (a.model, lifted)) ++
    (x.responses d).map (x.responseModel promotions)

variable (x : Declaration) (d : Document) (promotions : Model.Promotions)

/-- The argument for the body is built from its schema. -/
theorem body?_eq : x.body? d = (x.bodySource? d).map (x.bodyArgument d) := by
  cases hbody : x.op.requestBody.bind d.requestBody? with
  | none => simp [body?, bodyOf?, bodySource?, hbody]
  | some body =>
      cases hs : preferred? body.content with
      | none => simp [body?, bodyOf?, bodySource?, hbody, hs]
      | some found =>
          simp only [body?, bodyOf?, bodySource?, hbody, hs, bind, pure, Option.bind_some,
            Option.map_some]
          rfl

/-- The outcomes have the models of the responses. -/
theorem outcomes_eq :
    (x.outcomes d promotions).map (fun (o, lifted) => (o.model, lifted)) =
      (x.responses d).map (x.responseModel promotions) := by
  rw [outcomes, responses, List.map_filterMap, List.map_filterMap]
  congr 1
  funext ⟨key, item⟩
  cases hstatus : Status.ofKey? key with
  | none => simp [outcomeOf?, hstatus]
  | some status =>
      cases hresponse : d.response? item with
      | none => simp [outcomeOf?, hstatus, hresponse]
      | some response =>
          simp only [outcomeOf?, hstatus, hresponse]
          rfl

/-- The definitions of an operation are those of its sources. -/
theorem build_snd : (x.build d promotions).2 = (x.sources d promotions).flatMap (·.2) := by
  have hbody : ((x.body? d).map (·.2)).getD [] = (x.body? d).toList.flatMap (·.2) := by
    cases x.body? d <;> simp
  have hbuild : (x.build d promotions).2 =
      (x.sent d).flatMap (·.2) ++ ((x.body? d).map (·.2)).getD [] ++
        (x.outcomes d promotions).flatMap (·.2) := rfl
  have houtcomes := congrArg (List.flatMap Prod.snd) (x.outcomes_eq d promotions)
  rw [List.flatMap_map, List.flatMap_map] at houtcomes
  rw [hbuild, hbody, houtcomes]
  simp [sources, List.flatMap_map]

/-- The arguments for the parameters that are sent in a place. -/
def sentIn (place : Place) : List Argument := ((x.sent d).map (·.1)).filter (·.place == place)

/-- All arguments, before the required ones are put first. -/
def arguments : List Argument := (x.sent d).map (·.1) ++ ((x.body? d).map (·.1)).toList

/-- The arguments for the parameters have their identifiers. -/
theorem map_identifier_sent :
    ((x.sent d).map (·.1)).map (·.identifier) = identifiers (x.parameters d) := by
  have hparts : ((x.sent d).map (·.1)).map (·.identifier) =
      ((x.parameters d).zip (identifiers (x.parameters d))).map (·.2) := by
    rw [sent, List.map_map, List.map_map]
    rfl
  rw [hparts]
  exact List.map_snd_zip (length_identifiers_le _)

/-- No two arguments have the same identifier, the body included. -/
theorem nodup_identifiers_arguments : ((x.arguments d).map (·.identifier)).Nodup := by
  rw [arguments, List.map_append, map_identifier_sent, body?_eq]
  cases x.bodySource? d with
  | none => simpa using nodup_identifiers (x.parameters d)
  | some source =>
      have hfree := Naming.unique_not_mem "requestBody" (identifiers (x.parameters d))
      rw [List.nodup_append']
      refine ⟨nodup_identifiers _, List.nodup_singleton _, ?_⟩
      intro name hname hbody
      obtain rfl : name = (x.bodyArgument d source).1.identifier := by simpa using hbody
      exact hfree hname

/-- The lists of an operation in terms of its arguments and outcomes. -/
theorem models_build :
    (x.build d promotions).1.models =
      ((requiredFirst (x.arguments d) ++ x.sentIn d .path ++ x.sentIn d .query ++
          x.sentIn d .header ++ x.sentIn d .cookie ++
          ((x.body? d).map (·.1)).toList).map (·.model) ++
        ((x.outcomes d promotions).map (·.1) ++
          ((x.outcomes d promotions).map (·.1)).filter (·.status.isSuccess) ++
          ((x.outcomes d promotions).map (·.1)).filter (!·.status.isSuccess)).map
            (·.model)).map Model.refreshImports :=
  models_refreshImports _

theorem mem_arguments_of_mem_sentIn {place : Place} {a : Argument} (h : a ∈ x.sentIn d place) :
    a ∈ x.arguments d :=
  List.mem_append_left _ (List.mem_of_mem_filter h)

/-- Every model in every list is that of a source, with its imports set. -/
theorem exists_source_of_mem_models {m : Model} (h : m ∈ (x.build d promotions).1.models) :
    ∃ source ∈ x.sources d promotions, m = source.1.refreshImports := by
  rw [models_build, List.mem_map] at h
  obtain ⟨n, hn, rfl⟩ := h
  have hsource : (∃ a ∈ x.arguments d, a.model = n) ∨
      ∃ o ∈ (x.outcomes d promotions).map (·.1), o.model = n := by
    rcases List.mem_append.1 hn with hn | hn
    · obtain ⟨a, ha, heq⟩ := List.mem_map.1 hn
      refine .inl ⟨a, ?_, heq⟩
      simp only [List.mem_append, (requiredFirst_perm _).mem_iff] at ha
      rcases ha with ((((ha | ha) | ha) | ha) | ha) | ha
      · exact ha
      · exact x.mem_arguments_of_mem_sentIn d ha
      · exact x.mem_arguments_of_mem_sentIn d ha
      · exact x.mem_arguments_of_mem_sentIn d ha
      · exact x.mem_arguments_of_mem_sentIn d ha
      · exact List.mem_append_right _ ha
    · obtain ⟨o, ho, heq⟩ := List.mem_map.1 hn
      refine .inr ⟨o, ?_, heq⟩
      simp only [List.mem_append] at ho
      rcases ho with (ho | ho) | ho
      · exact ho
      · exact List.mem_of_mem_filter ho
      · exact List.mem_of_mem_filter ho
  rcases hsource with ⟨a, ha, rfl⟩ | ⟨o, ho, rfl⟩
  · rw [arguments, Option.toList_map, ← List.map_append] at ha
    obtain ⟨built, hbuilt, rfl⟩ := List.mem_map.1 ha
    exact ⟨(built.1.model, built.2),
      List.mem_append_left _ (List.mem_map.2 ⟨built, hbuilt, rfl⟩), rfl⟩
  · obtain ⟨built, hbuilt, rfl⟩ := List.mem_map.1 ho
    refine ⟨(built.1.model, built.2), List.mem_append_right _ ?_, rfl⟩
    rw [← outcomes_eq]
    exact List.mem_map.2 ⟨built, hbuilt, rfl⟩

end Declaration

/-! ## The operations of a document -/

/-- The operations that a document declares, in order. -/
def declarations (d : Document) : List Declaration :=
  d.paths.flatMap fun (path, item) =>
    item.operations.map fun (method, op) => ⟨path, method, op, item.parameters⟩

theorem operations_eq (d : Document) (promotions : Model.Promotions) :
    Client.operations d promotions = (declarations d).map (·.build d promotions) := by
  simp only [Client.operations, declarations, List.map_flatMap, List.map_map]
  rfl

variable {d : Document} {x : Declaration}

/-- A declared operation stands under a path of the document. -/
theorem exists_of_mem_declarations (hx : x ∈ declarations d) :
    ∃ item, (x.path, item) ∈ d.paths ∧ (x.method, x.op) ∈ item.operations ∧
      x.shared = item.parameters := by
  obtain ⟨⟨path, item⟩, hpath, hx⟩ := List.mem_flatMap.1 hx
  obtain ⟨⟨method, op⟩, hop, rfl⟩ := List.mem_map.1 hx
  exact ⟨item, hpath, hop, rfl⟩

theorem inline_mem_of_mem_parameters (hx : x ∈ declarations d) {p : Parameter}
    (hp : p ∈ x.parameters d) : RefOr.inline p ∈ d.parameterItems := by
  obtain ⟨item, hpath, hop, hshared⟩ := exists_of_mem_declarations hx
  obtain ⟨entry, hentry, hfollow⟩ := exists_item_of_mem_mergeParameters hp
  refine Document.inline_mem_itemsOf (Document.mem_itemsOf_of_mem_paths hpath ?_) hfollow
  rw [hshared] at hentry
  rcases List.mem_append.1 hentry with hentry | hentry
  · exact List.mem_append_left _ hentry
  · exact List.mem_append_right _ (List.mem_flatMap.2 ⟨_, hop, hentry⟩)

theorem inline_mem_of_requestBody? (hx : x ∈ declarations d) {entry : RefOr Document.RequestBody}
    {body : Document.RequestBody} (hentry : x.op.requestBody = some entry)
    (hbody : d.requestBody? entry = some body) : RefOr.inline body ∈ d.requestBodyItems := by
  obtain ⟨item, hpath, hop, _⟩ := exists_of_mem_declarations hx
  refine Document.inline_mem_itemsOf (Document.mem_itemsOf_of_mem_paths hpath ?_) hbody
  exact List.mem_flatMap.2 ⟨_, hop, by simp [hentry]⟩

theorem inline_mem_of_response? (hx : x ∈ declarations d) {key : String}
    {entry : RefOr Document.Response} {response : Document.Response}
    (hentry : (key, entry) ∈ x.op.responses) (hresponse : d.response? entry = some response) :
    RefOr.inline response ∈ d.responseItems := by
  obtain ⟨item, hpath, hop, _⟩ := exists_of_mem_declarations hx
  refine Document.inline_mem_itemsOf (Document.mem_itemsOf_of_mem_paths hpath ?_) hresponse
  exact List.mem_flatMap.2 ⟨_, hop, List.mem_map.2 ⟨_, hentry, rfl⟩⟩

/-! ## Sources are closed -/

variable {known : String → Prop}

/-- The argument for a parameter is of the type of its inline schema. -/
theorem argumentOf_of_schemaOf? {scope root identifier : String} {p : Parameter} {s : Schema}
    (hs : schemaOf? p = some s) :
    Model.Alike (argumentOf scope root p identifier).1.model
        (Model.inline scope p.name [root, Naming.pascalCase p.name] s).1 ∧
      (argumentOf scope root p identifier).2 =
        (Model.inline scope p.name [root, Naming.pascalCase p.name] s).2 := by
  simp only [argumentOf, hs]
  exact ⟨⟨rfl, rfl, rfl⟩, trivial⟩

/-- Without a schema nothing is lifted out of a parameter. -/
theorem argumentOf_of_none (scope root identifier : String) {p : Parameter}
    (hs : schemaOf? p = none) :
    (argumentOf scope root p identifier).1.model.references = [] ∧
      (argumentOf scope root p identifier).2 = [] := by
  have halike : Model.Alike (argumentOf scope root p identifier).1.model
      (Model.primitive p.name "any") := by
    simp only [argumentOf, hs]
    exact ⟨rfl, rfl, rfl⟩
  rw [halike.references_eq, Model.references_primitive]
  simp only [argumentOf, hs, and_self]

theorem closed_argumentOf {scope root identifier : String} {p : Parameter}
    (h : ∀ s, schemaOf? p = some s → ∀ ref, s.Mentions ref → known (Pointer.typeName ref)) :
    Model.Closed known ((argumentOf scope root p identifier).1.model,
      (argumentOf scope root p identifier).2) := by
  cases hs : schemaOf? p with
  | none =>
      obtain ⟨hreferences, hlifted⟩ := argumentOf_of_none scope root identifier hs
      rw [hlifted]
      exact Model.closed_of_known (by simp [hreferences])
  | some s =>
      obtain ⟨halike, hlifted⟩ := argumentOf_of_schemaOf? hs
      rw [hlifted]
      exact (Model.closed_inline _ _ _ (h s hs)).congr halike.references_eq

/-- The argument for a body is of the type of its inline schema. -/
theorem alike_bodyArgument (body : Document.RequestBody) (mediaType : String) (s : Schema) :
    Model.Alike (x.bodyArgument d (body, mediaType, s)).1.model
      (Model.inline x.scope "requestBody" [x.root, "RequestBody"] s).1 :=
  ⟨rfl, rfl, rfl⟩

/-- The schema of a body is declared. -/
theorem declares_of_bodySource? (hx : x ∈ declarations d) {body : Document.RequestBody}
    {mediaType : String} {s : Schema} (h : x.bodySource? d = some (body, mediaType, s)) :
    d.Declares s := by
  obtain ⟨found, hbody, h⟩ := Option.bind_eq_some_iff.1 h
  obtain ⟨item, hitem, hbody⟩ := Option.bind_eq_some_iff.1 hbody
  obtain ⟨⟨name, t⟩, hs, h⟩ := Option.bind_eq_some_iff.1 h
  cases h
  exact .requestBody body s (inline_mem_of_requestBody? hx hitem hbody) (has_of_preferred? hs)

/-- A response that no promoted definition stands for has the model of its inline schema. -/
theorem responseModel_of_inlineSchema? {promotions : Model.Promotions} {status : Status}
    {item : RefOr Document.Response} {response : Document.Response} {s : Schema}
    (hs : inlineSchema? promotions item response = some s) :
    x.responseModel promotions (status, item, response) =
      Model.inline x.scope "" [x.root, "Response" ++ status.label] s := by
  unfold inlineSchema? at hs
  split at hs
  · rename_i mediaType t hcontent
    split at hs
    · cases hs
    · rename_i hpromotion
      obtain rfl := Option.some.inj hs
      have hnone : promotion? promotions item mediaType = none := by simpa using hpromotion
      simp [Declaration.responseModel, hcontent, hnone]
  · cases hs

/-- Otherwise nothing is lifted out of it. -/
theorem responseModel_of_none {promotions : Model.Promotions} {status : Status}
    {item : RefOr Document.Response} {response : Document.Response}
    (hs : inlineSchema? promotions item response = none) :
    (x.responseModel promotions (status, item, response)).2 = [] := by
  unfold inlineSchema? at hs
  split at hs
  · rename_i mediaType s hcontent
    cases hpromotion : promotion? promotions item mediaType with
    | none => simp [hpromotion] at hs
    | some name => simp [Declaration.responseModel, hcontent, hpromotion]
  · rename_i hcontent
    simp [Declaration.responseModel, hcontent]

theorem closed_responseModel {promotions : Model.Promotions} {status : Status}
    {item : RefOr Document.Response} {response : Document.Response}
    (hpromotions : ∀ entry ∈ promotions, known entry.2)
    (h : ∀ s, response.content.Has s → ∀ ref, s.Mentions ref → known (Pointer.typeName ref)) :
    Model.Closed known (x.responseModel promotions (status, item, response)) := by
  cases hcontent : preferred? response.content with
  | none =>
      simp only [Declaration.responseModel, hcontent]
      exact Model.closed_of_known (by simp)
  | some found =>
      obtain ⟨mediaType, s⟩ := found
      cases hpromotion : promotion? promotions item mediaType with
      | some name =>
          simp only [Declaration.responseModel, hcontent, hpromotion]
          have hname : known name := by
            cases item with
            | inline _ => cases hpromotion
            | ref target =>
                obtain ⟨before, after, heq, _⟩ := List.lookup_eq_some_iff.1 hpromotion
                exact hpromotions ((Pointer.key target, mediaType), name) (by simp [heq])
          exact Model.closed_of_known (by simpa using hname)
      | none =>
          simp only [Declaration.responseModel, hcontent, hpromotion]
          exact Model.closed_inline x.scope "" [x.root, "Response" ++ status.label]
            (h s (has_of_preferred? hcontent))

/-- A source of a declared operation mentions known names and its own definitions only. -/
theorem closed_source {promotions : Model.Promotions} (hx : x ∈ declarations d)
    (hpromotions : ∀ entry ∈ promotions, known entry.2)
    (h : ∀ s, d.Declares s → ∀ ref, s.Mentions ref → known (Pointer.typeName ref))
    {source : Model × List Model} (hsource : source ∈ x.sources d promotions) :
    Model.Closed known source := by
  rcases List.mem_append.1 hsource with hsource | hsource
  · obtain ⟨built, hbuilt, rfl⟩ := List.mem_map.1 hsource
    rcases List.mem_append.1 hbuilt with hbuilt | hbuilt
    · obtain ⟨⟨p, identifier⟩, hp, rfl⟩ := List.mem_map.1 hbuilt
      apply closed_argumentOf
      intro s hs
      have hitem := inline_mem_of_mem_parameters hx (List.of_mem_zip hp).1
      exact h s (declares_of_schemaOf? hitem hs)
    · rw [Option.mem_toList, Declaration.body?_eq] at hbuilt
      obtain ⟨⟨body, mediaType, s⟩, hbody, rfl⟩ := Option.map_eq_some_iff.1 hbuilt
      have hinline := Model.closed_inline x.scope "requestBody" [x.root, "RequestBody"]
        (h s (declares_of_bodySource? hx hbody))
      exact hinline.congr (alike_bodyArgument body mediaType s).references_eq
  · obtain ⟨built, hbuilt, rfl⟩ := List.mem_map.1 hsource
    obtain ⟨⟨key, item⟩, hitem, hbuilt⟩ := List.mem_filterMap.1 hbuilt
    obtain ⟨status, _, hbuilt⟩ := Option.bind_eq_some_iff.1 hbuilt
    obtain ⟨response, hresponse, hbuilt⟩ := Option.bind_eq_some_iff.1 hbuilt
    obtain rfl := Option.some.inj hbuilt
    apply closed_responseModel hpromotions
    intro s hhas
    exact h s (.response response s (inline_mem_of_response? hx hitem hresponse) hhas)

end TypedClient.Operation
