import TypedClient.Proofs.Client.ModelSet
import TypedClient.Proofs.Client.Reading

/-!
# Promoted responses

A shared response that is promoted has a definition for every media type with a schema. A response
of an operation that is a reference takes its content from the component to which the reference
leads, over any other references on the way, and its definition from the component that the
reference names itself. So it refers to the promoted definition if there is nothing on the way, and
otherwise only by chance (`refersToPromoted_iff`).
-/

namespace TypedClient

open Document (RefOr Leads)

/-! ## What is promoted -/

namespace Document

variable {d : Document}

/-- The schema behind a reference to a response is promoted. -/
theorem mem_promoted_of_leads {item : RefOr Response} {response : Response} {keys : List String}
    {p : Model.Promotable} (hleads : Leads d.sharedResponses item keys response)
    (hlast : keys.getLast? = some p.component)
    (hschema : Operation.preferred? response.content = some (p.mediaType, p.schema)) :
    p ∈ d.promoted true := by
  obtain ⟨media, hmedia, hs⟩ := Operation.mem_of_preferred? hschema
  obtain ⟨before, after, hsplit, _⟩ :=
    List.lookup_eq_some_iff.1 (hleads.lookup_getLast? hlast)
  exact mem_promoted_iff.2 ⟨response, media, by simp [hsplit], hmedia, hs⟩

/-- The promoted definition of a component is found under its key and its media type. -/
theorem lookup_promotions {p : Model.Promotable} (hp : p ∈ d.promoted true) :
    (d.promotions true).lookup (p.component, p.mediaType) = some p.name := by
  rw [promotions]
  generalize d.promoted true = ps at hp
  induction ps with
  | nil => cases hp
  | cons q rest ih =>
      rw [List.map_cons, List.lookup_cons]
      by_cases heq : (p.component, p.mediaType) = (q.component, q.mediaType)
      · -- Whatever its schema is, the definition has the same name.
        obtain ⟨hcomponent, hmediaType⟩ := Prod.mk.inj heq
        rw [beq_iff_eq.2 heq, Model.Promotable.name, Model.Promotable.name, hcomponent, hmediaType]
      · rw [beq_false_of_ne heq]
        have hne : p ≠ q := by
          rintro rfl
          exact heq rfl
        exact ih ((List.mem_cons.1 hp).resolve_left hne)

/-- Nothing is promoted for a component that is a reference. -/
theorem lookup_promotions_eq_none (hkeys : (d.sharedResponses.map (·.1)).Nodup)
    {key next : String} (h : d.sharedResponses.lookup key = some (.ref next)) (mediaType : String) :
    (d.promotions true).lookup (key, mediaType) = none := by
  obtain ⟨before, after, hsplit, _⟩ := List.lookup_eq_some_iff.1 h
  have href : (key, RefOr.ref next) ∈ d.sharedResponses := by simp [hsplit]
  rw [List.lookup_eq_none_iff]
  intro entry hentry
  obtain ⟨p, hp, rfl⟩ := List.mem_map.1 hentry
  obtain ⟨response, _, hitem, _⟩ := mem_promoted_iff.1 hp
  rw [bne_iff_ne]
  intro heq
  obtain rfl : key = p.component := (Prod.mk.inj heq).1
  -- Two components with one key would be the same.
  have hsame := List.inj_on_of_nodup_map hkeys href hitem rfl
  cases hsame

/-- The response of an operation, given by its service and its number there and by its own number,
is a reference that leads over the keys to what is promoted. -/
inductive RefersTo (d : Document) (service : String) (number index : Nat) :
    List String → Model.Promotable → Prop
  | response {x : Operation.Declaration} {status : Status} {target : String} {response : Response}
      {keys : List String} {p : Model.Promotable} :
      d.declaration? service number = some x →
      (x.responses d)[index]? = some (status, .ref target, response) →
      Leads d.sharedResponses (.ref target) keys response → keys.getLast? = some p.component →
      Operation.preferred? response.content = some (p.mediaType, p.schema) →
      RefersTo d service number index keys p

/-- The definitions that are lifted out of a response. -/
def liftedOutOf? (d : Document) (promote : Bool) (service : String) (number index : Nat) :
    Option (List Model) := do
  let x ← d.declaration? service number
  let (_, lifted) ← (x.outcomes d (d.promotions promote))[index]?
  return lifted

end Document

/-! ## The model of a response -/

namespace Operation.Declaration

variable {d : Document} {x : Declaration} {status : Status} {target : String}
  {response : Document.Response} {keys : List String} {p : Model.Promotable}

/-- A response that names the promoted component itself is a reference to its definition. -/
theorem responseModel_of_direct
    (hleads : Leads d.sharedResponses (.ref target) [p.component] response)
    (hschema : preferred? response.content = some (p.mediaType, p.schema)) :
    x.responseModel (d.promotions true) (status, .ref target, response) =
      (Model.reference "" p.name, []) := by
  have hpromoted := Document.mem_promoted_of_leads hleads (p := p) rfl hschema
  have hpromotion : promotion? (d.promotions true) (.ref target) p.mediaType = some p.name := by
    rw [promotion?, hleads.key_eq]
    exact Document.lookup_promotions hpromoted
  simp only [responseModel, hschema, hpromotion]

/-- A response that leads to it over other components has the model of the schema itself. -/
theorem responseModel_of_indirect (hkeys : (d.sharedResponses.map (·.1)).Nodup)
    (hleads : Leads d.sharedResponses (.ref target) keys response)
    (hlast : keys.getLast? = some p.component) (hne : keys ≠ [p.component])
    (hschema : preferred? response.content = some (p.mediaType, p.schema)) :
    x.responseModel (d.promotions true) (status, .ref target, response) =
      Model.inline x.scope "" [x.root, "Response" ++ status.label] p.schema := by
  obtain ⟨next, hnext⟩ := hleads.exists_next hlast hne
  have hpromotion : promotion? (d.promotions true) (.ref target) p.mediaType = none :=
    Document.lookup_promotions_eq_none hkeys hnext p.mediaType
  simp only [responseModel, hschema, hpromotion]

end Operation.Declaration

/-- An inline schema leaves a reference, and nothing is lifted out of it, exactly if it is one. -/
theorem Model.inline_reference_iff (target : String → String) (scope name base : String)
    (place : List String) (s : Schema) :
    ((inline scope name place s).1.kind = .reference ∧
      target (inline scope name place s).1.base = base ∧ (inline scope name place s).2 = []) ↔
      s.outline.shape = .reference ∧ target s.outline.base = base := by
  have hinline : inline scope name place s =
      ((embed scope name place s).1.refreshImports, (embed scope name place s).2) := rfl
  rw [hinline, kind_refreshImports, base_refreshImports]
  by_cases hobject : s.outline.shape = .object
  · -- An object leaves a reference, too, but its definition is lifted out.
    simp [embed_of_object _ _ _ hobject, hobject]
  · have hlifted : s.outline.shape = .reference → (embed scope name place s).2 = [] := by
      intro hshape
      rw [embed_snd, ownLifted, if_neg hobject, Schema.parts, hshape]
      rfl
    have hbuilt : (embed scope name place s).1.kind = kindOf s.outline.shape ∧
        (embed scope name place s).1.base = s.outline.base := by
      rw [embed_of_not_object _ _ _ hobject]
      exact ⟨rfl, rfl⟩
    rw [hbuilt.1, hbuilt.2, kindOf_eq_reference_iff]
    exact ⟨fun h => ⟨h.1, h.2.1⟩, fun h => ⟨h.1, h.2, hlifted h.1⟩⟩

namespace Client

variable {d : Document} {service : String} {number index : Nat} {keys : List String}
  {p : Model.Promotable}

/-- The response refers to the promoted definition, and nothing is lifted out of it. -/
structure RefersToPromoted (c : Client) (d : Document) (service : String) (number index : Nat)
    (p : Model.Promotable) : Prop where
  reference : ∃ m, c.anchored? (.response service number index) = some m ∧ m.kind = .reference ∧
    m.base = p.name
  nothingLifted : d.liftedOutOf? true service number index = some []

/-- What a finished client has for a response, and what is lifted out of it, is what the response is
built from, with its references redirected. -/
theorem refersToPromoted_finished_iff_responseModel {x : Operation.Declaration}
    {response : Status × RefOr Document.Response × Document.Response}
    (hx : d.declaration? service number = some x)
    (hresponse : (x.responses d)[index]? = some response) :
    (drafted d true).finished.RefersToPromoted d service number index p ↔
      (x.responseModel (d.promotions true) response).1.kind = .reference ∧
        (drafted d true).target (x.responseModel (d.promotions true) response).1.base = p.name ∧
        (x.responseModel (d.promotions true) response).2 = [] := by
  have hanchored : (drafted d true).finished.anchored? (.response service number index) =
      some (finishModel (drafted d true).target
        (x.responseModel (d.promotions true) response).1) := by
    rw [anchored?_response hx, hresponse, Option.map_some]
  have hlifted : d.liftedOutOf? true service number index =
      some (x.responseModel (d.promotions true) response).2 := by
    have houtcomes := congrArg (·[index]?) (x.outcomes_eq d (d.promotions true))
    simp only [List.getElem?_map, hresponse, Option.map_some] at houtcomes
    obtain ⟨⟨o, lifted⟩, hbuilt, heq⟩ := Option.map_eq_some_iff.1 houtcomes
    simp only [Document.liftedOutOf?, hx, hbuilt, ← heq, bind, pure, Option.bind_some]
  constructor
  · rintro ⟨⟨m, hm, hkind, hbase⟩, hnothing⟩
    obtain rfl := Option.some.inj (hm.symm.trans hanchored)
    rw [hlifted, Option.some.injEq] at hnothing
    simp only [finishModel, Model.kind_refreshImports, Model.kind_redirect,
      Model.base_refreshImports, Model.base_redirect] at hkind hbase
    rw [if_pos hkind] at hbase
    exact ⟨hkind, hbase, hnothing⟩
  · rintro ⟨hkind, hbase, hnothing⟩
    refine ⟨⟨_, hanchored, ?_, ?_⟩, by rw [hlifted, hnothing]⟩
    · simpa [finishModel] using hkind
    · simpa [finishModel, hkind] using hbase

/-- The name of a type is not redirected. -/
theorem target_eq_of_isTypeName (c : Client) {name : String} (h : Naming.IsTypeName name) :
    c.target name = name :=
  finalName_renames_of_not_isProvisionalName (Model.not_isProvisionalName_of_isTypeName h)

/-- A response refers to the promoted definition exactly if it names the component itself, or if the
schema that is promoted is itself a reference of that name. -/
theorem refersToPromoted_finished_iff (hkeys : (d.sharedResponses.map (·.1)).Nodup)
    (h : d.RefersTo service number index keys p) :
    (drafted d true).finished.RefersToPromoted d service number index p ↔
      keys = [p.component] ∨
        p.schema.outline.shape = .reference ∧ p.schema.outline.base = p.name := by
  obtain ⟨hx, hresponse, hleads, hlast, hschema⟩ := h
  rw [refersToPromoted_finished_iff_responseModel hx hresponse]
  by_cases hdirect : keys = [p.component]
  · subst hdirect
    rw [Operation.Declaration.responseModel_of_direct hleads hschema]
    simp [Model.reference, target_eq_of_isTypeName _ (Naming.isTypeName_typeName _),
      Model.Promotable.name]
  · rw [Operation.Declaration.responseModel_of_indirect hkeys hleads hlast hdirect hschema,
      Model.inline_reference_iff, or_iff_right hdirect]
    refine and_congr_right fun hshape => ?_
    obtain ⟨ref, _, hbase⟩ := Schema.exists_mentions_of_reference hshape
    rw [hbase, Pointer.typeName, target_eq_of_isTypeName _ (Naming.isTypeName_typeName _)]

/-- The promoted definition is there under its name, whoever refers to it. -/
theorem exists_promoted_finished (hnodup : (d.declaredNames true).Nodup)
    (hp : p ∈ d.promoted true) :
    ∃ m, (drafted d true).finished.model? p.name = some m ∧ m.origin = p.origin := by
  have hnamed : ⟨"responses", p.name, p.schema, p.origin⟩ ∈ d.named true :=
    List.mem_append_right _ (List.mem_map_of_mem (f := fun p : Model.Promotable =>
      (⟨"responses", p.name, p.schema, p.origin⟩ : Document.Named)) hp)
  have hmodel := model?_finished_of_named hnodup hnamed
  refine ⟨_, hmodel, ?_⟩
  rw [origin_finishModel]
  exact origin_modelDefinition _ _ _ _

/-- The definition of a promoted response is one of the client. A response of an operation that
leads to it is a reference to it, with nothing lifted out, exactly if it names the component itself,
or if the schema that is promoted is itself a reference to something of that name. -/
theorem refersToPromoted_iff {c : Client} (hclient : (draft d true >>= finish) = .ok c)
    (hkeys : (d.sharedResponses.map (·.1)).Nodup) (h : d.RefersTo service number index keys p) :
    (∃ m, c.model? p.name = some m ∧ m.origin = p.origin) ∧
      (c.RefersToPromoted d service number index p ↔
        keys = [p.component] ∨
          p.schema.outline.shape = .reference ∧ p.schema.outline.base = p.name) := by
  obtain ⟨hnodup, rfl⟩ := draft_bind_finish_eq_ok_iff.1 hclient
  refine ⟨?_, refersToPromoted_finished_iff hkeys h⟩
  obtain ⟨_, _, hleads, hlast, hschema⟩ := h
  exact exists_promoted_finished hnodup (Document.mem_promoted_of_leads hleads hlast hschema)

/-- The schema of a shared response. -/
def missingSchema : Schema :=
  { type := some (.single "object")
    properties := [("message", { type := some (.single "string") })] }

/-- The promoted definition of this response. -/
def missingPromotable : Model.Promotable := ⟨"NotFound", "application/json", missingSchema⟩

/-- A response that is shared under its own key and, through a reference, under the key `Alias`. -/
def missingResponse : Document.Response where
  description := "missing"
  content := [("application/json", { schema := some missingSchema })]

/-- An operation that refers to a shared response. -/
def listDeclaration (target : String) : Operation.Declaration where
  path := "/pets"
  method := .get
  op := {
    operationId := some "listPets"
    responses := [("204", .inline { description := "done" }), ("404", .ref target)] }
  shared := []

/-- The document with this operation and the shared response. -/
def listDocument (target : String) : Document where
  openapi := "3.0.0"
  paths := [("/pets", { operations := [(.get, (listDeclaration target).op)] })]
  components := some {
    responses := [("Alias", .ref "#/components/responses/NotFound"),
      ("NotFound", .inline missingResponse)] }

theorem refersToPromoted_iff_listDocument :
    ∃ c, (draft (listDocument "#/components/responses/NotFound") true >>= finish) = .ok c ∧
      (∃ m, c.model? "NotFoundApplicationJsonResponse" = some m ∧
        m.origin = .response "NotFound" "application/json") ∧
      c.RefersToPromoted (listDocument "#/components/responses/NotFound") "Default" 0 1
        missingPromotable := by
  have hclient : (draft (listDocument "#/components/responses/NotFound") true >>= finish) =
      .ok (drafted (listDocument "#/components/responses/NotFound") true).finished :=
    draft_bind_finish_eq_ok_iff.2 ⟨by decide +kernel, rfl⟩
  have hrefers : (listDocument "#/components/responses/NotFound").RefersTo "Default" 0 1
      ["NotFound"] missingPromotable :=
    .response (x := listDeclaration "#/components/responses/NotFound") rfl rfl
      (.through rfl (.here missingResponse)) rfl rfl
  obtain ⟨⟨m, hm, horigin⟩, hiff⟩ := refersToPromoted_iff hclient (by decide +kernel) hrefers
  exact ⟨_, hclient, ⟨m, hm, horigin⟩, hiff.2 (.inl rfl)⟩

/-- The response that leads to the same component over another one does not refer to its
definition. -/
theorem not_refersToPromoted_alias :
    ∃ c, (draft (listDocument "#/components/responses/Alias") true >>= finish) = .ok c ∧
      (listDocument "#/components/responses/Alias").RefersTo "Default" 0 1 ["Alias", "NotFound"]
        missingPromotable ∧
      ¬ c.RefersToPromoted (listDocument "#/components/responses/Alias") "Default" 0 1
        missingPromotable := by
  have hclient : (draft (listDocument "#/components/responses/Alias") true >>= finish) =
      .ok (drafted (listDocument "#/components/responses/Alias") true).finished :=
    draft_bind_finish_eq_ok_iff.2 ⟨by decide +kernel, rfl⟩
  have hrefers : (listDocument "#/components/responses/Alias").RefersTo "Default" 0 1
      ["Alias", "NotFound"] missingPromotable :=
    .response (x := listDeclaration "#/components/responses/Alias") rfl rfl
      (.through rfl (.through rfl (.here missingResponse))) rfl rfl
  refine ⟨_, hclient, hrefers, ?_⟩
  rw [refersToPromoted_finished_iff (by decide +kernel) hrefers]
  decide +kernel

end Client

end TypedClient
