import TypedClient.Proofs.Client.Position
import TypedClient.Proofs.Client.Services

/-!
# Reading a client along a position

`c.modelAt? p` is the model that a client has at a position: it starts at the anchor,
follows references to definitions and goes from a model to one of its parts.
`exists_anchored?_finished` says that a finished client has the finished model of the inline
schema at every anchor.
-/

namespace TypedClient

namespace Model

/-- Imports that are set before make no difference to a finished model. -/
theorem refreshImports_redirect_refreshImports (target : String → String) (m : Model) :
    (m.refreshImports.redirect target).refreshImports = (m.redirect target).refreshImports := by
  induction m using induction with
  | step m ih =>
      -- Imports are made of the references, and these are the same.
      have himports : importsOf (m.refreshImports.redirect target) =
          importsOf (m.redirect target) := by
        simp only [importsOf, references_redirect, references_refreshImports, name_redirect,
          name_refreshImports]
        rw [redirect_eq, redirect_eq, refreshImports_eq]
      have hlink : ∀ part ∈ m.link,
          (part.refreshImports.redirect target).refreshImports =
            (part.redirect target).refreshImports :=
        fun part hpart => ih part (List.mem_append_left _ (Option.mem_toList.2 hpart))
      have hproperties : ∀ part ∈ m.properties,
          (part.refreshImports.redirect target).refreshImports =
            (part.redirect target).refreshImports :=
        fun part hpart => ih part (List.mem_append_right _ hpart)
      rw [refreshImports_eq (redirect _ _), refreshImports_eq (redirect _ m), himports,
        redirect_eq, redirect_eq, refreshImports_eq]
      simp only [Option.map_map, List.map_map]
      congr 1
      · exact Option.map_congr hlink
      · exact List.map_congr_left hproperties

end Model

namespace Client

/-- The operation with the given number in a service. -/
def operation? (c : Client) (service : String) (number : Nat) : Option Operation :=
  (c.service? service).bind (·.operations[number]?)

/-- The model at an anchor. -/
def anchored? (c : Client) : Anchor → Option Model
  | .definition name index => do (← c.model? name).parts[index]?
  | .argument service number identifier => do
    let op ← c.operation? service number
    let a ← op.arguments.find? (·.identifier == identifier)
    return a.model
  | .body service number => do
    let op ← c.operation? service number
    let a ← op.bodyArgument
    return a.model
  | .response service number index => do
    let op ← c.operation? service number
    let o ← op.outcomes[index]?
    return o.model

/-- The definition that a reference names; any other model stands for itself. -/
def resolve? (c : Client) (m : Model) : Option Model :=
  if m.kind = .reference then c.model? m.base else some m

/-- The model at the end of a route, following the references on the way. -/
def read? (c : Client) (m : Model) : List Nat → Option Model
  | [] => some m
  | index :: route => do
    let n ← c.resolve? m
    let part ← n.parts[index]?
    c.read? part route

/-- The model at a position. -/
def modelAt? (c : Client) (p : Position) : Option Model :=
  (c.anchored? p.anchor).bind (c.read? · p.route)

/-! ## Operations -/

variable {d : Document} {promote : Bool}

/-- A declared operation stands in the service that it belongs to. -/
theorem exists_service_of_declaration? (promote : Bool) {service : String} {number : Nat}
    {x : Operation.Declaration} (h : d.declaration? service number = some x) :
    ∃ s ∈ (drafted d promote).services, s.name = service ∧
      s.operations[number]? = some (x.build d (d.promotions promote)).1 := by
  have hmem := List.mem_of_getElem? h
  have hservice : x.service = service := by simpa using (List.mem_filter.1 hmem).2
  have hgrouped := grouped_group ((operations d (d.promotions promote)).map (·.1))
  rw [Operation.operations_eq, List.map_map] at hgrouped
  have hname := hgrouped.complete _ (List.mem_map_of_mem (List.mem_of_mem_filter hmem))
  obtain ⟨s, hs, hsname⟩ := List.mem_map.1 hname
  have hsname : s.name = service := hsname.trans hservice
  have hfilter : s.operations = ((Operation.declarations d).filter (·.service == service)).map
      fun x => (x.build d (d.promotions promote)).1 := by
    rw [hgrouped.operations_eq s hs, List.filter_map, hsname]
    rfl
  refine ⟨s, ?_, hsname, ?_⟩
  · rw [drafted, Operation.operations_eq, List.map_map]
    exact hs
  · rw [hfilter, List.getElem?_map]
    exact congrArg (Option.map _) h

/-- The operation has the arguments and outcomes of a declared one, with their models finished. -/
structure Finishes (target : String → String) (x : Operation.Declaration) (d : Document)
    (promotions : Model.Promotions) (op : Operation) : Prop where
  arguments : op.arguments =
    (Operation.requiredFirst (x.arguments d)).map (·.mapModel (finishModel target))
  bodyArgument : op.bodyArgument =
    ((x.body? d).map (·.1)).map (·.mapModel (finishModel target))
  outcomes : op.outcomes =
    ((x.outcomes d promotions).map (·.1)).map (·.mapModel (finishModel target))

theorem finishes_finishOperation (target : String → String) (x : Operation.Declaration)
    (d : Document) (promotions : Model.Promotions) :
    Finishes target x d promotions (finishOperation target (x.build d promotions).1) := by
  have hargument : Operation.Argument.mapModel Model.refreshImports ∘
      (Operation.Argument.mapModel (Model.redirect target) ∘
        Operation.Argument.mapModel Model.refreshImports) =
      Operation.Argument.mapModel (finishModel target) := by
    funext a
    simp only [Function.comp, Operation.Argument.mapModel,
      Model.refreshImports_redirect_refreshImports]
    rfl
  have houtcome : Operation.Outcome.mapModel Model.refreshImports ∘
      (Operation.Outcome.mapModel (Model.redirect target) ∘
        Operation.Outcome.mapModel Model.refreshImports) =
      Operation.Outcome.mapModel (finishModel target) := by
    funext o
    simp only [Function.comp, Operation.Outcome.mapModel,
      Model.refreshImports_redirect_refreshImports]
    rfl
  constructor
  · rw [← hargument, ← List.map_map, ← List.map_map]
    rfl
  · rw [← hargument, ← Option.map_map, ← Option.map_map]
    rfl
  · rw [← houtcome, ← List.map_map, ← List.map_map]
    rfl

/-- A finished client has the operation with all its models finished. -/
theorem exists_operation?_finished (promote : Bool) {service : String} {number : Nat}
    {x : Operation.Declaration} (h : d.declaration? service number = some x) :
    ∃ op, (drafted d promote).finished.operation? service number = some op ∧
      Finishes (drafted d promote).target x d (d.promotions promote) op := by
  obtain ⟨s, hs, rfl, hnumber⟩ := exists_service_of_declaration? promote h
  have hfinished : finishService (drafted d promote).target s ∈
      (drafted d promote).finished.services :=
    (services_finished_perm _).mem_iff.2 (List.mem_map_of_mem hs)
  have hnodup : ((drafted d promote).finished.services.map (·.name)).Nodup := by
    rw [((services_finished_perm (drafted d promote)).map (·.name)).nodup_iff, List.map_map]
    exact (grouped_group _).nodup_names
  have hservice : (drafted d promote).finished.service? s.name =
      some (finishService (drafted d promote).target s) :=
    Naming.find?_name_eq hnodup hfinished
  have hmap : (s.operations.map (finishOperation (drafted d promote).target))[number]? =
      some (finishOperation (drafted d promote).target (x.build d (d.promotions promote)).1) := by
    rw [List.getElem?_map, hnumber]
    rfl
  obtain ⟨op, hop, hname⟩ := getElem?_distinguish [] hmap
  have hfinishes := finishes_finishOperation (drafted d promote).target x d (d.promotions promote)
  refine ⟨op, ?_, ?_⟩
  · rw [operation?, hservice]
    exact hop
  · -- A number behind the name changes no model.
    rcases hname with rfl | ⟨suffix, _, rfl⟩
    · exact hfinishes
    · exact ⟨hfinishes.arguments, hfinishes.bodyArgument, hfinishes.outcomes⟩

/-! ## Anchors -/

/-- Models of the same type are finished to models of the same type. -/
theorem finish_alike {m n : Model} (target : String → String) (h : Model.Alike m n) :
    Model.Alike (finishModel target m) (finishModel target n) :=
  (h.redirect target).refreshImports

/-- Imports that are set before make no difference to finished models. -/
theorem finishModel_comp_refreshImports (target : String → String) :
    finishModel target ∘ Model.refreshImports = finishModel target := by
  funext m
  exact Model.refreshImports_redirect_refreshImports target m

/-- A finished model of the type of an inline schema is of the type of the finished model that is
left at the spot. -/
theorem alike_finishModel {target : String → String} {m : Model} {scope name : String}
    {place : List String} {s : Schema} (h : Model.Alike m (Model.inline scope name place s).1) :
    Model.Alike (finishModel target m) (finishModel target (Spot.mk scope place s).built.1) := by
  have hfinished := finish_alike target (h.trans (Spot.alike_inline scope name place s))
  rwa [finishModel, finishModel, Model.refreshImports_redirect_refreshImports] at hfinished

/-- The argument for a parameter is found by its identifier. -/
theorem find?_arguments_eq {x : Operation.Declaration} {promotions : Model.Promotions}
    {op : Operation} {target : String → String} (hop : Finishes target x d promotions op)
    {a : Operation.Argument} (ha : a ∈ x.arguments d) :
    op.arguments.find? (·.identifier == a.identifier) =
      some (a.mapModel (finishModel target)) := by
  have hperm := Operation.requiredFirst_perm (x.arguments d)
  have hnodup : ((Operation.requiredFirst (x.arguments d)).map (·.identifier)).Nodup := by
    rw [(hperm.map _).nodup_iff]
    exact x.nodup_identifiers_arguments d
  have hfind := Naming.find?_name_eq hnodup (hperm.mem_iff.2 ha)
  rw [hop.arguments, List.find?_map]
  exact congrArg (Option.map _) hfind

@[simp]
theorem parts_finishModel (target : String → String) (m : Model) :
    (finishModel target m).parts = m.parts.map (finishModel target) := by
  rw [finishModel, Model.parts_refreshImports, Model.parts_redirect, List.map_map]
  rfl

/-- The parts of a definition are built from those of its schema. -/
theorem parts_finishModel_define (target : String → String) (n : Document.Named) :
    (finishModel target n.define.1).parts =
      n.parts.map fun part => finishModel target (Model.ofPart n.scope [n.name] part) := by
  rw [parts_finishModel, Document.Named.define, Model.parts_definition, List.map_map,
    finishModel_comp_refreshImports, List.map_map]
  rfl

/-- The parts of the definition of an object are built from those of the object. -/
theorem map_parts_definition (target : String → String) {spot : Spot}
    (h : spot.schema.outline.shape = .object) :
    spot.definition.parts.map (finishModel target) =
      spot.schema.parts.map fun part =>
        finishModel target (Model.ofPart spot.scope spot.place part) := by
  rw [Spot.definition, Model.parts_liftedDefinition _ _ h, List.map_map,
    finishModel_comp_refreshImports, List.map_map]
  rfl

/-- The definition of a component is found under its name. -/
theorem model?_finished_of_named (hnodup : (d.declaredNames promote).Nodup) {n : Document.Named}
    (hn : n ∈ d.named promote) :
    (drafted d promote).finished.model? n.name =
      some (finishModel (drafted d promote).target n.define.1) := by
  have hfixed : n.define.1 ∈ fixedModels (drafted d promote).models := by
    rw [fixedModels_drafted]
    exact List.mem_map_of_mem (List.mem_map_of_mem hn)
  have hnamed : n.define.1 ∈ namedModels (drafted d promote).models :=
    (namedModels_perm _).mem_iff.2 (List.mem_append_left _ hfixed)
  have hmem : finishModel (drafted d promote).target n.define.1 ∈
      (drafted d promote).finished.models :=
    (models_finished_perm _).mem_iff.2 (List.mem_map_of_mem hnamed)
  have hname : (finishModel (drafted d promote).target n.define.1).name = n.name := by
    rw [name_finishModel]
    exact Model.name_definition _ _ _ _
  rw [← hname]
  exact model?_finished (by rwa [fixedNames_drafted]) hmem

theorem anchored?_definition (hnodup : (d.declaredNames promote).Nodup) {n : Document.Named}
    (hn : n ∈ d.named promote) (index : Nat) :
    (drafted d promote).finished.anchored? (.definition n.name index) =
      n.parts[index]?.map fun part =>
        finishModel (drafted d promote).target (Model.ofPart n.scope [n.name] part) := by
  simp only [anchored?, model?_finished_of_named hnodup hn, bind, Option.bind_some,
    parts_finishModel_define, List.getElem?_map]

theorem anchored?_argument {x : Operation.Declaration} {service : String} {number : Nat}
    (hx : d.declaration? service number = some x) {a : Operation.Argument}
    (ha : a ∈ x.arguments d) :
    (drafted d promote).finished.anchored? (.argument service number a.identifier) =
      some (finishModel (drafted d promote).target a.model) := by
  obtain ⟨op, hop, hfinishes⟩ := exists_operation?_finished promote hx
  simp only [anchored?, hop, find?_arguments_eq hfinishes ha, bind, Option.bind_some]
  rfl

theorem anchored?_body {x : Operation.Declaration} {service : String} {number : Nat}
    (hx : d.declaration? service number = some x) :
    (drafted d promote).finished.anchored? (.body service number) =
      (x.body? d).map fun built => finishModel (drafted d promote).target built.1.model := by
  obtain ⟨op, hop, hfinishes⟩ := exists_operation?_finished promote hx
  simp only [anchored?, hop, bind, Option.bind_some, hfinishes.bodyArgument]
  cases x.body? d <;> rfl

theorem anchored?_response {x : Operation.Declaration} {service : String} {number : Nat}
    (hx : d.declaration? service number = some x) (index : Nat) :
    (drafted d promote).finished.anchored? (.response service number index) =
      (x.responses d)[index]?.map fun response =>
        finishModel (drafted d promote).target
          (x.responseModel (d.promotions promote) response).1 := by
  obtain ⟨op, hop, hfinishes⟩ := exists_operation?_finished promote hx
  have houtcomes := congrArg (·[index]?) (x.outcomes_eq d (d.promotions promote))
  simp only [List.getElem?_map] at houtcomes
  have hmodel : (fun response => finishModel (drafted d promote).target
      (x.responseModel (d.promotions promote) response).1) =
      (fun built : Model × List Model => finishModel (drafted d promote).target built.1) ∘
        x.responseModel (d.promotions promote) := rfl
  simp only [anchored?, hop, bind, Option.bind_some, hfinishes.outcomes, List.getElem?_map]
  rw [hmodel, ← Option.map_map, ← houtcomes]
  cases (x.outcomes d (d.promotions promote))[index]? <;> rfl

/-- A finished client has, at every anchor, a model of the type of the finished model that is left
at the spot. -/
theorem exists_anchored?_finished (hnodup : (d.declaredNames promote).Nodup) {a : Anchor}
    {spot : Spot} (h : d.Attached promote a spot) :
    ∃ m, (drafted d promote).finished.anchored? a = some m ∧
      Model.Alike m (finishModel (drafted d promote).target spot.built.1) := by
  cases h with
  | definition n index segment name isRequired s hn hpart =>
      rw [anchored?_definition hnodup hn, hpart]
      exact ⟨_, rfl, finish_alike _ (Spot.alike_ofPart _ segment name [n.name] isRequired s)⟩
  | argument service number x p identifier s hx hp hs =>
      have hmem : (Operation.argumentOf x.scope x.root p identifier).1 ∈ x.arguments d :=
        List.mem_append_left _ (List.mem_map_of_mem (List.mem_map.2 ⟨(p, identifier), hp, rfl⟩))
      exact ⟨_, anchored?_argument hx hmem,
        alike_finishModel (Operation.argumentOf_of_schemaOf? hs).1⟩
  | body service number x source hx hsource =>
      obtain ⟨body, mediaType, s⟩ := source
      rw [anchored?_body hx, Operation.Declaration.body?_eq, hsource]
      exact ⟨_, rfl, alike_finishModel (Operation.alike_bodyArgument body mediaType s)⟩
  | response service number index x status item response s hx hresponse hs =>
      rw [anchored?_response hx, hresponse, Option.map_some,
        Operation.responseModel_of_inlineSchema? hs]
      exact ⟨_, rfl, alike_finishModel ⟨rfl, rfl, rfl⟩⟩

end Client

end TypedClient
