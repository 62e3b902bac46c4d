import TypedClient.Proofs.Client.Coherence
import TypedClient.Proofs.Client.Views
import TypedClient.Proofs.Operation.PathFirst
import TypedClient.Proofs.Operation.Placeholders

/-!
# Arguments in the operations of a client

Finishing changes models and the names of operations, and no argument. So what placeholders stand
for in a declared operation they stand for in the finished client: `placeholders_bound`.

Every operation, declared or in a finished client, gives its arguments different identifiers in
turn, those in the path first. What is sent in the query, in a header, in a cookie or in the body
has no influence on the identifiers in the path: `arguments_named_path_first`.
-/

namespace TypedClient.Client

open Operation (Declaration declarations)

/-! ## Placeholders -/

theorem bound_finishOperation {op : Operation} {x : Declaration} {d : Document}
    {expression : String → String} (h : op.Bound x d expression) (target : String → String) :
    (finishOperation target op).Bound x d expression :=
  (h.mapModels (Model.redirect target)).refreshImports

theorem bound_numberOperation {op : Operation} {x : Declaration} {d : Document}
    {expression : String → String} (h : op.Bound x d expression) (number : Nat) :
    (numberOperation number op).Bound x d expression := by
  obtain ⟨hpath, hmethod, hpattern, hversion, hidentifier, hapart⟩ := h
  exact ⟨hpath, hmethod, hpattern, hversion, hidentifier, hapart⟩

/-- In an operation the placeholder of a parameter in the path is written as the identifier of the
first such parameter, which a single argument has, different placeholders are written differently,
and the version stands for that of the API. So it is for every declaration, and for every operation
of the client of a document. -/
theorem placeholders_bound (d : Document) :
    (∀ (x : Declaration) (promotions : Model.Promotions),
      ∃ expression, (x.build d promotions).1.Bound x d expression) ∧
    ∀ promote c, (draft d promote >>= finish) = .ok c → ∀ s ∈ c.services, ∀ op ∈ s.operations,
      ∃ x ∈ declarations d, ∃ expression, op.Bound x d expression := by
  refine ⟨fun x promotions => x.bound_build d promotions, ?_⟩
  intro promote c hclient s hs op hop
  obtain ⟨_, rfl⟩ := draft_bind_finish_eq_ok_iff.1 hclient
  obtain ⟨x, hx, declared, rfl, hname⟩ := exists_declaration_of_mem_finished hs hop
  obtain ⟨expression, hbound⟩ := x.bound_build d (d.promotions promote)
  have hfinished := bound_finishOperation hbound (drafted d promote).target
  refine ⟨x, hx, expression, ?_⟩
  rcases hname with rfl | ⟨number, rfl⟩
  · exact hfinished
  · exact bound_numberOperation hfinished number

/-- An operation whose placeholders and other parameters, in the query and in the body, ask for the
same identifiers. -/
def routeDeclaration : Declaration where
  path := "/{api-version}/pets/{pet-id}/{pet_id}/{request-body}"
  method := .put
  op := {
    parameters :=
      [.inline { name := "petId", location := .query },
       .inline { name := "pet_id", location := .path },
       .inline { name := "pet-id", location := .path },
       .inline { name := "request-body", location := .path }]
    requestBody := some (.inline { content := [("text/plain", { schema := some {} })] }) }
  shared := []

/-- The document that declares this operation. -/
def routeDocument : Document where
  openapi := "3.0.0"
  paths := [(routeDeclaration.path, { operations := [(.put, routeDeclaration.op)] })]

theorem placeholders_bound_routeDocument :
    (∃ expression, (routeDeclaration.build routeDocument []).1.Bound routeDeclaration routeDocument
      expression ∧ expression "pet-id" = "petId2") ∧
    ∃ c, (draft routeDocument true >>= finish) = .ok c ∧ ∀ s ∈ c.services, ∀ op ∈ s.operations,
      ∃ x ∈ declarations routeDocument, ∃ expression, op.Bound x routeDocument expression := by
  obtain ⟨hbuilt, hfinished⟩ := placeholders_bound routeDocument
  refine ⟨?_, ?_⟩
  · obtain ⟨expression, hbound⟩ := hbuilt routeDeclaration []
    have hfirst : routeDeclaration.firstInPath? routeDocument "pet-id" = some 2 := by decide +kernel
    have hidentifier := (hbound.identifier "pet-id" 2 (by decide) hfirst).1
    have hsecond : (Operation.identifiers (routeDeclaration.parameters routeDocument))[2]? =
        some "petId2" := by decide +kernel
    rw [hsecond] at hidentifier
    exact ⟨expression, hbound, (Option.some.inj hidentifier).symm⟩
  · have hclient : (draft routeDocument true >>= finish) =
        .ok (drafted routeDocument true).finished :=
      draft_bind_finish_eq_ok_iff.2 ⟨by decide, rfl⟩
    exact ⟨_, hclient, hfinished true _ hclient⟩

/-! ## Identifiers -/

variable {x : Declaration} {d : Document} {op : Operation} {declared : List Operation.Argument}

theorem pathFirst_finishOperation (h : op.PathFirst x d declared) (target : String → String) :
    (finishOperation target op).PathFirst x d
      ((declared.map (·.mapModel (Model.redirect target))).map
        (·.mapModel Model.refreshImports)) :=
  (h.mapModels (Model.isRequired_redirect target)).refreshImports

theorem pathFirst_numberOperation (h : op.PathFirst x d declared) (number : Nat) :
    (numberOperation number op).PathFirst x d declared :=
  .of_turns (views_numberOperation h.views number) h.body h.turns

/-- So it is for the operations of a finished client. -/
theorem exists_pathFirst_finished {promote : Bool} {s : Service}
    (hs : s ∈ (drafted d promote).finished.services) (hop : op ∈ s.operations) :
    ∃ x ∈ declarations d, ∃ declared, op.PathFirst x d declared := by
  obtain ⟨x, hx, declared, rfl, hname⟩ := exists_declaration_of_mem_finished hs hop
  have hfinished := pathFirst_finishOperation (x.pathFirst_build d (d.promotions promote))
    (drafted d promote).target
  rcases hname with rfl | ⟨number, rfl⟩
  · exact ⟨x, hx, _, hfinished⟩
  · exact ⟨x, hx, _, pathFirst_numberOperation hfinished number⟩

/-- The arguments of an operation have different identifiers, each made from the wire name and
perhaps a number from 2 on, and they get them in turn, those in the path first. So it is for every
declaration, and for every operation of the client of a document. If the first arguments in the path
of two such operations have the same wire names, they have the same identifiers, whatever else the
operations declare. -/
theorem arguments_named_path_first (d : Document) :
    (∀ (x : Declaration) (promotions : Model.Promotions),
      ∃ declared, (x.build d promotions).1.PathFirst x d declared) ∧
    (∀ promote c, (draft d promote >>= finish) = .ok c → ∀ s ∈ c.services, ∀ op ∈ s.operations,
      ∃ x ∈ declarations d, ∃ declared, op.PathFirst x d declared) ∧
    ∀ (op other : Operation) (x y : Declaration) (e : Document)
      (declared declared' : List Operation.Argument), op.PathFirst x d declared →
      other.PathFirst y e declared' → ∀ n,
      (op.pathArguments.map (·.wireName)).take n =
        (other.pathArguments.map (·.wireName)).take n →
      (op.pathArguments.map (·.identifier)).take n =
        (other.pathArguments.map (·.identifier)).take n := by
  refine ⟨fun x promotions => ⟨_, x.pathFirst_build d promotions⟩, ?_, ?_⟩
  · intro promote c hclient s hs op hop
    obtain ⟨_, rfl⟩ := draft_bind_finish_eq_ok_iff.1 hclient
    exact exists_pathFirst_finished hs hop
  · intro op other x y e declared declared' h h' n hnames
    exact h.take_identifiers h' hnames

/-- The operation under the same path that declares nothing but the first two of its parameters in
the path. -/
def bareDeclaration : Declaration :=
  { routeDeclaration with
    op := { parameters := [.inline { name := "pet_id", location := .path },
      .inline { name := "pet-id", location := .path }] } }

theorem arguments_named_path_first_routeDocument :
    (∃ declared, (routeDeclaration.build routeDocument []).1.PathFirst routeDeclaration
      routeDocument declared) ∧
    (∃ c, (draft routeDocument true >>= finish) = .ok c ∧ ∀ s ∈ c.services, ∀ op ∈ s.operations,
      ∃ x ∈ declarations routeDocument, ∃ declared, op.PathFirst x routeDocument declared) ∧
    ((routeDeclaration.build routeDocument []).1.pathArguments.map (·.identifier)).take 2 =
      ["petId", "petId2"] := by
  obtain ⟨hbuilt, hfinished, hsame⟩ := arguments_named_path_first routeDocument
  refine ⟨hbuilt routeDeclaration [], ?_, ?_⟩
  · have hclient : (draft routeDocument true >>= finish) =
        .ok (drafted routeDocument true).finished :=
      draft_bind_finish_eq_ok_iff.2 ⟨by decide, rfl⟩
    exact ⟨_, hclient, hfinished true _ hclient⟩
  · obtain ⟨_, hroute⟩ := hbuilt routeDeclaration []
    have hbare := bareDeclaration.pathFirst_build { openapi := "3.0.0" } []
    rw [hsame _ _ _ _ _ _ _ hroute hbare 2 (by decide +kernel)]
    decide +kernel

end TypedClient.Client
