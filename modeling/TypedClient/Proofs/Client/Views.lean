import TypedClient.Proofs.Client.Coherence
import TypedClient.Proofs.Operation.Views
import TypedClient.Proofs.Page.Signature

/-!
# The views of the operations of a client

In the client of a document every operation is that of a declaration, and all its lists are views of
one list of arguments and one of outcomes. So its signature, its calls and the dependencies of its
hook list the same names, and no positional signature has a required argument after an optional one
(`views_agree`).
-/

namespace TypedClient

open Naming (IsWord StartsSmall)

/-- The texts of an operation list its arguments alike. -/
structure Page.ListsArguments (options : Options) (op : Operation) : Prop where
  signature : Script.listedNames (Page.ofOperation options op).signature =
    op.arguments.map (·.identifier)
  arguments : Script.listedNames (Page.ofOperation options op).arguments =
    op.arguments.map (·.identifier)
  deps : Script.listedNames (Page.ofOperation options op).deps = op.arguments.map (·.identifier)
  positional : options.useOptions = false →
    Script.readItems (Page.ofOperation options op).signature.toList =
      op.arguments.map fun a => ⟨a.identifier, a.model.isRequired⟩

namespace Client

variable {d : Document} {promote : Bool} {c : Client} {s : Service} {op : Operation}

theorem views_finishOperation {x : Operation.Declaration} {o : Operation}
    {declared : List Operation.Argument} (h : o.Views x d declared) (target : String → String) :
    (finishOperation target o).Views x d
      ((declared.map (·.mapModel (Model.redirect target))).map
        (·.mapModel Model.refreshImports)) :=
  (h.mapModels (Model.isRequired_redirect target)).refreshImports

/-- A number behind the name is no part of the views. -/
theorem views_numberOperation {x : Operation.Declaration} {o : Operation}
    {declared : List Operation.Argument} (h : o.Views x d declared) (number : Nat) :
    (numberOperation number o).Views x d declared :=
  ⟨h.path, h.method, h.sources, h.arguments, h.pathArguments, h.queryArguments, h.headerArguments,
    h.cookieArguments, h.bodyArgument, h.outcomes, h.successes, h.failures, h.failureReasons⟩

/-- The lists of an operation of a finished client are views of one list of arguments. -/
theorem exists_views_finished (hs : s ∈ (drafted d promote).finished.services)
    (hop : op ∈ s.operations) :
    ∃ x ∈ Operation.declarations d, ∃ declared, op.Views x d declared := by
  obtain ⟨x, hx, o, rfl, hname⟩ := exists_declaration_of_mem_finished hs hop
  have hviews := views_finishOperation (x.views_build d (d.promotions promote))
    (drafted d promote).target
  rcases hname with rfl | ⟨number, rfl⟩
  · exact ⟨x, hx, _, hviews⟩
  · exact ⟨x, hx, _, views_numberOperation hviews number⟩

/-- The arguments of an operation of a finished client have names that can be written. -/
theorem named_of_mem_arguments (hs : s ∈ (drafted d promote).finished.services)
    (hop : op ∈ s.operations) {a : Operation.Argument} (ha : a ∈ op.arguments) : a.Named where
  identifier := (named_of_mem_finished hs hop).identifiers a
    (Operation.mem_allArguments.2 (.inl ha))
  start := by
    refine forall_mem_finished (P := fun op => ∀ a ∈ op.arguments, StartsSmall a.identifier)
      (fun x promotions a ha => ?_) (fun op target h a ha => ?_) (fun _ _ h => h) hs hop a ha
    · have harguments : (x.build d promotions).1.arguments =
          (Operation.requiredFirst (x.arguments d)).map (·.mapModel Model.refreshImports) := rfl
      rw [harguments] at ha
      obtain ⟨b, hb, rfl⟩ := List.mem_map.1 ha
      have hb := (Operation.requiredFirst_perm _).mem_iff.1 hb
      exact (x.isValueName_of_mem_arguments d hb).startsSmall
    · obtain ⟨b, hb, rfl⟩ := List.mem_map.1 ha
      obtain ⟨b', hb', rfl⟩ := List.mem_map.1 hb
      exact h b' hb'
  references name hname := by
    have hmodel := Operation.model_mem_of_mem_allArguments
      (Operation.mem_allArguments.2 (.inl ha))
    exact (isTypeName_of_mem_references (mem_allModels_of_mem_operations hs hop hmodel)
      hname).isWord

/-- The texts of an operation of a finished client list its arguments alike. -/
theorem listsArguments_finished (hs : s ∈ (drafted d promote).finished.services)
    (hop : op ∈ s.operations) (options : Options) : Page.ListsArguments options op := by
  have hnamed : ∀ a ∈ op.arguments, a.Named := fun _ => named_of_mem_arguments hs hop
  refine ⟨Page.listedNames_signature hnamed _, Page.listedNames_callArguments hnamed _,
    Page.listedNames_deps hnamed, fun hpositional => ?_⟩
  have hread := Page.readItems_signature hnamed
  rw [← hpositional] at hread
  exact hread

/-- In the client of a document all lists of an operation are views of one list of arguments and of
the responses that are declared. Its texts list the same names in the same order, and no positional
signature has a required argument after an optional one. -/
theorem views_agree (h : (draft d promote >>= finish) = .ok c) (hs : s ∈ c.services)
    (hop : op ∈ s.operations) :
    (∃ x ∈ Operation.declarations d, ∃ declared, op.Views x d declared) ∧
      op.failureReasons.map (·.status) = op.failures.map (·.status) ∧
      ∀ options, Page.ListsArguments options op ∧
        (options.useOptions = false →
          (Script.readItems (Page.ofOperation options op).signature.toList).Pairwise
            fun a b => b.isRequired = true → a.isRequired = true) := by
  obtain ⟨-, rfl⟩ := draft_bind_finish_eq_ok_iff.1 h
  obtain ⟨x, hx, declared, hviews⟩ := exists_views_finished hs hop
  refine ⟨⟨x, hx, declared, hviews⟩, ?_, fun options => ?_⟩
  · rw [hviews.failureReasons, List.map_map]
    rfl
  · have hlists := listsArguments_finished hs hop options
    refine ⟨hlists, fun hpositional => ?_⟩
    rw [hlists.positional hpositional, List.pairwise_map]
    exact hviews.pairwise_arguments

/-- An operation with an optional parameter between required ones, a body, and a response whose key
is no status. -/
def feedOperation : Document.Operation where
  operationId := some "feed"
  parameters := [.inline { name := "amount", location := .query },
    .inline { name := "id", location := .path }]
  requestBody := some (.inline { required := true, content :=
    [("application/json", { schema := some { type := some (.single "string") } })] })
  responses := [("200", .inline {}), ("soon", .inline {}), ("404", .inline {})]

/-- A document with the operation. -/
def feedDocument : Document where
  openapi := "3.0.0"
  paths := [("/pets/{id}", { operations := [(.post, feedOperation)] })]

theorem views_agree_feedDocument :
    ∃ s ∈ (drafted feedDocument false).finished.services, ∃ op ∈ s.operations,
      op.arguments.map (·.identifier) = ["id", "requestBody", "amount"] ∧
        op.outcomes.map (·.status) = [.code 200, .code 404] ∧
        (∃ x ∈ Operation.declarations feedDocument, ∃ declared,
          op.Views x feedDocument declared) ∧
        op.failureReasons.map (·.status) = op.failures.map (·.status) ∧
        ∀ options, Page.ListsArguments options op ∧
          (options.useOptions = false →
            (Script.readItems (Page.ofOperation options op).signature.toList).Pairwise
              fun a b => b.isRequired = true → a.isRequired = true) := by
  have hclient : (draft feedDocument false >>= finish) =
      .ok (drafted feedDocument false).finished :=
    draft_bind_finish_eq_ok_iff.2 ⟨by decide, rfl⟩
  obtain ⟨t, op, hservices, hoperations, hidentifiers, hstatuses⟩ : ∃ t op,
      (drafted feedDocument false).services = [t] ∧
        (finishService (drafted feedDocument false).target t).operations = [op] ∧
        op.arguments.map (·.identifier) = ["id", "requestBody", "amount"] ∧
        op.outcomes.map (·.status) = [.code 200, .code 404] :=
    ⟨_, _, rfl, rfl, by decide, by decide⟩
  have hs : finishService (drafted feedDocument false).target t ∈
      (drafted feedDocument false).finished.services :=
    (services_finished_perm _).mem_iff.2 (List.mem_map_of_mem (by simp [hservices]))
  have hop : op ∈ (finishService (drafted feedDocument false).target t).operations := by
    simp [hoperations]
  exact ⟨_, hs, op, hop, hidentifiers, hstatuses, views_agree hclient hs hop⟩

end Client

end TypedClient
