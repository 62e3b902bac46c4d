import TypedClient.Page.Service
import TypedClient.Proofs.Client.GivenNames
import TypedClient.Proofs.Client.References
import TypedClient.Proofs.Operation.Names

/-!
# Coherent clients

Whatever a coherent client imports, mentions or validates is one of its definitions, and all its
names are words (`Coherent`). The client of a document whose references resolve is coherent
(`coherent_of_ofTree`).
-/

namespace TypedClient.Client

open Naming (IsWord)

/-- Everything that a client refers to is one of its definitions, and its names are words. -/
structure Coherent (c : Client) : Prop where
  definitions : ∀ m ∈ c.models, IsWord m.name
  services : ∀ s ∈ c.services, IsWord s.name
  references : ∀ m ∈ c.allModels, ∀ name ∈ m.references, name ∈ c.models.map (·.name)
  modelImports : ∀ m ∈ c.models, ∀ name ∈ m.imports, name ∈ c.models.map (·.name)
  serviceImports : ∀ s ∈ c.services, ∀ name ∈ s.imports, name ∈ c.models.map (·.name)
  operations : ∀ s ∈ c.services, ∀ op ∈ s.operations, op.Named

variable {c : Client} {d : Document} {promote : Bool}

theorem mem_allModels_of_mem_operations {s : Service} {op : Operation} {m : Model}
    (hs : s ∈ c.services) (hop : op ∈ s.operations) (hm : m ∈ op.models) : m ∈ c.allModels :=
  List.mem_append_right _ (List.mem_flatMap.2 ⟨s, hs, List.mem_flatMap.2 ⟨op, hop, hm⟩⟩)

namespace Coherent

variable (hc : c.Coherent)
include hc

theorem isWord_of_mem_definitions {name : String} (h : name ∈ c.models.map (·.name)) :
    IsWord name := by
  obtain ⟨m, hm, rfl⟩ := List.mem_map.1 h
  exact hc.definitions m hm

theorem isWord_of_mem_references {m : Model} (hm : m ∈ c.allModels) {name : String}
    (hname : name ∈ m.references) : IsWord name :=
  hc.isWord_of_mem_definitions (hc.references m hm name hname)

/-- What stands in a definition mentions words only. -/
theorem isWord_of_mem_references_part {m part : Model} (hm : m ∈ c.allModels)
    (hpart : part ∈ m.parts) {name : String} (hname : name ∈ part.references) : IsWord name :=
  hc.isWord_of_mem_references hm (Model.mem_references_of_mem_parts hpart hname)

/-- The validator of an operation is that of a definition. -/
theorem mem_definitions_of_validatedModel? {s : Service} {op : Operation} (hs : s ∈ c.services)
    (hop : op ∈ s.operations) {name : String} (h : Page.validatedModel? op = some name) :
    name ∈ c.models.map (·.name) := by
  unfold Page.validatedModel? at h
  split at h
  · rename_i found others hfirst
    split at h
    · obtain rfl := Option.some.inj h
      obtain ⟨o, ho, hreference⟩ : ∃ o ∈ op.successes, Page.plainReference? o = some found :=
        List.mem_map.1 (hfirst ▸ List.mem_cons_self)
      unfold Page.plainReference? at hreference
      split at hreference
      · rename_i hkind
        obtain rfl := Option.some.inj hreference
        have hm := Operation.model_mem_of_mem_successes ho
        refine hc.references _ (mem_allModels_of_mem_operations hs hop hm) _ ?_
        exact Model.mem_references_iff.2 ⟨o.model, .self _, hkind.1, rfl⟩
      · cases hreference
    · cases h
  · cases h

end Coherent

/-! ## The client of a document -/

theorem named_finishOperation {op : Operation} (h : op.Named) (target : String → String) :
    (finishOperation target op).Named :=
  (h.mapModels (Model.redirect target)).refreshImports

theorem named_numberOperation {op : Operation} (h : op.Named) (number : Nat) :
    (numberOperation number op).Named where
  name := h.name.numbered number
  hookName := Operation.isWord_hookName (h.name.numbered number)
  identifiers := h.identifiers
  pathPattern := h.pathPattern

/-- Every operation of a finished client is a declared one, perhaps with a number behind its
name. -/
theorem exists_declaration_of_mem_finished {s : Service} {op : Operation}
    (hs : s ∈ (drafted d promote).finished.services) (hop : op ∈ s.operations) :
    ∃ x ∈ Operation.declarations d, ∃ declared : Operation,
      declared = finishOperation (drafted d promote).target (x.build d (d.promotions promote)).1 ∧
        (op = declared ∨ ∃ number, op = numberOperation number declared) := by
  obtain ⟨t, ht, rfl⟩ := List.mem_map.1 ((services_finished_perm _).mem_iff.1 hs)
  rw [operations_finishService] at hop
  obtain ⟨finished, hfinished, hname⟩ := exists_of_mem_distinguish hop
  obtain ⟨o, ho, rfl⟩ := List.mem_map.1 hfinished
  have hgrouped := mem_of_mem_group ht ho
  rw [Operation.operations_eq, List.map_map] at hgrouped
  obtain ⟨x, hx, rfl⟩ := List.mem_map.1 hgrouped
  exact ⟨x, hx, _, rfl, hname.imp_right fun ⟨number, _, heq⟩ => ⟨number, heq⟩⟩

/-- What holds of declared operations, and is kept when models change and when a number is put
behind the name, holds of the operations of a finished client. -/
theorem forall_mem_finished {P : Operation → Prop}
    (hbuild : ∀ (x : Operation.Declaration) (promotions : Model.Promotions),
      P (x.build d promotions).1)
    (hfinish : ∀ (op : Operation) (target : String → String), P op → P (finishOperation target op))
    (hnumber : ∀ (op : Operation) (number : Nat), P op → P (numberOperation number op))
    {s : Service} {op : Operation} (hs : s ∈ (drafted d promote).finished.services)
    (hop : op ∈ s.operations) : P op := by
  obtain ⟨x, _, declared, rfl, hname⟩ := exists_declaration_of_mem_finished hs hop
  have hdeclared := hfinish _ (drafted d promote).target (hbuild x (d.promotions promote))
  rcases hname with rfl | ⟨number, rfl⟩
  · exact hdeclared
  · exact hnumber _ number hdeclared

/-- The names in the operations of a finished client are words. -/
theorem named_of_mem_finished {s : Service} {op : Operation}
    (hs : s ∈ (drafted d promote).finished.services) (hop : op ∈ s.operations) : op.Named :=
  forall_mem_finished (P := Operation.Named) (fun x promotions => x.named_build d promotions)
    (fun _ target h => named_finishOperation h target)
    (fun _ number h => named_numberOperation h number) hs hop

/-- The client of a document whose references resolve is coherent. -/
theorem coherent_finished (href : d.ReferencesResolve) :
    (drafted d promote).finished.Coherent where
  definitions _ hm := (isTypeName_of_mem_finished hm).isWord
  services _ hs _ hc := Naming.isNameChar_of_isAlphanum (isAlphanum_of_mem_services_finished hs hc)
  references m hm name hname := by
    obtain ⟨n, hwithin, hkind, rfl⟩ := Model.mem_references_iff.1 hname
    exact noDanglingReference_finished href m hm n hwithin hkind
  modelImports m hm name hname := by
    have hall := List.mem_append_left ((drafted d promote).finished.services.flatMap
      fun s => s.operations.flatMap (·.models)) hm
    obtain ⟨_, _, before, rfl, _⟩ := exists_of_mem_allModels_finished hall
    have hmentions := Model.mem_references_of_mem_imports (.self _) hname
    obtain ⟨n, hwithin, hkind, rfl⟩ :=
      Model.mem_references_iff.1 (Model.references_refreshImports before ▸ hmentions)
    exact noDanglingReference_finished href _ hall n hwithin hkind
  serviceImports s hs name hname := by
    obtain ⟨t, ht, rfl⟩ := List.mem_map.1 ((services_finished_perm _).mem_iff.1 hs)
    rw [finishService, Text.mem_sortedNames] at hname
    obtain ⟨op, hop, hname⟩ := List.mem_flatMap.1 hname
    obtain ⟨m, hm, hname⟩ := exists_mem_references_of_mem_imports hs hop hname
    obtain ⟨n, hwithin, hkind, rfl⟩ := Model.mem_references_iff.1 hname
    exact noDanglingReference_finished href m (mem_allModels_of_mem_operations hs hop hm) n
      hwithin hkind
  operations _ hs _ hop := named_of_mem_finished hs hop

theorem coherent_of_ofTree {tree : Json} {document : Document}
    (hdecode : Document.decode tree = .ok document) (href : document.ReferencesResolve)
    (h : ofTree tree promote = .ok c) : c.Coherent := by
  obtain ⟨_, found, hfound, hclient⟩ := ofTree_eq_ok_iff.1 h
  obtain rfl : document = found := Except.ok.inj (hdecode.symm.trans hfound)
  obtain ⟨_, rfl⟩ := draft_bind_finish_eq_ok_iff.1 hclient
  exact coherent_finished href

end TypedClient.Client
