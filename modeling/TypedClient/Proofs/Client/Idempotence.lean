import TypedClient.Proofs.Client.ModelSet

/-!
# Finishing twice

`IsFinal` says what finishing establishes: no name is provisional, the names of the definitions and
those of the operations of each service are different, all imports are those that the models call
for, and models and services are in order. The final clients are exactly those that finishing leaves
alone (`finish_eq_self_iff`), and every finished client is one (`isFinal_finished`), so that
finishing is idempotent: `finish_idempotent`.
-/

namespace TypedClient.Client

open Model (IsProvisionalName isProvisional_iff)

/-! ## Final clients -/

/-- A service as finishing leaves it. -/
structure IsFinalService (s : Service) : Prop where
  nodup_names : (s.operations.map (·.name)).Nodup
  operations_refreshed : ∀ op ∈ s.operations, op.refreshImports = op
  imports_eq : s.imports = Text.sortedNames (s.operations.flatMap (·.imports))

/-- A client as finishing leaves it. -/
structure IsFinal (c : Client) : Prop where
  nodup_names : (c.models.map (·.name)).Nodup
  names_final : ∀ m ∈ c.models, ¬ IsProvisionalName m.name
  models_refreshed : ∀ m ∈ c.models, m.refreshImports = m
  models_sorted : c.models.Pairwise fun m n => m.name ≤ n.name
  services_sorted : c.services.Pairwise fun s t => s.name ≤ t.name
  services_final : ∀ s ∈ c.services, IsFinalService s

/-! ### What finishing establishes -/

/-- No name in a finished client is provisional. -/
theorem not_isProvisionalName_of_mem_finished {c : Client} {m : Model}
    (hm : m ∈ c.finished.models) : ¬ IsProvisionalName m.name := by
  have hname := (names_finished_perm c).mem_iff.1 (List.mem_map_of_mem hm)
  rcases List.mem_append.1 hname with hfixed | hlifted
  · exact not_isProvisionalName_of_mem_fixedNames hfixed
  · exact Model.not_isProvisionalName_of_isTypeName (isTypeName_of_mem_liftedNames hlifted)

/-- Numbering an operation leaves its imports as they should be. -/
theorem refreshImports_numberOperation (number : Nat) (op : Operation) :
    (numberOperation number op).refreshImports = numberOperation number op.refreshImports := rfl

/-- A finished service is final. -/
theorem isFinalService_finishService (target : String → String) (s : Service) :
    IsFinalService (finishService target s) where
  nodup_names := nodup_names_distinguish [] _
  operations_refreshed op hop := by
    rw [operations_finishService] at hop
    obtain ⟨before, hbefore, hname⟩ := exists_of_mem_distinguish hop
    obtain ⟨declared, _, rfl⟩ := List.mem_map.1 hbefore
    have hrefreshed : (finishOperation target declared).refreshImports =
        finishOperation target declared := Operation.refreshImports_refreshImports _
    rcases hname with rfl | ⟨number, _, rfl⟩
    · exact hrefreshed
    · rw [refreshImports_numberOperation, hrefreshed]
  imports_eq := rfl

/-- A finished client is final. -/
theorem isFinal_finished {c : Client} (h : (fixedNames c.models).Nodup) : c.finished.IsFinal where
  nodup_names := nodup_names_finished h
  names_final _ hm := not_isProvisionalName_of_mem_finished hm
  models_refreshed m hm := by
    obtain ⟨named, _, rfl⟩ := List.mem_map.1 ((models_finished_perm c).mem_iff.1 hm)
    exact Model.refreshImports_refreshImports _
  models_sorted := pairwise_le_mergeSort Model.name _
  services_sorted := pairwise_le_mergeSort Service.name _
  services_final s hs := by
    obtain ⟨before, _, rfl⟩ := List.mem_map.1 ((services_finished_perm c).mem_iff.1 hs)
    exact isFinalService_finishService _ before

/-! ### What finishing leaves alone -/

/-- Definitions with final names keep them. -/
theorem nameModels_eq_self {models : List Model} (h : ∀ m ∈ models, ¬ IsProvisionalName m.name)
    (names : List String) : nameModels models names = models := by
  induction models generalizing names with
  | nil => rfl
  | cons m rest ih =>
      have hm : m.isProvisional = false := by
        rw [Bool.eq_false_iff, Ne, isProvisional_iff]
        exact h m List.mem_cons_self
      have hrest := ih fun n hn => h n (List.mem_cons_of_mem _ hn)
      simp [nameModels, hm, hrest]

/-- Operations with different names keep them. -/
theorem distinguish_eq_self {seen : List String} {ops : List Operation}
    (hnodup : (ops.map (·.name)).Nodup) (hfree : ∀ op ∈ ops, op.name ∉ seen) :
    distinguish seen ops = ops := by
  induction ops generalizing seen with
  | nil => rfl
  | cons op rest ih =>
      obtain ⟨hop, hrest⟩ := List.nodup_cons.1 hnodup
      have hname : Naming.unique op.name seen = op.name :=
        Naming.unique_of_not_mem (hfree op List.mem_cons_self)
      have hlater : ∀ later ∈ rest, later.name ∉ op.name :: seen := by
        intro later hlater hmem
        rcases List.mem_cons.1 hmem with heq | hmem
        · exact hop (List.mem_map.2 ⟨later, hlater, heq⟩)
        · exact hfree later (List.mem_cons_of_mem _ hlater) hmem
      rw [distinguish, hname, renameOperation, if_pos rfl, ih hrest hlater]

/-- Without lifted definitions every name leads to itself. -/
theorem target_eq_id {c : Client} (h : ∀ m ∈ c.models, ¬ IsProvisionalName m.name) :
    c.target = id := by
  funext name
  apply finalName_renames_of_not_mem
  intro hname
  obtain ⟨m, hm, rfl⟩ := List.mem_map.1 hname
  obtain ⟨hmem, hprovisional⟩ := List.mem_filter.1 hm
  exact h m hmem (isProvisional_iff.1 hprovisional)

/-- Finishing a final service changes nothing. -/
theorem IsFinalService.finishService_id {s : Service} (h : IsFinalService s) :
    finishService id s = s := by
  have hredirect : Model.redirect id = id := funext Model.redirect_id
  have hfinish : s.operations.map (finishOperation id) = s.operations := by
    refine (List.map_congr_left fun op hop => ?_).trans (List.map_id _)
    rw [finishOperation, hredirect, Operation.mapModels_id, h.operations_refreshed op hop, id_eq]
  have hoperations : (finishService id s).operations = s.operations := by
    rw [operations_finishService, hfinish]
    exact distinguish_eq_self h.nodup_names fun _ _ => List.not_mem_nil
  calc finishService id s
      = { s with
          operations := (finishService id s).operations
          imports := Text.sortedNames ((finishService id s).operations.flatMap (·.imports)) } := rfl
    _ = s := by rw [hoperations, ← h.imports_eq]

/-- Finishing a final client changes nothing. -/
theorem IsFinal.finished_eq {c : Client} (h : c.IsFinal) : c.finished = c := by
  -- Without provisional names nothing is redirected, so that each part is only refreshed and sorted,
  -- and it is that already.
  have htarget : c.target = id := target_eq_id h.names_final
  have hmodels : (namedModels c.models).map (finishModel c.target) = c.models := by
    rw [namedModels, nameModels_eq_self h.names_final, htarget]
    refine (List.map_congr_left fun m hm => ?_).trans (List.map_id _)
    rw [finishModel, Model.redirect_id, h.models_refreshed m hm, id_eq]
  have hservices : c.services.map (finishService c.target) = c.services := by
    rw [htarget]
    refine (List.map_congr_left fun s hs => ?_).trans (List.map_id _)
    exact (h.services_final s hs).finishService_id
  have hmodelsSorted : sortModels c.models = c.models :=
    List.mergeSort_of_pairwise (h.models_sorted.imp decide_eq_true)
  have hservicesSorted : sortServices c.services = c.services :=
    List.mergeSort_of_pairwise (h.services_sorted.imp decide_eq_true)
  rw [finished, hmodels, hservices, hmodelsSorted, hservicesSorted]

/-- The final clients are those that finishing leaves alone. -/
theorem finish_eq_self_iff {c : Client} : c.finish = .ok c ↔ c.IsFinal := by
  constructor
  · intro h
    obtain ⟨hnodup, heq⟩ := finish_eq_ok_iff.1 h
    exact heq ▸ isFinal_finished hnodup
  · intro h
    refine finish_eq_ok_iff.2 ⟨?_, h.finished_eq.symm⟩
    exact h.nodup_names.sublist (List.filter_sublist.map _)

/-- Finishing a client that is finished already gives the same client. -/
theorem finish_idempotent {c c' : Client} (h : c.finish = .ok c') : c'.finish = .ok c' := by
  obtain ⟨hnodup, rfl⟩ := finish_eq_ok_iff.1 h
  exact finish_eq_self_iff.2 (isFinal_finished hnodup)

/-- A client with a reference to a lifted definition and with operations of one name. -/
def twinClient : Client where
  version := "1"
  server := ""
  models := ownerClient.models
  services :=
    [{ name := "Pets"
       operations :=
        [{ service := "Pets", name := "fetch", hookName := "useFetch", method := .get, path := "/a" },
         { service := "Pets", name := "fetch", hookName := "useFetch", method := .get, path := "/b"
           outcomes := [{ status := .default, model := Model.reference "" "#schemas#Pet/owner" }] },
         { service := "Pets", name := "fetch2", hookName := "useFetch2", method := .put
           path := "/b" }] },
     { name := "Admin", operations := [] }]

theorem finish_idempotent_twinClient :
    twinClient.finish = .ok twinClient.finished ∧
      twinClient.finished.finish = .ok twinClient.finished := by
  have hfinish : twinClient.finish = .ok twinClient.finished :=
    finish_eq_ok_iff.2 ⟨by decide, rfl⟩
  exact ⟨hfinish, finish_idempotent hfinish⟩

end TypedClient.Client
