import Mathlib.Data.List.Forall2
import Mathlib.Data.List.Induction
import Mathlib.Data.List.Perm.Basic
import TypedClient.Client.Draft
import TypedClient.Proofs.Client.Finished
import TypedClient.Proofs.Naming.Unique

/-!
# The operations of a client

Grouping puts every operation into the service of its name, in order: `grouped_group`. In a
finished service the operations stand in the same order. `forall₂_distinguish` says that
each has its own name or, where an earlier one has that name, a numbered one, and
`nodup_names_distinguish` that no two names are the same.
-/

namespace TypedClient.Client

/-! ## Grouping -/

/-- The services hold the operations, each under the name of its service and in order. -/
structure Grouped (ops : List Operation) (services : List Service) : Prop where
  nodup_names : (services.map (·.name)).Nodup
  operations_eq : ∀ s ∈ services, s.operations = ops.filter (·.service == s.name)
  complete : ∀ op ∈ ops, op.service ∈ services.map (·.name)

/-- The services that are there already keep their names. -/
theorem names_addOperation (op : Operation) (services : List Service) :
    (addOperation op services).map (·.name) =
      if op.service ∈ services.map (·.name) then services.map (·.name)
      else services.map (·.name) ++ [op.service] := by
  induction services with
  | nil => simp [addOperation]
  | cons s rest ih =>
      by_cases hs : s.name = op.service
      · simp [addOperation, hs]
      · simp only [addOperation, hs, if_false, List.map_cons, ih, List.mem_cons, Ne.symm hs,
          false_or]
        split <;> rfl

/-- Only the service of the operation gains it. -/
theorem mem_addOperation {op : Operation} {s : Service} {services : List Service}
    (hnodup : (services.map (·.name)).Nodup) (h : s ∈ addOperation op services) :
    (s ∈ services ∧ s.name ≠ op.service) ∨
      (s.name = op.service ∧ ∃ t ∈ services, t.name = op.service ∧
        s.operations = t.operations ++ [op]) ∨
      (s.name = op.service ∧ s.operations = [op] ∧ op.service ∉ services.map (·.name)) := by
  induction services with
  | nil =>
      obtain rfl := List.mem_singleton.1 h
      exact .inr (.inr ⟨rfl, rfl, List.not_mem_nil⟩)
  | cons t rest ih =>
      rw [List.map_cons, List.nodup_cons] at hnodup
      by_cases ht : t.name = op.service
      · rw [addOperation, if_pos ht] at h
        rcases List.mem_cons.1 h with rfl | h
        · exact .inr (.inl ⟨ht, t, List.mem_cons_self, ht, rfl⟩)
        · refine .inl ⟨List.mem_cons_of_mem _ h, fun heq => hnodup.1 ?_⟩
          rw [ht, ← heq]
          exact List.mem_map_of_mem h
      · rw [addOperation, if_neg ht] at h
        rcases List.mem_cons.1 h with rfl | h
        · exact .inl ⟨List.mem_cons_self, ht⟩
        · rcases ih hnodup.2 h with ⟨hs, hne⟩ | ⟨hs, u, hu, hname, heq⟩ | ⟨hs, heq, hnew⟩
          · exact .inl ⟨List.mem_cons_of_mem _ hs, hne⟩
          · exact .inr (.inl ⟨hs, u, List.mem_cons_of_mem _ hu, hname, heq⟩)
          · refine .inr (.inr ⟨hs, heq, ?_⟩)
            simp [hnew, Ne.symm ht]

/-- Adding an operation keeps the services grouped. -/
theorem Grouped.addOperation {ops : List Operation} {services : List Service}
    (h : Grouped ops services) (op : Operation) :
    Grouped (ops ++ [op]) (addOperation op services) := by
  have hnames := names_addOperation op services
  constructor
  · rw [hnames]
    split
    · exact h.nodup_names
    · rename_i hnew
      rw [List.nodup_append']
      exact ⟨h.nodup_names, List.nodup_singleton _, by simpa using hnew⟩
  · intro s hs
    rw [List.filter_append]
    rcases mem_addOperation h.nodup_names hs with
      ⟨hs, hne⟩ | ⟨hname, t, ht, htname, heq⟩ | ⟨hname, heq, hnew⟩
    · simp [h.operations_eq s hs, Ne.symm hne]
    · simp [heq, h.operations_eq t ht, htname, hname]
    · -- The service is new, so that no earlier operation belongs to it.
      have hnone : ops.filter (·.service == op.service) = [] := by
        rw [List.filter_eq_nil_iff]
        intro other hother hsame
        have hservice := h.complete other hother
        rw [beq_iff_eq.1 hsame] at hservice
        exact hnew hservice
      simp [heq, hnone, hname]
  · intro other hother
    rw [hnames]
    rcases List.mem_append.1 hother with hother | hother
    · split
      · exact h.complete other hother
      · exact List.mem_append_left _ (h.complete other hother)
    · obtain rfl := List.mem_singleton.1 hother
      split
      · assumption
      · exact List.mem_append_right _ List.mem_cons_self

/-- Grouping puts every operation into the service of its name, in order. -/
theorem grouped_group (ops : List Operation) : Grouped ops (group ops) := by
  induction ops using List.reverseRecOn with
  | nil => exact ⟨List.nodup_nil, fun _ hs => absurd hs List.not_mem_nil,
      fun _ hop => absurd hop List.not_mem_nil⟩
  | append_singleton ops op ih =>
      rw [group, List.foldl_append]
      exact ih.addOperation op

/-- The operations of a service are among those that are grouped. -/
theorem mem_of_mem_group {ops : List Operation} {s : Service} {op : Operation}
    (hs : s ∈ group ops) (hop : op ∈ s.operations) : op ∈ ops := by
  rw [(grouped_group ops).operations_eq s hs] at hop
  exact List.mem_of_mem_filter hop

/-- The services are named after those that operations belong to, each where it is met first. -/
theorem names_group (ops : List Operation) :
    (group ops).map (·.name) = (ops.map (·.service)).eraseDups := by
  induction ops using List.reverseRecOn with
  | nil => rfl
  | append_singleton ops op ih =>
      have hstep : group (ops ++ [op]) = addOperation op (group ops) := List.foldl_append
      rw [hstep, names_addOperation, ih, List.map_append, List.eraseDups_append]
      generalize ops.map (·.service) = names
      by_cases hmem : op.service ∈ names
      · simp [List.removeAll, hmem]
      · simp [List.removeAll, hmem, List.eraseDups_cons]

/-- Adding an operation to a service adds it to the operations of all services. -/
theorem flatMap_operations_addOperation (op : Operation) (services : List Service) :
    ((addOperation op services).flatMap (·.operations)).Perm
      (services.flatMap (·.operations) ++ [op]) := by
  induction services with
  | nil => exact .refl _
  | cons s rest ih =>
      by_cases hs : s.name = op.service
      · rw [addOperation, if_pos hs, List.flatMap_cons, List.flatMap_cons, List.append_assoc,
          List.append_assoc]
        exact List.perm_append_comm.append_left s.operations
      · rw [addOperation, if_neg hs, List.flatMap_cons, List.flatMap_cons, List.append_assoc]
        exact ih.append_left s.operations

/-- Grouping loses no operation and repeats none. -/
theorem flatMap_operations_group (ops : List Operation) :
    ((group ops).flatMap (·.operations)).Perm ops := by
  induction ops using List.reverseRecOn with
  | nil => exact .refl _
  | append_singleton ops op ih =>
      have hstep : group (ops ++ [op]) = addOperation op (group ops) := List.foldl_append
      rw [hstep]
      exact (flatMap_operations_addOperation op _).trans (ih.append_right [op])

/-! ## Different names -/

/-- The operation with a number behind its name. Its hook follows. -/
def numberOperation (number : Nat) (op : Operation) : Operation :=
  { op with
    name := Naming.numbered op.name number
    hookName := "use" ++ Text.capitalize (Naming.numbered op.name number) }

/-- An operation keeps its name or gets a number behind it. -/
theorem renameOperation_unique (op : Operation) (seen : List String) :
    renameOperation (Naming.unique op.name seen) op = op ∨
      ∃ number, 2 ≤ number ∧
        renameOperation (Naming.unique op.name seen) op = numberOperation number op := by
  by_cases hname : Naming.unique op.name seen = op.name
  · exact .inl (by rw [renameOperation, if_pos hname])
  · have hmem : op.name ∈ seen := by
      by_contra hno
      exact hname (Naming.unique_of_not_mem hno)
    obtain ⟨number, hge, heq, _⟩ := Naming.unique_of_mem hmem
    refine .inr ⟨number, hge, ?_⟩
    rw [renameOperation, if_neg hname, heq, numberOperation]

/-- The name of a renamed operation is the new one. -/
@[simp]
theorem name_renameOperation (name : String) (op : Operation) :
    (renameOperation name op).name = name := by
  unfold renameOperation
  split
  · rename_i heq
    exact heq.symm
  · rfl

/-- Each operation keeps its name or gets a number behind it. -/
theorem forall₂_distinguish (seen : List String) (ops : List Operation) :
    List.Forall₂
      (fun op op' => op' = op ∨ ∃ number, 2 ≤ number ∧ op' = numberOperation number op)
      ops (distinguish seen ops) := by
  induction ops generalizing seen with
  | nil => exact .nil
  | cons op ops ih => exact .cons (renameOperation_unique op seen) (ih _)

/-- Each operation with a different name is one that was given. -/
theorem exists_of_mem_distinguish {seen : List String} {ops : List Operation} {op' : Operation}
    (h : op' ∈ distinguish seen ops) :
    ∃ op ∈ ops, op' = op ∨ ∃ number, 2 ≤ number ∧ op' = numberOperation number op := by
  have hforall := forall₂_distinguish seen ops
  obtain ⟨index, hindex', rfl⟩ := List.mem_iff_getElem.1 h
  have hindex : index < ops.length := by rwa [hforall.length_eq]
  exact ⟨ops[index], List.getElem_mem hindex, hforall.get hindex hindex'⟩

/-- The operations keep their places. -/
theorem getElem?_distinguish (seen : List String) {ops : List Operation} {op : Operation}
    {index : Nat} (h : ops[index]? = some op) :
    ∃ op', (distinguish seen ops)[index]? = some op' ∧
      (op' = op ∨ ∃ number, 2 ≤ number ∧ op' = numberOperation number op) := by
  have hforall := forall₂_distinguish seen ops
  obtain ⟨hindex, rfl⟩ := List.getElem?_eq_some_iff.1 h
  have hindex' : index < (distinguish seen ops).length := by rwa [← hforall.length_eq]
  exact ⟨_, List.getElem?_eq_getElem hindex', hforall.get hindex hindex'⟩

/-- The names are given one after the other. -/
theorem names_distinguish (seen : List String) (ops : List Operation) :
    (distinguish seen ops).map (·.name) = Naming.uniques Operation.name seen ops := by
  induction ops generalizing seen with
  | nil => rfl
  | cons op ops ih =>
      rw [distinguish, List.map_cons, name_renameOperation, ih, Naming.uniques]

/-- No two operations share a name. -/
theorem nodup_names_distinguish (seen : List String) (ops : List Operation) :
    ((distinguish seen ops).map (·.name)).Nodup := by
  rw [names_distinguish]
  exact Naming.nodup_uniques _ _

/-! ## Finished services -/

/-- An operation of a finished service, before its name is set apart from the others. -/
def finishOperation (target : String → String) (op : Operation) : Operation :=
  (op.mapModels (Model.redirect target)).refreshImports

theorem operations_finishService (target : String → String) (s : Service) :
    (finishService target s).operations =
      distinguish [] (s.operations.map (finishOperation target)) := rfl

@[simp]
theorem models_finishOperation (target : String → String) (op : Operation) :
    (finishOperation target op).models = op.models.map (finishModel target) := by
  rw [finishOperation, Operation.models_refreshImports, Operation.models_mapModels, List.map_map]
  rfl

end TypedClient.Client
