import Mathlib.Data.List.Nodup
import Mathlib.Data.List.Perm.Basic
import TypedClient.Client.Finish
import TypedClient.Proofs.Model.Parts
import TypedClient.Proofs.Naming.Repeated
import TypedClient.Proofs.Operation.Models

/-!
# Finished clients

The definitions of a client are split into those whose names the document fixes and the
lifted ones, which carry a provisional name. `finalNames` gives the lifted ones names that
differ from each other and from the fixed ones, and none of them is provisional again.
`mem_zip_finalName_renames` says that a reference to a provisional name is redirected to
the final name of a lifted definition that carries it, and `namedModels_perm` that the
lifted definitions themselves take these names in order.

`finished` is the client that `finish` gives unless a fixed name is repeated:
`finish_eq_ok_iff`, with `duplicate_of_finish_eq_error` for the refused ones. Its models are
the named ones with all references redirected (`models_finished_perm`), and no two of them
share a name (`nodup_names_finished`).
-/

namespace TypedClient

namespace Client

open Model (IsProvisionalName isProvisional_iff)

/-- The definitions whose names the document fixes. -/
def fixedModels (models : List Model) : List Model := models.filter (!·.isProvisional)

/-- The definitions whose names are not final. -/
def liftedModels (models : List Model) : List Model := models.filter (·.isProvisional)

/-- The names that the document fixes. -/
def fixedNames (models : List Model) : List String := (fixedModels models).map (·.name)

/-- The provisional names of the lifted definitions, in order. -/
def provisionalNames (models : List Model) : List String := (liftedModels models).map (·.name)

/-- The final names of the lifted definitions, in the same order. -/
def liftedNames (models : List Model) : List String :=
  finalNames (fixedNames models).reverse (liftedModels models)

theorem isProvisionalName_of_mem_provisionalNames {models : List Model} {name : String}
    (h : name ∈ provisionalNames models) : IsProvisionalName name := by
  obtain ⟨m, hm, rfl⟩ := List.mem_map.1 h
  exact isProvisional_iff.1 (List.mem_filter.1 hm).2

theorem mem_names_of_mem_provisionalNames {models : List Model} {name : String}
    (h : name ∈ provisionalNames models) : name ∈ models.map (·.name) := by
  obtain ⟨m, hm, rfl⟩ := List.mem_map.1 h
  exact List.mem_map_of_mem (List.mem_of_mem_filter hm)

theorem not_isProvisionalName_of_mem_fixedNames {models : List Model} {name : String}
    (h : name ∈ fixedNames models) : ¬ IsProvisionalName name := by
  obtain ⟨m, hm, rfl⟩ := List.mem_map.1 h
  have hnot := (List.mem_filter.1 hm).2
  rw [← isProvisional_iff]
  simpa using hnot

/-! ## The names that are given out -/

theorem finalNames_eq (taken : List String) (ms : List Model) :
    finalNames taken ms = Naming.uniques wantedName taken ms := by
  induction ms generalizing taken with
  | nil => rfl
  | cons m ms ih => rw [finalNames, Naming.uniques, ih]

/-- The name that a lifted definition asks for is a type name. -/
theorem isTypeName_wantedName (m : Model) : Naming.IsTypeName (wantedName m) := by
  unfold wantedName
  split <;> exact Naming.isTypeName_typeName _

variable {models : List Model}

theorem length_liftedNames (models : List Model) :
    (liftedNames models).length = (provisionalNames models).length := by
  simp [liftedNames, provisionalNames, finalNames_eq]

/-- The names that are given out are pairwise different. -/
theorem nodup_liftedNames (models : List Model) : (liftedNames models).Nodup := by
  rw [liftedNames, finalNames_eq]
  exact Naming.nodup_uniques _ _

/-- None of them is fixed by the document. -/
theorem not_mem_fixedNames_of_mem_liftedNames {name : String} (h : name ∈ liftedNames models) :
    name ∉ fixedNames models := by
  rw [liftedNames, finalNames_eq] at h
  exact fun hmem => Naming.not_mem_of_mem_uniques h (List.mem_reverse.2 hmem)

/-- Each of them is a type name. -/
theorem isTypeName_of_mem_liftedNames {name : String} (h : name ∈ liftedNames models) :
    Naming.IsTypeName name := by
  rw [liftedNames, finalNames_eq] at h
  obtain ⟨m, _, others, rfl⟩ := Naming.exists_of_mem_uniques h
  exact (isTypeName_wantedName m).unique others

/-! ## Redirected names -/

theorem renames_eq (models : List Model) :
    renames models = ((provisionalNames models).zip (liftedNames models)).reverse := rfl

/-- A name that no lifted definition carries stays as it is. -/
theorem finalName_renames_of_not_mem {name : String} (h : name ∉ provisionalNames models) :
    finalName (renames models) name = name := by
  have hnone : (renames models).lookup name = none := by
    rw [List.lookup_eq_none_iff]
    rintro ⟨key, value⟩ hpair
    rw [renames_eq, List.mem_reverse] at hpair
    have hkey : key ∈ provisionalNames models := (List.of_mem_zip hpair).1
    have hne : name ≠ key := fun heq => h (heq ▸ hkey)
    simpa using hne
  rw [finalName, hnone, Option.getD_none]

/-- A name that is not provisional stays as it is. -/
theorem finalName_renames_of_not_isProvisionalName {name : String}
    (h : ¬ IsProvisionalName name) : finalName (renames models) name = name :=
  finalName_renames_of_not_mem fun hmem => h (isProvisionalName_of_mem_provisionalNames hmem)

/-- A provisional name is redirected to the final name of a lifted definition that carries it. -/
theorem mem_zip_finalName_renames {name : String} (h : name ∈ provisionalNames models) :
    (name, finalName (renames models) name) ∈
      (provisionalNames models).zip (liftedNames models) := by
  -- Several lifted definitions may carry the name; the lookup settles for one of them.
  have hkeys : name ∈ (renames models).map Prod.fst := by
    rw [renames_eq, List.map_reverse, List.mem_reverse,
      List.map_fst_zip (Nat.le_of_eq (length_liftedNames models).symm)]
    exact h
  cases hlookup : (renames models).lookup name with
  | none =>
      obtain ⟨pair, hpair, hkey⟩ := List.mem_map.1 hkeys
      have hne := List.lookup_eq_none_iff.1 hlookup pair hpair
      simp [hkey] at hne
  | some final =>
      obtain ⟨before, after, heq, _⟩ := List.lookup_eq_some_iff.1 hlookup
      rw [← List.mem_reverse, ← renames_eq, finalName, hlookup, Option.getD_some, heq]
      simp

/-- A provisional name is redirected to one of the final names. -/
theorem finalName_renames_mem {name : String} (h : name ∈ provisionalNames models) :
    finalName (renames models) name ∈ liftedNames models :=
  (List.of_mem_zip (mem_zip_finalName_renames h)).2

/-! ## Named definitions -/

/-- The model under another name. -/
def withName (m : Model) (name : String) : Model := { m with name := name }

@[simp]
theorem name_withName (m : Model) (name : String) : (withName m name).name = name := rfl

@[simp]
theorem parts_withName (m : Model) (name : String) : (withName m name).parts = m.parts := rfl

/-- A model keeps its own name. -/
theorem withName_self (m : Model) : withName m m.name = m := by
  cases m
  rfl

/-- The lifted definitions under the given names, in order. -/
def withNames (ms : List Model) (names : List String) : List Model :=
  (ms.zip names).map fun (m, name) => withName m name

/-- The fixed definitions keep their names, and the lifted ones take the given names in order. -/
theorem nameModels_perm (models : List Model) (names : List String)
    (h : names.length = (liftedModels models).length) :
    (nameModels models names).Perm
      (fixedModels models ++ withNames (liftedModels models) names) := by
  induction models generalizing names with
  | nil => simp [nameModels, fixedModels, liftedModels, withNames]
  | cons m models ih =>
      by_cases hm : m.isProvisional = true
      · cases names with
        | nil => simp [liftedModels, hm] at h
        | cons name names =>
            have hrest : names.length = (liftedModels models).length := by
              simpa [liftedModels, hm] using h
            have hcons : nameModels (m :: models) (name :: names) =
                withName m name :: nameModels models names := by
              simp [nameModels, hm, withName]
            have hperm := (ih names hrest).cons (withName m name)
            rw [hcons]
            simpa [fixedModels, liftedModels, withNames, hm] using
              hperm.trans List.perm_middle.symm
      · have hrest : names.length = (liftedModels models).length := by
          simpa [liftedModels, hm] using h
        simpa [nameModels, hm, fixedModels, liftedModels] using ih names hrest

/-- The definitions with final names: the fixed ones, and the lifted ones with the final names. -/
theorem namedModels_perm (models : List Model) :
    (namedModels models).Perm
      (fixedModels models ++ withNames (liftedModels models) (liftedNames models)) :=
  nameModels_perm models (liftedNames models) (by simp [liftedNames, finalNames_eq])

/-- A definition with its final name is one of the client's under another name, or under its own. -/
theorem exists_withName_of_mem_namedModels {models : List Model} {m : Model}
    (h : m ∈ namedModels models) : ∃ n ∈ models, ∃ name, m = withName n name := by
  rcases List.mem_append.1 ((namedModels_perm models).mem_iff.1 h) with hmem | hmem
  · exact ⟨m, List.mem_of_mem_filter hmem, m.name, (withName_self m).symm⟩
  · obtain ⟨⟨n, name⟩, hzip, rfl⟩ := List.mem_map.1 hmem
    exact ⟨n, List.mem_of_mem_filter (List.of_mem_zip hzip).1, name, rfl⟩

/-- Every definition of the client is given a final name. -/
theorem exists_withName_mem_namedModels {models : List Model} {m : Model} (h : m ∈ models) :
    ∃ name, withName m name ∈ namedModels models := by
  by_cases hm : m.isProvisional = true
  · have hlifted : m ∈ liftedModels models := List.mem_filter.2 ⟨h, hm⟩
    obtain ⟨index, hindex, rfl⟩ := List.getElem_of_mem hlifted
    have hlength : index < (liftedNames models).length := by
      simpa [liftedNames, finalNames_eq] using hindex
    have hzip : index < ((liftedModels models).zip (liftedNames models)).length := by
      rw [List.length_zip]
      omega
    refine ⟨(liftedNames models)[index], (namedModels_perm models).mem_iff.2 ?_⟩
    refine List.mem_append_right _ (List.mem_map.2 ⟨(_, _), ?_, rfl⟩)
    exact List.mem_iff_getElem.2 ⟨index, hzip, List.getElem_zip⟩
  · have hfixed : m ∈ fixedModels models := List.mem_filter.2 ⟨h, by simpa using hm⟩
    refine ⟨m.name, (namedModels_perm models).mem_iff.2 (List.mem_append_left _ ?_)⟩
    rwa [withName_self]

/-- The names of the definitions: the fixed ones and those that are given out. -/
theorem map_name_namedModels_perm (models : List Model) :
    ((namedModels models).map (·.name)).Perm (fixedNames models ++ liftedNames models) := by
  have hlength : (liftedNames models).length ≤ (liftedModels models).length := by
    simp [liftedNames, finalNames_eq]
  have hnames : (withNames (liftedModels models) (liftedNames models)).map (·.name) =
      liftedNames models := by
    rw [withNames, List.map_map]
    exact List.map_snd_zip hlength
  have hperm := (namedModels_perm models).map (·.name)
  rwa [List.map_append, hnames] at hperm

/-! ## The finished client -/

/-- The final name of every name that a client mentions. -/
def target (c : Client) : String → String := finalName (renames c.models)

/-- A definition as it is in the finished client. -/
def finishModel (target : String → String) (m : Model) : Model :=
  (m.redirect target).refreshImports

/-- The client with final names. -/
def finished (c : Client) : Client :=
  { c with
    models := sortModels ((namedModels c.models).map (finishModel c.target))
    services := sortServices (c.services.map (finishService c.target)) }

/-- A definition is looked for by the search for repeated names. -/
theorem firstRepeated?_eq (taken : List String) (ms : List Model) :
    firstRepeated? taken ms = Naming.firstRepeat? Model.name taken ms := by
  induction ms generalizing taken with
  | nil => rfl
  | cons m rest ih => rw [firstRepeated?, Naming.firstRepeat?, ih]

/-- A client is finished exactly if the document fixes no name twice. -/
theorem finish_eq_ok_iff {c c' : Client} :
    c.finish = .ok c' ↔ (fixedNames c.models).Nodup ∧ c' = c.finished := by
  rw [finish, firstRepeated?_eq]
  cases hrepeat : Naming.firstRepeat? Model.name [] (c.models.filter (!·.isProvisional)) with
  | none =>
      have hnodup : (fixedNames c.models).Nodup := (Naming.firstRepeat?_eq_none_iff.1 hrepeat).1
      simp only [Except.ok.injEq, hnodup, true_and]
      exact eq_comm
  | some m =>
      simp only [reduceCtorEq, false_iff, not_and]
      intro hnodup
      have hnone := Naming.firstRepeat?_eq_none_iff.2 ⟨hnodup, fun _ _ => List.not_mem_nil⟩
      exact absurd (hrepeat.symm.trans hnone) (Option.some_ne_none m)

/-- What refuses a client is a name that the document fixes twice. -/
theorem duplicate_of_finish_eq_error {c : Client} {e : Error} (h : c.finish = .error e) :
    ∃ name origin, e = .nameCollision name origin ∧
      List.Duplicate name (fixedNames c.models) := by
  rw [finish, firstRepeated?_eq] at h
  cases hrepeat : Naming.firstRepeat? Model.name [] (c.models.filter (!·.isProvisional)) with
  | none => simp [hrepeat] at h
  | some m =>
      rw [hrepeat] at h
      obtain ⟨_, htaken | hduplicate⟩ := Naming.firstRepeat?_eq_some hrepeat
      · cases htaken
      · exact ⟨m.name, m.origin.text, (Except.error.inj h).symm, hduplicate⟩

theorem models_finished_perm (c : Client) :
    c.finished.models.Perm ((namedModels c.models).map (finishModel c.target)) :=
  List.mergeSort_perm _ _

theorem services_finished_perm (c : Client) :
    c.finished.services.Perm (c.services.map (finishService c.target)) :=
  List.mergeSort_perm _ _

@[simp]
theorem name_finishModel (target : String → String) (m : Model) :
    (finishModel target m).name = m.name := by
  simp [finishModel]

/-- The names in a finished client are the fixed ones and those that are given out. -/
theorem names_finished_perm (c : Client) :
    (c.finished.models.map (·.name)).Perm (fixedNames c.models ++ liftedNames c.models) := by
  have hperm := (models_finished_perm c).map (·.name)
  rw [List.map_map] at hperm
  have hnames : (fun m : Model => m.name) ∘ finishModel c.target = fun m => m.name := by
    funext m
    exact name_finishModel _ m
  rw [hnames] at hperm
  exact hperm.trans (map_name_namedModels_perm c.models)

/-- No two definitions of a finished client share a name. -/
theorem nodup_names_finished {c : Client} (h : (fixedNames c.models).Nodup) :
    (c.finished.models.map (·.name)).Nodup := by
  rw [(names_finished_perm c).nodup_iff, List.nodup_append']
  refine ⟨h, nodup_liftedNames _, ?_⟩
  intro name hfixed hlifted
  exact not_mem_fixedNames_of_mem_liftedNames hlifted hfixed

/-- A definition is found in a finished client under its own name. -/
theorem model?_finished {c : Client} (h : (fixedNames c.models).Nodup) {m : Model}
    (hm : m ∈ c.finished.models) : c.finished.model? m.name = some m :=
  Naming.find?_name_eq (nodup_names_finished h) hm

end Client

end TypedClient
