import Mathlib.Data.Set.Function
import TypedClient.Proofs.Client.Services

/-!
# Finishing renames and does nothing else

`Model.Rewritten rho m m'` says that `m'` is `m` with the base of every reference, at any
depth, sent through `rho`, and that nothing else but imports is different. Operations and
services are rewritten with all the models they store. `finish_rewrites` is the main result:
for definitions with different provisional names, `finish` rewrites a client by one map on
names, which moves provisional names only and keeps the names of definitions apart.
-/

namespace TypedClient

/-- The same model, but for imports, with `rho` applied to the base of every reference. -/
inductive Model.Rewritten (rho : String → String) : Model → Model → Prop
  | mk (m : Model) (imports : List String) (link : Option Model) (properties : List Model)
      (hlink : Option.Rel (Model.Rewritten rho) m.link link)
      (hproperties : List.Forall₂ (Model.Rewritten rho) m.properties properties) :
      Model.Rewritten rho m
        { m with
          base := if m.kind = .reference then rho m.base else m.base
          imports := imports
          link := link
          properties := properties }

namespace Operation

/-- The same argument with its model rewritten. -/
def Argument.Rewritten (rho : String → String) (a a' : Argument) : Prop :=
  Model.Rewritten rho a.model a'.model ∧ a' = { a with model := a'.model }

/-- The same outcome with its model rewritten. -/
def Outcome.Rewritten (rho : String → String) (o o' : Outcome) : Prop :=
  Model.Rewritten rho o.model o'.model ∧ o' = { o with model := o'.model }

end Operation

/-- The same operation with the models in all nine lists rewritten. Its imports may differ, and so
may its name and its hook, but only by the number that keeps it apart. -/
structure Operation.Rewritten (rho : String → String) (op op' : Operation) : Prop where
  arguments : List.Forall₂ (Argument.Rewritten rho) op.arguments op'.arguments
  pathArguments : List.Forall₂ (Argument.Rewritten rho) op.pathArguments op'.pathArguments
  queryArguments : List.Forall₂ (Argument.Rewritten rho) op.queryArguments op'.queryArguments
  headerArguments : List.Forall₂ (Argument.Rewritten rho) op.headerArguments op'.headerArguments
  cookieArguments : List.Forall₂ (Argument.Rewritten rho) op.cookieArguments op'.cookieArguments
  bodyArgument : Option.Rel (Argument.Rewritten rho) op.bodyArgument op'.bodyArgument
  outcomes : List.Forall₂ (Outcome.Rewritten rho) op.outcomes op'.outcomes
  successes : List.Forall₂ (Outcome.Rewritten rho) op.successes op'.successes
  failures : List.Forall₂ (Outcome.Rewritten rho) op.failures op'.failures
  name : (op'.name = op.name ∧ op'.hookName = op.hookName) ∨
    ∃ number, 2 ≤ number ∧ op'.name = Naming.numbered op.name number ∧
      op'.hookName = "use" ++ Text.capitalize op'.name
  rest : op' =
    { op with
      name := op'.name
      hookName := op'.hookName
      imports := op'.imports
      arguments := op'.arguments
      pathArguments := op'.pathArguments
      queryArguments := op'.queryArguments
      headerArguments := op'.headerArguments
      cookieArguments := op'.cookieArguments
      bodyArgument := op'.bodyArgument
      outcomes := op'.outcomes
      successes := op'.successes
      failures := op'.failures }

/-- The same service with its operations rewritten, in the same order and under different names. -/
structure Service.Rewritten (rho : String → String) (s s' : Service) : Prop where
  operations : List.Forall₂ (Operation.Rewritten rho) s.operations s'.operations
  nodup_names : (s'.operations.map (·.name)).Nodup
  rest : s' = { s with operations := s'.operations, imports := s'.imports }

namespace Client

open Model (IsProvisionalName isProvisional_iff)

/-! ## Rewriting -/

/-- Changing every item is a pairwise relation if it is one for each item. -/
theorem forall₂_map_of_forall {α β : Type} {R : α → β → Prop} {f : α → β} {items : List α}
    (h : ∀ a ∈ items, R a (f a)) : List.Forall₂ R items (items.map f) := by
  induction items with
  | nil => exact .nil
  | cons a items ih =>
      exact .cons (h a List.mem_cons_self) (ih fun b hb => h b (List.mem_cons_of_mem _ hb))

theorem rel_map_of_forall {α β : Type} {R : α → β → Prop} {f : α → β} {o : Option α}
    (h : ∀ a ∈ o, R a (f a)) : Option.Rel R o (o.map f) := by
  cases o with
  | none => exact .none
  | some a => exact .some (h a rfl)

/-- A finished model is the model rewritten. -/
theorem rewritten_finishModel (rho : String → String) (m : Model) :
    Model.Rewritten rho m (finishModel rho m) := by
  induction m using Model.induction with
  | step m ih =>
      have hlink : Option.Rel (Model.Rewritten rho) m.link (m.link.map (finishModel rho)) :=
        rel_map_of_forall fun part hpart =>
          ih part (List.mem_append_left _ (Option.mem_toList.2 hpart))
      have hproperties : List.Forall₂ (Model.Rewritten rho) m.properties
          (m.properties.map (finishModel rho)) :=
        forall₂_map_of_forall fun part hpart => ih part (List.mem_append_right _ hpart)
      have hfinish : finishModel rho m =
          { m with
            base := if m.kind = .reference then rho m.base else m.base
            imports := Model.importsOf (m.redirect rho)
            link := m.link.map (finishModel rho)
            properties := m.properties.map (finishModel rho) } := by
        rw [finishModel, Model.refreshImports_eq, Model.redirect_eq]
        simp only [Option.map_map, List.map_map]
        rfl
      rw [hfinish]
      exact .mk m _ _ _ hlink hproperties

theorem rewritten_argument (rho : String → String) (a : Operation.Argument) :
    Operation.Argument.Rewritten rho a ((a.mapModel (Model.redirect rho)).mapModel
      Model.refreshImports) :=
  ⟨rewritten_finishModel rho a.model, rfl⟩

theorem rewritten_outcome (rho : String → String) (o : Operation.Outcome) :
    Operation.Outcome.Rewritten rho o ((o.mapModel (Model.redirect rho)).mapModel
      Model.refreshImports) :=
  ⟨rewritten_finishModel rho o.model, rfl⟩

theorem rewritten_arguments (rho : String → String) (arguments : List Operation.Argument) :
    List.Forall₂ (Operation.Argument.Rewritten rho) arguments
      ((arguments.map (·.mapModel (Model.redirect rho))).map
        (·.mapModel Model.refreshImports)) := by
  rw [List.map_map]
  exact forall₂_map_of_forall fun a _ => rewritten_argument rho a

theorem rewritten_outcomes (rho : String → String) (outcomes : List Operation.Outcome) :
    List.Forall₂ (Operation.Outcome.Rewritten rho) outcomes
      ((outcomes.map (·.mapModel (Model.redirect rho))).map (·.mapModel Model.refreshImports)) := by
  rw [List.map_map]
  exact forall₂_map_of_forall fun o _ => rewritten_outcome rho o

/-- A finished operation is the operation rewritten. -/
theorem rewritten_finishOperation (rho : String → String) (op : Operation) :
    Operation.Rewritten rho op (finishOperation rho op) where
  arguments := rewritten_arguments rho op.arguments
  pathArguments := rewritten_arguments rho op.pathArguments
  queryArguments := rewritten_arguments rho op.queryArguments
  headerArguments := rewritten_arguments rho op.headerArguments
  cookieArguments := rewritten_arguments rho op.cookieArguments
  bodyArgument := by
    have hmap : (finishOperation rho op).bodyArgument = op.bodyArgument.map fun a =>
        (a.mapModel (Model.redirect rho)).mapModel Model.refreshImports :=
      Option.map_map _ _ _
    rw [hmap]
    exact rel_map_of_forall fun a _ => rewritten_argument rho a
  outcomes := rewritten_outcomes rho op.outcomes
  successes := rewritten_outcomes rho op.successes
  failures := rewritten_outcomes rho op.failures
  name := .inl ⟨rfl, rfl⟩
  rest := rfl

/-- It is still rewritten when a number has been put behind its name. -/
theorem rewritten_numberOperation (rho : String → String) (op : Operation) {number : Nat}
    (h : 2 ≤ number) :
    Operation.Rewritten rho op (numberOperation number (finishOperation rho op)) :=
  have hop := rewritten_finishOperation rho op
  { hop with
    name := .inr ⟨number, h, rfl, rfl⟩
    rest := rfl }

/-- A finished service is the service rewritten. -/
theorem rewritten_finishService (rho : String → String) (s : Service) :
    Service.Rewritten rho s (finishService rho s) where
  operations := by
    rw [operations_finishService]
    have hnames := forall₂_distinguish [] (s.operations.map (finishOperation rho))
    rw [List.forall₂_map_left_iff] at hnames
    refine hnames.imp ?_
    rintro op op' (rfl | ⟨number, hge, rfl⟩)
    · exact rewritten_finishOperation rho op
    · exact rewritten_numberOperation rho op hge
  nodup_names := nodup_names_distinguish [] _
  rest := rfl

/-! ## One map for all names -/

/-- The lifted definitions take the names that a map gives to them, if the map gives each
provisional name the final name at the same position. -/
theorem nameModels_eq_map {models : List Model} {names : List String} {rho : String → String}
    (hlength : names.length = (provisionalNames models).length)
    (hrho : ∀ pair ∈ (provisionalNames models).zip names, rho pair.1 = pair.2)
    (hfixed : ∀ m ∈ fixedModels models, rho m.name = m.name) :
    nameModels models names = models.map fun m => withName m (rho m.name) := by
  induction models generalizing names with
  | nil => rfl
  | cons m models ih =>
      by_cases hm : m.isProvisional = true
      · have hcons : provisionalNames (m :: models) = m.name :: provisionalNames models := by
          simp [provisionalNames, liftedModels, hm]
        have hfixedCons : fixedModels (m :: models) = fixedModels models := by
          simp [fixedModels, hm]
        rw [hcons] at hlength hrho
        rw [hfixedCons] at hfixed
        cases names with
        | nil => cases hlength
        | cons name names =>
            have hname : rho m.name = name := hrho (m.name, name) List.mem_cons_self
            have hrest := ih (Nat.succ.inj hlength)
              (fun pair hpair => hrho pair (List.mem_cons_of_mem _ hpair)) hfixed
            simp [nameModels, hm, hrest, withName, hname]
      · have hcons : provisionalNames (m :: models) = provisionalNames models := by
          simp [provisionalNames, liftedModels, hm]
        have hfixedCons : fixedModels (m :: models) = m :: fixedModels models := by
          simp [fixedModels, hm]
        rw [hcons] at hlength hrho
        rw [hfixedCons] at hfixed
        have hname : withName m (rho m.name) = m := by
          rw [hfixed m List.mem_cons_self]
          cases m
          rfl
        have hrest := ih hlength hrho fun n hn => hfixed n (List.mem_cons_of_mem _ hn)
        simp [nameModels, hm, hrest, hname]

variable {c : Client}

/-- With different provisional names, each leads to the final name at its own position. -/
theorem target_eq_of_mem_zip (hdistinct : (provisionalNames c.models).Nodup)
    {pair : String × String}
    (hpair : pair ∈ (provisionalNames c.models).zip (liftedNames c.models)) :
    c.target pair.1 = pair.2 := by
  have hkeys : (((provisionalNames c.models).zip (liftedNames c.models)).map Prod.fst).Nodup := by
    rwa [List.map_fst_zip (Nat.le_of_eq (length_liftedNames c.models).symm)]
  have htarget := mem_zip_finalName_renames (List.of_mem_zip hpair).1
  exact congrArg Prod.snd (List.inj_on_of_nodup_map hkeys htarget hpair rfl)

/-- With different provisional names, every definition is renamed by the map that references are
redirected by. -/
theorem namedModels_eq_map (hdistinct : (provisionalNames c.models).Nodup) :
    namedModels c.models = c.models.map fun m => withName m (c.target m.name) := by
  refine nameModels_eq_map (length_liftedNames c.models)
    (fun pair hpair => target_eq_of_mem_zip hdistinct hpair) fun m hm => ?_
  apply finalName_renames_of_not_isProvisionalName
  exact not_isProvisionalName_of_mem_fixedNames (List.mem_map_of_mem hm)

/-- The map keeps the names of definitions apart. -/
theorem injOn_target (c : Client) :
    Set.InjOn c.target { name | name ∈ c.models.map (·.name) } := by
  have hcases : ∀ name ∈ c.models.map (·.name),
      name ∈ fixedNames c.models ∧ c.target name = name ∨
        name ∈ provisionalNames c.models ∧ c.target name ∈ liftedNames c.models := by
    intro name hname
    obtain ⟨m, hm, rfl⟩ := List.mem_map.1 hname
    by_cases hprovisional : m.isProvisional = true
    · have hmem : m.name ∈ provisionalNames c.models :=
        List.mem_map_of_mem (List.mem_filter.2 ⟨hm, hprovisional⟩)
      exact .inr ⟨hmem, finalName_renames_mem hmem⟩
    · have hmem : m.name ∈ fixedNames c.models :=
        List.mem_map_of_mem (List.mem_filter.2 ⟨hm, by simpa using hprovisional⟩)
      exact .inl ⟨hmem, finalName_renames_of_not_isProvisionalName
        (not_isProvisionalName_of_mem_fixedNames hmem)⟩
  -- A final name stands at one position only, and so leads back to one provisional name.
  have hvalues : (((provisionalNames c.models).zip (liftedNames c.models)).map
      Prod.snd).Nodup := by
    rw [List.map_snd_zip (Nat.le_of_eq (length_liftedNames c.models))]
    exact nodup_liftedNames _
  intro name hname other hother heq
  rcases hcases name hname with ⟨hfixed, hsame⟩ | ⟨hlifted, hfinal⟩
  · rcases hcases other hother with ⟨_, hsame'⟩ | ⟨_, hfinal'⟩
    · rw [← hsame, ← hsame', heq]
    · rw [← heq, hsame] at hfinal'
      exact absurd hfixed (not_mem_fixedNames_of_mem_liftedNames hfinal')
  · rcases hcases other hother with ⟨hfixed', hsame'⟩ | ⟨hlifted', _⟩
    · rw [heq, hsame'] at hfinal
      exact absurd hfixed' (not_mem_fixedNames_of_mem_liftedNames hfinal)
    · exact congrArg Prod.fst (List.inj_on_of_nodup_map hvalues
        (mem_zip_finalName_renames hlifted) (mem_zip_finalName_renames hlifted') heq)

/-- Finishing a client whose lifted definitions have different provisional names rewrites it by one
map on names. The map moves no other names and keeps the names of definitions apart; the models
and the services are permuted, and the operations of a service are not. -/
theorem finish_rewrites {c c' : Client} (hdistinct : (provisionalNames c.models).Nodup)
    (h : c.finish = .ok c') :
    ∃ rho : String → String,
      (∀ name, name ∉ provisionalNames c.models → rho name = name) ∧
      Set.InjOn rho { name | name ∈ c.models.map (·.name) } ∧
      (∃ models, List.Forall₂
          (fun m m' => Model.Rewritten rho { m with name := rho m.name } m') c.models models ∧
        c'.models.Perm models) ∧
      (∃ services, List.Forall₂ (Service.Rewritten rho) c.services services ∧
        c'.services.Perm services) ∧
      c'.version = c.version ∧ c'.server = c.server := by
  obtain ⟨_, rfl⟩ := finish_eq_ok_iff.1 h
  refine ⟨c.target, fun name hname => finalName_renames_of_not_mem hname,
    injOn_target c, ⟨_, ?_, models_finished_perm c⟩,
    ⟨_, ?_, services_finished_perm c⟩, rfl, rfl⟩
  · rw [namedModels_eq_map hdistinct, List.map_map]
    exact forall₂_map_of_forall fun m _ => rewritten_finishModel _ _
  · exact forall₂_map_of_forall fun s _ => rewritten_finishService _ s

/-- A client with a definition that refers to a lifted one. -/
def ownerClient : Client where
  version := "1"
  server := ""
  models :=
    [{ name := "Pet", kind := .interface, base := "any", isDefinition := true
       properties := [Model.reference "owner" "#schemas#Pet/owner"] },
     { name := "#schemas#Pet/owner", kind := .interface, base := "any", isDefinition := true
       origin := .inline ["Pet", "owner"] }]
  services := []

theorem finish_rewrites_ownerClient :
    ∃ rho : String → String, rho "Pet" = "Pet" ∧ rho "#schemas#Pet/owner" ≠ "Pet" ∧
      ∃ models, List.Forall₂
          (fun m m' => Model.Rewritten rho { m with name := rho m.name } m')
          ownerClient.models models ∧
        ownerClient.finished.models.Perm models := by
  have hfinish : ownerClient.finish = .ok ownerClient.finished :=
    finish_eq_ok_iff.2 ⟨by decide, rfl⟩
  obtain ⟨rho, hidentity, hinjective, hmodels, _⟩ :=
    finish_rewrites (c := ownerClient) (by decide) hfinish
  have hpet : rho "Pet" = "Pet" := hidentity "Pet" (by decide)
  refine ⟨rho, hpet, fun howner => ?_, hmodels⟩
  have hnames : ∀ name ∈ ["#schemas#Pet/owner", "Pet"],
      name ∈ ownerClient.models.map (·.name) := by decide
  have hsame : "#schemas#Pet/owner" = "Pet" :=
    hinjective (hnames _ (by decide)) (hnames _ (by decide)) (howner.trans hpet.symm)
  exact absurd hsame (by decide)

end Client

end TypedClient
