import TypedClient.Proofs.Client.OperationNames
import TypedClient.Proofs.Page.Statements

/-!
# Names in the scope of a service

The names that the module of a service brings into scope are those of the definitions, of the
runtime and of the validators that it imports, and those that it declares for its operations and
routes (`scope_perm`). Most of these families keep apart by how their names begin or end.
`NamesApart` lists the pairs that do not, and `nodup_scope_iff` says that there are no others.
-/

namespace TypedClient.Page

open Script
open Naming (StartsSmall StartsCapital)

/-- The names that the module of a service imports from the runtime. -/
def runtimeNames : Variation → List String
  | .reactHook => ["ApiRequestOptions", "OpenAPI", "request", "useRequest"]
  | .fastify => ["ApiRequestOptions", "OpenAPI", "request", "FastifyInstance", "RouteHandlerMethod"]

/-- The name of a validator. -/
def validatorName (name : String) : String := "validate" ++ name

/-- The name of the function that registers the routes of a service. -/
def registrarName (service : String) : String := "register" ++ service ++ "Routes"

/-- The names that the routes of a service go by. -/
def routeNames (service : String) : List String :=
  [service ++ "Routes", service ++ "Handlers", registrarName service]

/-- The names that are particular to a variation. -/
def variationNames (variation : Variation) (page : ServicePage) : List String :=
  match variation with
  | .reactHook => page.operations.map (·.hookName)
  | .fastify => routeNames page.name

/-- The names in the module of a service apart from those of definitions. -/
def localNames (variation : Variation) (page : ServicePage) : List String :=
  runtimeNames variation ++ (page.validators.map validatorName ++
    ((page.operations.map fun p => optionsName p.name) ++
      (page.operations.map (·.name) ++ variationNames variation page)))

/-! ## What is in scope -/

theorem flatMap_pair_perm {α β : Type} (f : α → β) (g : α → List β) (items : List α) :
    (items.flatMap fun a => f a :: g a).Perm (items.map f ++ items.flatMap g) := by
  induction items with
  | nil => exact .nil
  | cons a items ih =>
      rw [List.flatMap_cons, List.map_cons, List.flatMap_cons, List.cons_append, List.cons_append]
      refine .cons _ ?_
      exact (ih.append_left (g a)).trans (List.perm_append_comm_assoc _ _ _)

theorem scope_operationStatements (variation : Variation) (page : ServicePage) (p : OperationPage) :
    scope (operationStatements variation page p) =
      optionsName p.name :: p.name :: match variation with
        | .reactHook => [p.hookName]
        | .fastify => [] := by
  cases variation <;> rfl

theorem scope_definitionImports (page : ServicePage) :
    scope (definitionImports page) = page.imports ++ page.validators.map validatorName := by
  have himports (names : List String) : (names.flatMap fun name =>
      (Statement.importNames true [name] ("../models/" ++ name)).names) = names :=
    List.flatMap_singleton' names
  have hvalidators (names : List String) : (names.flatMap fun name =>
      (Statement.importDefault ("validate" ++ name) ("../validators/" ++ name)).names) =
        names.map validatorName :=
    List.map_eq_flatMap.symm
  rw [definitionImports, scope_append, scope, scope, List.flatMap_map, List.flatMap_map, himports,
    hvalidators]

/-- The names that all operations bring into scope. -/
theorem scope_operations_perm (variation : Variation) (page : ServicePage) :
    (scope (page.operations.flatMap (operationStatements variation page))).Perm
      ((page.operations.map fun p => optionsName p.name) ++ (page.operations.map (·.name) ++
        match variation with
        | .reactHook => page.operations.map (·.hookName)
        | .fastify => [])) := by
  rw [scope_flatMap]
  simp only [scope_operationStatements]
  refine (flatMap_pair_perm _ _ _).trans (.append_left _ ?_)
  refine (flatMap_pair_perm _ _ _).trans (.append_left _ ?_)
  cases variation with
  | reactHook => exact .of_eq List.map_eq_flatMap.symm
  | fastify => simp

/-- The names in scope, by what they are for. -/
theorem scope_perm (variation : Variation) (page : ServicePage) :
    (scope (serviceStatements variation page)).Perm
      (page.imports ++ localNames variation page) := by
  have hoperations := scope_operations_perm variation page
  cases variation with
  | reactHook =>
      rw [List.perm_iff_count] at hoperations ⊢
      intro name
      have hcount := hoperations name
      have hruntime : runtimeNames .reactHook =
        scope coreStatements ++
          scope [.importNames false ["useRequest"] "../core/requestReactHook"] := rfl
      have hblank : scope [.comment []] = [] := rfl
      simp only [serviceStatements, scope_append, scope_definitionImports, localNames, hruntime,
        variationNames, hblank, List.count_append, List.count_nil] at hcount ⊢
      omega
  | fastify =>
      rw [List.perm_iff_count] at hoperations ⊢
      intro name
      have hcount := hoperations name
      have hruntime : runtimeNames .fastify = scope coreStatements ++
          scope [.importNames true ["FastifyInstance", "RouteHandlerMethod"] "fastify",
            .comment []] := rfl
      have hroutes : scope (routeStatements page) = routeNames page.name := rfl
      have hblank : scope [.comment []] = [] := rfl
      simp only [serviceStatements, scope_append, scope_definitionImports, localNames, hruntime,
        variationNames, hblank, hroutes, List.count_append, List.count_nil] at hcount ⊢
      omega

/-! ## Families that keep apart -/

/-- Texts that end differently are different. -/
theorem append_ne_append {text other ending ending' : String}
    (h : ∀ cs cs', ending.toList.reverse ++ cs ≠ ending'.toList.reverse ++ cs') :
    text ++ ending ≠ other ++ ending' := by
  intro heq
  refine h text.toList.reverse other.toList.reverse ?_
  rw [← List.reverse_append, ← List.reverse_append, ← String.toList_append,
    ← String.toList_append, heq]

/-- The names of the runtime start with capitals, but for those of its functions. -/
theorem startsCapital_of_mem_runtimeNames {variation : Variation} :
    ∀ name ∈ runtimeNames variation, name ≠ "request" → name ≠ "useRequest" →
      StartsCapital name := by
  cases variation <;> decide

/-- No validator is named like a part of the runtime. -/
theorem validatorName_not_mem_runtimeNames (variation : Variation) (name : String) :
    validatorName name ∉ runtimeNames variation := by
  have hall : ∀ other ∈ runtimeNames variation, ¬ "validate".toList <+: other.toList := by
    cases variation <;> decide
  intro hmem
  exact hall _ hmem ⟨name.toList, String.toList_append.symm⟩

/-- No function that gathers a request is named like a part of the runtime. -/
theorem optionsName_not_mem_runtimeNames {name : String} (h : StartsSmall name)
    (variation : Variation) : optionsName name ∉ runtimeNames variation := by
  intro hmem
  have hend (other ending : String) (hending : ∀ cs cs', "Options".toList.reverse ++ cs ≠
      ending.toList.reverse ++ cs') : optionsName name ≠ other ++ ending :=
    append_ne_append hending
  refine (h.append "Options").ne (startsCapital_of_mem_runtimeNames _ hmem ?_ ?_) rfl
  · exact hend "re" "quest" (by simp)
  · exact hend "useRe" "quest" (by simp)

/-- Only the hook for an operation of that name is named like the function behind all hooks. -/
theorem hookOf_not_mem_runtimeNames {name : String} (h : StartsSmall name) (hne : name ≠ "request")
    (variation : Variation) : Operation.hookOf name ∉ runtimeNames variation := by
  have hall : ∀ other ∈ runtimeNames variation, "use".toList <+: other.toList →
      other = Operation.hookOf "request" := by
    cases variation <;> decide
  intro hmem
  have heq := hall _ hmem ⟨(Text.capitalize name).toList, String.toList_append.symm⟩
  have hrequest : StartsSmall "request" := ⟨'r', _, rfl, by decide, by decide⟩
  exact hne (h.capitalize_inj hrequest ((String.append_right_inj "use").1 heq))

/-- No part of the routes is named like a part of the runtime. -/
theorem disjoint_runtimeNames_routeNames (variation : Variation) (service : String) :
    (runtimeNames variation).Disjoint (routeNames service) := by
  have hall : ∀ other ∈ runtimeNames variation,
      ¬ "Routes".toList <:+ other.toList ∧ ¬ "Handlers".toList <:+ other.toList := by
    cases variation <;> decide
  have hends (text ending : String) : ending.toList <:+ (text ++ ending).toList :=
    ⟨text.toList, String.toList_append.symm⟩
  intro name hname hroute
  simp only [routeNames, List.mem_cons, List.not_mem_nil, or_false] at hroute
  rcases hroute with rfl | rfl | rfl
  · exact (hall _ hname).1 (hends service "Routes")
  · exact (hall _ hname).2 (hends service "Handlers")
  · exact (hall _ hname).1 (hends ("register" ++ service) "Routes")

/-- The names of the routes are different. -/
theorem nodup_routeNames {service : String} (h : StartsCapital service) :
    (routeNames service).Nodup := by
  have hregister : StartsSmall (registrarName service) := by
    have hsmall : StartsSmall "register" := ⟨'r', _, rfl, by decide, by decide⟩
    exact (hsmall.append service).append "Routes"
  have hends : service ++ "Routes" ≠ service ++ "Handlers" := append_ne_append (by simp)
  simp only [routeNames, List.nodup_cons, List.mem_cons, List.not_mem_nil, or_false, not_or,
    List.nodup_nil, and_true, not_false_eq_true]
  exact ⟨⟨hends, (hregister.ne (h.append _)).symm⟩, (hregister.ne (h.append _)).symm⟩

/-- Of the names of the routes only the last one starts with a small letter. -/
theorem eq_registrarName {service name : String} (hservice : StartsCapital service)
    (hname : StartsSmall name) (h : name ∈ routeNames service) : name = registrarName service := by
  simp only [routeNames, List.mem_cons, List.not_mem_nil, or_false] at h
  rcases h with rfl | rfl | h
  · exact absurd rfl (hname.ne (hservice.append _))
  · exact absurd rfl (hname.ne (hservice.append _))
  · exact h

theorem optionsName_not_mem_routeNames (name service : String) :
    optionsName name ∉ routeNames service := by
  have hroutes (other : String) : optionsName name ≠ other ++ "Routes" := append_ne_append (by simp)
  have hhandlers (other : String) : optionsName name ≠ other ++ "Handlers" :=
    append_ne_append (by simp)
  simp [routeNames, registrarName, hroutes, hhandlers]

/-- Validators are named neither like hooks nor like routes. -/
theorem validatorName_ne_hookOf (name other : String) :
    validatorName name ≠ Operation.hookOf other := by
  intro heq
  simpa [validatorName, Operation.hookOf] using congrArg String.toList heq

theorem validatorName_not_mem_routeNames (name : String) {service : String}
    (h : StartsCapital service) : validatorName name ∉ routeNames service := by
  have hsmall : StartsSmall (validatorName name) :=
    StartsSmall.append ⟨'v', _, rfl, by decide, by decide⟩ name
  intro hmem
  have heq := eq_registrarName h hsmall hmem
  simpa [validatorName, registrarName] using congrArg String.toList heq

/-! ## Families that may meet -/

/-- No name of a service is that of something else in its module. -/
structure NamesApart (options : Options) (s : Service) : Prop where
  /-- Definitions are named like nothing else in the module. -/
  imports : ∀ name ∈ s.imports, name ∉ localNames options.variation (ofService options s)
  /-- Operations are not named like functions of the runtime. -/
  runtime : ∀ op ∈ s.operations, op.name ∉ runtimeNames options.variation
  /-- Operations are not named like the helpers of others. -/
  helpers : ∀ op ∈ s.operations, ∀ other ∈ s.operations, op.name ≠ optionsName other.name
  /-- Neither operations nor their helpers are named like validators. -/
  validators : ∀ name ∈ (ofService options s).validators, ∀ op ∈ s.operations,
    validatorName name ≠ op.name ∧ validatorName name ≠ optionsName op.name
  /-- Hooks are named neither like operations nor like their helpers. -/
  hooks : options.variation = .reactHook → ∀ op ∈ s.operations, ∀ other ∈ s.operations,
    op.hookName ≠ other.name ∧ op.hookName ≠ optionsName other.name
  /-- Operations are not named like the function that registers the routes. -/
  routes : options.variation = .fastify → ∀ op ∈ s.operations, op.name ≠ registrarName s.name

section

variable {options : Options} {s : Service}

instance : Decidable (NamesApart options s) :=
  decidable_of_iff
    ((∀ name ∈ s.imports, name ∉ localNames options.variation (ofService options s)) ∧
      (∀ op ∈ s.operations, op.name ∉ runtimeNames options.variation) ∧
      (∀ op ∈ s.operations, ∀ other ∈ s.operations, op.name ≠ optionsName other.name) ∧
      (∀ name ∈ (ofService options s).validators, ∀ op ∈ s.operations,
        validatorName name ≠ op.name ∧ validatorName name ≠ optionsName op.name) ∧
      (options.variation = .reactHook → ∀ op ∈ s.operations, ∀ other ∈ s.operations,
        op.hookName ≠ other.name ∧ op.hookName ≠ optionsName other.name) ∧
      (options.variation = .fastify → ∀ op ∈ s.operations, op.name ≠ registrarName s.name))
    ⟨fun ⟨himports, hruntime, hhelpers, hvalidators, hhooks, hroutes⟩ =>
      ⟨himports, hruntime, hhelpers, hvalidators, hhooks, hroutes⟩,
      fun h => ⟨h.imports, h.runtime, h.helpers, h.validators, h.hooks, h.routes⟩⟩

theorem names_ofService (options : Options) (s : Service) :
    (ofService options s).operations.map (·.name) = s.operations.map (·.name) ∧
      (ofService options s).operations.map (·.hookName) = s.operations.map (·.hookName) ∧
      ((ofService options s).operations.map fun p => optionsName p.name) =
        s.operations.map fun op => optionsName op.name := by
  simp [ofService, ofOperation, Function.comp_def]

theorem optionsName_injective : Function.Injective optionsName := fun _ _ heq =>
  (String.append_left_inj "Options").1 heq

theorem validatorName_injective : Function.Injective validatorName := fun _ _ heq =>
  (String.append_right_inj "validate").1 heq

/-- Names by kind, those of each kind different and apart from the kinds after it. -/
theorem nodup_localNames_iff {variation : Variation} {page : ServicePage} :
    (localNames variation page).Nodup ↔
      ((runtimeNames variation).Nodup ∧ (page.validators.map validatorName).Nodup ∧
        (page.operations.map fun p => optionsName p.name).Nodup ∧
        (page.operations.map (·.name)).Nodup ∧ (variationNames variation page).Nodup) ∧
      (runtimeNames variation).Disjoint
        (page.validators.map validatorName ++ ((page.operations.map fun p => optionsName p.name) ++
          (page.operations.map (·.name) ++ variationNames variation page))) ∧
      (page.validators.map validatorName).Disjoint ((page.operations.map fun p => optionsName p.name) ++
          (page.operations.map (·.name) ++ variationNames variation page)) ∧
      (page.operations.map fun p => optionsName p.name).Disjoint
        (page.operations.map (·.name) ++ variationNames variation page) ∧
      (page.operations.map (·.name)).Disjoint (variationNames variation page) := by
  simp only [localNames, List.nodup_append']
  tauto

theorem hookName_mem_variationNames (hvariation : options.variation = .reactHook) {op : Operation}
    (hop : op ∈ s.operations) :
    op.hookName ∈ variationNames options.variation (ofService options s) := by
  rw [hvariation, variationNames, (names_ofService options s).2.1]
  exact List.mem_map_of_mem hop

theorem registrarName_mem_variationNames (hvariation : options.variation = .fastify) :
    registrarName s.name ∈ variationNames options.variation (ofService options s) := by
  rw [hvariation]
  simp [variationNames, routeNames, ofService]

/-- A module in which no name stands for two things keeps its names apart. -/
theorem namesApart_of_nodup
    (h : (scope (serviceStatements options.variation (ofService options s))).Nodup) :
    NamesApart options s := by
  obtain ⟨hcalls, hhooks, hhelpers⟩ := names_ofService options s
  rw [(scope_perm _ _).nodup_iff, List.nodup_append', nodup_localNames_iff, hcalls, hhelpers] at h
  obtain ⟨-, ⟨-, hruntime, hvalidators, hhelper, hcall⟩, himports⟩ := h
  simp only [List.disjoint_append_right] at hruntime hvalidators hhelper
  have hname {op : Operation} (hop : op ∈ s.operations) :
      op.name ∈ s.operations.map (·.name) := List.mem_map_of_mem hop
  have hoptions {op : Operation} (hop : op ∈ s.operations) :
      optionsName op.name ∈ s.operations.map fun op => optionsName op.name :=
    List.mem_map_of_mem hop
  constructor
  case imports => exact fun name hmem => himports hmem
  case runtime => exact fun op hop hmem => hruntime.2.2.1 hmem (hname hop)
  case helpers =>
    intro op hop other hother heq
    exact hhelper.1 (hoptions hother) (heq ▸ hname hop)
  case validators =>
    intro name hmem op hop
    have hvalidator := List.mem_map_of_mem (f := validatorName) hmem
    exact ⟨fun heq => hvalidators.2.1 hvalidator (heq ▸ hname hop),
      fun heq => hvalidators.1 hvalidator (heq ▸ hoptions hop)⟩
  case hooks =>
    intro hvariation op hop other hother
    have hhook := hookName_mem_variationNames hvariation hop
    exact ⟨fun heq => hcall (hname hother) (heq ▸ hhook),
      fun heq => hhelper.2 (hoptions hother) (heq ▸ hhook)⟩
  case routes =>
    intro hvariation op hop heq
    exact hcall (hname hop) (heq ▸ registrarName_mem_variationNames hvariation)

/-- What a module is particular for is kept apart from the rest of it. -/
theorem variationNames_apart (h : Client.Calls s) (hapart : NamesApart options s) :
    (variationNames options.variation (ofService options s)).Nodup ∧
      ∀ name ∈ variationNames options.variation (ofService options s),
        name ∉ runtimeNames options.variation ∧ (∀ other, validatorName other ≠ name) ∧
          ∀ op ∈ s.operations, optionsName op.name ≠ name ∧ op.name ≠ name := by
  cases hvariation : options.variation with
  | reactHook =>
      rw [variationNames, (names_ofService options s).2.1]
      refine ⟨h.nodup_hooks, List.forall_mem_map.2 fun op hop => ?_⟩
      obtain ⟨hsmall, hhook⟩ := h.callable op hop
      have hrequest : op.name ≠ "request" := by
        have hnot := hapart.runtime op hop
        rw [hvariation] at hnot
        rintro heq
        exact hnot (heq ▸ by decide)
      rw [hhook]
      refine ⟨hookOf_not_mem_runtimeNames hsmall hrequest _,
        fun other => validatorName_ne_hookOf other op.name, fun other hother => ?_⟩
      have hne := hapart.hooks hvariation op hop other hother
      exact hhook ▸ ⟨hne.2.symm, hne.1.symm⟩
  | fastify =>
      refine ⟨nodup_routeNames h.service, fun name hmem => ?_⟩
      refine ⟨fun hruntime => disjoint_runtimeNames_routeNames _ _ hruntime hmem, fun other heq =>
        validatorName_not_mem_routeNames other h.service (heq ▸ hmem),
      fun op hop => ⟨fun heq => ?_, fun heq => ?_⟩⟩
      · exact optionsName_not_mem_routeNames op.name s.name (heq ▸ hmem)
      · have hregistrar := eq_registrarName h.service (h.callable op hop).name (heq ▸ hmem)
        exact hapart.routes hvariation op hop hregistrar

/-- In the module of a service no name stands for two things exactly if its names are apart. -/
theorem nodup_scope_iff (h : Client.Calls s) :
    (scope (serviceStatements options.variation (ofService options s))).Nodup ↔
      NamesApart options s := by
  refine ⟨namesApart_of_nodup, fun hapart => ?_⟩
  obtain ⟨hcalls, -, hhelpers⟩ := names_ofService options s
  obtain ⟨hvariationNodup, hvariation⟩ := variationNames_apart h hapart
  have hhelpersNodup : (s.operations.map fun op => optionsName op.name).Nodup := by
    have hnodup := h.nodup.map optionsName_injective
    rwa [List.map_map] at hnodup
  rw [(scope_perm _ _).nodup_iff, List.nodup_append', nodup_localNames_iff, hcalls, hhelpers]
  refine ⟨h.imports, ⟨⟨?_, (Text.nodup_sortedNames _).map validatorName_injective, hhelpersNodup,
    h.nodup, hvariationNodup⟩, ?runtime, ?validators, ?helpers, ?calls⟩, fun name => hapart.imports name⟩
  · cases options.variation <;> decide
  case runtime =>
    simp only [List.disjoint_append_right]
    refine ⟨fun name hmem hvalidator => ?_, fun name hmem hhelper => ?_, fun name hmem hcall => ?_,
      fun name hmem hextra => (hvariation name hextra).1 hmem⟩
    · obtain ⟨other, -, rfl⟩ := List.mem_map.1 hvalidator
      exact validatorName_not_mem_runtimeNames _ other hmem
    · obtain ⟨op, hop, rfl⟩ := List.mem_map.1 hhelper
      exact optionsName_not_mem_runtimeNames (h.callable op hop).name _ hmem
    · obtain ⟨op, hop, rfl⟩ := List.mem_map.1 hcall
      exact hapart.runtime op hop hmem
  case validators =>
    simp only [List.disjoint_append_right]
    refine ⟨fun name hmem hhelper => ?_, fun name hmem hcall => ?_, fun name hmem hextra => ?_⟩
    all_goals obtain ⟨other, hother, rfl⟩ := List.mem_map.1 hmem
    · obtain ⟨op, hop, heq⟩ := List.mem_map.1 hhelper
      exact (hapart.validators other hother op hop).2 heq.symm
    · obtain ⟨op, hop, heq⟩ := List.mem_map.1 hcall
      exact (hapart.validators other hother op hop).1 heq.symm
    · exact (hvariation _ hextra).2.1 other rfl
  case helpers =>
    simp only [List.disjoint_append_right]
    refine ⟨fun name hmem hcall => ?_, fun name hmem hextra => ?_⟩
    all_goals obtain ⟨op, hop, rfl⟩ := List.mem_map.1 hmem
    · obtain ⟨other, hother, heq⟩ := List.mem_map.1 hcall
      exact hapart.helpers other hother op hop heq
    · exact ((hvariation _ hextra).2.2 op hop).1 rfl
  case calls =>
    intro name hmem hextra
    obtain ⟨op, hop, rfl⟩ := List.mem_map.1 hmem
    exact ((hvariation _ hextra).2.2 op hop).2 rfl

end

end TypedClient.Page
