import TypedClient.Emission.Category
import TypedClient.Proofs.Page.Context
import TypedClient.Template.Artifact

/-!
# What the templates import

Every template is checked with the forms of its context. So the specifiers of the modules are known
whatever the client is: the core imports modules of the core, a definition imports definitions, a
service also modules of the core and validators, and the index exports what the options enable
(`specifiers_core`, `specifiers_model`, `specifiers_service`, `specifiers_index`).
-/

namespace TypedClient.Page

open Template Script

/-- The modules of every core. -/
def sharedModules : List String :=
  ["OpenAPI", "ApiError", "ApiRequestOptions", "ApiResult", "request"]

/-- The modules of the core. -/
def coreModules (variation : Variation) : List String :=
  sharedModules ++ (if variation = .reactHook then ["requestReactHook"] else [])

/-- The modules that are not generated. -/
def packages : List String := ["react", "node-fetch", "fastify"]

/-- The specifiers of packages, and those of modules of the core as seen from a directory. -/
def corePatterns (stem : String) (modules : List String) : List Pattern :=
  packages.map (fun package => .fixed package.toList) ++
    modules.map fun module => .fixed (stem.toList ++ module.toList)

/-- The specifiers in the module of a definition. -/
def modelPatterns : List Pattern := [.named "./".toList .definition]

/-- The specifiers in the module of a service. -/
def servicePatterns (variation : Variation) : List Pattern :=
  corePatterns "../core/" (coreModules variation) ++
    [.named "../models/".toList .definition, .named "../validators/".toList .validator]

/-- The specifiers in the index. -/
def indexPatterns (variation : Variation) (schemas validators : Bool) : List Pattern :=
  corePatterns "./core/" (coreModules variation) ++
    [.named "./models/".toList .definition, .named "./services/".toList .module] ++
    (if schemas then [.named "./schemas/$".toList .definition] else []) ++
    (if validators then [.named "./validators/".toList .definition] else [])

/-! ## Checks

The texts of a template are spelled out before it is evaluated. -/

theorem isChecked_core {variation : Variation} {file : String × Artifact}
    (h : file ∈ Emission.coreFiles variation) :
    isChecked coreFields (spellAll file.2.nodes) (corePatterns "./" sharedModules) = true := by
  simp only [Emission.coreFiles, List.mem_append, List.mem_cons, List.not_mem_nil, or_false,
    List.mem_ite_nil_right] at h
  rcases h with (rfl | rfl | rfl | rfl | rfl) | ⟨-, rfl⟩ <;>
    simp only [Artifact.nodes, settings, apiError, requestOptions, apiResult, Template.request,
      requestHook, spellAll, Node.spell, lines, String.toList_intercalate, List.map,
      -String.reduceToList, corePatterns, packages, sharedModules] <;>
    repeat rw [String.toList_ofList]
  all_goals decide +kernel

theorem isChecked_model :
    isChecked ModelPage.fields (spellAll Template.model) modelPatterns = true := by
  simp only [Template.model, importType, docComment, enumMember, property, spellAll, Node.spell,
    String.toList_append, -String.reduceToList, modelPatterns]
  repeat rw [String.toList_ofList]
  decide +kernel

theorem isChecked_service (variation : Variation) :
    isChecked ServicePage.fields (spellAll (Emission.serviceArtifact variation).nodes)
      (servicePatterns variation) = true := by
  cases variation <;>
    simp only [Emission.serviceArtifact, Artifact.nodes, reactHookService, fastifyService,
      serviceImports, coreImports, importType, optionsFunction, requestFunction, hookFunction,
      routes, Template.sentFields, docComment, List.cons_append, List.nil_append, spellAll,
      Node.spell, lines, String.toList_intercalate, List.map, String.toList_append,
      -String.reduceToList, servicePatterns, corePatterns, packages, coreModules, sharedModules] <;>
    repeat rw [String.toList_ofList]
  all_goals decide +kernel

theorem isChecked_index (variation : Variation) (schemas validators : Bool) :
    isChecked (indexFields variation schemas validators) (spellAll Template.index)
      (indexPatterns variation schemas validators) = true := by
  simp only [Template.index, coreExports, exportModel, spellAll, Node.spell, lines,
    String.toList_intercalate, List.map, String.toList_append, -String.reduceToList, indexPatterns,
    corePatterns, packages, coreModules, sharedModules]
  repeat rw [String.toList_ofList]
  cases variation <;> cases schemas <;> cases validators <;> decide +kernel

/-! ## Specifiers -/

variable {options : Options} {c : Client} {text : String} {specifier : String}

theorem render?_of_render {artifact : Artifact} {context : Json}
    (h : artifact.render context = .ok text) : render? artifact.nodes context = some text := by
  unfold Artifact.render at h
  split at h
  · rename_i found hfound
    rw [hfound, Except.ok.inj h]
  · cases h

/-- A module of the core imports packages and modules of every core. -/
theorem specifiers_core {file : String × Artifact}
    (hfile : file ∈ Emission.coreFiles options.variation)
    (hrender : file.2.render (coreContext options c) = .ok text)
    (hspecifier : specifier ∈ specifiers text) :
    ∃ pattern ∈ corePatterns "./" sharedModules,
      pattern.Matches (c.names options) specifier.toList :=
  (specifiers_of_isChecked (isChecked_core hfile) (fits_coreContext options c)
    (render?_of_render hrender)).2 specifier hspecifier

/-- What is laid out has the specifiers of what is rendered. -/
theorem specifiers_layout_of_isChecked {fields : List (String × Form)} {nodes : List Node}
    {allowed : List Pattern} {names : Names} (h : isChecked fields (spellAll nodes) allowed = true)
    {context : Json} (hfits : Form.Fits names (.record fields) context)
    (hrender : render? nodes context = some text)
    (hspecifier : specifier ∈ specifiers (layout text)) :
    ∃ pattern ∈ allowed, pattern.Matches names specifier.toList := by
  obtain ⟨hbroken, hspecifiers⟩ := specifiers_of_isChecked h hfits hrender
  rw [specifiers_layout hbroken] at hspecifier
  exact hspecifiers specifier hspecifier

theorem specifiers_model (hc : c.Coherent) {m : Model} (hm : m ∈ c.models)
    (hrender : Artifact.model.render (ofModel options m).context = .ok text)
    (hspecifier : specifier ∈ specifiers (layout text)) :
    ∃ pattern ∈ modelPatterns, pattern.Matches (c.names options) specifier.toList :=
  specifiers_layout_of_isChecked isChecked_model (fits_ofModel hc hm) (render?_of_render hrender)
    hspecifier

theorem specifiers_service (hc : c.Coherent) {s : Service} (hs : s ∈ c.services)
    (hplain : ∀ op ∈ s.operations, op.IsPlain options.throwOnRequestFailed)
    (hrender : (Emission.serviceArtifact options.variation).render (ofService options s).context =
      .ok text) (hspecifier : specifier ∈ specifiers (layout text)) :
    ∃ pattern ∈ servicePatterns options.variation,
      pattern.Matches (c.names options) specifier.toList :=
  specifiers_layout_of_isChecked (isChecked_service options.variation) (fits_ofService hc hs hplain)
    (render?_of_render hrender) hspecifier

theorem specifiers_index (hc : c.Coherent)
    (hrender : Artifact.index.render (indexContext options c) = .ok text)
    (hspecifier : specifier ∈ specifiers (layout text)) :
    ∃ pattern ∈ indexPatterns options.variation options.exportSchemas options.precompileValidator,
      pattern.Matches (c.names options) specifier.toList :=
  specifiers_layout_of_isChecked (isChecked_index _ _ _) (fits_indexContext hc)
    (render?_of_render hrender) hspecifier

end TypedClient.Page
