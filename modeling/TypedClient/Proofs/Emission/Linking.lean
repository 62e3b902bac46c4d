import TypedClient.Proofs.Emission.Completion
import TypedClient.Proofs.Emission.ServiceScope
import TypedClient.Proofs.Emission.ValidatorFiles
import TypedClient.Proofs.Files.Specifier
import TypedClient.Proofs.Model.JsonSchema
import TypedClient.Proofs.Page.Specifiers

/-!
# Modules that find each other

The modules of a client import each other by relative specifiers, and its JSON Schemas refer to each
other by identifiers. After a successful run for a document whose references all end in components
(`generate_linked`), the specifiers in the core and in the definitions name files that are there,
and every schema is one that a definition has and refers to such only. Those in the index do so too,
but for validators that are removed as inputs of their compiler (`NamesRemoved`). For the module of
a service the operations have to be plain besides: a reason that ends the comment in which it is
listed may go on with any import (`not_links_endedDocument`).

The proof rests on what the templates let through (`specifiers_model` and the like), on references
of the client that end in its definitions (`Client.Coherent`), and on a run that leaves a file for
every job (`Complete`).
-/

namespace TypedClient

namespace Emission

open Files Files.Path Files.Tree Page Script Template
open Document (RefOr)

/-- Every relative specifier of a module names a file that is there, as seen from the directory of
the module. -/
def Links (t : Tree) (dir : Path) (text : String) : Prop :=
  ∀ specifier ∈ specifiers text, IsRelative specifier → t.NamesFile dir specifier

/-- Whatever file stands below a directory is a module, and its relative specifiers name files. -/
def LinksBelow (t : Tree) (dir : Path) : Prop :=
  ∀ q contents, dir <+: q → t.entry? q = some (.file contents) →
    ∃ text, contents = .text text ∧ Links t (Path.parent q) text

/-- A specifier behind `stem` is for a validator whose module goes by the name of an input of the
compiler. -/
def NamesRemoved (options : Options) (c : Client) (stem specifier : String) : Prop :=
  options.precompileValidator = true ∧
    ∃ model ∈ c.models, validatorFile model ∈ inputFiles c ∧ specifier = stem ++ model.name

/-- Every relative specifier of a module names a file that is there, or a validator behind `stem`
that was removed. -/
def LinksKept (options : Options) (c : Client) (stem : String) (t : Tree) (dir : Path)
    (text : String) : Prop :=
  ∀ specifier ∈ specifiers text, IsRelative specifier →
    t.NamesFile dir specifier ∨ NamesRemoved options c stem specifier

variable {m : Machine} {options : Options} {c : Client} {names : List String} {t : Tree}

/-! ## Ways between categories -/

theorem location_join_here (names : List String) :
    ((place names).join (parse ".")).location = place names := by
  have hparse : parse "." = [] := by decide
  rw [hparse, join_nil, location_place]

theorem location_join_down (names : List String) (category : Category) :
    ((place names).join (parse ("./" ++ category.directory))).location =
      place (names ++ [category.directory]) := by
  have hparse : parse ("./" ++ category.directory) = Path.entry [] category.directory := by
    cases category <;> decide
  rw [hparse]
  refine location_join_name _ _ _ _ ?_
  rw [join_nil, location_place]

theorem location_join_across (names : List String) (here : String) (category : Category) :
    ((place (names ++ [here])).join (parse ("../" ++ category.directory))).location =
      place (names ++ [category.directory]) := by
  have hparse : parse ("../" ++ category.directory) = Path.entry [.up] category.directory := by
    cases category <;> decide
  rw [hparse]
  exact location_join_name _ _ _ _ (location_join_up names here)

/-! ## Modules that are there -/

namespace Complete

/-- The file of every job is a module. -/
theorem hasModule (hc : c.FileNames) (h : Complete m options c names t) (category : Category)
    (henabled : category.isEnabled options = true) (hother : category ≠ .validators) {job : Job}
    (hjob : job ∈ jobs m options c category) {name : String} (hfile : job.file = name ++ ".ts") :
    t.HasModule (names ++ [category.directory]) name := by
  obtain ⟨text, -, hentry⟩ := (h.filled category henabled hother).files job hjob
  have hplain := (proper_of_mem_jobs hc category job hjob).plain
  rw [hfile] at hentry hplain
  exact ⟨".ts", List.mem_cons_self, hplain, .text text, hentry⟩

variable (hc : c.FileNames) (h : Complete m options c names t)
include hc h

theorem hasModule_core (hcore : options.exportCore = true) {module : String}
    (hmodule : module ∈ coreModules options.variation) :
    t.HasModule (names ++ [Category.core.directory]) module := by
  have hfiles : ∀ variation, ∀ module ∈ coreModules variation, ∃ file ∈ coreFiles variation,
      file.1 = module ++ ".ts" := by
    rintro (_ | _) <;> decide
  obtain ⟨file, hfile, hname⟩ := hfiles _ module hmodule
  exact hasModule hc h .core hcore (by decide) (List.mem_map_of_mem hfile) hname

theorem hasModule_services (hservices : options.exportServices = true) {name : String}
    (hname : name ∈ c.services.map serviceModule) :
    t.HasModule (names ++ [Category.services.directory]) name := by
  obtain ⟨service, hservice, rfl⟩ := List.mem_map.1 hname
  exact hasModule hc h .services hservices (by decide) (List.mem_map_of_mem hservice) rfl

theorem hasModule_schemas (hschemas : options.exportSchemas = true) {name : String}
    (hname : name ∈ c.models.map (·.name)) :
    t.HasModule (names ++ [Category.schemas.directory]) ("$" ++ name) := by
  obtain ⟨model, hmodel, rfl⟩ := List.mem_map.1 hname
  exact hasModule hc h .schemas hschemas (by decide) (List.mem_map_of_mem hmodel) rfl

theorem hasModule_models (hmodels : options.exportModels = true) {name : String}
    (hname : name ∈ c.models.map (·.name)) :
    t.HasModule (names ++ [Category.models.directory]) name := by
  obtain ⟨model, hmodel, rfl⟩ := List.mem_map.1 hname
  exact hasModule hc h .models hmodels (by decide) (List.mem_map_of_mem hmodel) rfl

/-- A validator is there, unless its module goes by the name of an input. -/
theorem hasModule_validators (hvalidators : options.precompileValidator = true) {model : Model}
    (hmodel : model ∈ c.models) (hkept : validatorFile model ∉ inputFiles c) :
    t.HasModule (names ++ [Category.validators.directory]) model.name := by
  have hleaves := h.leaves .validators hvalidators
  rw [Leaves, if_pos rfl, map_file_validatorJobs] at hleaves
  obtain ⟨contents, hentry⟩ := hleaves model hmodel hkept
  have hplain := isPlain_around (hc.models_slash model hmodel) "" ".js"
    (by decide) (by decide) (by decide)
  rw [String.empty_append] at hplain
  exact ⟨".js", List.mem_cons_of_mem _ List.mem_cons_self, hplain, contents, hentry⟩

end Complete

/-! ## Specifiers -/

/-- What a pattern lets through is named by the directory of the names it is for. -/
theorem namesFile_of_named {dir : Path} {way : List String} {stem specifier : String}
    (lead : String) {role : Role} {known : Names}
    (hmatches : (Pattern.named stem.toList role).Matches known specifier.toList)
    (hstem : stem = lead ++ "/") (hlead : lead.toList ≠ [])
    (hway : (dir.join (parse lead)).location = place way)
    (h : ∀ name, known role name → t.HasModule way name) : t.NamesFile dir specifier := by
  obtain ⟨name, hname, heq⟩ := hmatches
  exact namesFile_of_toList heq hstem hlead hway (h name hname)

/-- What is imported from the core is there, and packages are not relative. -/
theorem namesFile_of_corePatterns {dir : Path} (lead : String) {modules : List String}
    (hlead : lead.toList ≠ [])
    (hway : (dir.join (parse lead)).location = place (names ++ [Category.core.directory]))
    (hmodules : ∀ module ∈ modules, t.HasModule (names ++ [Category.core.directory]) module)
    {pattern : Pattern} (hpattern : pattern ∈ corePatterns (lead ++ "/") modules)
    {known : Names} {specifier : String} (hmatches : pattern.Matches known specifier.toList)
    (hrelative : IsRelative specifier) : t.NamesFile dir specifier := by
  rcases List.mem_append.1 hpattern with hpattern | hpattern
  · obtain ⟨package, hpackage, rfl⟩ := List.mem_map.1 hpattern
    have hpackages : ∀ package ∈ packages, package.toList.head? ≠ some '.' := by decide
    have heq : specifier.toList = package.toList := hmatches
    exact absurd (heq ▸ hrelative) (hpackages package hpackage)
  · obtain ⟨module, hmodule, rfl⟩ := List.mem_map.1 hpattern
    exact namesFile_of_toList hmatches rfl hlead hway (hmodules module hmodule)

/-- What is imported from the validators is there, or was removed. -/
theorem namesFile_or_namesRemoved (hc : c.FileNames) (h : Complete m options c names t)
    {dir : Path} (lead : String) {stem specifier name : String}
    (hspecifier : specifier.toList = stem.toList ++ name.toList) (hstem : stem = lead ++ "/")
    (hlead : lead.toList ≠ [])
    (hway : (dir.join (parse lead)).location = place (names ++ [Category.validators.directory]))
    (hvalidators : options.precompileValidator = true) (hname : name ∈ c.models.map (·.name)) :
    t.NamesFile dir specifier ∨ NamesRemoved options c stem specifier := by
  obtain ⟨model, hmodel, rfl⟩ := List.mem_map.1 hname
  by_cases hremoved : validatorFile model ∈ inputFiles c
  · rw [← String.toList_append] at hspecifier
    exact .inr ⟨hvalidators, model, hmodel, hremoved, String.toList_injective hspecifier⟩
  · exact .inl (namesFile_of_toList hspecifier hstem hlead hway
      (h.hasModule_validators hc hvalidators hmodel hremoved))

/-! ## Modules that link -/

section Links

variable (hrender : m.render = Artifact.render) (hformat : m.format = Script.layout)
  (hc : c.FileNames) (hcoherent : c.Coherent) (h : Complete m options c names t)

include hrender in
/-- What is laid out was rendered from the template. -/
theorem exists_render_of_map_format (hformat : m.format = Script.layout) {artifact : Artifact}
    {context : Json} {text : String}
    (htext : (m.render artifact context).map m.format = .ok text) :
    ∃ raw, artifact.render context = .ok raw ∧ text = layout raw := by
  rw [hrender, hformat] at htext
  cases hraw : artifact.render context with
  | error e => rw [hraw] at htext; cases htext
  | ok raw =>
      rw [hraw] at htext
      exact ⟨raw, rfl, (Except.ok.inj htext).symm⟩

include hrender hc h in
theorem linksBelow_core (hcore : options.exportCore = true) :
    LinksBelow t (place (names ++ [Category.core.directory])) := by
  intro q contents hq hentry
  obtain ⟨job, hjob, text, htext, rfl, rfl⟩ :=
    (h.filled .core hcore (by decide)).exists_of_file hq hentry
  obtain ⟨file, hfile, rfl⟩ := List.mem_map.1 hjob
  refine ⟨text, rfl, fun specifier hspecifier hrelative => ?_⟩
  rw [hrender] at htext
  obtain ⟨pattern, hpattern, hmatches⟩ := specifiers_core hfile htext hspecifier
  rw [parent_place]
  refine namesFile_of_corePatterns "." (by decide) (location_join_here _)
    (fun module hmodule => ?_) hpattern hmatches hrelative
  exact h.hasModule_core hc hcore (List.mem_append_left _ hmodule)

include hrender hformat hc hcoherent h in
theorem linksBelow_models (hmodels : options.exportModels = true) :
    LinksBelow t (place (names ++ [Category.models.directory])) := by
  intro q contents hq hentry
  obtain ⟨job, hjob, text, htext, rfl, rfl⟩ :=
    (h.filled .models hmodels (by decide)).exists_of_file hq hentry
  obtain ⟨model, hmodel, rfl⟩ := List.mem_map.1 hjob
  obtain ⟨raw, hraw, rfl⟩ := exists_render_of_map_format hrender hformat htext
  refine ⟨_, rfl, fun specifier hspecifier _ => ?_⟩
  obtain ⟨pattern, hpattern, hmatches⟩ := specifiers_model hcoherent hmodel hraw hspecifier
  obtain rfl := List.mem_singleton.1 hpattern
  rw [parent_place]
  exact namesFile_of_named "." hmatches (by decide) (by decide) (location_join_here _)
    fun name hname => h.hasModule_models hc hmodels hname

variable (hcore : options.exportCore = true) (hmodels : options.exportModels = true)
  (hservices : options.exportServices = true)

include hrender hformat hc hcoherent h hcore hmodels hservices

theorem links_index :
    ∃ text, t.entry? (place (names ++ [indexFile])) = some (.file (.text text)) ∧
      LinksKept options c "./validators/" t (place names) text := by
  have hany : options.anyCategory = true :=
    anyCategory_of_isEnabled (show Category.core.isEnabled options = true from hcore)
  obtain ⟨raw, hraw, hentry⟩ := h.index hany
  rw [hrender] at hraw
  refine ⟨_, hentry, fun specifier hspecifier hrelative => ?_⟩
  rw [hformat] at hspecifier
  obtain ⟨pattern, hpattern, hmatches⟩ := specifiers_index hcoherent hraw hspecifier
  simp only [indexPatterns, List.mem_append, List.mem_cons, List.not_mem_nil, or_false,
    List.mem_ite_nil_right] at hpattern
  rcases hpattern with ((hcorePattern | rfl | rfl) | ⟨hschemas, rfl⟩) | ⟨hvalidators, rfl⟩
  · exact .inl <| namesFile_of_corePatterns "./core" (by decide) (location_join_down names .core)
      (fun module hmodule => h.hasModule_core hc hcore hmodule) hcorePattern hmatches hrelative
  · exact .inl <| namesFile_of_named "./models" hmatches (by decide) (by decide)
      (location_join_down names .models) fun name hname => h.hasModule_models hc hmodels hname
  · exact .inl <| namesFile_of_named "./services" hmatches (by decide) (by decide)
      (location_join_down names .services)
      fun name hname => h.hasModule_services hc hservices hname
  · obtain ⟨name, hname, heq⟩ := hmatches
    have hmarked : specifier.toList = "./schemas/".toList ++ ("$" ++ name).toList := by
      have hstem : "./schemas/$" = "./schemas/" ++ "$" := by decide
      rw [heq, hstem, String.toList_append, String.toList_append, List.append_assoc]
    exact .inl <| namesFile_of_toList hmarked (by decide) (by decide)
      (location_join_down names .schemas) (h.hasModule_schemas hc hschemas hname)
  · obtain ⟨name, hname, heq⟩ := hmatches
    exact namesFile_or_namesRemoved hc h "./validators" heq (by decide) (by decide)
      (location_join_down names .validators) hvalidators hname

theorem links_services {q : Path} {contents : Contents}
    (hq : place (names ++ [Category.services.directory]) <+: q)
    (hentry : t.entry? q = some (.file contents)) :
    ∃ service ∈ c.services,
      q = place (names ++ [Category.services.directory] ++ [serviceModule service ++ ".ts"]) ∧
      ∃ text, contents = .text text ∧
        ((∀ op ∈ service.operations, op.IsPlain options.throwOnRequestFailed) →
          LinksKept options c "../validators/" t (Path.parent q) text) := by
  obtain ⟨job, hjob, text, htext, rfl, rfl⟩ :=
    (h.filled .services hservices (by decide)).exists_of_file hq hentry
  obtain ⟨service, hservice, rfl⟩ := List.mem_map.1 hjob
  obtain ⟨raw, hraw, rfl⟩ := exists_render_of_map_format hrender hformat htext
  refine ⟨service, hservice, rfl, _, rfl, fun hplain specifier hspecifier hrelative => ?_⟩
  obtain ⟨pattern, hpattern, hmatches⟩ :=
    specifiers_service hcoherent hservice hplain hraw hspecifier
  rw [parent_place]
  simp only [servicePatterns, List.mem_append, List.mem_cons, List.not_mem_nil, or_false]
    at hpattern
  rcases hpattern with hcorePattern | rfl | rfl
  · exact .inl <| namesFile_of_corePatterns "../core" (by decide)
      (location_join_across names _ .core) (fun module hmodule => h.hasModule_core hc hcore hmodule)
      hcorePattern hmatches hrelative
  · exact .inl <| namesFile_of_named "../models" hmatches (by decide) (by decide)
      (location_join_across names _ .models)
      fun name hname => h.hasModule_models hc hmodels hname
  · obtain ⟨name, ⟨hvalidators, hname⟩, heq⟩ := hmatches
    exact namesFile_or_namesRemoved hc h "../validators" heq (by decide) (by decide)
      (location_join_across names _ .validators) hvalidators hname

end Links

/-! ## Schemas that refer to each other -/

/-- The module of the JSON Schema of a definition. -/
def schemaModule (model : Model) : String :=
  "export const $" ++ model.name ++ " = " ++ model.definitionSchema.pretty ++ " as const;\n"

theorem render_schema (model : Model) :
    Artifact.schema.render (schemaContext model) = .ok (schemaModule model) := by
  have hname : Env.lookup? { context := schemaContext model } ["name"] =
    some (.string model.name) := rfl
  have hschema : Env.lookup? { context := schemaContext model } ["schema"] =
    some (.string model.schemaSource) := rfl
  have htext : render? Artifact.schema.nodes (schemaContext model) =
      some (schemaModule model) := by
    change renderAll? { context := schemaContext model } Template.schema = _
    -- The equation of a text that begins with a literal is slow to make.
    delta schemaModule
    simp only [Template.schema, renderAll?_text, renderAll?_value hname, renderAll?_value hschema,
      renderAll?_nil, Option.map_some, valueText, Model.schemaSource, String.append_assoc,
      String.append_empty]
  rw [Artifact.render, htext]

/-- What the schema of a definition refers to is the identifier of another one. -/
theorem refersOnlyTo_identifiers (hcoherent : c.Coherent) {model : Model}
    (hmodel : model ∈ c.models) :
    model.definitionSchema.RefersOnlyTo fun target =>
      ∃ other ∈ c.models, other.definitionSchema.member? "$id" = some target := by
  refine Model.refersOnlyTo_definitionSchema fun name hname => ?_
  obtain ⟨other, hother, rfl⟩ :=
    List.mem_map.1 (hcoherent.references model (List.mem_append_left _ hmodel) name hname)
  exact ⟨other, hother, other.member?_id_definitionSchema⟩

/-- The directory of the schemas holds those of the definitions. -/
theorem file_schemas_iff (hrender : m.render = Artifact.render) (h : Complete m options c names t)
    (hschemas : options.exportSchemas = true) {q : Path} {contents : Contents}
    (hq : place (names ++ [Category.schemas.directory]) <+: q) :
    t.entry? q = some (.file contents) ↔ ∃ model ∈ c.models, contents = .text (schemaModule model) ∧
      q = place (names ++ [Category.schemas.directory] ++ ["$" ++ model.name ++ ".ts"]) := by
  have hfilled := h.filled .schemas hschemas (by decide)
  constructor
  · intro hentry
    obtain ⟨job, hjob, text, htext, rfl, rfl⟩ := hfilled.exists_of_file hq hentry
    obtain ⟨model, hmodel, rfl⟩ := List.mem_map.1 hjob
    rw [hrender, render_schema] at htext
    exact ⟨model, hmodel, congrArg Contents.text (Except.ok.inj htext).symm, rfl⟩
  · rintro ⟨model, hmodel, rfl, rfl⟩
    obtain ⟨text, htext, hentry⟩ := hfilled.files _ (List.mem_map_of_mem hmodel)
    rw [hrender, render_schema] at htext
    rw [Except.ok.inj htext]
    exact hentry

/-! ## Whole runs -/

/-- The modules that a run leaves in its output directory find each other, but for validators that
are removed as inputs, and for what a service takes over from its document without a change. -/
structure Linked (options : Options) (c : Client) (out : Path) (t : Tree) : Prop where
  core : LinksBelow t (out.entry Category.core.directory)
  models : LinksBelow t (out.entry Category.models.directory)
  index : ∃ text, t.entry? (out.entry indexFile) = some (.file (.text text)) ∧
    LinksKept options c "./validators/" t out text
  services : ∀ q contents,
    out.entry Category.services.directory <+: q → t.entry? q = some (.file contents) →
      ∃ service ∈ c.services,
        q = (out.entry Category.services.directory).entry (serviceModule service ++ ".ts") ∧
        ∃ text, contents = .text text ∧
          ((∀ op ∈ service.operations, op.IsPlain options.throwOnRequestFailed) →
            LinksKept options c "../validators/" t (Path.parent q) text)

/-- The JSON Schemas that a run leaves refer to each other. -/
structure SchemasLinked (options : Options) (c : Client) (out : Path) (t : Tree) : Prop where
  files : options.exportSchemas = true → ∀ q contents,
    out.entry Category.schemas.directory <+: q →
      (t.entry? q = some (.file contents) ↔
        ∃ model ∈ c.models, contents = .text (schemaModule model) ∧
          q = (out.entry Category.schemas.directory).entry ("$" ++ model.name ++ ".ts"))
  references : ∀ model ∈ c.models, model.definitionSchema.RefersOnlyTo fun target =>
    ∃ other ∈ c.models, other.definitionSchema.member? "$id" = some target

variable {s u : State}

/-- Whatever document with references to components, options and machine a run is for, if it
succeeds, then the modules that it leaves find each other, and so do the schemas. -/
theorem generate_linked {tree : Json} {document : Document}
    (hrender : m.render = Artifact.render) (hformat : m.format = Script.layout)
    (hhere : m.workingDirectory.WellFormed) (hs : s.tree.WellFormed)
    (hdecode : Document.decode tree = .ok document) (href : document.ReferencesResolve)
    (hwrite : options.write = true) (hcore : options.exportCore = true)
    (hservices : options.exportServices = true) (hmodels : options.exportModels = true)
    (hrequest : options.request = none)
    (hcompiler : options.precompileValidator = true →
      CompilerFits m options c (outputDirectory m options))
    (hrun : execute (generate tree options) m s = (.ok c, u)) :
    Linked options c (outputDirectory m options).location u.tree ∧
      SchemasLinked options c (outputDirectory m options).location u.tree := by
  obtain ⟨names, houtput⟩ := exists_straight_outputDirectory hhere options
  obtain ⟨hclient, -, hparts⟩ := (execute_generate_eq_ok_iff_writeParts hwrite hrequest).1 hrun
  have hc := Client.fileNames_of_ofTree hclient
  have hcoherent := Client.coherent_of_ofTree hdecode href hclient
  have h := complete_writeParts hc houtput hs hcompiler hparts
  rw [houtput.location_eq]
  constructor
  · constructor
    case core =>
      rw [entry_place]
      exact linksBelow_core hrender hc h hcore
    case models =>
      rw [entry_place]
      exact linksBelow_models hrender hformat hc hcoherent h hmodels
    case index =>
      rw [entry_place]
      exact links_index hrender hformat hc hcoherent h hcore hmodels hservices
    case services =>
      intro q contents hq hentry
      rw [entry_place] at hq
      simp only [entry_place]
      exact links_services hrender hformat hc hcoherent h hcore hmodels hservices hq hentry
  · constructor
    case files =>
      intro hschemas q contents hq
      rw [entry_place] at hq
      simp only [entry_place]
      exact file_schemas_iff hrender h hschemas hq
    case references => exact fun model hmodel => refersOnlyTo_identifiers hcoherent hmodel

/-! ## A run that links everything -/

/-- A validator compiler for a client with the definition `Node` alone. -/
def writeNode : Program := fun dir u =>
  match u.writeFile (dir.entry "Node.js") (.text "export default () => true;\n") with
  | .ok v => (v, 0)
  | .error _ => (u, 1)

theorem compilesValidators_writeNode {dir : Path} (hdir : Straight dir names)
    (hmodels : c.models.map (·.name) = ["Node"]) : CompilesValidators writeNode dir c := by
  have hresult : ∀ u : Tree, writeNode dir u = (u, 1) ∨ ∃ v, writeNode dir u = (v, 0) ∧
      Written u v names "Node.js" (.text "export default () => true;\n") := by
    intro u
    unfold writeNode
    split
    · rename_i v hwrite
      exact .inr ⟨v, rfl, written_of_writeFile hdir hwrite⟩
    · exact .inl rfl
  constructor
  case wellFormed =>
    intro u hu
    obtain heq | ⟨v, heq, hwritten⟩ := hresult u <;> rw [heq]
    · exact hu
    · exact hwritten.wellFormed hu
  case outside =>
    intro u q hq
    obtain heq | ⟨v, heq, hwritten⟩ := hresult u <;> rw [heq]
    refine hwritten.others q ?_
    rintro rfl
    exact hq (by simp [hdir.location_eq])
  case leaves =>
    intro u _ hcode model hmodel
    have hname : model.name = "Node" :=
      List.mem_singleton.1 (hmodels ▸ List.mem_map_of_mem hmodel)
    have hfile : validatorFile model = "Node.js" := by
      rw [validatorFile, hname]
      rfl
    obtain heq | ⟨v, heq, hwritten⟩ := hresult u <;> rw [heq] at hcode ⊢
    · cases hcode
    · rw [hdir.location_eq, hfile, entry_place]
      exact ⟨_, hwritten.written⟩

/-- A document with a definition that refers to itself, and an operation that gives it. -/
def nodeDocument : Json :=
  .object [("openapi", .string "3.0.0"),
    ("paths", .object [("/nodes", .object [("get", .object [("operationId", .string "getNode"),
      ("responses", .object [("200", .object [("content", .object [("application/json",
        .object [("schema", .object [("$ref", .string "#/components/schemas/Node")])])])])])])])]),
    ("components", .object [("schemas", .object [("Node", .object [("properties",
      .object [("next", .object [("$ref", .string "#/components/schemas/Node")])])])])])]

/-- A reference to the definition. -/
def nodeReference : Schema := { ref := some "#/components/schemas/Node" }

theorem eq_of_mentions_nodeReference {ref : String} (h : nodeReference.Mentions ref) :
    ref = "#/components/schemas/Node" :=
  (Option.some.inj (Client.ref_eq_of_mentions h (by decide))).symm

/-- What is read of the document. -/
def decodedNode : Document where
  openapi := "3.0.0"
  paths := [("/nodes", { operations := [(.get, {
    operationId := some "getNode"
    responses := [("200", .inline
      { content := [("application/json", { schema := some nodeReference })] })] })] })]
  components := some { schemas := [("Node", { properties := [("next", nodeReference)] })] }

theorem referencesResolve_decodedNode : decodedNode.ReferencesResolve := by
  intro s hs ref hmentions
  have href : ref = "#/components/schemas/Node" := by
    cases hs with
    | component key _ hmem =>
        obtain ⟨-, rfl⟩ := Prod.mk.inj (List.mem_singleton.1 hmem)
        have hown : (Schema.ownSchema { properties := [("next", nodeReference)] }).Mentions ref :=
          hmentions
        obtain ⟨_, next, hnext, hmentions⟩ := Schema.exists_property_of_ownSchema hown
        obtain ⟨-, rfl⟩ := Prod.mk.inj (List.mem_singleton.1 hnext)
        exact eq_of_mentions_nodeReference hmentions
    | parameter _ _ hitem => cases hitem
    | parameterContent _ _ _ hitem => cases hitem
    | requestBody _ _ hitem => cases hitem
    | response _ _ hitem hcontent =>
        cases List.mem_singleton.1 hitem
        obtain ⟨_, media, hmedia, hschema⟩ := hcontent
        obtain ⟨-, rfl⟩ := Prod.mk.inj (List.mem_singleton.1 hmedia)
        cases hschema
        exact eq_of_mentions_nodeReference hmentions
  subst href
  exact ⟨"Node", by decide, by decide⟩

/-- The workshop with the compiler. -/
def compiling : Machine := { workshop with program? := fun _ => some writeNode }

/-- All categories. -/
def everything : Options where
  output := "out"
  exportSchemas := true
  precompileValidator := true

/-- The path of every operation of a client, and whether it sends a body. -/
def sentOperations (c : Client) : List (String × Bool) :=
  c.services.flatMap fun service =>
    service.operations.map fun op => (op.path, op.bodyArgument.isSome)

/-- The run links everything: no validator of this client is removed, and its operation is plain. -/
theorem generate_linked_nodeDocument :
    ∃ c t, execute (generate nodeDocument everything) compiling { tree := {} } = (.ok c, t) ∧
      (Linked everything c (outputDirectory compiling everything).location t.tree ∧
        SchemasLinked everything c (outputDirectory compiling everything).location t.tree) ∧
      (∀ stem specifier, ¬ NamesRemoved everything c stem specifier) ∧
      ∀ service ∈ c.services, ∀ op ∈ service.operations,
        op.IsPlain everything.throwOnRequestFailed := by
  have hok : (execute (generate nodeDocument everything) compiling { tree := {} }).1.isOk =
    true := by decide +kernel
  obtain ⟨c, t, hrun⟩ := exists_of_isOk hok
  have hmodels : c.models.map (·.name) = ["Node"] :=
    apply_of_generate (f := fun c => c.models.map (·.name)) (by decide +kernel) hrun
  have hoperations : sentOperations c = [("/nodes", false)] :=
    apply_of_generate (by decide +kernel) hrun
  have hhere : compiling.workingDirectory.WellFormed := by decide
  have hcompiler : CompilerFits compiling everything c (outputDirectory compiling everything) := by
    obtain ⟨names, houtput⟩ := exists_straight_outputDirectory hhere everything
    rintro _ ⟨⟩
    exact compilesValidators_writeNode (houtput.entry _) hmodels
  refine ⟨c, t, hrun, generate_linked rfl rfl hhere wellFormed_empty rfl
    referencesResolve_decodedNode rfl rfl rfl rfl rfl (fun _ => hcompiler) hrun,
    ?_, fun service hservice op hop => ?_⟩
  · rintro stem specifier ⟨-, model, hmodel, hmem, -⟩
    have hname : ∀ other ∈ c.models, other.name = "Node" := fun other hother =>
      List.mem_singleton.1 (hmodels ▸ List.mem_map_of_mem hother)
    rcases validatorFile_mem_inputFiles_iff.1 hmem with ⟨other, hother, heq⟩ | heq
    · rw [hname other hother, hname model hmodel] at heq
      exact absurd heq (by decide)
    · rw [hname model hmodel] at heq
      exact absurd heq (by decide)
  · have hmem : (op.path, op.bodyArgument.isSome) ∈ [("/nodes", false)] := hoperations ▸
      List.mem_flatMap.2 ⟨service, hservice, List.mem_map_of_mem hop⟩
    obtain ⟨hpath, hbody⟩ := Prod.mk.inj (List.mem_singleton.1 hmem)
    constructor
    case path =>
      rw [hpath, PathTemplate.IsPlain]
      decide +kernel
    case mediaType =>
      intro a ha
      rw [Option.mem_def.1 ha] at hbody
      cases hbody
    case reasons => exact fun hthrows => absurd hthrows (by decide)

/-! ## A comment that ends early -/

/-- A document with a failure whose reason ends a comment. -/
def endedDocument : Json :=
  .object [("openapi", .string "3.0.0"),
    ("info", .object [("title", .string "t"), ("version", .string "1")]),
    ("paths", .object [("/pets", .object [("get", .object [("tags", .array [.string "pets"]),
      ("operationId", .string "listPets"),
      ("responses", .object [("204", .object [("description", .string "done")]),
        ("418", .object [("description",
          .string "Matches **/ import x from './Missing'; /* nothing")])])])])])]

/-- What is read of it. -/
def decodedEnded : Document where
  openapi := "3.0.0"
  info := { title := "t", version := "1" }
  paths := [("/pets", { operations := [(.get, {
    operationId := some "listPets"
    tags := ["pets"]
    responses := [("204", .inline { description := "done" }),
      ("418", .inline
        { description := "Matches **/ import x from './Missing'; /* nothing" })] })] })]

theorem referencesResolve_decodedEnded : decodedEnded.ReferencesResolve := by
  intro s hs
  cases hs with
  | component _ _ hmem => cases hmem
  | parameter _ _ hitem => cases hitem
  | parameterContent _ _ _ hitem => cases hitem
  | requestBody _ _ hitem => cases hitem
  | response _ _ hitem hcontent =>
      obtain ⟨_, _, hmedia, _⟩ := hcontent
      have hempty : ∀ response, RefOr.inline response ∈ decodedEnded.responseItems →
          response.content = [] := by
        intro response hitem
        rcases List.mem_cons.1 hitem with heq | hitem
        · cases heq
          rfl
        · cases List.mem_singleton.1 hitem
          rfl
      rw [hempty _ hitem] at hmedia
      cases hmedia

/-- Failures are thrown, and so listed in the comments. -/
def throwing : Options := { output := "out", throwOnRequestFailed := true }

/-- The module of the only service of the document. -/
def endedStatements : List Statement :=
  let reason := "@throws ApiError 418 Matches **/ import x from './Missing'; /* nothing"
  [.comment [], .importNames true ["ApiRequestOptions"] "../core/ApiRequestOptions",
    .importNames false ["OpenAPI"] "../core/OpenAPI",
    .importNames false ["request"] "../core/request",
    .importNames false ["useRequest"] "../core/requestReactHook", .comment [],
    .declare .constant "listPetsOptions" (" = (): ApiRequestOptions => (\x7b\nmethod: 'GET',\n" ++
      "path: \x60/pets\x60,\nerrors: \x7b\n'418': " ++
      "'Matches **/ import x from \\'./Missing\\'; /* nothing',\n\x7d,\n\x7d);\n"),
    .comment [reason],
    .declare .exportConstant "listPets"
      " = (): Promise<void> =>\nrequest<void>(OpenAPI, listPetsOptions());\n",
    .comment [reason],
    .declare .exportConstant "useListPets"
      " = () =>\nuseRequest<void>(OpenAPI, listPetsOptions(), []);\n",
    .comment []]

theorem modules_endedDocument :
    (Client.ofTree endedDocument throwing.responseSchemaAsModel).toOption.map (fun c =>
      c.services.map fun service =>
        (serviceModule service, serviceStatements .reactHook (ofService throwing service))) =
      some [("PetsService", endedStatements)] := by
  decide +kernel

theorem serviceJobs_endedDocument {s t : State}
    (hrun : execute (generate endedDocument throwing) workshop s = (.ok c, t)) :
    serviceJobs workshop throwing c =
      [{ file := "PetsService.ts", text := .ok (layout (moduleText endedStatements)) }] := by
  have hmodules := apply_of_generate modules_endedDocument hrun
  obtain ⟨service, hservices, hmodule⟩ := List.map_eq_singleton_iff.1 hmodules
  obtain ⟨hname, hstatements⟩ := Prod.mk.inj hmodule
  have hrendered : (serviceArtifact .reactHook).render (ofService throwing service).context =
      .ok (moduleText endedStatements) := by
    rw [render_service, hstatements]
  have htext : (workshop.render (serviceArtifact throwing.variation)
      (ofService throwing service).context).map workshop.format =
        .ok (layout (moduleText endedStatements)) := congrArg (Except.map layout) hrendered
  rw [serviceJobs, hservices, List.map_singleton, hname, htext]
  rfl

theorem specifiers_endedStatements :
    "./Missing" ∈ specifiers (layout (moduleText endedStatements)) := by
  -- The texts are spelled out before they are read, as in the checks of the templates.
  have hread :
      (({} : Lexer).read ((moduleText endedStatements).toList ++ ['\n'])).1.broken = false ∧
        "./Missing".toList ∈ (({} : Lexer).read (moduleText endedStatements).toList).2 := by
    simp only [endedStatements, moduleText, PathTemplate.toList_concat, List.map, List.flatMap_cons,
      List.flatMap_nil, Statement.text, commentText, Keyword.text, Json.joinWith, List.isEmpty,
      Bool.false_eq_true, if_true, if_false, String.toList_append, -String.reduceToList]
    repeat rw [String.toList_ofList]
    decide +kernel
  rw [specifiers_layout hread.1]
  exact List.mem_map.2 ⟨_, hread.2, String.ofList_toList⟩

/-- The module of the service imports a file that is not there. -/
theorem not_links_endedDocument :
    ∃ document, Document.decode endedDocument = .ok document ∧ document.ReferencesResolve ∧
      ∃ c t, execute (generate endedDocument throwing) workshop { tree := {} } = (.ok c, t) ∧
        ∃ text, t.tree.entry? (place ["work", "out", "services", "PetsService.ts"]) =
            some (.file (.text text)) ∧
          ¬ Links t.tree (place ["work", "out", "services"]) text := by
  have hok : (execute (generate endedDocument throwing) workshop { tree := {} }).1.isOk = true := by
    decide +kernel
  obtain ⟨c, t, hrun⟩ := exists_of_isOk hok
  obtain ⟨hclient, -, hparts⟩ := (execute_generate_eq_ok_iff_writeParts rfl rfl).1 hrun
  have houtput : Straight (outputDirectory workshop throwing) ["work", "out"] :=
    ⟨[.root], by decide, by simp⟩
  have hcomplete := complete_writeParts (Client.fileNames_of_ofTree hclient) houtput
    wellFormed_empty (fun hvalidators => absurd hvalidators (by decide)) hparts
  have hfilled := hcomplete.filled .services rfl (by decide)
  rw [jobs, serviceJobs_endedDocument hrun] at hfilled
  obtain ⟨text, htext, hentry⟩ := hfilled.files _ List.mem_cons_self
  obtain rfl := Except.ok.inj htext
  refine ⟨decodedEnded, rfl, referencesResolve_decodedEnded, c, t, hrun, _, hentry,
    fun hlinks => ?_⟩
  obtain ⟨extension, hextension, contents, hthere⟩ :=
    hlinks "./Missing" specifiers_endedStatements rfl
  have hway : ∀ extension ∈ moduleExtensions,
      ((place ["work", "out", "services"]).join (parse ("./Missing" ++ extension))).location =
        place ["work", "out", "services", "Missing" ++ extension] := by
    decide
  have hother : ∀ extension ∈ moduleExtensions, "Missing" ++ extension ≠ "PetsService.ts" := by
    decide
  have hdirectory : place ["work", "out", "services", "Missing" ++ extension] ≠
      place (["work", "out"] ++ [Category.services.directory]) := by
    simp [place]
  have hnone :
      t.tree.entry? (place ["work", "out", "services", "Missing" ++ extension]) = none := by
    refine hfilled.others _ ⟨[.name ("Missing" ++ extension)], rfl⟩ hdirectory ?_
    rintro job hjob heq
    obtain rfl := List.mem_singleton.1 hjob
    have hsame : place (["work", "out", "services"] ++ ["Missing" ++ extension]) =
        place (["work", "out", "services"] ++ ["PetsService.ts"]) := heq
    exact hother extension hextension (place_append_singleton_inj.1 hsame)
  rw [hway extension hextension, hnone] at hthere
  cases hthere

end Emission

end TypedClient
