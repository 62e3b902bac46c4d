import TypedClient.Proofs.Emission.Regeneration
import TypedClient.Proofs.Page.Index

/-!
# Names that the index exports twice

The definitions of a client have different names, and so have the marks before them. But a
definition may be named like a part of the core, or like another definition with a mark in front:
keys of schemas may start with a dollar sign or with `validate`. Where no such definition is
exported beside its double, the index that a run leaves exports no name twice, and otherwise it
does (`nodup_exports_iff`).
-/

namespace TypedClient

namespace Page

open Naming (IsTypeName)

/-- No definition is exported under the name of something else. -/
structure ExportsApart (options : Options) (c : Client) : Prop where
  core : options.exportCore = true → options.exportModels = true →
    ∀ m ∈ c.models, m.name ∉ coreNames options.variation
  schemas : options.exportModels = true → options.exportSchemas = true →
    ∀ m ∈ c.models, "$" ++ m.name ∉ c.models.map (·.name)
  validators : options.exportModels = true → options.precompileValidator = true →
    ∀ m ∈ c.models, "validate" ++ m.name ∉ c.models.map (·.name)

theorem mem_linesIf {flag : Bool} {ls : List String} {line : String} :
    line ∈ linesIf flag ls ↔ flag = true ∧ line ∈ ls := by
  cases flag <;> simp [linesIf]

theorem nodup_linesIf {ls : List String} (h : ls.Nodup) (flag : Bool) :
    (linesIf flag ls).Nodup := by
  cases flag
  · exact List.nodup_nil
  · exact h

/-- No name of the core starts with a mark. -/
theorem mark_append_not_mem_coreNames {variation : Variation} (name : String) :
    "$" ++ name ∉ coreNames variation ∧ "validate" ++ name ∉ coreNames variation := by
  have hall : (coreNames variation).all (fun core =>
      !"$".toList.isPrefixOf core.toList && !"validate".toList.isPrefixOf core.toList) = true := by
    cases variation <;> decide +kernel
  have hstart (mark : String) : mark.toList.isPrefixOf (mark ++ name).toList = true := by
    simp
  constructor
  · intro hmem
    have hcore := List.all_eq_true.1 hall _ hmem
    rw [hstart] at hcore
    cases hcore
  · intro hmem
    have hcore := List.all_eq_true.1 hall _ hmem
    rw [hstart, Bool.not_true, Bool.and_false] at hcore
    cases hcore

theorem dollar_append_ne (name other : String) : "$" ++ name ≠ "validate" ++ other := by
  intro heq
  have hchars := congrArg (List.head? ∘ String.toList) heq
  simp at hchars

variable {options : Options} {c : Client}

/-- The marked names of the definitions. -/
theorem mem_marked_iff {mark name : String} :
    name ∈ (c.models.map (·.name)).map (mark ++ ·) ↔ ∃ m ∈ c.models, mark ++ m.name = name := by
  simp

/-- The names of the index are different exactly if no definition has the name of something else. -/
theorem nodup_indexNames_iff (hnames : (c.models.map (·.name)).Nodup) :
    (indexNames options c).Nodup ↔ ExportsApart options c := by
  have hcore : (coreNames options.variation).Nodup := by
    cases options.variation <;> decide
  have hmarked (mark : String) : ((c.models.map (·.name)).map (mark ++ ·)).Nodup :=
    hnames.map fun _ _ => String.append_right_inj mark |>.1
  simp only [indexNames, List.nodup_append, nodup_linesIf hcore, nodup_linesIf hnames,
    nodup_linesIf (hmarked _), true_and, List.mem_append, mem_linesIf]
  constructor
  · rintro ⟨⟨hmodels, hschemas⟩, hvalidators⟩
    constructor
    case core =>
      intro hc hm m hmem hname
      exact hmodels _ ⟨hc, hname⟩ _ ⟨hm, List.mem_map_of_mem hmem⟩ rfl
    case schemas =>
      intro hm hs m hmem hname
      exact hschemas _ (.inr ⟨hm, hname⟩) _ ⟨hs, mem_marked_iff.2 ⟨m, hmem, rfl⟩⟩ rfl
    case validators =>
      intro hm hv m hmem hname
      exact hvalidators _ (.inl (.inr ⟨hm, hname⟩)) _ ⟨hv, mem_marked_iff.2 ⟨m, hmem, rfl⟩⟩ rfl
  · intro h
    refine ⟨⟨?_, ?_⟩, ?_⟩
    · rintro _ ⟨hc, hname⟩ _ ⟨hm, hmem⟩ rfl
      obtain ⟨m, hfound, rfl⟩ := List.mem_map.1 hmem
      exact h.core hc hm m hfound hname
    · rintro name hname _ ⟨hs, hmem⟩ rfl
      obtain ⟨m, hfound, rfl⟩ := mem_marked_iff.1 hmem
      rcases hname with ⟨-, hname⟩ | ⟨hm, hname⟩
      · exact (mark_append_not_mem_coreNames m.name).1 hname
      · exact h.schemas hm hs m hfound hname
    · rintro name hname _ ⟨hv, hmem⟩ rfl
      obtain ⟨m, hfound, rfl⟩ := mem_marked_iff.1 hmem
      rcases hname with (⟨-, hname⟩ | ⟨hm, hname⟩) | ⟨-, hname⟩
      · exact (mark_append_not_mem_coreNames m.name).2 hname
      · exact h.validators hm hv m hfound hname
      · obtain ⟨other, -, heq⟩ := mem_marked_iff.1 hname
        exact dollar_append_ne other.name m.name heq

end Page

/-- The definitions of the client of a document have type names, and its services have words. -/
theorem Client.isTypeName_of_ofTree {tree : Json} {promote : Bool} {c : Client}
    (h : Client.ofTree tree promote = .ok c) :
    (∀ m ∈ c.models, Naming.IsTypeName m.name) ∧ ∀ s ∈ c.services, Naming.IsWord s.name := by
  obtain ⟨-, d, -, hd⟩ := ofTree_eq_ok_iff.1 h
  obtain ⟨-, rfl⟩ := draft_bind_finish_eq_ok_iff.1 hd
  exact ⟨fun m hm => isTypeName_of_mem_finished hm, fun s hs ch hch =>
    Naming.isNameChar_of_isAlphanum (isAlphanum_of_mem_services_finished hs hch)⟩

namespace Emission

open Files Files.Path Page

variable {m : Machine} {s t : State} {tree : Json} {options : Options} {c : Client}

/-- A successful run leaves the rendered index. -/
theorem index_of_generate (hhere : m.workingDirectory.WellFormed) (hwrite : options.write = true)
    (hany : options.anyCategory = true)
    (hrun : execute (generate tree options) m s = (.ok c, t)) :
    ∃ text, m.render .index (indexContext options c) = .ok text ∧
      t.tree.entry? ((outputDirectory m options).location.entry indexFile) =
        some (.file (.text (m.format text))) := by
  obtain ⟨names, houtput⟩ := exists_straight_outputDirectory hhere options
  obtain ⟨-, -, override, mid, -, hparts⟩ := (execute_generate_eq_ok_iff hwrite).1 hrun
  rw [writeParts, hany] at hparts
  obtain ⟨_, last, -, hindex⟩ := execute_bind_eq_ok_iff.1 hparts
  obtain ⟨text, made, hrender, -, hwritten⟩ := made_written_of_writeIndex houtput hindex
  refine ⟨text, hrender, ?_⟩
  rw [houtput.location_eq, entry_place]
  exact hwritten.written

/-- What the index that a successful run leaves exports by name. -/
theorem exports_of_generate (hrender : m.render = Artifact.render)
    (hformat : m.format = Script.layout) (hhere : m.workingDirectory.WellFormed)
    (hwrite : options.write = true) (hany : options.anyCategory = true)
    (hrun : execute (generate tree options) m s = (.ok c, t)) :
    ∃ text, t.tree.entry? ((outputDirectory m options).location.entry indexFile) =
        some (.file (.text text)) ∧ Script.exports text = indexNames options c := by
  obtain ⟨text, hindex, hentry⟩ := index_of_generate hhere hwrite hany hrun
  obtain ⟨hclient, -⟩ := (execute_generate_eq_ok_iff hwrite).1 hrun
  obtain ⟨hmodels, hservices⟩ := Client.isTypeName_of_ofTree hclient
  obtain rfl := Except.ok.inj ((render_index options c).symm.trans (hrender ▸ hindex))
  refine ⟨_, hentry, ?_⟩
  rw [hformat, Script.exports_layout, exports_index hmodels hservices]

/-- The index that a successful run leaves exports no name twice exactly if no definition has the
name of something else that is exported. -/
theorem nodup_exports_iff (hrender : m.render = Artifact.render) (hformat : m.format = Script.layout)
    (hhere : m.workingDirectory.WellFormed) (hwrite : options.write = true)
    (hany : options.anyCategory = true)
    (hrun : execute (generate tree options) m s = (.ok c, t)) :
    ∃ text, t.tree.entry? ((outputDirectory m options).location.entry indexFile) =
        some (.file (.text text)) ∧
      Script.exports text = indexNames options c ∧
      ((Script.exports text).Nodup ↔ ExportsApart options c) := by
  obtain ⟨text, hentry, hexports⟩ := exports_of_generate hrender hformat hhere hwrite hany hrun
  obtain ⟨hclient, -⟩ := (execute_generate_eq_ok_iff hwrite).1 hrun
  refine ⟨text, hentry, hexports, ?_⟩
  rw [hexports]
  exact nodup_indexNames_iff (Client.fileNames_of_ofTree hclient).models_nodup

/-- Options that enable the JSON Schemas as well. -/
def withSchemas : Options := { output := "out", exportSchemas := true }

/-- The names of the definitions of a client that is known. -/
theorem names_of_generate {names : List String}
    (hnames : (Client.ofTree tree options.responseSchemaAsModel).toOption.map
      (fun c => c.models.map (·.name)) = some names)
    (hwrite : options.write = true) (hrun : execute (generate tree options) m s = (.ok c, t)) :
    c.models.map (·.name) = names := by
  obtain ⟨hclient, -⟩ := (execute_generate_eq_ok_iff hwrite).1 hrun
  rw [hclient] at hnames
  exact Option.some.inj hnames

theorem nodup_exports_kindDocument :
    ∃ c t text, execute (generate kindDocument withSchemas) workshop { tree := {} } = (.ok c, t) ∧
      t.tree.entry? ((outputDirectory workshop withSchemas).location.entry indexFile) =
        some (.file (.text text)) ∧
      Script.exports text = indexNames withSchemas c ∧ (Script.exports text).Nodup := by
  have hok : (execute (generate kindDocument withSchemas) workshop { tree := {} }).1.isOk =
    true := by decide +kernel
  obtain ⟨c, t, hrun⟩ := exists_of_isOk hok
  obtain ⟨text, hentry, hexports, hiff⟩ :=
    nodup_exports_iff rfl rfl (by decide) rfl rfl hrun
  have hnames : c.models.map (·.name) = ["Kind"] :=
    names_of_generate (by decide +kernel) rfl hrun
  have hname (model : Model) (hmodel : model ∈ c.models) : model.name = "Kind" := by
    simpa [hnames] using List.mem_map_of_mem (f := (·.name)) hmodel
  refine ⟨c, t, text, hrun, hentry, hexports, hiff.2 ⟨fun _ _ model hmodel => ?_,
    fun _ _ model hmodel => ?_, fun _ hvalidators => by cases hvalidators⟩⟩
  · rw [hname model hmodel]
    decide
  · rw [hname model hmodel, hnames]
    decide

/-- A document with a definition that is named like a class of the core. -/
def apiErrorDocument : Json :=
  .object [("openapi", .string "3.0.0"), ("components", .object [("schemas",
    .object [("ApiError", .object [("type", .string "string")])])])]

theorem not_nodup_exports_apiErrorDocument :
    ∃ c t text, execute (generate apiErrorDocument { output := "out" }) workshop { tree := {} } =
        (.ok c, t) ∧
      t.tree.entry? ((outputDirectory workshop { output := "out" }).location.entry indexFile) =
        some (.file (.text text)) ∧
      ¬ (Script.exports text).Nodup := by
  have hok : (execute (generate apiErrorDocument { output := "out" }) workshop
    { tree := {} }).1.isOk = true := by decide +kernel
  obtain ⟨c, t, hrun⟩ := exists_of_isOk hok
  obtain ⟨text, hentry, hexports⟩ := exports_of_generate rfl rfl (by decide) rfl rfl hrun
  have hnames : c.models.map (·.name) = ["ApiError"] :=
    names_of_generate (by decide +kernel) rfl hrun
  refine ⟨c, t, text, hrun, hentry, ?_⟩
  rw [hexports, indexNames, hnames]
  decide

end Emission

end TypedClient
