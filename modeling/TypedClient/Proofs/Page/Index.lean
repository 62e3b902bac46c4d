import TypedClient.Proofs.Page.Context
import TypedClient.Proofs.Script.Exports
import TypedClient.Proofs.Template.Render
import TypedClient.Template.Artifact

/-!
# What the index exports

The index is rendered line by line, whatever the client is (`render_index`). So its exports are
known: those of the core, and up to three names for every definition, as the options enable them
(`exports_index`).
-/

namespace TypedClient.Page

open Template Script
open Naming (IsTypeName IsWord)
open Text (HasNoBlank words words_append_cons words_of_hasNoBlank)

/-- Lines with a line end behind each. -/
def unlines (lines : List String) : String := Text.concat (lines.map (· ++ "\n"))

/-- The line that exports a name from the module of a definition. -/
def exportLine (keyword mark directory name : String) : String :=
  keyword ++ mark ++ name ++ " \x7d from './" ++ directory ++ name ++ "';"

/-- The line of the index for a model. -/
def modelLine (isEnum : Bool) : String → String :=
  exportLine (if isEnum then "export \x7b " else "export type \x7b ") "" "models/"

/-- The line of the index for the JSON Schema of a model. -/
def schemaLine : String → String := exportLine "export \x7b " "$" "schemas/$"

/-- The line of the index for the validator of a model. -/
def validatorLine : String → String :=
  exportLine "export \x7b default as " "validate" "validators/"

/-- The line of the index for a service. -/
def moduleLine (module : String) : String := "export * from './services/" ++ module ++ "';"

/-- The lines of the index for the core. -/
def coreLines (variation : Variation) : List String :=
  ["export \x7b ApiError \x7d from './core/ApiError';",
    "export type \x7b ApiRequestOptions \x7d from './core/ApiRequestOptions';",
    "export type \x7b ApiResult \x7d from './core/ApiResult';",
    "export \x7b OpenAPI \x7d from './core/OpenAPI';",
    "export type \x7b OpenAPIConfig \x7d from './core/OpenAPI';",
    "export \x7b request \x7d from './core/request';"] ++
  (if variation = .reactHook then
    ["export \x7b useRequest \x7d from './core/requestReactHook';",
      "export type \x7b RequestState \x7d from './core/requestReactHook';"]
  else [])

/-- Lines that an option asks for. -/
def linesIf (flag : Bool) (lines : List String) : List String := if flag then lines else []

/-- The lines of the index. Every category leaves a blank line behind it. -/
def indexLines (options : Options) (c : Client) : List String :=
  linesIf options.exportCore (coreLines options.variation) ++ [""] ++
    linesIf options.exportModels
      (c.models.map fun m => modelLine (m.isRuntimeEnum options.useUnionTypes) m.name) ++ [""] ++
    linesIf options.exportSchemas (c.models.map fun m => schemaLine m.name) ++ [""] ++
    linesIf options.precompileValidator (c.models.map fun m => validatorLine m.name) ++ [""] ++
    linesIf options.exportServices (c.services.map fun s => moduleLine (serviceModule s)) ++ [""]

theorem unlines_append (ls ls' : List String) :
    unlines (ls ++ ls') = unlines ls ++ unlines ls' := by
  rw [unlines, List.map_append, Text.concat_append, unlines, unlines]

/-! ## Rendering -/

variable (options : Options) (c : Client)

/-- The variables of the index. -/
def indexEnv : Env := { context := indexContext options c }

/-- The item of the index for a model. -/
def indexItem (m : Model) : Json :=
  .object [("name", .string m.name), ("isEnum", .bool (m.isRuntimeEnum options.useUnionTypes))]

/-- A section of the index that depends on an option. -/
theorem render?_section (key : String) {flag : Bool} {nodes : List Node} {ls : List String}
    (hflag : (indexEnv options c).lookup? [key] = some (.bool flag))
    (hnodes : renderAll? (indexEnv options c) nodes = some (unlines ls)) :
    (Node.when (.holds [key]) nodes []).render? (indexEnv options c) =
      some (unlines (linesIf flag ls)) := by
  rw [render?_when flag (by rw [hflag]; rfl)]
  cases flag
  · rfl
  · exact hnodes

/-- A section of the index with a line for every model. -/
theorem renderAll?_models (body : List Node) (line : Model → String)
    (hbody : ∀ m : Model, renderAll? ((indexEnv options c).bind "model" (indexItem options m)) body =
      some (line m ++ "\n")) :
    renderAll? (indexEnv options c) [.each "model" ["models"] body] =
      some (unlines (c.models.map line)) := by
  refine renderAll?_singleton ?_
  rw [render?_each c.models (indexItem options) rfl fun m _ => hbody m, unlines,
    List.map_map]
  rfl

/-- The export of a name of a model is one line. -/
theorem renderAll?_exportModel (m : Model) (keyword mark directory : String) :
    renderAll? ((indexEnv options c).bind "model" (indexItem options m))
        (exportModel keyword mark directory) =
      some (exportLine keyword mark directory m.name ++ "\n") := by
  have hname : ((indexEnv options c).bind "model" (indexItem options m)).lookup?
      ["model", "name"] = some (.string m.name) := rfl
  have hend : "';" ++ "\n" = "';\n" := rfl
  simp only [exportModel, renderAll?_text, renderAll?_value hname, renderAll?_nil, valueText,
    Option.map_some, exportLine, String.append_assoc, String.append_empty, hend]

theorem renderAll?_coreExports :
    renderAll? (indexEnv options c) coreExports = some (unlines (coreLines options.variation)) := by
  have hvariation : (indexEnv options c).lookup? ["variation"] =
    some (.string options.variation.name) := rfl
  have hcompare : (options.variation.name == "react-hook") =
      decide (options.variation = .reactHook) := by
    cases options.variation <;> decide
  simp only [renderAll?, coreExports, Node.render?, Test.passes?, hvariation, Option.map_some,
    hcompare]
  cases options.variation <;> decide +kernel

theorem renderAll?_services :
    renderAll? (indexEnv options c)
        [.each "service" ["services"]
          [.text "export * from './services/", .value ["service", "module"], .text "';\n"]] =
      some (unlines (c.services.map fun s => moduleLine (serviceModule s))) := by
  let item (s : Service) : Json :=
    .object [("name", .string s.name), ("module", .string (serviceModule s))]
  have hline (s : Service) : renderAll? ((indexEnv options c).bind "service" (item s))
      [.text "export * from './services/", .value ["service", "module"], .text "';\n"] =
        some (moduleLine (serviceModule s) ++ "\n") := by
    have hmodule : ((indexEnv options c).bind "service" (item s)).lookup? ["service", "module"] =
      some (.string (serviceModule s)) := rfl
    have hend : "';" ++ "\n" = "';\n" := rfl
    unfold moduleLine
    simp only [renderAll?_text, renderAll?_value hmodule, renderAll?_nil, valueText,
      Option.map_some, String.append_assoc, String.append_empty, hend]
  refine renderAll?_singleton ?_
  rw [render?_each c.services item rfl fun s _ => hline s, unlines,
    List.map_map]
  rfl

/-- The index is rendered line by line. -/
theorem render_index :
    Artifact.index.render (indexContext options c) = .ok (unlines (indexLines options c)) := by
  have hcore := render?_section options c "exportCore" rfl
    (renderAll?_coreExports options c)
  have hmodels := render?_section options c "exportModels" rfl <|
    renderAll?_models options c
      [.when (.holds ["model", "isEnum"])
        (exportModel "export \x7b " "" "models/")
        (exportModel "export type \x7b " "" "models/")]
      (fun m => modelLine (m.isRuntimeEnum options.useUnionTypes) m.name) fun m => by
        refine renderAll?_singleton ?_
        rw [render?_when (m.isRuntimeEnum options.useUnionTypes) rfl]
        cases hflag : m.isRuntimeEnum options.useUnionTypes
        · exact renderAll?_exportModel options c m _ _ _
        · exact renderAll?_exportModel options c m _ _ _
  have hschemas := render?_section options c "exportSchemas" rfl <|
    renderAll?_models options c _ _ fun m => renderAll?_exportModel options c m "export \x7b " "$"
      "schemas/$"
  have hvalidators := render?_section options c "precompileValidator" rfl <|
    renderAll?_models options c _ _ fun m =>
      renderAll?_exportModel options c m "export \x7b default as " "validate" "validators/"
  have hservices := render?_section options c "exportServices" rfl
    (renderAll?_services options c)
  have hblank : unlines [""] = "\n" := rfl
  have hrendered : renderAll? (indexEnv options c) Template.index =
      some (unlines (indexLines options c)) := by
    rw [Template.index, renderAll?_cons hcore, renderAll?_text, renderAll?_cons hmodels,
      renderAll?_text, renderAll?_cons hschemas, renderAll?_text, renderAll?_cons hvalidators,
      renderAll?_text, renderAll?_cons hservices, renderAll?_text, renderAll?_nil]
    simp only [Option.map_some, indexLines, unlines_append, hblank, String.append_assoc,
      String.append_empty, schemaLine, validatorLine]
  have hrender : Template.render? Artifact.index.nodes (indexContext options c) =
      some (unlines (indexLines options c)) := hrendered
  rw [Artifact.render, hrender]

/-! ## Exports -/

theorem hasNoBlank_of_isWord {name : String} (h : IsWord name) : HasNoBlank name :=
  fun c hc => Naming.isBlank_of_isNameChar (h c hc)

/-- The names that the core exports. -/
def coreNames (variation : Variation) : List String :=
  ["ApiError", "ApiRequestOptions", "ApiResult", "OpenAPI", "OpenAPIConfig", "request"] ++
    (if variation = .reactHook then ["useRequest", "RequestState"] else [])

/-- The names that the index exports, by category. -/
def indexNames (options : Options) (c : Client) : List String :=
  let names := c.models.map (·.name)
  linesIf options.exportCore (coreNames options.variation) ++
    linesIf options.exportModels names ++
    linesIf options.exportSchemas (names.map ("$" ++ ·)) ++
    linesIf options.precompileValidator (names.map ("validate" ++ ·))

variable {options c}

/-- The words of an exporting line. -/
theorem words_exportLine {front mark directory name : String} (hmark : HasNoBlank mark)
    (hdirectory : HasNoBlank directory) (hname : IsTypeName name) :
    words (exportLine (front ++ " ") mark directory name).toList =
      words front.toList ++
        [mark ++ name, "\x7d", "from", "'./" ++ directory ++ name ++ "';"] := by
  have hsolid := hasNoBlank_of_isWord hname.isWord
  have hne : mark ++ name ≠ "" := by
    obtain ⟨c, cs, heq, -, -⟩ := hname
    intro hempty
    simpa [heq] using congrArg String.toList hempty
  have hpath : HasNoBlank ("'./" ++ directory ++ name ++ "';") :=
    (((by decide : HasNoBlank "'./").append hdirectory).append hsolid).append (by decide)
  have hfrom : " \x7d from './".toList =
      ' ' :: ("\x7d".toList ++ ' ' :: ("from".toList ++ ' ' :: "'./".toList)) := by decide
  have hspace : " ".toList = [' '] := by decide
  have hline : (exportLine (front ++ " ") mark directory name).toList =
      front.toList ++ ' ' :: ((mark ++ name).toList ++ ' ' :: ("\x7d".toList ++ ' ' ::
        ("from".toList ++ ' ' :: ("'./" ++ directory ++ name ++ "';").toList))) := by
    unfold exportLine
    simp only [String.toList_append]
    rw [hfrom, hspace]
    simp only [List.append_assoc, List.cons_append, List.nil_append]
  have hpathNe : "'./" ++ directory ++ name ++ "';" ≠ "" := by
    intro hempty
    simpa using congrArg String.toList hempty
  have hblank : Text.isBlank ' ' = true := by decide
  rw [hline, words_append_cons hblank, words_append_cons hblank, words_append_cons hblank,
    words_append_cons hblank, words_of_hasNoBlank (hmark.append hsolid) hne,
    words_of_hasNoBlank hpath hpathNe]
  rfl

/-- Lines with a line end behind each export what they export one by one. -/
theorem exports_unlines {ls : List String} (h : ∀ line ∈ ls, '\n' ∉ line.toList) :
    exports (unlines ls) = exportsOf (ls.map String.toList) := by
  have hlines : (unlines ls).toList = (ls.map String.toList).flatMap (· ++ ['\n']) := by
    clear h
    induction ls with
    | nil => rfl
    | cons line ls ih => 
        have hcons : unlines (line :: ls) = (line ++ "\n") ++ unlines ls := rfl
        have hfeed : "\n".toList = ['\n'] := by decide
        rw [hcons, String.toList_append, String.toList_append, ih, List.map_cons,
          List.flatMap_cons, hfeed]
  have hfree : ∀ line ∈ ls.map String.toList, '\n' ∉ line := by
    simpa using h
  rw [exports, hlines, splitList_flatMap hfree, exportsOf_append]
  exact List.append_nil _

/-- Lines that export a name each. -/
theorem exportsOf_map {α : Type} {items : List α} {line name : α → String}
    (h : ∀ a ∈ items, exported? (words (line a).toList) = some (name a)) :
    exportsOf ((items.map line).map String.toList) = items.map name := by
  induction items with
  | nil => rfl
  | cons a items ih =>
      rw [List.map_cons, List.map_cons, exportsOf_cons, exportsOf, List.filterMap_cons,
        Function.comp_apply, h a List.mem_cons_self,
        ih fun b hb => h b (List.mem_cons_of_mem _ hb)]
      rfl

/-- Lines that export nothing. -/
theorem exportsOf_eq_nil {ls : List String} (h : ∀ line ∈ ls, exported? (words line.toList) = none) :
    exportsOf (ls.map String.toList) = [] := by
  simpa [exportsOf] using h

theorem exportsOf_coreLines (variation : Variation) :
    exportsOf ((coreLines variation).map String.toList) = coreNames variation := by
  cases variation <;>
    simp only [coreLines, List.map_cons, List.map_append, List.map_nil, reduceCtorEq, if_true,
      if_false, -String.reduceToList] <;>
    repeat rw [String.toList_ofList]
  all_goals decide +kernel

theorem exportsOf_linesIf (flag : Bool) (ls : List String) :
    exportsOf ((linesIf flag ls).map String.toList) =
      linesIf flag (exportsOf (ls.map String.toList)) := by
  cases flag <;> rfl

/-- A line that exports a name with a mark before it. -/
theorem exported?_exportLine (front mark directory : String) {name : String}
    (hfront : ∀ word path, exported? (words front.toList ++ [word, "\x7d", "from", path]) = some word)
    (hmark : HasNoBlank mark) (hdirectory : HasNoBlank directory) (hname : IsTypeName name) :
    exported? (words (exportLine (front ++ " ") mark directory name).toList) =
      some (mark ++ name) := by
  rw [words_exportLine hmark hdirectory hname, hfront]

theorem exported?_modelLine {name : String} (h : IsTypeName name) (isEnum : Bool) :
    exported? (words (modelLine isEnum name).toList) = some name := by
  cases isEnum
  · have hline := exported?_exportLine "export type \x7b" "" "models/" (fun _ _ => rfl)
      (by decide) (by decide) h
    rw [String.empty_append] at hline
    exact hline
  · have hline := exported?_exportLine "export \x7b" "" "models/" (fun _ _ => rfl)
      (by decide) (by decide) h
    rw [String.empty_append] at hline
    exact hline

theorem exported?_schemaLine {name : String} (h : IsTypeName name) :
    exported? (words (schemaLine name).toList) = some ("$" ++ name) :=
  exported?_exportLine "export \x7b" "$" "schemas/$" (fun _ _ => rfl)
    (by decide) (by decide) h

theorem exported?_validatorLine {name : String} (h : IsTypeName name) :
    exported? (words (validatorLine name).toList) = some ("validate" ++ name) :=
  exported?_exportLine "export \x7b default as" "validate" "validators/"
    (fun _ _ => rfl) (by decide) (by decide) h

/-- A service is not exported by name. -/
theorem exported?_moduleLine {module : String} (h : IsWord module) :
    exported? (words (moduleLine module).toList) = none := by
  have hpath : HasNoBlank ("'./services/" ++ module ++ "';") :=
    ((by decide : HasNoBlank "'./services/").append (hasNoBlank_of_isWord h)).append (by decide)
  have hne : "'./services/" ++ module ++ "';" ≠ "" := by
    intro hempty
    simpa using congrArg String.toList hempty
  have hhead : "export * from './services/".toList =
      "export * from".toList ++ ' ' :: "'./services/".toList := by decide
  have hline : (moduleLine module).toList =
      "export * from".toList ++ ' ' :: ("'./services/" ++ module ++ "';").toList := by
    unfold moduleLine
    simp only [String.toList_append]
    rw [hhead]
    simp only [List.append_assoc, List.cons_append]
  rw [hline, words_append_cons (by decide), words_of_hasNoBlank hpath hne]
  rfl

/-! ## Lines without line ends -/

/-- A text is no more than one line. -/
def IsLine (text : String) : Prop := '\n' ∉ text.toList

instance (text : String) : Decidable (IsLine text) :=
  inferInstanceAs (Decidable ('\n' ∉ text.toList))

theorem IsLine.append {text other : String} (h : IsLine text) (h' : IsLine other) :
    IsLine (text ++ other) := by
  rw [IsLine, String.toList_append, List.mem_append, not_or]
  exact ⟨h, h'⟩

theorem isLine_of_isWord {name : String} (h : IsWord name) : IsLine name := by
  intro hmem
  exact absurd (h _ hmem) (by decide)

theorem isLine_exportLine {keyword mark directory name : String} (hkeyword : IsLine keyword)
    (hmark : IsLine mark) (hdirectory : IsLine directory) (hname : IsWord name) :
    IsLine (exportLine keyword mark directory name) := by
  have h := isLine_of_isWord hname
  have hfrom : IsLine " \x7d from './" := by decide
  have hend : IsLine "';" := by decide
  exact (((((hkeyword.append hmark).append h).append hfrom).append hdirectory).append h).append hend

theorem isLine_modelLine {name : String} (h : IsWord name) (isEnum : Bool) :
    IsLine (modelLine isEnum name) := by
  cases isEnum
  · exact isLine_exportLine (by decide) (by decide) (by decide) h
  · exact isLine_exportLine (by decide) (by decide) (by decide) h

theorem isLine_moduleLine {module : String} (h : IsWord module) : IsLine (moduleLine module) :=
  ((by decide : IsLine "export * from './services/").append (isLine_of_isWord h)).append (by decide)

theorem isLine_of_mem_coreLines {variation : Variation} :
    ∀ line ∈ coreLines variation, IsLine line := by
  have hall : ((coreLines variation).map String.toList).all (!·.contains '\n') = true := by
    cases variation <;>
      simp only [coreLines, List.map_cons, List.map_append, List.map_nil, reduceCtorEq, if_true,
        if_false, -String.reduceToList] <;>
      repeat rw [String.toList_ofList]
    all_goals decide +kernel
  simpa [IsLine] using hall

theorem isLine_of_mem_linesIf {flag : Bool} {ls : List String} (h : ∀ line ∈ ls, IsLine line) :
    ∀ line ∈ linesIf flag ls, IsLine line := by
  cases flag
  · simp [linesIf]
  · exact h

variable (hmodels : ∀ m ∈ c.models, IsTypeName m.name) (hservices : ∀ s ∈ c.services, IsWord s.name)
include hmodels hservices

theorem isLine_of_mem_indexLines : ∀ line ∈ indexLines options c, IsLine line := by
  have hblank : ∀ line ∈ [""], IsLine line := by decide
  simp only [indexLines, List.forall_mem_append]
  refine ⟨⟨⟨⟨⟨⟨⟨⟨⟨?_, hblank⟩, ?_⟩, hblank⟩, ?_⟩, hblank⟩, ?_⟩, hblank⟩, ?_⟩, hblank⟩
  · exact isLine_of_mem_linesIf isLine_of_mem_coreLines
  · exact isLine_of_mem_linesIf <| List.forall_mem_map.2 fun m hm =>
      isLine_modelLine (hmodels m hm).isWord _
  · exact isLine_of_mem_linesIf <| List.forall_mem_map.2 fun m hm =>
      isLine_exportLine (by decide) (by decide) (by decide) (hmodels m hm).isWord
  · exact isLine_of_mem_linesIf <| List.forall_mem_map.2 fun m hm =>
      isLine_exportLine (by decide) (by decide) (by decide) (hmodels m hm).isWord
  · exact isLine_of_mem_linesIf <| List.forall_mem_map.2 fun s hs =>
      isLine_moduleLine (isWord_serviceModule (hservices s hs))

/-- What the index exports by name. -/
theorem exports_index : exports (unlines (indexLines options c)) = indexNames options c := by
  have hblank : exportsOf ([""].map String.toList) = [] := by decide
  have hmodule : exportsOf ((c.services.map fun s => moduleLine (serviceModule s)).map
      String.toList) = [] :=
    exportsOf_eq_nil <| List.forall_mem_map.2 fun s hs =>
      exported?_moduleLine (isWord_serviceModule (hservices s hs))
  rw [exports_unlines (isLine_of_mem_indexLines hmodels hservices), indexLines]
  simp only [List.map_append, exportsOf_append, exportsOf_linesIf, exportsOf_coreLines, hblank, hmodule]
  rw [exportsOf_map fun m hm => exported?_modelLine (hmodels m hm) _,
    exportsOf_map fun m hm => exported?_schemaLine (hmodels m hm),
    exportsOf_map fun m hm => exported?_validatorLine (hmodels m hm)]
  simp [indexNames, linesIf, Function.comp_def]

end TypedClient.Page
