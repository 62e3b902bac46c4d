import TypedClient.Proofs.Client.Coherence
import TypedClient.Proofs.Script.TemplateValue

/-!
# The paths of operations in template literals

The path of an operation is the text of a template in which every placeholder is an expression. Of
the literal text only backticks are escaped, after the expressions have been put in. So the template
is read as the path, with the values of expressions in place of the placeholders, exactly if the
literal text needs no other escapes: it holds no backslash and no carriage return, and starts no
expression itself. This is `path_readsBack_iff`.
-/

namespace TypedClient

open Script Lexer
open Naming (IsValueName)

namespace PathTemplate

/-- The expression for a placeholder. -/
def expressionWith (identifier : String → String) (token : String) : String :=
  if token = versionPlaceholder then versionExpression else identifier token

/-- A template with its placeholders written as expressions. -/
def templateText (expression : String → String) (t : PathTemplate) : List Char :=
  t.head.toList ++
    t.holes.flatMap fun hole => (interpolation (expression hole.1)).toList ++ hole.2.toList

/-- The units of a path, with the values of expressions in place of its placeholders. -/
def filled (assign : String → List Nat) (expression : String → String) (t : PathTemplate) :
    List Nat :=
  textUnits t.head.toList ++
    t.holes.flatMap fun hole => assign (expression hole.1) ++ textUnits hole.2.toList

variable {expression identifier : String → String} {head token text : String}
  {holes : List (String × String)}

theorem toList_literalWith (identifier : String → String) (path : String) :
    (literalWith identifier path).toList =
      (parse path).templateText (expressionWith identifier) := by
  rw [literalWith, toList_render, templateText]
  simp only [String.toList_append, expressionWith]

theorem templateText_cons :
    templateText expression ⟨head, (token, text) :: holes⟩ =
      head.toList ++ ((interpolation (expression token)).toList ++
        templateText expression ⟨text, holes⟩) := by
  simp [templateText]

theorem filled_cons (assign : String → List Nat) :
    filled assign expression ⟨head, (token, text) :: holes⟩ =
      textUnits head.toList ++
        (assign (expression token) ++ filled assign expression ⟨text, holes⟩) := by
  simp [filled]

/-- The expressions can be read in a template. -/
def WritesReferences (expression : String → String) : Prop :=
  ∀ token, isReference (expression token) = true ∧
    ∀ c ∈ (expression token).toList, isHoleChar c = true

theorem writesReferences_expressionWith (h : ∀ token, IsValueName (identifier token)) :
    WritesReferences (expressionWith identifier) := by
  intro token
  rw [expressionWith]
  split
  · have hchars : versionExpression.toList.all isHoleChar = true := by decide
    exact ⟨by decide, List.all_eq_true.1 hchars⟩
  · have hname := (h token).isWord
    have hchar : ∀ c ∈ (identifier token).toList, (c == '.') = false := by
      intro c hc
      rw [beq_eq_false_iff_ne]
      rintro rfl
      exact absurd (hname _ hc) (by decide)
    refine ⟨?_, fun c hc => by simp [isHoleChar, hname c hc]⟩
    rw [isReference, Text.split, Text.splitList_eq_singleton hchar]
    simp [isIdentifier_iff.2 (h token).isTypeName, (h token).free]

/-- Literals and placeholders are read one after the other. -/
theorem templateParts?_cons (hexpr : WritesReferences expression) (hhead : IsVerbatim head.toList)
    (rest : List Char) :
    templateParts? ((head.toList ++
        ((interpolation (expression token)).toList ++ rest)).flatMap escapeTick) =
      (templateParts? (rest.flatMap escapeTick)).map fun parts =>
        textParts head.toList ++ .expression (expression token) :: parts := by
  have htick : '\x60' ∉ (interpolation (expression token)).toList := by
    have hsource : '\x60' ∉ (expression token).toList := fun hmem =>
      absurd ((hexpr token).2 _ hmem) (by decide)
    simp [toList_interpolation, hsource]
  have hopen : ((interpolation (expression token)).toList ++ rest.flatMap escapeTick).head? ≠
      some '\x7b' := by
    simp [toList_interpolation]
  rw [List.flatMap_append, List.flatMap_append, flatMap_escapeTick htick,
    readTemplate_verbatim hhead hopen,
    readTemplate_interpolation (hexpr token).1 (hexpr token).2, Option.map_map]
  rfl

/-- Where every literal is taken as it stands, the path is read with the values of expressions in
place of its placeholders. -/
theorem exists_parts_of_isVerbatim (hexpr : WritesReferences expression) {t : PathTemplate}
    (h : ∀ text ∈ t.literals, IsVerbatim text.toList) :
    ∃ parts, templateParts? ((t.templateText expression).flatMap escapeTick) = some parts ∧
      ∀ assign, templateValue assign parts = t.filled assign expression := by
  obtain ⟨head, holes⟩ := t
  induction holes generalizing head with
  | nil =>
      have hread : templateParts? (head.toList.flatMap escapeTick ++ []) = _ :=
        readTemplate_verbatim (h head List.mem_cons_self) (by simp)
      refine ⟨textParts head.toList, ?_, fun assign => ?_⟩
      · simpa [templateText, templateParts?, readTemplate, TemplateState.finish?,
          StringState.isText] using hread
      · simp [templateValue_textParts, filled]
  | cons hole holes ih =>
      obtain ⟨token, text⟩ := hole
      obtain ⟨hhead, hrest⟩ := List.forall_mem_cons.1 h
      obtain ⟨parts, hread, hvalue⟩ := ih text hrest
      refine ⟨textParts head.toList ++ .expression (expression token) :: parts, ?_,
        fun assign => ?_⟩
      · rw [templateText_cons, templateParts?_cons hexpr hhead, hread, Option.map_some]
      · rw [filled_cons, ← hvalue, templateValue_append, templateValue_textParts]
        rfl

/-- The path is what its template looks like. -/
theorem filled_echo (t : PathTemplate) :
    t.filled echo expression = textUnits (t.templateText expression) := by
  simp only [filled, templateText, textUnits, echo, List.flatMap_append, List.flatMap_assoc]

theorem mem_templateText_of_mem_literals {t : PathTemplate} (htext : text ∈ t.literals) {c : Char}
    (hc : c ∈ text.toList) : c ∈ t.templateText expression := by
  rcases List.mem_cons.1 htext with rfl | htext
  · exact List.mem_append_left _ hc
  · obtain ⟨hole, hhole, rfl⟩ := List.mem_map.1 htext
    exact List.mem_append_right _ (List.mem_flatMap.2 ⟨hole, hhole, List.mem_append_right _ hc⟩)

/-- In a template no literal of a path starts an expression, if there is nothing to escape. -/
theorem isVerbatim_of_cuts (hexpr : WritesReferences expression) {path : String} {t : PathTemplate}
    (ht : Cuts path t) (hplain : ∀ text ∈ t.literals, '\\' ∉ text.toList ∧ '\r' ∉ text.toList)
    {parts : List TemplatePart}
    (h : templateParts? ((t.templateText expression).flatMap escapeTick) = some parts) :
    ∀ text ∈ t.literals, IsVerbatim text.toList := by
  obtain ⟨head, holes⟩ := t
  induction holes generalizing path head parts with
  | nil =>
      obtain ⟨hslash, hreturn⟩ := hplain head List.mem_cons_self
      have hopens := (cuts_nil_iff.1 ht).2
      rw [templateText, List.flatMap_nil, List.append_nil] at h
      have hhole := not_isInfix_holeStart h hslash hreturn hopens
      exact List.forall_mem_singleton.2 ⟨hslash, hreturn, hhole⟩
  | cons hole holes ih =>
      obtain ⟨token, text⟩ := hole
      obtain ⟨⟨hslash, hreturn⟩, hplain⟩ := List.forall_mem_cons.1 hplain
      obtain ⟨rest, -, hbrace, -, hrest⟩ := cuts_cons_iff.1 ht
      have hhead : IsVerbatim head.toList := by
        refine ⟨hslash, hreturn, fun hinfix => hbrace ?_⟩
        exact hinfix.subset (List.mem_cons_of_mem _ List.mem_cons_self)
      rw [templateText_cons, templateParts?_cons hexpr hhead] at h
      obtain ⟨others, hothers, -⟩ := Option.map_eq_some_iff.1 h
      exact List.forall_mem_cons.2 ⟨hhead, ih text hrest hplain hothers⟩

/-- A path is read back from its template exactly if every literal is taken as it stands. -/
theorem readsBack_iff (hexpr : WritesReferences expression) {path : String} {t : PathTemplate}
    (ht : Cuts path t) :
    (∃ parts, templateParts? ((t.templateText expression).flatMap escapeTick) = some parts ∧
        ∀ assign, templateValue assign parts = t.filled assign expression) ↔
      ∀ text ∈ t.literals, IsVerbatim text.toList := by
  refine ⟨fun ⟨parts, hread, hvalue⟩ => ?_, exists_parts_of_isVerbatim hexpr⟩
  -- With every expression for itself the template has to say what is written in it.
  have hecho : templateValue echo parts =
      TemplateState.pending (.literal .text) ++ textUnits (t.templateText expression) :=
    (hvalue echo).trans (filled_echo t)
  obtain ⟨hslash, hreturn⟩ := not_mem_of_echo (q := .literal .text) rfl hread hecho
  refine isVerbatim_of_cuts hexpr ht (fun text htext => ⟨fun hc => ?_, fun hc => ?_⟩) hread
  · exact hslash (mem_templateText_of_mem_literals htext hc)
  · exact hreturn (mem_templateText_of_mem_literals htext hc)

end PathTemplate

namespace Operation

/-- The expression that a placeholder of the path is written as. -/
def placeholderExpression (op : Operation) : String → String :=
  PathTemplate.expressionWith (placeholderIdentifier op.pathArguments)

/-- The path of the operation as it is shown is read as the path, with the values of expressions
in place of its placeholders. -/
def PathReadsBack (options : Options) (op : Operation) (t : PathTemplate) : Prop :=
  ∃ parts, templateParts? (Page.ofOperation options op).pathPattern.toList = some parts ∧
    ∀ assign, templateValue assign parts = t.filled assign op.placeholderExpression

/-- The path is written with the identifiers of the arguments in it. -/
structure WritesPath (op : Operation) : Prop where
  identifiers : ∀ a ∈ op.pathArguments, IsValueName a.identifier
  pattern : op.pathPattern =
    PathTemplate.literalWith (placeholderIdentifier op.pathArguments) op.path

/-- Placeholders have nothing to do with models. -/
theorem placeholderIdentifier_map (f : Model → Model) (inPath : List Argument) :
    placeholderIdentifier (inPath.map (·.mapModel f)) = placeholderIdentifier inPath := by
  funext token
  have hfind : (inPath.map (·.mapModel f)).find? (·.wireName == token) =
      (inPath.find? (·.wireName == token)).map (·.mapModel f) := List.find?_map
  rw [placeholderIdentifier, placeholderIdentifier, hfind]
  cases inPath.find? (·.wireName == token) <;> rfl

theorem WritesPath.mapModels {op : Operation} (h : op.WritesPath) (f : Model → Model) :
    (op.mapModels f).WritesPath where
  identifiers := List.forall_mem_map.2 h.identifiers
  pattern := by
    change op.pathPattern = PathTemplate.literalWith
      (placeholderIdentifier (op.pathArguments.map (·.mapModel f))) op.path
    rw [placeholderIdentifier_map, h.pattern]

theorem WritesPath.refreshImports {op : Operation} (h : op.WritesPath) :
    op.refreshImports.WritesPath :=
  ⟨(h.mapModels Model.refreshImports).identifiers, (h.mapModels Model.refreshImports).pattern⟩

theorem Declaration.writesPath_build (x : Declaration) (d : Document)
    (promotions : Model.Promotions) : (x.build d promotions).1.WritesPath where
  identifiers := by
    change ∀ a ∈ (x.sentIn d .path).map (·.mapModel Model.refreshImports), _
    refine List.forall_mem_map.2 fun a ha => ?_
    exact x.isValueName_of_mem_arguments d (a := a) (x.mem_arguments_of_mem_sentIn d ha)
  pattern := by
    change PathTemplate.literalWith (placeholderIdentifier (x.sentIn d .path)) x.path =
      PathTemplate.literalWith (placeholderIdentifier
        ((x.sentIn d .path).map (·.mapModel Model.refreshImports))) x.path
    rw [placeholderIdentifier_map]

theorem WritesPath.readsBack_iff {op : Operation} (h : op.WritesPath) (options : Options)
    {t : PathTemplate} (ht : PathTemplate.Cuts op.path t) :
    op.PathReadsBack options t ↔ ∀ text ∈ t.literals, IsVerbatim text.toList := by
  have hexpr : PathTemplate.WritesReferences op.placeholderExpression :=
    PathTemplate.writesReferences_expressionWith (isValueName_placeholderIdentifier h.identifiers)
  have hpattern : (Page.ofOperation options op).pathPattern.toList =
      (t.templateText op.placeholderExpression).flatMap escapeTick := by
    change (Text.replaceChar '\x60' "\\\x60" op.pathPattern).toList = _
    rw [PathTemplate.toList_escapedTicks, h.pattern, PathTemplate.toList_literalWith, ht.eq_parse]
    rfl
  rw [PathReadsBack, hpattern]
  exact PathTemplate.readsBack_iff hexpr ht

end Operation

namespace Client

variable {d : Document} {promote : Bool} {c : Client} {s : Service} {op : Operation}

theorem writesPath_of_mem_finished (hs : s ∈ (drafted d promote).finished.services)
    (hop : op ∈ s.operations) : op.WritesPath :=
  forall_mem_finished (P := Operation.WritesPath)
    (fun x promotions => x.writesPath_build d promotions)
    (fun _ target h => (h.mapModels (Model.redirect target)).refreshImports)
    (fun _ _ h => ⟨h.identifiers, h.pattern⟩) hs hop

/-- In the client of a document the path of an operation is that of its declaration. What the
templates get of it is a template literal with the path as its value, each placeholder replaced by
the value of its identifier, exactly if nothing in the literal text of the path but backticks needs
an escape. -/
theorem path_readsBack_iff (h : (draft d promote >>= finish) = .ok c) (hs : s ∈ c.services)
    (hop : op ∈ s.operations) :
    (∃ x ∈ Operation.declarations d, op.path = x.path) ∧
      ∀ (options : Options) (t : PathTemplate), PathTemplate.Cuts op.path t →
        (op.PathReadsBack options t ↔ ∀ text ∈ t.literals, IsVerbatim text.toList) := by
  obtain ⟨-, rfl⟩ := draft_bind_finish_eq_ok_iff.1 h
  refine ⟨?_, fun options t ht => (writesPath_of_mem_finished hs hop).readsBack_iff options ht⟩
  obtain ⟨x, hx, declared, rfl, hname⟩ := exists_declaration_of_mem_finished hs hop
  refine ⟨x, hx, ?_⟩
  rcases hname with rfl | ⟨number, rfl⟩ <;> rfl

/-- The document of an operation for files under a path. -/
def fileDocument (path : String) : Document where
  openapi := "3.0.0"
  paths := [(path, { operations := [(.get, {
    operationId := some "readFile"
    parameters := [.inline { name := "file-name", location := .path, required := true }]
    responses := [("204", .inline { description := "done" })] })] })]

/-- A path with a placeholder for the version, a backtick and a placeholder for an argument. -/
def filePath : String := "/v{api-version}/\x60/{file-name}"

theorem path_readsBack_iff_filePath :
    ∃ c, (draft (fileDocument filePath) true >>= finish) = .ok c ∧ ∃ s ∈ c.services,
      ∃ op ∈ s.operations, op.path = filePath ∧ op.placeholderExpression "file-name" = "fileName" ∧
        ∀ options, op.PathReadsBack options (PathTemplate.parse op.path) := by
  have hclient : (draft (fileDocument filePath) true >>= finish) =
      .ok (drafted (fileDocument filePath) true).finished :=
    draft_bind_finish_eq_ok_iff.2 ⟨by decide +kernel, rfl⟩
  obtain ⟨s, hs, op, hop, hpath, hname⟩ :
      ∃ s ∈ (drafted (fileDocument filePath) true).finished.services, ∃ op ∈ s.operations,
        op.path = filePath ∧ op.placeholderExpression "file-name" = "fileName" := by
    decide +kernel
  have hverbatim : ∀ text ∈ (PathTemplate.parse op.path).literals, IsVerbatim text.toList := by
    rw [hpath]
    decide +kernel
  refine ⟨_, hclient, s, hs, op, hop, hpath, hname, fun options => ?_⟩
  exact ((path_readsBack_iff hclient hs hop).2 options _ (PathTemplate.cuts_parse _)).2 hverbatim

/-- A path without placeholders is shown as it stands, and not read back if it needs an escape. -/
theorem path_not_readsBack {path : String} {read : Option (List TemplatePart)}
    (hfile : ((fileDocument path).declaredNames true).Nodup ∧
      ∃ s ∈ (drafted (fileDocument path) true).finished.services, ∃ op ∈ s.operations,
        op.path = path ∧ op.pathPattern = path)
    (hread : templateParts? (path.toList.flatMap escapeTick) = read)
    (htext : ¬ ∀ text ∈ (PathTemplate.parse path).literals, IsVerbatim text.toList) :
    ∃ c, (draft (fileDocument path) true >>= finish) = .ok c ∧ ∃ s ∈ c.services,
      ∃ op ∈ s.operations, op.path = path ∧ ∀ options,
        templateParts? (Page.ofOperation options op).pathPattern.toList = read ∧
          ¬ op.PathReadsBack options (PathTemplate.parse op.path) := by
  obtain ⟨hnodup, s, hs, op, hop, hpath, hpattern⟩ := hfile
  have hclient := draft_bind_finish_eq_ok_iff.2 ⟨hnodup, rfl⟩
  refine ⟨_, hclient, s, hs, op, hop, hpath, fun options => ⟨?_, fun hback => htext ?_⟩⟩
  · change templateParts? (Text.replaceChar '\x60' "\\\x60" op.pathPattern).toList = read
    rw [PathTemplate.toList_escapedTicks, hpattern, hread]
  · have hwrites := writesPath_of_mem_finished hs hop
    rw [← hpath]
    exact (hwrites.readsBack_iff options (PathTemplate.cuts_parse _)).1 hback

/-- A backslash in a path starts an escape sequence, so that a line feed is sent, or it takes the
backslash in front of a backtick, which ends the template then. -/
theorem not_path_readsBack :
    (∃ c, (draft (fileDocument "/logs\\new") true >>= finish) = .ok c ∧ ∃ s ∈ c.services,
      ∃ op ∈ s.operations, op.path = "/logs\\new" ∧ ∀ options,
        templateParts? (Page.ofOperation options op).pathPattern.toList =
            some (textParts "/logs\new".toList) ∧
          ¬ op.PathReadsBack options (PathTemplate.parse op.path)) ∧
    ∃ c, (draft (fileDocument "/a\\\x60b") true >>= finish) = .ok c ∧ ∃ s ∈ c.services,
      ∃ op ∈ s.operations, op.path = "/a\\\x60b" ∧ ∀ options,
        templateParts? (Page.ofOperation options op).pathPattern.toList = none ∧
          ¬ op.PathReadsBack options (PathTemplate.parse op.path) :=
  ⟨path_not_readsBack (by decide +kernel) (by decide +kernel) (by decide +kernel),
    path_not_readsBack (by decide +kernel) (by decide +kernel) (by decide +kernel)⟩

end Client

end TypedClient
