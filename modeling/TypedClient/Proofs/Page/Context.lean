import TypedClient.Page.Model
import TypedClient.Proofs.Client.Coherence
import TypedClient.Proofs.Model.Expression
import TypedClient.Proofs.Template.Check

/-!
# What pages hold

The contexts of the pages of a coherent client have the forms that are given here: names are those
of its modules, types and keys can be written in code, lines stay in their comments, and texts in
their strings (`fits_ofModel`, `fits_ofService`, `fits_indexContext`, `fits_coreContext`). For a
service this takes operations whose document texts end nothing (`Operation.IsPlain`).
-/

namespace TypedClient

open Template Script Script.Lexer
open Naming (IsWord)

/-- The names that the modules of a client are called after. -/
def Client.names (c : Client) (options : Options) : Names
  | .definition, name => name ∈ c.models.map (·.name)
  | .validator, name => options.precompileValidator = true ∧ name ∈ c.models.map (·.name)
  | .module, name => name ∈ c.services.map Page.serviceModule

/-- What an operation takes over from its document without a change ends nothing: its path is
plain, the media type of its body needs no escapes, and where its failures are listed in a comment,
their reasons do not end it. -/
structure Operation.IsPlain (op : Operation) (throws : Bool) : Prop where
  path : (PathTemplate.parse op.path).IsPlain
  mediaType : ∀ a ∈ op.bodyArgument, escape (a.mediaType.getD "") = a.mediaType.getD ""
  reasons : throws = true → ∀ f ∈ op.failureReasons, ¬ terminator <:+: f.reason.toList

namespace Page

variable {names : Names} {options : Options} {c : Client}

/-! ## Texts -/

theorem fits_list_empty : Content.list.Fits names "" := fun _ hch => absurd hch (by simp)

theorem fits_list_of_isWord {name : String} (h : IsWord name) : Content.list.Fits names name :=
  fun ch hch => isHarmless_of_isNameChar (h ch hch)

/-- Words between commas. -/
theorem fits_list_joinWith {words : List String} (h : ∀ word ∈ words, IsWord word) :
    Content.list.Fits names (Json.joinWith ", " words) := by
  have hcomma : ", ".toList.all isHarmless = true := by decide
  induction words with
  | nil => exact fits_list_empty
  | cons word rest ih =>
      have hword : Content.list.Fits names word := fits_list_of_isWord (h word List.mem_cons_self)
      cases rest with
      | nil => exact hword
      | cons next others =>
          have hrest := ih fun other hother => h other (List.mem_cons_of_mem _ hother)
          intro ch hch
          rw [Json.joinWith, String.toList_append, String.toList_append] at hch
          · rcases List.mem_append.1 hch with hch | hch
            · rcases List.mem_append.1 hch with hch | hch
              · exact hword ch hch
              · exact List.all_eq_true.1 hcomma ch hch
            · exact hrest ch hch
          · simp

theorem fits_list_around {text before after : String} (h : Content.list.Fits names text)
    (hbefore : before.toList.all isHarmless = true) (hafter : after.toList.all isHarmless = true) :
    Content.list.Fits names (before ++ text ++ after) := by
  intro ch hch
  rw [String.toList_append, String.toList_append] at hch
  rcases List.mem_append.1 hch with hch | hch
  · rcases List.mem_append.1 hch with hch | hch
    · exact List.all_eq_true.1 hbefore ch hch
    · exact h ch hch
  · exact List.all_eq_true.1 hafter ch hch

theorem fits_string_escape (text : String) : Content.string.Fits names (escape text) :=
  passes_escape text

theorem fits_line_of_mem_commentLines {text line : String} (h : line ∈ commentLines text) :
    Content.line.Fits names line :=
  passes_commentLine h

/-- Without an asterisk no comment ends. -/
theorem fits_line_of_not_mem {text : String} (h : '*' ∉ text.toList) :
    Content.line.Fits names text :=
  fun _ => (passes_comment_of_not_mem h).mono (fun _ => id) fun _ hq => ⟨false, hq⟩

/-! ## Pages of definitions -/

/-- The lines of a doc comment. -/
def linesForm : Form := .list (.content .line)

def PropertyPage.form : Form :=
  .record
    [("key", .content .type), ("optional", .flag), ("readonly", .flag),
      ("tsType", .content .type), ("doc", linesForm)]

def MemberPage.form : Form :=
  .record [("key", .content .type), ("value", .content .type), ("doc", linesForm)]

/-- The fields of the context of a definition. -/
def ModelPage.fields : List (String × Form) :=
  [("name", .content .list), ("kind", .flag), ("imports", .list (.content (.name .definition))),
    ("doc", linesForm), ("tsType", .content .type), ("asEnum", .flag), ("asInterface", .flag),
    ("properties", .list PropertyPage.form), ("members", .list MemberPage.form),
    ("httpClient", .flag), ("useUnionTypes", .flag)]

theorem fits_line_of_mem_modelDoc {m : Model} {line : String} (h : line ∈ modelDoc m) :
    Content.line.Fits names line := by
  rcases List.mem_append.1 h with h | h
  · cases hdescription : m.description with
    | none => simp [hdescription] at h
    | some text =>
        rw [hdescription] at h
        exact fits_line_of_mem_commentLines h
  · split at h
    · obtain rfl := List.mem_singleton.1 h
      exact fits_line_of_not_mem (by decide)
    · cases h

theorem fits_ofProperty {m : Model} (h : ∀ name ∈ m.references, IsWord name) :
    PropertyPage.form.Fits names (ofProperty m).context :=
  .object <|
    .cons ⟨rfl, .string (passes_propertyKey m.name)⟩ <|
    .cons ⟨rfl, .flag _ fun _ => rfl⟩ <|
    .cons ⟨rfl, .flag _ fun _ => rfl⟩ <|
    .cons ⟨rfl, .string (Model.isCalmType_expression h)⟩ <|
    .cons ⟨rfl, .strings fun _ => fits_line_of_mem_modelDoc⟩ .nil

theorem fits_ofMember (m : Model.Member) : MemberPage.form.Fits names (ofMember m).context := by
  have hdoc : ∀ line ∈ (ofMember m).doc, Content.line.Fits names line := by
    intro line hline
    cases hdescription : m.description with
    | none => simp [ofMember, hdescription] at hline
    | some text =>
        simp only [ofMember, hdescription, Option.map_some, Option.getD_some] at hline
        exact fits_line_of_mem_commentLines hline
  exact .object <|
    .cons ⟨rfl, .string (passes_memberKey m.name)⟩ <|
    .cons ⟨rfl, .string (passes_literal m.value)⟩ <|
    .cons ⟨rfl, .strings hdoc⟩ .nil

/-- The page of a definition imports definitions of the client only. -/
theorem fits_ofModel (hc : c.Coherent) {m : Model} (hm : m ∈ c.models) :
    Form.Fits (c.names options) (.record ModelPage.fields) (ofModel options m).context := by
  have hall : m ∈ c.allModels := List.mem_append_left _ hm
  have himports : ∀ name ∈ m.imports,
      (Content.name .definition).Fits (c.names options) name := fun name hname =>
    have hmem := hc.modelImports m hm name hname
    ⟨hmem, hc.isWord_of_mem_definitions hmem⟩
  have hproperties : ∀ i ∈ (m.properties.map ofProperty).map (·.context),
      PropertyPage.form.Fits (c.names options) i := by
    intro i hi
    obtain ⟨_, hpage, rfl⟩ := List.mem_map.1 hi
    obtain ⟨p, hp, rfl⟩ := List.mem_map.1 hpage
    have hpart : p ∈ m.parts := List.mem_append_right _ hp
    exact fits_ofProperty fun name => hc.isWord_of_mem_references_part hall hpart
  have hmembers : ∀ i ∈ (m.members.map ofMember).map (·.context),
      MemberPage.form.Fits (c.names options) i := by
    intro i hi
    obtain ⟨_, hpage, rfl⟩ := List.mem_map.1 hi
    obtain ⟨member, _, rfl⟩ := List.mem_map.1 hpage
    exact fits_ofMember member
  have htype := Model.isCalmType_expression fun _ => hc.isWord_of_mem_references hall
  exact .object <|
    .cons ⟨rfl, .string (fits_list_of_isWord (hc.definitions m hm))⟩ <|
    .cons ⟨rfl, .flag _ fun _ => rfl⟩ <|
    .cons ⟨rfl, .strings himports⟩ <|
    .cons ⟨rfl, .strings fun _ => fits_line_of_mem_modelDoc⟩ <|
    .cons ⟨rfl, .string htype⟩ <|
    .cons ⟨rfl, .flag _ fun _ => rfl⟩ <|
    .cons ⟨rfl, .flag _ fun _ => rfl⟩ <|
    .cons ⟨rfl, .array hproperties⟩ <|
    .cons ⟨rfl, .array hmembers⟩ <|
    .cons ⟨rfl, .flag _ fun _ => rfl⟩ <|
    .cons ⟨rfl, .flag _ fun _ => rfl⟩ .nil

/-! ## Pages of services -/

def SentField.form : Form := .record [("prop", .content .string), ("name", .content .list)]

def SentBody.form : Form := .record [("name", .content .list), ("mediaType", .content .string)]

def KnownFailure.form : Form :=
  .record [("code", .content .type), ("description", .content .string)]

def OperationPage.form : Form :=
  .record
    [("name", .content .list), ("hookName", .content .list), ("doc", linesForm),
      ("method", .content .string), ("pathPattern", .content .path),
      ("routePattern", .content .string), ("signature", .content .type),
      ("arguments", .content .list), ("deps", .content .list), ("result", .content .type),
      ("path", .list SentField.form), ("query", .list SentField.form),
      ("headers", .list SentField.form), ("cookies", .list SentField.form),
      ("body", SentBody.form), ("errors", .list KnownFailure.form),
      ("responseHeader", .content .string), ("validator", .content .list)]

/-- The fields of the context of a service. -/
def ServicePage.fields : List (String × Form) :=
  [("name", .content .list), ("imports", .list (.content (.name .definition))),
    ("validators", .list (.content (.name .validator))),
    ("operations", .list OperationPage.form), ("httpClient", .flag), ("useUnionTypes", .flag),
    ("useVersion", .flag), ("useOptions", .flag), ("runtimeValidation", .flag),
    ("precompileValidator", .flag), ("throwOnRequestFailed", .flag), ("verboseHttpLog", .flag)]

open Operation (Argument)

/-- An argument with its type can be written in any parameter list. -/
theorem isCalmType_typedName {a : Argument} (hname : IsWord a.identifier)
    (htype : Model.IsCalmType a.model.expression) : Model.IsCalmType (typedName a) := by
  have hcolon : Passes InCode Calm ((if a.model.isRequired then "" else "?") ++ ": ").toList := by
    cases a.model.isRequired <;> exact passes_settling (by decide)
  have htext : (typedName a).toList = a.identifier.toList ++
      ((if a.model.isRequired then "" else "?") ++ ": ").toList ++ a.model.expression.toList := by
    simp only [typedName, String.toList_append, List.append_assoc]
  rw [Model.IsCalmType, htext]
  have hstart := (passes_name hname).mono (fun _ => Calm.inCode) fun _ => id
  exact (hstart.append hcolon).append htype

theorem fits_nameList {arguments : List Argument} (h : ∀ a ∈ arguments, IsWord a.identifier) :
    Content.list.Fits names (nameList arguments) := by
  refine fits_list_joinWith fun word hword => ?_
  obtain ⟨a, ha, rfl⟩ := List.mem_map.1 hword
  exact h a ha

theorem fits_bindingPattern {arguments : List Argument}
    (h : ∀ a ∈ arguments, IsWord a.identifier) :
    Content.list.Fits names (bindingPattern arguments) :=
  fits_list_around (fits_nameList h) (by decide) (by decide)

theorem fits_callArguments {arguments : List Argument} (h : ∀ a ∈ arguments, IsWord a.identifier)
    (useOptions : Bool) : Content.list.Fits names (callArguments arguments useOptions) := by
  unfold callArguments
  split
  · exact fits_list_empty
  · split
    · exact fits_bindingPattern h
    · exact fits_nameList h

theorem isCalmType_signature {arguments : List Argument}
    (hnames : ∀ a ∈ arguments, IsWord a.identifier)
    (htypes : ∀ a ∈ arguments, Model.IsCalmType a.model.expression) (useOptions : Bool) :
    Model.IsCalmType (signature arguments useOptions) := by
  have htyped : ∀ a ∈ arguments, Model.IsCalmType (typedName a) := fun a ha =>
    isCalmType_typedName (hnames a ha) (htypes a ha)
  unfold signature
  split
  · exact .nil fun _ => Calm.inCode
  · split
    · have hlist : Content.list.Fits (fun _ _ => True) (bindingPattern arguments) :=
        fits_bindingPattern hnames
      have hpattern : Passes Calm InCode (bindingPattern arguments).toList :=
        (passes_inCode hlist).mono (fun _ => Calm.inCode) fun _ => id
      have hmember : ∀ text ∈ arguments.map (fun a => typedName a ++ ";"),
          Passes Calm Calm text.toList := by
        intro text htext
        obtain ⟨a, ha, rfl⟩ := List.mem_map.1 htext
        rw [String.toList_append]
        exact Passes.append (htyped a ha) (passes_settling (by decide))
      have hmembers : Passes Calm Calm
          (Json.joinWith " " (arguments.map fun a => typedName a ++ ";")).toList :=
        passes_joinWith (fun _ => id) (passes_blanks (List.all_eq_true.1 (by decide)))
          hmember
      have hopen : Passes InCode Calm ": \x7b ".toList := passes_settling (by decide)
      have hclose : Passes Calm Calm " \x7d".toList :=
        (passes_settling (by decide)).mono (fun _ => Calm.inCode) fun _ => id
      have hdefault : Passes Calm InCode (if arguments.all (!·.model.isRequired)
          then " = \x7b\x7d" else "").toList := by
        split
        · exact (passes_inCode (List.all_eq_true.1 (by decide))).mono (fun _ => Calm.inCode)
            fun _ => id
        · exact .nil fun _ => Calm.inCode
      rw [Model.IsCalmType]
      simp only [String.toList_append]
      exact (((hpattern.append hopen).append hmembers).append hclose).append hdefault
    · refine passes_joinWith (fun _ => Calm.inCode) (passes_settling (by decide))
        fun text htext => ?_
      obtain ⟨a, ha, rfl⟩ := List.mem_map.1 htext
      exact htyped a ha

theorem mem_of_mem_firstOccurrences {seen items : List String} {item : String}
    (h : item ∈ firstOccurrences seen items) : item ∈ items := by
  induction items generalizing seen with
  | nil => exact h
  | cons first rest ih =>
      rw [firstOccurrences] at h
      split at h
      · exact List.mem_cons_of_mem _ (ih h)
      · rcases List.mem_cons.1 h with rfl | h
        · exact List.mem_cons_self
        · exact List.mem_cons_of_mem _ (ih h)

theorem isCalmType_resultType {op : Operation}
    (h : ∀ o ∈ op.successes, Model.IsCalmType o.model.expression) :
    Model.IsCalmType (resultType op) := by
  unfold resultType
  split
  · exact Model.isCalmType_of_isHarmless (by decide)
  · refine passes_joinWith (fun _ => Calm.inCode) (passes_settling (by decide))
      fun text htext => ?_
    obtain ⟨o, ho, rfl⟩ := List.mem_map.1 (mem_of_mem_firstOccurrences htext)
    exact h o ho

theorem fits_sentFields {arguments : List Argument} (h : ∀ a ∈ arguments, IsWord a.identifier) :
    Form.Fits names (.list SentField.form)
      (.array ((sentFields arguments).map (·.context))) := by
  refine .array fun i hi => ?_
  obtain ⟨_, hfield, rfl⟩ := List.mem_map.1 hi
  obtain ⟨a, ha, rfl⟩ := List.mem_map.1 hfield
  exact .object <|
    .cons ⟨rfl, .string (fits_string_escape a.wireName)⟩ <|
    .cons ⟨rfl, .string (fits_list_of_isWord (h a ha))⟩ .nil

/-- A failure in a comment, behind its status. -/
theorem fits_throwsLine {f : Operation.Failure} (h : ¬ terminator <:+: f.reason.toList) :
    Content.line.Fits names ("@throws ApiError " ++ f.status.text ++ " " ++ f.reason) := by
  intro b
  have hstart : '*' ∉ ("@throws ApiError " ++ f.status.text ++ " ").toList :=
    not_mem_throwsStart (by decide) (by decide) (by decide) f.status
  rw [String.toList_append]
  exact (passes_comment_of_not_mem hstart).append (passes_comment h)

theorem fits_line_of_mem_operationDoc {op : Operation}
    (hplain : op.IsPlain options.throwOnRequestFailed) {line : String}
    (h : line ∈ operationDoc op options) : Content.line.Fits names line := by
  have htext : ∀ text : Option String, line ∈ (text.map commentLines).getD [] →
      Content.line.Fits names line := by
    intro text hline
    cases text with
    | none => simp at hline
    | some text => exact fits_line_of_mem_commentLines hline
  simp only [operationDoc, List.mem_append] at h
  rcases h with (((h | h) | h) | h) | h
  case inl.inl.inl.inl => exact htext _ h
  case inl.inl.inl.inr => exact htext _ h
  case inl.inl.inr =>
    split at h
    · obtain rfl := List.mem_singleton.1 h
      exact fits_line_of_not_mem (by decide)
    · cases h
  case inl.inr =>
    obtain ⟨a, _, hline⟩ := List.mem_flatMap.1 h
    exact fits_line_of_mem_commentLines hline
  case inr =>
    split at h
    · rename_i hthrows
      obtain ⟨f, hf, rfl⟩ := List.mem_map.1 h
      exact fits_throwsLine (hplain.reasons hthrows f hf)
    · cases h

theorem fits_method (method : Method) :
    Content.string.Fits names (Text.upperAscii method.key) := by
  have hword : (Text.upperAscii method.key).toList.all Naming.isNameChar = true := by
    cases method <;> decide
  exact passes_string_of_name (List.all_eq_true.1 hword)

/-- The body of an operation, or nothing. -/
theorem fits_sentBody {op : Operation}
    (hwords : ∀ a ∈ op.bodyArgument, IsWord a.identifier)
    (hmediaTypes : ∀ a ∈ op.bodyArgument, escape (a.mediaType.getD "") = a.mediaType.getD "") :
    SentBody.form.Fits names (((ofOperation options op).body.map (·.context)).getD .null) := by
  cases ha : op.bodyArgument with
  | none =>
      simp only [ofOperation, ha]
      exact .record_null _
  | some a =>
      simp only [ofOperation, ha]
      have hmediaType : Content.string.Fits names (a.mediaType.getD "") := by
        rw [← hmediaTypes a ha]
        exact fits_string_escape _
      exact .object <|
        .cons ⟨rfl, .string (fits_list_of_isWord (hwords a ha))⟩ <|
        .cons ⟨rfl, .string hmediaType⟩ .nil

theorem fits_knownFailures (op : Operation) :
    Form.Fits names (.list KnownFailure.form)
      (.array ((ofOperation options op).errors.map (·.context))) := by
  refine .array fun i hi => ?_
  obtain ⟨_, hpage, rfl⟩ := List.mem_map.1 hi
  obtain ⟨f, _, rfl⟩ := List.mem_map.1 hpage
  exact .object <|
    .cons ⟨rfl, .string (passes_propertyKey f.status.text)⟩ <|
    .cons ⟨rfl, .string (fits_string_escape f.reason)⟩ .nil

/-- An operation is validated by a definition. -/
theorem fits_validator (hc : c.Coherent) {s : Service} {op : Operation} (hs : s ∈ c.services)
    (hop : op ∈ s.operations) :
    ∀ name ∈ (ofOperation options op).validator, Content.list.Fits names name := by
  intro name hname
  simp only [ofOperation, Option.mem_def, Option.ite_none_right_eq_some] at hname
  exact fits_list_of_isWord
    (hc.isWord_of_mem_definitions (hc.mem_definitions_of_validatedModel? hs hop hname.2))

/-- The page of an operation of a coherent client. -/
theorem fits_ofOperation (hc : c.Coherent) {s : Service} {op : Operation} (hs : s ∈ c.services)
    (hop : op ∈ s.operations) (hplain : op.IsPlain options.throwOnRequestFailed) :
    OperationPage.form.Fits names (ofOperation options op).context := by
  have hnamed := hc.operations s hs op hop
  have hall : ∀ m ∈ op.models, Model.IsCalmType m.expression := fun m hm =>
    Model.isCalmType_expression fun name hname =>
      hc.isWord_of_mem_references (Client.mem_allModels_of_mem_operations hs hop hm) hname
  have htypes : ∀ a ∈ op.arguments, Model.IsCalmType a.model.expression := fun a ha =>
    hall _ (Operation.model_mem_of_mem_allArguments (Operation.mem_allArguments.2 (.inl ha)))
  have hwords : ∀ a ∈ op.arguments, IsWord a.identifier := fun a ha =>
    hnamed.identifiers a (Operation.mem_allArguments.2 (.inl ha))
  have hbody : ∀ a ∈ op.bodyArgument, IsWord a.identifier := fun a ha =>
    hnamed.identifiers a (Operation.mem_allArguments.2 (by simp [Option.mem_def.1 ha]))
  have hpath : Content.path.Fits names (ofOperation options op).pathPattern := by
    obtain ⟨identifier, hidentifier, hpattern⟩ := hnamed.pathPattern
    rw [ofOperation, hpattern]
    exact PathTemplate.passes_pathText hplain.path hidentifier
  have hdeps : Content.list.Fits names ("[" ++ nameList op.arguments ++ "]") :=
    fits_list_around (fits_nameList hwords) (by decide) (by decide)
  have hresult : Model.IsCalmType (resultType op) :=
    isCalmType_resultType fun o ho => hall _ (Operation.model_mem_of_mem_successes ho)
  have hheader : ∀ text ∈ op.responseHeader.map escape, Content.string.Fits names text := by
    intro text htext
    obtain ⟨header, _, rfl⟩ := Option.map_eq_some_iff.1 htext
    exact fits_string_escape header
  exact .object <|
    .cons ⟨rfl, .string (fits_list_of_isWord hnamed.name)⟩ <|
    .cons ⟨rfl, .string (fits_list_of_isWord hnamed.hookName)⟩ <|
    .cons ⟨rfl, .strings fun _ => fits_line_of_mem_operationDoc hplain⟩ <|
    .cons ⟨rfl, .string (fits_method op.method)⟩ <|
    .cons ⟨rfl, .string hpath⟩ <|
    .cons ⟨rfl, .string (fits_string_escape op.routePattern)⟩ <|
    .cons ⟨rfl, .string (isCalmType_signature hwords htypes options.useOptions)⟩ <|
    .cons ⟨rfl, .string (fits_callArguments hwords options.useOptions)⟩ <|
    .cons ⟨rfl, .string hdeps⟩ <|
    .cons ⟨rfl, .string hresult⟩ <|
    .cons ⟨rfl, fits_sentFields fun a ha =>
      hnamed.identifiers a (Operation.mem_allArguments.2 (by simp [ha]))⟩ <|
    .cons ⟨rfl, fits_sentFields fun a ha =>
      hnamed.identifiers a (Operation.mem_allArguments.2 (by simp [ha]))⟩ <|
    .cons ⟨rfl, fits_sentFields fun a ha =>
      hnamed.identifiers a (Operation.mem_allArguments.2 (by simp [ha]))⟩ <|
    .cons ⟨rfl, fits_sentFields fun a ha =>
      hnamed.identifiers a (Operation.mem_allArguments.2 (by simp [ha]))⟩ <|
    .cons ⟨rfl, fits_sentBody hbody hplain.mediaType⟩ <|
    .cons ⟨rfl, fits_knownFailures op⟩ <|
    .cons ⟨rfl, .ofOption (.nil fun _ => id) hheader⟩ <|
    .cons ⟨rfl, .ofOption fits_list_empty (fits_validator hc hs hop)⟩ .nil

/-- The page of a service imports definitions of the client and, where there are any, their
validators. -/
theorem fits_ofService (hc : c.Coherent) {s : Service} (hs : s ∈ c.services)
    (hplain : ∀ op ∈ s.operations, op.IsPlain options.throwOnRequestFailed) :
    Form.Fits (c.names options) (.record ServicePage.fields) (ofService options s).context := by
  have himports : ∀ name ∈ s.imports, (Content.name .definition).Fits (c.names options) name :=
    fun name hname =>
      have hmem := hc.serviceImports s hs name hname
      ⟨hmem, hc.isWord_of_mem_definitions hmem⟩
  have hvalidators : ∀ name ∈ (ofService options s).validators,
      (Content.name .validator).Fits (c.names options) name := by
    intro name hname
    obtain ⟨_, hpage, hname⟩ := List.mem_filterMap.1 (Text.mem_sortedNames.1 hname)
    obtain ⟨op, hop, rfl⟩ := List.mem_map.1 hpage
    simp only [ofOperation, Option.ite_none_right_eq_some, Bool.and_eq_true] at hname
    have hmem := hc.mem_definitions_of_validatedModel? hs hop hname.2
    exact ⟨⟨hname.1.2, hmem⟩, hc.isWord_of_mem_definitions hmem⟩
  have hoperations : ∀ i ∈ (ofService options s).operations.map (·.context),
      OperationPage.form.Fits (c.names options) i := by
    intro i hi
    obtain ⟨_, hpage, rfl⟩ := List.mem_map.1 hi
    obtain ⟨op, hop, rfl⟩ := List.mem_map.1 hpage
    exact fits_ofOperation hc hs hop (hplain op hop)
  exact .object <|
    .cons ⟨rfl, .string (fits_list_of_isWord (hc.services s hs))⟩ <|
    .cons ⟨rfl, .strings himports⟩ <|
    .cons ⟨rfl, .strings hvalidators⟩ <|
    .cons ⟨rfl, .array hoperations⟩ <|
    .cons ⟨rfl, .flag _ fun _ => rfl⟩ <|
    .cons ⟨rfl, .flag _ fun _ => rfl⟩ <|
    .cons ⟨rfl, .flag _ fun _ => rfl⟩ <|
    .cons ⟨rfl, .flag _ fun _ => rfl⟩ <|
    .cons ⟨rfl, .flag _ fun _ => rfl⟩ <|
    .cons ⟨rfl, .flag _ fun _ => rfl⟩ <|
    .cons ⟨rfl, .flag _ fun _ => rfl⟩ <|
    .cons ⟨rfl, .flag _ fun _ => rfl⟩ .nil

/-! ## Pages of the core and the index -/

/-- The fields of the context of the core. -/
def coreFields : List (String × Form) :=
  [("httpClient", .flag), ("variation", .flag), ("server", .content .string),
    ("version", .content .string), ("runtimeValidation", .flag), ("throwOnRequestFailed", .flag),
    ("verboseHttpLog", .flag)]

/-- The fields of the context of the index. What is exported depends on the options. -/
def indexFields (variation : Variation) (schemas validators : Bool) : List (String × Form) :=
  [("exportCore", .flag), ("exportServices", .flag), ("exportModels", .flag),
    ("exportSchemas", .known (.bool schemas)), ("precompileValidator", .known (.bool validators)),
    ("variation", .known (.string variation.name)),
    ("models", .list (.record [("name", .content (.name .definition)), ("isEnum", .flag)])),
    ("services", .list (.record [("name", .content .list), ("module", .content (.name .module))]))]

theorem fits_coreContext (options : Options) (c : Client) :
    Form.Fits names (.record coreFields) (coreContext options c) :=
  .object <|
    .cons ⟨rfl, .flag _ fun _ => rfl⟩ <|
    .cons ⟨rfl, .flag _ fun _ => rfl⟩ <|
    .cons ⟨rfl, .string (fits_string_escape c.server)⟩ <|
    .cons ⟨rfl, .string (fits_string_escape c.version)⟩ <|
    .cons ⟨rfl, .flag _ fun _ => rfl⟩ <|
    .cons ⟨rfl, .flag _ fun _ => rfl⟩ <|
    .cons ⟨rfl, .flag _ fun _ => rfl⟩ .nil

theorem isWord_serviceModule {s : Service} (h : IsWord s.name) : IsWord (serviceModule s) := by
  have hservice : "Service".toList.all Naming.isNameChar = true := by decide
  exact h.append (List.all_eq_true.1 hservice)

theorem fits_indexContext (hc : c.Coherent) :
    Form.Fits (c.names options)
      (.record (indexFields options.variation options.exportSchemas options.precompileValidator))
      (indexContext options c) := by
  refine .object <|
    .cons ⟨rfl, .flag _ fun _ => rfl⟩ <|
    .cons ⟨rfl, .flag _ fun _ => rfl⟩ <|
    .cons ⟨rfl, .flag _ fun _ => rfl⟩ <|
    .cons ⟨rfl, .known _ fun _ => rfl⟩ <|
    .cons ⟨rfl, .known _ fun _ => rfl⟩ <|
    .cons ⟨rfl, .known _ fun _ => rfl⟩ <|
    .cons ⟨rfl, .array fun i hi => ?_⟩ <|
    .cons ⟨rfl, .array fun i hi => ?_⟩ .nil
  · obtain ⟨m, hm, rfl⟩ := List.mem_map.1 hi
    exact .object <|
      .cons ⟨rfl, .string ⟨List.mem_map_of_mem hm, hc.definitions m hm⟩⟩ <|
      .cons ⟨rfl, .flag _ fun _ => rfl⟩ .nil
  · obtain ⟨s, hs, rfl⟩ := List.mem_map.1 hi
    exact .object <|
      .cons ⟨rfl, .string (fits_list_of_isWord (hc.services s hs))⟩ <|
      .cons ⟨rfl, .string ⟨List.mem_map_of_mem hs, isWord_serviceModule (hc.services s hs)⟩⟩ .nil

end Page

end TypedClient
