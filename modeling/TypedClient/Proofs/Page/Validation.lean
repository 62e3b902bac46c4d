import TypedClient.Proofs.Client.Drafted
import TypedClient.Proofs.Page.Statements

/-!
# Validators and headers

The request options of an operation may name the validator of a definition, and they may name a
header that is returned instead of the body. A validator is named only where every success is of its
definition. Whether a header is named is decided on its own, so that the validator is applied to the
text of the header if there are both (`validator_fits_iff`).
-/

namespace TypedClient

/-- All successes, and there are some, are surely of the definition with this name. -/
def Operation.SucceedsWith (op : Operation) (name : String) : Prop :=
  op.successes ≠ [] ∧ ∀ o ∈ op.successes,
    o.model.kind = .reference ∧ o.model.isNullable = false ∧ o.model.base = name

namespace Page

open Template Script

/-! ## The lines of the request options -/

/-- A line for a value that is there and not empty. -/
def optionalLine (start stop : String) : Option String → String
  | none => ""
  | some value => if value = "" then "" else start ++ value ++ stop

/-- A part for a value is a line, if there is anything to be written. -/
theorem render?_optionalLine {env : Env} {path : List String} (start stop : String)
    (value : Option String) (h : env.lookup? path = some (.ofOption value)) :
    (Node.when (.holds path) [.text start, .value path, .text stop] []).render? env =
      some (optionalLine start stop value) := by
  cases value with
  | none => simp [Node.render?, Test.passes?, h, Json.ofOption, isTruthy, optionalLine]
  | some text =>
      have hflag : (env.lookup? path).any isTruthy = !decide (text = "") := by
        have hempty : text.isEmpty = decide (text = "") := by
          rw [Bool.eq_iff_iff, decide_eq_true_iff, String.isEmpty_iff]
        rw [h, ← hempty]
        rfl
      rw [render?_when _ hflag]
      by_cases hempty : text = ""
      · simp [hempty, optionalLine]
      · simp [hempty, optionalLine, renderAll?_value h, valueText, Json.ofOption,
          String.append_assoc]

namespace OperationPage

/-- The request options name the header. -/
def CarriesHeader (p : OperationPage) (header : String) : Prop :=
  p.responseHeader = some header ∧ header ≠ ""

/-- The request options name the validator of the definition. -/
def CarriesValidator (p : OperationPage) (name : String) : Prop :=
  p.validator = some name ∧ name ≠ ""

instance (p : OperationPage) (header : String) : Decidable (p.CarriesHeader header) :=
  inferInstanceAs (Decidable (_ ∧ _))

instance (p : OperationPage) (name : String) : Decidable (p.CarriesValidator name) :=
  inferInstanceAs (Decidable (_ ∧ _))

end OperationPage

/-- The parts of the request options in front of the header. -/
def requestNodes : List Node := (optionsFunction.drop 3).take 10

/-- The part between the header and the validator. -/
def errorNodes : List Node := (optionsFunction.drop 14).take 1

/-- The request options, with the lines for the header and the validator in their places. -/
def requestOptions (page : ServicePage) (p : OperationPage) : String :=
  textOf (operationEnv page p) requestNodes ++
    optionalLine "\nresponseHeader: '" "'," p.responseHeader ++
    textOf (operationEnv page p) errorNodes ++
    optionalLine "\nvalidate: validate" "," p.validator ++ "\n\x7d);\n"

theorem textOf_options (page : ServicePage) (p : OperationPage) :
    textOf (operationEnv page p) (optionsFunction.drop 3) = requestOptions page p := by
  have hnodes : optionsFunction.drop 3 = requestNodes ++
      .when (.holds ["op", "responseHeader"])
        [.text "\nresponseHeader: '", .value ["op", "responseHeader"], .text "',"] [] ::
      (errorNodes ++
        [.when (.holds ["op", "validator"])
          [.text "\nvalidate: validate", .value ["op", "validator"], .text ","] [],
        .text "\n\x7d);\n"]) := rfl
  have hall := exists_render?_options page p
  rw [hnodes] at hall
  have hrequest : renderAll? (operationEnv page p) requestNodes = some _ :=
    renderAll?_eq_textOf fun node hnode => hall node (List.mem_append_left _ hnode)
  have herrors : renderAll? (operationEnv page p) errorNodes = some _ :=
    renderAll?_eq_textOf fun node hnode => hall node (List.mem_append_right _
      (List.mem_cons_of_mem _ (List.mem_append_left _ hnode)))
  have hheader : (Node.when (.holds ["op", "responseHeader"])
      [.text "\nresponseHeader: '", .value ["op", "responseHeader"], .text "',"] []).render?
        (operationEnv page p) = _ := render?_optionalLine _ _ p.responseHeader rfl
  have hvalidator : (Node.when (.holds ["op", "validator"])
      [.text "\nvalidate: validate", .value ["op", "validator"], .text ","] []).render?
        (operationEnv page p) = _ := render?_optionalLine _ _ p.validator rfl
  rw [textOf, hnodes, renderAll?_append hrequest, renderAll?_cons hheader,
    renderAll?_append herrors, renderAll?_cons hvalidator, renderAll?_text, renderAll?_nil]
  simp only [Option.map_some, Option.getD_some, requestOptions, String.append_assoc,
    String.append_empty]

/-- The module of a service declares the request options of each of its operations. -/
theorem declare_requestOptions_mem (options : Options) {s : Service} {op : Operation}
    (hop : op ∈ s.operations) (variation : Variation) :
    Statement.declare .constant (optionsName op.name)
      (" = (" ++ requestOptions (ofService options s) (ofOperation options op)) ∈
        serviceStatements variation (ofService options s) := by
  have hpage : ofOperation options op ∈ (ofService options s).operations := List.mem_map_of_mem hop
  refine mem_serviceStatements _ hpage ?_
  rw [← textOf_options]
  exact List.mem_append_left _ (List.mem_cons_of_mem _ List.mem_cons_self)

theorem exists_declare_requestOptions (options : Options) {s : Service} {op : Operation}
    (hop : op ∈ s.operations) (variation : Variation) :
    ∃ statements, (Emission.serviceArtifact variation).render (ofService options s).context =
        .ok (moduleText statements) ∧
      Statement.declare .constant (optionsName op.name)
        (" = (" ++ requestOptions (ofService options s) (ofOperation options op)) ∈ statements :=
  ⟨_, render_service (ofService options s) variation,
    declare_requestOptions_mem options hop variation⟩

/-! ## Which validator is named -/

theorem plainReference?_eq_some_iff {o : Operation.Outcome} {name : String} :
    plainReference? o = some name ↔
      o.model.kind = .reference ∧ o.model.isNullable = false ∧ o.model.base = name := by
  rw [plainReference?, Option.ite_none_right_eq_some, Option.some.injEq, Bool.not_eq_true',
    and_assoc]

/-- A validator is chosen exactly if all successes are of its definition. -/
theorem validatedModel?_eq_some_iff {op : Operation} {name : String} :
    validatedModel? op = some name ↔ op.SucceedsWith name := by
  have hall : op.SucceedsWith name ↔ op.successes ≠ [] ∧
      ∀ reference ∈ op.successes.map plainReference?, reference = some name := by
    simp only [Operation.SucceedsWith, List.forall_mem_map, plainReference?_eq_some_iff]
  rw [hall, validatedModel?]
  cases op.successes with
  | nil => simp
  | cons o others =>
      rw [List.map_cons, List.forall_mem_cons]
      cases plainReference? o with
      | none => simp
      | some first =>
          simp only [Option.ite_none_right_eq_some, List.all_eq_true, beq_iff_eq]
          constructor
          · rintro ⟨hothers, hfirst⟩
            obtain rfl := Option.some.inj hfirst
            exact ⟨List.cons_ne_nil _ _, rfl, hothers⟩
          · rintro ⟨-, hfirst, hothers⟩
            obtain rfl := Option.some.inj hfirst
            exact ⟨hothers, rfl⟩

/-- Escaping leaves no text empty that is not. -/
theorem escape_eq_empty_iff (text : String) : Script.escape text = "" ↔ text = "" := by
  have hchar : ∀ c, escapeChar c ≠ [] := by
    intro c
    unfold escapeChar
    split <;> exact List.cons_ne_nil _ _
  rw [← String.toList_eq_nil_iff, ← String.toList_eq_nil_iff, Script.escape, String.toList_ofList,
    List.flatMap_eq_nil_iff]
  constructor
  · intro hnone
    exact List.eq_nil_iff_forall_not_mem.2 fun c hc => hchar c (hnone c hc)
  · intro hnil c hc
    simp [hnil] at hc

/-- The request options of an operation name a header if the operation has one. -/
theorem exists_carriesHeader_iff (options : Options) (op : Operation) :
    (∃ header, (ofOperation options op).CarriesHeader header) ↔
      ∃ header, op.responseHeader = some header ∧ header ≠ "" := by
  have hheader : (ofOperation options op).responseHeader =
      op.responseHeader.map Script.escape := rfl
  simp only [OperationPage.CarriesHeader, hheader, Option.map_eq_some_iff]
  constructor
  · rintro ⟨_, ⟨header, hop, rfl⟩, hne⟩
    exact ⟨header, hop, fun hempty => hne ((escape_eq_empty_iff header).2 hempty)⟩
  · rintro ⟨header, hop, hne⟩
    exact ⟨_, ⟨header, hop, rfl⟩, fun hempty => hne ((escape_eq_empty_iff header).1 hempty)⟩

/-- They name a validator if this is asked for and all successes are of one definition. -/
theorem carriesValidator_iff (options : Options) (op : Operation) (name : String) :
    (ofOperation options op).CarriesValidator name ↔
      options.runtimeValidation = true ∧ options.precompileValidator = true ∧ name ≠ "" ∧
        op.SucceedsWith name := by
  have hvalidator : (ofOperation options op).validator =
      if options.runtimeValidation && options.precompileValidator then validatedModel? op
      else none := rfl
  rw [OperationPage.CarriesValidator, hvalidator, Option.ite_none_right_eq_some, Bool.and_eq_true,
    validatedModel?_eq_some_iff]
  tauto

/-- The module of a service writes the request options of its operations, with a line for a header
and a line for a validator. Where a validator is named, all successes are of its definition. That
none is named beside a header holds exactly if validators are not asked for, the operation has no
header, or its successes are not all of one definition. -/
theorem validator_fits_iff (options : Options) (op : Operation) :
    (∀ (s : Service) (variation : Variation), op ∈ s.operations → ∃ statements,
      (Emission.serviceArtifact variation).render (ofService options s).context =
          .ok (moduleText statements) ∧
        Statement.declare .constant (optionsName op.name)
          (" = (" ++ requestOptions (ofService options s) (ofOperation options op)) ∈
            statements) ∧
    (∀ name, (ofOperation options op).CarriesValidator name → op.SucceedsWith name) ∧
    ((∀ header, (ofOperation options op).CarriesHeader header →
        ∀ name, ¬ (ofOperation options op).CarriesValidator name) ↔
      ¬ (options.runtimeValidation = true ∧ options.precompileValidator = true ∧
        (∃ header, op.responseHeader = some header ∧ header ≠ "") ∧
        ∃ name, name ≠ "" ∧ op.SucceedsWith name)) := by
  refine ⟨fun s variation hop => exists_declare_requestOptions options hop variation,
    fun name hname => ((carriesValidator_iff options op name).1 hname).2.2.2, ?_⟩
  rw [← exists_carriesHeader_iff options op]
  simp only [carriesValidator_iff]
  constructor
  · rintro hnone ⟨hruntime, hprecompile, ⟨header, hheader⟩, name, hne, hsucceeds⟩
    exact hnone header hheader name ⟨hruntime, hprecompile, hne, hsucceeds⟩
  · rintro hnot header hheader name ⟨hruntime, hprecompile, hne, hsucceeds⟩
    exact hnot ⟨hruntime, hprecompile, ⟨header, hheader⟩, name, hne, hsucceeds⟩

/-- The document of an operation that answers with a definition and some headers. -/
def petDocument (headers : List (String × Document.RefOr Document.Header)) : Document where
  openapi := "3.0.0"
  paths := [("/pets", { operations := [(.get, {
    operationId := some "getPet"
    responses := [("200", .inline {
      description := "a pet"
      content := [("application/json", { schema := some { ref := some "#/components/schemas/Pet" } })]
      headers := headers })] })] })]
  components := some {
    schemas := [("Pet", {
      type := some (.single "object")
      properties := [("name", { type := some (.single "string") })] })] }

theorem validator_fits_iff_petDocument :
    ∃ c, (Client.draft (petDocument []) true >>= Client.finish) = .ok c ∧
      ∃ s ∈ c.services, ∃ op ∈ s.operations, op.SucceedsWith "Pet" ∧
        (∃ statements, (Emission.serviceArtifact .reactHook).render
            (ofService { precompileValidator := true } s).context = .ok (moduleText statements) ∧
          Statement.declare .constant (optionsName op.name)
            (" = (" ++ requestOptions (ofService { precompileValidator := true } s)
              (ofOperation { precompileValidator := true } op)) ∈ statements) ∧
        ∀ header, (ofOperation { precompileValidator := true } op).CarriesHeader header →
          ∀ name, ¬ (ofOperation { precompileValidator := true } op).CarriesValidator name := by
  refine ⟨_, Client.draft_bind_finish_eq_ok_iff.2 ⟨by decide +kernel, rfl⟩, ?_⟩
  obtain ⟨s, hs, op, hop, hvalidator, hheader⟩ :
      ∃ s ∈ (Client.drafted (petDocument []) true).finished.services, ∃ op ∈ s.operations,
        (ofOperation { precompileValidator := true } op).CarriesValidator "Pet" ∧
          op.responseHeader = none := by
    decide +kernel
  obtain ⟨hrendered, hfits, hiff⟩ := validator_fits_iff { precompileValidator := true } op
  refine ⟨s, hs, op, hop, hfits "Pet" hvalidator, hrendered s .reactHook hop, hiff.2 ?_⟩
  rintro ⟨_, _, ⟨header, hsome, _⟩, _⟩
  rw [hheader] at hsome
  cases hsome

/-- With a header among them the successes are of one definition as well, and the header and the
validator are named side by side. -/
theorem header_beside_validator_petDocument :
    ∃ c, (Client.draft (petDocument [("X-Total", .inline {})]) true >>= Client.finish) = .ok c ∧
      ∃ s ∈ c.services, ∃ op ∈ s.operations,
        (ofOperation { precompileValidator := true } op).CarriesHeader "X-Total" ∧
          (ofOperation { precompileValidator := true } op).CarriesValidator "Pet" := by
  refine ⟨_, Client.draft_bind_finish_eq_ok_iff.2 ⟨by decide +kernel, rfl⟩, ?_⟩
  decide +kernel

end Page

end TypedClient
