import TypedClient.Proofs.Page.Validation
import TypedClient.Proofs.Script.StringValue

/-!
# Quoted values of a service

The templates of a service put values of the document between single quotes. What they write is
cut here into code and quotations (`requestOptions_eq`, `routeEntry_eq`), each with the value that
it was written for, and a quotation is good if the string at its place is read back as that value
and ends at the quote of the template, whatever comes behind it. All values are escaped but one, the
media type of a body, which is good only where nothing in it needs to be (`quotations_iff`).
-/

namespace TypedClient.Page

open Template Script
open Operation (Argument Failure)

/-! ## Code and quotations -/

/-- What stands between two quotes of a template. -/
inductive QuotedValue where
  | method
  | wireName
  | mediaType
  | responseHeader
  | reason
  | routePattern
deriving DecidableEq, Repr

/-- A value between quotes: the text that is written, and the text that it was written for. -/
structure Quotation where
  value : QuotedValue
  printed : String
  original : String
deriving DecidableEq, Repr

namespace Quotation

/-- A text that is written as it stands. -/
def plain (value : QuotedValue) (text : String) : Quotation := ⟨value, text, text⟩

/-- A text that is escaped. -/
def escaped (value : QuotedValue) (text : String) : Quotation := ⟨value, Script.escape text, text⟩

/-- The string that begins behind the opening quote ends at the closing one, and has the value that
was to be written. -/
def ReadsBack (q : Quotation) : Prop :=
  ∀ rest, readString .text (q.printed.toList ++ '\'' :: rest) =
    some (textUnits q.original.toList, rest)

theorem readsBack_escaped (value : QuotedValue) (text : String) : (escaped value text).ReadsBack :=
  fun rest => readString_escape text rest

theorem readsBack_plain_iff {value : QuotedValue} {text : String} :
    (plain value text).ReadsBack ↔ NeedsNoEscape text.toList :=
  ⟨fun h => (readString_raw_iff _ _).1 (h []), fun h rest => (readString_raw_iff _ rest).2 h⟩

end Quotation

/-- A piece of what a template writes. -/
inductive Fragment where
  | code (text : String)
  | quoted (q : Quotation)
deriving DecidableEq, Repr

/-- The text of a piece. The quotes around a value are those of the template. -/
def Fragment.text : Fragment → String
  | .code text => text
  | .quoted q => "'" ++ q.printed ++ "'"

/-- The text of some pieces. -/
def fragmentsText (fragments : List Fragment) : String := Text.concat (fragments.map Fragment.text)

/-- The quotations among some pieces. -/
def quotations : List Fragment → List Quotation
  | [] => []
  | .code _ :: rest => quotations rest
  | .quoted q :: rest => q :: quotations rest

@[simp]
theorem fragmentsText_nil : fragmentsText [] = "" := rfl

@[simp]
theorem fragmentsText_cons (fragment : Fragment) (rest : List Fragment) :
    fragmentsText (fragment :: rest) = fragment.text ++ fragmentsText rest := rfl

theorem fragmentsText_append (xs ys : List Fragment) :
    fragmentsText (xs ++ ys) = fragmentsText xs ++ fragmentsText ys := by
  rw [fragmentsText, List.map_append, Text.concat_append, fragmentsText, fragmentsText]

theorem fragmentsText_flatMap {α : Type} (fragments : α → List Fragment) (items : List α) :
    fragmentsText (items.flatMap fragments) =
      Text.concat (items.map fun a => fragmentsText (fragments a)) := by
  induction items with
  | nil => rfl
  | cons a items ih =>
      rw [List.flatMap_cons, fragmentsText_append, ih]
      rfl

theorem quotations_append (xs ys : List Fragment) :
    quotations (xs ++ ys) = quotations xs ++ quotations ys := by
  induction xs with
  | nil => rfl
  | cons fragment xs ih =>
      cases fragment with
      | code text => exact ih
      | quoted q => exact congrArg (q :: ·) ih

/-- Items with one quotation each. -/
theorem quotations_flatMap {α : Type} {fragments : α → List Fragment} {q : α → Quotation}
    (h : ∀ a, quotations (fragments a) = [q a]) (items : List α) :
    quotations (items.flatMap fragments) = items.map q := by
  induction items with
  | nil => rfl
  | cons a items ih =>
      rw [List.flatMap_cons, quotations_append, h, ih, List.map_cons, List.singleton_append]

/-! ## The pieces of the request options -/

/-- The line for a value that is sent. -/
def fieldFragments (a : Argument) : List Fragment :=
  [.code "\n", .quoted (.escaped .wireName a.wireName), .code (": " ++ a.identifier ++ ",")]

/-- A block with the lines for some items, if there are any. -/
def blockFragments {α : Type} (start : String) (fragments : α → List Fragment) (items : List α) :
    List Fragment :=
  if items.isEmpty then [] else .code start :: (items.flatMap fragments ++ [.code "\n\x7d,"])

/-- The lines for the values that are sent in one place. -/
def sentFragments (key : String) : List Argument → List Fragment :=
  blockFragments ("\n" ++ key ++ ": \x7b") fieldFragments

/-- The line for a value that may be missing, and is not written if it is empty. -/
def optionalFragments (start : String) (quotation : String → Quotation) :
    Option String → List Fragment
  | none => []
  | some text => if text = "" then [] else [.code start, .quoted (quotation text), .code ","]

/-- The lines for the body. -/
def bodyFragments : Option Argument → List Fragment
  | none => []
  | some a => .code ("\nbody: " ++ a.identifier ++ ",") ::
      optionalFragments "\nmediaType: " (.plain .mediaType) a.mediaType

/-- The line for a failure. -/
def failureFragments (f : Failure) : List Fragment :=
  [.code ("\n" ++ propertyKey f.status.text ++ ": "), .quoted (.escaped .reason f.reason),
    .code ","]

/-- The lines for the failures that the module knows by their status. -/
def errorFragments : List Failure → List Fragment :=
  blockFragments "\nerrors: \x7b" failureFragments

/-- The quotation of the method of an operation. -/
def methodQuotation (op : Operation) : Quotation := .plain .method (Text.upperAscii op.method.key)

/-- The pieces in front of the response header: what is sent, and where. -/
def requestFragments (options : Options) (op : Operation) : List Fragment :=
  [.code (signature op.arguments options.useOptions ++
      "): ApiRequestOptions => (\x7b\nmethod: "),
    .quoted (methodQuotation op),
    .code (",\npath: \x60" ++ (ofOperation options op).pathPattern ++ "\x60,")] ++
  sentFragments "cookies" op.cookieArguments ++ sentFragments "headers" op.headerArguments ++
  sentFragments "query" op.queryArguments ++ bodyFragments op.bodyArgument

/-- The pieces of the function that gathers the request of an operation. -/
def optionsFragments (options : Options) (op : Operation) : List Fragment :=
  requestFragments options op ++
  optionalFragments "\nresponseHeader: " (.escaped .responseHeader) op.responseHeader ++
  errorFragments op.failureReasons ++
  [.code (optionalLine "\nvalidate: validate" "," (ofOperation options op).validator ++
    "\n\x7d);\n")]

/-- The pieces of the route of an operation. -/
def routeFragments (op : Operation) : List Fragment :=
  [.code ("\n" ++ op.name ++ ": \x7b method: "), .quoted (methodQuotation op), .code ", url: ",
    .quoted (.escaped .routePattern op.routePattern), .code " \x7d,"]

/-! ## What the templates write -/

section Render

variable {env : Env} {path : List String}

/-- A block is written line by line. -/
theorem render?_block {α : Type} {name start : String} {body : List Node} {items : List α}
    {item : α → Json} {fragments : α → List Fragment}
    (hitems : env.lookup? path = some (.array (items.map item)))
    (hline : ∀ a ∈ items,
      renderAll? (env.bind name (item a)) body = some (fragmentsText (fragments a))) :
    (Node.when (.holds path) [.text start, .each name path body, .text "\n\x7d,"] []).render? env =
      some (fragmentsText (blockFragments start fragments items)) := by
  have hflag : (env.lookup? path).any isTruthy = !items.isEmpty := by
    rw [hitems]
    cases items <;> rfl
  rw [render?_when _ hflag, blockFragments]
  cases items.isEmpty with
  | true => rfl
  | false =>
      have heach := render?_each items item hitems hline
      simp only [Bool.not_false, if_true, Bool.false_eq_true, if_false, renderAll?_text,
        renderAll?_cons heach, renderAll?_nil, Option.map_some, fragmentsText_cons,
        fragmentsText_append, fragmentsText_flatMap, fragmentsText_nil, Fragment.text,
        String.append_empty]

theorem render?_sentFields (key : String) (arguments : List Argument)
    (h : env.lookup? path = some (.array ((sentFields arguments).map (·.context)))) :
    (Template.sentFields key path).render? env =
      some (fragmentsText (sentFragments key arguments)) := by
  rw [sentFields, List.map_map] at h
  refine render?_block h fun a _ => ?_
  let field : Json := SentField.context ⟨Script.escape a.wireName, a.identifier⟩
  have hprop : (env.bind "field" field).lookup? ["field", "prop"] =
    some (.string (Script.escape a.wireName)) := rfl
  have hname : (env.bind "field" field).lookup? ["field", "name"] =
    some (.string a.identifier) := rfl
  have hopen : "\n'" = "\n" ++ "'" := rfl
  have hclose : "': " = "'" ++ ": " := rfl
  change renderAll? (env.bind "field" field) _ = _
  simp only [renderAll?_text, renderAll?_value hprop, renderAll?_value hname, renderAll?_nil,
    valueText, Option.map_some, hopen, hclose, fieldFragments, fragmentsText_cons,
    fragmentsText_nil, Fragment.text, Quotation.escaped, String.append_assoc]

theorem render?_errors (failures : List Failure)
    (h : env.lookup? path = some (.array ((failures.map fun f =>
      KnownFailure.mk (propertyKey f.status.text) (Script.escape f.reason)).map (·.context)))) :
    (Node.when (.holds path)
      [.text "\nerrors: \x7b",
        .each "error" path
          [.text "\n", .value ["error", "code"], .text ": '", .value ["error", "description"],
            .text "',"],
        .text "\n\x7d,"] []).render? env = some (fragmentsText (errorFragments failures)) := by
  rw [List.map_map] at h
  refine render?_block h fun f _ => ?_
  let failure : Json := KnownFailure.context ⟨propertyKey f.status.text, Script.escape f.reason⟩
  have hcode : (env.bind "error" failure).lookup? ["error", "code"] =
    some (.string (propertyKey f.status.text)) := rfl
  have hreason : (env.bind "error" failure).lookup? ["error", "description"] =
    some (.string (Script.escape f.reason)) := rfl
  have hopen : ": '" = ": " ++ "'" := rfl
  have hclose : "'," = "'" ++ "," := rfl
  change renderAll? (env.bind "error" failure) _ = _
  simp only [renderAll?_text, renderAll?_value hcode, renderAll?_value hreason, renderAll?_nil,
    valueText, Option.map_some, hopen, hclose, failureFragments, fragmentsText_cons,
    fragmentsText_nil, Fragment.text, Quotation.escaped, String.append_assoc]

end Render

/-- A line with quotes around its value, if there is one. -/
theorem optionalLine_quoted (start : String) (quotation : String → Quotation)
    (hempty : ∀ text, (quotation text).printed = "" ↔ text = "") (value : Option String) :
    optionalLine (start ++ "'") "'," (value.map fun text => (quotation text).printed) =
      fragmentsText (optionalFragments start quotation value) := by
  have hclose : "'," = "'" ++ "," := rfl
  cases value with
  | none => rfl
  | some text =>
      simp only [Option.map_some, optionalLine, optionalFragments, hempty]
      split
      · rfl
      · simp only [fragmentsText_cons, fragmentsText_nil, Fragment.text, hclose,
          String.append_assoc, String.append_empty]

section Operation

variable (page : ServicePage) (options : Options) (op : Operation)

/-- A body is written with its media type, unless that is missing or empty. -/
theorem render?_body :
    (Node.when (.holds ["op", "body"])
      [.text "\nbody: ", .value ["op", "body", "name"], .text ",",
        .when (.holds ["op", "body", "mediaType"])
          [.text "\nmediaType: '", .value ["op", "body", "mediaType"], .text "',"] []] []).render?
        (operationEnv page (ofOperation options op)) =
      some (fragmentsText (bodyFragments op.bodyArgument)) := by
  have hlookup : (operationEnv page (ofOperation options op)).lookup? ["op", "body"] =
    some (((ofOperation options op).body.map (·.context)).getD .null) := rfl
  cases hbody : op.bodyArgument with
  | none =>
      have hnone : (ofOperation options op).body = none := by
        simp only [ofOperation, hbody, Option.map_none]
      have hflag : ((operationEnv page (ofOperation options op)).lookup? ["op", "body"]).any
          isTruthy = false := by
        rw [hlookup, hnone]
        rfl
      rw [render?_when _ hflag]
      rfl
  | some a =>
      have hsome : (ofOperation options op).body = some ⟨a.identifier, a.mediaType.getD ""⟩ := by
        simp only [ofOperation, hbody, Option.map_some]
      have hflag : ((operationEnv page (ofOperation options op)).lookup? ["op", "body"]).any
          isTruthy = true := by
        rw [hlookup, hsome]
        rfl
      obtain ⟨hname, hmediaType⟩ := lookup?_body page _ hsome
      have hline := render?_optionalLine "\nmediaType: '" "'," (some (a.mediaType.getD ""))
        hmediaType
      have hquoted : optionalLine "\nmediaType: '" "'," (some (a.mediaType.getD "")) =
          fragmentsText (optionalFragments "\nmediaType: " (.plain .mediaType) a.mediaType) := by
        rw [← optionalLine_quoted "\nmediaType: " (.plain .mediaType) fun _ => Iff.rfl]
        cases a.mediaType <;> rfl
      rw [render?_when _ hflag, if_pos rfl, renderAll?_text, renderAll?_value hname,
        renderAll?_text, renderAll?_singleton hline, hquoted]
      simp only [Option.map_some, bodyFragments, fragmentsText_cons, Fragment.text, valueText,
        String.append_assoc]

theorem textOf_requestNodes :
    textOf (operationEnv page (ofOperation options op)) requestNodes =
      fragmentsText (requestFragments options op) := by
  have hsignature : (operationEnv page (ofOperation options op)).lookup? ["op", "signature"] =
    some (.string (signature op.arguments options.useOptions)) := rfl
  have hmethod : (operationEnv page (ofOperation options op)).lookup? ["op", "method"] =
    some (.string (Text.upperAscii op.method.key)) := rfl
  have hpath : (operationEnv page (ofOperation options op)).lookup? ["op", "pathPattern"] =
    some (.string (ofOperation options op).pathPattern) := rfl
  have hcookies : (Template.sentFields "cookies" ["op", "cookies"]).render?
    (operationEnv page (ofOperation options op)) = _ :=
      render?_sentFields _ op.cookieArguments rfl
  have hheaders : (Template.sentFields "headers" ["op", "headers"]).render?
    (operationEnv page (ofOperation options op)) = _ :=
      render?_sentFields _ op.headerArguments rfl
  have hquery : (Template.sentFields "query" ["op", "query"]).render?
    (operationEnv page (ofOperation options op)) = _ :=
      render?_sentFields _ op.queryArguments rfl
  have hopen : "): ApiRequestOptions => (\x7b\nmethod: '" =
    "): ApiRequestOptions => (\x7b\nmethod: " ++ "'" := rfl
  have hclose : "',\npath: \x60" = "'" ++ ",\npath: \x60" := rfl
  have hnodes : requestNodes = [.value ["op", "signature"],
    .text "): ApiRequestOptions => (\x7b\nmethod: '", .value ["op", "method"],
    .text "',\npath: \x60", .value ["op", "pathPattern"], .text "\x60,",
    Template.sentFields "cookies" ["op", "cookies"],
    Template.sentFields "headers" ["op", "headers"],
    Template.sentFields "query" ["op", "query"],
    .when (.holds ["op", "body"])
      [.text "\nbody: ", .value ["op", "body", "name"], .text ",",
        .when (.holds ["op", "body", "mediaType"])
          [.text "\nmediaType: '", .value ["op", "body", "mediaType"], .text "',"] []] []] := rfl
  rw [hnodes, textOf]
  simp only [renderAll?_text, renderAll?_value hsignature, renderAll?_value hmethod,
    renderAll?_value hpath, renderAll?_cons hcookies, renderAll?_cons hheaders,
    renderAll?_cons hquery, renderAll?_singleton (render?_body page options op),
    Option.map_some, Option.getD_some, hopen, hclose, requestFragments, fragmentsText_append,
    fragmentsText_cons, fragmentsText_nil, Fragment.text, methodQuotation, Quotation.plain,
    valueText, String.append_assoc, String.append_empty]

theorem textOf_errorNodes :
    textOf (operationEnv page (ofOperation options op)) errorNodes =
      fragmentsText (errorFragments op.failureReasons) := by
  have hnodes : errorNodes = [.when (.holds ["op", "errors"])
    [.text "\nerrors: \x7b",
      .each "error" ["op", "errors"]
        [.text "\n", .value ["error", "code"], .text ": '", .value ["error", "description"],
          .text "',"],
      .text "\n\x7d,"] []] := rfl
  have hlookup : (operationEnv page (ofOperation options op)).lookup? ["op", "errors"] =
    some (.array ((ofOperation options op).errors.map (·.context))) := rfl
  rw [hnodes, textOf, renderAll?_singleton (render?_errors op.failureReasons hlookup),
    Option.getD_some]

/-- The pieces of the request options are what the template writes. -/
theorem requestOptions_eq :
    requestOptions page (ofOperation options op) = fragmentsText (optionsFragments options op) := by
  have hheader : optionalLine "\nresponseHeader: '" "'," (ofOperation options op).responseHeader =
      fragmentsText (optionalFragments "\nresponseHeader: " (.escaped .responseHeader)
        op.responseHeader) :=
    optionalLine_quoted "\nresponseHeader: " (.escaped .responseHeader) escape_eq_empty_iff
      op.responseHeader
  rw [requestOptions, textOf_requestNodes, hheader, textOf_errorNodes, optionsFragments]
  simp only [fragmentsText_append, fragmentsText_cons, fragmentsText_nil, Fragment.text,
    String.append_assoc, String.append_empty]

theorem routeEntry_eq :
    routeEntry (ofOperation options op) = fragmentsText (routeFragments op) := by
  have hmethod : ": \x7b method: '" = ": \x7b method: " ++ "'" := rfl
  have hurl : "', url: '" = "'" ++ (", url: " ++ "'") := rfl
  have hclose : "' \x7d," = "'" ++ " \x7d," := rfl
  have hname : (ofOperation options op).name = op.name := rfl
  have hpattern : (ofOperation options op).routePattern = Script.escape op.routePattern := rfl
  have hkey : (ofOperation options op).method = Text.upperAscii op.method.key := rfl
  rw [routeEntry, routeFragments, hmethod, hurl, hclose, hname, hpattern, hkey]
  simp only [fragmentsText_cons, fragmentsText_nil, Fragment.text, methodQuotation,
    Quotation.plain, Quotation.escaped, String.append_assoc, String.append_empty]

end Operation

/-! ## What is quoted -/

/-- The text of a line that is written if it is there and not empty. -/
def writtenTexts (value : Option String) : List String := value.toList.filter (· ≠ "")

/-- The quotations in the request options of an operation, and then those in its route. -/
def quotedValues (op : Operation) : List Quotation :=
  (methodQuotation op ::
    (op.cookieArguments ++ op.headerArguments ++ op.queryArguments).map fun a =>
      .escaped .wireName a.wireName) ++
  (writtenTexts (op.bodyArgument.bind (·.mediaType))).map (.plain .mediaType) ++
  (writtenTexts op.responseHeader).map (.escaped .responseHeader) ++
  (op.failureReasons.map fun f => .escaped .reason f.reason) ++
  [methodQuotation op, .escaped .routePattern op.routePattern]

theorem quotations_block {α : Type} {start : String} {fragments : α → List Fragment}
    {q : α → Quotation} (h : ∀ a, quotations (fragments a) = [q a]) (items : List α) :
    quotations (blockFragments start fragments items) = items.map q := by
  rw [blockFragments]
  split
  · rename_i hempty
    rw [List.isEmpty_iff.1 hempty]
    rfl
  · rw [quotations, quotations_append, quotations_flatMap h]
    exact List.append_nil _

theorem quotations_optional (start : String) (quotation : String → Quotation)
    (value : Option String) :
    quotations (optionalFragments start quotation value) =
      (writtenTexts value).map quotation := by
  cases value with
  | none => rfl
  | some text =>
      by_cases htext : text = ""
      · simp [optionalFragments, writtenTexts, htext, quotations]
      · simp [optionalFragments, writtenTexts, htext, quotations]

theorem quotations_body (body : Option Argument) :
    quotations (bodyFragments body) =
      (writtenTexts (body.bind (·.mediaType))).map (.plain .mediaType) := by
  cases body with
  | none => rfl
  | some a => exact quotations_optional _ _ a.mediaType

/-- The pieces of the request options and the route hold these quotations, and no others. -/
theorem quotations_eq_quotedValues (options : Options) (op : Operation) :
    quotations (optionsFragments options op ++ routeFragments op) = quotedValues op := by
  have hsent (key : String) (arguments : List Argument) :
      quotations (sentFragments key arguments) =
        arguments.map fun a => .escaped .wireName a.wireName :=
    quotations_block (fun _ => rfl) arguments
  have herrors : quotations (errorFragments op.failureReasons) =
      op.failureReasons.map fun f => .escaped .reason f.reason :=
    quotations_block (fun _ => rfl) op.failureReasons
  simp only [optionsFragments, requestFragments, routeFragments, quotations_append, quotations, hsent, herrors,
    quotations_body, quotations_optional, quotedValues, List.map_append,
    List.append_assoc, List.cons_append, List.nil_append]

/-! ## What is read back -/

theorem readsBack_methodQuotation (op : Operation) : (methodQuotation op).ReadsBack := by
  refine Quotation.readsBack_plain_iff.2 ?_
  cases op.method <;> decide

/-- What is escaped is read back, and so is the method. That leaves the media type. -/
theorem quotedValues_cases {op : Operation} {q : Quotation} (h : q ∈ quotedValues op) :
    q.ReadsBack ∨ ∃ text ∈ writtenTexts (op.bodyArgument.bind (·.mediaType)),
      q = .plain .mediaType text := by
  simp only [quotedValues, List.mem_append, List.mem_cons, List.mem_map, List.not_mem_nil,
    or_false] at h
  rcases h with ((((rfl | ⟨a, -, rfl⟩) | ⟨text, htext, rfl⟩) | ⟨header, -, rfl⟩) | ⟨f, -, rfl⟩) |
    rfl | rfl
  case inl.inl.inl.inl.inl => exact .inl (readsBack_methodQuotation op)
  case inl.inl.inl.inl.inr => exact .inl (Quotation.readsBack_escaped _ _)
  case inl.inl.inl.inr => exact .inr ⟨text, htext, rfl⟩
  case inl.inl.inr => exact .inl (Quotation.readsBack_escaped _ _)
  case inl.inr => exact .inl (Quotation.readsBack_escaped _ _)
  case inr.inl => exact .inl (readsBack_methodQuotation op)
  case inr.inr => exact .inl (Quotation.readsBack_escaped _ _)

theorem plain_mem_quotedValues {op : Operation} {text : String}
    (h : text ∈ writtenTexts (op.bodyArgument.bind (·.mediaType))) :
    .plain .mediaType text ∈ quotedValues op := by
  have hmap := List.mem_map_of_mem (f := Quotation.plain .mediaType) h
  simp only [quotedValues, List.mem_append, hmap, or_true, true_or]

theorem mem_writtenTexts {value : Option String} {text : String} :
    text ∈ writtenTexts value ↔ value = some text ∧ text ≠ "" := by
  simp [writtenTexts]

/-- The module of a service writes the request options of its operations, and for a server their
routes, from these pieces. The strings in them are read back as the values that were to be written,
but for the media type of a body, and that one is exactly if nothing in it needs an escape. -/
theorem quotations_iff (options : Options) (op : Operation) :
    (∀ (s : Service) (variation : Variation), op ∈ s.operations → ∃ statements,
      (Emission.serviceArtifact variation).render (ofService options s).context =
          .ok (moduleText statements) ∧
        Statement.declare .constant (optionsName op.name)
          (" = (" ++ fragmentsText (optionsFragments options op)) ∈ statements ∧
        (variation = .fastify → Statement.declare .exportConstant (s.name ++ "Routes")
          (" = \x7b" ++
            Text.concat (s.operations.map fun op => fragmentsText (routeFragments op)) ++
              "\n\x7d as const;\n") ∈ statements)) ∧
    quotations (optionsFragments options op ++ routeFragments op) = quotedValues op ∧
    (∀ q ∈ quotedValues op, q.value ≠ .mediaType → q.ReadsBack) ∧
    ((∀ q ∈ quotedValues op, q.ReadsBack) ↔
      ∀ a ∈ op.bodyArgument, ∀ mediaType ∈ a.mediaType, NeedsNoEscape mediaType.toList) := by
  refine ⟨fun s variation hop => ⟨_, render_service (ofService options s) variation, ?_, ?_⟩,
    quotations_eq_quotedValues options op, fun q hq hvalue => ?_, ?_⟩
  · rw [← requestOptions_eq (ofService options s)]
    exact declare_requestOptions_mem options hop variation
  · rintro rfl
    have hroutes : (ofService options s).operations.map routeEntry =
        s.operations.map fun op => fragmentsText (routeFragments op) := by
      rw [ofService, List.map_map]
      exact List.map_congr_left fun op _ => routeEntry_eq options op
    rw [← hroutes]
    exact List.mem_append_right _ (List.mem_cons_of_mem _ List.mem_cons_self)
  · rcases quotedValues_cases hq with hread | ⟨text, -, rfl⟩
    · exact hread
    · exact absurd rfl hvalue
  · constructor
    · intro hall a ha mediaType hmediaType
      by_cases hempty : mediaType = ""
      · rw [hempty]
        exact fun c hc => absurd hc List.not_mem_nil
      · have hbody : op.bodyArgument.bind (·.mediaType) = some mediaType := by
          rw [Option.mem_def.1 ha, Option.bind_some, Option.mem_def.1 hmediaType]
        exact Quotation.readsBack_plain_iff.1
          (hall _ (plain_mem_quotedValues (mem_writtenTexts.2 ⟨hbody, hempty⟩)))
    · intro hall q hq
      rcases quotedValues_cases hq with hread | ⟨text, htext, rfl⟩
      · exact hread
      · obtain ⟨a, ha, hmediaType⟩ := Option.bind_eq_some_iff.1 (mem_writtenTexts.1 htext).1
        exact Quotation.readsBack_plain_iff.2 (hall a ha text hmediaType)

/-- The document of an operation with a body of this media type. -/
def noteDocument (mediaType : String) : Document where
  openapi := "3.0.0"
  paths := [("/notes", { operations := [(.post, {
    operationId := some "addNote"
    requestBody := some (.inline {
      content := [(mediaType, { schema := some { type := some (.single "string") } })] })
    responses := [("204", .inline { description := "done" })] })] })]

/-- The string for a media type with a quote in it ends there, and the rest of it is left. -/
theorem mediaType_not_readsBack :
    ∃ c, (Client.draft (noteDocument "text/plain; note='a'") true >>= Client.finish) = .ok c ∧
      ∃ s ∈ c.services, ∃ op ∈ s.operations, ∃ q ∈ quotedValues op, ¬ q.ReadsBack ∧
        ∀ rest, readString .text (q.printed.toList ++ '\'' :: rest) =
          some (textUnits "text/plain; note=".toList, "a'".toList ++ '\'' :: rest) := by
  refine ⟨_, Client.draft_bind_finish_eq_ok_iff.2 ⟨by decide +kernel, rfl⟩, ?_⟩
  obtain ⟨s, hs, op, hop, hq⟩ :
      ∃ s ∈ (Client.drafted (noteDocument "text/plain; note='a'") true).finished.services,
        ∃ op ∈ s.operations, .plain .mediaType "text/plain; note='a'" ∈ quotedValues op := by
    decide +kernel
  refine ⟨s, hs, op, hop, _, hq, fun hread => ?_, fun rest => ?_⟩
  · exact absurd (Quotation.readsBack_plain_iff.1 hread) (by decide)
  · have hprinted : "text/plain; note='a'".toList =
        "text/plain; note=".toList ++ '\'' :: "a'".toList := by decide
    rw [Quotation.plain, hprinted, List.append_assoc, List.cons_append]
    exact (readString_raw_iff _ _).2 (by decide)

end TypedClient.Page
