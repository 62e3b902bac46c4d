import TypedClient.Proofs.Client.Arguments
import TypedClient.Proofs.Emission.Writing
import TypedClient.Proofs.Page.Scope

/-!
# Names that mean two things in the module of a service

Operations are told apart from each other, but neither from what the module of their service
imports nor from what is declared beside them. So a run leaves modules in which a name stands for
two things, for example if an operation is called `request`. `nodup_serviceScope_iff` says when
this happens, for every service of every document.

The functions of an operation take its arguments, and in their bodies they call the runtime and the
function that gathers the request (`requestText`, `hookText`). Arguments are told apart from each
other, but not from what is called, so that one of them hides a function if its wire name asks for
that name. `shadows_iff` says that there is no other way, for every operation of every document.
-/

namespace TypedClient

namespace Emission

open Page Script

/-! ## Names that a service uses twice -/

variable {m : Machine} {s t : State} {tree : Json} {options : Options} {c : Client}

/-- The client that a run gives is that of the document, whether or not it is written. -/
theorem ofTree_of_generate (hrun : execute (generate tree options) m s = (.ok c, t)) :
    Client.ofTree tree options.responseSchemaAsModel = .ok c := by
  cases hclient : Client.ofTree tree options.responseSchemaAsModel with
  | error e =>
      rw [execute_generate_of_error hclient] at hrun
      cases hrun
  | ok built =>
      rw [execute_generate_of_ok hclient] at hrun
      split at hrun
      · split at hrun
        · cases hrun
          rfl
        · cases hrun
      · cases hrun
        rfl

/-- What is known of the client from the document holds of the one that a run gives. -/
theorem apply_of_generate {α : Type} {f : Client → α} {value : α}
    (hvalue : (Client.ofTree tree options.responseSchemaAsModel).toOption.map f = some value)
    (hrun : execute (generate tree options) m s = (.ok c, t)) : f c = value := by
  rw [ofTree_of_generate hrun] at hvalue
  exact Option.some.inj hvalue

/-- The module of a service is written statement by statement. -/
theorem job_mem_serviceJobs (hrender : m.render = Artifact.render) {service : Service}
    (h : service ∈ c.services) :
    { file := serviceModule service ++ ".ts"
      text := .ok (m.format
        (moduleText (serviceStatements options.variation (ofService options service)))) } ∈
      serviceJobs m options c := by
  refine List.mem_map.2 ⟨service, h, ?_⟩
  rw [hrender, render_service]
  rfl

/-- Whether the names of the services are apart, where this is known from the document. -/
theorem namesApart_of_generate {apart : List Bool}
    (happart : (Client.ofTree tree options.responseSchemaAsModel).toOption.map
      (fun c => c.services.map fun service => decide (NamesApart options service)) = some apart)
    (hrun : execute (generate tree options) m s = (.ok c, t)) :
    c.services.map (fun service => decide (NamesApart options service)) = apart :=
  apply_of_generate happart hrun

/-- A document with one operation. -/
def operationDocument (operationId : String) : Json :=
  .object [("openapi", .string "3.0.0"), ("paths", .object [("/pets", .object [("get",
    .object [("operationId", .string operationId), ("responses", .object [])])])])]

end Emission

namespace Page

open Template Script

/-! ## What the functions of an operation call -/

/-- The names that stand in the bodies of the functions of an operation beside its arguments. -/
def calledNames (op : Operation) : List String :=
  ["request", "useRequest", "OpenAPI", optionsName op.name]

/-- The parameters and the body of the function that sends a request. -/
def requestText (options : Options) (op : Operation) : String :=
  signature op.arguments options.useOptions ++ "): Promise<" ++ resultType op ++
    "> =>\nrequest<" ++ resultType op ++ ">(OpenAPI, " ++ optionsName op.name ++ "(" ++
    callArguments op.arguments options.useOptions ++ "));\n"

/-- The parameters and the body of the hook. -/
def hookText (options : Options) (op : Operation) : String :=
  signature op.arguments options.useOptions ++ ") =>\nuseRequest<" ++ resultType op ++
    ">(OpenAPI, " ++ optionsName op.name ++ "(" ++
    callArguments op.arguments options.useOptions ++ "), " ++ "[" ++ nameList op.arguments ++ "]" ++
    ");\n"

section Texts

variable (page : ServicePage) (options : Options) (op : Operation)

/-- The variables that both functions use. -/
theorem lookup?_call :
    (operationEnv page (ofOperation options op)).lookup? ["op", "name"] =
        some (.string op.name) ∧
      (operationEnv page (ofOperation options op)).lookup? ["op", "signature"] =
        some (.string (signature op.arguments options.useOptions)) ∧
      (operationEnv page (ofOperation options op)).lookup? ["op", "result"] =
        some (.string (resultType op)) ∧
      (operationEnv page (ofOperation options op)).lookup? ["op", "arguments"] =
        some (.string (callArguments op.arguments options.useOptions)) :=
  ⟨rfl, rfl, rfl, rfl⟩

theorem textOf_request :
    textOf (operationEnv page (ofOperation options op)) (requestFunction.drop 4) =
      requestText options op := by
  obtain ⟨hname, hsignature, hresult, harguments⟩ := lookup?_call page options op
  have hoptions : "Options(" = "Options" ++ "(" := rfl
  simp only [textOf, requestFunction, List.drop_succ_cons, List.drop_zero, renderAll?_text,
    renderAll?_value hname, renderAll?_value hsignature, renderAll?_value hresult,
    renderAll?_value harguments, renderAll?_nil, Option.map_some, Option.getD_some, valueText,
    hoptions, requestText, optionsName, String.append_assoc, String.append_empty]

theorem textOf_hook :
    textOf (operationEnv page (ofOperation options op)) (hookFunction.drop 4) =
      hookText options op := by
  obtain ⟨hname, hsignature, hresult, harguments⟩ := lookup?_call page options op
  have hdeps : (operationEnv page (ofOperation options op)).lookup? ["op", "deps"] =
    some (.string ("[" ++ nameList op.arguments ++ "]")) := rfl
  have hoptions : "Options(" = "Options" ++ "(" := rfl
  simp only [textOf, hookFunction, List.drop_succ_cons, List.drop_zero, renderAll?_text,
    renderAll?_value hname, renderAll?_value hsignature, renderAll?_value hresult,
    renderAll?_value harguments, renderAll?_value hdeps, renderAll?_nil, Option.map_some,
    Option.getD_some, valueText, hoptions, hookText, optionsName, String.append_assoc,
    String.append_empty]

end Texts

/-- The module of a service declares both functions of each of its operations. -/
theorem declare_functions_mem (options : Options) {s : Service} {op : Operation}
    (hop : op ∈ s.operations) (variation : Variation) :
    Statement.declare .exportConstant op.name (" = (" ++ requestText options op) ∈
        serviceStatements variation (ofService options s) ∧
      (variation = .reactHook →
        Statement.declare .exportConstant op.hookName (" = (" ++ hookText options op) ∈
          serviceStatements variation (ofService options s)) := by
  have hpage : ofOperation options op ∈ (ofService options s).operations := List.mem_map_of_mem hop
  constructor
  · refine mem_serviceStatements _ hpage (List.mem_append_left _ ?_)
    rw [← textOf_request (ofService options s)]
    simp [ofOperation]
  · rintro rfl
    refine mem_serviceStatements _ hpage (List.mem_append_right _ ?_)
    rw [← textOf_hook (ofService options s)]
    simp [ofOperation]

end Page

namespace Client

open Naming (EndsInDigit StartsSmall)

variable {d : Document} {promote : Bool} {s : Service} {op : Operation}

/-- What is called has no number behind it. -/
theorem not_endsInDigit_of_mem_calledNames {name : String} (h : name ∈ Page.calledNames op) :
    ¬ EndsInDigit name := by
  simp only [Page.calledNames, List.mem_cons, List.not_mem_nil, or_false] at h
  rcases h with rfl | rfl | rfl | rfl
  case inr.inr.inr =>
    rw [Page.optionsName, Naming.endsInDigit_append_iff _ (by decide)]
    decide
  all_goals decide

/-- An argument hides what is called exactly if a wire name asks for it. -/
theorem forall_identifier_not_mem_calledNames_iff
    (hs : s ∈ (drafted d promote).finished.services) (hop : op ∈ s.operations) :
    (∀ a ∈ op.arguments, a.identifier ∉ Page.calledNames op) ↔
      ∀ a ∈ op.arguments, Naming.valueName a.wireName ∉ Page.calledNames op := by
  obtain ⟨x, -, declared, hnamed⟩ := exists_pathFirst_finished hs hop
  have hiff : ∀ name ∈ Page.calledNames op, name ∈ op.arguments.map (·.identifier) ↔
      name ∈ op.arguments.map fun a => Naming.valueName a.wireName := fun name hname =>
    hnamed.mem_identifiers_iff (not_endsInDigit_of_mem_calledNames hname)
  constructor
  · intro hfree a ha hmem
    obtain ⟨b, hb, heq⟩ := List.mem_map.1 ((hiff _ hmem).2 (List.mem_map_of_mem ha))
    exact hfree b hb (heq ▸ hmem)
  · intro hfree a ha hmem
    obtain ⟨b, hb, heq⟩ := List.mem_map.1 ((hiff _ hmem).1 (List.mem_map_of_mem ha))
    exact hfree b hb (heq ▸ hmem)

/-- The settings of the runtime start with a capital, and no argument does. -/
theorem settings_not_mem_identifiers (hs : s ∈ (drafted d promote).finished.services)
    (hop : op ∈ s.operations) : "OpenAPI" ∉ op.arguments.map (·.identifier) := by
  intro hmem
  obtain ⟨a, ha, heq⟩ := List.mem_map.1 hmem
  exact (named_of_mem_arguments hs hop ha).start.ne ⟨'O', _, rfl, by decide⟩ heq

end Client

namespace Emission

open Page Script

variable {m : Machine} {s t : State} {tree : Json} {options : Options} {c : Client}

/-- The module of a service declares the functions of its operations, with the arguments as their
parameters and the calls in their bodies. No argument is named like the settings of the runtime.
That none is named like a function that is called holds exactly if no wire name asks for that. -/
theorem shadows_iff (hrender : m.render = Artifact.render)
    (hrun : execute (generate tree options) m s = (.ok c, t)) {service : Service}
    (hservice : service ∈ c.services) {op : Operation} (hop : op ∈ service.operations) :
    (∃ statements,
      (serviceArtifact options.variation).render (ofService options service).context =
        .ok (moduleText statements) ∧
      { file := serviceModule service ++ ".ts", text := .ok (m.format (moduleText statements)) } ∈
        serviceJobs m options c ∧
      .declare .exportConstant op.name (" = (" ++ requestText options op) ∈ statements ∧
      (options.variation = .reactHook →
        .declare .exportConstant op.hookName (" = (" ++ hookText options op) ∈ statements)) ∧
    listedNames (signature op.arguments options.useOptions) = op.arguments.map (·.identifier) ∧
    "OpenAPI" ∉ op.arguments.map (·.identifier) ∧
    ((∀ a ∈ op.arguments, a.identifier ∉ calledNames op) ↔
      ∀ a ∈ op.arguments, Naming.valueName a.wireName ∉ calledNames op) := by
  obtain ⟨-, d, -, hclient⟩ := Client.ofTree_eq_ok_iff.1 (ofTree_of_generate hrun)
  obtain ⟨-, rfl⟩ := Client.draft_bind_finish_eq_ok_iff.1 hclient
  exact ⟨⟨_, render_service _ _, job_mem_serviceJobs hrender hservice,
      declare_functions_mem options hop options.variation⟩,
    listedNames_signature (fun _ => Client.named_of_mem_arguments hservice hop) _,
    Client.settings_not_mem_identifiers hservice hop,
    Client.forall_identifier_not_mem_calledNames_iff hservice hop⟩

/-- A document with one operation that has these parameters in the query. -/
def queryDocument (names : List String) : Json :=
  .object [("openapi", .string "3.0.0"), ("paths", .object [("/pets", .object [("get",
    .object [("operationId", .string "listPets"),
      ("parameters", .array (names.map fun name =>
        .object [("name", .string name), ("in", .string "query")])),
      ("responses", .object [])])])])]

/-- The arguments of all operations of a client. -/
def argumentNames (c : Client) : List (String × List String) :=
  c.services.flatMap fun service =>
    service.operations.map fun op => (op.name, op.arguments.map (·.identifier))

theorem shadows_iff_limit :
    ∃ c t, execute (generate (queryDocument ["limit"]) { output := "out" }) workshop
        { tree := {} } = (.ok c, t) ∧
      argumentNames c = [("listPets", ["limit"])] ∧
      ∀ service ∈ c.services, ∀ op ∈ service.operations,
        (∃ statements, (serviceArtifact .reactHook).render
            (ofService { output := "out" } service).context = .ok (moduleText statements) ∧
          .declare .exportConstant op.name (" = (" ++ requestText { output := "out" } op) ∈
            statements) ∧
        ((∀ a ∈ op.arguments, a.identifier ∉ calledNames op) ↔
          ∀ a ∈ op.arguments, Naming.valueName a.wireName ∉ calledNames op) := by
  have hok : (execute (generate (queryDocument ["limit"]) { output := "out" }) workshop
    { tree := {} }).1.isOk = true := by decide +kernel
  obtain ⟨c, t, hrun⟩ := exists_of_isOk hok
  refine ⟨c, t, hrun, apply_of_generate (by decide +kernel) hrun,
    fun service hservice op hop => ?_⟩
  obtain ⟨⟨statements, hrender, -, hdeclare, -⟩, -, -, hiff⟩ :=
    shadows_iff rfl hrun hservice hop
  exact ⟨⟨statements, hrender, hdeclare⟩, hiff⟩

/-- Parameters that hide every function that the bodies call. -/
theorem argumentNames_hide_called :
    ∃ c t, execute (generate (queryDocument ["request", "use-request", "list-pets-options"])
        { output := "out" }) workshop { tree := {} } = (.ok c, t) ∧
      ∃ service ∈ c.services, ∃ op ∈ service.operations,
        op.arguments.map (·.identifier) = ["request", "useRequest", optionsName op.name] := by
  have hok : (execute (generate
    (queryDocument ["request", "use-request", "list-pets-options"]) { output := "out" }) workshop
    { tree := {} }).1.isOk = true := by decide +kernel
  obtain ⟨c, t, hrun⟩ := exists_of_isOk hok
  have hnames : argumentNames c = [("listPets", ["request", "useRequest", "listPetsOptions"])] :=
    apply_of_generate (by decide +kernel) hrun
  obtain ⟨service, hservice, hmem⟩ := List.mem_flatMap.1 (hnames ▸ List.mem_singleton_self _)
  obtain ⟨op, hop, heq⟩ := List.mem_map.1 hmem
  obtain ⟨hname, hidentifiers⟩ := Prod.mk.inj heq
  refine ⟨c, t, hrun, service, hservice, op, hop, ?_⟩
  rw [hidentifiers, hname]
  rfl

end Emission

end TypedClient
