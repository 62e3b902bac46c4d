import TypedClient.Emission.Category
import TypedClient.Proofs.Script.Module
import TypedClient.Proofs.Template.Render
import TypedClient.Template.Artifact

/-!
# The statements of a service

The module of a service is rendered statement by statement, whatever the service is
(`render_service`). So the names in its scope are known (`scope_serviceStatements`): those that are
imported, two or three for every operation, and for a server those of the routes.
-/

namespace TypedClient.Page

open Template Script

/-- The variables of the module of a service. -/
def serviceEnv (page : ServicePage) : Env := { context := page.context }

/-- The variables of an operation in the module of a service. -/
def operationEnv (page : ServicePage) (p : OperationPage) : Env :=
  (serviceEnv page).bind "op" p.context

/-- The name of the function that gathers the request of an operation. -/
def optionsName (name : String) : String := name ++ "Options"

/-- The statements for an operation: the function that gathers its request, the one that sends it
and, in a browser, the hook. -/
def operationStatements (variation : Variation) (page : ServicePage) (p : OperationPage) :
    List Statement :=
  let env := operationEnv page p
  [.comment [], .declare .constant (optionsName p.name)
      (" = (" ++ textOf env (optionsFunction.drop 3)),
    .comment p.doc, .declare .exportConstant p.name
      (" = (" ++ textOf env (requestFunction.drop 4))] ++
  match variation with
  | .reactHook => [.comment p.doc, .declare .exportConstant p.hookName
      (" = (" ++ textOf env (hookFunction.drop 4))]
  | .fastify => []

/-- The imports of definitions and validators. -/
def definitionImports (page : ServicePage) : List Statement :=
  page.imports.map (fun name => .importNames true [name] ("../models/" ++ name)) ++
    page.validators.map fun name => .importDefault ("validate" ++ name) ("../validators/" ++ name)

/-- The imports of the core that every service has. -/
def coreStatements : List Statement :=
  [.importNames true ["ApiRequestOptions"] "../core/ApiRequestOptions",
    .importNames false ["OpenAPI"] "../core/OpenAPI",
    .importNames false ["request"] "../core/request"]

/-- The route of an operation. -/
def routeEntry (p : OperationPage) : String :=
  "\n" ++ p.name ++ ": \x7b method: '" ++ p.method ++ "', url: '" ++ p.routePattern ++ "' \x7d,"

/-- The type of the handler for an operation. -/
def handlerEntry (p : OperationPage) : String := "\n" ++ p.name ++ ": RouteHandlerMethod;"

/-- The statements that list the routes of a service and register them. -/
def routeStatements (page : ServicePage) : List Statement :=
  [.comment [], .declare .exportConstant (page.name ++ "Routes")
      (" = \x7b" ++ Text.concat (page.operations.map routeEntry) ++ "\n\x7d as const;\n"),
    .comment [], .declare .exportType (page.name ++ "Handlers")
      (" = \x7b" ++ Text.concat (page.operations.map handlerEntry) ++ "\n\x7d;\n"),
    .comment [], .declare .exportFunction ("register" ++ page.name ++ "Routes")
      ("(app: FastifyInstance, handlers: " ++ page.name ++
        "Handlers): void \x7b\nfor (const [name, route] of Object.entries(" ++ page.name ++
        "Routes)) \x7b\napp.route(\x7b ...route, handler: handlers[name as keyof " ++ page.name ++
        "Handlers] \x7d);\n\x7d\n\x7d\n")]

/-- The statements of the module of a service. -/
def serviceStatements (variation : Variation) (page : ServicePage) : List Statement :=
  let operations := page.operations.flatMap (operationStatements variation page)
  match variation with
  | .reactHook =>
    definitionImports page ++ [.comment []] ++ coreStatements ++
      [.importNames false ["useRequest"] "../core/requestReactHook"] ++ operations ++ [.comment []]
  | .fastify =>
    [.importNames true ["FastifyInstance", "RouteHandlerMethod"] "fastify", .comment []] ++
      definitionImports page ++ [.comment []] ++ coreStatements ++ operations ++
      routeStatements page

/-! ## Operations -/

section Operation

variable (page : ServicePage) (p : OperationPage)

/-- The lines of a doc comment are rendered as a comment. -/
theorem render?_docComment {env : Env} {path : List String} {ls : List String}
    (h : env.lookup? path = some (.strings ls)) :
    (docComment path).render? env = some (commentText ls) := by
  have hflag : (env.lookup? path).any isTruthy = !ls.isEmpty := by
    rw [h]
    cases ls <;> rfl
  rw [docComment, render?_when _ hflag, commentText]
  cases hempty : ls.isEmpty with
  | true => rfl
  | false =>
      have hline (line : String) : renderAll? (env.bind "line" (.string line))
          [.text "\n* ", .value ["line"]] = some ("\n* " ++ line) := by
        have hlookup : (env.bind "line" (.string line)).lookup? ["line"] =
          some (.string line) := rfl
        simp only [renderAll?_text, renderAll?_value hlookup, renderAll?_nil, valueText,
          Option.map_some, String.append_empty]
      have heach := render?_each ls Json.string h fun line _ => hline line
      simp only [Bool.not_false, if_true, renderAll?_text, renderAll?_cons heach, renderAll?_nil,
        Option.map_some, String.append_empty, Bool.false_eq_true, if_false, String.append_assoc]

/-- The values that are sent in one place have a text. -/
theorem exists_render?_sentFields (key : String) (fields : List SentField) {env : Env}
    {path : List String} (h : env.lookup? path = some (.array (fields.map (·.context)))) :
    ∃ text, (Template.sentFields key path).render? env = some text := by
  refine exists_render?_when fun _ => ?_
  simp only [List.forall_mem_cons]
  refine ⟨⟨_, rfl⟩, exists_render?_each fields (·.context) h fun field _ => ?_, ⟨_, rfl⟩, by simp⟩
  simp only [List.forall_mem_cons]
  exact ⟨⟨_, rfl⟩, ⟨_, rfl⟩, ⟨_, rfl⟩, ⟨_, rfl⟩, ⟨_, rfl⟩, by simp⟩

/-- The variables of the body that is sent. -/
theorem lookup?_body {b : SentBody} (h : p.body = some b) :
    (operationEnv page p).lookup? ["op", "body", "name"] = some (.string b.name) ∧
      (operationEnv page p).lookup? ["op", "body", "mediaType"] = some (.string b.mediaType) := by
  cases p
  cases h
  exact ⟨rfl, rfl⟩

/-- The rest of the function that gathers a request has a text, whatever is sent. -/
theorem exists_render?_options :
    ∀ node ∈ optionsFunction.drop 3, ∃ text, node.render? (operationEnv page p) = some text := by
  have hbody : (operationEnv page p).lookup? ["op", "body"] =
    some ((p.body.map (·.context)).getD .null) := rfl
  have hheader : (operationEnv page p).lookup? ["op", "responseHeader"] =
    some (.ofOption p.responseHeader) := rfl
  have hvalidator : (operationEnv page p).lookup? ["op", "validator"] =
    some (.ofOption p.validator) := rfl
  simp only [optionsFunction, List.drop_succ_cons, List.drop_zero, List.forall_mem_cons]
  refine ⟨⟨_, rfl⟩, ⟨_, rfl⟩, ⟨_, rfl⟩, ⟨_, rfl⟩, ⟨_, rfl⟩, ⟨_, rfl⟩,
    exists_render?_sentFields _ p.cookies rfl,
    exists_render?_sentFields _ p.headers rfl,
    exists_render?_sentFields _ p.query rfl,
    exists_render?_when ?body, exists_render?_when ?header, exists_render?_when ?errors,
    exists_render?_when ?validator, ⟨_, rfl⟩, by simp⟩
  case body =>
    cases hp : p.body with
    | none => simp [hbody, hp, isTruthy]
    | some b =>
        obtain ⟨hname, hmediaType⟩ := lookup?_body page p hp
        intro _
        simp only [List.forall_mem_cons]
        refine ⟨⟨_, rfl⟩, exists_render?_value hname, ⟨_, rfl⟩, exists_render?_when fun _ => ?_,
          by simp⟩
        simp only [List.forall_mem_cons]
        exact ⟨⟨_, rfl⟩, exists_render?_value hmediaType, ⟨_, rfl⟩, by simp⟩
  case header =>
    intro _
    simp only [List.forall_mem_cons]
    exact ⟨⟨_, rfl⟩, exists_render?_value hheader, ⟨_, rfl⟩, by simp⟩
  case errors =>
    intro _
    simp only [List.forall_mem_cons]
    refine ⟨⟨_, rfl⟩, exists_render?_each p.errors (·.context) rfl fun failure _ => ?_, ⟨_, rfl⟩,
      by simp⟩
    simp only [List.forall_mem_cons]
    exact ⟨⟨_, rfl⟩, ⟨_, rfl⟩, ⟨_, rfl⟩, ⟨_, rfl⟩, ⟨_, rfl⟩, by simp⟩
  case validator =>
    intro _
    simp only [List.forall_mem_cons]
    exact ⟨⟨_, rfl⟩, exists_render?_value hvalidator, ⟨_, rfl⟩, by simp⟩

/-- The function that gathers a request is one declaration. -/
theorem renderAll?_optionsFunction :
    renderAll? (operationEnv page p) optionsFunction =
      some (moduleText [.comment [], .declare .constant (optionsName p.name)
        (" = (" ++ textOf (operationEnv page p) (optionsFunction.drop 3))]) := by
  have hname : (operationEnv page p).lookup? ["op", "name"] = some (.string p.name) := rfl
  have hnodes : optionsFunction = .text "\nconst " :: .value ["op", "name"] ::
    .text "Options = (" :: optionsFunction.drop 3 := rfl
  have hconst : "\nconst " = "" ++ "\n" ++ "const " := rfl
  have hoptions : "Options = (" = "Options" ++ " = (" := rfl
  have hblank : commentText [] = "" := rfl
  have hempty : moduleText [] = "" := rfl
  have hrest := renderAll?_eq_textOf (exists_render?_options page p)
  generalize optionsFunction.drop 3 = rest at hnodes hrest ⊢
  rw [hnodes, renderAll?_text, renderAll?_value hname, renderAll?_text, hrest, hconst, hoptions]
  simp only [Option.map_some, moduleText_cons, Statement.text, Keyword.text, valueText, hblank,
    hempty, optionsName, String.append_assoc, String.append_empty]

/-- A function under the name of an operation or its hook is one declaration, with its comment. -/
theorem renderAll?_call (key : String) {name : String} {nodes rest : List Node}
    (hkey : (operationEnv page p).lookup? ["op", key] = some (.string name))
    (hnodes : nodes = docComment ["op", "doc"] :: .text "\nexport const " :: .value ["op", key] ::
      .text " = (" :: rest)
    (hrest : ∀ node ∈ rest, ∃ text, node.render? (operationEnv page p) = some text) :
    renderAll? (operationEnv page p) nodes =
      some (moduleText [.comment p.doc, .declare .exportConstant name
        (" = (" ++ textOf (operationEnv page p) rest)]) := by
  have hdoc : (docComment ["op", "doc"]).render? (operationEnv page p) =
    some (commentText p.doc) := render?_docComment rfl
  have hexport : "\nexport const " = "\n" ++ "export const " := rfl
  have hempty : moduleText [] = "" := rfl
  rw [hnodes, renderAll?_cons hdoc, renderAll?_text, renderAll?_value hkey, renderAll?_text,
    renderAll?_eq_textOf hrest, hexport]
  simp only [Option.map_some, moduleText_cons, Statement.text, Keyword.text, valueText, hempty,
    String.append_assoc, String.append_empty]

theorem renderAll?_requestFunction :
    renderAll? (operationEnv page p) requestFunction =
      some (moduleText [.comment p.doc, .declare .exportConstant p.name
        (" = (" ++ textOf (operationEnv page p) (requestFunction.drop 4))]) := by
  refine renderAll?_call page p "name" rfl rfl ?_
  simp only [requestFunction, List.drop_succ_cons, List.drop_zero, List.forall_mem_cons]
  exact ⟨⟨_, rfl⟩, ⟨_, rfl⟩, ⟨_, rfl⟩, ⟨_, rfl⟩, ⟨_, rfl⟩, ⟨_, rfl⟩, ⟨_, rfl⟩, ⟨_, rfl⟩, ⟨_, rfl⟩,
    ⟨_, rfl⟩, by simp⟩

theorem renderAll?_hookFunction :
    renderAll? (operationEnv page p) hookFunction =
      some (moduleText [.comment p.doc, .declare .exportConstant p.hookName
        (" = (" ++ textOf (operationEnv page p) (hookFunction.drop 4))]) := by
  refine renderAll?_call page p "hookName" rfl rfl ?_
  simp only [hookFunction, List.drop_succ_cons, List.drop_zero, List.forall_mem_cons]
  exact ⟨⟨_, rfl⟩, ⟨_, rfl⟩, ⟨_, rfl⟩, ⟨_, rfl⟩, ⟨_, rfl⟩, ⟨_, rfl⟩, ⟨_, rfl⟩, ⟨_, rfl⟩, ⟨_, rfl⟩,
    ⟨_, rfl⟩, by simp⟩

/-- The template of an operation. -/
def operationNodes : Variation → List Node
  | .reactHook => optionsFunction ++ requestFunction ++ hookFunction
  | .fastify => optionsFunction ++ requestFunction

/-- The statements of an operation are rendered one after the other. -/
theorem renderAll?_operation (variation : Variation) :
    renderAll? (operationEnv page p) (operationNodes variation) =
      some (moduleText (operationStatements variation page p)) := by
  have hboth : renderAll? (operationEnv page p) (optionsFunction ++ requestFunction) =
      some (moduleText (operationStatements .fastify page p)) := by
    rw [renderAll?_append (renderAll?_optionsFunction page p), renderAll?_requestFunction,
      Option.map_some, ← moduleText_append]
    rfl
  cases variation with
  | fastify => exact hboth
  | reactHook =>
      rw [operationNodes, renderAll?_append hboth, renderAll?_hookFunction, Option.map_some,
        ← moduleText_append]
      rfl

end Operation

/-! ## Services -/

section Service

variable (page : ServicePage)

/-- The imports of definitions and validators are rendered as they are listed. -/
theorem renderAll?_serviceImports :
    renderAll? (serviceEnv page) serviceImports = some (moduleText (definitionImports page)) := by
  have hbind (name : String) : ((serviceEnv page).bind "model" (.string name)).lookup? ["model"] =
    some (.string name) := rfl
  have himport (name : String) : renderAll? ((serviceEnv page).bind "model" (.string name))
      (importType "../models") =
        some (Statement.importNames true [name] ("../models/" ++ name)).text := by
    have hpath : " \x7d from '" ++ "../models" ++ "/" = " \x7d from '" ++ "../models/" := rfl
    simp only [importType, renderAll?_text, renderAll?_value (hbind name), renderAll?_nil, valueText,
      Option.map_some, Statement.text, Json.joinWith, if_true, hpath, String.append_assoc,
      String.append_empty]
  have hvalidator (name : String) : renderAll? ((serviceEnv page).bind "model" (.string name))
      [.text "import validate", .value ["model"], .text " from '../validators/", .value ["model"],
        .text "';\n"] =
        some (Statement.importDefault ("validate" ++ name) ("../validators/" ++ name)).text := by
    have hkeyword : "import validate" = "import " ++ "validate" := rfl
    have hpath : " from '../validators/" = " from '" ++ "../validators/" := rfl
    simp only [renderAll?_text, renderAll?_value (hbind name), renderAll?_nil, valueText,
      Option.map_some, Statement.text, hkeyword, hpath, String.append_assoc, String.append_empty]
  have himports : (Node.each "model" ["imports"] (importType "../models")).render?
      (serviceEnv page) = _ :=
    render?_each page.imports Json.string rfl fun name _ => himport name
  have hvalidators : (Node.each "model" ["validators"]
      [.text "import validate", .value ["model"], .text " from '../validators/", .value ["model"],
        .text "';\n"]).render? (serviceEnv page) = _ :=
    render?_each page.validators Json.string rfl fun name _ => hvalidator name
  rw [serviceImports, renderAll?_cons himports, renderAll?_cons hvalidators, renderAll?_nil,
    Option.map_some, Option.map_some, String.append_empty, definitionImports, moduleText_append,
    moduleText, moduleText, List.map_map, List.map_map]
  rfl

/-- The statements of all operations are rendered in order. -/
theorem render?_operations (variation : Variation) :
    (Node.each "op" ["operations"] (operationNodes variation)).render? (serviceEnv page) =
      some (moduleText (page.operations.flatMap (operationStatements variation page))) := by
  rw [render?_each page.operations (·.context) rfl fun p _ =>
    renderAll?_operation page p variation, moduleText_flatMap]

/-- The routes are rendered as three declarations. -/
theorem renderAll?_routes :
    renderAll? (serviceEnv page) routes = some (moduleText (routeStatements page)) := by
  have hname : (serviceEnv page).lookup? ["name"] = some (.string page.name) := rfl
  have hroutes : (Node.each "op" ["operations"]
      [.text "\n", .value ["op", "name"], .text ": \x7b method: '", .value ["op", "method"],
        .text "', url: '", .value ["op", "routePattern"], .text "' \x7d,"]).render?
        (serviceEnv page) = some (Text.concat (page.operations.map routeEntry)) := by
    refine render?_each page.operations (·.context) rfl fun p _ => ?_
    have hop : ((serviceEnv page).bind "op" p.context).lookup? ["op", "name"] =
      some (.string p.name) := rfl
    have hmethod : ((serviceEnv page).bind "op" p.context).lookup? ["op", "method"] =
      some (.string p.method) := rfl
    have hpattern : ((serviceEnv page).bind "op" p.context).lookup? ["op", "routePattern"] =
      some (.string p.routePattern) := rfl
    simp only [renderAll?_text, renderAll?_value hop, renderAll?_value hmethod,
      renderAll?_value hpattern, renderAll?_nil, valueText, Option.map_some, routeEntry,
      String.append_assoc, String.append_empty]
  have hhandlers : (Node.each "op" ["operations"]
      [.text "\n", .value ["op", "name"], .text ": RouteHandlerMethod;"]).render?
        (serviceEnv page) = some (Text.concat (page.operations.map handlerEntry)) := by
    refine render?_each page.operations (·.context) rfl fun p _ => ?_
    have hop : ((serviceEnv page).bind "op" p.context).lookup? ["op", "name"] =
      some (.string p.name) := rfl
    simp only [renderAll?_text, renderAll?_value hop, renderAll?_nil, valueText, Option.map_some,
      handlerEntry, String.append_assoc, String.append_empty]
  have hconst : "\nexport const " = "\n" ++ "export const " := rfl
  have hroutesName : "Routes = \x7b" = "Routes" ++ " = \x7b" := rfl
  have htype : "\n\x7d as const;\n\nexport type " =
    "\n\x7d as const;\n" ++ ("\n" ++ "export type ") := rfl
  have hhandlersName : "Handlers = \x7b" = "Handlers" ++ " = \x7b" := rfl
  have hfunction : "\n\x7d;\n\nexport function register" =
    "\n\x7d;\n" ++ ("\n" ++ ("export function " ++ "register")) := rfl
  have hregister : "Routes(app: FastifyInstance, handlers: " =
    "Routes" ++ "(app: FastifyInstance, handlers: " := rfl
  have hblank : commentText [] = "" := rfl
  have hempty : moduleText [] = "" := rfl
  rw [routes, renderAll?_text, renderAll?_value hname, renderAll?_text, renderAll?_cons hroutes,
    renderAll?_text, renderAll?_value hname, renderAll?_text, renderAll?_cons hhandlers]
  simp only [renderAll?_text, renderAll?_value hname, renderAll?_nil, Option.map_some, valueText]
  rw [hconst, hroutesName, htype, hhandlersName, hfunction, hregister, routeStatements]
  simp only [moduleText_cons, Statement.text, Keyword.text, hblank, hempty, String.append_assoc,
    String.empty_append, String.append_empty]

/-- The text between the imports of a service and its operations. -/
theorem lines_coreImports :
    lines (coreImports ++ [""]) = moduleText ([.comment []] ++ coreStatements) ∧
      lines (coreImports ++ ["import \x7b useRequest \x7d from '../core/requestReactHook';", ""]) =
        moduleText ([.comment []] ++ coreStatements ++
          [.importNames false ["useRequest"] "../core/requestReactHook"]) := by
  decide +kernel

/-- The module of a service is rendered statement by statement. -/
theorem renderAll?_service (variation : Variation) :
    renderAll? (serviceEnv page) (Emission.serviceArtifact variation).nodes =
      some (moduleText (serviceStatements variation page)) := by
  obtain ⟨hcore, hhook⟩ := lines_coreImports
  cases variation with
  | reactHook =>
      have hoperations : (Node.each "op" ["operations"]
          (optionsFunction ++ requestFunction ++ hookFunction)).render? (serviceEnv page) = _ :=
        render?_operations page .reactHook
      have hblank : "\n" = moduleText [.comment []] := by decide
      change renderAll? (serviceEnv page) reactHookService = _
      rw [reactHookService, renderAll?_append (renderAll?_serviceImports page), renderAll?_text,
        renderAll?_cons hoperations, renderAll?_text, renderAll?_nil, hhook, hblank]
      simp only [Option.map_some, serviceStatements, moduleText_append, String.append_assoc,
        String.append_empty]
  | fastify =>
      have hoperations : (Node.each "op" ["operations"]
          (optionsFunction ++ requestFunction)).render? (serviceEnv page) = _ :=
        render?_operations page .fastify
      have hserver : "import type \x7b FastifyInstance, RouteHandlerMethod \x7d from 'fastify';\n\n" =
          moduleText [.importNames true ["FastifyInstance", "RouteHandlerMethod"] "fastify",
            .comment []] := by
        decide +kernel
      change renderAll? (serviceEnv page) fastifyService = _
      rw [fastifyService, List.append_assoc, List.append_assoc, List.singleton_append,
        renderAll?_text, renderAll?_append (renderAll?_serviceImports page), List.cons_append,
        List.singleton_append, renderAll?_text, renderAll?_cons hoperations, renderAll?_routes, hcore,
        hserver]
      simp only [Option.map_some, serviceStatements, moduleText_append, String.append_assoc]

theorem render_service (variation : Variation) :
    (Emission.serviceArtifact variation).render page.context =
      .ok (moduleText (serviceStatements variation page)) := by
  have hrender : Template.render? (Emission.serviceArtifact variation).nodes page.context =
      some (moduleText (serviceStatements variation page)) := renderAll?_service page variation
  rw [Artifact.render, hrender]

/-- The statements of an operation are among those of its service. -/
theorem mem_serviceStatements {p : OperationPage} (hp : p ∈ page.operations) {variation : Variation}
    {statement : Statement} (h : statement ∈ operationStatements variation page p) :
    statement ∈ serviceStatements variation page := by
  have hoperations := List.mem_flatMap.2 ⟨p, hp, h⟩
  cases variation with
  | reactHook => simp [serviceStatements, hoperations]
  | fastify => simp [serviceStatements, hoperations]

end Service

end TypedClient.Page
