import TypedClient.Template.Pages

/-!
# Templates of services

The modules that hold the operations of a service: for every operation a function
that gathers the request and one that sends it. In a browser a hook is added, for
a server the routes under which the operations are to be found.
-/

namespace TypedClient.Template

/-- The imports at the head of a service. -/
def serviceImports : List Node :=
  [.each "model" ["imports"] (importType "../models"),
    .each "model" ["validators"]
      [.text "import validate",
        .value ["model"],
        .text " from '../validators/",
        .value ["model"],
        .text "';\n"]]

/-- The imports from the core that every service has. -/
def coreImports : List String :=
  ["",
    "import type \x7b ApiRequestOptions \x7d from '../core/ApiRequestOptions';",
    "import \x7b OpenAPI \x7d from '../core/OpenAPI';",
    "import \x7b request \x7d from '../core/request';"]

/-- The values that are sent in one place, by their names. -/
def sentFields (key : String) (path : List String) : Node :=
  .when (.holds path)
    [.text ("\n" ++ key ++ ": \x7b"),
      .each "field" path
        [.text "\n'", .value ["field", "prop"], .text "': ", .value ["field", "name"], .text ","],
      .text "\n\x7d,"]
    []

/-- The function that gathers the request of an operation. -/
def optionsFunction : List Node :=
  [.text "\nconst ",
    .value ["op", "name"],
    .text "Options = (",
    .value ["op", "signature"],
    .text "): ApiRequestOptions => (\x7b\nmethod: '",
    .value ["op", "method"],
    .text "',\npath: \x60",
    .value ["op", "pathPattern"],
    .text "\x60,",
    sentFields "cookies" ["op", "cookies"],
    sentFields "headers" ["op", "headers"],
    sentFields "query" ["op", "query"],
    .when (.holds ["op", "body"])
      [.text "\nbody: ",
        .value ["op", "body", "name"],
        .text ",",
        .when (.holds ["op", "body", "mediaType"])
          [.text "\nmediaType: '", .value ["op", "body", "mediaType"], .text "',"]
          []]
      [],
    .when (.holds ["op", "responseHeader"])
      [.text "\nresponseHeader: '", .value ["op", "responseHeader"], .text "',"]
      [],
    .when (.holds ["op", "errors"])
      [.text "\nerrors: \x7b",
        .each "error" ["op", "errors"]
          [.text "\n",
            .value ["error", "code"],
            .text ": '",
            .value ["error", "description"],
            .text "',"],
        .text "\n\x7d,"]
      [],
    .when (.holds ["op", "validator"])
      [.text "\nvalidate: validate", .value ["op", "validator"], .text ","]
      [],
    .text "\n\x7d);\n"]

/-- The function that sends the request of an operation. -/
def requestFunction : List Node :=
  [docComment ["op", "doc"],
    .text "\nexport const ",
    .value ["op", "name"],
    .text " = (",
    .value ["op", "signature"],
    .text "): Promise<",
    .value ["op", "result"],
    .text "> =>\nrequest<",
    .value ["op", "result"],
    .text ">(OpenAPI, ",
    .value ["op", "name"],
    .text "Options(",
    .value ["op", "arguments"],
    .text "));\n"]

/-- The hook around the request of an operation. -/
def hookFunction : List Node :=
  [docComment ["op", "doc"],
    .text "\nexport const ",
    .value ["op", "hookName"],
    .text " = (",
    .value ["op", "signature"],
    .text ") =>\nuseRequest<",
    .value ["op", "result"],
    .text ">(OpenAPI, ",
    .value ["op", "name"],
    .text "Options(",
    .value ["op", "arguments"],
    .text "), ",
    .value ["op", "deps"],
    .text ");\n"]

/-- A service with hooks. -/
def reactHookService : List Node :=
  serviceImports ++
    [.text (lines
        (coreImports ++ ["import \x7b useRequest \x7d from '../core/requestReactHook';", ""])),
      .each "op" ["operations"] (optionsFunction ++ requestFunction ++ hookFunction),
      .text "\n"]

/-- The routes of a service and the function that registers them. -/
def routes : List Node :=
  [.text "\nexport const ",
    .value ["name"],
    .text "Routes = \x7b",
    .each "op" ["operations"]
      [.text "\n",
        .value ["op", "name"],
        .text ": \x7b method: '",
        .value ["op", "method"],
        .text "', url: '",
        .value ["op", "routePattern"],
        .text "' \x7d,"],
    .text "\n\x7d as const;\n\nexport type ",
    .value ["name"],
    .text "Handlers = \x7b",
    .each "op" ["operations"]
      [.text "\n", .value ["op", "name"], .text ": RouteHandlerMethod;"],
    .text "\n\x7d;\n\nexport function register",
    .value ["name"],
    .text "Routes(app: FastifyInstance, handlers: ",
    .value ["name"],
    .text "Handlers): void \x7b\nfor (const [name, route] of Object.entries(",
    .value ["name"],
    .text "Routes)) \x7b\napp.route(\x7b ...route, handler: handlers[name as keyof ",
    .value ["name"],
    .text "Handlers] \x7d);\n\x7d\n\x7d\n"]

/-- A service with routes. -/
def fastifyService : List Node :=
  [.text "import type \x7b FastifyInstance, RouteHandlerMethod \x7d from 'fastify';\n\n"] ++
    serviceImports ++
    [.text (lines (coreImports ++ [""])),
      .each "op" ["operations"] (optionsFunction ++ requestFunction)] ++
    routes

end TypedClient.Template
