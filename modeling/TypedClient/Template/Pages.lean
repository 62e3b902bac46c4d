import TypedClient.Template.Basic

/-!
# Templates of models, schemas and the index

One module for every definition, one for every JSON Schema, the inputs of the
validator compiler, and the index that exports everything that was written.
-/

namespace TypedClient.Template

/-- The lines of a doc comment, from the line end before it to the end of its last line; nothing
if there are none. -/
def docComment (path : List String) : Node :=
  .when (.holds path)
    [.text "\n/**",
      .each "line" path [.text "\n* ", .value ["line"]],
      .text "\n*/"]
    []

/-- The import of a type from the module of its name. -/
def importType (directory : String) : List Node :=
  [.text "import type \x7b ",
    .value ["model"],
    .text (" \x7d from '" ++ directory ++ "/"),
    .value ["model"],
    .text "';\n"]

/-- One member of an enumeration. -/
def enumMember : List Node :=
  [docComment ["member", "doc"],
    .text "\n",
    .value ["member", "key"],
    .text " = ",
    .value ["member", "value"],
    .text ","]

/-- One property of an object type. -/
def property : List Node :=
  [docComment ["property", "doc"],
    .text "\n",
    .when (.holds ["property", "readonly"]) [.text "readonly "] [],
    .value ["property", "key"],
    .when (.holds ["property", "optional"]) [.text "?"] [],
    .text ": ",
    .value ["property", "tsType"],
    .text ";"]

/-- A definition: an enumeration, an object type, or a name for any other type. -/
def model : List Node :=
  [.each "model" ["imports"] (importType "."),
    .text "\n",
    .when (.holds ["doc"])
      [.text "/**",
        .each "line" ["doc"] [.text "\n* ", .value ["line"]],
        .text "\n*/\n"]
      [],
    .when (.holds ["asEnum"])
      [.text "export enum ",
        .value ["name"],
        .text " \x7b",
        .each "member" ["members"] enumMember,
        .text "\n\x7d"]
      [.when (.holds ["asInterface"])
        [.text "export type ",
          .value ["name"],
          .text " = \x7b",
          .each "property" ["properties"] property,
          .text "\n\x7d;"]
        [.text "export type ",
          .value ["name"],
          .text " = ",
          .value ["tsType"],
          .text ";"]],
    .text "\n"]

/-- The JSON Schema of a definition as a constant. -/
def schema : List Node :=
  [.text "export const $", .value ["name"], .text " = ", .value ["schema"], .text " as const;\n"]

/-- The JSON Schema of a definition as an input of the validator compiler. -/
def validatorSchema : List Node :=
  [.text "module.exports = ", .value ["schema"], .text ";\n"]

/-- The script that compiles the validators. -/
def validatorGenerator : List Node :=
  [.text (lines
      ["const fs = require('fs');",
        "const Ajv = require('ajv');",
        "const standaloneCode = require('ajv/dist/standalone').default;",
        "",
        "const ajv = new Ajv(\x7b code: \x7b source: true, esm: true \x7d, strict: false, " ++
          "allErrors: true \x7d);",
        ""]),
    .each "model" ["models"]
      [.text "\najv.addSchema(require('./", .value ["model", "schemaFile"], .text "'));"],
    .text "\n",
    .each "model" ["models"]
      [.text "\nfs.writeFileSync('",
        .value ["model", "name"],
        .text ".js', standaloneCode(ajv, ajv.getSchema('",
        .value ["model", "name"],
        .text "')));"],
    .text "\n"]

/-- The exports of the core. -/
def coreExports : List Node :=
  [.text (lines
      ["export \x7b ApiError \x7d from './core/ApiError';",
        "export type \x7b ApiRequestOptions \x7d from './core/ApiRequestOptions';",
        "export type \x7b ApiResult \x7d from './core/ApiResult';",
        "export \x7b OpenAPI \x7d from './core/OpenAPI';",
        "export type \x7b OpenAPIConfig \x7d from './core/OpenAPI';",
        "export \x7b request \x7d from './core/request';"]),
    .when (.equals ["variation"] "react-hook")
      [.text (lines
          ["",
            "export \x7b useRequest \x7d from './core/requestReactHook';",
            "export type \x7b RequestState \x7d from './core/requestReactHook';"])]
      [],
    .text "\n"]

/-- The export of a name of a model from the module of its name. -/
def exportModel (keyword mark directory : String) : List Node :=
  [.text (keyword ++ mark),
    .value ["model", "name"],
    .text (" \x7d from './" ++ directory),
    .value ["model", "name"],
    .text "';\n"]

/-- The index: the exports of every category that is written. -/
def index : List Node :=
  [.when (.holds ["exportCore"]) coreExports [],
    .text "\n",
    .when (.holds ["exportModels"])
      [.each "model" ["models"]
        [.when (.holds ["model", "isEnum"])
          (exportModel "export \x7b " "" "models/")
          (exportModel "export type \x7b " "" "models/")]]
      [],
    .text "\n",
    .when (.holds ["exportSchemas"])
      [.each "model" ["models"] (exportModel "export \x7b " "$" "schemas/$")]
      [],
    .text "\n",
    .when (.holds ["precompileValidator"])
      [.each "model" ["models"]
        (exportModel "export \x7b default as " "validate" "validators/")]
      [],
    .text "\n",
    .when (.holds ["exportServices"])
      [.each "service" ["services"]
        [.text "export * from './services/", .value ["service", "module"], .text "';\n"]]
      [],
    .text "\n"]

end TypedClient.Template
