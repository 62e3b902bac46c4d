import TypedClient.Artifact
import TypedClient.Client.Basic
import TypedClient.Client.Draft
import TypedClient.Client.Finish
import TypedClient.CommandLine
import TypedClient.Decimal.Double
import TypedClient.Decimal.Shortest
import TypedClient.Decimal.Text
import TypedClient.Decode.Basic
import TypedClient.Document.Basic
import TypedClient.Document.Decode
import TypedClient.Document.Reference
import TypedClient.Document.Version
import TypedClient.Emission.Category
import TypedClient.Emission.Machine
import TypedClient.Error
import TypedClient.Files.Path
import TypedClient.Files.Tree
import TypedClient.Json.Basic
import TypedClient.Json.Number
import TypedClient.Json.Parser
import TypedClient.Json.Printer
import TypedClient.Main
import TypedClient.Model.Basic
import TypedClient.Model.Build
import TypedClient.Model.Components
import TypedClient.Model.Expression
import TypedClient.Model.JsonSchema
import TypedClient.Naming.Identifier
import TypedClient.Naming.Unique
import TypedClient.Naming.Words
import TypedClient.Operation.Basic
import TypedClient.Operation.Build
import TypedClient.Operation.Path
import TypedClient.Operation.Status
import TypedClient.Options.Basic
import TypedClient.Page.Comment
import TypedClient.Page.Model
import TypedClient.Page.Service
import TypedClient.Proofs.Naming.TypeName
import TypedClient.Proofs.Naming.Unique
import TypedClient.Schema.Basic
import TypedClient.Schema.Decode
import TypedClient.Schema.Outline
import TypedClient.Schema.Pointer
import TypedClient.Script.Layout
import TypedClient.Script.Literal
import TypedClient.Source
import TypedClient.Template.Artifact
import TypedClient.Template.Basic
import TypedClient.Template.Core
import TypedClient.Template.Pages
import TypedClient.Template.Services
import TypedClient.Text.Basic
import TypedClient.Text.Capital
import TypedClient.Text.Digit
import TypedClient.Text.Order
import TypedClient.Text.Quote
import TypedClient.Text.Reader
import TypedClient.Toml.Parser
import TypedClient.Toml.Scalar
import TypedClient.Toml.Table
import TypedClient.Yaml.Cursor
import TypedClient.Yaml.Event
import TypedClient.Yaml.Parser
import TypedClient.Yaml.Scalar
import TypedClient.Yaml.Stream
import TypedClient.Yaml.Token
import TypedClient.Proofs.Client.Finished
import TypedClient.Proofs.Model.Parts
import TypedClient.Proofs.Schema.References
import TypedClient.Proofs.Schema.Parts
import TypedClient.Proofs.Model.Embed
import TypedClient.Proofs.Naming.Repeated
import TypedClient.Proofs.Operation.Models
import TypedClient.Proofs.Document.Schemas
import TypedClient.Proofs.Model.Closed
import TypedClient.Proofs.Operation.Sources
import TypedClient.Proofs.Operation.Views
import TypedClient.Proofs.Client.Drafted
import TypedClient.Proofs.Client.Services
import TypedClient.Proofs.Client.Renaming
import TypedClient.Proofs.Client.References
import TypedClient.Proofs.Model.Position
import TypedClient.Proofs.Operation.Identifiers
import TypedClient.Proofs.Client.Position
import TypedClient.Proofs.Client.Reading
import TypedClient.Proofs.Client.Bindings
import TypedClient.Proofs.Client.ModelSet
import TypedClient.Proofs.Naming.Words
import TypedClient.Proofs.Files.Path
import TypedClient.Proofs.Emission.Run
import TypedClient.Proofs.Files.Tree
import TypedClient.Proofs.Files.Effect
import TypedClient.Proofs.Client.GivenNames
import TypedClient.Proofs.Emission.Jobs
import TypedClient.Proofs.Emission.Writing
import TypedClient.Proofs.Emission.Order
import TypedClient.Proofs.Emission.Safety
import TypedClient.Proofs.Emission.Filling
import TypedClient.Proofs.Emission.Progress
import TypedClient.Proofs.Emission.Regeneration
import TypedClient.Proofs.Emission.Override
import TypedClient.Proofs.Client.Coherence
import TypedClient.Proofs.Client.Views
import TypedClient.Proofs.Client.WellFormed
import TypedClient.Proofs.Client.Required
import TypedClient.Proofs.Emission.Compiling
import TypedClient.Proofs.Emission.Completion
import TypedClient.Proofs.Emission.ValidatorFiles
import TypedClient.Proofs.Files.Specifier
import TypedClient.Proofs.Model.Expression
import TypedClient.Proofs.Model.JsonSchema
import TypedClient.Proofs.Model.Soundness
import TypedClient.Proofs.Model.Wrapper
import TypedClient.Proofs.Operation.Path
import TypedClient.Proofs.Page.Comment
import TypedClient.Proofs.Page.Context
import TypedClient.Proofs.Page.Specifiers
import TypedClient.Proofs.Emission.IndexExports
import TypedClient.Proofs.Emission.ServiceScope
import TypedClient.Proofs.Emission.Linking
import TypedClient.Proofs.Client.Idempotence
import TypedClient.Proofs.Client.Appending
import TypedClient.Proofs.Decode.Record
import TypedClient.Proofs.Operation.Declared
import TypedClient.Proofs.Document.Version
import TypedClient.Proofs.Operation.Cut
import TypedClient.Proofs.Operation.Placeholders
import TypedClient.Proofs.Client.Arguments
import TypedClient.Proofs.Decode.View
import TypedClient.Proofs.Document.Role
import TypedClient.Proofs.Document.Blind
import TypedClient.Proofs.Document.BlindParts
import TypedClient.Proofs.Document.Core
import TypedClient.Proofs.Document.Readable
import TypedClient.Proofs.Client.Extension
import TypedClient.Proofs.Operation.PathFirst
import TypedClient.Proofs.Document.Chain
import TypedClient.Proofs.Operation.Merging
import TypedClient.Proofs.Client.Promotion
import TypedClient.Proofs.Page.Validation
import TypedClient.Proofs.Script.Quoting
import TypedClient.Proofs.Script.StringValue
import TypedClient.Proofs.Page.Quotations
import TypedClient.Proofs.Page.DocLines
import TypedClient.Proofs.Script.Grouping
import TypedClient.Proofs.Model.Grouping
import TypedClient.Proofs.Model.Lifting
import TypedClient.Proofs.Model.Members
import TypedClient.Proofs.Model.Printed
import TypedClient.Proofs.Client.Imports
import TypedClient.Proofs.Script.NormalForm
import TypedClient.Proofs.Files.Climb
import TypedClient.Proofs.Operation.StatusKeys
import TypedClient.Proofs.Client.OperationNames
import TypedClient.Proofs.Model.Annotations
import TypedClient.Proofs.Operation.Route
import TypedClient.Proofs.Script.TemplateValue
import TypedClient.Proofs.Client.PathText
import TypedClient.Proofs.Client.ComponentNames
