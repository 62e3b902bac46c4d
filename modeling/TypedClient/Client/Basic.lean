import TypedClient.Operation.Basic

/-!
# Clients

The client that is generated for a document: its types, and its operations
grouped into services.
-/

namespace TypedClient

/-- Operations that share a tag. -/
structure Service where
  name : String
  operations : List Operation
  imports : List String := []
deriving BEq, Repr, Inhabited

/-- Everything that is generated for a document. -/
structure Client where
  version : String
  /-- The address of the server. -/
  server : String
  models : List Model
  services : List Service
deriving BEq, Repr, Inhabited

namespace Client

/-- The model of a name. -/
def model? (c : Client) (name : String) : Option Model := c.models.find? (·.name == name)

/-- The service of a name. -/
def service? (c : Client) (name : String) : Option Service := c.services.find? (·.name == name)

end Client

end TypedClient
