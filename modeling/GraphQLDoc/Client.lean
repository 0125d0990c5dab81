import GraphQLDoc.Connection
import GraphQLDoc.Document
import GraphQLDoc.Response

/-!
# Clients

A client sends operations and fields to one service and unwraps the responses. It delivers nothing
itself: a `Transport` takes a request and gives the body of the response, in whatever monad it
needs.

* `Client.ofSettings`: a client with complete settings.
* `Client.request`: the request that carries what is sent.
* `Client.send`: the request, its delivery and the data of the response. Nothing is sent if a
  fragment is not declared.
-/

namespace GraphQLDoc

/-- The settings of a client. -/
structure Settings where
  /-- The address of the service. -/
  uri : String
  /-- The token that goes with each request. -/
  token : String
  /-- Connections in the data give way to the lists of their nodes. -/
  flat : Bool
  deriving DecidableEq

namespace Settings

/-- The first setting that is missing. -/
def fault? (settings : Settings) : Option Error :=
  if settings.uri = "" then some .missingUri
  else if settings.token = "" then some .missingToken
  else none

end Settings

/-- A request to a service. -/
structure Request where
  uri : String
  token : String
  /-- The text of the document. -/
  query : String
  deriving DecidableEq

/-- The parameters of the request by name. -/
def Request.parameters (request : Request) : List (String × String) :=
  [("token", request.token), ("query", request.query)]

/-- The delivery of a request: it gives the body of the response or fails. -/
abbrev Transport (m : Type → Type) : Type := Request → ExceptT Error m Json

/-- A client with complete settings and the fragments that its documents may spread. -/
structure Client where
  settings : Settings
  fragments : Declarations
  complete : settings.fault?.isNone

namespace Client

/-- The client with some settings, if they are complete. -/
def ofSettings (settings : Settings) (fragments : Declarations) : Except Error Client :=
  match h : settings.fault? with
  | some e => .error e
  | none => .ok ⟨settings, fragments, by rw [h]; rfl⟩

/-- The request that carries a document. -/
def request (client : Client) (x : Sendable) : Except Error Request := do
  let query ← client.fragments.document x
  return { uri := client.settings.uri, token := client.settings.token, query := query }

/-- The data in the body of a response, as the client presents it. -/
def unwrap (client : Client) (body : Json) : Except Error Json := do
  let response ← Response.ofJson body
  let data ← response.outcome
  return if client.settings.flat then data.flattenConnections else data

/-- Sends a document and gives the data of the response. -/
def send {m : Type → Type} [Monad m] (client : Client) (transport : Transport m) (x : Sendable) :
    ExceptT Error m Json := do
  let request ← ExceptT.mk (pure (client.request x))
  let body ← transport request
  ExceptT.mk (pure (client.unwrap body))

end Client

end GraphQLDoc
