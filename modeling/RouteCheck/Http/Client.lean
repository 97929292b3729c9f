import RouteCheck.Http.Error
import RouteCheck.Http.Context
import RouteCheck.Http.Method
import RouteCheck.Text.Base64
import RouteCheck.Text.Blank

/-!
A JSON client.

`Client.prepare` writes a request, a transport sends it, and `Client.interpret` reads the reply.
A request that cannot be written is not sent.
-/

namespace RouteCheck.Http

open Text (Octets)

/-- A request as it is sent. -/
structure Outgoing where
  method : Method
  url : String
  contentType : String
  authorization : Option String
  body : Option String
  deriving DecidableEq, Repr

structure Reply where
  status : Nat
  body : Octets
  deriving Repr

/-- What sends a request; it may fail to bring a reply. -/
abbrev Transport (m : Type → Type) := Outgoing → m (Option Reply)

structure Client where
  baseUrl : String
  /-- Sent with every request unless it is empty. -/
  password : String

/-- A value to send, or why it cannot be written. -/
abbrev Payload := Except Json.Fault Json

def ignored : Codec Unit := ⟨"any value", Json.Reader.skipped⟩

namespace Client

def credentials (password : String) : String :=
  "Basic " ++ Text.Base64.encode (Text.Utf8.encode (":" ++ password))

/-- The request of a method to a route. -/
def prepare (c : Client) (method : Method) (route : String) (data : Option Payload) :
    Except ClientError Outgoing := do
  let body ← match data with
    | none => pure none
    | some (.ok v) => pure (some v.compact)
    | some (.error fault) => throw (.encode fault)
  return {
    method, url := c.baseUrl ++ route, contentType := "application/json", body
    authorization := if c.password = "" then none else some (credentials c.password) }

/-- Read a reply. An empty body stands for null. -/
def interpret {α : Type} (codec : Codec α) (r : Reply) : Except ClientError α :=
  if r.status < 200 || 300 ≤ r.status then
    .error (.server r.status (Text.trim (Text.Utf8.decodeLossy r.body)))
  else
    (codec.decode (if r.body.isEmpty then Text.Utf8.encode "null" else r.body)).mapError .decode

section
variable {m : Type → Type} [Monad m] {α : Type}

/-- Send a request and read the reply. -/
def send (c : Client) (transport : Transport m) (codec : Codec α) (method : Method)
    (route : String) (data : Option Payload) : m (Except ClientError α) := do
  match c.prepare method route data with
  | .error e => return .error e
  | .ok outgoing =>
    match ← transport outgoing with
    | none => return .error .transport
    | some reply => return interpret codec reply

def get (c : Client) (transport : Transport m) (codec : Codec α) (route : String) :
    m (Except ClientError α) :=
  c.send transport codec .get route none

def post (c : Client) (transport : Transport m) (codec : Codec α) (route : String)
    (data : Payload) : m (Except ClientError α) :=
  c.send transport codec .post route (some data)

def put (c : Client) (transport : Transport m) (route : String) (data : Payload) :
    m (Except ClientError Unit) :=
  c.send transport ignored .put route (some data)

def delete (c : Client) (transport : Transport m) (route : String) : m (Except ClientError Unit) :=
  c.send transport ignored .delete route none

def patch (c : Client) (transport : Transport m) (codec : Codec α) (route : String)
    (data : Payload) : m (Except ClientError α) :=
  c.send transport codec .patch route (some data)

end
end Client
end RouteCheck.Http
