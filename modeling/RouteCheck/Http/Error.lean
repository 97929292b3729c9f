import RouteCheck.Http.Message
import RouteCheck.Json.Reader

/-!
What can go wrong in a handler, in a table of routes, and in a client's request.
-/

namespace RouteCheck.Http

/-- Errors that a handler answers with. -/
inductive ApiError where
  /-- The body exceeds the limit. -/
  | bodyTooLarge
  /-- The body could not be read as a value of type `ty`. -/
  | decode (ty reason : String)
  | param (name reason : String)
  | form (name reason : String)
  | unauthorized
  /-- An error with a status of its own. -/
  | status (code : Nat) (message : String)
  deriving DecidableEq, Repr

namespace ApiError

def message : ApiError → String
  | bodyTooLarge => "request body too large"
  | decode ty reason => "couldn't decode request type (" ++ ty ++ "): " ++ reason
  | param name reason => "couldn't parse param " ++ Text.quote name ++ ": " ++ reason
  | form name reason => "invalid form value " ++ Text.quote name ++ ": " ++ reason
  | unauthorized => "Unauthorized"
  | status _ m => m

def statusCode : ApiError → Nat
  | bodyTooLarge => 413
  | decode .. | param .. | form .. => 400
  | unauthorized => 401
  | status code _ => code

def response (e : ApiError) : Response := .plain e.statusCode e.message

end ApiError

/-- Faults of a table of routes. -/
inductive RouteError where
  /-- The key is not a method and a path. -/
  | invalidRoute (key : String)
  | unhandledMethod (method : String)
  /-- An earlier entry has the method and path of this key. -/
  | duplicate (key : String)
  deriving DecidableEq, Repr

def RouteError.message : RouteError → String
  | invalidRoute key => "invalid route " ++ Text.quote key
  | unhandledMethod method => "unhandled method " ++ Text.quote method
  | duplicate key => "duplicate route " ++ Text.quote key

/-- Errors of a client's request. -/
inductive ClientError where
  /-- There was no answer. -/
  | transport
  /-- The answer is not a success; the message is its body. -/
  | server (status : Nat) (message : String)
  /-- The request could not be written. -/
  | encode (fault : Json.Fault)
  /-- The answer could not be read. -/
  | decode (error : Json.Error)
  deriving DecidableEq, Repr

def ClientError.message : ClientError → String
  | transport => ""
  | server _ message => message
  | encode fault => "couldn't encode request: " ++ fault.message
  | decode error => "couldn't decode response: " ++ error.message

end RouteCheck.Http
