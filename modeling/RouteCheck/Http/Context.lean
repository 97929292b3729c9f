import RouteCheck.Http.Error
import RouteCheck.Text.Integer

/-!
The context of a request: what a handler sees of it.

The body is read at most once; a later `Context.decode` sees an empty one. Parameters and form
values are texts, empty where there is none, which `Scalar.read` turns into values.
-/

namespace RouteCheck.Http

open Text (Octets)

/-! ## Scalars -/

/-- The types that parameters and form values are read as. -/
inductive Scalar where
  /-- Integers between two bounds. -/
  | integer (lo hi : Int)
  | bool | char | string
  deriving DecidableEq, Repr

namespace Scalar

def unsigned (bits : Nat) : Scalar := integer 0 ((Nat.pow 2 bits : Int) - 1)

def signed (bits : Nat) : Scalar := 
  integer (-(Nat.pow 2 (bits - 1) : Int)) ((Nat.pow 2 (bits - 1) : Int) - 1)

def integerReason : Text.IntegerError → String
  | .empty => "cannot parse integer from empty string"
  | .invalidDigit => "invalid digit found in string"
  | .tooLarge => "number too large to fit in target type"
  | .tooSmall => "number too small to fit in target type"

/-- Read a value, or say why the text is none. -/
def read (t : Scalar) (s : String) : Except String Json :=
  match t with
  | integer lo hi =>
    match Text.Integer.read 10 lo hi s.toList with
    | .ok n => .ok (.int n)
    | .error e => .error (integerReason e)
  | bool =>
    if s = "true" then .ok (.bool true)
    else if s = "false" then .ok (.bool false)
    else .error "provided string was not `true` or `false`"
  | char =>
    match s.toList with
    | [c] => .ok (.str (String.singleton c))
    | [] => .error "cannot parse char from empty string"
    | _ => .error "too many characters in string"
  | string => .ok (.str s)

end Scalar

/-! ## Bodies -/

/-- A type that bodies are decoded into: its name, and how it is read. -/
structure Codec (α : Type) where
  name : String
  reader : Json.Reader α

def Codec.decode {α : Type} (c : Codec α) (bs : Octets) : Except Json.Error α := c.reader.run bs

/-! ## Contexts -/

structure Context where
  request : Request
  /-- Wildcards of the route with what they matched. -/
  params : List (String × String) := []
  deriving Inhabited

namespace Context

/-- The largest body that is decoded by default, in octets. -/
def defaultLimit : Nat := 10000000

/-- The context of a request that matched these raw parameters. If one of them is not text,
there are none. -/
def ofRequest (r : Request) (raw : List (String × String)) : Context :=
  let decoded := raw.mapM fun (name, value) => (Url.segment? value).map fun s => (name, s)
  { request := r, params := decoded.getD [] }

/-- A path parameter, empty if there is none of the name. -/
def pathParam (c : Context) (name : String) : String := (c.params.lookup name).getD ""

def decodeParam (c : Context) (name : String) (t : Scalar) : Except ApiError Json :=
  (t.read (c.pathParam name)).mapError (.param name)

/-- The first value of a form field, empty if there is none. -/
def formValue (c : Context) (name : String) : String :=
  (c.request.url.form.lookup name).getD ""

/-- Read a form field; an empty one leaves `initial` as it is. -/
def decodeForm (c : Context) (name : String) (t : Scalar) (initial : Json) :
    Except ApiError Json :=
  let value := c.formValue name
  if value = "" then .ok initial else (t.read value).mapError (.form name)

/-- Read the body and decode it; answers the context without the body. -/
def decodeLimit {α : Type} (c : Context) (codec : Codec α) (limit : Nat) :
    Except ApiError α × Context :=
  let spent := { c with request := { c.request with body := {} } }
  match c.request.body.read limit with
  | .error .tooLarge => (.error .bodyTooLarge, spent)
  | .error (.broken reason) => (.error (.decode codec.name reason), spent)
  | .ok bs => ((codec.decode bs).mapError fun e => .decode codec.name e.message, spent)

/-- Decode the body within the default limit. -/
def decode {α : Type} (c : Context) (codec : Codec α) : Except ApiError α × Context :=
  c.decodeLimit codec defaultLimit

/-- A failure that was not the client's, under a heading. -/
def check {α : Type} (heading : String) (result : Except String α) : Except ApiError α :=
  result.mapError fun reason => .status 500 (heading ++ ": " ++ reason)

end Context

/-- The response that carries a value, or says that the value cannot be written. Null is
written as no content at all. -/
def encode : Except Json.Fault Json → Response
  | .error fault => (ApiError.status 500 fault.message).response
  | .ok .null => .empty 204
  | .ok v => { status := 200, contentType := some "application/json", body := v.pretty ++ "\n" }

end RouteCheck.Http
