import RouteCheck.Http.Url

/-!
Requests and responses.

A request body arrives in chunks and may break off. Of a response only what this library sets is
kept: the status, two headers and the body.
-/

namespace RouteCheck.Http

open Text (Octets)

/-- Header names and values, in order; names are compared without regard to case. -/
abbrev Headers := List (String × String)

namespace Headers

def get? (hs : Headers) (name : String) : Option String :=
  (hs.find? fun h => Text.lowerAscii h.1 == Text.lowerAscii name).map (·.2)

/-- A character that header text may have: visible ASCII, a space or a tab. -/
def isPlain (c : Char) : Bool := c = '\t' || (0x20 ≤ c.toNat && c.toNat < 0x7F)

/-- The first value of a header, if it is plain text. -/
def text? (hs : Headers) (name : String) : Option String :=
  (hs.get? name).filter fun v => v.toList.all isPlain

end Headers

/-- A body on its way in: its chunks, and why it breaks off after them, if it does. -/
structure Body where
  chunks : List Octets := []
  failure : Option String := none
  deriving Repr, Inhabited

/-- Why a body could not be read. -/
inductive BodyError where
  | tooLarge
  | broken (reason : String)
  deriving DecidableEq, Repr

namespace Body

def ofText (s : String) : Body := { chunks := [Text.Utf8.encode s] }

/-- Collect chunks of at most `limit` octets together. -/
def collect (failure : Option String) (limit : Nat) : List Octets → Except BodyError Octets
  | [] =>
    match failure with
    | some reason => .error (.broken reason)
    | none => .ok []
  | c :: cs =>
    if c.length > limit then .error .tooLarge
    else (collect failure (limit - c.length) cs).map (c ++ ·)

/-- Read a body of at most `limit` octets. -/
def read (b : Body) (limit : Nat) : Except BodyError Octets := collect b.failure limit b.chunks

end Body

structure Request where
  method : String
  url : Url
  headers : Headers := []
  body : Body := {}
  deriving Repr, Inhabited

structure Response where
  status : Nat
  contentType : Option String := none
  /-- The methods that the path takes, where the request's method is not one of them. -/
  allow : Option String := none
  body : String := ""
  deriving DecidableEq, Repr, Inhabited

namespace Response

def plain (status : Nat) (message : String) : Response :=
  { status, contentType := some "text/plain; charset=utf-8", body := message ++ "\n" }

def empty (status : Nat) : Response := { status }

def withoutBody (r : Response) : Response := { r with body := "" }

end Response
end RouteCheck.Http
