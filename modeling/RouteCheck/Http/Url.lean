import RouteCheck.Text.Basic
import RouteCheck.Text.Integer
import RouteCheck.Text.Utf8

/-!
Request targets: a path and an optional query, both still percent-encoded.
-/

namespace RouteCheck.Http

open Text (Octets)

/-- The target of a request, without a fragment. -/
structure Url where
  path : String
  query : Option String := none
  deriving DecidableEq, Repr, Inhabited

namespace Url

/-- Read a target; a fragment is dropped. -/
def ofText (s : String) : Url :=
  let target := match Text.cut? '#' s with
    | some (before, _) => before
    | none => s
  match Text.cut? '?' target with
  | some (path, query) => ⟨path, some query⟩
  | none => ⟨target, none⟩

def text (u : Url) : String :=
  match u.query with
  | some q => u.path ++ "?" ++ q
  | none => u.path

/-- The octet that two hexadecimal digits stand for. -/
def hexPair? (a b : UInt8) : Option UInt8 := do
  let x ← Text.Integer.digit? 16 (Char.ofNat a.toNat)
  let y ← Text.Integer.digit? 16 (Char.ofNat b.toNat)
  return UInt8.ofNat (x * 16 + y)

/-- Replace each percent sign and two hexadecimal digits by the octet they stand for; any other
percent sign stays. -/
def unescape : Octets → Octets
  | [] => []
  | [a] => [a]
  | [a, b] => [a, b]
  | p :: a :: b :: rest =>
    if p = 0x25 then
      match hexPair? a b with
      | some x => x :: unescape rest
      | none => p :: unescape (a :: b :: rest)
    else p :: unescape (a :: b :: rest)

/-- The text of a percent-encoded path segment, if its octets are text. -/
def segment? (s : String) : Option String := Text.Utf8.decode? (unescape (Text.Utf8.encode s))

/-- The text of a form-encoded name or value, where `+` is a space. -/
def formText (s : String) : String :=
  let spaced := s.toList.map fun c => if c = '+' then ' ' else c
  Text.Utf8.decodeLossy (unescape (Text.Utf8.encode (String.ofList spaced)))

/-- The names and values of the query, in order. -/
def form (u : Url) : List (String × String) :=
  let fields := (Text.split '&' (u.query.getD "")).filter (· != "")
  fields.map fun field =>
    match Text.cut? '=' field with
    | some (name, value) => (formText name, formText value)
    | none => (formText field, "")

end Url
end RouteCheck.Http
