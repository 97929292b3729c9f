import RouteCheck.Text.Basic
import RouteCheck.Text.Shortest

/-!
JSON values and their text.

The members of an object are kept in the order they are to be written in. An integer lies
between -2⁶³ and 2⁶⁴ - 1; any other number is a floating-point number, kept by its bits.
-/

namespace RouteCheck

inductive Json where
  | null
  | bool (b : Bool)
  | int (n : Int)
  | float (bits : UInt64)
  | str (s : String)
  | arr (items : List Json)
  | obj (members : List (String × Json))
  deriving Repr, Inhabited

namespace Json

/-- Set member `key`, in ascending order of keys; a later value replaces an earlier one. -/
def setMember (key : String) (value : Json) : List (String × Json) → List (String × Json)
  | [] => [(key, value)]
  | (k, v) :: rest =>
    match Text.compare key k with
    | .lt => (key, value) :: (k, v) :: rest
    | .eq => (key, value) :: rest
    | .gt => (k, v) :: setMember key value rest

/-- An object whose members are in ascending order of keys. -/
def sorted (members : List (String × Json)) : Json :=
  .obj (members.foldl (fun ms (k, v) => setMember k v ms) [])

/-! ## Text -/

/-- The four hexadecimal digits of a control character. -/
def controlCode (c : Char) : String :=
  let ds := Nat.toDigits 16 c.toNat
  String.ofList (List.replicate (4 - ds.length) '0' ++ ds)

/-- A character inside a JSON string. -/
def escape (c : Char) : String :=
  if c = '"' then "\\\""
  else if c = '\\' then "\\\\"
  else if c = '\n' then "\\n"
  else if c = '\r' then "\\r"
  else if c = '\t' then "\\t"
  else if c = '\x08' then "\\b"
  else if c = '\x0c' then "\\f"
  else if c.toNat < 0x20 then "\\u" ++ controlCode c
  else String.singleton c

def quoted (s : String) : String := "\"" ++ String.join (s.toList.map escape) ++ "\""

mutual
/-- The value in one line without blanks. -/
def compact : Json → String
  | null => "null"
  | bool b => if b then "true" else "false"
  | int n => toString n
  | float bits => Text.Shortest.render bits
  | str s => quoted s
  | arr items => "[" ++ compactItems "" items ++ "]"
  | obj members => "\x7b" ++ compactMembers "" members ++ "\x7d"
def compactItems (sep : String) : List Json → String
  | [] => ""
  | v :: vs => sep ++ compact v ++ compactItems "," vs
def compactMembers (sep : String) : List (String × Json) → String
  | [] => ""
  | (k, v) :: ms => sep ++ quoted k ++ ":" ++ compact v ++ compactMembers "," ms
end

mutual
/-- The value with one item a line, indented by two spaces a level; `margin` is the line break
and the indentation of the line the value begins in. -/
def prettyAt (margin : String) : Json → String
  | arr [] => "[]"
  | obj [] => "\x7b\x7d"
  | arr (v :: vs) => "[" ++ prettyItems (margin ++ "  ") "" (v :: vs) ++ margin ++ "]"
  | obj (m :: ms) => "\x7b" ++ prettyMembers (margin ++ "  ") "" (m :: ms) ++ margin ++ "\x7d"
  | v => v.compact
def prettyItems (margin sep : String) : List Json → String
  | [] => ""
  | v :: vs => sep ++ margin ++ prettyAt margin v ++ prettyItems margin "," vs
def prettyMembers (margin sep : String) : List (String × Json) → String
  | [] => ""
  | (k, v) :: ms =>
    sep ++ margin ++ quoted k ++ ": " ++ prettyAt margin v ++ prettyMembers margin "," ms
end

def pretty (v : Json) : String := prettyAt "\n" v

end Json
end RouteCheck
