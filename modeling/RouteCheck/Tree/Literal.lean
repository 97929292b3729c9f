import RouteCheck.Text.Blank
import RouteCheck.Text.Integer

/-!
The text that a Go string literal stands for.

A raw literal loses its carriage returns. In an interpreted literal `\x` and octal escapes
give the character whose code is the byte they denote, `\u` and `\U` a code point.
-/

namespace RouteCheck.Literal

/-- The character with this code, if it is one. -/
def char? (code : Nat) : Option Char :=
  if code < 0xD800 ∨ (0xDFFF < code ∧ code < 0x110000) then some (Char.ofNat code) else none

/-- Number of characters that the escape `\e` takes after `e`, for the escapes with digits. -/
def digitCount : Char → Nat
  | 'x' => 2
  | 'u' => 4
  | 'U' => 8
  | _ => 2

/-- The character written by the escape letter `e` followed by `digits`. -/
def numeric? (e : Char) (digits : List Char) : Option Char :=
  match e with
  | 'x' => (Text.Integer.nat? 16 255 digits).bind char?
  | 'u' | 'U' => (Text.Integer.nat? 16 0xFFFFFFFF digits).bind char?
  | d => (Text.Integer.nat? 8 255 (d :: digits)).bind char?

/-- The character written by a one-letter escape. -/
def simple? : Char → Option Char
  | 'n' => some '\n'
  | 't' => some '\t'
  | 'r' => some '\r'
  | 'a' => some '\x07'
  | 'b' => some '\x08'
  | 'f' => some '\x0c'
  | 'v' => some '\x0b'
  | '\\' => some '\\'
  | '"' => some '"'
  | '\'' => some '\''
  | _ => none

def isNumeric (e : Char) : Bool := e = 'x' || e = 'u' || e = 'U' || ('0' ≤ e && e ≤ '7')

/-- Replace the escapes of an interpreted literal's body. -/
def unescape? : List Char → Option (List Char)
  | [] => some []
  | '\\' :: e :: cs =>
    if isNumeric e then
      match numeric? e (cs.take (digitCount e)) with
      | none => none
      | some c => (unescape? (cs.drop (digitCount e))).map (c :: ·)
    else
      match simple? e with
      | none => none
      | some c => (unescape? cs).map (c :: ·)
  | c :: cs => if c = '\\' then none else (unescape? cs).map (c :: ·)
termination_by cs => cs.length
decreasing_by all_goals simp +arith

/-- The characters between a first and a last `q`. -/
def between? (q : Char) (cs : List Char) : Option (List Char) :=
  match cs with
  | c :: rest =>
    if c = q ∧ rest.getLast? = some q then some rest.dropLast else none
  | [] => none

/-- The value of a string literal, blanks around it ignored. -/
def value? (literal : String) : Option String :=
  let cs := (Text.trim literal).toList
  match between? '\x60' cs with
  | some body => some (String.ofList (body.filter (· != '\r')))
  | none => ((between? '"' cs).bind unescape?).map String.ofList

end RouteCheck.Literal
