import RouteCheck.Text.Integer

/-!
TOML values and the texts of numbers.

A number is written in one word, or in words around a point and an exponent sign. Underscores
may stand between digits. An integer has to fit into 64 bits, a float has to be finite.
-/

namespace RouteCheck.Toml

inductive Value where
  | string (text : String)
  | boolean (b : Bool)
  | integer (n : Int)
  | float
  /-- A date, a time, or what has the shape of one. -/
  | datetime
  | array (items : List Value)
  /-- A table written in braces. -/
  | table (entries : List (String × Value))
  /-- A table that dotted keys make up. -/
  | dotted (entries : List (String × Value))
  deriving Repr, Inhabited

namespace Number

/-- Digits and the underscores between them, up to the first other character. `first` until
there is a digit, `zero` if the first is a zero that no digit may follow, `gap` after an
underscore. Answers the digits and the rest. -/
def scan (radix : Nat) (leadingZeros : Bool) (first zero gap : Bool) :
    List Char → Option (List Char × List Char)
  | [] => if first || gap then none else some ([], [])
  | c :: cs =>
    if (Text.Integer.digit? radix c).isSome then
      if c = '0' && first then
        (scan radix leadingZeros false true gap cs).map fun (ds, rest) => (c :: ds, rest)
      else if !first && zero && !leadingZeros then none
      else (scan radix leadingZeros false zero false cs).map fun (ds, rest) => (c :: ds, rest)
    else if c = '_' && first then none
    else if c = '_' && !gap then scan radix leadingZeros false zero true cs
    else if first || gap then none
    else some ([], c :: cs)

/-- Digits after an optional sign: whether there is a minus, the digits, and the rest. -/
def scanSigned (radix : Nat) (leadingZeros : Bool) : List Char → Option (Bool × List Char × List Char)
  | '-' :: cs => (scan radix leadingZeros true false false cs).map (true, ·)
  | '+' :: cs => (scan radix leadingZeros true false false cs).map (false, ·)
  | cs => (scan radix leadingZeros true false false cs).map (false, ·)

def ofDigits (radix : Nat) (ds : List Char) : Nat :=
  ds.foldl (fun n c => n * radix + (Text.Integer.digit? radix c).getD 0) 0

/-- An integer in a radix without a sign. -/
def inRadix? (radix : Nat) (cs : List Char) : Option Value := do
  let (ds, rest) ← scan radix true true false false cs
  let n := ofDigits radix ds
  if rest.isEmpty && n < Nat.pow 2 63 then return .integer n else none

def decimal? (cs : List Char) : Option Value := do
  let (negative, ds, rest) ← scanSigned 10 false cs
  let n : Int := if negative then -(ofDigits 10 ds : Int) else ofDigits 10 ds
  if rest.isEmpty && -(Nat.pow 2 63 : Int) ≤ n && n < Nat.pow 2 63 then return .integer n else none

/-- The least number that rounds to infinity. -/
def overflow : Nat := Nat.pow 2 1024 - Nat.pow 2 970

/-- The float `n · 10ᵉ` is finite. -/
def isFinite (n : Nat) (e : Int) : Bool :=
  let magnitude : Int := (Nat.toDigits 10 n).length + e
  if n = 0 || magnitude < 309 then true
  else if magnitude > 309 then false
  else if e ≥ 0 then n * Nat.pow 10 e.toNat < overflow
  else n < overflow * Nat.pow 10 (-e).toNat

/-- A float of integer digits, digits of a fraction and an exponent. -/
def float? (whole fraction : List Char) (exponent : Int) : Option Value :=
  if isFinite (ofDigits 10 (whole ++ fraction)) (exponent - fraction.length) then some .float else none

end Number
end RouteCheck.Toml
