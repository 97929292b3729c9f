/-!
Reading integers of a bounded range in a radix.

A leading `+` is always allowed, a leading `-` only when the range has negative numbers.
Digits are taken from the left, so of two faults the leftmost decides the error, and a
character that is no digit is seen before the overflow it would have caused.
-/

namespace RouteCheck.Text

/-- Why a text is no integer of the range. -/
inductive IntegerError where
  | empty | invalidDigit | tooLarge | tooSmall
  deriving DecidableEq, Repr

namespace Integer

/-- The value of a digit in `radix` (at most 36). -/
def digit? (radix : Nat) (c : Char) : Option Nat :=
  let v :=
    if '0' ≤ c ∧ c ≤ '9' then some (c.toNat - '0'.toNat)
    else if 'a' ≤ c ∧ c ≤ 'z' then some (c.toNat - 'a'.toNat + 10)
    else if 'A' ≤ c ∧ c ≤ 'Z' then some (c.toNat - 'A'.toNat + 10)
    else none
  v.filter (· < radix)

/-- Digits that count upwards from `acc`. -/
def readUp (radix : Nat) (hi : Int) (acc : Int) : List Char → Except IntegerError Int
  | [] => .ok acc
  | c :: cs =>
    match digit? radix c with
    | none => .error .invalidDigit
    | some d =>
      let v := acc * radix + d
      if v > hi then .error .tooLarge else readUp radix hi v cs

/-- Digits that count downwards from `acc`. -/
def readDown (radix : Nat) (lo : Int) (acc : Int) : List Char → Except IntegerError Int
  | [] => .ok acc
  | c :: cs =>
    match digit? radix c with
    | none => .error .invalidDigit
    | some d =>
      let v := acc * radix - d
      if v < lo then .error .tooSmall else readDown radix lo v cs

/-- The integer between `lo` and `hi` written by `cs`. -/
def read (radix : Nat) (lo hi : Int) : List Char → Except IntegerError Int
  | [] => .error .empty
  | ['+'] | ['-'] => .error .invalidDigit
  | '+' :: ds => readUp radix hi 0 ds
  | '-' :: ds => if lo < 0 then readDown radix lo 0 ds else .error .invalidDigit
  | ds => readUp radix hi 0 ds

/-- As `read`, for numbers from 0 to `hi`. -/
def nat? (radix hi : Nat) (cs : List Char) : Option Nat :=
  match read radix 0 hi cs with
  | .ok v => some v.toNat
  | .error _ => none

end Integer
end RouteCheck.Text
