/-!
The shortest decimal that reads back as a given binary floating-point number.

`Shortest.digits` decodes the 64 bits into `m · 2^q`, takes the interval of reals that round
to it, and tests for 1, 2, … 17 digits the two neighbours of the value on that decimal grid.
The first grid with a hit wins, and of two hits the nearer.
-/

namespace RouteCheck.Text.Shortest

/-- A positive finite number `m · 2^(q - 1074)` and whether the gap below it is half as wide. -/
structure Binary where
  m : Nat
  q : Nat
  narrow : Bool
  deriving Repr

/-- Sign and magnitude of a finite number; `none` for infinities and NaN. -/
def decode? (bits : UInt64) : Option (Bool × Binary) :=
  let n := bits.toNat
  let sign := n / Nat.pow 2 63 = 1
  let e := n / Nat.pow 2 52 % 2048
  let f := n % Nat.pow 2 52
  if e = 2047 then none
  else if e = 0 then some (sign, ⟨f, 0, false⟩)
  else some (sign, ⟨f + Nat.pow 2 52, e - 1, f = 0 && 1 < e⟩)

/-- Number of decimal digits of a natural number; 0 has none. -/
def digitCount (n : Nat) : Nat := if n = 0 then 0 else (Nat.toDigits 10 n).length

/-- How many decimal places are needed until `num / den` reaches 1. -/
def leadingZeros (num den : Nat) : Nat → Nat
  | 0 => 0
  | fuel + 1 => if den ≤ num then 0 else leadingZeros (num * 10) den fuel + 1

/-- Digits and exponent of the shortest decimal: the value is `digits · 10^exponent`. -/
def digits (b : Binary) : Nat × Int :=
  -- in units of a quarter of the last binary place
  let scale := Nat.pow 2 b.q
  let den := 4 * Nat.pow 2 1074
  let mid := 4 * b.m * scale
  let lo := mid - (if b.narrow then 1 else 2) * scale
  let hi := mid + 2 * scale
  let inside := fun num unitDen =>
    -- num / unitDen against lo / den and hi / den
    let x := num * den
    if b.m % 2 = 0 then decide (lo * unitDen ≤ x ∧ x ≤ hi * unitDen)
    else decide (lo * unitDen < x ∧ x < hi * unitDen)
  let whole := digitCount (mid / den)
  let point : Int := if whole > 0 then whole else 1 - leadingZeros mid den 400
  let try_ := fun n : Nat =>
    let k : Int := point - n
    let up := Nat.pow 10 k.toNat
    let down := Nat.pow 10 (-k).toNat
    let c := mid * down / (den * up)
    let below := inside (c * up) down
    let above := inside ((c + 1) * up) down
    let twice := 2 * (mid * down - c * (den * up))
    if below && above then
      some (if twice < den * up || (twice = den * up && c % 2 = 0) then c else c + 1, k)
    else if below then some (c, k)
    else if above then some (c + 1, k)
    else none
  (((List.range 17).map (· + 1)).findSome? try_).getD (0, 0)

def strip (d : Nat) (k : Int) : Nat → Nat × Int
  | 0 => (d, k)
  | fuel + 1 => if d ≠ 0 ∧ d % 10 = 0 then strip (d / 10) (k + 1) fuel else (d, k)

/-- The number with its shortest digits: positional between 10⁻⁵ and 10¹⁶, else with an
exponent; a whole number has one decimal place. -/
def render (bits : UInt64) : String :=
  match decode? bits with
  | none => "null"
  | some (sign, b) =>
    let minus := if sign then "-" else ""
    if b.m = 0 then minus ++ "0.0" else
    let (d₀, k₀) := digits b
    let (d, k) := strip d₀ k₀ 20
    let ds := Nat.toDigits 10 d
    let point : Int := ds.length + k
    let zeros := fun n => String.ofList (List.replicate n '0')
    let body :=
      if 0 ≤ k ∧ point ≤ 16 then String.ofList ds ++ zeros k.toNat ++ ".0"
      else if 0 < point ∧ point ≤ 16 then
        String.ofList (ds.take point.toNat) ++ "." ++ String.ofList (ds.drop point.toNat)
      else if -5 < point ∧ point ≤ 0 then
        "0." ++ zeros (-point).toNat ++ String.ofList ds
      else
        let frac := ds.drop 1
        String.ofList (ds.take 1) ++ (if frac.isEmpty then "" else "." ++ String.ofList frac) ++
          "e" ++ toString (point - 1)
    minus ++ body

end RouteCheck.Text.Shortest
