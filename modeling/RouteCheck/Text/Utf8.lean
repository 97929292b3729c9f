/-!
Octets and the text they encode in UTF-8.

`Utf8.next` takes one character, or the longest run of octets that begins one but cannot go on,
off a list of octets. `Utf8.decode?` answers a text only if every octet belongs to a character;
`Utf8.decodeLossy` puts U+FFFD in the place of each broken run.
-/

namespace RouteCheck.Text

abbrev Octets := List UInt8

namespace Utf8

def encode (s : String) : Octets := s.toList.flatMap String.utf8EncodeChar

/-- What a first octet announces: how many octets follow, the range of the next one, and the
bits it contributes. -/
structure Lead where
  more : Nat
  low : Nat := 0x80
  high : Nat := 0xBF
  bits : Nat

def lead? (b : Nat) : Option Lead :=
  if b ≤ 0x7F then some { more := 0, bits := b }
  else if b < 0xC2 then none
  else if b ≤ 0xDF then some { more := 1, bits := b - 0xC0 }
  else if b = 0xE0 then some { more := 2, low := 0xA0, bits := 0 }
  else if b = 0xED then some { more := 2, high := 0x9F, bits := 0xD }
  else if b ≤ 0xEF then some { more := 2, bits := b - 0xE0 }
  else if b = 0xF0 then some { more := 3, low := 0x90, bits := 0 }
  else if b ≤ 0xF3 then some { more := 3, bits := b - 0xF0 }
  else if b = 0xF4 then some { more := 3, high := 0x8F, bits := 4 }
  else none

/-- Take `n` more octets, the first of them between `low` and `high`; answers the code point,
if they are there, and the octets after. -/
def tails (low high code : Nat) : Nat → Octets → Option Nat × Octets
  | 0, bs => (some code, bs)
  | _ + 1, [] => (none, [])
  | n + 1, b :: bs =>
    if low ≤ b.toNat && b.toNat ≤ high then tails 0x80 0xBF (code * 64 + (b.toNat - 0x80)) n bs
    else (none, b :: bs)

/-- The first character of `b :: bs`, if there is a whole one, and the octets after. -/
def next (b : UInt8) (bs : Octets) : Option Char × Octets :=
  match lead? b.toNat with
  | none => (none, bs)
  | some l =>
    let (code, rest) := tails l.low l.high l.bits l.more bs
    (code.map Char.ofNat, rest)

theorem length_tails_le (low high code n : Nat) (bs : Octets) :
    (tails low high code n bs).2.length ≤ bs.length := by
  induction n generalizing low high code bs with
  | zero => simp [tails]
  | succ n ih =>
    cases bs with
    | nil => simp [tails]
    | cons b bs =>
      simp only [tails]
      split
      · exact Nat.le_succ_of_le (ih ..)
      · simp

theorem length_next_le (b : UInt8) (bs : Octets) : (next b bs).2.length ≤ bs.length := by
  simp only [next]
  split
  · simp
  · exact length_tails_le ..

/-- The characters and, as `none`, the broken runs of a list of octets. -/
def chars : Octets → List (Option Char)
  | [] => []
  | b :: bs =>
    have := length_next_le b bs
    (next b bs).1 :: chars (next b bs).2
termination_by bs => bs.length

/-- The text that the octets encode, if they encode one. -/
def decode? (bs : Octets) : Option String := ((chars bs).mapM id).map String.ofList

/-- The text of the octets, with U+FFFD for each broken run. -/
def decodeLossy (bs : Octets) : String :=
  String.ofList ((chars bs).map fun c => c.getD '\uFFFD')

end Utf8
end RouteCheck.Text
