/-!
Text as a list of characters: splitting, prefixes, suffixes and replacement.

Every operation goes through `String.toList`, so that what it does can be read off the
characters. Lengths in bytes are those of the UTF-8 encoding.
-/

namespace RouteCheck.Text

/-- The pieces between occurrences of `c`; there is always at least one. -/
def splitChars (c : Char) : List Char → List (List Char)
  | [] => [[]]
  | x :: xs =>
    if x = c then [] :: splitChars c xs
    else match splitChars c xs with
      | [] => [[x]]
      | p :: ps => (x :: p) :: ps

/-- The pieces of `s` between occurrences of `c`. -/
def split (c : Char) (s : String) : List String := (splitChars c s.toList).map String.ofList

/-- The text before and after the first `c`. -/
def cut? (c : Char) (s : String) : Option (String × String) :=
  match s.toList.span (· != c) with
  | (_, []) => none
  | (before, _ :: after) => some (String.ofList before, String.ofList after)

/-- What follows `lead` at the start of the characters. -/
def dropLeadChars? : List Char → List Char → Option (List Char)
  | [], cs => some cs
  | _ :: _, [] => none
  | p :: ps, c :: cs => if p = c then dropLeadChars? ps cs else none

/-- What follows `lead` at the start of `s`. -/
def dropLead? (lead s : String) : Option String :=
  (dropLeadChars? lead.toList s.toList).map String.ofList

/-- What precedes `tail` at the end of `s`. -/
def dropTail? (tail s : String) : Option String :=
  (dropLeadChars? tail.toList.reverse s.toList.reverse).map (String.ofList ·.reverse)

def startsWith (lead s : String) : Bool := (dropLead? lead s).isSome
def endsWith (tail s : String) : Bool := (dropTail? tail s).isSome
def contains (c : Char) (s : String) : Bool := s.toList.contains c

/-- Lower case for the letters A–Z; every other character stays. -/
def lowerAscii (s : String) : String := String.ofList (s.toList.map Char.toLower)

/-- Width of a character in UTF-8, in bytes. -/
def width (c : Char) : Nat := c.utf8Size

/-- Lexicographic comparison by code point, which is also the order of the UTF-8 bytes. -/
def compareChars : List Char → List Char → Ordering
  | [], [] => .eq
  | [], _ :: _ => .lt
  | _ :: _, [] => .gt
  | a :: as, b :: bs => (compare a.toNat b.toNat).then (compareChars as bs)

def compare (a b : String) : Ordering := compareChars a.toList b.toList

end RouteCheck.Text
