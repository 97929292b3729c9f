import RouteCheck.Text.Basic

/-!
White space in the sense of the Unicode property White_Space, trimming, and the fields
between runs of white space.
-/

namespace RouteCheck.Text

/-- The Unicode property White_Space. -/
def isBlank (c : Char) : Bool :=
  let n := c.toNat
  (9 ≤ n && n ≤ 13) || n == 0x20 || n == 0x85 || n == 0xA0 || n == 0x1680 ||
  (0x2000 ≤ n && n ≤ 0x200A) || n == 0x2028 || n == 0x2029 || n == 0x202F ||
  n == 0x205F || n == 0x3000

def trimStart (s : String) : String := String.ofList (s.toList.dropWhile isBlank)

def trimEnd (s : String) : String :=
  String.ofList (s.toList.reverse.dropWhile isBlank).reverse

/-- The text without the white space around it. -/
def trim (s : String) : String := trimEnd (trimStart s)

/-- The maximal runs of characters that are not white space. -/
def fieldChars : List Char → List (List Char)
  | [] => []
  | c :: cs =>
    if isBlank c then fieldChars cs
    else
      let rest := fieldChars cs
      match cs with
      | d :: _ => if isBlank d then [c] :: rest else
        match rest with
        | [] => [[c]]
        | f :: fs => (c :: f) :: fs
      | [] => [[c]]

/-- The fields of `s`, separated by runs of white space. -/
def fields (s : String) : List String := (fieldChars s.toList).map String.ofList

end RouteCheck.Text
