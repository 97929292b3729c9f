import RouteCheck.Text.Hidden

/-!
Text in double quotes, as messages print it.

Quotes and backslashes are escaped, the common controls have a letter each, and any other
hidden character is written by its code in lower-case hexadecimal.
-/

namespace RouteCheck.Text

def hex (n : Nat) : String := String.ofList (Nat.toDigits 16 n)

/-- A character inside double quotes. -/
def quoteChar (c : Char) : String :=
  if c = '"' then "\\\""
  else if c = '\\' then "\\\\"
  else if c = '\n' then "\\n"
  else if c = '\r' then "\\r"
  else if c = '\t' then "\\t"
  else if c = '\x00' then "\\0"
  else if isHidden c then "\\u\x7b" ++ hex c.toNat ++ "\x7d"
  else String.singleton c

def quote (s : String) : String :=
  "\"" ++ String.join (s.toList.map quoteChar) ++ "\""

/-- The texts in double quotes, as a list in brackets. -/
def quoteList (ss : List String) : String := "[" ++ String.intercalate ", " (ss.map quote) ++ "]"

end RouteCheck.Text
