import RouteCheck.Tree.Node
import RouteCheck.Text.Blank

/-!
Tokens of Go source.

`Token.scan` cuts a text into tokens. Comments and white space separate tokens and leave no
trace but `Token.newlineBefore`, by which the grammar ends statements at line breaks.
Characters outside ASCII that are not white space are taken as letters.
-/

namespace RouteCheck

/-- The lexical class of a token. -/
inductive Token.Class where
  | word | int | float | imaginary | rune | interpreted | raw | mark
  deriving DecidableEq, Repr, Inhabited

structure Token where
  cls : Token.Class
  text : String
  span : Span
  /-- A line break outside comments precedes the token. -/
  newlineBefore : Bool
  deriving DecidableEq, Repr, Inhabited

namespace Token

/-- A place in the text: byte offset, line and column. -/
structure Place where
  byte : Nat := 0
  line : Nat := 1
  column : Nat := 1
  deriving DecidableEq, Repr, Inhabited

def Place.step (p : Place) (c : Char) : Place :=
  if c = '\n' then ⟨p.byte + 1, p.line + 1, 1⟩
  else ⟨p.byte + Text.width c, p.line, p.column + Text.width c⟩

def Place.advance (p : Place) (cs : List Char) : Place := cs.foldl step p

/-! ## Lexical classes -/

def isLetter (c : Char) : Bool := c.isAlpha || c = '_' || c.toNat > 127
def isWordChar (c : Char) : Bool := isLetter c || c.isDigit

/-- Length of the longest beginning of `cs` whose characters satisfy `p`. -/
def run (p : Char → Bool) (cs : List Char) : Nat := (cs.takeWhile p).length

def isHexDigit (c : Char) : Bool :=
  c.isDigit || ('a' ≤ c && c ≤ 'f') || ('A' ≤ c && c ≤ 'F')

/-- Length of an exponent whose letter is in `marks`, 0 if there is none. -/
def exponentLength (marks : List Char) : List Char → Nat
  | e :: s :: cs =>
    if !marks.contains e then 0
    else if s = '+' || s = '-' then 2 + run Char.isDigit cs
    else 1 + run (fun c => c.isDigit || c = '_') (s :: cs)
  | [e] => if marks.contains e then 1 else 0
  | [] => 0

/-- Length and class of the number that `cs` begins with. -/
def number (cs : List Char) : Nat × Class :=
  let radix := match cs with
    | '0' :: x :: _ => x
    | _ => ' '
  let based := "xXbBoO".toList.contains radix
  let digit := fun c => c = '_' ||
    if radix = 'x' || radix = 'X' then isHexDigit c else Char.isDigit c
  let lead := if based then 2 else 0
  let whole := lead + run digit (cs.drop lead)
  let point := match cs.drop whole with
    | '.' :: more => 1 + run digit more
    | _ => 0
  let marks := if radix = 'x' || radix = 'X' then ['p', 'P'] else ['e', 'E']
  let mantissa := whole + point
  let full := mantissa + exponentLength marks (cs.drop mantissa)
  match cs.drop full with
  | 'i' :: _ => (full + 1, .imaginary)
  | _ => (full, if full = whole then .int else .float)

/-- Length up to and including the closing `q`; a backslash keeps the next character. -/
def quotedLength (q : Char) : List Char → Nat
  | [] => 0
  | '\\' :: _ :: cs => 2 + quotedLength q cs
  | c :: cs => if c = q then 1 else 1 + quotedLength q cs

/-- Marks of more than one character, longest first. -/
def longMarks : List (List Char) :=
  ["<<=", ">>=", "&^=", "...", "&&", "||", "<-", "++", "--", "==", "!=", "<=", ">=", ":=",
   "+=", "-=", "*=", "/=", "%=", "&=", "|=", "^=", "<<", ">>", "&^"].map String.toList

/-- Class of the token that begins with `c`, and how many of the characters `cs` after `c`
belong to it. -/
def measure (c : Char) (cs : List Char) : Class × Nat :=
  if isLetter c then (.word, run isWordChar cs)
  else if c.isDigit || (c = '.' && (cs.head?.map Char.isDigit).getD false) then
    let (n, cls) := number (c :: cs)
    (cls, n - 1)
  else if c = '"' then (.interpreted, quotedLength '"' cs)
  else if c = '\'' then (.rune, quotedLength '\'' cs)
  else if c = '\x60' then (.raw, run (· != '\x60') cs + 1)
  else match longMarks.find? (·.isPrefixOf (c :: cs)) with
    | some m => (.mark, m.length - 1)
    | none => (.mark, 0)

/-- Number of characters in a block comment after its opening, closing mark included. -/
def blockCommentLength : List Char → Nat
  | [] => 0
  | '*' :: '/' :: _ => 2
  | _ :: cs => 1 + blockCommentLength cs

/-- The tokens of `cs`, which starts at place `p`. -/
def scanFrom (p : Place) (newline : Bool) : List Char → List Token
  | [] => []
  | c :: cs =>
    if Text.isBlank c then scanFrom (p.step c) (newline || c = '\n') cs
    else if c = '/' && cs.head? = some '/' then
      let n := run (· != '\n') cs
      scanFrom (p.advance (c :: cs.take n)) newline (cs.drop n)
    else if c = '/' && cs.head? = some '*' then
      let n := 1 + blockCommentLength (cs.drop 1)
      scanFrom (p.advance (c :: cs.take n)) newline (cs.drop n)
    else
      let (cls, n) := measure c cs
      let chars := c :: cs.take n
      let q := p.advance chars
      { cls, text := String.ofList chars, span := ⟨p.byte, q.byte, p.line, p.column⟩,
        newlineBefore := newline } :: scanFrom q false (cs.drop n)
termination_by cs => cs.length
decreasing_by all_goals simp +arith

/-- The tokens of a source text. A byte order mark at its start is skipped. -/
def scan (source : String) : List Token :=
  match source.toList with
  | '\uFEFF' :: cs => scanFrom (Place.step {} '\uFEFF') false cs
  | cs => scanFrom {} false cs

/-! ## Reserved words -/

def keywords : List String :=
  ["break", "case", "chan", "const", "continue", "default", "defer", "else", "fallthrough",
   "for", "func", "go", "goto", "if", "import", "interface", "map", "package", "range",
   "return", "select", "struct", "switch", "type", "var"]

def isIdentifier (t : Token) : Bool := t.cls == .word && !keywords.contains t.text

/-- The token is the mark or keyword `s`. -/
def is (t : Token) (s : String) : Bool := (t.cls == .mark || t.cls == .word) && t.text == s

end Token
end RouteCheck
