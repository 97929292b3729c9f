import RouteCheck.Toml.Value
import RouteCheck.Text.Basic

/-!
Reading TOML text, line by line.

A line is blank, the header of a table, or a key with a value. Line breaks are single line feeds
here; `Reader.fold` makes them so.
-/

namespace RouteCheck.Toml

abbrev Reader := StateT (List Char) Option

/-- A line that says something. -/
inductive Line where
  | header (path : List String) (isArray : Bool)
  | entry (key : List String) (value : Value)

namespace Reader

/-- Join every carriage return with the line feed after it. -/
def fold : List Char → List Char
  | '\r' :: '\n' :: cs => '\n' :: fold cs
  | c :: cs => c :: fold cs
  | [] => []

/-! ## Characters -/

def peek : Reader (Option Char) := return (← get).head?

def skip : Reader Unit := modify List.tail

def next : Reader Char := do
  match ← get with
  | [] => failure
  | c :: cs => do set cs; return c

def accept (c : Char) : Reader Bool := do
  if (← peek) = some c then do skip; return true
  else return false

def expect (c : Char) : Reader Unit := do
  if ← accept c then return else failure

def takeWhile (p : Char → Bool) : Reader (List Char) := do
  let cs ← get
  set (cs.dropWhile p)
  return cs.takeWhile p

def isBlank (c : Char) : Bool := c = ' ' || c = '\t'

def blanks : Reader Unit := discard (takeWhile isBlank)

def isWordChar (c : Char) : Bool := c.isAlphanum || c = '-' || c = '_'

/-- A bare word; there has to be one. -/
def word : Reader (List Char) := do
  let w ← takeWhile isWordChar
  if w.isEmpty then failure else return w

/-- The end of a line, or of the text. -/
def lineEnd : Reader Unit := do
  match ← peek with
  | none => return
  | some _ => expect '\n'

def isCommentChar (c : Char) : Bool := c = '\t' || 0x20 ≤ c.toNat

/-- A comment with the end of its line, if one is next. -/
def comment : Reader Bool := do
  if ← accept '#' then do
    let _ ← takeWhile isCommentChar
    lineEnd
    return true
  else return false

/-- What may follow on the line: blanks and a comment. -/
def restOfLine : Reader Unit := do
  blanks
  if !(← comment) then lineEnd

/-! ## Strings -/

/-- A character that strings may have as it is. -/
def isStringChar (c : Char) : Bool := c = '\t' || (0x20 ≤ c.toNat && c.toNat ≠ 0x7F)

/-- The character of an escape by code. -/
def codeEscape (count : Nat) : Reader Char := do
  let ds := (← get).take count
  set ((← get).drop count)
  if ds.length < count then failure
  else
    let code := (← (ds.mapM (Text.Integer.digit? 16) : Option (List Nat))).foldl
      (fun n d => n * 16 + d) 0
    if code.isValidChar then return Char.ofNat code else failure

/-- The characters that escapes of one letter stand for. -/
def letterEscapes : List (Char × Char) :=
  [('"', '"'), ('\\', '\\'), ('b', '\x08'), ('f', '\x0c'), ('n', '\n'), ('r', '\r'), ('t', '\t')]

/-- An escape after its backslash, in a string of several lines if `multi`; there a backslash at
the end of a line joins the text with what follows the white space. -/
def escape (multi : Bool) : Reader (List Char) := do
  let c ← next
  match letterEscapes.lookup c with
  | some x => return [x]
  | none =>
    if c = 'u' then return [← codeEscape 4]
    else if c = 'U' then return [← codeEscape 8]
    else if multi && (isBlank c || c = '\n') then
      if c ≠ '\n' then
        blanks
        if (← peek).isSome then expect '\n'
      let _ ← takeWhile fun x => isBlank x || x = '\n'
      return []
    else failure

/-- How many of at most `n` quotes are next; they are consumed. -/
def quotes (q : Char) : Nat → Reader Nat
  | 0 => return 0
  | n + 1 => do
    if ← accept q then return (← quotes q n) + 1 else return 0

/-- The characters of a string up to its closing quotes. -/
def stringChars (q : Char) (multi : Bool) : Nat → Reader (List Char)
  | 0 => failure
  | fuel + 1 => do
    let c ← next
    if c = q then
      if !multi then return []
      else
        let more ← quotes q 4
        if more ≥ 2 then return List.replicate (more - 2) q
        else return List.replicate (more + 1) q ++ (← stringChars q multi fuel)
    else if c = '\n' then
      if multi then return '\n' :: (← stringChars q multi fuel) else failure
    else if c = '\\' && q = '"' then
      let cs ← escape multi
      return cs ++ (← stringChars q multi fuel)
    else if isStringChar c then return c :: (← stringChars q multi fuel)
    else failure

/-- A string at its opening quote, and whether it may have several lines. -/
def string (q : Char) : Reader (String × Bool) := do
  expect q
  if ← accept q then
    if ← accept q then
      let _ ← accept '\n'
      return (String.ofList (← stringChars q true ((← get).length + 1)), true)
    else return ("", false)
  else return (String.ofList (← stringChars q false ((← get).length + 1)), false)

/-! ## Keys -/

def isQuote (c : Char) : Bool := c = '"' || c = '\''

/-- A bare or quoted key. -/
def key : Reader String := do
  match ← peek with
  | some c =>
    if isQuote c then
      let (s, multi) ← string c
      if multi then failure else return s
    else return String.ofList (← word)
  | none => failure

/-- Keys between dots. -/
def path : Nat → Reader (List String)
  | 0 => failure
  | fuel + 1 => do
    let k ← key
    blanks
    if ← accept '.' then
      blanks
      return k :: (← path fuel)
    else return [k]

def dottedKey : Reader (List String) := do path ((← get).length + 1)

/-! ## Numbers and dates -/

/-- The digits and the exponent of a float from its whole digits on. -/
def floatFrom (whole fraction rest : List Char) : Reader Value := do
  match rest with
  | [] => Number.float? whole fraction 0
  | e :: after =>
    if e ≠ 'e' && e ≠ 'E' then failure
    else
      let (negative, ds, rest) ← if after.isEmpty then do
          let _ ← accept '+'
          (Number.scan 10 true true false false (← word)).map (false, ·)
        else (Number.scanSigned 10 true after : Option (Bool × List Char × List Char))
      let n : Int := Number.ofDigits 10 ds
      if rest.isEmpty then Number.float? whole fraction (if negative then -n else n) else failure

def hasExponent (w : List Char) : Bool := w.contains 'e' || w.contains 'E'

def namedFloats : List String := ["inf", "-inf", "nan", "-nan"]

/-- A number that begins with the word `w`. -/
def number (w : List Char) : Reader Value := do
  match w with
  | '0' :: 'x' :: ds => Number.inRadix? 16 ds
  | '0' :: 'o' :: ds => Number.inRadix? 8 ds
  | '0' :: 'b' :: ds => Number.inRadix? 2 ds
  | _ =>
    if hasExponent w then
      let (_, whole, rest) ← (Number.scanSigned 10 false w : Option (Bool × List Char × List Char))
      floatFrom whole [] rest
    else if ← accept '.' then
      let (_, whole, rest) ← (Number.scanSigned 10 false w : Option (Bool × List Char × List Char))
      if !rest.isEmpty then failure
      else
        let (fraction, rest) ← Number.scan 10 true true false false (← word)
        floatFrom whole fraction rest
    else if namedFloats.contains (String.ofList w) then return .float
    else Number.decimal? w

/-- A space and a word, if they are next: the time after a date. -/
def timeAfterSpace : Reader Unit := do
  match ← get with
  | ' ' :: c :: _ => if isWordChar c then do skip; discard word
  | _ => return

/-- Minutes, seconds, a fraction and an offset, after the first colon of a time. -/
def clock : Reader Value := do
  let _ ← word
  expect ':'
  let _ ← word
  if ← accept '.' then discard word
  if ← accept '+' then discard word
  if ← accept ':' then discard word
  return .datetime

/-- The rest of a date or time whose first word has been read. -/
def datetime (afterColon : Bool) : Reader Value := do
  timeAfterSpace
  if afterColon then clock
  else if ← accept ':' then clock
  else return .datetime

def isDateWord (w : List Char) : Bool :=
  w.contains 'T' || w.contains 't' ||
  (w.tail.contains '-' && !(w.zip w.tail).any fun p => (p.1 = 'e' || p.1 = 'E') && p.2 = '-')

/-- The value of a bare word. -/
def wordValue (w : List Char) : Reader Value := do
  if w = "true".toList then return .boolean true
  else if w = "false".toList then return .boolean false
  else if w ≠ "inf".toList && w ≠ "nan".toList &&
      !(w.head?.any fun c => c = '-' || c.isDigit) then failure
  else if isDateWord w then datetime false
  else if ← accept ':' then datetime true
  else number w

/-! ## Values -/

/-- Add a value at a dotted key. A key before a dot has to be new, or to come from a dotted
key. -/
def addEntry (value : Value) : List String → List (String × Value) →
    Option (List (String × Value))
  | [], _ => none
  | [k], entries => some (entries ++ [(k, value)])
  | k :: ks, entries =>
    match entries.span (·.1 != k) with
    | (_, []) => (addEntry value ks []).map fun inner => entries ++ [(k, .dotted inner)]
    | (before, (_, .dotted inner) :: after) =>
      (addEntry value ks inner).map fun inner => before ++ (k, .dotted inner) :: after
    | _ => none

/-- White space, line breaks and comments between the items of an array. -/
def betweenItems : Nat → Reader Unit
  | 0 => return
  | fuel + 1 => do
    blanks
    if ← accept '\n' then betweenItems fuel
    else if ← comment then betweenItems fuel
    else return

/-- Items up to the closing bracket. -/
def arrayItems (value : Reader Value) : Nat → Reader (List Value)
  | 0 => failure
  | fuel + 1 => do
    betweenItems ((← get).length + 1)
    if ← accept ']' then return []
    let v ← value
    betweenItems ((← get).length + 1)
    if ← accept ',' then return v :: (← arrayItems value fuel)
    else do expect ']'; return [v]

/-- Entries of a table in braces up to the closing one, after those in `done`. -/
def tableEntries (value : Reader Value) (done : List (String × Value)) :
    Nat → Reader (List (String × Value))
  | 0 => failure
  | fuel + 1 => do
    let k ← dottedKey
    expect '='
    blanks
    let v ← value
    let done ← addEntry v k done
    blanks
    if ← accept '\x7d' then return done
    else
      expect ','
      blanks
      tableEntries value done fuel

/-- A value that nests at most `depth` deep. -/
def value : Nat → Reader Value
  | 0 => failure
  | depth + 1 => do
    match ← peek with
    | none => failure
    | some c =>
      if isQuote c then return .string (← string c).1
      else if c = '[' then
        skip
        return .array (← arrayItems (value depth) ((← get).length + 1))
      else if c = '\x7b' then
        skip
        blanks
        if ← accept '\x7d' then return .table []
        else return .table (← tableEntries (value depth) [] ((← get).length + 1))
      else if c = '+' then do skip; number (← word)
      else wordValue (← word)

/-! ## Lines -/

/-- A header at its opening bracket. -/
def header : Reader Line := do
  expect '['
  let isArray ← accept '['
  blanks
  let names ← dottedKey
  expect ']'
  if isArray then expect ']'
  restOfLine
  return .header names isArray

/-- A key with its value. -/
def entry : Reader Line := do
  let k ← dottedKey
  expect '='
  blanks
  let v ← value ((← get).length + 1)
  restOfLine
  return .entry k v

/-- The lines that are left. -/
def lines : Nat → Reader (List Line)
  | 0 => failure
  | fuel + 1 => do
    blanks
    if ← comment then lines fuel
    else match ← peek with
    | none => return []
    | some '\n' => do skip; lines fuel
    | some '[' => return (← header) :: (← lines fuel)
    | some _ => return (← entry) :: (← lines fuel)

end Reader

/-- The lines of a text; a byte order mark in front is skipped. -/
def readLines? (s : String) : Option (List Line) :=
  let cs := Reader.fold ((Text.dropLead? "\uFEFF" s).getD s).toList
  ((Reader.lines (cs.length + 1)).run cs).map (·.1)

end RouteCheck.Toml
