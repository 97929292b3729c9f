import RouteCheck.Json.Value
import RouteCheck.Text.Integer
import RouteCheck.Text.Quoted
import RouteCheck.Text.Utf8

/-!
Reading JSON.

A `Reader` consumes octets from a cursor that keeps count of lines and of octets in the line, so
that a fault is reported at a place. Only a string that is kept has to be UTF-8; that is seen at its
closing quote. `Reader.value` reads any value; `Reader.text`, `Reader.bounded` and their like read a
value of one kind and say what they found instead; `Reader.skipped` keeps nothing.
-/

namespace RouteCheck.Json

open Text (Octets)

/-- Why a text is not the JSON that was wanted. -/
inductive Fault where
  | eofInValue | eofInList | eofInObject | eofInString
  | noColon | noListComma | noObjectComma | noIdent | noValue
  | badEscape | badNumber | outOfRange | controlInString | keyNotString
  | loneSurrogate | cutSurrogate | badUnicode | trailingComma | trailingText | tooDeep
  /-- A value of another kind was found. -/
  | wrongKind (found wanted : String)
  /-- A value of the right kind was found that does not fit. -/
  | wrongValue (found wanted : String)
  deriving DecidableEq, Repr

def Fault.message : Fault → String
  | eofInValue => "EOF while parsing a value"
  | eofInList => "EOF while parsing a list"
  | eofInObject => "EOF while parsing an object"
  | eofInString => "EOF while parsing a string"
  | noColon => "expected `:`"
  | noListComma => "expected `,` or `]`"
  | noObjectComma => "expected `,` or `\x7d`"
  | noIdent => "expected ident"
  | noValue => "expected value"
  | badEscape => "invalid escape"
  | badNumber => "invalid number"
  | outOfRange => "number out of range"
  | controlInString => "control character (\\u0000-\\u001F) found while parsing a string"
  | keyNotString => "key must be a string"
  | loneSurrogate => "lone leading surrogate in hex escape"
  | cutSurrogate => "unexpected end of hex escape"
  | badUnicode => "invalid unicode code point"
  | trailingComma => "trailing comma"
  | trailingText => "trailing characters"
  | tooDeep => "recursion limit exceeded"
  | wrongKind found wanted => "invalid type: " ++ found ++ ", expected " ++ wanted
  | wrongValue found wanted => "invalid value: " ++ found ++ ", expected " ++ wanted

/-- Line from 1, octets of the line before the place. -/
structure Place where
  line : Nat := 1
  column : Nat := 0
  deriving DecidableEq, Repr

/-- An octet as the character of its number; those above ASCII are none that JSON is made of. -/
def letter (b : UInt8) : Char := Char.ofNat b.toNat

def Place.after (p : Place) (b : UInt8) : Place :=
  if letter b = '\n' then ⟨p.line + 1, 0⟩ else ⟨p.line, p.column + 1⟩

structure Error where
  fault : Fault
  place : Place
  deriving DecidableEq, Repr

def Error.message (e : Error) : String :=
  e.fault.message ++ " at line " ++ toString e.place.line ++ " column " ++ toString e.place.column

structure Cursor where
  rest : Octets
  place : Place := {}

def Cursor.drop (c : Cursor) (n : Nat) : Cursor :=
  ⟨c.rest.drop n, (c.rest.take n).foldl Place.after c.place⟩

abbrev Reader := StateT Cursor (Except Error)

namespace Reader

/-! ## Octets -/

def failHere {α : Type} (f : Fault) : Reader α := do throw ⟨f, (← get).place⟩

/-- Fail after the next octet, if there is one. -/
def failNext {α : Type} (f : Fault) : Reader α := do throw ⟨f, ((← get).drop 1).place⟩

def peek : Reader (Option Char) := return (← get).rest.head?.map letter

/-- The number of octets left, a bound for loops that consume. -/
def left : Reader Nat := return (← get).rest.length

def skip : Reader Unit := modify (·.drop 1)

def isBlank (c : Char) : Bool := c = ' ' || c = '\n' || c = '\t' || c = '\r'

/-- Skip octets as long as their letters have the property; answers how many. -/
def skipWhile (p : Char → Bool) : Reader Nat := do
  let n := ((← get).rest.takeWhile fun b => p (letter b)).length
  modify (·.drop n)
  return n

def peekToken : Reader (Option Char) := do
  discard (skipWhile isBlank)
  peek

/-- The letters of a word that has begun. -/
def ident : List Char → Reader Unit
  | [] => return
  | c :: cs => do
    match ← peek with
    | none => failHere .eofInValue
    | some x => if x = c then do skip; ident cs else failNext .noIdent

/-! ## Numbers -/

/-- Take digits as long as the significand stays below 2⁶⁴; answers it and how many. -/
def takeDigits (significand : Nat) : Octets → Nat × Nat
  | [] => (significand, 0)
  | b :: bs =>
    match Text.Integer.digit? 10 (letter b) with
    | some d =>
      if significand * 10 + d < Nat.pow 2 64 then
        let (s, n) := takeDigits (significand * 10 + d) bs
        (s, n + 1)
      else (significand, 0)
    | none => (significand, 0)

/-- Read digits into a significand; answers how many went in. -/
def digits (significand : Nat) : Reader (Nat × Nat) := do
  let (s, n) := takeDigits significand (← get).rest
  modify (·.drop n)
  return (s, n)

def skipDigits : Reader Nat := skipWhile Char.isDigit

def nextIsDigit : Reader Bool := return (← peek).any Char.isDigit

def nextIsExponent : Reader Bool := return (← peek).any fun c => c = 'e' || c = 'E'

/-- The float nearest to 10ⁿ. -/
def powerOfTen (n : Nat) : Float := .ofScientific 1 false n

/-- `f` times a power of ten, in steps of at most 10³⁰⁸; `none` if it is too large. -/
def scale (f : Float) (exponent : Int) : Nat → Option Float
  | 0 => some f
  | steps + 1 =>
    if exponent.natAbs ≤ 308 then
      if exponent ≥ 0 then
        let g := f * powerOfTen exponent.natAbs
        if g.isInf then none else some g
      else some (f / powerOfTen exponent.natAbs)
    else if f == 0.0 then some f
    else if exponent ≥ 0 then none
    else scale (f / powerOfTen 308) (exponent + 308) steps

/-- The float written by a significand and an exponent. -/
def ofParts (negative : Bool) (significand : Nat) (exponent : Int) : Reader Json :=
  match scale significand.toUInt64.toFloat exponent 4 with
  | none => failHere .outOfRange
  | some f => return .float (if negative then -f else f).toBits

/-- Digits of an exponent on top of `acc`; `none` if they exceed 31 bits, then the cursor stands
after the digit that made them. -/
def exponentDigits (acc : Nat) : Nat → Reader (Option Nat)
  | 0 => return some acc
  | fuel + 1 => do
    match (← peek).bind (Text.Integer.digit? 10) with
    | none => return some acc
    | some d =>
      skip
      if acc * 10 + d < Nat.pow 2 31 then exponentDigits (acc * 10 + d) fuel else return none

/-- The exponent after its letter, and the float. -/
def exponent (negative : Bool) (significand : Nat) (start : Int) : Reader Json := do
  skip
  let down := (← peek) = some '-'
  if down || (← peek) = some '+' then skip
  if (← peek).isNone then failHere .eofInValue
  else if !(← nextIsDigit) then failNext .badNumber
  else match ← exponentDigits 0 (← left) with
  | some e => ofParts negative significand (if down then start - e else start + e)
  | none =>
    if significand ≠ 0 && !down then failHere .outOfRange
    else
      let _ ← skipDigits
      ofParts negative 0 0

/-- The rest of a number after its fraction. -/
def afterFraction (negative : Bool) (significand : Nat) (start : Int) : Reader Json := do
  if ← nextIsExponent then exponent negative significand start
  else ofParts negative significand start

/-- The fraction at its point, and the float. -/
def fraction (negative : Bool) (significand : Nat) (start : Int) : Reader Json := do
  skip
  let (s, n) ← digits significand
  if ← nextIsDigit then
    let _ ← skipDigits
    afterFraction negative s (start - n)
  else if n > 0 then afterFraction negative s (start - n)
  else if (← peek).isNone then failHere .eofInValue
  else failNext .badNumber

/-- The rest of a number after its integer digits. -/
def afterInteger (negative : Bool) (significand : Nat) (dropped : Nat) : Reader Json := do
  if (← peek) = some '.' then fraction negative significand dropped
  else if ← nextIsExponent then exponent negative significand dropped
  else if dropped > 0 then ofParts negative significand dropped
  else if !negative then return .int significand
  else if 0 < significand && significand ≤ Nat.pow 2 63 then return .int (-significand)
  else ofParts true significand 0

/-- A number after its sign. -/
def unsigned (negative : Bool) : Reader Json := do
  match ← peek with
  | none => failHere .eofInValue
  | some '0' =>
    skip
    if ← nextIsDigit then failNext .badNumber else afterInteger negative 0 0
  | some c =>
    if c.isDigit then
      let (s, _) ← digits 0
      afterInteger negative s (← skipDigits)
    else failNext .badNumber

/-- A number: an integer of 64 bits, or a float. -/
def number : Reader Json := do
  if (← peek) = some '-' then do skip; unsigned true
  else unsigned false

/-! ## Strings -/

/-- Four hexadecimal digits. -/
def hexEscape : Reader Nat := do
  let c ← get
  set (c.drop 4)
  if c.rest.length < 4 then failHere .eofInString
  else match (c.rest.take 4).mapM fun b => Text.Integer.digit? 16 (letter b) with
  | some ds => return ds.foldl (fun n d => n * 16 + d) 0
  | none => failHere .badEscape

def surrogateMark (x : Char) : Reader Unit := do
  match ← peek with
  | none => failHere .eofInString
  | some c => if c = x then skip else failNext .cutSurrogate

/-- The character of an escape by code; a leading surrogate takes a second escape. -/
def unicodeEscape : Reader Char := do
  let n ← hexEscape
  if 0xDC00 ≤ n && n ≤ 0xDFFF then failHere .loneSurrogate
  else if n < 0xD800 || 0xDBFF < n then return Char.ofNat n
  else
    surrogateMark '\\'
    surrogateMark 'u'
    let m ← hexEscape
    if m < 0xDC00 || 0xDFFF < m then failHere .loneSurrogate
    else return Char.ofNat (0x10000 + (n - 0xD800) * 0x400 + (m - 0xDC00))

/-- The characters that escapes of one letter stand for. -/
def letterEscapes : List (Char × Char) :=
  [('"', '"'), ('\\', '\\'), ('/', '/'), ('b', '\x08'), ('f', '\x0c'), ('n', '\n'), ('r', '\r'),
   ('t', '\t')]

/-- An escape after its backslash. -/
def escaped : Reader Char := do
  match ← peek with
  | none => failHere .eofInString
  | some 'u' => do skip; unicodeEscape
  | some c =>
    match letterEscapes.lookup c with
    | some x => do skip; return x
    | none => failNext .badEscape

/-- The octets of a string up to its closing quote. -/
def stringOctets : Nat → Reader Octets
  | 0 => failHere .eofInString
  | fuel + 1 => do
    match (← get).rest.head? with
    | none => failHere .eofInString
    | some b =>
      if letter b = '"' then do skip; return []
      else if letter b = '\\' then
        skip
        let c ← escaped
        return String.utf8EncodeChar c ++ (← stringOctets fuel)
      else if b.toNat < 0x20 then failNext .controlInString
      else
        skip
        return b :: (← stringOctets fuel)

def string : Reader String := do
  skip
  match Text.Utf8.decode? (← stringOctets ((← left) + 1)) with
  | some s => return s
  | none => failHere .badUnicode

/-! ## Arrays and objects -/

/-- Items up to the closing bracket; `first` until there is one. -/
def items {α : Type} (item : Reader α) (first : Bool) : Nat → Reader (List α)
  | 0 => failHere .eofInList
  | fuel + 1 => do
    match ← peekToken with
    | none => failHere .eofInList
    | some ']' => do skip; return []
    | some c =>
      if first then return (← item) :: (← items item false fuel)
      else if c = ',' then
        skip
        match ← peekToken with
        | none => failHere .eofInValue
        | some ']' => failNext .trailingComma
        | some _ => return (← item) :: (← items item false fuel)
      else failNext .noListComma

def array {α : Type} (item : Reader α) : Reader (List α) := do
  skip
  items item true ((← left) + 1)

def member {α : Type} (value : Reader α) : Reader (String × α) := do
  let key ← string
  match ← peekToken with
  | none => failHere .eofInObject
  | some ':' => do skip; return (key, ← value)
  | some _ => failNext .noColon

/-- Members up to the closing brace; `first` until there is one. -/
def members {α : Type} (value : Reader α) (first : Bool) : Nat → Reader (List (String × α))
  | 0 => failHere .eofInObject
  | fuel + 1 => do
    match ← peekToken with
    | none => failHere .eofInObject
    | some '\x7d' => do skip; return []
    | some c =>
      if first then
        if c = '"' then return (← member value) :: (← members value false fuel)
        else failNext .keyNotString
      else if c = ',' then
        skip
        match ← peekToken with
        | none => failHere .eofInValue
        | some '"' => return (← member value) :: (← members value false fuel)
        | some '\x7d' => failNext .trailingComma
        | some _ => failNext .keyNotString
      else failNext .noObjectComma

def object {α : Type} (value : Reader α) : Reader (List (String × α)) := do
  skip
  members value true ((← left) + 1)

/-- A value in which arrays and objects nest at most `depth` deep. -/
def valueWithin (depth : Nat) : Reader Json := do
  match ← peekToken with
  | none => failHere .eofInValue
  | some 'n' => do skip; ident "ull".toList; return .null
  | some 't' => do skip; ident "rue".toList; return .bool true
  | some 'f' => do skip; ident "alse".toList; return .bool false
  | some '"' => return .str (← string)
  | some '[' =>
    match depth with
    | 0 => failNext .tooDeep
    | d + 1 => return .arr (← array (valueWithin d))
  | some '\x7b' =>
    match depth with
    | 0 => failNext .tooDeep
    | d + 1 => return .sorted (← object (valueWithin d))
  | some c => if c = '-' || c.isDigit then number else failNext .noValue

def maxDepth : Nat := 127

/-- Any value. -/
def value : Reader Json := valueWithin maxDepth

/-- The octets have to be what `r` reads, and no more than blanks after it. -/
def run {α : Type} (r : Reader α) (bs : Octets) : Except Error α :=
  let whole : Reader α := do
    let a ← r
    if (← peekToken).isSome then failNext .trailingText else return a
  (StateT.run whole ⟨bs, {}⟩).map (·.1)

/-! ## Values of one kind -/

/-- A value as messages name it. -/
def found : Json → String
  | .null => "null"
  | .bool b => "boolean `" ++ (if b then "true" else "false") ++ "`"
  | .int n => "integer `" ++ toString n ++ "`"
  | .float bits => "floating point `" ++ Text.Shortest.render bits ++ "`"
  | .str s => "string " ++ Text.quote s
  | .arr _ => "sequence"
  | .obj _ => "map"

/-- Fail on a value of the wrong kind: a scalar is read, of anything else only the first octet is
looked at. -/
def wrongKind {α : Type} (wanted : String) : Reader α := do
  match ← peek with
  | some '[' => failHere (.wrongKind (found (.arr [])) wanted)
  | some '\x7b' => failHere (.wrongKind (found (.obj [])) wanted)
  | _ =>
    let v ← valueWithin 0
    failHere (.wrongKind (found v) wanted)

/-- An integer that `fit` takes. -/
def integer {α : Type} (wanted : String) (fit : Int → Option α) : Reader α := do
  match ← peekToken with
  | none => failHere .eofInValue
  | some c =>
    if c = '-' || c.isDigit then
      match ← number with
      | .int n =>
        match fit n with
        | some a => return a
        | none => failHere (.wrongValue (found (.int n)) wanted)
      | v => failHere (.wrongKind (found v) wanted)
    else wrongKind wanted

/-- An integer between `lo` and `hi`; `wanted` names the range. -/
def bounded (wanted : String) (lo hi : Int) : Reader Int :=
  integer wanted fun n => if lo ≤ n && n ≤ hi then some n else none

def boolean : Reader Bool := do
  match ← peekToken with
  | none => failHere .eofInValue
  | some 't' => do skip; ident "rue".toList; return true
  | some 'f' => do skip; ident "alse".toList; return false
  | some _ => wrongKind "a boolean"

def text : Reader String := do
  match ← peekToken with
  | none => failHere .eofInValue
  | some '"' => string
  | some _ => wrongKind "a string"

def list {α : Type} (item : Reader α) : Reader (List α) := do
  match ← peekToken with
  | none => failHere .eofInValue
  | some '[' => array item
  | some _ => wrongKind "a sequence"

def optional {α : Type} (r : Reader α) : Reader (Option α) := do
  match ← peekToken with
  | some 'n' => do skip; ident "ull".toList; return none
  | _ => return some (← r)

def nothing : Reader Unit := do
  match ← peekToken with
  | none => failHere .eofInValue
  | some 'n' => do skip; ident "ull".toList
  | some _ => wrongKind "unit"

/-! ## Skipping -/

def skipExponent : Reader Unit := do
  skip
  if (← peek) = some '-' || (← peek) = some '+' then skip
  if ← nextIsDigit then discard skipDigits else failNext .badNumber

def skipFraction : Reader Unit := do
  skip
  if (← skipDigits) = 0 then failNext .badNumber
  else if ← nextIsExponent then skipExponent

/-- Skip a number after its sign, of any size. -/
def skipNumber : Reader Unit := do
  if (← peek) = some '0' then
    skip
    if ← nextIsDigit then failNext .badNumber
  else if (← skipDigits) = 0 then failNext .badNumber
  if (← peek) = some '.' then skipFraction
  else if ← nextIsExponent then skipExponent

/-- Skip to the closing quote. The octets need not be text, nor the codes of escapes characters. -/
def skipString : Nat → Reader Unit
  | 0 => failHere .eofInString
  | fuel + 1 => do
    match ← peek with
    | none => failHere .eofInString
    | some '"' => skip
    | some '\\' =>
      skip
      match ← peek with
      | none => failHere .eofInString
      | some 'u' => do skip; discard hexEscape
      | some c => if (letterEscapes.lookup c).isSome then skip else failNext .badEscape
      skipString fuel
    | some c => if c.toNat < 0x20 then failHere .controlInString else do skip; skipString fuel

/-- What values stand in. -/
inductive Frame where
  | list | object
  deriving DecidableEq

namespace Frame

def close : Frame → Char
  | list => ']'
  | object => '\x7d'

def eof : Frame → Fault
  | list => .eofInList
  | object => .eofInObject

def noComma : Frame → Fault
  | list => .noListComma
  | object => .noObjectComma

end Frame

/-- Skip a value, or only the bracket that opens one with parts. -/
def skipLead : Reader (Option Frame) := do
  match ← peekToken with
  | none => failHere .eofInValue
  | some 'n' => do skip; ident "ull".toList; return none
  | some 't' => do skip; ident "rue".toList; return none
  | some 'f' => do skip; ident "alse".toList; return none
  | some '-' => do skip; skipNumber; return none
  | some '"' => do skip; skipString ((← left) + 1); return none
  | some '[' => do skip; return some .list
  | some '\x7b' => do skip; return some .object
  | some c => if c.isDigit then do skipNumber; return none else failNext .noValue

/-- Skip the brackets that close after a value, or right after the one that opens, and the comma
that follows; answers what is still open. -/
def skipClosed (comma : Bool) : List Frame → Reader (List Frame)
  | [] => return []
  | f :: outer => do
    match ← peekToken with
    | none => failHere f.eof
    | some c =>
      if comma && c = ',' then do skip; return f :: outer
      else if c = f.close then do skip; skipClosed true outer
      else if comma then failNext f.noComma
      else return f :: outer

/-- Skip a key and its colon. -/
def skipKey : Reader Unit := do
  match ← peekToken with
  | none => failHere .eofInObject
  | some '"' => do skip; skipString ((← left) + 1)
  | some _ => failNext .keyNotString
  match ← peekToken with
  | none => failHere .eofInObject
  | some ':' => skip
  | some _ => failNext .noColon

/-- Skip values until nothing is open. -/
def skipFrames (frames : List Frame) : Nat → Reader Unit
  | 0 => failHere .eofInValue
  | fuel + 1 => do
    let open' ← match ← skipLead with
      | none => skipClosed true frames
      | some f => skipClosed false (f :: frames)
    match open' with
    | [] => return
    | f :: _ => do
      if f = .object then skipKey
      skipFrames open' fuel

/-- Any value, which is not kept; it may nest as deep as it likes. -/
def skipped : Reader Unit := do skipFrames [] ((← left) + 1)

end Reader

def read (s : String) : Except Error Json := Reader.value.run (Text.Utf8.encode s)

end RouteCheck.Json
