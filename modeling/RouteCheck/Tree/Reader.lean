import RouteCheck.Tree.Token

/-!
Reading tokens into nodes: the state of a reader and its elementary steps.

A `Read` consumes tokens from the front and either answers or fails, in which case an
alternative starts again from the same state. Two flags change how the next token is
taken: `breaks` says that a line break ends a statement here, `braces` that an opening
brace after a type name begins a composite literal.
-/

namespace RouteCheck.Reader

structure State where
  tokens : List Token
  /-- End of the last token consumed, as a byte offset. -/
  last : Nat := 0
  breaks : Bool := true
  braces : Bool := true
  deriving Inhabited

abbrev Read := StateT State Option

def openBrace : String := "\x7b"
def closeBrace : String := "\x7d"

def peek : Read (Option Token) := return (← get).tokens.head?

/-- The token after the next one, left in place. -/
def peekSecond : Read (Option Token) := return ((← get).tokens.drop 1).head?

/-- Consume the next token if it satisfies `p`. -/
def accept? (p : Token → Bool) : Read (Option Token) := do
  let s ← get
  match s.tokens with
  | [] => return none
  | t :: ts =>
    if p t then
      set { s with tokens := ts, last := t.span.stop }
      return some t
    else
      return none

/-- Consume the next token, which has to satisfy `p`. -/
def require (p : Token → Bool) : Read Token := do
  match ← accept? p with
  | some t => return t
  | none => failure

def expect (s : String) : Read Unit := discard (require (·.is s))

/-- Consume the mark or keyword `s` if it is next. -/
def skip? (s : String) : Read Bool := return (← accept? (·.is s)).isSome

/-- The next token is the mark or keyword `s`. -/
def nextIs (s : String) : Read Bool := return ((← peek).map (·.is s)).getD false

/-- A line break before the next token ends the statement. -/
def broken : Read Bool := do
  let s ← get
  return match s.tokens with
    | t :: _ => s.breaks && t.newlineBefore
    | [] => true

/-- The next token is `s` and goes on with the construct read so far. -/
def continues (s : String) : Read Bool := do
  if ← broken then return false
  nextIs s

/-- Nothing of the current statement follows: a separator, a closing brace or a line break. -/
def ended : Read Bool := do
  if ← broken then return true
  return (← nextIs ";") || (← nextIs closeBrace)

def within {α : Type} (breaks braces : Bool) (r : Read α) : Read α := do
  let s ← get
  set { s with breaks, braces }
  let a ← r
  modify fun t => { t with breaks := s.breaks, braces := s.braces }
  return a

/-- Inside parentheses and brackets line breaks do not count and literals are allowed. -/
def enclosed {α : Type} (r : Read α) : Read α := within false true r

/-- In the header of a control statement an opening brace begins the body. -/
def inHeader {α : Type} (r : Read α) : Read α := within true false r

def inBody {α : Type} (r : Read α) : Read α := within true true r

/-- The node of kind `kind` made of what `r` reads. -/
def node (kind : Kind) (r : Read (List Node)) : Read Node := do
  let some t ← peek | failure
  let children ← r
  return .mk { kind, span := { t.span with stop := (← get).last } } children

/-- A node of kind `kind` that begins where `first` does. -/
def nodeFrom (first : Node) (kind : Kind) (children : List Node) : Read Node :=
  return .mk { kind, span := { first.span with stop := (← get).last } } children

/-- The node of the single token that satisfies `p`. -/
def leaf (kind : Kind) (p : Token → Bool) : Read Node := do
  let t ← require p
  return .mk { kind, span := t.span, text := t.text } []

def bare (s : String) : Read Node := leaf .token (·.is s)

/-- Zero or more, as long as `more` holds; `fuel` bounds the number. -/
def many {α : Type} (more : Read Bool) (r : Read α) : Nat → Read (List α)
  | 0 => failure
  | fuel + 1 => do
    if ← more then
      let a ← r
      return a :: (← many more r fuel)
    else return []

/-- One or more, separated by the mark `sep`. -/
def sepBy {α : Type} (fuel : Nat) (sep : String) (r : Read α) : Read (List α) := do
  let a ← r
  return a :: (← many (do if ← continues sep then skip? sep else return false) r fuel)

/-- Items up to the closing mark, separated by commas; a comma may follow the last. -/
def listUntil {α : Type} (fuel : Nat) (close : String) (r : Read α) : Read (List α) := do
  many (return !(← nextIs close)) (do
    let a ← r
    if !(← skip? ",") && !(← nextIs close) then failure
    return a) fuel

/-- Items up to one of the closing marks, each ended by a line break or a semicolon. -/
def lines {α : Type} (fuel : Nat) (close : List String) (r : Read α) : Read (List α) := do
  let closed : Read Bool := do
    match ← peek with
    | none => return true
    | some t => return close.any t.is
  many (return !(← closed)) (do
    let a ← r
    if ← broken then return a
    if ← skip? ";" then return a
    if ← closed then return a
    failure) fuel

end RouteCheck.Reader

namespace RouteCheck.Node

/-- The node as a part in field `f`. -/
def under (f : Field) : Node → Node
  | mk h cs => mk { h with field := some f } cs

def as (k : Kind) : Node → Node
  | mk h cs => mk { h with kind := k } cs

end RouteCheck.Node
