import RouteCheck.Check.Handler
import RouteCheck.Check.Diagnostic
import RouteCheck.Flow.Explore
import RouteCheck.Flow.Graph

/-!
Handlers that write more than one response.

The body's control-flow graph is walked with a `FlowState`: the last write on the walk so far,
and the variable that holds the result of a write not yet looked at. A write after a write is
reported. A write whose result is kept counts only once a condition has compared the result with
nil: on the side where it is not nil the error response has been written.
-/

namespace RouteCheck

abbrev Site := Nat × Nat

structure FlowState where
  /-- Last write on the walk. -/
  wrote : Option Site := none
  /-- Variable that holds the result of a write, and the site of the write. -/
  pending : Option (String × Site) := none
  deriving DecidableEq, Repr, Inhabited

/-- What the walk of one handler needs to know. -/
structure WriteCheck where
  typer : Typer
  library : String

namespace WriteCheck

variable (w : WriteCheck)

/-- The node is a call that writes a response. -/
def isWrite (n : Node) : Bool := (w.typer.contextCall? w.library n).any (·.op.isWrite)

/-- Writes under a node in source order, those in function literals left out. -/
def writes (n : Node) : List Node := (n.walk (·.kind != .funcLiteral)).filter w.isWrite

/-- The report of a write at `call` after an earlier write. -/
def repeated (call : Node) (s : FlowState) : List Diagnostic :=
  match s.wrote with
  | none => []
  | some (line, column) =>
    [⟨w.typer.file.position call, "handler writes multiple responses (previous write at " ++
      toString line ++ ":" ++ toString column ++ ")"⟩]

def record : List Node → FlowState → List Diagnostic × FlowState
  | [], s => ([], s)
  | call :: rest, s =>
    let (notes, last) := record rest { s with wrote := some call.site }
    (w.repeated call s ++ notes, last)

/-- The variable and write of an assignment that keeps the result of a single write. -/
def keptWrite? (names values : List Node) : Option (String × Node) :=
  match names, values with
  | [name], [value] =>
    if name.kind = .identifier && name.text != "_" && w.isWrite value.unparen then
      some (name.text, value.unparen)
    else none
  | _, _ => none

/-- Execute an assignment or short declaration. -/
def assign (left right : Node) (s : FlowState) : List Diagnostic × FlowState :=
  let names := left.expressions
  match w.keptWrite? names right.expressions with
  | some (var, call) => (w.repeated call s, { s with pending := some (var, call.site) })
  | none =>
    let (notes, s) := w.record (w.writes right) s
    let overwritten := s.pending.any fun (var, _) => names.any (·.text == var)
    (notes, if overwritten then { s with pending := none } else s)

def item (n : Node) (s : FlowState) : List Diagnostic × FlowState :=
  if n.kind = .shortVarDeclaration || n.kind = .assignmentStatement then
    match n.field? .left, n.field? .right with
    | some left, some right => w.assign left right s
    | _, _ => ([], s)
  else w.record (w.writes n) s

def items : List Node → FlowState → List Diagnostic × FlowState
  | [], s => ([], s)
  | n :: rest, s =>
    let (notes, s) := w.item n s
    let (more, s) := items rest s
    (notes ++ more, s)

/-! ## Conditions -/

def connective? (n : Node) : Option String :=
  if n.kind = .binaryExpression then
    ((n.field? .operator).map Node.text).filter fun op => op == "&&" || op == "||"
  else none

/-- Connectives and leaves of a condition, parentheses stripped, in source order. -/
def flatten (cond : Node) : List String × List Node :=
  match connective? cond.unparen, _hl : cond.unparen.field? .left,
    _hr : cond.unparen.field? .right with
  | some op, some l, some r =>
    let (ops₁, leaves₁) := flatten l
    let (ops₂, leaves₂) := flatten r
    (op :: ops₁ ++ ops₂, leaves₁ ++ leaves₂)
  | _, _, _ => ([], [cond.unparen])
termination_by cond.size
decreasing_by
  · have := Node.size_lt_of_field? _hl
    have := Node.size_unparen_le cond
    omega
  · have := Node.size_lt_of_field? _hr
    have := Node.size_unparen_le cond
    omega

/-- A comparison of a write's result with nil. -/
structure NilCheck where
  equal : Bool
  site : Site
  deriving DecidableEq, Repr

/-- The operand that a leaf compares with nil, and whether for equality. -/
def nilSubject? (leaf : Node) : Option (Bool × Node) :=
  if leaf.kind = .binaryExpression then do
    let op ← leaf.field? .operator
    let equal ← if op.text = "==" then some true else if op.text = "!=" then some false else none
    let l := (← leaf.field? .left).unparen
    let r := (← leaf.field? .right).unparen
    if r.kind = .nilLiteral then return (equal, l)
    else if l.kind = .nilLiteral then return (equal, r)
    else none
  else none

/-- The nil check that a leaf makes in state `s`, if it makes one. -/
def nilCheck? (leaf : Node) (s : FlowState) : Option NilCheck := do
  let (equal, subject) ← nilSubject? leaf
  if w.isWrite subject then return ⟨equal, subject.site⟩
  else
    let (var, site) ← s.pending
    if subject.kind = .identifier && subject.text == var then return ⟨equal, site⟩ else none

/-- Reports of a leaf that is a nil check: a write in it may follow another. -/
def nilCheckNotes (leaf : Node) (s : FlowState) : List Diagnostic :=
  match nilSubject? leaf with
  | some (_, subject) => if w.isWrite subject then w.repeated subject s else []
  | none => []

/-- What executing the leaves of a condition gives. -/
structure Leaves where
  notes : List Diagnostic := []
  checks : List NilCheck := []
  /-- Some leaf is no nil check. -/
  others : Bool := false
  state : FlowState

/-- Execute leaves in order. -/
def leaves : List Node → FlowState → Leaves
  | [], s => { state := s }
  | leaf :: rest, s =>
    match w.nilCheck? leaf s with
    | some c =>
      let r := leaves rest s
      { r with notes := w.nilCheckNotes leaf s ++ r.notes, checks := c :: r.checks }
    | none =>
      let (notes, s) := w.record (w.writes leaf) s
      let r := leaves rest s
      { r with notes := notes ++ r.notes, others := true }

/-- States on the yes and no side of a condition. -/
def branch (cond : Node) (s : FlowState) : List Diagnostic × FlowState × FlowState :=
  let (ops, parts) := flatten cond
  let r := w.leaves parts s
  match r.checks with
  | [] => (r.notes, r.state, r.state)
  | first :: _ =>
    let passed : FlowState := { r.state with pending := none }
    let failed : FlowState := { wrote := some first.site }
    if !r.others && r.checks.all (·.equal) && ops.all (· == "&&") then
      (r.notes, passed, failed)
    else if !r.others && r.checks.all (!·.equal) && ops.all (· == "||") then
      (r.notes, failed, passed)
    else
      (r.notes ++ [⟨w.typer.file.position cond,
        "weird condition; stick to a single conjunction/disjunction form"⟩], passed, passed)

/-! ## Walks -/

/-- Execute a block: reports, and the states after its items and on the sides of its
condition. -/
def block (b : Block Node) (s : FlowState) :
    List Diagnostic × FlowState × FlowState × FlowState :=
  let (notes, s) := w.items b.items s
  match b.cond with
  | none => (notes, s, s, s)
  | some cond =>
    let (more, yes, no) := w.branch cond s
    (notes ++ more, s, yes, no)

/-- A block about to be executed in a state. -/
abbrev Point := Nat × FlowState

/-- Reports of executing a block in a state. -/
def notes (g : Graph Node) (p : Point) : List Diagnostic :=
  match g.block? p.1 with
  | some b => (w.block b p.2).1
  | none => []

/-- What follows the execution of a block in a state. -/
def next (g : Graph Node) (p : Point) : List Point :=
  match g.block? p.1 with
  | none => []
  | some b =>
    let (_, always, yes, no) := w.block b p.2
    (g.out p.1).map fun e => (e.target, match e.branch with
      | .always => always
      | .yes => yes
      | .no => no)

/-- How many nodes the pieces of the graph have. -/
def nodeCount (g : Graph Node) : Nat := Node.sizes g.pieces

/-- How many points can be queued: at each end of an edge, every last write and every kept
result. Both come from nodes of the pieces. -/
def bound (g : Graph Node) : Nat :=
  let n := nodeCount g + 1
  (g.edges.length + 1) * (n * n) + 1

/-- The points on walks from the entry. -/
def explored (g : Graph Node) : List Point :=
  explore (w.next g) (bound g) [(Graph.entry, {})] []

end WriteCheck

def Handler.graph (h : Handler) : Graph Node := .ofBody (Stmt.ofBody h.body)

/-- Paths through a handler that write two responses, and conditions on write results that are
neither a conjunction nor a disjunction. -/
def checkHandler (index : Index) (library : String) (h : Handler) : List Diagnostic :=
  let w : WriteCheck := ⟨h.typer index, library⟩
  (w.explored h.graph).flatMap (w.notes h.graph)

end RouteCheck
