import RouteCheck.Proofs.Flow.Walk

/-!
Structured execution of function bodies.

`Exec` gives the statements of a syntax tree their meaning by rules, one for each way a
statement can go: what it evaluates, in order, and how it ends. It mentions no graph. A run of a
body is complete when it ends at the end of the body or of the function (`Completes`). A jump
whose target is missing, and a `fallthrough` out of the last clause, have no rule that goes on
from them, so they are in no complete run.
-/

namespace RouteCheck

open Event

/-- How a piece of code ends: normally, with the function, or by a jump to a target outside. -/
inductive Ending where
  | done
  | stop
  | jump (isBreak : Bool) (label : Option String)
  deriving DecidableEq, Repr

namespace Ending

/-- A jump that names `named` can mean the statement labelled `label`. -/
def Aims (label named : Option String) : Prop := named = none ∨ named = label

/-- After a loop body that ended so, the loop goes on with its update. -/
def GoesOn (label : Option String) (o : Ending) : Prop :=
  o = .done ∨ ∃ named, o = .jump false named ∧ Aims label named

/-- A loop or choice whose body ended so is left by a `break` of its own. -/
def Breaks (label : Option String) (o : Ending) : Prop :=
  ∃ named, o = .jump true named ∧ Aims label named

/-- A loop whose body ended so ends the same way. -/
def PassesLoop (label : Option String) (o : Ending) : Prop :=
  o = .stop ∨ ∃ isBreak named, o = .jump isBreak named ∧ ¬Aims label named

/-- A choice whose clause ended so ends the same way: it is no target of a bare `continue`. -/
def PassesChoice (label : Option String) (o : Ending) : Prop :=
  PassesLoop label o ∨ o = .jump false none

/-- How a choice ends whose clause ended as `inner`. -/
def Settles (label : Option String) (inner o : Ending) : Prop :=
  (o = .done ∧ (inner = .done ∨ inner.Breaks label)) ∨ (o = inner ∧ inner.PassesChoice label)

theorem loop_cases (label : Option String) (o : Ending) :
    o.GoesOn label ∨ o.Breaks label ∨ o.PassesLoop label := by
  cases o with
  | done => exact .inl (.inl rfl)
  | stop => exact .inr (.inr (.inl rfl))
  | jump isBreak named =>
    by_cases h : Aims label named
    · cases isBreak
      · exact .inl (.inr ⟨named, rfl, h⟩)
      · exact .inr (.inl ⟨named, rfl, h⟩)
    · exact .inr (.inr (.inr ⟨isBreak, named, rfl, h⟩))

end Ending

/-! ## Execution of syntax trees -/

namespace Stmt

/-- Parts of a `for` statement before its body: a clause, a range, a bare condition, or none. -/
def loopParts (loop : Node) : List Node := loop.named.filter (·.inField != some .body)

/-- What a part of a `for` evaluates once, before the rounds. -/
def loopInit (part : Node) : List Node :=
  match part.kind with
  | .forClause => (part.field? .initializer).toList
  | .rangeClause => [part]
  | _ => []

/-- What a part of a `for` evaluates before each round. -/
def loopCondition (part : Node) : List Node :=
  match part.kind with
  | .forClause => (part.field? .condition).toList
  | .rangeClause => []
  | _ => [part]

/-- The part lets the loop end before a round. -/
def endsLoop (part : Node) : Bool :=
  match part.kind with
  | .forClause => (part.field? .condition).isSome
  | _ => true

def loopUpdate (loop : Node) : Option Node :=
  ((loopParts loop).filter (·.kind == .forClause)).getLast?.bind (·.field? .update)

def isChoice (k : Kind) : Bool :=
  k == .expressionSwitchStatement || k == .typeSwitchStatement || k == .selectStatement

def clauses (n : Node) : List Node := n.named.filter (·.kind.isCase)

/-- What a switch or select evaluates before any clause. -/
def choiceHead (n : Node) : List Node := n.named.filter (!·.kind.isCase)

/-- The last statement of the clause is `fallthrough`. -/
def fallsThrough (clause : Node) : Bool :=
  (clauseBody clause).getLast?.any (·.kind == .fallthroughStatement)

/-- The statement behind the labels of a labelled one. -/
def labelled? (n : Node) : Option Node := (n.named.filter (·.kind != .labelName)).head?

def isSilent (k : Kind) : Bool :=
  k == .deferStatement || k == .goStatement || k == .emptyStatement || k == .fallthroughStatement

def isStructured (k : Kind) : Bool :=
  isChoice k || isSilent k || [.block, .ifStatement, .forStatement, .labeledStatement,
    .returnStatement, .gotoStatement, .breakStatement, .continueStatement].contains k

/-- The statement is evaluated as a whole: a simple statement or a declaration. -/
def IsPlain (n : Node) : Prop :=
  (isStructured n.kind = false ∧ (n.kind = .expressionStatement → isPanic n = false)) ∨
  (n.kind = .ifStatement ∧ n.field? .condition = none)

end Stmt

end RouteCheck
