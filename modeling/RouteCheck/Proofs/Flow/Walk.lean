import RouteCheck.Flow.Graph

/-!
Walks through a control-flow graph, and what is evaluated on them.

A walk goes from block to block along edges. Executing a block evaluates its items in order and
then its condition, if it has one; the edge taken says on which side. `Trace es b` is a walk
from the entry that ends by executing block `b`, with everything evaluated on it in order.

`Path n b i es` is the view that inductions need: the rest of a complete walk, from block `b`
with `i` items already evaluated over `n` more edges to the exit. `trace_exit_iff` ties the two.
-/

namespace RouteCheck

/-- What happens on a walk: a piece is evaluated, or a condition is and one side is taken. -/
inductive Event (α : Type) where
  | piece (a : α)
  | test (a : α) (side : Branch)
  deriving DecidableEq, Repr

namespace Event

def subject {α : Type} : Event α → α
  | piece a => a
  | test a _ => a

def evals {α : Type} (as : List α) : List (Event α) := as.map .piece

@[simp] theorem evals_nil {α : Type} : evals ([] : List α) = [] := rfl

@[simp] theorem evals_append {α : Type} (as bs : List α) :
    evals (as ++ bs) = evals as ++ evals bs := List.map_append ..

@[simp] theorem evals_singleton {α : Type} (a : α) : evals [a] = [.piece a] := rfl

end Event

namespace Graph

variable {α : Type}

/-- A block by its number; one that does not exist is empty. -/
def blockAt (g : Graph α) (b : Nat) : Block α := (g.block? b).getD {}

def items (g : Graph α) (b : Nat) : List α := (g.blockAt b).items

def cond (g : Graph α) (b : Nat) : Option α := (g.blockAt b).cond

/-- What is left to evaluate in block `b` after `i` items, when it is left on `side`. -/
def eventsFrom (g : Graph α) (b i : Nat) (side : Branch) : List (Event α) :=
  Event.evals ((g.items b).drop i) ++ (g.cond b).toList.map (.test · side)

/-- What executing block `b` evaluates when it is left on `side`. -/
def events (g : Graph α) (b : Nat) (side : Branch) : List (Event α) := g.eventsFrom b 0 side

/-- Blocks executed one after the other along edges, from the first block up to but without
the last one. -/
inductive Walk (g : Graph α) : Nat → List (Event α) → Nat → Prop
  | here (b : Nat) : Walk g b [] b
  | step {b c : Nat} {es : List (Event α)} {e : Edge} :
      e ∈ g.out b → Walk g e.target es c → Walk g b (g.events b e.branch ++ es) c

/-- A walk from the entry that ends by executing block `b`. -/
def Trace (g : Graph α) (es : List (Event α)) (b : Nat) : Prop :=
  ∃ before side, g.Walk entry before b ∧ es = before ++ g.events b side

/-- The rest of a walk to the exit: `n` edges from block `b`, whose first `i` items are already
evaluated. -/
inductive Path (g : Graph α) : Nat → Nat → Nat → List (Event α) → Prop
  | last (i : Nat) (side : Branch) : Path g 0 exit i (g.eventsFrom exit i side)
  | step {n b i : Nat} {es : List (Event α)} {e : Edge} :
      e ∈ g.out b → Path g n e.target 0 es → Path g (n + 1) b i (g.eventsFrom b i e.branch ++ es)

end Graph
end RouteCheck
