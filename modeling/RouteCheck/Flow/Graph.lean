import RouteCheck.Flow.Stmt

/-!
Control-flow graphs of function bodies.

`Graph.ofBody` lays the statements of a body out into blocks of straight-line code. A block may
end in a condition; then it has one `yes` and one `no` edge, and otherwise its edges are all
`always`. After a jump the layout goes on in a fresh block that nothing leads to. Blocks and
edges are kept in the order of their creation: block 0 is the entry, block 1 the exit.
-/

namespace RouteCheck

/-- Whether an edge is taken unconditionally or on one side of its block's condition. -/
inductive Branch where
  | always | yes | no
  deriving DecidableEq, Repr, Inhabited

/-- Straight-line code, possibly ending in a condition. -/
structure Block (α : Type) where
  items : List α := []
  cond : Option α := none
  deriving Repr, Inhabited

structure Edge where
  source : Nat
  target : Nat
  branch : Branch
  deriving DecidableEq, Repr, Inhabited

structure Graph (α : Type) where
  blocks : List (Block α) := []
  edges : List Edge := []
  deriving Repr, Inhabited

/-- Where `break` and `continue` lead inside a loop, switch or select. -/
structure Target where
  label : Option String
  breakTo : Nat
  continueTo : Option Nat
  deriving Repr

namespace Graph

variable {α : Type}

def entry : Nat := 0
def exit : Nat := 1

/-! ## Elementary steps -/

/-- A new empty block; its number is the number of blocks before. -/
def fresh (g : Graph α) : Nat × Graph α :=
  (g.blocks.length, { g with blocks := g.blocks ++ [{}] })

/-- Add an edge that is taken on one side of a condition. -/
def edgeOn (branch : Branch) (g : Graph α) (source target : Nat) : Graph α :=
  { g with edges := g.edges ++ [⟨source, target, branch⟩] }

def edge (g : Graph α) (source target : Nat) : Graph α := g.edgeOn .always source target

def push (g : Graph α) (b : Nat) (a : α) : Graph α :=
  { g with blocks := g.blocks.modify b fun k => { k with items := k.items ++ [a] } }

def pushAll (g : Graph α) (b : Nat) (as : List α) : Graph α := as.foldl (push · b) g

def setCond (g : Graph α) (b : Nat) (a : α) : Graph α :=
  { g with blocks := g.blocks.modify b fun k => { k with cond := some a } }

/-- The target that a jump means: with a label the innermost one so labelled, without the
innermost one that allows the jump. -/
def jumpTo? (targets : List Target) (isBreak : Bool) (label : Option String) : Option Nat :=
  (targets.find? fun t => match label with
    | some l => t.label == some l
    | none => isBreak || t.continueTo.isSome).bind fun t =>
      if isBreak then some t.breakTo else t.continueTo

/-! ## Layout -/

mutual

/-- Lay a statement out from block `cur`; answers the block where the layout goes on. -/
def layout (targets : List Target) (cur : Nat) (g : Graph α) : Stmt α → Nat × Graph α
  | .skip => (cur, g)
  | .piece a => (cur, g.push cur a)
  | .block body => layoutAll targets cur g body
  | .branch init cond yes no =>
    let g := (g.pushAll cur init.toList).setCond cur cond
    let (join, g) := g.fresh
    let (yesStart, g) := g.fresh
    let (yesEnd, g) := layout targets yesStart (g.edgeOn .yes cur yesStart) yes
    let g := g.edge yesEnd join
    match no with
    | none => (join, g.edgeOn .no cur join)
    | some no =>
      let (noStart, g) := g.fresh
      let (noEnd, g) := layout targets noStart (g.edgeOn .no cur noStart) no
      (join, g.edge noEnd join)
  | .loop label before head bounded update body =>
    let (header, g) := g.fresh
    let (after, g) := g.fresh
    let (next, g) := g.fresh
    let g := ((g.pushAll cur before).pushAll header head).edge cur header
    let g := if bounded then g.edge header after else g
    let (start, g) := g.fresh
    let (last, g) := layout (⟨label, after, some next⟩ :: targets) start (g.edge header start) body
    (after, ((g.edge last next).pushAll next update.toList).edge next header)
  | .choice label head waits clauses =>
    let (after, g) := g.fresh
    let g := layoutClauses (⟨label, after, none⟩ :: targets) cur after none (g.pushAll cur head)
      clauses
    let hasDefault := clauses.any fun | .mk isDefault _ _ _ => isDefault
    (after, if !hasDefault && !waits then g.edge cur after else g)
  | .stop last => ((g.pushAll cur last.toList).edge cur exit).fresh
  | .jump isBreak label =>
    match jumpTo? targets isBreak label with
    | some target => (g.edge cur target).fresh
    | none => g.fresh

def layoutAll (targets : List Target) (cur : Nat) (g : Graph α) : List (Stmt α) → Nat × Graph α
  | [] => (cur, g)
  | s :: rest =>
    let (cur, g) := layout targets cur g s
    layoutAll targets cur g rest

/-- Lay clauses out between `cur` and `after`; `fallen` is the end of a clause that goes on with
the next one. -/
def layoutClauses (targets : List Target) (cur after : Nat) (fallen : Option Nat) (g : Graph α) :
    List (Clause α) → Graph α
  | [] => g
  | .mk _ head body falls :: rest =>
    let (start, g) := g.fresh
    let g := g.edge cur start
    let g := fallen.elim g fun p => g.edge p start
    let (last, g) := layoutAll targets start (g.pushAll start head) body
    if falls then layoutClauses targets cur after (some last) g rest
    else layoutClauses targets cur after none (g.edge last after) rest

end

/-- The graph of a function body. -/
def ofBody (body : List (Stmt α)) : Graph α :=
  let g : Graph α := { blocks := [{}, {}] }
  let (last, g) := layoutAll [] entry g body
  g.edge last exit

/-! ## The graph as a whole -/

def block? (g : Graph α) (b : Nat) : Option (Block α) := g.blocks[b]?

/-- Edges that leave a block, in order of creation. -/
def out (g : Graph α) (b : Nat) : List Edge := g.edges.filter (·.source == b)

/-- Everything that the blocks evaluate, block by block, conditions last. -/
def pieces (g : Graph α) : List α := g.blocks.flatMap fun b => b.items ++ b.cond.toList

end Graph
end RouteCheck
