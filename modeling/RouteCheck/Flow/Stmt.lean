import RouteCheck.Tree.Node

/-!
The control structure of a function body.

`Stmt` keeps of a statement what decides the order of evaluation: the simple pieces that are
evaluated, branches, loops, clauses and jumps. `Stmt.ofNode` reads it off the syntax tree, with
the pieces left as tree nodes.
-/

namespace RouteCheck

mutual
/-- A statement over evaluated pieces of type `α`. -/
inductive Stmt (α : Type) where
  /-- Nothing is evaluated here. -/
  | skip
  | piece (a : α)
  | block (body : List (Stmt α))
  | branch (init : Option α) (cond : α) (yes : Stmt α) (no : Option (Stmt α))
  /-- `before` is evaluated once, `head` before every round. A bounded loop can leave there. -/
  | loop (label : Option String) (before head : List α) (bounded : Bool) (update : Option α)
      (body : Stmt α)
  /-- One clause is taken. Without a default clause none need be, unless the statement
  `waits` for one. -/
  | choice (label : Option String) (head : List α) (waits : Bool) (clauses : List (Clause α))
  /-- The end of the function, after a last piece if there is one. -/
  | stop (last : Option α)
  | jump (isBreak : Bool) (label : Option String)
/-- A clause of a switch or select; `falls` when it goes on with the next one. -/
inductive Clause (α : Type) where
  | mk (isDefault : Bool) (head : List α) (body : List (Stmt α)) (falls : Bool)
end

instance {α : Type} : Inhabited (Stmt α) := ⟨.skip⟩

namespace Stmt

/-- The statement is a call of the plain name `panic`. -/
def isPanic (n : Node) : Bool :=
  match n.named.head? with
  | some call =>
    call.kind = .callExpression &&
    match call.field? .function with
    | some func => func.kind = .identifier && func.text = "panic"
    | none => false
  | none => false

/-- The child stands in the header of its clause. -/
def isClauseHead (n : Node) : Bool :=
  n.inField == some .value || n.inField == some .type || n.inField == some .communication

/-- Header of a clause: value, types (with the commas between them), communication. -/
def clauseHead (clause : Node) : List Node :=
  clause.fields .value ++ clause.fields .type ++ clause.fields .communication

def clauseBody (clause : Node) : List Node :=
  (clause.named.filter (!isClauseHead ·)).flatMap fun c =>
    if c.kind = .statementList then c.named else [c]

theorem size_lt_of_mem_statements {c n : Node} (h : c ∈ n.statements) : c.size < n.size := by
  obtain ⟨d, hd, hc⟩ := List.mem_flatMap.1 h
  have := Node.size_lt_of_mem_named hd
  split at hc
  · have := Node.size_lt_of_mem_named hc
    omega
  · simp only [List.mem_singleton] at hc
    subst hc
    assumption

theorem size_lt_of_mem_clauseBody {c n : Node} (h : c ∈ clauseBody n) : c.size < n.size := by
  obtain ⟨d, hd, hc⟩ := List.mem_flatMap.1 h
  have := Node.size_lt_of_mem_named (List.mem_filter.1 hd).1
  split at hc
  · have := Node.size_lt_of_mem_named hc
    omega
  · simp only [List.mem_singleton] at hc
    subst hc
    assumption

/-- What a loop evaluates before its rounds, and before each round. -/
def loopHead (loop : Node) : List Node × List Node × Bool × Option Node :=
  (loop.named.filter (·.inField != some .body)).foldl (fun (before, head, bounded, update) c =>
    match c.kind with
    | .forClause =>
      (before ++ (c.field? .initializer).toList, head ++ (c.field? .condition).toList,
        bounded || (c.field? .condition).isSome, c.field? .update)
    | .rangeClause => (before ++ [c], head, true, update)
    | _ => (before, head ++ [c], true, update)) ([], [], false, none)

/-- The text of the label that a jump names. -/
def jumpLabel (n : Node) : Option String := n.named.head?.map Node.text

/-- The control structure of a statement node, which `label` labels. -/
def ofNode (label : Option String) (n : Node) : Stmt Node :=
  match n.kind with
  | .block => .block (n.statements.attach.map fun ⟨c, _⟩ => ofNode none c)
  | .ifStatement =>
    match n.field? .condition with
    | none => .piece n
    | some cond =>
      let yes := match _h : n.field? .consequence with
        | some c => ofNode none c
        | none => .skip
      let no := match _h : n.field? .alternative with
        | some c => some (ofNode none c)
        | none => none
      .branch (n.field? .initializer) cond yes no
  | .forStatement =>
    let (before, head, bounded, update) := loopHead n
    let body := match _h : n.field? .body with
      | some c => ofNode none c
      | none => .skip
    .loop label before head bounded update body
  | .expressionSwitchStatement | .typeSwitchStatement | .selectStatement =>
    .choice label (n.named.filter (!·.kind.isCase)) (n.kind = .selectStatement)
      ((n.named.filter (·.kind.isCase)).attach.map fun ⟨c, _⟩ =>
        .mk (c.kind = .defaultCase) (clauseHead c)
          ((clauseBody c).attach.map fun ⟨s, _⟩ => ofNode none s)
          ((clauseBody c).getLast?.any (·.kind == .fallthroughStatement)))
  | .labeledStatement =>
    match _h : (n.named.filter (·.kind != .labelName)).head? with
    | some s => ofNode ((n.field? .label).map Node.text) s
    | none => .skip
  | .returnStatement => .stop (some n)
  | .gotoStatement => .stop none
  | .breakStatement => .jump true (jumpLabel n)
  | .continueStatement => .jump false (jumpLabel n)
  | .expressionStatement => if isPanic n then .stop (some n) else .piece n
  | .deferStatement | .goStatement | .emptyStatement | .fallthroughStatement => .skip
  | _ => .piece n
termination_by n.size
decreasing_by
  all_goals first
    | exact size_lt_of_mem_statements (by assumption)
    | exact Node.size_lt_of_field? _h
    | exact Node.size_lt_of_mem_named
        (List.mem_filter.1 (List.mem_of_mem_head? (by simpa using _h))).1
    | exact Nat.lt_trans (size_lt_of_mem_clauseBody (by assumption))
        (Node.size_lt_of_mem_named (List.mem_filter.1 (by assumption)).1)

def ofBody (body : Node) : List (Stmt Node) := body.statements.map (ofNode none)

end Stmt
end RouteCheck
