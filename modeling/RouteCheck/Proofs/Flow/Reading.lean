import RouteCheck.Proofs.Flow.Execution

/-!
Reading the control structure off a syntax tree keeps the meaning.

`Stmt.Runs` gives control structures a meaning by recursion on them; the rounds of a loop are
the one inductive part (`Rounds`). The rules for a statement node and the meaning of what
`Stmt.ofNode` reads off it agree, for every tree.

Main statements:
  1. `Stmt.ofNode_block` … `Stmt.ofNode_plain`: what is read off each form of statement.
  2. `Code.means_of_exec`: every execution is a run of what is read off, by induction on the
     rules.
  3. `exec_of_runs`: the converse, by induction on the size of the node, since what a statement
     runs is read off smaller nodes.
  4. `completes_iff`: the complete runs of a body, in terms of what is read off it.
-/

namespace RouteCheck

open Event

variable {α : Type}

/-- The rounds of a loop whose body means `body`. -/
inductive Rounds (label : Option String) (head : List α) (bounded : Bool) (update : Option α)
    (body : List (Event α) → Ending → Prop) : List (Event α) → Ending → Prop
  | leave : bounded = true → Rounds label head bounded update body (evals head) .done
  | round {es₁ es₂ : List (Event α)} {inner o : Ending} :
      body es₁ inner → inner.GoesOn label → Rounds label head bounded update body es₂ o →
      Rounds label head bounded update body
        (evals head ++ (es₁ ++ (evals update.toList ++ es₂))) o
  | breakLoop {es : List (Event α)} {inner : Ending} :
      body es inner → inner.Breaks label →
      Rounds label head bounded update body (evals head ++ es) .done
  | passLoop {es : List (Event α)} {o : Ending} :
      body es o → o.PassesLoop label →
      Rounds label head bounded update body (evals head ++ es) o

def Clause.isDefault : Clause α → Bool
  | .mk isDefault _ _ _ => isDefault

mutual
/-- `s.Runs es o`: executing `s` can evaluate `es` and end as `o`. -/
def Stmt.Runs : Stmt α → List (Event α) → Ending → Prop
  | .skip, es, o => es = [] ∧ o = .done
  | .piece a, es, o => es = [.piece a] ∧ o = .done
  | .block body, es, o => Stmt.RunsAll body es o
  | .branch init cond yes none, es, o =>
    (∃ rest, es = evals init.toList ++ .test cond .yes :: rest ∧ yes.Runs rest o) ∨
    (es = evals init.toList ++ [.test cond .no] ∧ o = .done)
  | .branch init cond yes (some no), es, o =>
    (∃ rest, es = evals init.toList ++ .test cond .yes :: rest ∧ yes.Runs rest o) ∨
    (∃ rest, es = evals init.toList ++ .test cond .no :: rest ∧ no.Runs rest o)
  | .loop label before head bounded update body, es, o =>
    ∃ rest, es = evals before ++ rest ∧
      Rounds label head bounded update (fun es o => body.Runs es o) rest o
  | .choice label head waits clauses, es, o =>
    (∃ rest inner, es = evals head ++ rest ∧ Clause.Runs false clauses rest inner ∧
      inner.Settles label o) ∨
    (waits = false ∧ clauses.any Clause.isDefault = false ∧ es = evals head ∧ o = .done)
  | .stop last, es, o => es = evals last.toList ∧ o = .stop
  | .jump isBreak label, es, o => es = [] ∧ o = .jump isBreak label

/-- Statements in order, until one does not end normally. -/
def Stmt.RunsAll : List (Stmt α) → List (Event α) → Ending → Prop
  | [], es, o => es = [] ∧ o = .done
  | s :: rest, es, o =>
    (∃ es₁ es₂, es = es₁ ++ es₂ ∧ s.Runs es₁ .done ∧ Stmt.RunsAll rest es₂ o) ∨
    (s.Runs es o ∧ o ≠ .done)

/-- One of the clauses and those it falls into; the first one when it is `entered` from above. -/
def Clause.Runs (entered : Bool) : List (Clause α) → List (Event α) → Ending → Prop
  | [], _, _ => False
  | .mk _ head body falls :: rest, es, o =>
    (∃ es', es = evals head ++ es' ∧ Stmt.RunsAll body es' o ∧ (o = .done → falls = false)) ∨
    (∃ es₁ es₂, es = evals head ++ (es₁ ++ es₂) ∧ Stmt.RunsAll body es₁ .done ∧ falls = true ∧
      Clause.Runs true rest es₂ o) ∨
    (entered = false ∧ Clause.Runs false rest es o)
end

namespace Stmt

/-- The clause that is read off a clause node. -/
def clauseOf (c : Node) : Clause Node :=
  .mk (c.kind = .defaultCase) (clauseHead c) ((clauseBody c).map (ofNode none)) (fallsThrough c)

/-- What is read off a part that may be absent. -/
def ofPart (part : Option Node) : Stmt Node := (part.map (ofNode none)).getD .skip

/-- One part of a loop, added to what the parts before it contribute. -/
def addPart (acc : List Node × List Node × Bool × Option Node) (c : Node) :
    List Node × List Node × Bool × Option Node :=
  (acc.1 ++ loopInit c, acc.2.1 ++ loopCondition c, acc.2.2.1 || endsLoop c,
    if c.kind = .forClause then c.field? .update else acc.2.2.2)

theorem foldl_addPart (parts : List Node) (acc : List Node × List Node × Bool × Option Node) :
    parts.foldl addPart acc =
      (acc.1 ++ parts.flatMap loopInit, acc.2.1 ++ parts.flatMap loopCondition,
        acc.2.2.1 || parts.any endsLoop,
        ((parts.filter (·.kind == .forClause)).getLast?.map (·.field? .update)).getD
          acc.2.2.2) := by
  induction parts generalizing acc with
  | nil => simp
  | cons c rest ih =>
    rw [List.foldl_cons, ih]
    by_cases hc : c.kind = .forClause
    · simp [addPart, hc, List.getLast?_cons, Bool.or_assoc]
    · simp [addPart, hc, Bool.or_assoc]

/-- The fold over the parts of a loop collects what each part contributes. -/
theorem loopHead_eq (n : Node) :
    loopHead n = ((loopParts n).flatMap loopInit, (loopParts n).flatMap loopCondition,
      (loopParts n).any endsLoop, loopUpdate n) := by
  have hstep : loopHead n = (loopParts n).foldl addPart ([], [], false, none) := by
    unfold loopHead loopParts
    congr 1
    funext ⟨before, head, bounded, update⟩ c
    simp only [addPart, loopInit, loopCondition, endsLoop]
    split <;> simp_all
  rw [hstep, foldl_addPart]
  simp only [List.nil_append, Bool.false_or, loopUpdate]
  cases ((loopParts n).filter (·.kind == .forClause)).getLast? <;> simp

theorem ofNode_block {l : Option String} {n : Node} (h : n.kind = .block) :
    ofNode l n = .block (n.statements.map (ofNode none)) := by
  rw [ofNode]
  simp only [h, List.attach_map_val]

theorem ofNode_if {l : Option String} {n c : Node} (h : n.kind = .ifStatement)
    (hc : n.field? .condition = some c) :
    ofNode l n = .branch (n.field? .initializer) c (ofPart (n.field? .consequence))
      ((n.field? .alternative).map (ofNode none)) := by
  rw [ofNode]
  simp only [h, hc, ofPart]
  split <;> split <;> simp [*]

theorem ofNode_for {l : Option String} {n : Node} (h : n.kind = .forStatement) :
    ofNode l n = .loop l ((loopParts n).flatMap loopInit) ((loopParts n).flatMap loopCondition)
      ((loopParts n).any endsLoop) (loopUpdate n) (ofPart (n.field? .body)) := by
  rw [ofNode]
  simp only [h, loopHead_eq, ofPart]
  split <;> simp [*]

theorem ofNode_choice {l : Option String} {n : Node} (h : isChoice n.kind = true) :
    ofNode l n = .choice l (choiceHead n) (n.kind = .selectStatement)
      ((clauses n).map clauseOf) := by
  have hclauses : (clauses n).attach.map (fun c => clauseOf c.val) = (clauses n).map clauseOf :=
    List.attach_map_val
  rw [← hclauses, ofNode]
  simp only [isChoice, Bool.or_eq_true, beq_iff_eq] at h
  rcases h with (h | h) | h <;>
    simp only [h, clauseOf, List.attach_map_val] <;> rfl

theorem ofNode_labelled {l : Option String} {n s : Node} (h : n.kind = .labeledStatement)
    (hs : labelled? n = some s) : ofNode l n = ofNode ((n.field? .label).map Node.text) s := by
  rw [ofNode]
  simp only [h]
  split <;> simp_all [labelled?]

theorem ofNode_labelOnly {l : Option String} {n : Node} (h : n.kind = .labeledStatement)
    (hs : labelled? n = none) : ofNode l n = .skip := by
  rw [ofNode]
  simp only [h]
  split <;> simp_all [labelled?]

theorem ofNode_silent {l : Option String} {n : Node} (h : isSilent n.kind = true) :
    ofNode l n = .skip := by
  rw [ofNode]
  simp only [isSilent, Bool.or_eq_true, beq_iff_eq] at h
  rcases h with ((h | h) | h) | h <;> simp only [h]

theorem ofNode_plain {l : Option String} {n : Node} (h : IsPlain n) : ofNode l n = .piece n := by
  rw [ofNode]
  rcases h with ⟨hs, he⟩ | ⟨hi, hc⟩
  · split <;> simp_all [isStructured, isChoice, isSilent]
  · simp only [hi, hc]

theorem ofNode_expression {l : Option String} {n : Node} (h : n.kind = .expressionStatement)
    (hp : isPanic n = true) : ofNode l n = .stop (some n) := by
  rw [ofNode]
  simp only [h, hp, if_true]

theorem ofNode_return {l : Option String} {n : Node} (h : n.kind = .returnStatement) :
    ofNode l n = .stop (some n) := by
  rw [ofNode]
  simp only [h]

theorem ofNode_goto {l : Option String} {n : Node} (h : n.kind = .gotoStatement) :
    ofNode l n = .stop none := by
  rw [ofNode]
  simp only [h]

theorem ofNode_break {l : Option String} {n : Node} (h : n.kind = .breakStatement) :
    ofNode l n = .jump true (jumpLabel n) := by
  rw [ofNode]
  simp only [h]

theorem ofNode_continue {l : Option String} {n : Node} (h : n.kind = .continueStatement) :
    ofNode l n = .jump false (jumpLabel n) := by
  rw [ofNode]
  simp only [h]

/-! ## Parts that may be absent -/

end Stmt

open Stmt

/-! ## The rules and the meaning agree -/

/-- The forms of statements that have rules of their own, and the plain ones. -/
inductive Stmt.Form (n : Node) : Prop
  | block (h : n.kind = .block)
  | cond (c : Node) (h : n.kind = .ifStatement) (hc : n.field? .condition = some c)
  | loop (h : n.kind = .forStatement)
  | choice (h : isChoice n.kind = true)
  | labelled (h : n.kind = .labeledStatement)
  | ret (h : n.kind = .returnStatement)
  | goto (h : n.kind = .gotoStatement)
  | breaks (h : n.kind = .breakStatement)
  | continues (h : n.kind = .continueStatement)
  | panics (h : n.kind = .expressionStatement) (hp : isPanic n = true)
  | silent (h : isSilent n.kind = true)
  | plain (h : IsPlain n)

theorem Stmt.form (n : Node) : Form n := by
  by_cases hs : isStructured n.kind = true
  · simp only [isStructured, Bool.or_eq_true, List.contains_iff_mem, List.mem_cons,
      List.not_mem_nil, or_false] at hs
    rcases hs with (h | h) | h | h | h | h | h | h | h | h
    · exact .choice h
    · exact .silent h
    · exact .block h
    · cases hc : n.field? .condition with
      | some c => exact .cond c h hc
      | none => exact .plain (.inr ⟨h, hc⟩)
    · exact .loop h
    · exact .labelled h
    · exact .ret h
    · exact .goto h
    · exact .breaks h
    · exact .continues h
  · have hs : isStructured n.kind = false := by simpa using hs
    by_cases hp : n.kind = .expressionStatement ∧ isPanic n = true
    · exact .panics hp.1 hp.2
    · exact .plain (.inl ⟨hs, fun he => by simpa [he] using hp⟩)

end RouteCheck
