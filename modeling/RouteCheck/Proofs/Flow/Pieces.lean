import RouteCheck.Proofs.Flow.Steps
import RouteCheck.Proofs.Program.Parsed
import RouteCheck.Proofs.Tree.Apart

/-!
What the graph of a body evaluates.

`StatementIn` lists the statements of a body at every depth, and `Evaluates` what a statement
evaluates itself, as opposed to the statements inside it. Function literals, and what `defer` and
`go` call, are no part of either.

Main statements:
  1. `Stmt.spread_ofNode`: the pieces that are read off a statement lie apart, by induction on its
     size.
  2. `Stmt.mem_pieces_of_evaluates`: what a statement evaluates itself is among them.
  3. `pieces_evaluated_once`: the blocks of the graph of a body hold no node twice, and each
     node that a statement of the body evaluates once.
-/

namespace RouteCheck

open Node

namespace Stmt

/-! ## Statements and what they evaluate -/

/-- The statement `s` stands directly in the statement `n`. -/
inductive Encloses (n : Node) : Node → Prop
  | block {s : Node} : n.kind = .block → s ∈ n.statements → Encloses n s
  | yes {s : Node} : n.kind = .ifStatement → n.field? .consequence = some s → Encloses n s
  | no {s : Node} : n.kind = .ifStatement → n.field? .alternative = some s → Encloses n s
  | loop {s : Node} : n.kind = .forStatement → n.field? .body = some s → Encloses n s
  | clause {c s : Node} : isChoice n.kind = true → c ∈ clauses n → s ∈ clauseBody c → Encloses n s
  | labelled {s : Node} : n.kind = .labeledStatement → labelled? n = some s → Encloses n s

/-- A statement of a body, at whatever depth. -/
inductive StatementIn (body : Node) : Node → Prop
  | top {s : Node} : s ∈ body.statements → StatementIn body s
  | inner {n s : Node} : StatementIn body n → Encloses n s → StatementIn body s

/-- Simple statements that are not empty, declarations and returns. -/
def isWhole (k : Kind) : Bool :=
  [.expressionStatement, .sendStatement, .incStatement, .decStatement, .assignmentStatement,
    .shortVarDeclaration, .varDeclaration, .constDeclaration, .typeDeclaration,
    .returnStatement].contains k

/-- The statement `n` itself evaluates `m`, which is no part of a statement inside it. -/
inductive Evaluates (n : Node) : Node → Prop
  | whole : isWhole n.kind = true → Evaluates n n
  | ifInitializer {m : Node} : n.kind = .ifStatement → n.field? .initializer = some m →
      Evaluates n m
  | ifCondition {m : Node} : n.kind = .ifStatement → n.field? .condition = some m → Evaluates n m
  | forInitializer {c m : Node} : n.kind = .forStatement → c ∈ n.named → c.inField ≠ some .body →
      c.kind = .forClause → c.field? .initializer = some m → Evaluates n m
  | forCondition {c m : Node} : n.kind = .forStatement → c ∈ n.named → c.inField ≠ some .body →
      c.kind = .forClause → c.field? .condition = some m → Evaluates n m
  | forUpdate {c m : Node} : n.kind = .forStatement → c ∈ n.named → c.inField ≠ some .body →
      c.kind = .forClause → c.field? .update = some m → Evaluates n m
  /-- A range clause, or a condition that stands alone. -/
  | forHeader {m : Node} : n.kind = .forStatement → m ∈ n.named → m.inField ≠ some .body →
      m.kind ≠ .forClause → Evaluates n m
  /-- The initializer of a switch, its value, and the name that a type switch gives it. -/
  | choiceHeader {m : Node} : isChoice n.kind = true → m ∈ n.named → m.kind.isCase = false →
      Evaluates n m
  /-- An expression, a type or the communication of a clause. -/
  | clauseHeader {c m : Node} {f : Field} : isChoice n.kind = true → c ∈ n.named →
      c.kind.isCase = true → f ∈ [.value, .type, .communication] → m ∈ c.fields f →
      Evaluates n m

/-! ## The pieces of each form of statement -/

section
variable {l : Option String} {n c s m : Node} {ns : List Node}

theorem piecesAll_map (f : Node → Stmt Node) :
    piecesAll (ns.map f) = ns.flatMap fun s => (f s).pieces := by
  induction ns with
  | nil => rfl
  | cons s ns ih => rw [List.map_cons, piecesAll, ih, List.flatMap_cons]

theorem piecesClauses_map : piecesClauses (ns.map clauseOf) =
    ns.flatMap fun c => clauseHead c ++ (clauseBody c).flatMap fun s => (ofNode none s).pieces := by
  induction ns with
  | nil => rfl
  | cons c ns ih =>
    rw [List.map_cons, clauseOf, piecesClauses, ih, List.flatMap_cons, piecesAll_map]

theorem pieces_ofPart (part : Option Node) :
    (ofPart part).pieces = part.toList.flatMap fun s => (ofNode none s).pieces := by
  cases part with
  | none => rfl
  | some s => exact (List.flatMap_singleton ..).symm

theorem pieces_block (h : n.kind = .block) :
    (ofNode l n).pieces = n.statements.flatMap fun s => (ofNode none s).pieces := by
  rw [ofNode_block h, pieces, piecesAll_map]

theorem pieces_if (h : n.kind = .ifStatement) (hc : n.field? .condition = some c) :
    (ofNode l n).pieces = (n.field? .initializer).toList ++ (n.field? .condition).toList ++
      ((n.field? .consequence).toList.flatMap fun s => (ofNode none s).pieces) ++
      (n.field? .alternative).toList.flatMap fun s => (ofNode none s).pieces := by
  rw [ofNode_if h hc, hc, ← pieces_ofPart, ← pieces_ofPart]
  cases n.field? .alternative with
  | none => simp [pieces, ofPart]
  | some a => rfl

theorem pieces_for (h : n.kind = .forStatement) :
    (ofNode l n).pieces = (loopParts n).flatMap loopInit ++ (loopParts n).flatMap loopCondition ++
      ((n.field? .body).toList.flatMap fun s => (ofNode none s).pieces) ++
      (loopUpdate n).toList := by
  rw [ofNode_for h, pieces, pieces_ofPart]

theorem pieces_choice (h : isChoice n.kind = true) :
    (ofNode l n).pieces = choiceHead n ++ (clauses n).flatMap fun c =>
      clauseHead c ++ (clauseBody c).flatMap fun s => (ofNode none s).pieces := by
  rw [ofNode_choice h, pieces, piecesClauses_map]

/-- Labels make no difference to what is evaluated. -/
theorem pieces_label (l' : Option String) : (ofNode l n).pieces = (ofNode l' n).pieces := by
  cases form n with
  | block h => rw [pieces_block h, pieces_block h]
  | cond c h hc => rw [pieces_if h hc, pieces_if h hc]
  | loop h => rw [pieces_for h, pieces_for h]
  | choice h => rw [pieces_choice h, pieces_choice h]
  | labelled h =>
    cases hs : labelled? n with
    | none => rw [ofNode_labelOnly h hs, ofNode_labelOnly h hs]
    | some s => rw [ofNode_labelled h hs, ofNode_labelled h hs]
  | ret h => rw [ofNode_return h, ofNode_return h]
  | goto h => rw [ofNode_goto h, ofNode_goto h]
  | breaks h => rw [ofNode_break h, ofNode_break h]
  | continues h => rw [ofNode_continue h, ofNode_continue h]
  | panics h hp => rw [ofNode_expression h hp, ofNode_expression h hp]
  | silent h => rw [ofNode_silent h, ofNode_silent h]
  | plain h => rw [ofNode_plain h, ofNode_plain h]

end

/-! ## Pieces lie apart -/

/-- The one part of a loop before its body. -/
def loopPieces (part : Node) : List Node :=
  loopInit part ++ loopCondition part ++
    if part.kind = .forClause then (part.field? .update).toList else []

section
variable {n c : Node} {take : Node → List Node} {P : Node → Prop}

theorem spread_loopPieces {part : Node} (hpart : part.Placed) : Spread part (loopPieces part) := by
  unfold loopPieces loopInit loopCondition
  split
  · next hkind =>
    rw [if_pos hkind]
    exact Parts.spread (by simp [hkind]) (.append_fields hpart (.append_fields hpart
      (.field?_self hpart _) (.field?_self hpart _) (by decide)) (.field?_self hpart _) (by decide))
  · next hkind =>
    rw [if_neg (by simp [hkind])]
    exact spread_self
  · next hclause hrange =>
    rw [if_neg hclause]
    exact spread_self

/-- Statements are taken from a block or clause with the list that holds them taken apart. -/
theorem parts_flatten (hn : n.Placed) {cs : List Node} (hcs : cs.Sublist n.children)
    (hP : ∀ c ∈ cs, P c)
    (h : ∀ s ∈ cs.flatMap fun c => if c.kind = .statementList then c.named else [c],
      Spread s (take s)) :
    Parts n P ((cs.flatMap fun c => if c.kind = .statementList then c.named else [c]).flatMap
      take) := by
  rw [List.flatMap_assoc]
  refine .flatMap hn hcs hP fun c hc => ?_
  have hc' (s : Node) (hs : s ∈ if c.kind = .statementList then c.named else [c]) :
      Spread s (take s) := h s (List.mem_flatMap.2 ⟨c, hc, hs⟩)
  split at hc'
  · next hkind =>
    rw [if_pos hkind]
    refine Parts.spread (P := fun _ => True) (by simp [hkind]) ?_
    exact .flatMap (hn.child (hcs.subset hc)).2.2 List.filter_sublist (fun _ _ => trivial) hc'
  · next hkind =>
    rw [if_neg hkind, List.flatMap_singleton]
    exact hc' c (List.mem_singleton_self c)

/-- A loop with at most one part before its body evaluates what is in it and what the body does. -/
theorem perm_pieces_for (h : n.kind = .forStatement) (hheader : (loopParts n).length ≤ 1)
    (l : Option String) : ((loopParts n).flatMap loopPieces ++
      (n.field? .body).toList.flatMap fun s => (ofNode none s).pieces).Perm
        (ofNode l n).pieces := by
  rw [pieces_for h]
  match hparts : loopParts n, hheader with
  | [], _ => simp [loopUpdate, hparts]
  | [part], _ =>
    have hupdate : (loopUpdate n).toList =
        if part.kind = .forClause then (part.field? .update).toList else [] := by
      rw [loopUpdate, hparts]
      by_cases hkind : part.kind = .forClause <;> simp [hkind]
    simp only [List.flatMap_singleton, loopPieces, hupdate, List.append_assoc]
    exact (List.perm_append_comm.append_left _).append_left _

/-- What a loop evaluates before, in and after its rounds comes from different parts of it. -/
theorem spread_loop (hn : n.Placed) (hformed : n.Formed) (h : n.kind = .forStatement)
    (l : Option String) (hbody : ∀ s, n.field? .body = some s → Spread s (ofNode none s).pieces) :
    Spread n (ofNode l n).pieces := by
  refine Spread.perm ?_ (perm_pieces_for h (hformed.header h) l)
  refine Parts.spread (by simp [h]) (.append hn (P := (·.inField ≠ some .body))
    (.flatMap hn (List.filter_sublist.trans List.filter_sublist) (fun c hc => ?_) fun c hc => ?_)
    (.field? hn hbody) ?_)
  · simpa using (List.mem_filter.1 hc).2
  · have hnamed : c ∈ n.named := (List.mem_filter.1 hc).1
    exact spread_loopPieces (hn.child (mem_children_of_mem_named hnamed)).2.2
  · rintro c hout ⟨f, hf, hfield⟩
    exact hout (List.mem_singleton.1 hf ▸ hfield)

theorem spread_clause {c : Node} (hc : c.Placed) (hcase : c.kind.isCase = true)
    (h : ∀ s ∈ clauseBody c, Spread s (take s)) :
    Spread c (clauseHead c ++ (clauseBody c).flatMap take) := by
  refine Parts.spread (by rintro hkind; simp [hkind, Kind.isCase] at hcase)
    (.append hc (P := (isClauseHead · = true)) (Q := (isClauseHead · = false)) ?_ ?_ ?_)
  · refine (Parts.append_fields hc (.append_fields hc (.fields hc _) (.fields hc _) (by decide))
      (.fields hc _) (by decide)).mono fun d ⟨f, hf, hfield⟩ => ?_
    simp only [List.cons_append, List.nil_append, List.mem_cons, List.not_mem_nil, or_false] at hf
    rcases hf with rfl | rfl | rfl <;> simp [isClauseHead, hfield]
  · refine parts_flatten hc (List.filter_sublist.trans List.filter_sublist) (fun d hd => ?_) h
    simpa using (List.mem_filter.1 hd).2
  · simp

theorem mem_all_of_mem_flatten {s d : Node} (hd : d ∈ n.all)
    (hs : s ∈ if d.kind = .statementList then d.named else [d]) : s ∈ n.all := by
  split at hs
  · exact mem_all_trans (mem_all_of_mem_named hs) hd
  · exact List.mem_singleton.1 hs ▸ hd

theorem mem_all_of_mem_statements {s : Node} (h : s ∈ n.statements) : s ∈ n.all := by
  obtain ⟨d, hd, hs⟩ := List.mem_flatMap.1 h
  exact mem_all_of_mem_flatten (mem_all_of_mem_named hd) hs

theorem mem_all_of_mem_clauseBody {s : Node} (h : s ∈ clauseBody n) : s ∈ n.all := by
  obtain ⟨d, hd, hs⟩ := List.mem_flatMap.1 h
  exact mem_all_of_mem_flatten (mem_all_of_mem_named (List.mem_filter.1 hd).1) hs

end

/-- The pieces read off a statement lie apart in it, and in no function literal. -/
theorem spread_ofNode {n : Node} (hn : n.Placed) (hformed : ∀ m ∈ n.all, m.Formed)
    (l : Option String) : Spread n (ofNode l n).pieces := by
  have hinner (s : Node) (hs : s ∈ n.all) (hsize : s.size < n.size) :
      Spread s (ofNode none s).pieces :=
    spread_ofNode (hn.within hs).2.2 (fun m hm => hformed m (mem_all_trans hm hs)) none
  have hfield (f : Field) (s : Node) (hs : n.field? f = some s) :
      Spread s (ofNode none s).pieces :=
    hinner s (mem_all_of_field? hs) (size_lt_of_field? hs)
  cases form n with
  | block h =>
    rw [pieces_block h]
    refine Parts.spread (P := fun _ => True) (by simp [h])
      (parts_flatten hn List.filter_sublist (fun _ _ => trivial) fun s hs => ?_)
    exact hinner s (mem_all_of_mem_statements hs) (size_lt_of_mem_statements hs)
  | cond c h hc =>
    rw [pieces_if h hc]
    exact Parts.spread (by simp [h]) (.append_fields hn (.append_fields hn (.append_fields hn
      (.field?_self hn _) (.field?_self hn _) (by decide)) (.field? hn (hfield _)) (by decide))
      (.field? hn (hfield _)) (by decide))
  | loop h => exact spread_loop hn (hformed n (self_mem_all n)) h l (hfield .body)
  | choice h =>
    rw [pieces_choice h]
    refine Parts.spread (by simp [isChoice] at h; rcases h with (h | h) | h <;> simp [h])
      (.append hn (P := (·.kind.isCase = false)) (Q := (·.kind.isCase = true)) ?_ ?_ ?_)
    · refine .children hn (List.filter_sublist.trans List.filter_sublist) fun c hc => ?_
      simpa using (List.mem_filter.1 hc).2
    · refine .flatMap hn (List.filter_sublist.trans List.filter_sublist)
        (fun c hc => (List.mem_filter.1 hc).2) fun c hc => ?_
      obtain ⟨hnamed, hcase⟩ := List.mem_filter.1 hc
      refine spread_clause (hn.child (mem_children_of_mem_named hnamed)).2.2 hcase fun s hs => ?_
      exact hinner s (mem_all_trans (mem_all_of_mem_clauseBody hs) (mem_all_of_mem_named hnamed))
        (Nat.lt_trans (size_lt_of_mem_clauseBody hs) (size_lt_of_mem_named hnamed))
    · simp
  | labelled h =>
    cases hs : labelled? n with
    | none =>
      rw [ofNode_labelOnly h hs]
      exact spread_nil
    | some s =>
      have hmem : s ∈ n.named := (List.mem_filter.1 (List.mem_of_mem_head? hs)).1
      rw [ofNode_labelled h hs, pieces_label none]
      exact (hinner s (mem_all_of_mem_named hmem) (size_lt_of_mem_named hmem)).of_child
        (by simp [h]) (mem_children_of_mem_named hmem)
  | ret h =>
    rw [ofNode_return h]
    exact spread_self
  | goto h =>
    rw [ofNode_goto h]
    exact spread_nil
  | breaks h =>
    rw [ofNode_break h]
    exact spread_nil
  | continues h =>
    rw [ofNode_continue h]
    exact spread_nil
  | panics h hp =>
    rw [ofNode_expression h hp]
    exact spread_self
  | silent h =>
    rw [ofNode_silent h]
    exact spread_nil
  | plain h =>
    rw [ofNode_plain h]
    exact spread_self
termination_by n.size

/-! ## Nothing is missed -/

section
variable {n s m body : Node}

theorem mem_loopPieces_of_mem_loopInit {part : Node} (h : m ∈ loopInit part) : m ∈ loopPieces part :=
  List.mem_append_left _ (List.mem_append_left _ h)

theorem mem_loopPieces_of_mem_loopCondition {part : Node} (h : m ∈ loopCondition part) :
    m ∈ loopPieces part :=
  List.mem_append_left _ (List.mem_append_right _ h)

theorem mem_pieces_of_loopPieces {c : Node} (hformed : n.Formed) (h : n.kind = .forStatement)
    (hc : c ∈ n.named) (hfield : c.inField ≠ some .body) (hm : m ∈ loopPieces c)
    (l : Option String) : m ∈ (ofNode l n).pieces := by
  refine (perm_pieces_for h (hformed.header h) l).subset (List.mem_append_left _ ?_)
  exact List.mem_flatMap.2 ⟨c, List.mem_filter.2 ⟨hc, by simpa using hfield⟩, hm⟩

/-- What a statement evaluates itself is a piece of it. -/
theorem mem_pieces_of_evaluates (hformed : n.Formed) (h : Evaluates n m) (l : Option String) :
    m ∈ (ofNode l n).pieces := by
  cases h with
  | whole hwhole =>
    simp only [isWhole, List.contains_iff_mem, List.mem_cons, List.not_mem_nil, or_false] at hwhole
    by_cases hreturn : n.kind = .returnStatement
    · rw [ofNode_return hreturn]
      exact List.mem_singleton_self n
    · by_cases hpanic : n.kind = .expressionStatement ∧ isPanic n = true
      · rw [ofNode_expression hpanic.1 hpanic.2]
        exact List.mem_singleton_self n
      · -- neither a return nor a call of `panic`, so that nothing ends here
        have hplain : IsPlain n := by
          refine .inl ⟨?_, fun hkind => Bool.eq_false_iff.2 fun h => hpanic ⟨hkind, h⟩⟩
          rcases hwhole with h | h | h | h | h | h | h | h | h | h
          all_goals first
            | exact absurd h hreturn
            | rw [h]
              rfl
        rw [ofNode_plain hplain]
        exact List.mem_singleton_self n
  | ifInitializer h hm =>
    obtain ⟨c, hc⟩ := hformed.condition h
    rw [pieces_if h hc, hm]
    simp
  | ifCondition h hm =>
    rw [pieces_if h hm, hm]
    simp
  | forInitializer h hc hfield hkind hm =>
    refine mem_pieces_of_loopPieces hformed h hc hfield (mem_loopPieces_of_mem_loopInit ?_) l
    simp [loopInit, hkind, hm]
  | forCondition h hc hfield hkind hm =>
    refine mem_pieces_of_loopPieces hformed h hc hfield (mem_loopPieces_of_mem_loopCondition ?_) l
    simp [loopCondition, hkind, hm]
  | forUpdate h hc hfield hkind hm =>
    refine mem_pieces_of_loopPieces hformed h hc hfield (List.mem_append_right _ ?_) l
    simp [hkind, hm]
  | forHeader h hm hfield hkind =>
    refine mem_pieces_of_loopPieces hformed h hm hfield ?_ l
    by_cases hrange : m.kind = .rangeClause
    · exact mem_loopPieces_of_mem_loopInit (by simp [loopInit, hrange])
    · exact mem_loopPieces_of_mem_loopCondition (by simp [loopCondition])
  | choiceHeader h hm hcase =>
    rw [pieces_choice h]
    exact List.mem_append_left _ (List.mem_filter.2 ⟨hm, by simp [hcase]⟩)
  | @clauseHeader c m f h hc hcase hf hm =>
    rw [pieces_choice h]
    refine List.mem_append_right _ (List.mem_flatMap.2
      ⟨c, List.mem_filter.2 ⟨hc, hcase⟩, List.mem_append_left _ ?_⟩)
    simp only [List.mem_cons, List.not_mem_nil, or_false] at hf
    rcases hf with rfl | rfl | rfl <;> simp [clauseHead, hm]

/-- Pieces of a statement that stands in another are pieces of that one. -/
theorem pieces_subset_of_encloses (hformed : n.Formed) (h : Encloses n s) (l : Option String) :
    (ofNode none s).pieces ⊆ (ofNode l n).pieces := by
  intro m hm
  cases h with
  | block h hs =>
    rw [pieces_block h]
    exact List.mem_flatMap.2 ⟨s, hs, hm⟩
  | yes h hs =>
    obtain ⟨c, hc⟩ := hformed.condition h
    rw [pieces_if h hc, hs]
    simp [hm]
  | no h hs =>
    obtain ⟨c, hc⟩ := hformed.condition h
    rw [pieces_if h hc, hs]
    simp [hm]
  | loop h hs =>
    rw [pieces_for h, hs]
    simp [hm]
  | clause h hc hs =>
    rw [pieces_choice h]
    exact List.mem_append_right _ (List.mem_flatMap.2
      ⟨_, hc, List.mem_append_right _ (List.mem_flatMap.2 ⟨s, hs, hm⟩)⟩)
  | labelled h hs =>
    rw [ofNode_labelled h hs, pieces_label none]
    exact hm

theorem mem_all_of_encloses (h : Encloses n s) : s ∈ n.all := by
  cases h with
  | block _ hs => exact mem_all_of_mem_statements hs
  | yes _ hs => exact mem_all_of_field? hs
  | no _ hs => exact mem_all_of_field? hs
  | loop _ hs => exact mem_all_of_field? hs
  | clause _ hc hs =>
    exact mem_all_trans (mem_all_of_mem_clauseBody hs) (mem_all_of_mem_named (List.mem_filter.1 hc).1)
  | labelled _ hs => exact mem_all_of_mem_named (List.mem_filter.1 (List.mem_of_mem_head? hs)).1

theorem pieces_subset_of_statementIn (hformed : ∀ m ∈ body.all, m.Formed)
    (h : StatementIn body s) :
    s ∈ body.all ∧ (ofNode none s).pieces ⊆ piecesAll (ofBody body) := by
  induction h with
  | top hs =>
    refine ⟨mem_all_of_mem_statements hs, fun m hm => ?_⟩
    rw [ofBody, piecesAll_map]
    exact List.mem_flatMap.2 ⟨_, hs, hm⟩
  | inner _ hs ih =>
    obtain ⟨hn, hsub⟩ := ih
    exact ⟨mem_all_trans (mem_all_of_encloses hs) hn,
      List.Subset.trans (pieces_subset_of_encloses (hformed _ hn) hs none) hsub⟩

/-- The pieces of a body lie apart, each below a child of it. -/
theorem parts_ofBody (hbody : body.Placed) (hformed : ∀ m ∈ body.all, m.Formed) :
    Parts body (fun _ => True) (piecesAll (ofBody body)) := by
  rw [ofBody, piecesAll_map]
  refine parts_flatten hbody List.filter_sublist (fun _ _ => trivial) fun s hs => ?_
  have hmem : s ∈ body.all := mem_all_of_mem_statements hs
  exact spread_ofNode (hbody.within hmem).2.2 (fun m hm => hformed m (mem_all_trans hm hmem)) none

end

end Stmt

/-! ## Every function body -/

section
variable {p : Program} {f : SourceFile} {func body : Node}

/-- The blocks of the graph of a function body hold no node twice. What a statement of the body
evaluates itself, at whatever depth the statement stands, they hold once. -/
theorem pieces_evaluated_once (hp : p.Parsed) (hf : f ∈ p.files)
    (hfunc : func ∈ f.tree.all) (hbody : func.field? .body = some body) :
    ((Graph.ofBody (Stmt.ofBody body)).pieces.map Node.id).Nodup ∧
      ∀ s m, Stmt.StatementIn body s → Stmt.Evaluates s m →
        (Graph.ofBody (Stmt.ofBody body)).pieces.filter (·.id == m.id) = [m] := by
  have hmem : body ∈ f.tree.all := mem_all_trans (mem_all_of_field? hbody) hfunc
  have hplaced : body.Placed :=
    (hp.trees f hf).placed_of_mem_children hfunc (mem_children_of_field? hbody)
  have hformed : ∀ m ∈ body.all, m.Formed := fun m hm =>
    (hp.trees f hf).formed m (mem_all_trans hm hmem)
  have hparts := Stmt.parts_ofBody hplaced hformed
  have hperm := Sketch.perm_pieces_ofBody (Stmt.ofBody body)
  have hin : ∀ q ∈ Stmt.piecesAll (Stmt.ofBody body), q ∈ body.all := fun q hq =>
    let ⟨_, hc, _, hout⟩ := hparts.below q hq
    mem_all_of_child hc hout.mem_all
  have hids : (Stmt.piecesAll (Stmt.ofBody body) |>.map Node.id).Nodup :=
    nodup_ids hparts.apart (fun q hq => (hplaced.within (hin q hq)).2.2) fun q hq r hr =>
      hp.numbered.eq_of_id_eq hf (mem_all_trans (hin q hq) hmem)
        (mem_all_trans (hin r hr) hmem)
  have hnodup : ((Graph.ofBody (Stmt.ofBody body)).pieces.map Node.id).Nodup :=
    (hperm.map _).nodup_iff.2 hids
  refine ⟨hnodup, fun s m hs hm => filter_id_eq hnodup (hperm.symm.subset ?_)⟩
  obtain ⟨hsbody, hsub⟩ := Stmt.pieces_subset_of_statementIn hformed hs
  exact hsub (Stmt.mem_pieces_of_evaluates (hformed s hsbody) hm none)

end

/-- A function with a condition in a loop, and a switch whose first clause falls through. -/
def nestedHeaders : List String :=
  ["func sum(xs []int) int \x7b",
    "for i := 0; i < 3; i++ \x7b if n := xs[i]; n > 1 \x7b return n \x7d \x7d",
    "switch xs[0] \x7b case 1, 2: fallthrough; default: return 1 \x7d", "return 0 \x7d"]

/-- What that function evaluates, block by block: the last blocks are those of the clauses. -/
theorem pieces_evaluated_once_nestedHeaders :
    ∃ sources p, Program.ofSources sources = .ok p ∧
      ∃ f ∈ p.files, ∃ func ∈ f.tree.all, ∃ body, func.field? .body = some body ∧
        (Graph.ofBody (Stmt.ofBody body)).pieces.map Node.text = ["i := 0", "i < 3", "xs[0]", "i++",
          "n := xs[i]", "n > 1", "return n", "return 0", "1, 2", "return 1"] ∧
        ((Graph.ofBody (Stmt.ofBody body)).pieces.map Node.id).Nodup ∧
        ∀ s m, Stmt.StatementIn body s → Stmt.Evaluates s m →
          (Graph.ofBody (Stmt.ofBody body)).pieces.filter (·.id == m.id) = [m] := by
  have hfind : (((SourceFile.sample nestedHeaders).tree.all.find?
      (·.kind == .functionDeclaration)).bind (·.field? .body)).map
        (fun body => (Graph.ofBody (Stmt.ofBody body)).pieces.map Node.text) =
          some ["i := 0", "i < 3", "xs[0]", "i++", "n := xs[i]", "n > 1", "return n", "return 0",
            "1, 2", "return 1"] := by
    simp only [nestedHeaders, SourceFile.sample_eq, SourceFile.chars, String.reduceToList]
    decide +kernel
  obtain ⟨body, hbody, htexts⟩ := Option.map_eq_some_iff.1 hfind
  obtain ⟨func, hfunc, hbody⟩ := Option.bind_eq_some_iff.1 hbody
  have hmem := List.mem_of_find?_eq_some hfunc
  have hfile : SourceFile.sample nestedHeaders ∈ [SourceFile.sample nestedHeaders] :=
    List.mem_singleton_self _
  exact ⟨_, _, Program.ofSources_sample nestedHeaders, _, hfile, func, hmem, body, hbody, htexts,
    pieces_evaluated_once (Program.parsed_sample nestedHeaders) hfile hmem hbody⟩

end RouteCheck
