import RouteCheck.Proofs.Flow.Repeated

/-!
What a condition tells of the writes that it compares with nil.

A condition is a tree of conjunctions and disjunctions, and evaluating it stops at the first side
that decides. Where all leaves compare for equality and all joins are conjunctions, or all compare
for inequality and all joins are disjunctions, a leaf decides just if its result is not nil; so the
value of the condition tells whether such a result has been met. This is what the two sides of a
branch are made for, and any other condition with a check in it is reported.

Main statements:
  1. `Condition.evaluate_eq_decisive_iff`: a condition with one connective is decided just if a leaf
     that is evaluated decides.
  2. `nilCheck?_eq_some_iff`: which leaves are checks.
  3. `branch_of_inForm`: the sides of a condition in one of the two forms.
  4. `branch_sound`: what is reported, and that the side taken has the state of the evaluation.
-/

namespace RouteCheck

/-! ## Conditions -/

/-- How two conditions are joined. -/
inductive Connective where
  | and | or
  deriving DecidableEq, Repr

namespace Connective

def text : Connective → String
  | and => "&&"
  | or => "||"

/-- The value of the left side that leaves the right side out. -/
def decisive : Connective → Bool
  | and => false
  | or => true

end Connective

/-- A condition as it is evaluated, parentheses aside. -/
inductive Condition where
  | leaf (n : Node)
  | join (c : Connective) (left right : Condition)

namespace Condition

def leaves : Condition → List Node
  | leaf n => [n]
  | join _ l r => l.leaves ++ r.leaves

def connectives : Condition → List Connective
  | leaf _ => []
  | join c l r => c :: l.connectives ++ r.connectives

def JoinedBy (c : Connective) (t : Condition) : Prop := ∀ c' ∈ t.connectives, c' = c

/-- Evaluate a condition whose leaves have the values `truth`: the leaves that are evaluated, and
the value. -/
def evaluate (truth : Node → Bool) : Condition → List Node × Bool
  | leaf n => ([n], truth n)
  | join c l r =>
    let (seen, value) := l.evaluate truth
    if value = c.decisive then (seen, value)
    else
      let (more, value) := r.evaluate truth
      (seen ++ more, value)

/-- The condition that an expression spells. What is not two operands around a connective is a
leaf, calls and negations included. -/
def ofNode (cond : Node) : Condition :=
  match WriteCheck.connective? cond.unparen, _hl : cond.unparen.field? .left,
    _hr : cond.unparen.field? .right with
  | some op, some l, some r => join (if op = "&&" then .and else .or) (ofNode l) (ofNode r)
  | _, _, _ => leaf cond.unparen
termination_by cond.size
decreasing_by
  · have := Node.size_lt_of_field? _hl
    have := Node.size_unparen_le cond
    omega
  · have := Node.size_lt_of_field? _hr
    have := Node.size_unparen_le cond
    omega

section
variable {truth : Node → Bool} {c c' : Connective} {t l r : Condition}

theorem joinedBy_join (h : (join c' l r).JoinedBy c) : c' = c ∧ l.JoinedBy c ∧ r.JoinedBy c := by
  simpa [JoinedBy, connectives, or_imp, forall_and] using h

theorem evaluate_join_of_decisive (h : (l.evaluate truth).2 = c.decisive) :
    (join c l r).evaluate truth = l.evaluate truth :=
  if_pos h

theorem evaluate_join_of_not_decisive (h : (l.evaluate truth).2 ≠ c.decisive) :
    (join c l r).evaluate truth =
      ((l.evaluate truth).1 ++ (r.evaluate truth).1, (r.evaluate truth).2) :=
  if_neg h

theorem mem_leaves_of_mem_evaluate {n : Node} (h : n ∈ (t.evaluate truth).1) : n ∈ t.leaves := by
  induction t with
  | leaf m => exact h
  | join c l r ihl ihr =>
    by_cases hl : (l.evaluate truth).2 = c.decisive
    · rw [evaluate_join_of_decisive hl] at h
      exact List.mem_append_left _ (ihl h)
    · rw [evaluate_join_of_not_decisive hl] at h
      rcases List.mem_append.1 h with h | h
      · exact List.mem_append_left _ (ihl h)
      · exact List.mem_append_right _ (ihr h)

/-- Under one connective, what decides a part decides the whole. -/
theorem evaluate_eq_decisive_iff (h : t.JoinedBy c) :
    (t.evaluate truth).2 = c.decisive ↔ ∃ n ∈ (t.evaluate truth).1, truth n = c.decisive := by
  induction t with
  | leaf n => simp [evaluate]
  | join c' l r ihl ihr =>
    obtain ⟨rfl, hl, hr⟩ := joinedBy_join h
    by_cases hdecisive : (l.evaluate truth).2 = c'.decisive
    · rw [evaluate_join_of_decisive hdecisive, ihl hl]
    · -- the left side is evaluated as a whole and has no leaf that decides
      rw [evaluate_join_of_not_decisive hdecisive]
      have hnone := mt (ihl hl).2 hdecisive
      simp only [List.mem_append, or_and_right, exists_or, ihr hr, hnone, false_or]

end

theorem connective?_eq {n : Node} {op : String} (h : WriteCheck.connective? n = some op) :
    op = "&&" ∨ op = "||" := by
  unfold WriteCheck.connective? at h
  split at h
  · obtain ⟨-, hop⟩ := Option.filter_eq_some_iff.1 h
    simpa using hop
  · simp at h

theorem flatten_eq (cond : Node) :
    WriteCheck.flatten cond =
      ((ofNode cond).connectives.map Connective.text, (ofNode cond).leaves) := by
  fun_induction ofNode cond with
  | case1 cond op l r hl hr hop ihl ihr =>
    have hflat : WriteCheck.flatten cond =
        (op :: (WriteCheck.flatten l).1 ++ (WriteCheck.flatten r).1,
          (WriteCheck.flatten l).2 ++ (WriteCheck.flatten r).2) := by
      rw [WriteCheck.flatten]
      split
      · simp_all
      · next h => exact (h op l r hop hl hr).elim
    have htext : (if op = "&&" then Connective.and else Connective.or).text = op := by
      rcases connective?_eq hop with rfl | rfl <;> rfl
    rw [hflat, ihl, ihr]
    simp only [connectives, leaves, List.map_cons, List.map_append, htext]
  | case2 cond h =>
    rw [WriteCheck.flatten]
    split
    · next op l r hop hl hr => exact (h op l r hop hl hr).elim
    · rfl

end Condition

/-! ## Checks -/

/-- The leaf compares two operands by this operator, in either order, parentheses aside. -/
structure Compares (leaf : Node) (op : String) (x y : Node) : Prop where
  kind : leaf.kind = .binaryExpression
  operator : (leaf.field? .operator).map Node.text = some op
  operands : ∃ l r, leaf.field? .left = some l ∧ leaf.field? .right = some r ∧
    ((x = l.unparen ∧ y = r.unparen) ∨ (x = r.unparen ∧ y = l.unparen))

namespace WriteCheck

/-- The node is the result of a write at this site: the call of the write, or the variable that the
result is pending in. -/
inductive ResultOf (w : WriteCheck) (s : FlowState) (n : Node) : Site → Prop
  | call : w.isWrite n = true → ResultOf w s n n.site
  | pending {site : Site} : n.kind = .identifier → s.pending = some (n.text, site) →
      ResultOf w s n site

/-- The leaf compares the result of a write with nil. -/
def IsCheck (w : WriteCheck) (s : FlowState) (leaf : Node) (check : NilCheck) : Prop :=
  ∃ subject other, Compares leaf (if check.equal then "==" else "!=") subject other ∧
    other.kind = .nilLiteral ∧ w.ResultOf s subject check.site

/-- The first of the leaves that is a check. -/
def FirstCheck (w : WriteCheck) (s : FlowState) (ls : List Node) (check : NilCheck) : Prop :=
  ∃ before leaf after, ls = before ++ leaf :: after ∧ w.IsCheck s leaf check ∧
    ∀ l ∈ before, ∀ other, ¬ w.IsCheck s l other

/-- The condition is in the form that goes with a connective: comparisons for equality joined by
`&&`, or comparisons for inequality joined by `||`. -/
structure InForm (w : WriteCheck) (s : FlowState) (c : Connective) (t : Condition) : Prop where
  joined : t.JoinedBy c
  checks : ∀ leaf ∈ t.leaves, ∃ site, w.IsCheck s leaf ⟨!c.decisive, site⟩

section
variable {w : WriteCheck} {s s' : FlowState} {leaf subject n : Node} {check : NilCheck}

theorem kind_of_isWrite (h : w.isWrite n = true) : n.kind = .callExpression := by
  by_contra hkind
  simp [isWrite, Typer.contextCall?, methodCalled?, hkind] at h

/-- A result is not written `nil`, so that a check tells which of its operands is the result. -/
theorem ResultOf.kind_ne {site : Site} (h : w.ResultOf s n site) : n.kind ≠ .nilLiteral := by
  cases h with
  | call h => simp [kind_of_isWrite h]
  | pending h => simp [h]

/-- The operand beside `nil`; the left one where both are. -/
def IsSubject (leaf subject : Node) : Prop :=
  ∃ l r, leaf.field? .left = some l ∧ leaf.field? .right = some r ∧
    ((r.unparen.kind = .nilLiteral ∧ subject = l.unparen) ∨
      (r.unparen.kind ≠ .nilLiteral ∧ l.unparen.kind = .nilLiteral ∧ subject = r.unparen))

theorem nilSubject?_eq_some_iff {equal : Bool} :
    nilSubject? leaf = some (equal, subject) ↔
      leaf.kind = .binaryExpression ∧
        (leaf.field? .operator).map Node.text = some (if equal then "==" else "!=") ∧
        IsSubject leaf subject := by
  have hoperand (e : Bool) : ((leaf.field? .left).bind fun l => (leaf.field? .right).bind fun r =>
      if r.unparen.kind = .nilLiteral then some (e, l.unparen)
      else if l.unparen.kind = .nilLiteral then some (e, r.unparen)
      else none) = some (equal, subject) ↔ e = equal ∧ IsSubject leaf subject := by
    simp only [IsSubject, Option.bind_eq_some_iff]
    grind
  unfold nilSubject?
  by_cases hkind : leaf.kind = .binaryExpression
  · rw [if_pos hkind, and_iff_right hkind]
    cases leaf.field? .operator with
    | none => simp
    | some op =>
      show (if op.text = "==" then _ else if op.text = "!=" then _ else none) = _ ↔ _
      split
      · next hop =>
        refine (hoperand true).trans ?_
        cases equal <;> simp [hop]
      · next hne =>
        split
        · next hop =>
          refine (hoperand false).trans ?_
          cases equal <;> simp [hop]
        · next hne' => cases equal <;> simp [hne, hne']
  · simp [hkind]

/-- The operand beside `nil` is the one that is the result of a write, if one is. -/
theorem isCheck_iff : w.IsCheck s leaf check ↔
    ∃ subject, nilSubject? leaf = some (check.equal, subject) ∧
      w.ResultOf s subject check.site := by
  simp only [nilSubject?_eq_some_iff]
  constructor
  · rintro ⟨subject, other, ⟨hkind, hop, l, r, hl, hr, hsides⟩, hnil, hresult⟩
    refine ⟨subject, ⟨hkind, hop, l, r, hl, hr, ?_⟩, hresult⟩
    rcases hsides with ⟨hsubject, hother⟩ | ⟨hsubject, hother⟩
    · exact .inl ⟨hother ▸ hnil, hsubject⟩
    · exact .inr ⟨hsubject ▸ hresult.kind_ne, hother ▸ hnil, hsubject⟩
  · rintro ⟨subject, ⟨hkind, hop, l, r, hl, hr, ⟨hnil, hsubject⟩ | ⟨-, hnil, hsubject⟩⟩, hresult⟩
    · exact ⟨subject, r.unparen, ⟨hkind, hop, l, r, hl, hr, .inl ⟨hsubject, rfl⟩⟩, hnil, hresult⟩
    · exact ⟨subject, l.unparen, ⟨hkind, hop, l, r, hl, hr, .inr ⟨hsubject, rfl⟩⟩, hnil, hresult⟩

theorem nilCheck?_eq_some_iff : w.nilCheck? leaf s = some check ↔ w.IsCheck s leaf check := by
  rw [isCheck_iff]
  constructor
  · intro h
    obtain ⟨equal, subject, hsubject, rfl, ⟨hwrite, hsite⟩ | ⟨-, hpending, hkind⟩⟩ :=
      nilCheck?_cases h
    · exact ⟨subject, hsubject, hsite ▸ .call hwrite⟩
    · exact ⟨subject, hsubject, .pending hkind hpending⟩
  · rintro ⟨subject, hsubject, hresult⟩
    obtain ⟨equal, site⟩ := check
    have hleaf : w.nilCheck? leaf s = if w.isWrite subject then some ⟨equal, subject.site⟩
        else s.pending.bind fun p =>
          if subject.kind = .identifier && subject.text == p.1 then some ⟨equal, p.2⟩
          else none := by
      rw [nilCheck?, hsubject]
      rfl
    rw [hleaf]
    cases hresult with
    | call hwrite =>
      rw [if_pos hwrite]
      rfl
    | pending hkind hpending =>
      have hwrite : w.isWrite subject = false := by
        by_contra hwrite
        exact absurd (kind_of_isWrite (by simpa using hwrite)) (by simp [hkind])
      simp [hwrite, hpending, hkind]

theorem nilCheck?_eq_none_iff :
    w.nilCheck? leaf s = none ↔ ∀ check, ¬ w.IsCheck s leaf check := by
  simp only [← nilCheck?_eq_some_iff, Option.eq_none_iff_forall_ne_some]

/-- Checks depend on the pending result only. -/
theorem nilCheck?_congr (h : s.pending = s'.pending) :
    w.nilCheck? leaf s = w.nilCheck? leaf s' := by
  unfold nilCheck?
  rw [h]

/-! ## Leaves -/

variable {ls : List Node}

/-- Executing the leaves changes the state only by writes in leaves that are no checks. -/
theorem leaves_eq (ls : List Node) (s : FlowState) :
    (w.leaves ls s).checks = ls.filterMap (w.nilCheck? · s) ∧
    (w.leaves ls s).others = ls.any (fun leaf => (w.nilCheck? leaf s).isNone) ∧
    ((w.leaves ls s).others = false → (w.leaves ls s).state = s) := by
  fun_induction leaves w ls s with
  | case1 => exact ⟨rfl, rfl, fun _ => rfl⟩
  | case2 leaf rest s c hc r ih =>
    obtain ⟨hchecks, hothers, hstate⟩ := ih
    refine ⟨?_, ?_, hstate⟩
    · simp [hc, ← hchecks, r]
    · simp [hc, hothers, r]
  | case3 leaf rest s hc notes s' hrecord r ih =>
    obtain ⟨hchecks, hothers, -⟩ := ih
    -- writes in the leaf leave the pending result alone, and with it what later leaves check
    have hpending : s'.pending = s.pending := by
      rw [← show (w.record (w.writes leaf) s).2 = s' by rw [hrecord], record_state]
    have hsame (l : Node) : w.nilCheck? l s' = w.nilCheck? l s := nilCheck?_congr hpending
    refine ⟨?_, ?_, by simp⟩
    · simp [hc, hchecks, hsame, r]
    · simp [hc]

theorem mem_checks : check ∈ (w.leaves ls s).checks ↔ ∃ leaf ∈ ls, w.IsCheck s leaf check := by
  rw [(leaves_eq ls s).1, List.mem_filterMap]
  simp only [nilCheck?_eq_some_iff]

theorem checks_ne_nil_iff :
    (w.leaves ls s).checks ≠ [] ↔ ∃ leaf ∈ ls, ∃ check, w.IsCheck s leaf check := by
  constructor
  · intro h
    obtain ⟨check, hcheck⟩ := List.exists_mem_of_ne_nil _ h
    obtain ⟨leaf, hleaf, hcheck⟩ := mem_checks.1 hcheck
    exact ⟨leaf, hleaf, check, hcheck⟩
  · rintro ⟨leaf, hleaf, check, hcheck⟩
    exact List.ne_nil_of_mem (mem_checks.2 ⟨leaf, hleaf, hcheck⟩)

theorem others_eq_false_iff :
    (w.leaves ls s).others = false ↔ ∀ leaf ∈ ls, ∃ check, w.IsCheck s leaf check := by
  rw [(leaves_eq ls s).2.1, List.any_eq_false]
  simp only [← nilCheck?_eq_some_iff, ← Option.isSome_iff_exists, Bool.not_eq_true,
    Option.isNone_eq_false_iff]

theorem firstCheck_iff : w.FirstCheck s ls check ↔ (w.leaves ls s).checks.head? = some check := by
  rw [(leaves_eq ls s).1, List.head?_filterMap, List.findSome?_eq_some_iff]
  simp only [FirstCheck, nilCheck?_eq_some_iff, nilCheck?_eq_none_iff]

theorem inForm_iff {c : Connective} {t : Condition} : w.InForm s c t ↔
    (∀ c' ∈ t.connectives, c' = c) ∧ (w.leaves t.leaves s).others = false ∧
      ∀ check ∈ (w.leaves t.leaves s).checks, check.equal = !c.decisive := by
  constructor
  · rintro ⟨hjoined, hchecks⟩
    refine ⟨hjoined, others_eq_false_iff.2 fun leaf hleaf => ?_, fun check hcheck => ?_⟩
    · obtain ⟨site, hsite⟩ := hchecks leaf hleaf
      exact ⟨_, hsite⟩
    · obtain ⟨leaf, hleaf, hcheck⟩ := mem_checks.1 hcheck
      obtain ⟨site, hsite⟩ := hchecks leaf hleaf
      rw [← nilCheck?_eq_some_iff] at hcheck hsite
      rw [Option.some.inj (hcheck.symm.trans hsite)]
  · rintro ⟨hjoined, hothers, hchecks⟩
    refine ⟨hjoined, fun leaf hleaf => ?_⟩
    obtain ⟨check, hcheck⟩ := others_eq_false_iff.1 hothers leaf hleaf
    rw [← hchecks check (mem_checks.2 ⟨leaf, hleaf, hcheck⟩)]
    exact ⟨check.site, hcheck⟩

/-! ## Branches -/

/-- What is reported of a condition that is in neither form. -/
def weird : String := "weird condition; stick to a single conjunction/disjunction form"

theorem repeated_ne_weird {call : Node} : ∀ d ∈ w.repeated call s, d.message ≠ weird := by
  intro d hd
  unfold repeated at hd
  split at hd
  · simp at hd
  · obtain rfl := List.mem_singleton.1 hd
    intro h
    have hhead := congrArg (fun m : String => m.toList.head?) h
    simp [weird] at hhead

theorem record_ne_weird (calls : List Node) : ∀ d ∈ (w.record calls s).1, d.message ≠ weird := by
  induction calls generalizing s with
  | nil => simp [record]
  | cons call rest ih =>
    intro d hd
    rcases List.mem_append.1 hd with hd | hd
    · exact repeated_ne_weird d hd
    · exact ih d hd

theorem leaves_ne_weird (ls : List Node) (s : FlowState) :
    ∀ d ∈ (w.leaves ls s).notes, d.message ≠ weird := by
  fun_induction leaves w ls s with
  | case1 => simp
  | case2 leaf rest s c hc r ih =>
    intro d hd
    rcases List.mem_append.1 hd with hd | hd
    · unfold nilCheckNotes at hd
      split at hd
      · split at hd
        · exact repeated_ne_weird d hd
        · simp at hd
      · simp at hd
    · exact ih d hd
  | case3 leaf rest s hc notes s' hrecord r ih =>
    intro d hd
    rcases List.mem_append.1 hd with hd | hd
    · exact record_ne_weird (w.writes leaf) d (by rwa [hrecord])
    · exact ih d hd

section
variable {cond : Node} {r : Leaves} {first : NilCheck} {rest : List NilCheck}

theorem all_text_iff {c : Connective} {cs : List Connective} :
    (cs.map Connective.text).all (· == c.text) = true ↔ ∀ c' ∈ cs, c' = c := by
  have htext (c' : Connective) : c'.text = c.text ↔ c' = c := by
    cases c <;> cases c' <;> decide
  simp [htext]

theorem branch_of_no_check (hr : w.leaves (Condition.ofNode cond).leaves s = r)
    (hchecks : r.checks = []) : w.branch cond s = (r.notes, r.state, r.state) := by
  simp only [branch, Condition.flatten_eq, hr]
  rw [hchecks]

/-- A condition with a check is treated by its form. -/
theorem branch_cases (hr : w.leaves (Condition.ofNode cond).leaves s = r)
    (hchecks : r.checks = first :: rest) :
    (w.InForm s .and (Condition.ofNode cond) ∧ w.branch cond s =
      (r.notes, { r.state with pending := none }, { wrote := some first.site })) ∨
    (w.InForm s .or (Condition.ofNode cond) ∧ w.branch cond s =
      (r.notes, { wrote := some first.site }, { r.state with pending := none })) ∨
    (¬ w.InForm s .and (Condition.ofNode cond) ∧ ¬ w.InForm s .or (Condition.ofNode cond) ∧
      w.branch cond s = (r.notes ++ [⟨w.typer.file.position cond, weird⟩],
        { r.state with pending := none }, { r.state with pending := none })) := by
  have hand : w.InForm s .and (Condition.ofNode cond) ↔ (!r.others && r.checks.all (·.equal) &&
      ((Condition.ofNode cond).connectives.map Connective.text).all (· == "&&")) = true := by
    rw [inForm_iff, hr, ← all_text_iff]
    simp only [Connective.text, Connective.decisive, List.all_eq_true, Bool.and_eq_true,
      Bool.not_eq_true', Bool.not_false]
    tauto
  have hor : w.InForm s .or (Condition.ofNode cond) ↔ (!r.others && r.checks.all (!·.equal) &&
      ((Condition.ofNode cond).connectives.map Connective.text).all (· == "||")) = true := by
    rw [inForm_iff, hr, ← all_text_iff]
    simp only [Connective.text, Connective.decisive, List.all_eq_true, Bool.and_eq_true,
      Bool.not_eq_true', Bool.not_true]
    tauto
  rw [hand, hor]
  simp only [branch, Condition.flatten_eq, hr, hchecks]
  split
  · next h => exact .inl ⟨h, rfl⟩
  · next h =>
    split
    · next h' => exact .inr (.inl ⟨h', rfl⟩)
    · next h' => exact .inr (.inr ⟨h, h', rfl⟩)

theorem weird_mem_branch_iff {d : Diagnostic} (hd : d.message = weird) :
    d ∈ (w.branch cond s).1 ↔ d.position = w.typer.file.position cond ∧
      (∃ leaf ∈ (Condition.ofNode cond).leaves, ∃ check, w.IsCheck s leaf check) ∧
      ¬ w.InForm s .and (Condition.ofNode cond) ∧ ¬ w.InForm s .or (Condition.ofNode cond) := by
  obtain ⟨position, message⟩ := d
  obtain rfl : message = weird := hd
  have hnotes : ⟨position, weird⟩ ∉ (w.leaves (Condition.ofNode cond).leaves s).notes := fun h =>
    leaves_ne_weird _ s _ h rfl
  rw [← checks_ne_nil_iff]
  cases hchecks : (w.leaves (Condition.ofNode cond).leaves s).checks with
  | nil => simp [branch_of_no_check rfl hchecks, hnotes]
  | cons first rest =>
    rcases branch_cases rfl hchecks with ⟨hform, heq⟩ | ⟨hform, heq⟩ | ⟨hand, hor, heq⟩
    · simp [heq, hnotes, hform]
    · simp [heq, hnotes, hform]
    · simp [heq, hnotes, hand, hor]

/-- The state on the side of a condition that has this value. -/
def taken (value : Bool) (sides : FlowState × FlowState) : FlowState :=
  if value then sides.1 else sides.2

/-- On the side where the condition is decided a write is taken to have happened, at the first
check; on the other side nothing but that no result is pending any more. -/
theorem branch_of_inForm {c : Connective} (h : w.InForm s c (Condition.ofNode cond))
    (hfirst : w.FirstCheck s (Condition.ofNode cond).leaves first) :
    taken c.decisive (w.branch cond s).2 = { wrote := some first.site } ∧
      taken (!c.decisive) (w.branch cond s).2 = { s with pending := none } := by
  obtain ⟨-, hothers, hequal⟩ := inForm_iff.1 h
  have hstate := (leaves_eq _ s).2.2 hothers
  obtain ⟨rest, hchecks⟩ := List.head?_eq_some_iff.1 (firstCheck_iff.1 hfirst)
  have honly {c' : Connective} (h' : w.InForm s c' (Condition.ofNode cond)) : c' = c := by
    have hmem : first ∈ (w.leaves (Condition.ofNode cond).leaves s).checks :=
      hchecks ▸ List.mem_cons_self
    have hdecisive := ((inForm_iff.1 h').2.2 first hmem).symm.trans (hequal first hmem)
    cases c <;> cases c' <;> simp_all [Connective.decisive]
  rcases branch_cases rfl hchecks with ⟨hform, heq⟩ | ⟨hform, heq⟩ | ⟨hand, hor, -⟩
  · obtain rfl := honly hform
    rw [heq, hstate]
    exact ⟨rfl, rfl⟩
  · obtain rfl := honly hform
    rw [heq, hstate]
    exact ⟨rfl, rfl⟩
  · cases c with
    | and => exact absurd h hand
    | or => exact absurd h hor

end

/-! ## Evaluation -/

/-- The value of a check, by whether the result is an error. -/
def NilCheck.value (check : NilCheck) (failed : Bool) : Bool :=
  if check.equal then !failed else failed

/-- The side taken by a condition in form has the state of its evaluation. -/
theorem taken_evaluate {cond : Node} {c : Connective} {first : NilCheck}
    (h : w.InForm s c (Condition.ofNode cond))
    (hfirst : w.FirstCheck s (Condition.ofNode cond).leaves first) {failed truth : Node → Bool}
    (htruth : ∀ leaf ∈ (Condition.ofNode cond).leaves, ∀ check, w.IsCheck s leaf check →
      truth leaf = check.value (failed leaf)) :
    taken ((Condition.ofNode cond).evaluate truth).2 (w.branch cond s).2 =
      { wrote := if ((Condition.ofNode cond).evaluate truth).1.any failed then some first.site
          else s.wrote } := by
  have hdecides (n : Node) (hn : n ∈ ((Condition.ofNode cond).evaluate truth).1) :
      truth n = c.decisive ↔ failed n = true := by
    have hleaf := Condition.mem_leaves_of_mem_evaluate hn
    obtain ⟨site, hcheck⟩ := h.checks n hleaf
    rw [htruth n hleaf _ hcheck, NilCheck.value]
    cases c <;> simp [Connective.decisive]
  have hvalue : ((Condition.ofNode cond).evaluate truth).2 = c.decisive ↔
      ((Condition.ofNode cond).evaluate truth).1.any failed = true := by
    rw [Condition.evaluate_eq_decisive_iff h.joined, List.any_eq_true]
    exact exists_congr fun n => and_congr_right (hdecides n)
  obtain ⟨hdecided, hundecided⟩ := branch_of_inForm h hfirst
  split
  · next hany => rw [hvalue.2 hany, hdecided]
  · next hany =>
    have hnot : ((Condition.ofNode cond).evaluate truth).2 = !c.decisive :=
      Bool.eq_not_of_ne fun heq => hany (hvalue.1 heq)
    rw [hnot, hundecided]

end

/-- A condition that tests writes is reported unless it is in one of the two forms, and if it is not
reported, the state on the side taken is that of the evaluation: with a write at the first check if
a result that was looked at is an error, and as before the condition if none is. The result of each
leaf may be an error (`failed`) or not, as long as the values of the leaves (`truth`) say so. -/
theorem branch_sound (w : WriteCheck) (cond : Node) (s : FlowState) :
    (∀ d : Diagnostic, d.message = weird → (d ∈ (w.branch cond s).1 ↔
      d.position = w.typer.file.position cond ∧
        (∃ leaf ∈ (Condition.ofNode cond).leaves, ∃ check, w.IsCheck s leaf check) ∧
        ¬ w.InForm s .and (Condition.ofNode cond) ∧ ¬ w.InForm s .or (Condition.ofNode cond))) ∧
    ((∃ leaf ∈ (Condition.ofNode cond).leaves, ∃ check, w.IsCheck s leaf check) →
      (∀ d ∈ (w.branch cond s).1, d.message ≠ weird) →
      ∃ first, w.FirstCheck s (Condition.ofNode cond).leaves first ∧
        ∀ failed truth : Node → Bool,
          (∀ leaf ∈ (Condition.ofNode cond).leaves, ∀ check, w.IsCheck s leaf check →
            truth leaf = check.value (failed leaf)) →
          taken ((Condition.ofNode cond).evaluate truth).2 (w.branch cond s).2 =
            { wrote := if ((Condition.ofNode cond).evaluate truth).1.any failed
                then some first.site else s.wrote
              pending := none }) := by
  refine ⟨fun d hd => weird_mem_branch_iff hd, fun hsome hnone => ?_⟩
  obtain ⟨first, rest, hchecks⟩ := List.exists_cons_of_ne_nil (checks_ne_nil_iff.2 hsome)
  have hfirst : w.FirstCheck s (Condition.ofNode cond).leaves first :=
    firstCheck_iff.2 (by rw [hchecks]; rfl)
  have hform : ∃ c, w.InForm s c (Condition.ofNode cond) := by
    by_contra hform
    have hnot (c : Connective) : ¬ w.InForm s c (Condition.ofNode cond) := fun h => hform ⟨c, h⟩
    exact hnone ⟨w.typer.file.position cond, weird⟩
      ((weird_mem_branch_iff rfl).2 ⟨rfl, hsome, hnot .and, hnot .or⟩) rfl
  obtain ⟨c, hform⟩ := hform
  exact ⟨first, hfirst, fun failed truth htruth => taken_evaluate hform hfirst htruth⟩

/-- A pending result and one that is compared where it stands, in a conjunction. -/
theorem branch_sound_conjunction :
    let lines := ["var n int", "err := jc.Check(\"failed\", nil)",
      "if (err == nil) && nil == jc.Decode(&n) \x7b", "\x7d"]
    let w := WriteCheck.sample lines
    let s : FlowState := { pending := some ("err", (5, 8)) }
    let cond := ((Handler.sample lines).graph.cond Graph.entry).getD default
    (∃ leaf ∈ (Condition.ofNode cond).leaves, ∃ check, w.IsCheck s leaf check) ∧
      (∀ d ∈ (w.branch cond s).1, d.message ≠ weird) ∧
      ∃ first, w.FirstCheck s (Condition.ofNode cond).leaves first ∧
        ∀ failed truth : Node → Bool,
          (∀ leaf ∈ (Condition.ofNode cond).leaves, ∀ check, w.IsCheck s leaf check →
            truth leaf = check.value (failed leaf)) →
          taken ((Condition.ofNode cond).evaluate truth).2 (w.branch cond s).2 =
            { wrote := if ((Condition.ofNode cond).evaluate truth).1.any failed
                then some first.site else s.wrote
              pending := none } := by
  intro lines w s cond
  obtain ⟨hchecks, hnone⟩ : (w.leaves (Condition.ofNode cond).leaves s).checks =
      [⟨true, (5, 8)⟩, ⟨true, (6, 27)⟩] ∧ ∀ d ∈ (w.branch cond s).1, d.message ≠ weird := by
    decide +kernel
  have hsome := checks_ne_nil_iff.1 (hchecks ▸ List.cons_ne_nil _ _)
  exact ⟨hsome, hnone, (branch_sound w cond s).2 hsome hnone⟩

end WriteCheck
end RouteCheck
