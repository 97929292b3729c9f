import RouteCheck.Proofs.Tree.ExpressionReads

/-!
What the rules for declarations and statements read lies in order.

Main statements:
  1. `yields_declaring`: a declaring node whose entered part is read last.
  2. `yields_functionDeclaration`, `yields_methodDeclaration`, `yields_constSpec`, `yields_varSpec`.
  3. `reads_simpleFrom`, `yields_forHeader`: short declarations and range clauses.
  4. `yields_blockRule`, `yields_statementRule`.
-/

namespace RouteCheck.Reader
open Node

def Any (_ : Node) : Prop := True

section
variable {b c : Bool} {pre children ns : List Node} {kind : Kind} {first n : Node} {lo hi : Nat}
  {P : Node → Prop}

theorem Gives.any (h : Gives c (One P) n lo hi) : Gives c (One Any) n lo hi := by
  obtain ⟨cs, hcs, hone, _⟩ := h
  exact ⟨cs, hcs, hone, trivial⟩

theorem Gives.singleton (h : Gives c (One P) n lo hi) : Gives c (All P) [n] lo hi := by
  obtain ⟨cs, hcs, hone, hP⟩ := h
  exact ⟨cs, hcs, hone, List.forall_mem_singleton.2 hP⟩

theorem Reads.any {r : Read Node} (h : Reads b pre r (Gives c (One P))) :
    Reads b pre r (Gives c (One Any)) := h.mono fun _ _ _ => Gives.any

theorem gives_anys (h : Laid b pre lo hi) (hb : c = true → b = true)
    (hplaced : PlacedIn pre lo hi → PlacedIn ns lo hi) : Gives c (All Any) ns lo hi :=
  gives_all h hb hplaced fun _ _ => trivial

theorem yields_none : Yields false (pure [] : Read (List Node)) (All Any) :=
  .pure fun _ _ hlaid => ⟨[], hlaid, rfl, nofun⟩

theorem yields_any {r : Read (List Node)} (hkind : kind.isLoose = true)
    (h : Yields true r (All Any)) : Yields true (node kind r) (One Any) :=
  Reads.any (yields_node hkind h)

theorem Reads.nodeFromAny (hkind : kind.isLoose = true)
    (hfirst : pre.head?.map Node.start = some first.start)
    (h : ∀ lo hi, PlacedIn pre lo hi → PlacedIn children lo hi) :
    Reads b pre (Reader.nodeFrom first kind children) (Gives true (One Any)) :=
  .nodeFrom_of hfirst h (fun _ hn _ => regular_of_isLoose (hn ▸ hkind)) fun _ _ _ => trivial

theorem gives_mkAny {h : Head} (hk : h.kind.isLoose = true) (hstart : h.span.start = lo)
    (hstop : h.span.stop = hi) (hlaid : Laid true ns lo hi) :
    Gives c (All Any) [mk h ns] lo hi :=
  .singleton (gives_one hstart hstop hlaid (regular_of_isLoose hk) trivial)

/-- Some nodes that are not in a field, and then at most one node in it. -/
def Ends (f : Field) (P : Node → Prop) (ns : List Node) : Prop :=
  ∃ cs vs, ns = cs ++ vs ∧ (∀ c ∈ cs, c.inField ≠ some f) ∧ vs.length ≤ 1 ∧ ∀ v ∈ vs, P v

/-- A declaring node whose entered part is read last. -/
theorem yields_declaring {f : Field} {r : Read (List Node)} (hf : kind.entered? = some f)
    (h : Yields true r fun ns cs => cs = ns ∧
      Ends f (fun v => kind.isFunction = false → v.Closed) ns) :
    Yields true (node kind r) (One Any) := by
  refine Reads.any (yields_node_of h fun n hn ⟨cs, vs, hchildren, hcs, hvs, hclosed⟩ => ?_)
  subst hn
  exact regular_of_append hf hchildren hcs hvs fun hfunction v hv => hclosed v hv hfunction

end

/-! ## Declarations -/

section
variable {r : Rules}

theorem yields_oneOrGroup {item : Read Node} (hitem : Yields true item (One Any)) :
    Yields true (oneOrGroup r item) fun p cs => cs = p.2 := by
  refine .skip (.within ?_) ?_
  · exact (yields_lines hitem).all.take fun items _ => .expect
      (.pure fun _ _ hlaid => ⟨_, hlaid, rfl⟩)
  · exact hitem.take fun n _ => .pure fun _ _ hlaid => ⟨_, hlaid, rfl⟩

theorem yields_group {item : Read Node} {kind : Kind} (hitem : Yields true item (One Any))
    (hkind : kind.isLoose = true) : Yields true (do
      let some first ← peek | failure
      let (grouped, specs) ← oneOrGroup r item
      if grouped then
        let span := { first.span with stop := (← get).last }
        return [.mk { kind, span } specs]
      return specs) (All Any) := by
  refine .peek (fun t => (yields_oneOrGroup hitem).bind fun ⟨grouped, specs⟩ cs hcs => ?_) .failure
  subst hcs
  exact .ite (fun _ => .get fun _ _ hlaid hstart => gives_mkAny hkind hstart rfl hlaid)
    fun _ => .pure fun _ _ hlaid _ => gives_anys hlaid (fun _ => rfl) fun h => h

theorem yields_specs {item : Read Node} (hitem : Yields true item (One Any)) :
    Yields true (do return (← oneOrGroup r item).2) (All Any) := by
  refine (yields_oneOrGroup hitem).bind fun p _ hp => .pure fun _ _ hlaid => ?_
  subst hp
  exact gives_anys hlaid (fun _ => rfl) fun h => h

theorem yields_importSpec : Yields true importSpec (One Any) := by
  have hname {x : Read Node} (hx : Yields true x (One Plain)) :
      Yields false (do return [(← x).under .name]) (All Any) := by
    refine hx.take fun n _ => .pure fun _ _ hlaid => ?_
    exact gives_anys hlaid nofun (by simp [PlacedIn])
  refine yields_any rfl (Yields.take (.orElse (hname (yields_leaf rfl rfl)) (.orElse
    (hname (yields_leaf rfl rfl)) (.orElse (hname yields_packageIdentifier) yields_none)))
    fun name _ => yields_stringLiteral.take fun path _ => .pure fun _ _ hlaid => ?_)
  exact gives_anys hlaid (fun _ => rfl) (by simp [placedIn_append_iff, PlacedIn])

theorem yields_importDeclaration : Yields true (importDeclaration r) (One Any) :=
  yields_any rfl (.expect (Reads.weaken (yields_group yields_importSpec rfl) nofun))

theorem yields_nameList {commas : Bool} :
    Yields true (nameList r commas) (All fun n => n.inField = some .name) := by
  have hitem : Yields true (do
      let c ← bare ","
      let n ← identifier
      return if commas then [c.under .name, n.under .name] else [n.under .name])
      (Made (fun ns => ns) fun ns => ∀ n ∈ ns, n.inField = some .name) := by
    refine yields_bare.take fun c _ => yields_identifier.take fun n _ =>
      .pure fun _ _ hlaid => ?_
    split
    · exact ⟨_, ⟨hlaid.1, by simpa [PlacedIn] using hlaid.2⟩, rfl, by simp⟩
    · have hname : PlacedIn [n] _ _ := hlaid.2.sublist (by simp)
      exact ⟨_, ⟨hlaid.1, by simpa [PlacedIn] using hname⟩, rfl, by simp⟩
  refine yields_identifier.take fun first _ =>
    (yields_many (yields_peeks peeks_continues) hitem).take fun more hnames =>
      .pure fun _ _ hlaid => ?_
  refine gives_all hlaid (fun _ => rfl) ?_ (List.forall_mem_cons.2 ⟨inField_under, ?_⟩)
  · simp [PlacedIn, List.flatMap_id']
  · intro n hn
    obtain ⟨ns, hns, hn⟩ := List.mem_flatten.1 hn
    exact hnames ns hns n hn

end

section
variable {r : Rules} (h : r.Sound)
include h

theorem yields_initialValues : Yields false (initialValues r) fun vs cs =>
    cs = vs ∧ vs.length ≤ 1 ∧ ∀ v ∈ vs, v.Closed := by
  refine .peeks peeks_continues fun _ => .ite (fun _ => .expect ?_) fun _ =>
    .pure fun _ _ hlaid => ?_
  · refine (yields_expressionList h).take fun v hplain => .pure fun _ _ hlaid => ?_
    exact ⟨_, ⟨by simp, by simpa [PlacedIn] using hlaid.2⟩, rfl, Nat.le_refl _,
      by simpa using hplain.closed⟩
  · exact ⟨[], hlaid, rfl, Nat.zero_le _, List.forall_mem_nil _⟩

theorem reads_initialValues {pre ns : List Node}
    (hplaced : ∀ lo hi, PlacedIn pre lo hi → PlacedIn ns lo hi)
    (hns : ∀ n ∈ ns, n.inField ≠ some .value) {P : Node → Prop} (hP : ∀ v, v.Closed → P v) :
    Reads true pre (do return ns ++ (← initialValues r))
      (Gives true fun ns cs => cs = ns ∧ Ends .value P ns) := by
  refine .replace _ hplaced ((yields_initialValues h).take fun vs hvs => .pure fun _ _ hlaid => ?_)
  obtain ⟨hlength, hclosed⟩ := hvs
  exact ⟨_, hlaid, rfl, ns, _, rfl, hns, hlength, fun v hv => hP v (hclosed v hv)⟩

theorem yields_constSpec : Yields true (constSpec r) (One Any) := by
  refine yields_declaring (f := .value) rfl
    (yields_nameList.take fun names hfields => ?_)
  have hns : ∀ n ∈ names, n.inField ≠ some .value := fun n hn => by simp [hfields n hn]
  refine .peeks peeks_ended fun _ => .ite (fun _ => .pure fun _ _ hlaid => ?_) fun _ =>
    .peeks peeks_nextIs fun _ => .peeks peeks_nextIs fun _ => .ite (fun _ => ?_) fun _ => ?_
  · exact ⟨_, hlaid, rfl, names, [], (List.append_nil _).symm, hns, Nat.zero_le _, nofun⟩
  · exact reads_initialValues h (fun _ _ h => h) hns fun _ hv _ => hv
  · refine h.type.take fun t _ => reads_initialValues h ?_ ?_ fun _ hv _ => hv
    · simp [placedIn_append_iff, PlacedIn]
    · simpa [or_imp, forall_and] using hns

theorem yields_constDeclaration : Yields true (constDeclaration r) (One Any) :=
  yields_any rfl (.expect (Reads.weaken (yields_specs (yields_constSpec h)) nofun))

theorem yields_varSpec : Yields true (varSpec r) (One Any) := by
  refine yields_declaring (f := .value) rfl
    (yields_nameList.take fun names hfields => ?_)
  have hns : ∀ n ∈ names, n.inField ≠ some .value := fun n hn => by simp [hfields n hn]
  refine .peeks peeks_nextIs fun _ => .ite
    (fun _ => reads_initialValues h (fun _ _ h => h) hns fun _ hv _ => hv) fun _ => ?_
  refine h.type.take fun t _ => reads_initialValues h ?_ ?_ fun _ hv _ => hv
  · simp [placedIn_append_iff, PlacedIn]
  · simpa [or_imp, forall_and] using hns

theorem yields_varDeclaration : Yields true (varDeclaration r) (One Any) :=
  yields_any rfl (.expect (Reads.weaken (yields_group (yields_varSpec h) rfl) nofun))

theorem yields_typeParameterDeclaration : Yields true (typeParameterDeclaration r) (One Any) := by
  refine yields_any rfl ((yields_sepBy yields_identifier).all.take fun names _ =>
    (yields_typeElem h).take fun t _ => .pure fun _ _ hlaid => ?_)
  exact gives_anys hlaid (fun _ => rfl) (by simp [placedIn_append_iff, PlacedIn])

theorem yields_typeParameterList : Yields true (typeParameterList r) (One Any) := by
  refine yields_any rfl (.expect (.within ((yields_listUntil (yields_typeParameterDeclaration h)).all.take
    fun ps _ => .expect (.ite (fun _ => .failure) fun _ => .pure fun _ _ hlaid => ?_))))
  exact gives_anys hlaid (fun _ => rfl) fun h => h

theorem yields_typeSpec : Yields true (typeSpec r) (One Any) := by
  have hparams : Yields false (do return [(← typeParameterList r).under .typeParameters])
      (All Any) := by
    refine (yields_typeParameterList h).take fun n _ => .pure fun _ _ hlaid => ?_
    exact gives_anys hlaid nofun (by simp [PlacedIn])
  refine yields_typeIdentifier.take fun name _ =>
    Yields.take (.orElse hparams yields_none) fun params _ =>
      yields_skip.bind fun isAlias _ hskip => h.type.take fun t _ =>
        .nodeFromAny (by split <;> rfl) ?_ ?_
  · rfl
  · subst hskip
    simp [placedIn_append_iff, PlacedIn]

theorem yields_typeDeclaration : Yields true (typeDeclaration r) (One Any) :=
  yields_any rfl (.expect (Reads.weaken (yields_specs (yields_typeSpec h)) nofun))

theorem reads_optionalBody {pre ns : List Node} {P : Node → Prop}
    (hplaced : ∀ lo hi, PlacedIn pre lo hi → PlacedIn ns lo hi)
    (hns : ∀ n ∈ ns, n.inField ≠ some .body) (hP : ∀ v, P v) :
    Reads true pre (do return ns ++ (← optionalBody r))
      (Gives true fun ns cs => cs = ns ∧ Ends .body P ns) := by
  have hbody : Yields false (optionalBody r) fun vs cs => cs = vs ∧ vs.length ≤ 1 := by
    refine .peeks peeks_continues fun _ => .ite (fun _ => ?_) fun _ => .pure fun _ _ hlaid => ?_
    · refine h.block.take fun body _ => .pure fun _ _ hlaid => ?_
      exact ⟨_, ⟨nofun, by simpa [PlacedIn] using hlaid.2⟩, rfl, Nat.le_refl _⟩
    · exact ⟨[], hlaid, rfl, Nat.zero_le _⟩
  refine .replace _ hplaced (hbody.take fun vs hlength => .pure fun _ _ hlaid => ?_)
  exact ⟨_, hlaid, rfl, ns, _, rfl, hns, hlength, fun v _ => hP v⟩

theorem yields_functionDeclaration : Yields true (functionDeclaration r) (One Any) := by
  refine yields_declaring (f := .body) rfl (.expect (yields_identifier.take fun name _ =>
    .peeks peeks_nextIs fun _ => ?_))
  have hrest {pre params : List Node}
      (hpre : ∀ lo hi, PlacedIn pre lo hi → PlacedIn (name :: params) lo hi)
      (hparams : ∀ n ∈ params, n.inField = some .typeParameters) :
      Reads true pre (do
        let sig ← signature r
        return name.under .name :: params ++ sig ++ (← optionalBody r))
        (Gives true fun ns cs => cs = ns ∧
          Ends .body (fun v => Kind.functionDeclaration.isFunction = false → v.Closed) ns) := by
    refine .replace _ hpre ((yields_signature h).take fun sig hfields =>
      reads_optionalBody h ?_ ?_ fun _ => nofun)
    · simp [PlacedIn]
    · simp only [List.mem_append, List.mem_cons]
      rintro n ((rfl | hn) | hn)
      · simp
      · simp [hparams n hn]
      · exact (hfields n hn).2
  refine .ite (fun _ => (yields_typeParameterList h).take fun ps _ =>
    .let_pure (hrest ?_ ?_))
    fun _ => .let_pure (hrest (fun _ _ h => h) (List.forall_mem_nil _))
  · simp [PlacedIn]
  · simp

theorem yields_methodDeclaration : Yields true (methodDeclaration r) (One Any) := by
  refine yields_declaring (f := .body) rfl (.expect ((yields_parameterList h).take
    fun receiver _ => yields_fieldIdentifier.take fun name _ =>
      (yields_signature h).take fun sig hfields =>
        reads_optionalBody h ?_ ?_ fun _ => nofun))
  · simp [PlacedIn]
  · simp only [List.mem_append, List.mem_cons]
    rintro n ((rfl | rfl | hn) | hn)
    · simp
    · simp
    · exact absurd hn List.not_mem_nil
    · exact (hfields n hn).2

/-! ## Simple statements -/

variable {left : Node}

def onlyPart (n : Node) : Read Node :=
  match n.children with
  | [e] => pure e
  | _ => failure

omit h in
theorem reads_onlyPart {b : Bool} {pre : List Node} {post : Node → Nat → Nat → Prop}
    {k : Node → Read Node} (hk : ∀ e, left.children = [e] → Reads b pre (k e) post) :
    Reads b pre (onlyPart left >>= k) post := by
  unfold onlyPart
  split
  · next e he => exact .let_pure (hk e he)
  · exact fun _ _ _ _ _ _ _ hrun => nomatch hrun

theorem reads_simpleFrom : Reads true [left] (simpleFrom r left) (Gives true (One Any)) := by
  have hwrap {kind : Kind} (hkind : kind.isLoose = true) :
      Reads true [left] (onlyPart left >>= fun e => nodeFrom left kind [e])
        (Gives true (One Any)) := by
    refine reads_onlyPart fun e he => .nodeFromAny hkind rfl fun lo hi hlaid => ?_
    simpa [he] using hlaid.opened
  refine .peeks peeks_broken fun _ => .ite (fun _ => hwrap rfl) fun _ => ?_
  refine .skip ?_ (.skip (hwrap rfl) (.skip (hwrap rfl) (.skip ?_ ?_)))
  · refine (yields_expressionList h).take fun right hplain => ?_
    refine .nodeFrom_of rfl (by simp [PlacedIn]) (fun n hn hchildren => ?_) fun _ _ _ => trivial
    have hparts : n.children = [left.under .left] ++ [right.under .right] := hchildren
    exact regular_of_append (f := .right) (by rw [hn]; rfl) hparts (by simp) (Nat.le_refl _)
      fun _ => by simpa using hplain.closed
  · refine reads_onlyPart fun e he => h.expression.take fun v _ => .nodeFromAny rfl rfl ?_
    intro lo hi hlaid
    have hparts := hlaid.opened
    rw [he] at hparts
    simpa [PlacedIn] using hparts
  · refine yields_operator?.take fun op? _ => ?_
    cases op? with
    | none => exact hwrap rfl
    | some op =>
      refine (yields_expressionList h).take fun right _ => ?_
      exact .nodeFromAny rfl rfl (by simp [PlacedIn])

theorem yields_simpleStatement : Yields true (simpleStatement r) (One Any) := by
  refine (yields_expressionList h).take fun left _ => ?_
  exact reads_simpleFrom h

/-! ## Control statements -/

theorem yields_statementList : Yields false (statementList r) (All Any) := by
  refine .peek (fun t => (yields_lines h.statement).all.take fun ss _ => ?_) yields_none
  refine .ite (fun _ => .pure fun _ _ hlaid _ => ?_) fun hne => .get fun _ _ hlaid hstart => ?_
  · exact ⟨[], ⟨nofun, trivial⟩, rfl, nofun⟩
  · have hlt := hlaid.2.lt fun hnil => hne (List.isEmpty_iff.2 hnil)
    exact gives_mkAny rfl hstart rfl ⟨fun _ => hlt, hlaid.2⟩

theorem yields_blockRule : Yields true (blockRule r) (One Any) := by
  refine yields_any rfl (.expect (.within ((yields_statementList h).take fun ss _ =>
    .expect (.pure fun _ _ hlaid => ?_))))
  exact gives_anys hlaid (fun _ => rfl) fun h => h

omit h in
theorem gives_only {b : Bool} {s e : Node} {f : Field} {lo hi : Nat} (he : s.children = [e])
    (hlaid : Laid b [s] lo hi) (hb : b = true) : Gives true (All Any) [e.under f] lo hi := by
  refine gives_anys hlaid (fun _ => hb) fun hs => ?_
  have hparts := hs.opened
  rw [he] at hparts
  simpa [PlacedIn] using hparts

theorem yields_ifStatement : Yields true (ifStatement r) (One Any) := by
  refine yields_any rfl (.expect (Yields.take (?_ : Yields true _ (All Any)) fun head _ =>
    h.block.take fun body _ => ?_))
  · refine .within ((yields_simpleStatement h).take fun s _ => .skip ?_ ?_)
    · refine h.expression.take fun e _ => .pure fun _ _ hlaid => ?_
      exact gives_anys hlaid (fun _ => rfl) (by simp [PlacedIn])
    · refine .ite (fun hp => absurd hp Bool.false_ne_true) fun _ => ?_
      split
      · next e _ he => exact .pure fun _ _ hlaid => gives_only he hlaid rfl
      · exact .failure
  have hlast {x : Read Node} (hx : Yields true x (One Any)) : Reads true (head ++ [body])
      (x >>= fun a => pure [a.under .alternative] >>= fun alternative =>
        pure (head ++ [body.under .consequence] ++ alternative)) (Gives true (All Any)) := by
    refine hx.take fun a _ => .let_pure (.pure fun _ _ hlaid => ?_)
    exact gives_anys hlaid (fun _ => rfl) (by simp [placedIn_append_iff, PlacedIn])
  refine .skip (.ite (fun _ => .peeks peeks_nextIs fun _ => .ite (fun _ => hlast h.block)
    fun _ => hlast h.statement) fun hne => absurd rfl hne) (.let_pure (.pure fun _ _ hlaid => ?_))
  exact gives_anys hlaid (fun _ => rfl) (by simp [placedIn_append_iff, PlacedIn])

theorem yields_forClauseFrom : Yields true (forClauseFrom r) (All Any) := by
  have hrest {b : Bool} {pre condition : List Node}
      (hpre : ∀ lo hi, PlacedIn pre lo hi → PlacedIn condition lo hi) : Reads b pre (do
        expect ";"
        let update ← if ← nextIs openBrace then pure [] else
          pure [(← simpleStatement r).under .update]
        return condition ++ update) (Gives true (All Any)) := by
    refine .replace _ hpre (.expect (.peeks peeks_nextIs fun _ => .ite
      (fun _ => .let_pure (.pure fun _ _ hlaid => gives_anys hlaid (fun _ => rfl) (by simp)))
      fun _ => (yields_simpleStatement h).take fun s _ =>
        .let_pure (.pure fun _ _ hlaid => ?_)))
    exact gives_anys hlaid (fun _ => rfl) (by simp [placedIn_append_iff, PlacedIn])
  refine .peeks peeks_nextIs fun _ => .ite (fun _ => .let_pure (hrest fun _ _ h => h)) fun _ =>
    h.expression.take fun e _ => .let_pure (hrest ?_)
  simp [PlacedIn]

omit h in
theorem gives_rangeClause {c : Bool} {span : Span} (cs : List Node) {x : Node} {lo hi : Nat}
    (hstart : span.start = lo) (hstop : span.stop = hi)
    (hlaid : Laid true (cs ++ [x.under .right]) lo hi) (hcs : ∀ c ∈ cs, c.inField ≠ some .right)
    (hx : x.Closed) :
    Gives c (All Any) [.mk { kind := .rangeClause, span } (cs ++ [x.under .right])] lo hi :=
  .singleton (gives_one hstart hstop hlaid (regular_of_append (f := .right) rfl rfl hcs
    (Nat.le_refl _) fun _ => by simpa using hx) trivial)

omit h in
theorem yields_mark {w : String} : Yields true (bare w) (One fun n => n.inField = none) :=
  yields_leaf_of rfl fun _ => rfl

theorem yields_forHeader : Yields false (forHeader r) (All Any) := by
  refine .peeks peeks_nextIs fun _ => .ite (fun _ => yields_none) fun _ =>
    Yields.peek (fun t => ?_) .failure
  refine .skip ?_ (.skip ?_ ?_)
  · refine (yields_forClauseFrom h).take fun parts _ =>
      .get_bind fun _ _ hlaid hstart => ?_
    exact gives_mkAny rfl hstart rfl hlaid
  · refine h.expression.take fun x hclosed => .get_bind fun _ _ hlaid hstart => ?_
    exact gives_rangeClause [] hstart rfl ⟨hlaid.1, by simpa [PlacedIn] using hlaid.2⟩
      (List.forall_mem_nil _) hclosed
  · refine (yields_expressionList h).take fun left _ => ?_
    refine .orElse ?_ ?_
    · refine Yields.take (.orElse yields_mark yields_mark) fun mark hfield => .expect
        (h.expression.take fun x hclosed => .get_bind fun _ _ hlaid hstart => ?_)
      refine gives_rangeClause [left.under .left, mark] hstart rfl
        ⟨hlaid.1, by simpa [PlacedIn] using hlaid.2⟩ ?_ hclosed
      simp [hfield]
    · refine .take (reads_simpleFrom h) fun s _ => ?_
      refine .skip ?_ ?_
      · refine (yields_forClauseFrom h).take fun parts _ =>
          .get_bind fun _ _ hlaid hstart => ?_
        exact gives_mkAny rfl hstart rfl ⟨hlaid.1, by simpa [PlacedIn] using hlaid.2⟩
      · refine .ite (fun hp => absurd hp Bool.false_ne_true) fun _ => ?_
        split
        · next e _ he =>
          exact .pure fun _ _ hlaid _ =>
            gives_anys hlaid (by simp) fun hs => by simpa [he] using hs.opened
        · exact .failure

theorem yields_forStatement : Yields true (forStatement r) (One Any) := by
  refine yields_any rfl (.expect (Yields.take (.within (yields_forHeader h)) fun head _ =>
    h.block.take fun body _ => .pure fun _ _ hlaid => ?_))
  exact gives_anys hlaid (fun _ => rfl) (by simp [placedIn_append_iff, PlacedIn])

/-! ## Clauses -/

theorem yields_clauseBody : Yields true (clauseBody r) (All Any) :=
  .expect (Yields.reads (yields_statementList h))

theorem yields_defaultCase : Yields true (defaultCase r) (One Any) :=
  yields_any rfl (.expect (Reads.weaken (yields_clauseBody h) nofun))

theorem yields_expressionCase : Yields true (expressionCase r) (One Any) := by
  refine yields_any rfl (.expect ((yields_expressionList h).take fun v _ =>
    (yields_clauseBody h).take fun ss _ => .pure fun _ _ hlaid => ?_))
  exact gives_anys hlaid (fun _ => rfl) (by simp [PlacedIn])

theorem yields_typeCase : Yields true (typeCase r) (One Any) := by
  have hitem : Yields true (do
      let c ← bare ","
      let t ← r.type
      return [c.under .type, t.under .type]) (Made (fun ns => ns) fun _ => True) := by
    refine yields_bare.take fun c _ => h.type.take fun t _ =>
      .pure fun _ _ hlaid => ?_
    exact ⟨_, ⟨hlaid.1, by simpa [PlacedIn] using hlaid.2⟩, rfl, trivial⟩
  refine yields_any rfl (.expect (h.type.take fun first _ =>
    (yields_many (yields_peeks peeks_nextIs) hitem).take fun more _ =>
      (yields_clauseBody h).take fun ss _ => .pure fun _ _ hlaid => ?_))
  exact gives_anys hlaid (fun _ => rfl) (by simp [PlacedIn, List.flatMap_id'])

theorem yields_communication : Yields true (communication r) (One Any) := by
  refine (yields_expressionList h).take fun left _ => ?_
  refine yields_skip.bind fun defines _ hdefines => yields_skip.bind fun assigns _ hassigns => ?_
  subst hdefines hassigns
  refine .ite (fun _ => ?_) fun _ => .skip ?_ ?_
  · refine h.expression.take fun e _ => ?_
    exact .nodeFromAny rfl rfl (by simp [PlacedIn])
  · refine h.expression.take fun v _ => ?_
    refine .nodeFromAny rfl rfl fun lo hi hlaid => ?_
    have hparts := PlacedIn.opened hlaid
    rw [placedIn_append_iff] at hparts ⊢
    simpa [PlacedIn] using hparts
  · exact .nodeFromAny rfl rfl fun lo hi hlaid => by simpa using PlacedIn.opened hlaid

theorem yields_communicationCase : Yields true (communicationCase r) (One Any) := by
  refine yields_any rfl (.expect ((yields_communication h).take fun c _ =>
    (yields_clauseBody h).take fun ss _ => .pure fun _ _ hlaid => ?_))
  exact gives_anys hlaid (fun _ => rfl) (by simp [PlacedIn])

theorem yields_clauses {clause : Read Node} (hclause : Yields true clause (One Any)) :
    Yields true (clauses r clause) (All Any) := by
  refine .expect (.within (Yields.take (Yields.all (P := Any) (yields_many (c := true)
    (yields_peeks (.bind peeks_nextIs fun _ => .pure _)) ?_)) fun cs _ =>
      .expect (.pure fun _ _ hlaid => gives_anys hlaid (fun _ => rfl) fun h => h)))
  exact .peeks peeks_nextIs fun _ => .ite (fun _ => yields_defaultCase h) fun _ => hclause

theorem yields_selectStatement : Yields true (selectStatement r) (One Any) :=
  yields_any rfl (.expect (Reads.weaken (yields_clauses h (yields_communicationCase h)) nofun))

/-- Kind and parts of the header of a switch. -/
def Switched (p : Kind × List Node) (cs : List Node) : Prop := cs = p.2 ∧ p.1.isLoose = true

omit h in
theorem reads_switched {b : Bool} {pre : List Node} (initial : List Node) (last : Option Node)
    (hpre : ∀ lo hi, PlacedIn pre lo hi → PlacedIn (initial ++ last.toList) lo hi) :
    Reads b pre (do
      let guard ← skip? "."
      if guard then
        expect "("
        expect "type"
        expect ")"
      match last with
      | none => return (.expressionSwitchStatement, initial)
      | some s =>
        match guard, s.kind, s.children with
        | false, .expressionStatement, [e] =>
          return (.expressionSwitchStatement, initial ++ [e.under .value])
        | true, .expressionStatement, [e] =>
          return (.typeSwitchStatement, initial ++ [e.under .value])
        | true, .shortVarDeclaration, [left, right] =>
          return (.typeSwitchStatement,
            initial ++ [left.under .alias] ++ right.children.map (·.under .value))
        | _, _, _ => failure) (Gives false Switched) := by
  have hmatch {b guard : Bool} : Reads b pre (match last with
      | none => return (.expressionSwitchStatement, initial)
      | some s =>
        match guard, s.kind, s.children with
        | false, .expressionStatement, [e] =>
          return (.expressionSwitchStatement, initial ++ [e.under .value])
        | true, .expressionStatement, [e] =>
          return (.typeSwitchStatement, initial ++ [e.under .value])
        | true, .shortVarDeclaration, [left, right] =>
          return (.typeSwitchStatement,
            initial ++ [left.under .alias] ++ right.children.map (·.under .value))
        | _, _, _ => failure) (Gives false Switched) := by
    refine .replace _ hpre ?_
    cases last with
    | none => exact .pure fun _ _ hlaid => ⟨_, hlaid.weaken nofun, by simp, rfl⟩
    | some s =>
      have hopen {ns : List Node} (hns : ∀ lo hi, PlacedIn s.children lo hi → PlacedIn ns lo hi)
          {lo hi : Nat} (hlaid : PlacedIn (initial ++ [s]) lo hi) :
          PlacedIn (initial ++ ns) lo hi := by
        rw [placedIn_append_iff] at hlaid ⊢
        exact ⟨hlaid.1, hns _ _ (by simpa using hlaid.2.opened)⟩
      dsimp only
      split
      · next e _ he =>
        exact .pure fun _ _ hlaid => ⟨_, ⟨nofun, hopen (by simp [he, PlacedIn]) hlaid.2⟩, rfl, rfl⟩
      · next e _ he =>
        exact .pure fun _ _ hlaid => ⟨_, ⟨nofun, hopen (by simp [he, PlacedIn]) hlaid.2⟩, rfl, rfl⟩
      · next left right _ he =>
        refine .pure fun _ _ hlaid =>
          ⟨initial ++ [left.under .alias] ++ right.children.map (under .value), ⟨nofun, ?_⟩, rfl,
            rfl⟩
        rw [List.append_assoc]
        refine hopen (fun lo hi hparts => ?_) hlaid.2
        rw [he] at hparts
        obtain ⟨hlo, hleft, hhi, hright⟩ := hparts
        have hvalues : PlacedIn right.children left.stop hi := by simpa using hright.opened
        simpa [PlacedIn] using ⟨hlo, hleft, hhi, hvalues⟩
      · exact .failure
  exact .skip (.expect (.expect (.expect hmatch))) hmatch

theorem yields_switchHeader : Yields false (switchHeader r) Switched := by
  refine .peeks peeks_nextIs fun _ => .ite (fun _ => .pure fun _ _ hlaid => ⟨[], hlaid, rfl, rfl⟩)
    fun _ => (yields_simpleStatement h).take fun first _ => ?_
  refine .skip (.ite (fun _ => .peeks peeks_nextIs fun _ => .ite (fun _ => ?_) fun _ => ?_)
    fun hne => absurd rfl hne) ?_
  · have hrest : Reads true [first] _ (Gives false Switched) :=
      reads_switched [first.under .initializer] none (by simp [PlacedIn])
    exact .let_pure (.let_pure hrest)
  · rw [bind_map_left]
    refine (yields_simpleStatement h).take fun s _ => .let_pure ?_
    exact reads_switched [first.under .initializer] (some s) (by simp [PlacedIn])
  · refine .let_pure ?_
    exact reads_switched [] (some first) (by simp)

theorem yields_switchStatement : Yields true (switchStatement r) (One Any) := by
  refine Yields.peek (fun t => .expect (.bind (c := true)
    (.within (Yields.reads (yields_switchHeader h))) ?_)) .failure
  rintro ⟨kind, head⟩ cs ⟨hcs, hkind⟩
  subst hcs
  have hclause : Yields true (if kind = .typeSwitchStatement then typeCase r else expressionCase r)
      (One Any) := by
    split
    · exact yields_typeCase h
    · exact yields_expressionCase h
  refine (yields_clauses h hclause).take fun clauses _ =>
    .get fun _ _ hlaid hstart => ?_
  exact gives_one hstart rfl hlaid (regular_of_isLoose hkind) trivial

/-! ## Statements -/

omit h in
theorem yields_jump {kind : Kind} {word : String} (hkind : kind.isLoose = true) :
    Yields true (jump kind word) (One Any) := by
  have hnone : Reads true [] (pure [] : Read (List Node)) (Gives true (All Any)) :=
    .pure fun _ _ hlaid => ⟨[], hlaid, rfl, nofun⟩
  refine yields_any hkind (.expect (.peeks peeks_ended fun _ => .ite (fun _ => hnone) fun _ =>
    .orElse (Yields.take (yields_leaf rfl rfl) fun n _ => .pure fun _ _ hlaid => ?_) hnone))
  exact gives_anys hlaid (fun _ => rfl) fun h => h

theorem yields_labeledStatement : Yields true (labeledStatement r) (One Any) := by
  refine yields_any rfl (Yields.take (yields_leaf rfl rfl) fun l _ => .expect
    (.peeks peeks_nextIs fun _ => .peeks peeks_nextIs fun _ => .peeks peeks_nextIs fun _ =>
      .ite (fun _ => .pure fun _ _ hlaid => ?_) fun _ => h.statement.take fun s _ =>
        .pure fun _ _ hlaid => ?_))
  · exact gives_anys hlaid (fun _ => rfl) (by simp [PlacedIn])
  · exact gives_anys hlaid (fun _ => rfl) (by simp [PlacedIn])

omit h in
theorem reads_only {b : Bool} {x : Read Node} {P : Node → Prop} (hx : Yields true x (One P)) :
    Reads b [] (do return [← x]) (Gives true (All Any)) := by
  refine hx.take fun n _ => .pure fun _ _ hlaid => ?_
  exact gives_anys hlaid (fun _ => by simp) fun h => h

theorem yields_returnStatement : Yields true (returnStatement r) (One Any) := by
  refine yields_any rfl (.expect (.peeks peeks_ended fun _ => .peeks peeks_nextIs fun _ =>
    .peeks peeks_nextIs fun _ => .ite (fun _ => .pure fun _ _ hlaid => ?_) fun _ =>
      reads_only (yields_expressionList h)))
  exact ⟨[], hlaid, rfl, nofun⟩

theorem yields_statementRule : Yields true (statementRule r) (One Any) := by
  have hempty : Reads true [] (pure [] : Read (List Node)) (Gives true (All Any)) :=
    .pure fun _ _ hlaid => ⟨[], hlaid, rfl, nofun⟩
  refine .peeks peeks_peek fun t? => ?_
  cases t? with
  | none => exact .failure
  | some t =>
    refine .ite (fun _ => yields_any rfl (.expect hempty)) fun _ => .ite (fun _ => h.block) fun _ =>
      .ite (fun _ => yields_ifStatement h) fun _ => .ite (fun _ => yields_forStatement h) fun _ =>
      .ite (fun _ => yields_switchStatement h) fun _ =>
      .ite (fun _ => yields_selectStatement h) fun _ =>
      .ite (fun _ => yields_returnStatement h) fun _ => .ite (fun _ => yields_jump rfl) fun _ =>
      .ite (fun _ => yields_jump rfl) fun _ => .ite (fun _ => yields_jump rfl) fun _ =>
      .ite (fun _ => yields_any rfl (.expect hempty)) fun _ =>
      .ite (fun _ => yields_any rfl (.expect (reads_only h.expression))) fun _ =>
      .ite (fun _ => yields_any rfl (.expect (reads_only h.expression))) fun _ =>
      .ite (fun _ => yields_varDeclaration h) fun _ => .ite (fun _ => yields_constDeclaration h) fun _ =>
      .ite (fun _ => yields_typeDeclaration h) fun _ => ?_
    exact .peeks peeks_peekSecond fun _ => .ite (fun _ => yields_labeledStatement h)
      fun _ => yields_simpleStatement h

end
end RouteCheck.Reader
