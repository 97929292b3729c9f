import RouteCheck.Proofs.Tree.RuleOrigins
import Mathlib.Data.List.Pairwise

/-!
Where the nodes of a source file come from.

Main statements:
  1. `keeps_ifStatement`, `keeps_forStatement`: the statements that have a header.
  2. `keeps_statementRule`, `keeps_read`: the rules that contain one another, by induction on how
     deep they nest.
  3. `start_eq_of_mem_scan`: tokens at one line and column begin at one byte.
  4. `allFrom_ofSource`: the nodes of a source text begin where its tokens do, and are formed.
-/

namespace RouteCheck

namespace Reader
open Node

section
variable {ts : List Token} {r : Rules}

/-! ## Declarations -/

theorem keeps_oneOrGroup {item : Read Node} (hitem : Keeps ts item (From ts)) :
    Keeps ts (oneOrGroup r item) fun p => AllFrom ts p.2 :=
  .skip (.within ((keeps_lines hitem).bind fun _ his => .expect (.pure his)))
    (hitem.bind fun _ hi => .pure (List.forall_mem_singleton.2 hi))

theorem keeps_group {item : Read Node} {kind : Kind} (hitem : Keeps ts item (From ts))
    (hkind : kind.hasForm = false) : Keeps ts (do
      let some first ← peek | failure
      let (grouped, specs) ← oneOrGroup r item
      if grouped then
        let span := { first.span with stop := (← get).last }
        return [.mk { kind, span } specs]
      return specs) (AllFrom ts) := by
  refine .peek (fun first hfirst => (keeps_oneOrGroup hitem).bind fun ⟨grouped, specs⟩ hspecs =>
    .ite (fun _ => .get fun s => ?_) fun _ => .pure hspecs) .failure
  exact List.forall_mem_singleton.2 ((from_mk hkind).2 ⟨(begins_token hfirst).stop s.last, hspecs⟩)

theorem keeps_importSpec : Keeps ts importSpec (From ts) := by
  refine keeps_node rfl (.bind (P := AllFrom ts) ?_ fun name hname =>
    keeps_stringLiteral.bind fun path hpath => .pure (by simp [hname, hpath]))
  exact .orElse (keeps_under (keeps_leaf rfl)) (.orElse (keeps_under (keeps_leaf rfl))
    (.orElse (keeps_under keeps_packageIdentifier) keeps_none))

theorem keeps_importDeclaration : Keeps ts (importDeclaration r) (From ts) :=
  keeps_node rfl (.expect (keeps_group keeps_importSpec rfl))

/-- Those of the nodes that are in field `name` are a list of names. -/
def Names (commas : Bool) (ns : List Node) : Prop :=
  IsNameList commas ((ns.filter (·.inField == some .name)).map (·.kind.isNamed))

theorem Names.append {commas : Bool} {ns others : List Node} (hns : Names commas ns)
    (hothers : ∀ n ∈ others, n.inField ≠ some .name) : Names commas (ns ++ others) := by
  have hnone : others.filter (·.inField == some .name) = [] := by
    simpa [List.filter_eq_nil_iff] using hothers
  rwa [Names, List.filter_append, hnone, List.append_nil]

theorem keeps_nameList {commas : Bool} :
    Keeps ts (nameList r commas) fun ns => AllFrom ts ns ∧ Names commas ns := by
  have hitem : Keeps ts (do
      let c ← bare ","
      let n ← identifier
      return if commas then [c.under .name, n.under .name] else [n.under .name]) fun ns =>
        AllFrom ts ns ∧ (∀ n ∈ ns, n.inField = some .name) ∧
          ns.map (·.kind.isNamed) = if commas then [false, true] else [true] := by
    refine (keeps_kind_leaf rfl).bind fun c ⟨hc, hcomma⟩ => (keeps_kind_leaf rfl).bind fun n ⟨hn, hname⟩ =>
      .pure ?_
    split
    · simp [hc, hn, hcomma, hname, Kind.isNamed]
    · simp [hn, hname, Kind.isNamed]
  refine (keeps_kind_leaf rfl).bind fun first ⟨hfirst, hname⟩ =>
    (keeps_many (keeps_peeks peeks_continues) hitem).bind fun more hmore => .pure ⟨?_, ?_⟩
  · exact allFrom_cons.2 ⟨from_under.2 hfirst, allFrom_flatten.2 fun ns hns => (hmore ns hns).1⟩
  · have hfield : ∀ n ∈ first.under .name :: more.flatten, n.inField = some .name := by
      refine List.forall_mem_cons.2 ⟨inField_under, fun n hn => ?_⟩
      obtain ⟨ns, hns, hn⟩ := List.mem_flatten.1 hn
      exact (hmore ns hns).2.1 n hn
    -- every repetition gives the same kinds, so that their number decides
    have hmap : more.map (fun ns => ns.map (·.kind.isNamed)) =
        List.replicate more.length (if commas then [false, true] else [true]) := by
      refine List.eq_replicate_iff.2 ⟨List.length_map _, fun named hnamed => ?_⟩
      obtain ⟨ns, hns, rfl⟩ := List.mem_map.1 hnamed
      exact (hmore ns hns).2.2
    refine ⟨more.length, ?_⟩
    rw [List.filter_eq_self.2 fun n hn => by simp [hfield n hn], List.map_cons, List.map_flatten,
      hmap, kind_under, hname]
    rfl

end

section
variable {ts : List Token} {r : Rules} (h : r.Keep ts)
include h

theorem keeps_initialValues : Keeps ts (initialValues r) fun vs =>
    AllFrom ts vs ∧ ∀ v ∈ vs, v.inField ≠ some .name := by
  refine .peeks peeks_continues fun _ => .ite (fun _ => .expect ?_) fun _ =>
    .pure ⟨allFrom_nil, List.forall_mem_nil _⟩
  exact (keeps_expressionList h).bind fun v hv => .pure (by simpa using hv)

theorem keeps_withValues {commas : Bool} {ns : List Node} (hns : AllFrom ts ns)
    (hnames : Names commas ns) :
    Keeps ts (do return ns ++ (← initialValues r)) fun ns => AllFrom ts ns ∧ Names commas ns :=
  (keeps_initialValues h).bind fun _ hvs =>
    .pure ⟨allFrom_append.2 ⟨hns, hvs.1⟩, hnames.append hvs.2⟩

theorem keeps_typedValues {commas : Bool} {ns : List Node} {t : Node} (hns : AllFrom ts ns)
    (hnames : Names commas ns) (ht : t.From ts) :
    Keeps ts (do return ns ++ [t.under .type] ++ (← initialValues r)) fun ns =>
      AllFrom ts ns ∧ Names commas ns :=
  keeps_withValues h (by simp [hns, ht]) (hnames.append (by simp))

omit h in
theorem formed_of_names {n : Node} (hkind : n.kind = .varSpec ∨ n.kind = .constSpec)
    (hn : Names (n.kind == .constSpec) n.children) : n.Formed where
  condition hif := absurd hkind (by simp [hif])
  header hfor := absurd hkind (by simp [hfor])
  names _ := hn

theorem keeps_constSpec : Keeps ts (constSpec r) (From ts) := by
  refine keeps_node_of (P := Names true) (keeps_nameList.bind fun names hnames =>
    .peeks peeks_ended fun _ => .ite (fun _ => .pure hnames) fun _ => .peeks peeks_nextIs fun _ =>
    .peeks peeks_nextIs fun _ => .ite (fun _ => keeps_withValues h hnames.1 hnames.2) fun _ =>
    h.type.bind fun t ht => keeps_typedValues h hnames.1 hnames.2 ht) ?_
  exact fun n hkind hn => formed_of_names (.inr hkind) (by rwa [hkind])

theorem keeps_varSpec : Keeps ts (varSpec r) (From ts) := by
  refine keeps_node_of (P := Names false) (keeps_nameList.bind fun names hnames =>
    .peeks peeks_nextIs fun _ => .ite (fun _ => keeps_withValues h hnames.1 hnames.2) fun _ =>
    h.type.bind fun t ht => keeps_typedValues h hnames.1 hnames.2 ht) ?_
  exact fun n hkind hn => formed_of_names (.inl hkind) (by rwa [hkind])

theorem keeps_constDeclaration : Keeps ts (constDeclaration r) (From ts) :=
  keeps_node rfl (.expect ((keeps_oneOrGroup (keeps_constSpec h)).bind fun _ hp => .pure hp))

theorem keeps_varDeclaration : Keeps ts (varDeclaration r) (From ts) :=
  keeps_node rfl (.expect (keeps_group (keeps_varSpec h) rfl))

theorem keeps_typeParameterList : Keeps ts (typeParameterList r) (From ts) := by
  have hdeclaration : Keeps ts (typeParameterDeclaration r) (From ts) :=
    keeps_node rfl ((keeps_sepBy keeps_identifier).bind fun names hnames =>
      (keeps_typeElem h).bind fun t ht =>
        .pure (allFrom_append.2 ⟨allFrom_map_under.2 hnames, by simpa using ht⟩))
  exact keeps_node rfl (.expect (.within ((keeps_listUntil hdeclaration).bind fun _ hps =>
    .expect (.ite (fun _ => .failure) fun _ => .pure hps))))

theorem keeps_typeSpec : Keeps ts (typeSpec r) (From ts) := by
  refine keeps_typeIdentifier.bind fun name hname =>
    .bind (.orElse (keeps_under (keeps_typeParameterList h)) keeps_none) fun params hparams =>
      keeps_skip.bind fun isAlias _ => h.type.bind fun t ht =>
        keeps_nodeFrom (by split <;> rfl) hname (by simp [hname, hparams, ht])

theorem keeps_typeDeclaration : Keeps ts (typeDeclaration r) (From ts) :=
  keeps_node rfl (.expect ((keeps_oneOrGroup (keeps_typeSpec h)).bind fun _ hp => .pure hp))

theorem keeps_optionalBody {ns : List Node} (hns : AllFrom ts ns) :
    Keeps ts (do return ns ++ (← optionalBody r)) (AllFrom ts) := by
  have hbody : Keeps ts (optionalBody r) (AllFrom ts) :=
    .peeks peeks_continues fun _ => .ite (fun _ => keeps_under h.block) fun _ => keeps_none
  exact hbody.bind fun _ hvs => .pure (allFrom_append.2 ⟨hns, hvs⟩)

theorem keeps_functionDeclaration : Keeps ts (functionDeclaration r) (From ts) := by
  refine keeps_node rfl (.expect (keeps_identifier.bind fun name hname =>
    .peeks peeks_nextIs fun _ => .ite (fun _ => ?_) fun _ => .let_pure ?_))
  · exact (keeps_typeParameterList h).bind fun ps hps => .let_pure ((keeps_signature h).bind
      fun sig hsig => keeps_optionalBody h (by simp [hname, hps, hsig]))
  · exact (keeps_signature h).bind fun sig hsig => keeps_optionalBody h (by simp [hname, hsig])

theorem keeps_methodDeclaration : Keeps ts (methodDeclaration r) (From ts) :=
  keeps_node rfl (.expect ((keeps_parameterList h).bind fun receiver hreceiver =>
    keeps_fieldIdentifier.bind fun name hname => (keeps_signature h).bind fun sig hsig =>
      keeps_optionalBody h (by simp [hreceiver, hname, hsig])))

/-! ## Simple statements -/

variable {left : Node} (hleft : left.From ts)

omit h in
include hleft in
theorem keeps_onlyPart : Keeps ts (onlyPart left) (From ts) := by
  unfold onlyPart
  split
  · next e he => exact .pure (hleft.children e (by simp [he]))
  · exact .failure

include hleft in
theorem keeps_simpleFrom : Keeps ts (simpleFrom r left) (From ts) := by
  have hwrap {kind : Kind} (hkind : kind.hasForm = false) :
      Keeps ts (onlyPart left >>= fun e => nodeFrom left kind [e]) (From ts) :=
    (keeps_onlyPart hleft).bind fun e he =>
      keeps_nodeFrom hkind hleft (List.forall_mem_singleton.2 he)
  refine .peeks peeks_broken fun _ => .ite (fun _ => hwrap rfl) fun _ =>
    .skip ?_ (.skip (hwrap rfl) (.skip (hwrap rfl) (.skip ?_ (keeps_operator?.bind fun op? hop => ?_))))
  · exact (keeps_expressionList h).bind fun right hright =>
      keeps_nodeFrom rfl hleft (by simp [hleft, hright])
  · exact (keeps_onlyPart hleft).bind fun c hc => h.expression.bind fun v hv =>
      keeps_nodeFrom rfl hleft (by simp [hc, hv])
  · cases op? with
    | none => exact hwrap rfl
    | some op =>
      exact (keeps_expressionList h).bind fun right hright =>
        keeps_nodeFrom rfl hleft (by simp [hleft, hop op rfl, hright])

theorem keeps_simpleStatement : Keeps ts (simpleStatement r) (From ts) :=
  (keeps_expressionList h).bind fun _ hn => keeps_simpleFrom h hn

/-! ## Control statements -/

theorem keeps_statementList : Keeps ts (statementList r) (AllFrom ts) := by
  refine .peek (fun first hfirst => (keeps_lines h.statement).bind fun ss hss =>
    .ite (fun _ => keeps_none) fun _ => .get fun s => ?_) keeps_none
  exact List.forall_mem_singleton.2 ((from_mk rfl).2 ⟨(begins_token hfirst).stop s.last, hss⟩)

theorem keeps_blockRule : Keeps ts (blockRule r) (From ts) :=
  keeps_node rfl (.expect (.within ((keeps_statementList h).bind fun _ hss => .expect (.pure hss))))

/-- The parts of a conditional statement have a condition among them. -/
def Conditioned (ns : List Node) : Prop := ∃ c ∈ ns, c.inField = some .condition

omit h in
theorem formed_of_conditioned {n : Node} (hkind : n.kind = .ifStatement)
    (hn : Conditioned n.children) : n.Formed where
  condition _ := by
    obtain ⟨c, hc, hfield⟩ := hn
    refine Option.isSome_iff_exists.1 (List.find?_isSome.2 ⟨c, hc, ?_⟩)
    simp [hfield]
  header hfor := absurd (hkind.symm.trans hfor) (by decide)
  names hspec := absurd hkind (by rcases hspec with hspec | hspec <;> simp [hspec])

theorem keeps_ifHeader : Keeps ts (inHeader do
    let s ← simpleStatement r
    if ← skip? ";" then
      return [s.under .initializer, (← r.expression).under .condition]
    match s.kind, s.children with
    | .expressionStatement, [e] => return [e.under .condition]
    | _, _ => failure) fun ns => AllFrom ts ns ∧ Conditioned ns := by
  refine .within ((keeps_simpleStatement h).bind fun s hs => .skip ?_ ?_)
  · exact h.expression.bind fun e he => .pure ⟨by simp [hs, he], by simp [Conditioned]⟩
  · refine .ite (fun hp => absurd hp Bool.false_ne_true) fun _ => ?_
    split
    · next e _ he =>
      have he : e.From ts := hs.children e (by simp [he])
      exact .pure ⟨by simp [he], by simp [Conditioned]⟩
    · exact .failure

theorem keeps_ifStatement : Keeps ts (ifStatement r) (From ts) := by
  refine keeps_node_of (P := Conditioned) (.expect ((keeps_ifHeader h).bind fun head hparts =>
    h.block.bind fun body hbody => ?_)) fun _ => formed_of_conditioned
  obtain ⟨hparts, c, hc, hfield⟩ := hparts
  have hdone {alternative : List Node} (halternative : AllFrom ts alternative) :
      AllFrom ts (head ++ [body.under .consequence] ++ alternative) ∧
        Conditioned (head ++ [body.under .consequence] ++ alternative) :=
    ⟨by simp [hparts, hbody, halternative], c, by simp [hc], hfield⟩
  refine .skip (.ite (fun _ => .peeks peeks_nextIs fun _ => .ite (fun _ => ?_) fun _ => ?_)
    fun hne => absurd rfl hne) (.let_pure (.pure (hdone allFrom_nil)))
  · exact h.block.bind fun a ha => .let_pure (.pure (hdone (by simpa using ha)))
  · exact h.statement.bind fun a ha => .let_pure (.pure (hdone (by simpa using ha)))

theorem keeps_forClauseFrom : Keeps ts (forClauseFrom r) (AllFrom ts) := by
  have hrest {condition : List Node} (hcondition : AllFrom ts condition) : Keeps ts (do
      expect ";"
      let update ← if ← nextIs openBrace then pure [] else
        pure [(← simpleStatement r).under .update]
      return condition ++ update) (AllFrom ts) :=
    .expect (.peeks peeks_nextIs fun _ => .ite
      (fun _ => .let_pure (.pure (by simpa using hcondition)))
      fun _ => (keeps_simpleStatement h).bind fun s hs =>
        .let_pure (.pure (by simp [hcondition, hs])))
  exact .peeks peeks_nextIs fun _ => .ite (fun _ => .let_pure (hrest allFrom_nil)) fun _ =>
    h.expression.bind fun e he => .let_pure (hrest (by simpa using he))

theorem keeps_forHeader :
    Keeps ts (forHeader r) fun ns => AllFrom ts ns ∧ ns.length ≤ 1 := by
  have hone {n : Node} (hn : n.From ts) : AllFrom ts [n] ∧ [n].length ≤ 1 :=
    ⟨List.forall_mem_singleton.2 hn, Nat.le_refl _⟩
  refine .peeks peeks_nextIs fun _ => .ite (fun _ => .pure ⟨allFrom_nil, Nat.zero_le _⟩) fun _ =>
    .peek (fun first hfirst => ?_) .failure
  have hbegins (stop : Nat) : Begins ts { first.span with stop } := (begins_token hfirst).stop stop
  refine .skip ?_ (.skip ?_ ((keeps_expressionList h).bind fun left hleft => .orElse ?_ ?_))
  · exact (keeps_forClauseFrom h).bind fun parts hparts =>
      .get_bind fun s => hone ((from_mk rfl).2 ⟨hbegins _, hparts⟩)
  · exact h.expression.bind fun x hx =>
      .get_bind fun s => hone ((from_mk rfl).2 ⟨hbegins _, by simpa using hx⟩)
  · exact .bind (.orElse keeps_bare keeps_bare) fun mark hmark => .expect (h.expression.bind
      fun x hx => .get_bind fun s =>
        hone ((from_mk rfl).2 ⟨hbegins _, by simp [hleft, hmark, hx]⟩))
  · refine (keeps_simpleFrom h hleft).bind fun s hs => .skip ?_ ?_
    · exact (keeps_forClauseFrom h).bind fun parts hparts =>
        .get_bind fun _ => hone ((from_mk rfl).2 ⟨hbegins _, by simp [hs, hparts]⟩)
    · refine .ite (fun hp => absurd hp Bool.false_ne_true) fun _ => ?_
      split
      · next e _ he => exact .pure (hone (hs.children e (by simp [he])))
      · exact .failure

theorem keeps_forStatement : Keeps ts (forStatement r) (From ts) := by
  refine keeps_node_of (P := fun ns => ∃ head : List Node, ∃ body : Node,
      ns = head ++ [body.under .body] ∧ head.length ≤ 1)
    (.expect (.bind (.within (keeps_forHeader h)) fun head hhead => h.block.bind fun body hbody =>
      .pure ⟨by simp [hhead.1, hbody], head, body, rfl, hhead.2⟩)) ?_
  rintro n hkind ⟨head, body, hn, hlength⟩
  refine ⟨fun hif => absurd (hkind.symm.trans hif) (by decide), fun _ => ?_, fun hspec =>
    absurd hkind (by rcases hspec with hspec | hspec <;> simp [hspec])⟩
  rw [Node.named, hn, List.filter_append, List.filter_append]
  refine Nat.le_trans ?_ hlength
  have hbody : (([body.under .body].filter (·.kind.isNamed)).filter
      (·.inField != some .body)).length = 0 := by
    rw [List.length_eq_zero_iff, List.filter_filter]
    simp
  rw [List.length_append, hbody]
  exact Nat.le_trans (List.length_filter_le _ _) (List.length_filter_le _ _)

/-! ## Clauses -/

theorem keeps_clauseBody : Keeps ts (clauseBody r) (AllFrom ts) := .expect (keeps_statementList h)

theorem keeps_defaultCase : Keeps ts (defaultCase r) (From ts) :=
  keeps_node rfl (.expect (keeps_clauseBody h))

theorem keeps_expressionCase : Keeps ts (expressionCase r) (From ts) :=
  keeps_node rfl (.expect ((keeps_expressionList h).bind fun v hv => (keeps_clauseBody h).bind
    fun ss hss => .pure (by simp [hv, hss])))

theorem keeps_typeCase : Keeps ts (typeCase r) (From ts) := by
  have hitem : Keeps ts (do
      let c ← bare ","
      let t ← r.type
      return [c.under .type, t.under .type]) (AllFrom ts) :=
    keeps_bare.bind fun c hc => h.type.bind fun t ht => .pure (by simp [hc, ht])
  refine keeps_node rfl (.expect (h.type.bind fun first hfirst =>
    (keeps_many (keeps_peeks peeks_nextIs) hitem).bind fun more hmore =>
      (keeps_clauseBody h).bind fun ss hss => .pure ?_))
  have hflat : AllFrom ts more.flatten := allFrom_flatten.2 hmore
  simp [hfirst, hflat, hss]

theorem keeps_communication : Keeps ts (communication r) (From ts) := by
  refine (keeps_expressionList h).bind fun left hleft => keeps_skip.bind fun _ _ =>
    keeps_skip.bind fun _ _ => .ite (fun _ => ?_) fun _ => .skip ?_ ?_
  · exact h.expression.bind fun e he => keeps_nodeFrom rfl hleft (by simp [hleft, he])
  · exact h.expression.bind fun v hv => keeps_nodeFrom rfl hleft (by simp [hleft.children, hv])
  · exact keeps_nodeFrom rfl hleft (by simp [hleft.children])

theorem keeps_communicationCase : Keeps ts (communicationCase r) (From ts) :=
  keeps_node rfl (.expect ((keeps_communication h).bind fun c hc => (keeps_clauseBody h).bind
    fun ss hss => .pure (by simp [hc, hss])))

theorem keeps_clauses {clause : Read Node} (hclause : Keeps ts clause (From ts)) :
    Keeps ts (clauses r clause) (AllFrom ts) := by
  refine .expect (.within ((keeps_many (keeps_peeks (.bind peeks_nextIs fun _ => .pure _))
    ?_).bind fun _ hcs => .expect (.pure hcs)))
  exact .peeks peeks_nextIs fun _ => .ite (fun _ => keeps_defaultCase h) fun _ => hclause

theorem keeps_selectStatement : Keeps ts (selectStatement r) (From ts) :=
  keeps_node rfl (.expect (keeps_clauses h (keeps_communicationCase h)))

omit h in
theorem keeps_switched (initial : List Node) (last : Option Node) (hinitial : AllFrom ts initial)
    (hlast : ∀ s ∈ last, s.From ts) : Keeps ts (do
      let guard ← skip? "."
      if guard then
        expect "("
        expect "type"
        expect ")"
      match last with
      | none => return (.expressionSwitchStatement, initial)
      | some s =>
        match guard, s.kind, s.children with
        | false, .expressionStatement, [e] =>
          return (.expressionSwitchStatement, initial ++ [e.under .value])
        | true, .expressionStatement, [e] =>
          return (.typeSwitchStatement, initial ++ [e.under .value])
        | true, .shortVarDeclaration, [left, right] =>
          return (.typeSwitchStatement,
            initial ++ [left.under .alias] ++ right.children.map (·.under .value))
        | _, _, _ => failure)
      fun p : Kind × List Node => p.1.hasForm = false ∧ AllFrom ts p.2 := by
  have hmatch {guard : Bool} : Keeps ts (match last with
      | none => return (.expressionSwitchStatement, initial)
      | some s =>
        match guard, s.kind, s.children with
        | false, .expressionStatement, [e] =>
          return (.expressionSwitchStatement, initial ++ [e.under .value])
        | true, .expressionStatement, [e] =>
          return (.typeSwitchStatement, initial ++ [e.under .value])
        | true, .shortVarDeclaration, [left, right] =>
          return (.typeSwitchStatement,
            initial ++ [left.under .alias] ++ right.children.map (·.under .value))
        | _, _, _ => failure)
      fun p : Kind × List Node => p.1.hasForm = false ∧ AllFrom ts p.2 := by
    cases last with
    | none => exact .pure ⟨rfl, hinitial⟩
    | some s =>
      have hs : AllFrom ts s.children := (hlast s rfl).children
      dsimp only
      split
      · next e _ he => exact .pure ⟨rfl, by simp [hinitial, hs e (by simp [he])]⟩
      · next e _ he => exact .pure ⟨rfl, by simp [hinitial, hs e (by simp [he])]⟩
      · next left right _ he =>
        have hright : right.From ts := hs right (by simp [he])
        exact .pure ⟨rfl, by simp [hinitial, hs left (by simp [he]), hright.children]⟩
      · exact .failure
  exact .skip (.expect (.expect (.expect hmatch))) hmatch

theorem keeps_switchHeader :
    Keeps ts (switchHeader r) fun p => p.1.hasForm = false ∧ AllFrom ts p.2 := by
  refine .peeks peeks_nextIs fun _ => .ite (fun _ => .pure ⟨rfl, allFrom_nil⟩) fun _ =>
    (keeps_simpleStatement h).bind fun first hfirst => ?_
  have hinitial : AllFrom ts [first.under .initializer] := by simpa using hfirst
  refine .skip (.ite (fun _ => .peeks peeks_nextIs fun _ => .ite (fun _ => ?_) fun _ => ?_)
    fun hne => absurd rfl hne) ?_
  · have hrest : Keeps ts _ _ := keeps_switched [first.under .initializer] none hinitial nofun
    exact .let_pure (.let_pure hrest)
  · rw [bind_map_left]
    refine (keeps_simpleStatement h).bind fun s hs => .let_pure ?_
    exact keeps_switched [first.under .initializer] (some s) hinitial
      fun _ hs' => Option.some.inj hs' ▸ hs
  · refine .let_pure ?_
    exact keeps_switched [] (some first) allFrom_nil fun _ hs => Option.some.inj hs ▸ hfirst

theorem keeps_switchStatement : Keeps ts (switchStatement r) (From ts) := by
  refine .peek (fun first hfirst => .expect (.bind (.within (keeps_switchHeader h)) ?_)) .failure
  rintro ⟨kind, head⟩ ⟨hkind, hhead⟩
  have hclause : Keeps ts (if kind = .typeSwitchStatement then typeCase r else expressionCase r)
      (From ts) := .ite (fun _ => keeps_typeCase h) fun _ => keeps_expressionCase h
  exact (keeps_clauses h hclause).bind fun cs hcs => .get fun s =>
    (from_mk hkind).2 ⟨(begins_token hfirst).stop s.last, allFrom_append.2 ⟨hhead, hcs⟩⟩

/-! ## Statements -/

omit h in
theorem keeps_jump {kind : Kind} {word : String} (hkind : kind.hasForm = false) :
    Keeps ts (jump kind word) (From ts) :=
  keeps_node hkind (.expect (.peeks peeks_ended fun _ => .ite (fun _ => keeps_none) fun _ =>
    .orElse (keeps_only (keeps_leaf rfl)) keeps_none))

theorem keeps_labeledStatement : Keeps ts (labeledStatement r) (From ts) :=
  keeps_node rfl (.bind (keeps_leaf rfl) fun l hl => .expect (.peeks peeks_nextIs fun _ =>
    .peeks peeks_nextIs fun _ => .peeks peeks_nextIs fun _ =>
      .ite (fun _ => .pure (by simpa using hl)) fun _ => h.statement.bind fun s hs =>
        .pure (by simp [hl, hs])))

theorem keeps_returnStatement : Keeps ts (returnStatement r) (From ts) :=
  keeps_node rfl (.expect (.peeks peeks_ended fun _ => .peeks peeks_nextIs fun _ =>
    .peeks peeks_nextIs fun _ => .ite (fun _ => keeps_none) fun _ =>
      keeps_only (keeps_expressionList h)))

theorem keeps_statementRule : Keeps ts (statementRule r) (From ts) :=
  .peek (fun _ _ => .ite (fun _ => keeps_node rfl (.expect keeps_none)) fun _ =>
    .ite (fun _ => h.block) fun _ => .ite (fun _ => keeps_ifStatement h) fun _ =>
    .ite (fun _ => keeps_forStatement h) fun _ => .ite (fun _ => keeps_switchStatement h) fun _ =>
    .ite (fun _ => keeps_selectStatement h) fun _ =>
    .ite (fun _ => keeps_returnStatement h) fun _ => .ite (fun _ => keeps_jump rfl) fun _ =>
    .ite (fun _ => keeps_jump rfl) fun _ => .ite (fun _ => keeps_jump rfl) fun _ =>
    .ite (fun _ => keeps_node rfl (.expect keeps_none)) fun _ =>
    .ite (fun _ => keeps_node rfl (.expect (keeps_only h.expression))) fun _ =>
    .ite (fun _ => keeps_node rfl (.expect (keeps_only h.expression))) fun _ =>
    .ite (fun _ => keeps_varDeclaration h) fun _ => .ite (fun _ => keeps_constDeclaration h) fun _ =>
    .ite (fun _ => keeps_typeDeclaration h) fun _ => .peeks peeks_peekSecond fun _ =>
    .ite (fun _ => keeps_labeledStatement h) fun _ => keeps_simpleStatement h) .failure

end

/-! ## A file -/

theorem keeps_read (ts : List Token) (fuel depth : Nat) (goal : Goal) :
    Keeps ts (read fuel depth goal : Read Node) (From ts) := by
  induction depth generalizing goal with
  | zero => exact fun _ _ _ _ hrun => nomatch hrun
  | succ depth ih =>
    have h : (rulesAt fuel depth).Keep ts :=
      ⟨ih .expression, ih .unary, ih .type, ih .literalValue, ih .block, ih .statement⟩
    cases goal with
    | expression => exact keeps_expressionRule h
    | unary => exact keeps_unaryRule h
    | type => exact keeps_typeRule h
    | block => exact keeps_blockRule h
    | statement => exact keeps_statementRule h
    | literalValue => exact keeps_literalValueRule h

theorem keep_rulesAt (ts : List Token) (fuel depth : Nat) : (rulesAt fuel depth).Keep ts where
  expression := keeps_read ts fuel depth .expression
  unary := keeps_read ts fuel depth .unary
  type := keeps_read ts fuel depth .type
  literalValue := keeps_read ts fuel depth .literalValue
  block := keeps_read ts fuel depth .block
  statement := keeps_read ts fuel depth .statement

theorem keeps_declarations {ts : List Token} {r : Rules} (h : r.Keep ts) {fuel : Nat} :
    Keeps ts (declarations r fuel) (AllFrom ts) := by
  have htop : Keeps ts (topLevel r) (From ts) :=
    .orElse (keeps_node rfl (.expect (keeps_only keeps_packageIdentifier)))
      (.orElse keeps_importDeclaration (.orElse (keeps_functionDeclaration h)
        (.orElse (keeps_methodDeclaration h) h.statement)))
  have hnext : Keeps ts ((some <$> topLevel r) <|> pure none) fun d? => ∀ d ∈ d?, d.From ts := by
    refine .orElse ?_ (.pure nofun)
    rw [map_eq_pure_bind]
    exact htop.bind fun d hd => .pure fun _ hd' => Option.some.inj hd' ▸ hd
  induction fuel with
  | zero => exact keeps_none
  | succ fuel ih =>
    refine .peeks .get fun s => .ite (fun _ => keeps_none) fun _ => hnext.bind fun d? hd => ?_
    cases d? with
    | none => exact keeps_none
    | some d =>
      have hrest : Keeps ts (do return d :: (← declarations r fuel)) (AllFrom ts) :=
        ih.bind fun ds hds => .pure (allFrom_cons.2 ⟨hd d rfl, hds⟩)
      exact .peeks peeks_broken fun _ => .ite (fun _ => .discardSkip hrest) fun _ => hrest

theorem allFrom_sourceFile (ts : List Token) : AllFrom ts (sourceFile ts).children := by
  intro c hc
  unfold sourceFile at hc
  simp only [children] at hc
  split at hc
  · next ds s' hrun =>
    exact (keeps_declarations (keep_rulesAt ts _ _) { tokens := ts } ds s'
      (List.Subset.refl _) hrun).2 c hc
  · exact absurd hc List.not_mem_nil

end Reader

/-! ## Tokens -/

namespace Token

/-- The second place comes later, in bytes as well as in lines and columns. -/
structure Place.Before (p q : Place) : Prop where
  byte : p.byte < q.byte
  site : p.line < q.line ∨ p.line = q.line ∧ p.column < q.column

theorem Place.before_step (p : Place) (c : Char) : p.Before (p.step c) := by
  refine ⟨byte_lt_step p c, ?_⟩
  have := c.utf8Size_pos
  unfold Place.step
  split
  · exact .inl (Nat.lt_succ_self _)
  · exact .inr ⟨rfl, Nat.lt_add_of_pos_right this⟩

theorem Place.Before.trans {p q r : Place} (h : p.Before q) (h' : q.Before r) : p.Before r := by
  obtain ⟨hbyte, hsite⟩ := h
  obtain ⟨hbyte', hsite'⟩ := h'
  exact ⟨Nat.lt_trans hbyte hbyte', by omega⟩

theorem Place.before_advance (p : Place) (c : Char) (cs : List Char) :
    p.Before (p.advance (c :: cs)) := by
  induction cs generalizing p c with
  | nil => exact before_step p c
  | cons d cs ih => exact (before_step p c).trans (ih (p.step c) d)

def place (t : Token) : Place := ⟨t.span.start, t.span.line, t.span.column⟩

theorem pairwise_scanFrom (p : Place) (newline : Bool) (cs : List Char) :
    (∀ t ∈ scanFrom p newline cs, p = t.place ∨ p.Before t.place) ∧
      (scanFrom p newline cs).Pairwise fun t u => t.place.Before u.place := by
  have hlater {p q : Place} {ts : List Token} (h : p.Before q)
      (hq : ∀ t ∈ ts, q = t.place ∨ q.Before t.place) : ∀ t ∈ ts, p.Before t.place :=
    fun t ht => (hq t ht).elim (fun heq => heq ▸ h) h.trans
  fun_induction scanFrom p newline cs with
  | case1 => exact ⟨List.forall_mem_nil _, .nil⟩
  | case2 p newline c cs _ ih =>
    exact ⟨fun t ht => .inr (hlater (Place.before_step p c) ih.1 t ht), ih.2⟩
  | case3 p newline c cs _ _ n ih =>
    exact ⟨fun t ht => .inr (hlater (Place.before_advance p c _) ih.1 t ht), ih.2⟩
  | case4 p newline c cs _ _ _ n ih =>
    exact ⟨fun t ht => .inr (hlater (Place.before_advance p c _) ih.1 t ht), ih.2⟩
  | case5 p newline c cs _ _ _ cls n _ chars q ih =>
    have hrest := hlater (Place.before_advance p c (cs.take n)) ih.1
    refine ⟨List.forall_mem_cons.2 ⟨.inl rfl, fun t ht => .inr (hrest t ht)⟩, ?_⟩
    exact List.pairwise_cons.2 ⟨hrest, ih.2⟩

/-- Tokens of a text at one line and column begin at one byte. -/
theorem start_eq_of_mem_scan {source : String} {t u : Token} (ht : t ∈ scan source)
    (hu : u ∈ scan source) (hline : t.span.line = u.span.line)
    (hcolumn : t.span.column = u.span.column) : t.span.start = u.span.start := by
  have hpairwise : (scan source).Pairwise fun t u => t.place.Before u.place := by
    unfold scan
    split
    · exact (pairwise_scanFrom _ _ _).2
    · exact (pairwise_scanFrom {} _ _).2
  have hne {t u : Token} (h : t.place.Before u.place) :
      ¬ (t.span.line = u.span.line ∧ t.span.column = u.span.column) := by
    rintro ⟨hline, hcolumn⟩
    have hsite : t.span.line < u.span.line ∨
        t.span.line = u.span.line ∧ t.span.column < u.span.column := h.site
    omega
  by_contra hstart
  have hsymm : Std.Symm fun t u : Token => t.place.Before u.place ∨ u.place.Before t.place :=
    ⟨fun _ _ => Or.symm⟩
  have hapart : (scan source).Pairwise fun t u => t.place.Before u.place ∨ u.place.Before t.place :=
    hpairwise.imp .inl
  rcases hapart.forall ht hu fun heq => hstart (heq ▸ rfl) with h | h
  · exact hne h ⟨hline, hcolumn⟩
  · exact hne h ⟨hline.symm, hcolumn.symm⟩

end Token

/-! ## Numbers and texts -/

namespace Node

/-- Kinds and fields of the children of a node. -/
def slots (n : Node) : List (Kind × Option Field) := n.children.map fun c => (c.kind, c.inField)

theorem Formed.of_slots_eq {m n : Node} (h : m.Formed) (hkind : n.kind = m.kind)
    (hslots : n.slots = m.slots) : n.Formed where
  condition hif := by
    obtain ⟨c, hc⟩ := h.condition (hkind.symm.trans hif)
    have hslot : (c.kind, c.inField) ∈ n.slots :=
      hslots ▸ List.mem_map_of_mem (mem_children_of_field? hc)
    obtain ⟨d, hd, heq⟩ := List.mem_map.1 hslot
    have hfield : c.inField = some .condition := by simpa using List.find?_some hc
    refine Option.isSome_iff_exists.1 (List.find?_isSome.2 ⟨d, hd, ?_⟩)
    simp [(Prod.mk.inj heq).2, hfield]
  header hfor := by
    have hcount (n : Node) : (n.named.filter (·.inField != some .body)).length =
        n.slots.countP fun slot => slot.2 != some .body && slot.1.isNamed := by
      rw [Node.named, List.filter_filter, ← List.countP_eq_length_filter, slots, List.countP_map]
      rfl
    rw [hcount, hslots, ← hcount]
    exact h.header (hkind.symm.trans hfor)
  names hspec := by
    have hnames (n : Node) : (n.fields .name).map (·.kind.isNamed) =
        (n.slots.filter (·.2 == some .name)).map (·.1.isNamed) := by
      rw [Node.fields, slots, List.filter_map, List.map_map]
      rfl
    rw [hnames, hslots, ← hnames, hkind]
    exact h.names (hkind ▸ hspec)

section
variable {source : String} {k : Nat} {n : Node}

theorem span_label : (label source k n).1.span = n.span := by cases n; rfl

theorem slots_label : (label source k n).1.slots = n.slots := by
  have hlabels (k : Nat) (cs : List Node) :
      (labels source k cs).1.map (fun c => (c.kind, c.inField)) =
        cs.map fun c => (c.kind, c.inField) := by
    induction cs generalizing k with
    | nil => rfl
    | cons c cs ih => simp [labels, ih]
  cases n
  exact hlabels _ _

theorem mem_all_label {m : Node} : ∀ {k : Nat} {n : Node}, m ∈ (label source k n).1.all →
    ∃ m' ∈ n.all, ∃ k', m = (label source k' m').1
  | k, mk hd cs, hm => by
    rw [all_eq] at hm
    rcases List.mem_cons.1 hm with rfl | hm
    · exact ⟨mk hd cs, self_mem_all _, k, rfl⟩
    · obtain ⟨c, hc, hm⟩ := mem_allOf.1 hm
      obtain ⟨c', hc', k', rfl⟩ := mem_labels cs hc
      have hchild : c' ∈ (mk hd cs).children := hc'
      have := size_lt_of_mem hchild
      obtain ⟨m', hm', hlabel⟩ := mem_all_label hm
      exact ⟨m', mem_all_of_child hchild hm', hlabel⟩
termination_by _ n => n.size

theorem From.label {ts : List Token} (hn : n.From ts) : (label source k n).1.From ts := by
  intro m hm
  obtain ⟨m', hm', k', rfl⟩ := mem_all_label hm
  obtain ⟨hbegins, hformed⟩ := hn m' hm'
  refine ⟨?_, hformed.of_slots_eq kind_label slots_label⟩
  rwa [span_label]

theorem allFrom_ofSource (source : String) :
    AllFrom (Token.scan source) (ofSource source).children := by
  intro c hc
  obtain ⟨c', hc', k, rfl⟩ := mem_labels (Reader.sourceFile (Token.scan source)).children hc
  exact From.label (Reader.allFrom_sourceFile (Token.scan source) c' hc')

end
end Node
end RouteCheck
