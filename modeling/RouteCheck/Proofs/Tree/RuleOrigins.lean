import RouteCheck.Proofs.Tree.Origins

/-!
Where the nodes come from that the rules for types and expressions read.

Main statements:
  1. `allFrom_grouped`: the declarations that a parameter list is grouped into.
  2. `keeps_typeRule`: types.
  3. `keeps_chain`, `keeps_postfixes`: operators, and what follows an operand.
  4. `keeps_expressionRule`, `keeps_unaryRule`, `keeps_literalValueRule`.
-/

namespace RouteCheck.Reader
open Node

/-- The readers of rules that contain one another answer nodes that were read from the tokens. -/
structure Rules.Keep (ts : List Token) (r : Rules) : Prop where
  expression : Keeps ts r.expression (From ts)
  unary : Keeps ts r.unary (From ts)
  type : Keeps ts r.type (From ts)
  literalValue : Keeps ts r.literalValue (From ts)
  block : Keeps ts r.block (From ts)
  statement : Keeps ts r.statement (From ts)

section
variable {ts : List Token}

theorem keeps_identifier : Keeps ts identifier (From ts) := keeps_leaf rfl
theorem keeps_fieldIdentifier : Keeps ts fieldIdentifier (From ts) := keeps_leaf rfl
theorem keeps_typeIdentifier : Keeps ts typeIdentifier (From ts) := keeps_leaf rfl
theorem keeps_packageIdentifier : Keeps ts packageIdentifier (From ts) := keeps_leaf rfl
theorem keeps_bare {w : String} : Keeps ts (bare w) (From ts) := keeps_leaf rfl

theorem keeps_stringLiteral : Keeps ts stringLiteral (From ts) :=
  .orElse (keeps_leaf rfl) (keeps_leaf rfl)

theorem keeps_none : Keeps ts (pure [] : Read (List Node)) (AllFrom ts) := .pure allFrom_nil

theorem keeps_only {x : Read Node} (hx : Keeps ts x (From ts)) :
    Keeps ts (do return [← x]) (AllFrom ts) :=
  hx.bind fun _ hn => .pure (List.forall_mem_singleton.2 hn)

theorem keeps_under {x : Read Node} {f : Field} (hx : Keeps ts x (From ts)) :
    Keeps ts (do return [(← x).under f]) (AllFrom ts) :=
  hx.bind fun _ hn => .pure (by simpa using hn)

/-! ## Parameters -/

theorem allFrom_grouped (names : List Node) {es : List Entry} (hnames : AllFrom ts names)
    (hes : ∀ e ∈ es, AllFrom ts e.nodes) : AllFrom ts (grouped names es) := by
  induction es generalizing names with
  | nil => exact allFrom_nil
  | cons e es ih =>
    obtain ⟨he, hes⟩ := List.forall_mem_cons.1 hes
    have htype : e.type.From ts := he e.type (by simp [Entry.nodes])
    rw [grouped]
    split
    · refine ih _ ?_ hes
      simpa using ⟨hnames, htype.as rfl⟩
    · next n hname =>
      have hn : n.From ts := he n (by simp [Entry.nodes, hname])
      have hfirst : ((names ++ [n]).headD n).From ts := by
        cases names with
        | nil => exact hn
        | cons m ms => exact hnames m List.mem_cons_self
      have hkind : (if e.variadic then Kind.variadicParameterDeclaration
          else .parameterDeclaration).hasForm = false := by split <;> rfl
      refine allFrom_cons.2 ⟨(from_mk hkind).2 ⟨hfirst.begins.stop _, ?_⟩, ih [] allFrom_nil hes⟩
      simpa using ⟨hnames, hn, htype⟩

theorem allFrom_ungrouped {es : List Entry} (hes : ∀ e ∈ es, AllFrom ts e.nodes) :
    AllFrom ts (ungrouped es) := by
  refine List.forall_mem_map.2 fun e he => ?_
  have htype : e.type.From ts := hes e he e.type (by simp [Entry.nodes])
  have hkind : (if e.variadic then Kind.variadicParameterDeclaration
      else .parameterDeclaration).hasForm = false := by split <;> rfl
  exact (from_mk hkind).2 ⟨htype.begins, by simpa using htype⟩

end

section
variable {ts : List Token} {r : Rules} (h : r.Keep ts)
include h

theorem keeps_entry : Keeps ts (entry r) fun e => AllFrom ts e.nodes := by
  refine .orElse (keeps_identifier.bind fun n hn => ?_) ?_
  · exact keeps_skip.bind fun _ _ => h.type.bind fun t ht => .pure (by simp [Entry.nodes, hn, ht])
  · exact keeps_skip.bind fun _ _ => h.type.bind fun t ht => .pure (by simp [Entry.nodes, ht])

theorem keeps_parameterList : Keeps ts (parameterList r) (From ts) := by
  refine keeps_node rfl (.expect (.within ((keeps_listUntil (keeps_entry h)).bind
    fun es hes => .expect (.pure ?_))))
  split
  · exact allFrom_grouped [] allFrom_nil hes
  · exact allFrom_ungrouped hes

theorem keeps_result : Keeps ts (result r) (AllFrom ts) :=
  .peeks peeks_broken fun _ => .ite (fun _ => keeps_none) fun _ => .peeks peeks_nextIs fun _ =>
    .ite (fun _ => keeps_under (keeps_parameterList h)) fun _ => .peek
      (fun _ _ => .ite (fun _ => keeps_under h.type) fun _ => keeps_none) keeps_none

theorem keeps_signature : Keeps ts (signature r) (AllFrom ts) :=
  (keeps_parameterList h).bind fun ps hps => (keeps_result h).bind fun rs hrs =>
    .pure (by simp [hps, hrs])

/-! ## Types -/

theorem keeps_typeElem : Keeps ts (typeElem r) (From ts) := by
  refine h.type.bind fun t ht => (keeps_many ?_ h.type).bind fun more hmore =>
    .ite (fun _ => .pure ht) fun _ => keeps_nodeFrom rfl ht (List.forall_mem_cons.2 ⟨ht, hmore⟩)
  exact .peeks peeks_continues fun _ => .ite (fun _ => keeps_skip) fun _ => .pure trivial

theorem keeps_typeArguments : Keeps ts (typeArguments r) (AllFrom ts) :=
  .expect (.within ((keeps_listUntil (keeps_typeElem h)).bind fun _ hes =>
    .expect (.ite (fun _ => .failure) fun _ => .pure (allFrom_map_under.2 hes))))

theorem keeps_typeName : Keeps ts (typeName r) (From ts) := by
  refine .bind (.orElse (keeps_node rfl ?_) keeps_typeIdentifier) fun t ht => ?_
  · exact keeps_packageIdentifier.bind fun p hp => .expect (keeps_typeIdentifier.bind fun n hn =>
      .pure (by simp [hp, hn]))
  refine .peeks peeks_continues fun _ => .ite (fun _ => .orElse ?_ (.pure ht)) fun _ => .pure ht
  exact (keeps_typeArguments h).bind fun args hargs => keeps_nodeFrom rfl ht (by simp [ht, hargs])

theorem keeps_bracketType : Keeps ts (bracketType r) (From ts) := by
  refine .peek (fun first hfirst => .expect (.bind
    (P := fun p : Kind × List Node => p.1.hasForm = false ∧ AllFrom ts p.2) (.within ?_) ?_))
    .failure
  · refine .skip (.pure ⟨rfl, allFrom_nil⟩) (.skip (.expect (.pure ⟨rfl, allFrom_nil⟩)) ?_)
    exact h.expression.bind fun n hn => .expect (.pure ⟨rfl, by simpa using hn⟩)
  · rintro ⟨kind, length⟩ ⟨hkind, hlength⟩
    refine .peeks peeks_broken fun _ => .ite (fun _ => .failure) fun _ => h.type.bind fun e he =>
      .get fun s => (from_mk hkind).2 ⟨(begins_token hfirst).stop _, ?_⟩
    simpa using ⟨hlength, he⟩

theorem keeps_fieldDeclaration : Keeps ts (fieldDeclaration r) (From ts) := by
  have hnamed : Keeps ts (do
      let names ← sepBy r.fuel "," fieldIdentifier
      if ← broken then failure
      let t ← r.type
      return names.map (·.under .name) ++ [t.under .type]) (AllFrom ts) := by
    refine (keeps_sepBy keeps_fieldIdentifier).bind fun names hnames => .peeks peeks_broken fun _ =>
      .ite (fun _ => .failure) fun _ => h.type.bind fun t ht => .pure ?_
    exact allFrom_append.2 ⟨allFrom_map_under.2 hnames, by simpa using ht⟩
  have hembedded : Keeps ts (do
      if ← nextIs "*" then
        let star ← bare "*"
        return [star, (← typeName r).under .type]
      return [(← typeName r).under .type]) (AllFrom ts) := by
    refine .peeks peeks_nextIs fun _ => .ite (fun _ => ?_) fun _ => keeps_under (keeps_typeName h)
    exact keeps_bare.bind fun star hstar => (keeps_typeName h).bind fun t ht =>
      .pure (by simp [hstar, ht])
  have htag : Keeps ts (do
      if ← broken then return []
      (do return [(← stringLiteral).under .tag]) <|> return []) (AllFrom ts) :=
    .peeks peeks_broken fun _ => .ite (fun _ => keeps_none) fun _ =>
      .orElse (keeps_under keeps_stringLiteral) keeps_none
  exact keeps_node rfl (.bind (.orElse hnamed hembedded) fun parts hparts =>
    htag.bind fun tag htag => .pure (allFrom_append.2 ⟨hparts, htag⟩))

theorem keeps_structType : Keeps ts (structType r) (From ts) :=
  keeps_node rfl (.expect (keeps_only (keeps_node rfl (.expect (.within
    ((keeps_lines (keeps_fieldDeclaration h)).bind fun _ hfs => .expect (.pure hfs)))))))

theorem keeps_interfaceElement : Keeps ts (interfaceElement r) (From ts) := by
  refine .orElse (keeps_node rfl (keeps_fieldIdentifier.bind fun n hn => ?_)) (keeps_typeElem h)
  exact .peeks peeks_nextIs fun _ => .ite (fun _ => .failure) fun _ =>
    (keeps_signature h).bind fun sig hsig => .pure (by simp [hn, hsig])

theorem keeps_interfaceType : Keeps ts (interfaceType r) (From ts) :=
  keeps_node rfl (.expect (.expect (.within ((keeps_lines (keeps_interfaceElement h)).bind
    fun _ hes => .expect (.pure hes)))))

theorem keeps_channelType : Keeps ts (channelType r) (From ts) :=
  keeps_node rfl (.skip (.expect (keeps_under h.type))
    (.expect (.discardSkip (keeps_under h.type))))

theorem keeps_typeRule : Keeps ts (typeRule r) (From ts) := by
  have hpointed : Keeps ts (do return [← r.type]) (AllFrom ts) := keeps_only h.type
  refine .peek (fun t _ => ?_) .failure
  refine .ite (fun _ => keeps_typeName h) fun _ => .ite (fun _ => ?_) fun _ =>
    .ite (fun _ => keeps_node rfl (.expect hpointed)) fun _ =>
    .ite (fun _ => keeps_node rfl (.expect hpointed)) fun _ =>
    .ite (fun _ => keeps_bracketType h) fun _ => .ite (fun _ => ?_) fun _ =>
    .ite (fun _ => keeps_channelType h) fun _ =>
    .ite (fun _ => keeps_node rfl (.expect (keeps_signature h))) fun _ =>
    .ite (fun _ => keeps_structType h) fun _ => .ite (fun _ => keeps_interfaceType h) fun _ =>
    .failure
  · exact keeps_node rfl (.expect (.within (h.type.bind fun inner hinner =>
      .expect (.pure (List.forall_mem_singleton.2 hinner)))))
  · refine keeps_node rfl (.expect (.expect (.bind (P := From ts) (.within ?_) fun k hk =>
      h.type.bind fun v hv => .pure (by simp [hk, hv]))))
    exact h.type.bind fun k hk => .expect (.pure hk)

/-! ## Operators -/

omit h in
theorem keeps_operator? {ops : List String} :
    Keeps ts (operator? ops) fun op? => ∀ op ∈ op?, op.From ts := by
  refine .peeks peeks_broken fun _ => .ite (fun _ => .pure nofun) fun _ =>
    .peek (fun t _ => .ite (fun _ => keeps_bare.bind fun op hop => .pure ?_)
      fun _ => .pure nofun) (.pure nofun)
  exact fun _ hop' => Option.some.inj hop' ▸ from_under.2 hop

omit h in
theorem keeps_chain {ops : List String} {operand : Read Node} {fuel : Nat} {left : Node}
    (hoperand : Keeps ts operand (From ts)) (hleft : left.From ts) :
    Keeps ts (chain ops operand fuel left) (From ts) := by
  induction fuel generalizing left with
  | zero => exact .failure
  | succ fuel ih =>
    refine keeps_operator?.bind fun op? hop => ?_
    cases op? with
    | none => exact .pure hleft
    | some op =>
      exact hoperand.bind fun right hright =>
        .bind (keeps_nodeFrom rfl hleft (by simp [hleft, hop op rfl, hright])) fun n hn => ih hn

omit h in
theorem keeps_binary {operand : Read Node} {fuel : Nat} (hoperand : Keeps ts operand (From ts))
    {levels : List (List String)} : Keeps ts (binary fuel operand levels) (From ts) := by
  induction levels with
  | nil => exact hoperand
  | cons ops tighter ih => exact ih.bind fun _ hleft => keeps_chain ih hleft

theorem keeps_expressionRule : Keeps ts (expressionRule r) (From ts) := keeps_binary h.unary

theorem keeps_expressionList : Keeps ts (expressionList r) (From ts) :=
  keeps_node rfl (keeps_sepBy h.expression)

/-! ## Arguments and literals -/

theorem keeps_argument : Keeps ts (argument r) (From ts) :=
  h.expression.bind fun _ he =>
    .skip (keeps_nodeFrom rfl he (List.forall_mem_singleton.2 he)) (.pure he)

theorem keeps_argumentList {special : Bool} : Keeps ts (argumentList r special) (From ts) := by
  refine keeps_node rfl (.expect (.within ((keeps_listUntil (keeps_argument h)).bind
    fun args hargs => .expect (.pure ?_))))
  split
  · next _ a rest =>
    obtain ⟨ha, hrest⟩ := List.forall_mem_cons.1 hargs
    refine List.forall_mem_cons.2 ⟨?_, hrest⟩
    cases ht : a.asType? with
    | none => exact ha
    | some t => exact ha.asType? ht
  · exact hargs

theorem keeps_element : Keeps ts (element r) (From ts) :=
  keeps_node rfl (.peeks peeks_nextIs fun _ => .ite (fun _ => keeps_only h.literalValue)
    fun _ => keeps_only h.expression)

theorem keeps_keyedOrElement : Keeps ts (keyedOrElement r) (From ts) :=
  (keeps_element h).bind fun _ hk => .skip
    ((keeps_element h).bind fun _ hv => keeps_nodeFrom rfl hk (by simp [hk, hv])) (.pure hk)

theorem keeps_literalValueRule : Keeps ts (literalValueRule r) (From ts) :=
  keeps_node rfl (.expect (.within ((keeps_listUntil (keeps_keyedOrElement h)).bind
    fun _ hes => .expect (.pure hes))))

theorem keeps_functionOperand : Keeps ts (functionOperand r) (From ts) := by
  refine .peek (fun first hfirst => .expect ((keeps_signature h).bind fun sig hsig => ?_)) .failure
  have hbegins (stop : Nat) : Begins ts { first.span with stop } := (begins_token hfirst).stop stop
  refine .peeks peeks_continues fun _ => .ite (fun _ => h.block.bind fun body hbody => .pure ?_)
    fun _ => .get fun s => (from_mk rfl).2 ⟨hbegins _, hsig⟩
  exact (from_mk rfl).2 ⟨hbegins _, by simp [hsig, hbody]⟩

theorem keeps_parenthesized : Keeps ts (parenthesized r) (From ts) :=
  keeps_node rfl (.expect (.within (h.expression.bind fun _ he =>
    .expect (.pure (List.forall_mem_singleton.2 he)))))

theorem keeps_operand : Keeps ts (operand r) (From ts) := by
  refine .peek (fun t _ => ?_) .failure
  dsimp only
  split
  · exact keeps_leaf rfl
  · exact keeps_leaf rfl
  · exact keeps_leaf rfl
  · exact keeps_leaf rfl
  · exact keeps_stringLiteral
  · exact keeps_stringLiteral
  · exact .ite (fun _ => keeps_leaf rfl) fun _ => .ite (fun _ => keeps_leaf rfl) fun _ =>
      .ite (fun _ => keeps_leaf rfl) fun _ => .ite (fun _ => keeps_leaf rfl) fun _ =>
      .ite (fun _ => keeps_functionOperand h) fun _ => .ite (fun _ => keeps_identifier) fun _ =>
      keeps_typeRule h
  · refine .ite (fun _ => (keeps_parenthesized h).bind fun p hp => .pure ?_) fun _ =>
      .ite (fun _ => keeps_bracketType h) fun _ => .failure
    split
    · exact hp.as rfl
    · exact hp

/-! ## What follows an operand -/

variable {base : Node} (hbase : base.From ts)
include hbase

theorem keeps_callStep : Keeps ts (callStep r base) (From ts) := by
  refine (keeps_argumentList h).bind fun args hargs => ?_
  have hcall : Keeps ts
      (nodeFrom base .callExpression [base.under .function, args.under .arguments]) (From ts) :=
    keeps_nodeFrom rfl hbase (by simp [hbase, hargs])
  split
  · next t x ht hx =>
    have htype := hbase.readAs (readAs_of_conversionType? ht)
    have hpart : x.From ts := hargs.children x (by simp [hx])
    exact .ite (fun _ => hcall) fun _ => keeps_nodeFrom rfl hbase (by simp [htype, hpart])
  · exact hcall

omit hbase in
theorem keeps_sliceBounds {lead : List Node} (hlead : AllFrom ts lead) :
    Keeps ts (sliceBounds r lead) (AllFrom ts) := by
  have hcapacity {upper : List Node} (hupper : AllFrom ts upper) : Keeps ts (do
      let capacity ← if ← skip? ":" then pure [(← r.expression).under .capacity] else pure []
      expect "]"
      return lead ++ upper ++ capacity) (AllFrom ts) :=
    .skip (h.expression.bind fun e he => .let_pure (.expect (.pure (by simp [hlead, hupper, he]))))
      (.let_pure (.expect (.pure (by simp [hlead, hupper]))))
  exact .peeks peeks_nextIs fun _ => .peeks peeks_nextIs fun _ => .ite
    (fun _ => .let_pure (hcapacity allFrom_nil))
    fun _ => h.expression.bind fun e he => .let_pure (hcapacity (by simpa using he))

omit h hbase in
theorem allFrom_mapM {cs ds : List Node} (hds : cs.mapM (·.asType?) = some ds)
    (hcs : AllFrom ts cs) : AllFrom ts ds := by
  intro d hd
  obtain ⟨c, hc, hcd⟩ := exists_of_mem_mapM_asType? hds hd
  exact (hcs c hc).asType? hcd

theorem keeps_bracketStep : Keeps ts (bracketStep r base) (From ts) := by
  refine .expect (.bind
    (P := fun p : Kind × List Node => p.1.hasForm = false ∧ AllFrom ts p.2) (.within ?_)
    fun p hp => keeps_nodeFrom hp.1 hbase hp.2)
  refine .skip ((keeps_sliceBounds h allFrom_nil).bind fun parts hparts =>
    .pure ⟨rfl, by simp [hbase, hparts]⟩) (h.expression.bind fun first hfirst => .skip ?_ (.skip ?_ ?_))
  · exact (keeps_sliceBounds h (by simpa using hfirst)).bind fun parts hparts =>
      .pure ⟨rfl, by simp [hbase, hparts]⟩
  · refine .ite (fun _ => .ite (fun _ => ?_) fun _ => .pure ⟨rfl, by simp [hbase, hfirst]⟩)
      fun hne => absurd rfl hne
    split
    · next t ht => exact .pure ⟨rfl, by simp [hbase.asType? ht, hfirst]⟩
    · exact .failure
  · refine .expect ((keeps_listUntil h.expression).bind fun more hmore => .expect ?_)
    split
    · next args hargs =>
      have hargs : AllFrom ts args := allFrom_mapM hargs (List.forall_mem_cons.2 ⟨hfirst, hmore⟩)
      split
      · next t ht => exact .pure ⟨rfl, by simp [hbase.asType? ht, hargs]⟩
      · exact .failure
    · exact .failure

theorem keeps_dotStep : Keeps ts (dotStep r base) (From ts) := by
  refine .expect (.skip (.bind (P := From ts) (.within ?_) fun t ht =>
    keeps_nodeFrom rfl hbase (by simp [hbase, ht])) ?_)
  · exact h.type.bind fun t ht => .expect (.pure ht)
  · exact keeps_fieldIdentifier.bind fun f hf => keeps_nodeFrom rfl hbase (by simp [hbase, hf])

theorem keeps_postfix? : Keeps ts (postfix? r base) fun n? => ∀ n ∈ n?, n.From ts := by
  have hnone : Keeps ts (pure none : Read (Option Node)) fun n? => ∀ n ∈ n?, n.From ts := .pure nofun
  have hsome {x : Read Node} (hx : Keeps ts x (From ts)) :
      Keeps ts (do return some (← x)) fun n? => ∀ n ∈ n?, n.From ts :=
    hx.bind fun n hn => .pure fun _ hm => Option.some.inj hm ▸ hn
  refine .peeks peeks_broken fun _ => .ite (fun _ => hnone) fun _ => .peek (fun t _ => ?_) hnone
  refine .ite (fun _ => .peeks .get fun _ => .ite (fun _ => hnone) fun _ =>
    hsome (keeps_dotStep h hbase)) fun _ => .ite (fun _ => hsome (keeps_callStep h hbase)) fun _ =>
    .ite (fun _ => hsome (keeps_bracketStep h hbase)) fun _ =>
    .ite (fun _ => .peeks .get fun _ => ?_) fun _ => hnone
  split
  · exact hnone
  · next t ht =>
    have htype := hbase.readAs (readAs_of_literalType? ht)
    exact h.literalValue.bind fun body hbody =>
      hsome (keeps_nodeFrom rfl hbase (by simp [htype, hbody]))

omit hbase in
theorem keeps_postfixes {fuel : Nat} {base : Node} (hbase : base.From ts) :
    Keeps ts (postfixes r fuel base) (From ts) := by
  induction fuel generalizing base with
  | zero => exact .failure
  | succ fuel ih =>
    refine (keeps_postfix? h hbase).bind fun n? hn => ?_
    cases n? with
    | none => exact .pure hbase
    | some n => exact ih (hn n rfl)

omit hbase in
theorem keeps_unaryRule : Keeps ts (unaryRule r) (From ts) := by
  refine .peek (fun t ht => .peeks peeks_peekSecond fun _ => .ite
    (fun _ => (keeps_channelType h).bind fun _ hn => keeps_postfixes h hn) fun _ =>
    .ite (fun _ => ?_) fun _ => (keeps_operand h).bind fun _ hn => keeps_postfixes h hn) .failure
  refine keeps_bare.bind fun op hop => h.unary.bind fun x hx => .peeks .get fun s => ?_
  have hbegins : Begins ts { t.span with stop := s.last } := (begins_token ht).stop s.last
  exact .ite (fun _ => .pure ((from_mk rfl).2 ⟨hbegins, List.forall_mem_singleton.2 hx⟩))
    fun _ => .pure ((from_mk rfl).2 ⟨hbegins, by simp [hop, hx]⟩)

end
end RouteCheck.Reader
