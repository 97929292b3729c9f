import RouteCheck.Proofs.Tree.Runs

/-!
What the rules for types and expressions take.

Main statements:
  1. `legible_grouped`: the declarations that a parameter list is grouped into.
  2. `gets_bracketType`, `gets_typeRule`: types, with the lengths of arrays.
  3. `takes_chain`, `takes_postfixes`: operators, and what follows an operand.
  4. `gets_expressionRule`, `gets_unaryRule`, `gets_literalValueRule`.
-/

namespace RouteCheck.Reader
open Node Token

/-- The readers of rules that contain one another take runs in which brackets match, and answer
legible nodes that cover them. -/
structure Rules.Get (ts : List Token) (r : Rules) : Prop where
  expression : Gets ts r.expression (Whole ts)
  unary : Gets ts r.unary (Whole ts)
  type : Gets ts r.type (Whole ts)
  literalValue : Gets ts r.literalValue (Whole ts)
  block : Gets ts r.block (Whole ts)
  statement : Gets ts r.statement fun _ n => n.Legible ts

section
variable {ts : List Token}

theorem gets_identifier :
    Gets ts identifier fun used n => Whole ts used n ∧ n.kind = .identifier :=
  gets_name rfl

theorem gets_fieldIdentifier :
    Gets ts fieldIdentifier fun used n => Whole ts used n ∧ n.kind = .fieldIdentifier :=
  gets_name rfl

theorem gets_typeIdentifier :
    Gets ts typeIdentifier fun used n => Whole ts used n ∧ n.kind = .typeIdentifier :=
  gets_name rfl

theorem gets_packageIdentifier :
    Gets ts packageIdentifier fun used n => Whole ts used n ∧ n.kind = .packageIdentifier :=
  gets_name rfl

theorem gets_bare {w : String} (hw : isPlainMark w = true) : Gets ts (bare w) (Whole ts) :=
  gets_leaf rfl fun _ _ => deepen_of_is hw

theorem gets_literal {kind : Kind} {cls : Token.Class} (hkind : kind.hasText = false)
    (hword : cls ≠ .word) (hmark : cls ≠ .mark) :
    Gets ts (leaf kind (·.cls == cls)) (Whole ts) :=
  gets_leaf hkind fun t _ ht => by
    have ht : t.cls = cls := by simpa using ht
    exact deepen_of_cls (ht ▸ hword) (ht ▸ hmark)

theorem gets_stringLiteral : Gets ts stringLiteral (Whole ts) :=
  .orElse (gets_literal rfl nofun nofun) (gets_literal rfl nofun nofun)

/-! ## Parameters -/

theorem legible_parameter {h : Head} {names : List Node} {t : Node}
    (hkind : h.kind.isParameter = true) (hnames : ∀ n ∈ names, n.Within ts) (ht : t.Legible ts) :
    (mk h (names.map (·.under .name) ++ [t.under .type])).Legible ts := by
  have hname : h.kind.isName = false := by
    generalize h.kind = k at hkind
    cases k <;> simp_all [Kind.isName, Kind.isParameter]
  refine legible_mk_lax (by simp [Kind.isLax, hkind])
    (fun h => absurd (hname.symm.trans h) Bool.false_ne_true) ?_ ?_
  all_goals refine List.forall_mem_append.2 ⟨List.forall_mem_map.2 fun n hn => ?_,
    List.forall_mem_singleton.2 ?_⟩
  · exact fun hfield => absurd inField_under hfield
  · exact fun _ => worded_under.2 ht.1
  · exact within_under.2 (hnames n hn)
  · exact within_under.2 ht.2

theorem isParameter_kind (e : Entry) : (if e.variadic then Kind.variadicParameterDeclaration
    else .parameterDeclaration).isParameter = true := by split <;> rfl

theorem legible_grouped (names : List Node) {es : List Entry} (hnames : ∀ n ∈ names, n.Within ts)
    (hes : ∀ e ∈ es, AllLegible ts e.nodes) : AllLegible ts (grouped names es) := by
  induction es generalizing names with
  | nil => exact allLegible_nil
  | cons e es ih =>
    obtain ⟨he, hes⟩ := List.forall_mem_cons.1 hes
    have htype : e.type.Legible ts := he e.type (by simp [Entry.nodes])
    rw [grouped]
    split
    · refine ih _ (List.forall_mem_append.2 ⟨hnames, List.forall_mem_singleton.2 ?_⟩) hes
      exact htype.within_as rfl
    · next n hname =>
      have hn : n.Legible ts := he n (by simp [Entry.nodes, hname])
      exact allLegible_cons.2 ⟨legible_parameter (isParameter_kind e)
        (List.forall_mem_append.2 ⟨hnames, List.forall_mem_singleton.2 hn.2⟩) htype,
        ih [] (List.forall_mem_nil _) hes⟩

theorem legible_ungrouped {es : List Entry} (hes : ∀ e ∈ es, AllLegible ts e.nodes) :
    AllLegible ts (ungrouped es) := by
  refine List.forall_mem_map.2 fun e he => ?_
  have htype : e.type.Legible ts := hes e he e.type (by simp [Entry.nodes])
  have hnone : ∀ n ∈ ([] : List Node), n.Within ts := List.forall_mem_nil _
  exact legible_parameter (isParameter_kind e) hnone htype

end

section
variable {ts : List Token} {r : Rules} (h : r.Get ts)
include h

theorem gets_entry : Gets ts (entry r) fun _ e => AllLegible ts e.nodes := by
  have htype (n? : Option Node) (hn : AllLegible ts n?.toList) {b : Nat} {pre : List Token}
      {variadic : Bool} : Takes ts b b pre (do return { name := n?, variadic, type := ← r.type })
        fun _ (e : Entry) => AllLegible ts e.nodes :=
    .take h.type fun t _ ht => .pure fun _ => by simp [Entry.nodes, hn, ht.2]
  refine .orElse (.take gets_identifier fun n _ hn => ?_) ?_
  · have hn : AllLegible ts (some n).toList := by simp [hn.1.2]
    exact .skip rfl (fun _ => htype _ hn) (htype _ hn)
  · exact .skip rfl (fun _ => htype none allLegible_nil) (htype none allLegible_nil)

theorem gets_parameterList : Gets ts (parameterList r) (Whole ts) := by
  refine gets_node rfl (.expect rfl fun _ => .within (.take (gets_listUntil (gets_entry h))
    fun es _ hes => .expect rfl fun _ => .pure fun _ => ⟨by simp, ?_⟩))
  split
  · exact legible_grouped [] (List.forall_mem_nil _) hes
  · exact legible_ungrouped hes

theorem gets_result : Gets ts (result r) fun _ ns => AllLegible ts ns :=
  .peeks peeks_broken fun _ => .ite (fun _ => gets_none) fun _ => .peeks peeks_nextIs fun _ =>
    .ite (fun _ => (takes_under (gets_parameterList h)).mono fun _ _ hns => hns.2) fun _ => .peek
      (fun _ => .ite (fun _ => (takes_under h.type).mono fun _ _ hns => hns.2) fun _ => gets_none)
      gets_none

theorem gets_signature : Gets ts (signature r) (Parts ts) :=
  .take (gets_parameterList h) fun ps _ hps => .take (gets_result h) fun rs _ hrs =>
    .pure fun _ => ⟨by simp [hps.1.ne_nil], by simp [hps.2, hrs]⟩

/-! ## Types -/

theorem gets_typeElem : Gets ts (typeElem r) (Whole ts) := by
  refine .bind h.type fun t u ht => .take (gets_many (gets_separator rfl) h.type.legible)
    fun more v hmore => .ite (fun hempty => .pure fun _ => ?_) fun _ =>
      takes_nodeFrom rfl ht.1.heads.append (allLegible_cons.2 ⟨ht.2, hmore.2⟩)
  obtain rfl := hmore.1 (List.isEmpty_iff.1 hempty)
  rwa [List.append_nil]

theorem gets_typeArguments : Gets ts (typeArguments r) (Parts ts) :=
  .open fun _ => .within (.take (gets_listUntil (gets_typeElem h).legible) fun _ _ hes =>
    .close fun _ _ => .ite (fun _ => .failure) fun _ => .pure fun _ =>
      ⟨by simp, allLegible_map_under.2 hes⟩)

theorem gets_typeName : Gets ts (typeName r) (Whole ts) := by
  refine .bind (P := Whole ts) (.orElse ((gets_node_of ?_).mono fun _ _ h => h.1)
    (gets_typeIdentifier.mono fun _ _ h => h.1))
    fun t u ht => .peeks peeks_continues fun _ => .ite (fun _ => .orElse ?_ (.pure fun _ => ht))
      fun _ => .pure fun _ => ht
  · exact .take gets_packageIdentifier fun p _ hp => .expect rfl fun _ =>
      .take gets_typeIdentifier fun n _ hn => .pure fun _ => ⟨by simp, fun hd hk =>
        legible_mk_names (.inl hk) (by simp [hp.1.2, hn.1.2]) (by simp [hp.2, hn.2, Kind.isName])⟩
  · exact .take (gets_typeArguments h) fun args _ hargs =>
      takes_nodeFrom rfl ht.1.heads.append (by simp [ht.2, hargs.2])

/-- The length of an array is what stands between the brackets. -/
theorem gets_bracketType : Gets ts (bracketType r) (Whole ts) := by
  refine .first (fun first => .open fun t₀ => .bind (c := 0) (P := fun used p => used ≠ [] ∧
    ∀ (hd : Head) (e : Node), hd.kind = p.1 → e.Legible ts →
      (mk hd (p.2 ++ [e.under .element])).Legible ts) (.within ?_) ?_) .failure
  · refine .skipClose (fun _ => .pure fun _ => ⟨by simp, fun hd e hk he => ?_⟩) (.skip rfl
      (fun _ => .close fun _ _ => .pure fun _ => ⟨by simp, fun hd e hk he => ?_⟩) ?_)
    · exact legible_mk (by rw [hk]; rfl) (by simpa using he)
    · exact legible_mk (by rw [hk]; rfl) (by simpa using he)
    · refine .take h.expression.balanced fun n u hn => .close fun t ht => .pure fun hrun =>
        ⟨by simp, fun hd e hk he => legible_mk_array hk hn.2.2 he ⟨u, t, hn.2.1, hn.1, ht, ?_⟩⟩
      exact (List.suffix_append [t₀] (u ++ [t])).isInfix.trans (by simpa using hrun)
  · rintro ⟨kind, length⟩ used ⟨hne, hlegible⟩
    refine .peeks peeks_broken fun _ => .ite (fun _ => .failure) fun _ => .take h.type fun e v he =>
      .get fun s l hlast => .pure fun _ =>
        ⟨by simp [hne], fun hhead => ⟨covers_of_head? hhead hlast, hlegible _ e rfl he.2⟩⟩

theorem gets_fieldDeclaration : Gets ts (fieldDeclaration r) (Whole ts) := by
  have hnamed : Gets ts (do
      let names ← sepBy r.fuel "," fieldIdentifier
      if ← broken then failure
      let t ← r.type
      return names.map (·.under .name) ++ [t.under .type]) (Parts ts) := by
    refine .take (gets_sepBy rfl (gets_fieldIdentifier.mono fun _ n hn => ⟨hn.1.1.ne_nil, hn.1.2⟩))
      fun names u hnames => .peeks peeks_broken fun _ => .ite (fun _ => .failure) fun _ =>
        .take h.type fun t _ ht => .pure fun _ => ⟨by simp [hnames.1], ?_⟩
    exact allLegible_append.2 ⟨allLegible_map_under.2 hnames.2, by simpa using ht.2⟩
  have hembedded : Gets ts (do
      if ← nextIs "*" then
        let star ← bare "*"
        return [star, (← typeName r).under .type]
      return [(← typeName r).under .type]) (Parts ts) := by
    refine .peeks peeks_nextIs fun _ => .ite (fun _ => ?_) fun _ => takes_under (gets_typeName h)
    exact .take (gets_bare rfl) fun star _ hstar => .take (gets_typeName h) fun t _ ht =>
      .pure fun _ => ⟨by simp [hstar.1.ne_nil], by simp [hstar.2, ht.2]⟩
  have htag : Gets ts (do
      if ← broken then return []
      (do return [(← stringLiteral).under .tag]) <|> return []) fun _ ns => AllLegible ts ns :=
    .peeks peeks_broken fun _ => .ite (fun _ => gets_none) fun _ =>
      .orElse ((takes_under gets_stringLiteral).mono fun _ _ hns => hns.2) gets_none
  exact gets_node rfl (.take (.orElse hnamed hembedded) fun parts _ hparts =>
    .take htag fun tag _ htag => .pure fun _ =>
      ⟨by simp [hparts.1], allLegible_append.2 ⟨hparts.2, htag⟩⟩)

theorem gets_structType : Gets ts (structType r) (Whole ts) :=
  gets_node rfl (.expect rfl fun _ => takes_only (gets_node rfl (.expect rfl fun _ => .within
    (.take (gets_lines (gets_fieldDeclaration h).legible) fun _ _ hfs => .expect rfl fun _ =>
      .pure fun _ => ⟨by simp, hfs⟩))))

theorem gets_interfaceElement : Gets ts (interfaceElement r) (Whole ts) := by
  refine .orElse (gets_node rfl (.take gets_fieldIdentifier fun n _ hn => ?_)) (gets_typeElem h)
  exact .peeks peeks_nextIs fun _ => .ite (fun _ => .failure) fun _ =>
    .take (gets_signature h) fun sig _ hsig => .pure fun _ =>
      ⟨by simp [hsig.1], by simp [hn.1.2, hsig.2]⟩

theorem gets_interfaceType : Gets ts (interfaceType r) (Whole ts) :=
  gets_node rfl (.expect rfl fun _ => .expect rfl fun _ => .within
    (.take (gets_lines (gets_interfaceElement h).legible) fun _ _ hes => .expect rfl fun _ =>
      .pure fun _ => ⟨by simp, hes⟩))

theorem gets_channelType : Gets ts (channelType r) (Whole ts) :=
  gets_node rfl (.skip rfl (fun _ => .expect rfl fun _ => takes_under h.type)
    (.expect rfl fun _ => .discardSkip rfl (fun _ => takes_under h.type) (takes_under h.type)))

theorem gets_typeRule : Gets ts (typeRule r) (Whole ts) := by
  have hpointed (pre : List Token) : Takes ts 0 0 pre (do return [← r.type]) (Parts ts) :=
    takes_only h.type
  refine .peek (fun t => ?_) .failure
  refine .ite (fun _ => gets_typeName h) fun _ => .ite (fun _ => ?_) fun _ =>
    .ite (fun _ => gets_node rfl (.expect rfl fun _ => hpointed _)) fun _ =>
    .ite (fun _ => gets_node rfl (.expect rfl fun _ => hpointed _)) fun _ =>
    .ite (fun _ => gets_bracketType h) fun _ => .ite (fun _ => ?_) fun _ =>
    .ite (fun _ => gets_channelType h) fun _ => .ite (fun _ => ?_) fun _ =>
    .ite (fun _ => gets_structType h) fun _ => .ite (fun _ => gets_interfaceType h) fun _ =>
    .failure
  · exact gets_node rfl (.expect rfl fun _ => .within (.take h.type fun inner _ hinner =>
      .expect rfl fun _ => .pure fun _ => ⟨by simp, List.forall_mem_singleton.2 hinner.2⟩))
  · refine gets_node rfl (.expect rfl fun _ => .open fun _ => .bind (c := 0)
      (P := fun used k => used ≠ [] ∧ k.Legible ts) (.within ?_) fun k _ hk =>
        .take h.type fun v _ hv => .pure fun _ => ⟨by simp [hk.1], by simp [hk.2, hv.2]⟩)
    exact .take h.type fun k _ hk => .close fun _ _ => .pure fun _ => ⟨by simp, hk.2⟩
  · exact gets_node rfl (.expect rfl fun _ => (gets_signature h).after fun _ _ hsig =>
      ⟨by simp, hsig.2⟩)

/-! ## Operators -/

def PlainMarks (ops : List String) : Prop := ∀ op ∈ ops, isPlainMark op = true

omit h in
theorem isPlainMark_of_any {ops : List String} {t : Token} (hops : PlainMarks ops)
    (ht : ops.any t.is = true) : isPlainMark t.text = true := by
  obtain ⟨op, hop, his⟩ := List.any_eq_true.1 ht
  rw [text_of_is his]
  exact hops op hop

omit h in
theorem gets_operator? {ops : List String} (hops : PlainMarks ops) :
    Gets ts (operator? ops) fun used op? => (op? = none → used = []) ∧ ∀ op ∈ op?, op.Legible ts := by
  have hnone : Gets ts (pure none : Read (Option Node)) fun used op? =>
      (op? = none → used = []) ∧ ∀ op ∈ op?, op.Legible ts := .pure fun _ => ⟨fun _ => rfl, nofun⟩
  refine .peeks peeks_broken fun _ => .ite (fun _ => hnone) fun _ =>
    .peek (fun t => .ite (fun hany => ?_) fun _ => hnone) hnone
  refine .take (gets_bare (isPlainMark_of_any hops hany)) fun op _ hop => .pure fun _ => ⟨nofun, ?_⟩
  exact fun _ hop' => Option.some.inj hop' ▸ legible_under.2 hop.2

omit h in
theorem takes_chain {ops : List String} {operand : Read Node} {fuel : Nat} {left : Node}
    {pre : List Token} (hops : PlainMarks ops) (hoperand : Gets ts operand (Whole ts))
    (hleft : Whole ts pre left) : Takes ts 0 0 pre (chain ops operand fuel left) (Whole ts) := by
  induction fuel generalizing left pre with
  | zero => exact .failure
  | succ fuel ih =>
    refine .take (gets_operator? hops) fun op? u hop => ?_
    cases op? with
    | none =>
      obtain rfl := hop.1 rfl
      rw [List.append_nil]
      exact .pure fun _ => hleft
    | some op =>
      exact .take hoperand fun right v hright => .bind (takes_nodeFrom rfl
        hleft.1.heads.append.append (by simp [hleft.2, hop.2 op rfl, hright.2])) fun n used hn => ih hn

omit h in
theorem gets_binary {operand : Read Node} {fuel : Nat} (hoperand : Gets ts operand (Whole ts))
    {levels : List (List String)} (hlevels : ∀ ops ∈ levels, PlainMarks ops) :
    Gets ts (binary fuel operand levels) (Whole ts) := by
  induction levels with
  | nil => exact hoperand
  | cons ops tighter ih =>
    obtain ⟨hops, htighter⟩ := List.forall_mem_cons.1 hlevels
    exact .bind (ih htighter) fun _ _ hleft => takes_chain hops (ih htighter) hleft

theorem gets_expressionRule : Gets ts (expressionRule r) (Whole ts) :=
  gets_binary h.unary (by unfold PlainMarks; decide)

theorem gets_expressionList : Gets ts (expressionList r) fun used n =>
    Whole ts used n ∧ n.kind = .expressionList :=
  gets_node_kind rfl (gets_sepBy rfl (h.expression.mono fun _ _ hn => ⟨hn.1.ne_nil, hn.2⟩))

/-! ## Arguments and literals -/

theorem gets_argument : Gets ts (argument r) (Whole ts) :=
  .bind h.expression fun _ _ he => .skip rfl
    (fun _ => takes_nodeFrom rfl he.1.heads.append (List.forall_mem_singleton.2 he.2))
    (.pure fun _ => he)

theorem gets_argumentList {special : Bool} : Gets ts (argumentList r special) fun used n =>
    Whole ts used n ∧ n.kind = .argumentList := by
  refine gets_node_kind rfl (.expect rfl fun _ => .within (.take (gets_listUntil (gets_argument h).legible)
    fun args _ hargs => .expect rfl fun _ => .pure fun _ => ⟨by simp, ?_⟩))
  split
  · next _ a rest =>
    obtain ⟨ha, hrest⟩ := List.forall_mem_cons.1 hargs
    refine List.forall_mem_cons.2 ⟨?_, hrest⟩
    cases ht : a.asType? with
    | none => exact ha
    | some t => exact ha.asType? ht
  · exact hargs

theorem gets_element : Gets ts (element r) (Whole ts) :=
  gets_node rfl (.peeks peeks_nextIs fun _ => .ite (fun _ => takes_only h.literalValue)
    fun _ => takes_only h.expression)

theorem gets_keyedOrElement : Gets ts (keyedOrElement r) (Whole ts) :=
  .bind (gets_element h) fun _ _ hk => .skip rfl
    (fun _ => .take (gets_element h) fun _ _ hv =>
      takes_nodeFrom rfl hk.1.heads.append.append (by simp [hk.2, hv.2]))
    (.pure fun _ => hk)

theorem gets_literalValueRule : Gets ts (literalValueRule r) (Whole ts) :=
  gets_node rfl (.expect rfl fun _ => .within (.take (gets_listUntil (gets_keyedOrElement h).legible)
    fun _ _ hes => .expect rfl fun _ => .pure fun _ => ⟨by simp, hes⟩))

theorem gets_functionOperand : Gets ts (functionOperand r) (Whole ts) := by
  refine .first (fun first => .expect rfl fun t => .take (gets_signature h) fun sig u hsig => ?_)
    .failure
  have hcovers {used : List Token} {l : Nat} (hhead : used.head? = some first) :
      Covers used { first.span with stop := lastStop l used } :=
    covers_of_head? hhead rfl
  refine .peeks peeks_continues fun _ => .ite
    (fun _ => .take h.block fun body v hbody => .pure fun _ => ⟨by simp, fun hhead => ⟨?_, ?_⟩⟩)
    fun _ => .get fun s l hlast => .pure fun _ =>
      ⟨by simp, fun hhead => ⟨?_, legible_mk rfl hsig.2⟩⟩
  · show Covers _ { first.span with stop := body.span.stop }
    rw [← hbody.1.lastStop_append (l := 0)]
    exact hcovers hhead
  · exact legible_mk rfl (by simp [hsig.2, hbody.2])
  · show Covers _ { first.span with stop := s.last }
    rw [hlast]
    exact hcovers hhead

theorem gets_parenthesized : Gets ts (parenthesized r) fun used n =>
    Whole ts used n ∧ n.kind = .parenthesizedExpression :=
  gets_node_kind rfl (.expect rfl fun _ => .within (.take h.expression fun _ _ he =>
    .expect rfl fun _ => .pure fun _ => ⟨by simp, List.forall_mem_singleton.2 he.2⟩))

theorem gets_operand : Gets ts (operand r) (Whole ts) := by
  refine .peekNext (fun t => ?_) .failure
  have hliteral {kind : Kind} (hkind : kind.hasText = false) (hword : t.cls ≠ .word)
      (hmark : t.cls ≠ .mark) : Gets ts (onNext t (leaf kind fun _ => true)) (Whole ts) :=
    gets_next_leaf hkind (deepen_of_cls hword hmark)
  have hkeyword {kind : Kind} {w : String} (hkind : kind.hasText = false)
      (hw : isPlainMark w = true) (ht : t.text = w) :
      Gets ts (onNext t (leaf kind fun _ => true)) (Whole ts) := by
    obtain ⟨hopen, hclose⟩ := Bool.and_eq_true_iff.1 hw
    exact gets_next_leaf hkind
      (deepen_of_text ⟨by simpa [ht] using hopen, by simpa [ht] using hclose⟩)
  dsimp only
  split
  · next hcls => exact hliteral rfl (by simp [hcls]) (by simp [hcls])
  · next hcls => exact hliteral rfl (by simp [hcls]) (by simp [hcls])
  · next hcls => exact hliteral rfl (by simp [hcls]) (by simp [hcls])
  · next hcls => exact hliteral rfl (by simp [hcls]) (by simp [hcls])
  · exact gets_stringLiteral.next
  · exact gets_stringLiteral.next
  · split
    · next ht => exact hkeyword rfl rfl ht
    · split
      · next ht => exact hkeyword rfl rfl ht
      · split
        · next ht => exact hkeyword rfl rfl ht
        · split
          · next ht => exact hkeyword rfl rfl ht
          · exact .next (.ite (fun _ => gets_functionOperand h) fun _ =>
              .ite (fun _ => gets_identifier.mono fun _ _ hn => hn.1) fun _ => gets_typeRule h)
  · refine .next (.ite (fun _ => .bind (gets_parenthesized h) fun p u hp => .pure fun _ => ?_)
      fun _ => .ite (fun _ => gets_bracketType h) fun _ => .failure)
    split
    · exact ⟨by rw [span_as]; exact hp.1.1, hp.1.2.as (by rw [hp.2]; rfl) rfl⟩
    · exact hp.1

/-! ## What follows an operand -/

omit h in
theorem legible_mapM {cs ds : List Node} (hds : cs.mapM (·.asType?) = some ds)
    (hcs : AllLegible ts cs) : AllLegible ts ds := by
  intro d hd
  obtain ⟨c, hc, hcd⟩ := exists_of_mem_mapM_asType? hds hd
  exact (hcs c hc).asType? hcd

theorem takes_sliceBounds {pre : List Token} {lead : List Node} (hlead : AllLegible ts lead) :
    Takes ts 1 0 pre (sliceBounds r lead) fun _ ns => AllLegible ts ns := by
  have hcapacity {pre : List Token} {upper : List Node} (hupper : AllLegible ts upper) :
      Takes ts 1 0 pre (do
        let capacity ← if ← skip? ":" then pure [(← r.expression).under .capacity] else pure []
        expect "]"
        return lead ++ upper ++ capacity) fun _ ns => AllLegible ts ns :=
    .skip rfl (fun _ => .take h.expression fun e _ he => .let_pure (.close fun _ _ => .pure fun _ =>
        by simp [hlead, hupper, he.2]))
      (.let_pure (.close fun _ _ => .pure fun _ => by simp [hlead, hupper]))
  exact .peeks peeks_nextIs fun _ => .peeks peeks_nextIs fun _ => .ite
    (fun _ => .let_pure (hcapacity allLegible_nil))
    fun _ => .take h.expression fun e _ he => .let_pure (hcapacity (by simpa using he.2))

variable {pre : List Token} {base : Node} (hbase : Whole ts pre base)
include hbase

theorem takes_callStep : Takes ts 0 0 pre (callStep r base) (Whole ts) := by
  refine .take (gets_argumentList h) fun args u hargs => ?_
  have hcall : Takes ts 0 0 (pre ++ u)
      (nodeFrom base .callExpression [base.under .function, args.under .arguments]) (Whole ts) :=
    takes_nodeFrom_of hbase.1.heads.append fun _ hk =>
      legible_mk_call hk hbase.2 hargs.1.2 hargs.2
  split
  · next t x ht hx =>
    have htype := hbase.2.readAs (readAs_of_conversionType? ht)
    have hpart : x.Legible ts := hargs.1.2.children (by rw [hargs.2]; rfl) x (by simp [hx])
    exact .ite (fun _ => hcall) fun _ =>
      takes_nodeFrom rfl hbase.1.heads.append (by simp [htype, hpart])
  · exact hcall

theorem takes_bracketStep : Takes ts 0 0 pre (bracketStep r base) (Whole ts) := by
  refine .open fun t => .bind (c := 0) (P := fun used p => Heads used base.span ∧
    p.1.hasText = false ∧ AllLegible ts p.2) (.within ?_) fun p _ hp =>
      takes_nodeFrom hp.2.1 hp.1 hp.2.2
  have hslice {pre : List Token} {lead : List Node} (hpre : Heads pre base.span)
      (hlead : AllLegible ts lead) : Takes ts 1 0 pre
        (do return (Kind.sliceExpression, base.under .operand :: (← sliceBounds r lead)))
        fun used p => Heads used base.span ∧ p.1.hasText = false ∧ AllLegible ts p.2 := by
    refine .bind (takes_sliceBounds h hlead).grows fun parts used hparts => .pure fun _ => ?_
    obtain ⟨⟨u, rfl⟩, hparts⟩ := hparts
    exact ⟨hpre.append, rfl, by simp [hbase.2, hparts]⟩
  have hheads : Heads (pre ++ [t]) base.span := hbase.1.heads.append
  refine .skip rfl (fun _ => hslice hheads.append allLegible_nil) (.take h.expression
    fun first u hfirst => .skip rfl
      (fun _ => hslice hheads.append.append (by simpa using hfirst.2)) (.skipClose (fun _ => ?_) ?_))
  · refine .ite (fun _ => .ite (fun _ => ?_) fun _ => .pure fun _ =>
      ⟨hheads.append.append, rfl, by simp [hbase.2, hfirst.2]⟩) fun hne => absurd rfl hne
    split
    · next t ht => exact .pure fun _ =>
        ⟨hheads.append.append, rfl, by simp [hbase.2.asType? ht, hfirst.2]⟩
    · exact .failure
  · refine .expect rfl fun _ => .take (gets_listUntil h.expression.legible) fun more _ hmore =>
      .close fun _ _ => ?_
    split
    · next args hargs =>
      have hargs : AllLegible ts args :=
        legible_mapM hargs (List.forall_mem_cons.2 ⟨hfirst.2, hmore⟩)
      split
      · next t ht => exact .pure fun _ =>
          ⟨hheads.append.append.append.append, rfl, by simp [hbase.2.asType? ht, hargs]⟩
      · exact .failure
    · exact .failure

theorem takes_dotStep : Takes ts 0 0 pre (dotStep r base) (Whole ts) := by
  have hheads : Heads pre base.span := hbase.1.heads
  refine .expect rfl fun _ => .skip rfl (fun _ => .bind (P := fun used t => Heads used base.span ∧
    t.Legible ts) (.within ?_) fun t _ ht => takes_nodeFrom rfl ht.1 (by simp [hbase.2, ht.2])) ?_
  · exact .take h.type fun t _ ht => .expect rfl fun _ => .pure fun _ =>
      ⟨hheads.append.append.append.append, ht.2⟩
  · exact .take gets_fieldIdentifier fun f _ hf => takes_nodeFrom_of hheads.append.append
      fun hd hk => legible_mk_selector hk hbase.2 hf.1.2 hf.2

/-- Nothing more was taken, or all that was taken was made into a node. -/
def Extends (ts pre used : List Token) : Option Node → Prop
  | none => used = pre
  | some n => Whole ts used n

theorem takes_postfix? : Takes ts 0 0 pre (postfix? r base) (Extends ts pre) := by
  have hnone : Takes ts 0 0 pre (pure none : Read (Option Node)) (Extends ts pre) := .pure fun _ => rfl
  have hsome {used : List Token} {x : Read Node} (hx : Takes ts 0 0 used x (Whole ts)) :
      Takes ts 0 0 used (do return some (← x)) (Extends ts pre) :=
    .bind hx fun n _ hn => .pure fun _ => hn
  refine .peeks peeks_broken fun _ => .ite (fun _ => hnone) fun _ => .peek (fun t => ?_) hnone
  refine .ite (fun _ => .peeks .get fun _ => .ite (fun _ => hnone) fun _ =>
    hsome (takes_dotStep h hbase)) fun _ => .ite (fun _ => hsome (takes_callStep h hbase)) fun _ =>
    .ite (fun _ => hsome (takes_bracketStep h hbase)) fun _ =>
    .ite (fun _ => .peeks .get fun _ => ?_) fun _ => hnone
  split
  · exact hnone
  · next t ht =>
    have htype := hbase.2.readAs (readAs_of_literalType? ht)
    exact .take h.literalValue fun body _ hbody =>
      hsome (takes_nodeFrom rfl hbase.1.heads.append (by simp [htype, hbody.2]))

omit hbase in
theorem takes_postfixes {fuel : Nat} {pre : List Token} {base : Node} (hbase : Whole ts pre base) :
    Takes ts 0 0 pre (postfixes r fuel base) (Whole ts) := by
  induction fuel generalizing pre base with
  | zero => exact .failure
  | succ fuel ih =>
    refine .bind (takes_postfix? h hbase) fun n? used hn => ?_
    cases n? with
    | none =>
      obtain rfl : used = pre := hn
      exact .pure fun _ => hbase
    | some n => exact ih hn

omit hbase in
theorem gets_unaryRule : Gets ts (unaryRule r) (Whole ts) := by
  have hmarks : PlainMarks ["+", "-", "!", "^", "*", "&", "<-"] := by unfold PlainMarks; decide
  have hpostfixes {x : Read Node} {t : Token} (hx : Gets ts x (Whole ts)) :
      Gets ts (x >>= postfixes r r.fuel) fun used n =>
        used ≠ [] ∧ (used.head? = some t → Whole ts used n) :=
    .bind hx fun _ _ hn => (takes_postfixes h hn).mono fun _ _ hn => ⟨hn.1.ne_nil, fun _ => hn⟩
  refine .first (fun t => .peeks peeks_peekSecond fun _ => .ite
    (fun _ => hpostfixes (gets_channelType h)) fun _ => .ite (fun hany => ?_) fun _ =>
      hpostfixes (gets_operand h)) .failure
  refine .take (gets_bare (isPlainMark_of_any hmarks hany)) fun op u hop => .take h.unary
    fun x v hx => .get fun s l hlast => ?_
  have hne : [] ++ u ++ v ≠ [] := by simp [hop.1.ne_nil]
  have hcovers (hhead : ([] ++ u ++ v).head? = some t) :
      Covers ([] ++ u ++ v) { t.span with stop := s.last } := covers_of_head? hhead hlast
  exact .ite
    (fun _ => .pure fun _ => ⟨hne, fun hhead => ⟨hcovers hhead,
      legible_mk rfl (List.forall_mem_singleton.2 hx.2)⟩⟩)
    fun _ => .pure fun _ => ⟨hne, fun hhead => ⟨hcovers hhead,
      legible_mk rfl (by simp [hop.2, hx.2])⟩⟩

end
end RouteCheck.Reader
