import RouteCheck.Proofs.Tree.TypeReads

/-!
What the rules for expressions read lies in order.

An expression is closed: of the nodes it is made of only the bodies of function literals declare
something, and these open a scope.

Main statements:
  1. `reads_chain`, `yields_binary`: operands and operators, level by level.
  2. `reads_postfixes`: what follows an operand.
  3. `yields_expressionRule`, `yields_unaryRule`, `yields_literalValueRule`.
-/

namespace RouteCheck.Reader
open Node

theorem Gives.closed {c : Bool} {n : Node} {lo hi : Nat} (h : Gives c (One Plain) n lo hi) :
    Gives c (One Closed) n lo hi := by
  obtain ⟨cs, hcs, hone, hplain⟩ := h
  exact ⟨cs, hcs, hone, hplain.closed⟩

theorem Reads.closed {b c : Bool} {pre : List Node} {r : Read Node}
    (h : Reads b pre r (Gives c (One Plain))) : Reads b pre r (Gives c (One Closed)) :=
  h.mono fun _ _ _ => Gives.closed

/-! ## Operators -/

theorem yields_operator? {ops : List String} :
    Yields false (operator? ops) fun op? cs => cs = op?.toList ∧ ∀ op ∈ op?, op.Closed := by
  have hnone : Yields false (pure none : Read (Option Node))
      fun op? cs => cs = op?.toList ∧ ∀ op ∈ op?, op.Closed :=
    .pure fun _ _ hlaid => ⟨[], hlaid, rfl, nofun⟩
  refine .peeks peeks_broken fun _ => .ite (fun _ => hnone) fun _ => .peeks peeks_peek fun t? => ?_
  cases t? with
  | none => exact hnone
  | some t =>
    refine .ite (fun _ => yields_bare.take fun op hplain => .pure fun _ _ hlaid => ?_)
      fun _ => hnone
    exact ⟨[op.under .operator], ⟨nofun, by simpa [PlacedIn] using hlaid.2⟩, rfl,
      fun _ hop => Option.some.inj hop ▸ closed_under.2 hplain.closed⟩

section
variable {ops : List String} {operand : Read Node} {fuel : Nat} {left : Node}

theorem reads_chain (hoperand : Yields true operand (One Closed)) (hleft : left.Closed) :
    Reads true [left] (chain ops operand fuel left) (Gives true (One Closed)) := by
  induction fuel generalizing left with
  | zero => exact .failure
  | succ fuel ih =>
    refine yields_operator?.take fun op? hclosed' => ?_
    cases op? with
    | none => exact .pure fun _ _ hlaid => ⟨_, hlaid, rfl, hleft⟩
    | some op =>
      refine hoperand.take fun right hclosed => ?_
      refine .take (.nodeFrom rfl rfl ?_ ?_) fun n hplain => ?_
      · simp [PlacedIn]
      · simpa using ⟨hleft, hclosed' op rfl, hclosed⟩
      · exact ih hplain.closed

theorem yields_binary (hoperand : Yields true operand (One Closed)) {levels : List (List String)} :
    Yields true (binary fuel operand levels) (One Closed) := by
  induction levels with
  | nil => exact hoperand
  | cons ops tighter ih =>
    refine ih.take fun left hclosed => ?_
    exact reads_chain ih hclosed

end

section
variable {r : Rules} (h : r.Sound)
include h

theorem yields_expressionRule : Yields true (expressionRule r) (One Closed) := yields_binary h.unary

theorem yields_expressionList : Yields true (expressionList r) (One Plain) :=
  yields_plain rfl (yields_sepBy h.expression).all

/-! ## Arguments and literals -/

theorem yields_argument : Yields true (argument r) (One Closed) := by
  refine h.expression.take fun e hclosed => ?_
  refine .skip ?_ (.pure fun _ _ hlaid => ⟨_, hlaid, rfl, hclosed⟩)
  exact .closed (.nodeFrom rfl rfl (fun _ _ h => h) (by simpa using hclosed))

theorem yields_argumentList {special : Bool} :
    Yields true (argumentList r special) (One Plain) := by
  refine yields_plain rfl (.expect (.within ((yields_listUntil (yields_argument h)).all.take
    fun args hclosed => .expect (.assume fun hplaced => .pure fun _ _ hlaid => ?_))))
  split
  · next _ a rest =>
    obtain ⟨ha, hrest⟩ := List.forall_mem_cons.1 hclosed
    cases ht : a.asType? with
    | none => exact gives_all hlaid (fun _ => rfl) (fun h => h) hclosed
    | some t =>
      have hread := reread_asType? (hplaced a (by simp)) ha ht
      exact gives_all hlaid (fun _ => rfl) (hread.cons fun _ h => h)
        (List.forall_mem_cons.2 ⟨hread.plain.closed, hrest⟩)
  · exact gives_all hlaid (fun _ => rfl) (fun h => h) hclosed

theorem yields_element : Yields true (element r) (One Plain) := by
  have hdone {e : Node} {cs : List Node} (he : One Closed e cs) :
      Reads true ([] ++ cs) (pure [e]) (Gives true (All Closed)) :=
    .pure fun _ _ hlaid => ⟨_, hlaid, he.1, List.forall_mem_singleton.2 he.2⟩
  exact yields_plain rfl (.peeks peeks_nextIs fun _ => .ite
    (fun _ => h.literalValue.bind fun _ _ he => hdone he)
    fun _ => h.expression.bind fun _ _ he => hdone he)

theorem yields_keyedOrElement : Yields true (keyedOrElement r) (One Closed) := by
  refine (yields_element h).take fun k hplain => ?_
  refine .skip ?_ (.pure fun _ _ hlaid => ⟨_, hlaid, rfl, hplain.closed⟩)
  refine (yields_element h).take fun v hplain' => ?_
  refine .closed (.nodeFrom rfl rfl ?_ ?_)
  · simp [PlacedIn]
  · simp [hplain.closed, hplain'.closed]

theorem yields_literalValueRule : Yields true (literalValueRule r) (One Closed) := by
  refine Reads.closed (yields_plain rfl (.expect (.within
    ((yields_listUntil (yields_keyedOrElement h)).all.take
      fun es hclosed => .expect (.pure fun _ _ hlaid => ?_)))))
  exact gives_all hlaid (fun _ => rfl) (fun h => h) hclosed

theorem yields_functionOperand : Yields true (functionOperand r) (One Closed) := by
  refine .peek (fun t => .expect ((yields_signature h).take fun sig hparts => ?_))
    .failure
  refine .peeks peeks_continues fun _ => .ite (fun _ => ?_) fun _ => .get fun _ _ hlaid hstart => ?_
  · refine h.block.take fun body _ => .pure fun lo hi hlaid hstart => ?_
    subst hstart
    have hbody := hlaid.2.place (List.mem_append_right _ (List.mem_singleton_self body))
    have hlt := Nat.lt_of_le_of_lt hbody.1 hbody.2.2.nonempty
    have hparts' : PlacedIn (sig ++ [body.under .body]) t.span.start body.stop := by
      simpa [placedIn_append_iff, PlacedIn] using hlaid.2.upTo
    obtain ⟨cs, hcs, hone, hclosed⟩ := gives_one (c := true) (P := Closed)
      (n := .mk { kind := .funcLiteral, span := { t.span with stop := body.stop } }
        (sig ++ [body.under .body])) rfl rfl ⟨fun _ => hlt, hparts'⟩
      (regular_of_append (f := .body) rfl rfl (fun c hc => (hparts c hc).2) (Nat.le_refl _)
        fun hne => Bool.noConfusion hne)
      (closed_iff.2 (.inl rfl))
    exact ⟨cs, ⟨fun _ => Nat.lt_of_lt_of_le hlt hbody.2.1,
      hcs.2.mono (Nat.le_refl _) hbody.2.1⟩, hone, hclosed⟩
  · exact Gives.closed (gives_mk rfl hstart rfl hlaid fun c hc => (hparts c hc).1)

theorem yields_parenthesized : Yields true (parenthesized r) (One Plain) := by
  refine yields_plain rfl (.expect (.within (h.expression.take fun e hclosed =>
    .expect (.pure fun _ _ hlaid => ?_))))
  exact gives_all hlaid (fun _ => rfl) (fun h => h) (List.forall_mem_singleton.2 hclosed)

theorem yields_operand : Yields true (operand r) (One Closed) := by
  have hleaf {k : Kind} (hk : k.isPlain = true) :
      Yields true (leaf k fun _ => true) (One Closed) :=
    Reads.closed (yields_leaf (Kind.entered?_of_isLoose (Kind.isLoose_of_isPlain hk))
      (Kind.opensScope_of_isPlain hk))
  refine .peeks peeks_peek fun t? => ?_
  cases t? with
  | none => exact .failure
  | some t =>
    dsimp only
    split
    · exact hleaf rfl
    · exact hleaf rfl
    · exact hleaf rfl
    · exact hleaf rfl
    · exact .closed yields_stringLiteral
    · exact .closed yields_stringLiteral
    · exact .ite (fun _ => hleaf rfl) fun _ => .ite (fun _ => hleaf rfl) fun _ =>
        .ite (fun _ => hleaf rfl) fun _ => .ite (fun _ => hleaf rfl) fun _ =>
        .ite (fun _ => yields_functionOperand h) fun _ =>
        .ite (fun _ => .closed yields_identifier) fun _ => .closed (yields_typeRule h)
    · refine .ite (fun _ => ?_) fun _ =>
        .ite (fun _ => .closed (yields_bracketType h)) fun _ => .failure
      refine (yields_parenthesized h).take fun p hplain => .assume fun hplaced =>
        .pure fun _ _ hlaid => ?_
      split
      · have hread := reread_as (k := .parenthesizedType) (hplaced p (List.mem_singleton_self p))
          hplain rfl
        exact ⟨_, ⟨hlaid.1, hread.cons (fun _ h => h) hlaid.2⟩, rfl, hread.plain.closed⟩
      · exact ⟨_, hlaid, rfl, hplain.closed⟩

/-! ## What follows an operand -/

omit h in
theorem readAs_of_conversionType? {callee t : Node} (ht : conversionType? callee = some t) :
    ReadAs callee t := by
  unfold conversionType? at ht
  split at ht
  · next htype =>
    obtain rfl := Option.some.inj ht
    exact .typeOnly htype
  · split at ht
    case h_4 => exact absurd ht nofun
    all_goals exact readAs_of_asType? (Option.filter_eq_some_iff.1 ht).1

omit h in
theorem readAs_of_literalType? {lead t : Node} {braces : Bool}
    (ht : literalType? braces lead = some t) : ReadAs lead t := by
  unfold literalType? at ht
  split at ht
  all_goals try
    next hkind =>
      obtain rfl := Option.some.inj ht
      exact .typeOnly (hkind ▸ rfl)
  all_goals try
    split at ht
    · exact readAs_of_asType? ht
    · exact absurd ht nofun
  exact absurd ht nofun

variable {base : Node}

theorem reads_callStep (hclosed : base.Closed) :
    Reads true [base] (callStep r base) (Gives true (One Closed)) := by
  refine .assume fun hbase => (yields_argumentList h).take fun args hplain => ?_
  have hcall : Reads true ([base] ++ [args])
      (nodeFrom base .callExpression [base.under .function, args.under .arguments])
      (Gives true (One Closed)) :=
    .closed (.nodeFrom rfl rfl (by simp [PlacedIn]) (by simpa using ⟨hclosed, hplain.closed⟩))
  split
  · next t x ht hx =>
    have hread := ((readAs_of_conversionType? ht).reread (hbase base (by simp)) hclosed).under (f := .type)
    refine .ite (fun _ => hcall) fun _ => .closed (.nodeFrom rfl rfl
      (fun _ _ => hread.cons fun lo hargs => ?_) ?_)
    · have hpart := hargs.opened
      rw [hx] at hpart
      simpa [PlacedIn] using hpart
    · have hpart := hplain.children_closed x (by simp [hx])
      simpa using ⟨closed_under.1 hread.plain.closed, hpart⟩
  · exact hcall

theorem yields_sliceBounds {lead : List Node} : Yields false (sliceBounds r lead) fun parts cs =>
    parts = lead ++ cs ∧ ∀ c ∈ cs, c.Closed := by
  have hend (upper capacity : List Node) (hclosed : ∀ c ∈ upper ++ capacity, c.Closed) :
      Reads false (upper ++ capacity) (do expect "]"; return lead ++ upper ++ capacity)
        (Gives false fun parts cs => parts = lead ++ cs ∧ ∀ c ∈ cs, c.Closed) :=
    .expect (.pure fun _ _ hlaid => ⟨_, hlaid.weaken (by simp), List.append_assoc .., hclosed⟩)
  have hcapacity {upper : List Node} (hclosed : ∀ c ∈ upper, c.Closed) :
      Reads false upper (do
        let capacity ← if ← skip? ":" then pure [(← r.expression).under .capacity] else pure []
        expect "]"
        return lead ++ upper ++ capacity)
        (Gives false fun parts cs => parts = lead ++ cs ∧ ∀ c ∈ cs, c.Closed) := by
    refine .skip (h.expression.take fun e hclosed' => .let_pure ?_) (.let_pure ?_)
    · refine (Reads.replace (upper ++ [e.under .capacity]) ?_ (hend _ _ ?_)).weaken (by simp)
      · simp [placedIn_append_iff, PlacedIn]
      · simpa [or_imp, forall_and] using ⟨hclosed, hclosed'⟩
    · have hnone := hend upper [] (by simpa using hclosed)
      rwa [List.append_nil] at hnone
  refine .peeks peeks_nextIs fun _ => .peeks peeks_nextIs fun _ => .ite (fun _ => ?_) fun _ => ?_
  · exact .let_pure (hcapacity (List.forall_mem_nil _))
  · refine h.expression.take fun e hclosed => .let_pure ?_
    refine (Reads.replace [e.under .upper] ?_ (hcapacity ?_)).weaken (by simp)
    · simp [PlacedIn]
    · simpa using hclosed

omit h in
theorem mapM_asType?_cons_eq_some {c : Node} {cs ds : List Node}
    (hds : (c :: cs).mapM (·.asType?) = some ds) :
    ∃ d es, ds = d :: es ∧ c.asType? = some d ∧ cs.mapM (·.asType?) = some es := by
  rw [List.mapM_cons] at hds
  obtain ⟨d, hd, hds⟩ := Option.bind_eq_some_iff.1 hds
  obtain ⟨es, hes, heq⟩ := Option.bind_eq_some_iff.1 hds
  exact ⟨d, es, (Option.some.inj heq).symm, hd, hes⟩

omit h in
theorem exists_of_mem_mapM_asType? {cs ds : List Node} {d : Node}
    (hds : cs.mapM (·.asType?) = some ds) (hd : d ∈ ds) : ∃ c ∈ cs, c.asType? = some d := by
  induction cs generalizing ds with
  | nil =>
    obtain rfl : [] = ds := Option.some.inj hds
    exact absurd hd List.not_mem_nil
  | cons c cs ih =>
    obtain ⟨d', es, rfl, hd', hes⟩ := mapM_asType?_cons_eq_some hds
    rcases List.mem_cons.1 hd with rfl | hd
    · exact ⟨c, List.mem_cons_self, hd'⟩
    · obtain ⟨c', hc', heq⟩ := ih hes hd
      exact ⟨c', List.mem_cons_of_mem _ hc', heq⟩

omit h in
/-- Expressions that are all read as types stay where they are. -/
theorem placedIn_mapM {cs ds : List Node} {lo hi : Nat} (hds : cs.mapM (·.asType?) = some ds)
    (hcs : PlacedIn cs lo hi) (hclosed : ∀ c ∈ cs, c.Closed) :
    PlacedIn ds lo hi ∧ ∀ d ∈ ds, d.Closed := by
  induction cs generalizing ds lo with
  | nil =>
    obtain rfl : [] = ds := Option.some.inj hds
    exact ⟨trivial, nofun⟩
  | cons c cs ih =>
    obtain ⟨d, ds', rfl, hd, hds'⟩ := mapM_asType?_cons_eq_some hds
    obtain ⟨hc, hclosed⟩ := List.forall_mem_cons.1 hclosed
    have hread := reread_asType? hcs.2.1 hc hd
    exact ⟨hread.cons (fun _ h => (ih hds' h hclosed).1) hcs,
      List.forall_mem_cons.2 ⟨hread.plain.closed, (ih hds' hcs.2.2.2 hclosed).2⟩⟩

/-- Kind and parts of what a bracket after the base makes of it. -/
def Indexed (base : Node) (p : Kind × List Node) (cs : List Node) : Prop :=
  cs = p.2 ∧ p.1.isPlain = true ∧ (∀ c ∈ p.2, c.Closed) ∧
    p.2.head?.map Node.start = some base.start

omit h in
theorem gives_indexed {b : Bool} {pre cs : List Node} {kind : Kind} {c : Node} {lo hi : Nat}
    (hlaid : Laid b pre lo hi) (hb : b = true) (hk : kind.isPlain = true)
    (hplaced : PlacedIn pre lo hi → PlacedIn (c :: cs) lo hi) (hstart : c.start = base.start)
    (hclosed : ∀ d ∈ c :: cs, d.Closed) : Gives true (Indexed base) (kind, c :: cs) lo hi :=
  ⟨_, ⟨fun _ => hlaid.1 hb, hplaced hlaid.2⟩, rfl, hk, hclosed, congrArg some hstart⟩

theorem reads_bracketStep (hclosed : base.Closed) :
    Reads true [base] (bracketStep r base) (Gives true (One Closed)) := by
  refine .assume fun hbase => .expect (.bind (c := true) (Q := Indexed base) (.within ?_) ?_)
  · have hbase := hbase base (by simp)
    refine .skip ?_ (h.expression.take fun first hclosed' => ?_)
    · refine (yields_sliceBounds h).bind fun parts cs hparts => .pure fun _ _ hlaid => ?_
      obtain ⟨rfl, hbounds⟩ := hparts
      exact gives_indexed hlaid rfl rfl (by simp [PlacedIn]) start_under
        (List.forall_mem_cons.2 ⟨closed_under.2 hclosed, hbounds⟩)
    · refine .skip ?_ (.skip ?_ ?_)
      · refine (yields_sliceBounds h).bind fun parts cs hparts => .pure fun _ _ hlaid => ?_
        obtain ⟨rfl, hbounds⟩ := hparts
        exact gives_indexed hlaid rfl rfl (by simp [PlacedIn]) start_under
          (List.forall_mem_cons.2 ⟨closed_under.2 hclosed,
            List.forall_mem_cons.2 ⟨closed_under.2 hclosed', hbounds⟩⟩)
      · refine .ite (fun _ => .ite (fun htype => ?_) fun _ => .pure fun _ _ hlaid => ?_)
          fun hne => absurd rfl hne
        · split
          · next t ht =>
            have hread := (reread_asType? hbase hclosed ht).under (f := .type)
            refine .pure fun _ _ hlaid => gives_indexed hlaid rfl rfl
              (hread.cons fun _ => by simp [PlacedIn]) hread.start ?_
            simpa using ⟨closed_under.1 hread.plain.closed, hclosed'⟩
          · exact .failure
        · exact gives_indexed hlaid rfl rfl (by simp [PlacedIn]) start_under
            (by simpa using ⟨hclosed, hclosed'⟩)
      · refine .expect ((yields_listUntil h.expression).all.take fun more hclosed'' =>
          .expect ?_)
        split
        · next args hargs =>
          split
          · next t ht =>
            have hread := (reread_asType? hbase hclosed ht).under (f := .type)
            have hparts := List.forall_mem_cons.2 ⟨hclosed', hclosed''⟩
            refine .pure fun lo hi hlaid => ?_
            obtain ⟨_, hargsClosed⟩ :=
              placedIn_mapM hargs (PlacedIn.sublist hlaid.2 (by simp)) hparts
            refine gives_indexed hlaid rfl rfl (hread.cons fun lo hrest => ?_) hread.start
              (List.forall_mem_cons.2 ⟨hread.plain.closed, by simpa using hargsClosed⟩)
            exact placedIn_map_under.2 (placedIn_mapM hargs hrest hparts).1
          · exact .failure
        · exact .failure
  · rintro ⟨kind, parts⟩ cs ⟨hcs, hkind, hparts, hstart⟩
    subst hcs
    exact .closed (.nodeFrom hkind hstart (fun _ _ h => h) hparts)

theorem reads_dotStep (hclosed : base.Closed) :
    Reads true [base] (dotStep r base) (Gives true (One Closed)) := by
  refine .expect (.skip ?_ ?_)
  · have htype : Yields true (enclosed do
        let t ← r.type
        expect ")"
        return t) (One Plain) :=
      .within (h.type.take fun t hplain =>
        .expect (.pure fun _ _ hlaid => ⟨_, hlaid, rfl, hplain⟩))
    refine htype.take fun t hplain => .closed (.nodeFrom rfl rfl ?_ ?_)
    · simp [PlacedIn]
    · simpa using ⟨hclosed, hplain.closed⟩
  · refine yields_fieldIdentifier.take fun f hplain => ?_
    refine .nodeFrom_of rfl (by simp [PlacedIn]) (fun n hn hchildren => ?_) fun n hn hchildren => ?_
    · exact ⟨fun f hf => absurd hf (by simp [hn, Kind.entered?]),
        fun f hf => absurd hf (by simp [hn, Kind.entered?]), fun _ c hc => by
          rw [hchildren] at hc
          rw [List.mem_singleton.1 hc, kind_under]
          exact hplain.plain, fun htoken => absurd (hn.symm.trans htoken) (by decide)⟩
    · refine closed_iff.2 (.inr ⟨by rw [hn]; rfl, ?_⟩)
      rw [hchildren]
      simpa using ⟨hclosed, hplain.closed⟩

/-- The step after the base, if there is one. -/
def Step (base : Node) (n? : Option Node) (cs : List Node) : Prop :=
  cs = [n?.getD base] ∧ ∀ n ∈ n?, n.Closed

theorem reads_postfix? (hclosed : base.Closed) :
    Reads true [base] (postfix? r base) (Gives true (Step base)) := by
  have hnone : Reads true [base] (pure none : Read (Option Node)) (Gives true (Step base)) :=
    .pure fun _ _ hlaid => ⟨_, hlaid, rfl, nofun⟩
  have hsome {pre : List Node} {x : Read Node} (hx : Reads true pre x (Gives true (One Closed))) :
      Reads true pre (do return some (← x)) (Gives true (Step base)) :=
    .take hx fun n hclosed => .pure fun _ _ hlaid =>
      ⟨_, hlaid, rfl, fun m hm => Option.some.inj hm ▸ hclosed⟩
  refine .peeks peeks_broken fun _ => .ite (fun _ => hnone) fun _ => .peeks peeks_peek fun t? => ?_
  cases t? with
  | none => exact hnone
  | some t =>
    refine .ite (fun _ => .peeks .get fun _ => .ite (fun _ => hnone) fun _ =>
      hsome (reads_dotStep h hclosed))
      fun _ => .ite (fun _ => hsome (reads_callStep h hclosed)) fun _ =>
      .ite (fun _ => hsome (reads_bracketStep h hclosed)) fun _ => .ite (fun _ => ?_) fun _ => hnone
    refine .peeks .get fun s => .assume fun hplaced => ?_
    split
    · exact hnone
    · next t ht =>
      have hread := ((readAs_of_literalType? ht).reread (hplaced base (by simp)) hclosed).under (f := .type)
      refine h.literalValue.take fun body hclosed' => ?_
      exact hsome (.closed (.nodeFrom rfl rfl (fun _ _ => hread.cons fun _ => by simp [PlacedIn])
        (by simpa using ⟨closed_under.1 hread.plain.closed, hclosed'⟩)))

theorem reads_postfixes {fuel : Nat} (hclosed : base.Closed) :
    Reads true [base] (postfixes r fuel base) (Gives true (One Closed)) := by
  induction fuel generalizing base with
  | zero => exact .failure
  | succ fuel ih =>
    refine .take (reads_postfix? h hclosed) fun n? hclosed' => ?_
    cases n? with
    | none => exact .pure fun _ _ hlaid => ⟨_, hlaid, rfl, hclosed⟩
    | some n => exact ih (hclosed' n rfl)

theorem yields_unaryRule : Yields true (unaryRule r) (One Closed) := by
  refine .peek (fun t => .peeks peeks_peekSecond fun t' => .ite (fun _ => ?_) fun _ =>
    .ite (fun _ => ?_) fun _ => ?_) .failure
  · refine Reads.mono (Yields.take (yields_channelType h) fun base hplain => ?_)
      fun _ _ _ hgives _ => hgives
    exact reads_postfixes h hplain.closed
  · refine yields_bare.take fun op hplain => h.unary.take fun x hclosed => ?_
    refine .get_ite (fun htype => .get fun s lo hlaid hstart => ?_) fun _ =>
      .get fun s lo hlaid hstart => ?_
    · exact Gives.closed (gives_mk rfl hstart rfl ⟨hlaid.1, hlaid.2.sublist (by simp)⟩
        (by simpa using hclosed))
    · exact Gives.closed (gives_mk rfl hstart rfl ⟨hlaid.1, by simpa [PlacedIn] using hlaid.2⟩
        (by simpa using ⟨hplain.closed, hclosed⟩))
  · refine Reads.mono (Yields.take (yields_operand h) fun base hclosed => ?_)
      fun _ _ _ hgives _ => hgives
    exact reads_postfixes h hclosed

end
end RouteCheck.Reader
