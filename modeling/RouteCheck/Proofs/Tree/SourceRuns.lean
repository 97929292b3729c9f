import RouteCheck.Proofs.Tree.RuleRuns
import RouteCheck.Proofs.Tree.StatementReads

/-!
Types can be read off the tree of a source file.

What declarations and statements are made of is legible, as what types and expressions are made of is.
Only blocks have to cover what was taken, since a function literal ends where its body does.

Main statements:
  1. `takes_simpleFrom`, `gets_switchHeader`: what is taken apart again to make another node.
  2. `gets_statementRule`, `gets_read`: the rules that contain one another, by induction on how deep
     they nest.
  3. `legible_sourceFile`: the declarations of a file.
-/

namespace RouteCheck.Reader
open Node Token

def Sheet (ts : List Token) (_ : List Token) (n : Node) : Prop := n.Legible ts

/-- Types can be read off all of the nodes. -/
def Sheets (ts : List Token) (_ : List Token) (ns : List Node) : Prop := AllLegible ts ns

section
variable {ts pre : List Token} {b : Nat} {r : Rules} {kind : Kind}

theorem gets_legibleNode {x : Read (List Node)} (hkind : kind.hasText = false)
    (hx : Gets ts x (Sheets ts)) : Gets ts (node kind x) (Sheet ts) :=
  .peek (fun _ => .bind hx fun _ _ hns => .get fun _ _ _ => .pure fun _ => legible_mk hkind hns)
    .failure

theorem takes_legibleFrom {first : Node} {children : List Node} (hkind : kind.hasText = false)
    (h : AllLegible ts children) : Takes ts b b pre (nodeFrom first kind children) (Sheet ts) :=
  .get fun _ _ _ => .pure fun _ => legible_mk hkind h

theorem takes_legibleUnder {x : Read Node} {f : Field} (hx : Gets ts x (Sheet ts)) :
    Takes ts b b pre (do return [(← x).under f]) (Sheets ts) :=
  .take hx fun _ _ hn => .pure fun _ => List.forall_mem_singleton.2 (legible_under.2 hn)

theorem gets_legibleName (hkind : kind.isName = true) :
    Gets ts (leaf kind (·.isIdentifier)) (Sheet ts) :=
  (gets_name hkind).mono fun _ _ hn => hn.1.2

theorem gets_labelName : Gets ts (leaf .labelName (·.isIdentifier)) (Sheet ts) :=
  (gets_leaf rfl fun _ => deepen_of_isIdentifier).legible

/-! ## Declarations -/

theorem gets_oneOrGroup {item : Read Node} (hitem : Gets ts item (Sheet ts)) :
    Gets ts (oneOrGroup r item) fun _ p => AllLegible ts p.2 :=
  .skip rfl
    (fun _ => .within (.take (gets_lines hitem) fun _ _ his => .expect rfl fun _ =>
      .pure fun _ => his))
    (.take hitem fun _ _ hi => .pure fun _ => List.forall_mem_singleton.2 hi)

theorem takes_group {item : Read Node} (hitem : Gets ts item (Sheet ts))
    (hkind : kind.hasText = false) : Takes ts b b pre (do
      let some first ← peek | failure
      let (grouped, specs) ← oneOrGroup r item
      if grouped then
        let span := { first.span with stop := (← get).last }
        return [.mk { kind, span } specs]
      return specs) (Sheets ts) :=
  .peek (fun _ => .take (gets_oneOrGroup hitem) fun _ _ hspecs => .ite
    (fun _ => .get fun _ _ _ => .pure fun _ => List.forall_mem_singleton.2 (legible_mk hkind hspecs))
    fun _ => .pure fun _ => hspecs) .failure

theorem gets_importSpec : Gets ts importSpec (Sheet ts) := by
  refine gets_legibleNode rfl (.bind (P := Sheets ts) ?_ fun name _ hname =>
    .take gets_stringLiteral fun path _ hpath => .pure fun _ => ?_)
  · have hmark {kind : Kind} {w : String} (hkind : kind.hasText = false)
        (hw : isPlainMark w = true) : Gets ts (leaf kind (·.is w)) (Sheet ts) :=
      (gets_leaf hkind fun _ _ => deepen_of_is hw).legible
    exact .orElse (takes_legibleUnder (hmark rfl rfl)) (.orElse (takes_legibleUnder (hmark rfl rfl))
      (.orElse (takes_legibleUnder (gets_legibleName rfl)) gets_none))
  · exact allLegible_append.2 ⟨hname, by simpa using hpath.2⟩

theorem gets_importDeclaration : Gets ts (importDeclaration r) (Sheet ts) :=
  gets_legibleNode rfl (.expect rfl fun _ => takes_group gets_importSpec rfl)

theorem gets_nameList {commas : Bool} : Gets ts (nameList r commas) (Sheets ts) := by
  refine .take (gets_legibleName rfl) fun first _ hfirst => .take (gets_many
    ((gets_peeks peeks_continues).mono fun _ _ hnone _ => hnone) (P := AllLegible ts)
    (.take (gets_bare rfl).legible fun c _ hc => .take (gets_legibleName rfl) fun n _ hn =>
      .pure fun _ => ?_)) fun more _ hmore => .pure fun _ =>
        allLegible_cons.2 ⟨legible_under.2 hfirst, allLegible_flatten.2 hmore.2⟩
  have hn : n.Legible ts := hn
  split <;> simp [hc, hn]

end

section
variable {ts : List Token} {r : Rules} (h : r.Get ts)
include h

theorem gets_initialValues : Gets ts (initialValues r) (Sheets ts) :=
  .peeks peeks_continues fun _ => .ite
    (fun _ => .expect rfl fun _ => .take (gets_expressionList h) fun _ _ hv => .pure fun _ =>
      List.forall_mem_singleton.2 (legible_under.2 hv.1.2)) fun _ => gets_none

theorem takes_withValues {b : Nat} {pre : List Token} {ns : List Node} (hns : AllLegible ts ns) :
    Takes ts b b pre (do return ns ++ (← initialValues r)) (Sheets ts) :=
  .take (gets_initialValues h) fun _ _ hvs => .pure fun _ => allLegible_append.2 ⟨hns, hvs⟩

theorem takes_typedValues {b : Nat} {pre : List Token} {ns : List Node} (hns : AllLegible ts ns) :
    Takes ts b b pre (do
      let t ← r.type
      return ns ++ [t.under .type] ++ (← initialValues r)) (Sheets ts) :=
  .take h.type fun _ _ ht => takes_withValues h
    (allLegible_append.2 ⟨hns, List.forall_mem_singleton.2 (legible_under.2 ht.2)⟩)

theorem gets_constSpec : Gets ts (constSpec r) (Sheet ts) :=
  gets_legibleNode rfl (.take gets_nameList fun _ _ hnames => .peeks peeks_ended fun _ =>
    .ite (fun _ => .pure fun _ => hnames) fun _ => .peeks peeks_nextIs fun _ =>
    .peeks peeks_nextIs fun _ => .ite (fun _ => takes_withValues h hnames)
      fun _ => takes_typedValues h hnames)

theorem gets_varSpec : Gets ts (varSpec r) (Sheet ts) :=
  gets_legibleNode rfl (.take gets_nameList fun _ _ hnames => .peeks peeks_nextIs fun _ =>
    .ite (fun _ => takes_withValues h hnames) fun _ => takes_typedValues h hnames)

theorem gets_constDeclaration : Gets ts (constDeclaration r) (Sheet ts) :=
  gets_legibleNode rfl (.expect rfl fun _ => .take (gets_oneOrGroup (gets_constSpec h))
    fun _ _ hp => .pure fun _ => hp)

theorem gets_varDeclaration : Gets ts (varDeclaration r) (Sheet ts) :=
  gets_legibleNode rfl (.expect rfl fun _ => takes_group (gets_varSpec h) rfl)

theorem gets_typeParameterList : Gets ts (typeParameterList r) (Sheet ts) := by
  have hdeclaration : Gets ts (typeParameterDeclaration r) (Sheet ts) :=
    gets_legibleNode rfl (.take (gets_sepBy rfl (gets_identifier.mono fun _ _ hn =>
      ⟨hn.1.1.ne_nil, hn.1.2⟩)) fun names _ hnames => .take (gets_typeElem h) fun t _ ht =>
        .pure fun _ => allLegible_append.2 ⟨allLegible_map_under.2 hnames.2, by simpa using ht.2⟩)
  exact gets_legibleNode rfl (.open fun _ => .within (.take (gets_listUntil hdeclaration)
    fun _ _ hps => .close fun _ _ => .ite (fun _ => .failure) fun _ => .pure fun _ => hps))

theorem gets_typeSpec : Gets ts (typeSpec r) (Sheet ts) := by
  have hrest {b : Nat} {pre : List Token} {name : Node} {params : List Node} {kind : Kind}
      (hkind : kind.hasText = false) (hname : name.Legible ts) (hparams : AllLegible ts params) :
      Takes ts b b pre (do
        let t ← r.type
        nodeFrom name kind (name.under .name :: params ++ [t.under .type])) (Sheet ts) :=
    .take h.type fun t _ ht => takes_legibleFrom hkind (by simp [hname, hparams, ht.2])
  refine .take (gets_legibleName rfl) fun name _ hname => .bind (c := 0) (P := Sheets ts)
    (.orElse (takes_legibleUnder (gets_typeParameterList h)) (.pure fun _ => allLegible_nil))
    fun params _ hparams => ?_
  exact .skip rfl (fun _ => hrest rfl hname hparams) (hrest rfl hname hparams)

theorem gets_typeDeclaration : Gets ts (typeDeclaration r) (Sheet ts) :=
  gets_legibleNode rfl (.expect rfl fun _ => .take (gets_oneOrGroup (gets_typeSpec h))
    fun _ _ hp => .pure fun _ => hp)

theorem takes_optionalBody {b : Nat} {pre : List Token} {ns : List Node} (hns : AllLegible ts ns) :
    Takes ts b b pre (do return ns ++ (← optionalBody r)) (Sheets ts) := by
  have hbody : Gets ts (optionalBody r) (Sheets ts) := .peeks peeks_continues fun _ =>
    .ite (fun _ => takes_legibleUnder h.block.legible) fun _ => gets_none
  exact .take hbody fun _ _ hvs => .pure fun _ => allLegible_append.2 ⟨hns, hvs⟩

theorem gets_functionDeclaration : Gets ts (functionDeclaration r) (Sheet ts) := by
  have hrest {b : Nat} {pre : List Token} {name : Node} {params : List Node}
      (hname : name.Legible ts) (hparams : AllLegible ts params) : Takes ts b b pre (do
        let sig ← signature r
        return name.under .name :: params ++ sig ++ (← optionalBody r)) (Sheets ts) :=
    .take (gets_signature h) fun sig _ hsig =>
      takes_optionalBody h (by simp [hname, hparams, hsig.2])
  exact gets_legibleNode rfl (.expect rfl fun _ => .take (gets_legibleName rfl) fun name _ hname =>
    .peeks peeks_nextIs fun _ => .ite (fun _ => .take (gets_typeParameterList h) fun ps _ hps =>
      .let_pure (hrest hname (List.forall_mem_singleton.2 (legible_under.2 hps))))
      fun _ => .let_pure (hrest hname allLegible_nil))

theorem gets_methodDeclaration : Gets ts (methodDeclaration r) (Sheet ts) :=
  gets_legibleNode rfl (.expect rfl fun _ => .take (gets_parameterList h) fun receiver _ hreceiver =>
    .take gets_fieldIdentifier fun name _ hname => .take (gets_signature h) fun sig _ hsig =>
      takes_optionalBody h (by simp [hreceiver.2, hname.1.2, hsig.2]))

/-! ## Simple statements -/

section
variable {pre : List Token} {left : Node} (hleft : left.Legible ts)
  (hlist : left.kind = .expressionList)
include hleft hlist

omit h in
theorem takes_onlyPart {b : Nat} : Takes ts b b pre (onlyPart left) (Sheet ts) := by
  unfold onlyPart
  split
  · next e he => exact .pure fun _ => hleft.children (by rw [hlist]; rfl) e (by simp [he])
  · exact .failure

theorem takes_simpleFrom : Takes ts 0 0 pre (simpleFrom r left) (Sheet ts) := by
  have hwrap {pre : List Token} {kind : Kind} (hkind : kind.hasText = false) :
      Takes ts 0 0 pre (onlyPart left >>= fun e => nodeFrom left kind [e]) (Sheet ts) :=
    .bind (takes_onlyPart hleft hlist) fun e _ he =>
      takes_legibleFrom hkind (List.forall_mem_singleton.2 he)
  refine .peeks peeks_broken fun _ => .ite (fun _ => hwrap rfl) fun _ => .skip rfl (fun _ => ?_)
    (.skip rfl (fun _ => hwrap rfl) (.skip rfl (fun _ => hwrap rfl) (.skip rfl (fun _ => ?_)
      (.take (gets_operator? (by unfold PlainMarks; decide)) fun op? _ hop => ?_))))
  · refine .take (gets_expressionList h) fun right _ hright => .get fun _ _ _ => .pure fun _ =>
      legible_mk_short rfl (by simp [hleft, hright.1.2]) (by simp [hlist, hright.2])
  · exact .bind (takes_onlyPart hleft hlist) fun c _ hc => .take h.expression fun v _ hv =>
      takes_legibleFrom rfl (allLegible_cons.2 ⟨legible_under.2 hc, by simpa using hv.2⟩)
  · cases op? with
    | none => exact hwrap rfl
    | some op =>
      exact .take (gets_expressionList h) fun right _ hright =>
        takes_legibleFrom rfl (by simp [hleft, hop.2 op rfl, hright.1.2])

end

theorem gets_simpleStatement : Gets ts (simpleStatement r) (Sheet ts) :=
  .bind (gets_expressionList h) fun _ _ hn => takes_simpleFrom h hn.1.2 hn.2

/-! ## Control statements -/

theorem gets_statementList : Gets ts (statementList r) (Sheets ts) :=
  .peek (fun _ => .take (gets_lines h.statement) fun _ _ hss => .ite (fun _ => .pure fun _ =>
    allLegible_nil) fun _ => .get fun _ _ _ => .pure fun _ =>
      List.forall_mem_singleton.2 (legible_mk rfl hss)) gets_none

theorem gets_blockRule : Gets ts (blockRule r) (Whole ts) :=
  gets_node rfl (.expect rfl fun _ => .within (.take (gets_statementList h) fun _ _ hss =>
    .expect rfl fun _ => .pure fun _ => ⟨by simp, hss⟩))

theorem takes_ifHeader {b : Nat} {pre : List Token} : Takes ts b b pre (inHeader do
    let s ← simpleStatement r
    if ← skip? ";" then
      return [s.under .initializer, (← r.expression).under .condition]
    match s.kind, s.children with
    | .expressionStatement, [e] => return [e.under .condition]
    | _, _ => failure) (Sheets ts) := by
  refine .within (.take (gets_simpleStatement h) fun s _ hs => .skip rfl (fun _ => ?_) ?_)
  · exact .take h.expression fun e _ he => .pure fun _ =>
      allLegible_cons.2 ⟨legible_under.2 hs, by simpa using he.2⟩
  · refine .ite (fun hp => absurd hp Bool.false_ne_true) fun _ => ?_
    split
    · next e hkind he =>
      have he : e.Legible ts := hs.children (by rw [hkind]; rfl) e (by simp [he])
      exact .pure fun _ => List.forall_mem_singleton.2 (legible_under.2 he)
    · exact .failure

theorem gets_ifStatement : Gets ts (ifStatement r) (Sheet ts) := by
  refine gets_legibleNode rfl (.expect rfl fun _ => .bind (takes_ifHeader h) fun head _ hhead =>
    .take h.block fun body _ hbody => ?_)
  have hdone {alternative : List Node} (halternative : AllLegible ts alternative) :
      AllLegible ts (head ++ [body.under .consequence] ++ alternative) :=
    allLegible_append.2 ⟨allLegible_append.2 ⟨hhead, by simpa using hbody.2⟩, halternative⟩
  refine .skip rfl (fun _ => .ite (fun _ => .peeks peeks_nextIs fun _ => .ite (fun _ => ?_)
    fun _ => ?_) fun hne => absurd rfl hne) (.let_pure (.pure fun _ => hdone allLegible_nil))
  · exact .take h.block fun a _ ha => .let_pure (.pure fun _ => hdone (by simpa using ha.2))
  · exact .take h.statement fun a _ ha => .let_pure (.pure fun _ =>
      hdone (List.forall_mem_singleton.2 (legible_under.2 ha)))

theorem gets_forClauseFrom : Gets ts (forClauseFrom r) (Sheets ts) := by
  have hrest {pre : List Token} {condition : List Node} (hcondition : AllLegible ts condition) :
      Takes ts 0 0 pre (do
        expect ";"
        let update ← if ← nextIs openBrace then pure [] else
          pure [(← simpleStatement r).under .update]
        return condition ++ update) (Sheets ts) :=
    .expect rfl fun _ => .peeks peeks_nextIs fun _ => .ite
      (fun _ => .let_pure (.pure fun _ => allLegible_append.2 ⟨hcondition, allLegible_nil⟩))
      fun _ => .take (gets_simpleStatement h) fun s _ hs => .let_pure (.pure fun _ =>
        allLegible_append.2 ⟨hcondition, List.forall_mem_singleton.2 (legible_under.2 hs)⟩)
  exact .peeks peeks_nextIs fun _ => .ite (fun _ => .let_pure (hrest allLegible_nil)) fun _ =>
    .take h.expression fun e _ he => .let_pure (hrest (by simpa using he.2))

theorem gets_forHeader : Gets ts (forHeader r) (Sheets ts) := by
  have hone {pre : List Token} {kind : Kind} {first : Token} {ns : List Node}
      (hkind : kind.hasText = false) (hns : AllLegible ts ns) : Takes ts 0 0 pre (do
        let span ← (do return { first.span with stop := (← get).last } : Read Span)
        return [.mk { kind, span } ns]) (Sheets ts) := by
    rw [bind_assoc]
    exact .get fun _ _ _ => .let_pure (.pure fun _ =>
      List.forall_mem_singleton.2 (legible_mk hkind hns))
  refine .peeks peeks_nextIs fun _ => .ite (fun _ => .pure fun _ => allLegible_nil) fun _ =>
    .peek (fun first => .skip rfl (fun _ => ?_) (.skip rfl (fun _ => ?_)
      (.take (gets_expressionList h) fun left _ hleft => .orElse ?_ ?_))) .failure
  · exact .take (gets_forClauseFrom h) fun parts _ hparts => hone rfl hparts
  · exact .take h.expression fun x _ hx => hone rfl (by simpa using hx.2)
  · exact .take (.orElse (gets_bare rfl) (gets_bare rfl)) fun mark _ hmark => .expect rfl fun _ =>
      .take h.expression fun x _ hx => hone rfl (by simp [hleft.1.2, hmark.2, hx.2])
  · refine .bind (takes_simpleFrom h hleft.1.2 hleft.2) fun s _ hs => .skip rfl (fun _ => ?_) ?_
    · exact .take (gets_forClauseFrom h) fun parts _ hparts =>
        hone rfl (allLegible_cons.2 ⟨legible_under.2 hs, hparts⟩)
    · refine .ite (fun hp => absurd hp Bool.false_ne_true) fun _ => ?_
      split
      · next e hkind he =>
        exact .pure fun _ =>
          List.forall_mem_singleton.2 (hs.children (by rw [hkind]; rfl) e (by simp [he]))
      · exact .failure

theorem gets_forStatement : Gets ts (forStatement r) (Sheet ts) :=
  gets_legibleNode rfl (.expect rfl fun _ => .bind (.within ((gets_forHeader h).after fun _ _ hns =>
    hns)) fun _ _ hhead => .take h.block fun _ _ hbody => .pure fun _ =>
      allLegible_append.2 ⟨hhead, by simpa using hbody.2⟩)

/-! ## Clauses -/

theorem gets_clauseBody : Gets ts (clauseBody r) (Sheets ts) :=
  .expect rfl fun _ => (gets_statementList h).after fun _ _ hss => hss

theorem gets_defaultCase : Gets ts (defaultCase r) (Sheet ts) :=
  gets_legibleNode rfl (.expect rfl fun _ => (gets_clauseBody h).after fun _ _ hss => hss)

theorem gets_expressionCase : Gets ts (expressionCase r) (Sheet ts) :=
  gets_legibleNode rfl (.expect rfl fun _ => .take (gets_expressionList h) fun _ _ hv =>
    .take (gets_clauseBody h) fun _ _ hss => .pure fun _ =>
      allLegible_cons.2 ⟨legible_under.2 hv.1.2, hss⟩)

theorem gets_typeCase : Gets ts (typeCase r) (Sheet ts) := by
  have hitem : Gets ts (do
      let c ← bare ","
      let t ← r.type
      return [c.under .type, t.under .type]) (Sheets ts) :=
    .take (gets_bare rfl) fun c _ hc => .take h.type fun t _ ht => .pure fun _ =>
      allLegible_cons.2 ⟨legible_under.2 hc.2, by simpa using ht.2⟩
  refine gets_legibleNode rfl (.expect rfl fun _ => .take h.type fun first _ hfirst =>
    .take (gets_many ((gets_peeks peeks_nextIs).mono fun _ _ hnone _ => hnone) hitem)
      fun more _ hmore => .take (gets_clauseBody h) fun ss _ hss => .pure fun _ => ?_)
  exact allLegible_append.2 ⟨allLegible_cons.2
    ⟨legible_under.2 hfirst.2, allLegible_flatten.2 hmore.2⟩, hss⟩

theorem gets_communication : Gets ts (communication r) (Sheet ts) := by
  refine .take (gets_expressionList h) fun left _ hleft => ?_
  have hparts : AllLegible ts left.children := hleft.1.2.children (by rw [hleft.2]; rfl)
  have hreceive {pre : List Token} : Takes ts 0 0 pre (do
      nodeFrom left .receiveStatement [left.under .left, (← r.expression).under .right])
      (Sheet ts) :=
    .take h.expression fun e _ he => takes_legibleFrom rfl (by simp [hleft.1.2, he.2])
  refine .skip rfl (fun _ => .skip rfl (fun _ => .ite (fun _ => hreceive) fun hne => absurd rfl hne)
    (.ite (fun _ => hreceive) fun hne => absurd rfl hne)) (.skip rfl
      (fun _ => .ite (fun _ => hreceive) fun hne => absurd rfl hne)
      (.ite (fun hp => absurd hp nofun) fun _ => .skip rfl (fun _ => ?_) ?_))
  · exact .take h.expression fun v _ hv => takes_legibleFrom rfl
      (allLegible_append.2 ⟨allLegible_map_under.2 hparts, by simpa using hv.2⟩)
  · exact takes_legibleFrom rfl (allLegible_map_under.2 hparts)

theorem gets_communicationCase : Gets ts (communicationCase r) (Sheet ts) :=
  gets_legibleNode rfl (.expect rfl fun _ => .take (gets_communication h) fun _ _ hc =>
    .take (gets_clauseBody h) fun _ _ hss => .pure fun _ =>
      allLegible_cons.2 ⟨legible_under.2 hc, hss⟩)

theorem takes_clauses {b : Nat} {pre : List Token} {clause : Read Node}
    (hclause : Gets ts clause (Sheet ts)) : Takes ts b b pre (clauses r clause) (Sheets ts) := by
  have hcs : Gets ts (do if ← nextIs "default" then defaultCase r else clause) (Sheet ts) :=
    .peeks peeks_nextIs fun _ => .ite (fun _ => gets_defaultCase h) fun _ => hclause
  exact .expect rfl fun _ => .within (.take (gets_many
    ((gets_peeks (.bind peeks_nextIs fun _ => .pure _)).mono fun _ _ hnone _ => hnone) hcs)
      fun _ _ hcs => .expect rfl fun _ => .pure fun _ => hcs.2)

theorem gets_selectStatement : Gets ts (selectStatement r) (Sheet ts) :=
  gets_legibleNode rfl (.expect rfl fun _ => takes_clauses h (gets_communicationCase h))

omit h in
theorem takes_switched {b : Nat} {pre : List Token} (initial : List Node) (last : Option Node)
    (hinitial : AllLegible ts initial) (hlast : ∀ s ∈ last, s.Legible ts) : Takes ts b b pre (do
      let guard ← skip? "."
      if guard then
        expect "("
        expect "type"
        expect ")"
      match last with
      | none => return (.expressionSwitchStatement, initial)
      | some s =>
        match guard, s.kind, s.children with
        | false, .expressionStatement, [e] =>
          return (.expressionSwitchStatement, initial ++ [e.under .value])
        | true, .expressionStatement, [e] =>
          return (.typeSwitchStatement, initial ++ [e.under .value])
        | true, .shortVarDeclaration, [left, right] =>
          return (.typeSwitchStatement,
            initial ++ [left.under .alias] ++ right.children.map (·.under .value))
        | _, _, _ => failure)
      fun _ (p : Kind × List Node) => p.1.hasText = false ∧ AllLegible ts p.2 := by
  have hmatch {guard : Bool} {pre : List Token} : Takes ts b b pre (match last with
      | none => return (.expressionSwitchStatement, initial)
      | some s =>
        match guard, s.kind, s.children with
        | false, .expressionStatement, [e] =>
          return (.expressionSwitchStatement, initial ++ [e.under .value])
        | true, .expressionStatement, [e] =>
          return (.typeSwitchStatement, initial ++ [e.under .value])
        | true, .shortVarDeclaration, [left, right] =>
          return (.typeSwitchStatement,
            initial ++ [left.under .alias] ++ right.children.map (·.under .value))
        | _, _, _ => failure)
      fun _ (p : Kind × List Node) => p.1.hasText = false ∧ AllLegible ts p.2 := by
    cases last with
    | none => exact .pure fun _ => ⟨rfl, hinitial⟩
    | some s =>
      have hs : s.Legible ts := hlast s rfl
      dsimp only
      split
      · next e hkind he =>
        have he : e.Legible ts := hs.children (by rw [hkind]; rfl) e (by simp [he])
        exact .pure fun _ => ⟨rfl, by simp [hinitial, he]⟩
      · next e hkind he =>
        have he : e.Legible ts := hs.children (by rw [hkind]; rfl) e (by simp [he])
        exact .pure fun _ => ⟨rfl, by simp [hinitial, he]⟩
      · next left right hkind he =>
        have hparts : AllLegible ts s.children := hs.children (by rw [hkind]; rfl)
        have hleft : left.Legible ts := hparts left (by simp [he])
        have hright : right.Legible ts := hparts right (by simp [he])
        have hlist : right.kind = .expressionList := hs.at.lists hkind right (by simp [he])
        have hvalues : AllLegible ts right.children := hright.children (by rw [hlist]; rfl)
        exact .pure fun _ => ⟨rfl, by simp [hinitial, hleft, hvalues]⟩
      · exact .failure
  exact .skip rfl (fun _ => .expect rfl fun _ => .expect rfl fun _ => .expect rfl fun _ => hmatch)
    hmatch

theorem gets_switchHeader : Gets ts (switchHeader r) fun _ p =>
    p.1.hasText = false ∧ AllLegible ts p.2 := by
  refine .peeks peeks_nextIs fun _ => .ite (fun _ => .pure fun _ => ⟨rfl, allLegible_nil⟩) fun _ =>
    .take (gets_simpleStatement h) fun first _ hfirst => ?_
  have hfirst : first.Legible ts := hfirst
  have hinitial : AllLegible ts [first.under .initializer] := by simpa using hfirst
  refine .skip rfl (fun _ => .ite (fun _ => .peeks peeks_nextIs fun _ => .ite (fun _ => ?_)
    fun _ => ?_) fun hne => absurd rfl hne) ?_
  · exact .let_pure (.let_pure (takes_switched [first.under .initializer] none hinitial nofun))
  · rw [bind_map_left]
    refine .take (gets_simpleStatement h) fun s _ hs => .let_pure ?_
    exact takes_switched [first.under .initializer] (some s) hinitial
      fun _ hs' => Option.some.inj hs' ▸ hs
  · exact .let_pure (takes_switched [] (some first) allLegible_nil
      fun _ hs => Option.some.inj hs ▸ hfirst)

theorem gets_switchStatement : Gets ts (switchStatement r) (Sheet ts) := by
  have hheader {pre : List Token} : Takes ts 0 0 pre (switchHeader r) fun _ p =>
      p.1.hasText = false ∧ AllLegible ts p.2 := (gets_switchHeader h).after fun _ _ hp => hp
  refine .peek (fun first => .expect rfl fun _ => .bind (.within hheader) ?_) .failure
  rintro ⟨kind, head⟩ _ ⟨hkind, hhead⟩
  have hclause : Gets ts (if kind = .typeSwitchStatement then typeCase r else expressionCase r)
      (Sheet ts) := .ite (fun _ => gets_typeCase h) fun _ => gets_expressionCase h
  exact .bind (takes_clauses h hclause) fun cs _ hcs => .get fun _ _ _ => .pure fun _ =>
    legible_mk hkind (allLegible_append.2 ⟨hhead, hcs⟩)

/-! ## Statements -/

omit h in
theorem gets_jump {kind : Kind} {word : String} (hkind : kind.hasText = false)
    (hword : isPlainMark word = true) : Gets ts (jump kind word) (Sheet ts) :=
  gets_legibleNode hkind (.expect hword fun _ => .peeks peeks_ended fun _ =>
    .ite (fun _ => .pure fun _ => allLegible_nil) fun _ => .orElse
      (.take gets_labelName fun _ _ hl => .pure fun _ => List.forall_mem_singleton.2 hl)
      (.pure fun _ => allLegible_nil))

theorem gets_labeledStatement : Gets ts (labeledStatement r) (Sheet ts) := by
  refine gets_legibleNode rfl (.take gets_labelName fun l _ hl => .expect rfl fun _ =>
    .peeks peeks_nextIs fun _ => .peeks peeks_nextIs fun _ => .peeks peeks_nextIs fun _ => ?_)
  have hl : (l.under .label).Legible ts := legible_under.2 hl
  exact .ite (fun _ => .pure fun _ => List.forall_mem_singleton.2 hl) fun _ =>
    .take h.statement fun s _ hs => .pure fun _ =>
      allLegible_cons.2 ⟨hl, List.forall_mem_singleton.2 hs⟩

theorem gets_returnStatement : Gets ts (returnStatement r) (Sheet ts) :=
  gets_legibleNode rfl (.expect rfl fun _ => .peeks peeks_ended fun _ => .peeks peeks_nextIs fun _ =>
    .peeks peeks_nextIs fun _ => .ite (fun _ => .pure fun _ => allLegible_nil) fun _ =>
      .take (gets_expressionList h) fun _ _ hv => .pure fun _ =>
        List.forall_mem_singleton.2 hv.1.2)

theorem gets_statementRule : Gets ts (statementRule r) (Sheet ts) := by
  have hnone {pre : List Token} : Takes ts 0 0 pre (pure [] : Read (List Node)) (Sheets ts) :=
    .pure fun _ => allLegible_nil
  have hexpression {pre : List Token} : Takes ts 0 0 pre (do return [← r.expression]) (Sheets ts) :=
    .take h.expression fun _ _ he => .pure fun _ => List.forall_mem_singleton.2 he.2
  exact .peek (fun _ => .ite (fun _ => gets_legibleNode rfl (.expect rfl fun _ => hnone)) fun _ =>
    .ite (fun _ => h.block.legible) fun _ => .ite (fun _ => gets_ifStatement h) fun _ =>
    .ite (fun _ => gets_forStatement h) fun _ => .ite (fun _ => gets_switchStatement h) fun _ =>
    .ite (fun _ => gets_selectStatement h) fun _ =>
    .ite (fun _ => gets_returnStatement h) fun _ => .ite (fun _ => gets_jump rfl rfl) fun _ =>
    .ite (fun _ => gets_jump rfl rfl) fun _ => .ite (fun _ => gets_jump rfl rfl) fun _ =>
    .ite (fun _ => gets_legibleNode rfl (.expect rfl fun _ => hnone)) fun _ =>
    .ite (fun _ => gets_legibleNode rfl (.expect rfl fun _ => hexpression)) fun _ =>
    .ite (fun _ => gets_legibleNode rfl (.expect rfl fun _ => hexpression)) fun _ =>
    .ite (fun _ => gets_varDeclaration h) fun _ => .ite (fun _ => gets_constDeclaration h) fun _ =>
    .ite (fun _ => gets_typeDeclaration h) fun _ => .peeks peeks_peekSecond fun _ =>
    .ite (fun _ => gets_labeledStatement h) fun _ => gets_simpleStatement h) .failure

end

/-! ## A file -/

/-- What is shown of the nodes that a rule reads. -/
def Goal.Gets (ts : List Token) : Goal → List Token → Node → Prop
  | .statement => Sheet ts
  | _ => Whole ts

theorem gets_read (ts : List Token) (fuel depth : Nat) (goal : Goal) :
    Gets ts (read fuel depth goal : Read Node) (goal.Gets ts) := by
  induction depth generalizing goal with
  | zero => exact fun _ _ _ _ _ _ hrun => nomatch hrun
  | succ depth ih =>
    have h : (rulesAt fuel depth).Get ts :=
      ⟨ih .expression, ih .unary, ih .type, ih .literalValue, ih .block, ih .statement⟩
    cases goal with
    | expression => exact gets_expressionRule h
    | unary => exact gets_unaryRule h
    | type => exact gets_typeRule h
    | block => exact gets_blockRule h
    | statement => exact gets_statementRule h
    | literalValue => exact gets_literalValueRule h

theorem get_rulesAt (ts : List Token) (fuel depth : Nat) : (rulesAt fuel depth).Get ts where
  expression := gets_read ts fuel depth .expression
  unary := gets_read ts fuel depth .unary
  type := gets_read ts fuel depth .type
  literalValue := gets_read ts fuel depth .literalValue
  block := gets_read ts fuel depth .block
  statement := gets_read ts fuel depth .statement

theorem gets_packageClause {ts : List Token} : Gets ts packageClause (Sheet ts) :=
  .peek (fun _ => .bind (c := 0) (P := fun _ ns => ∀ n ∈ ns, n.Legible ts ∧ n.kind.isName = true)
    (.expect rfl fun _ => .take gets_packageIdentifier fun p _ hp => .pure fun _ =>
      List.forall_mem_singleton.2 ⟨hp.1.2, by rw [hp.2]; rfl⟩)
    fun _ _ hns => .get fun _ _ _ => .pure fun _ => legible_mk_names (.inr rfl)
      (fun n hn => (hns n hn).1) fun n hn => (hns n hn).2) .failure

theorem gets_declarations {ts : List Token} {r : Rules} (h : r.Get ts) {fuel : Nat} :
    Gets ts (declarations r fuel) (Sheets ts) := by
  have htop : Gets ts (topLevel r) (Sheet ts) :=
    .orElse gets_packageClause (.orElse gets_importDeclaration (.orElse (gets_functionDeclaration h)
      (.orElse (gets_methodDeclaration h) h.statement)))
  have hnext : Gets ts ((some <$> topLevel r) <|> pure none) fun _ d? =>
      ∀ d ∈ d?, d.Legible ts := by
    refine .orElse ?_ (.pure fun _ => nofun)
    rw [map_eq_pure_bind]
    exact .bind htop fun d _ hd => .pure fun _ _ hd' => Option.some.inj hd' ▸ hd
  induction fuel with
  | zero => exact gets_none
  | succ fuel ih =>
    refine .peeks .get fun s => .ite (fun _ => gets_none) fun _ => .bind hnext fun d? _ hd => ?_
    cases d? with
    | none => exact .pure fun _ => allLegible_nil
    | some d =>
      have hrest {pre : List Token} :
          Takes ts 0 0 pre (do return d :: (← declarations r fuel)) (Sheets ts) :=
        .take ih fun ds _ hds => .pure fun _ => allLegible_cons.2 ⟨hd d rfl, hds⟩
      exact .peeks peeks_broken fun _ => .ite
        (fun _ => .discardSkip rfl (fun _ => hrest) hrest) fun _ => hrest

/-- Types can be read off the declarations of a file. -/
theorem legible_sourceFile {ts : List Token} (hts : ∀ t ∈ ts, t.Plain) :
    AllLegible ts (sourceFile ts).children := by
  unfold sourceFile
  simp only [children]
  split
  · next ds s' hrun =>
    obtain ⟨_, _, _, _, hds⟩ := gets_declarations (get_rulesAt ts _ _) hts { tokens := ts } ds s'
      (List.suffix_refl ts) ⟨0, rfl⟩ hrun
    exact hds
  · exact allLegible_nil

end RouteCheck.Reader
