import RouteCheck.Proofs.Tree.Reads

/-!
What the rules for types read lies in order.

Main statements:
  1. `readAs_of_asType?`: the ways to read an expression as a type; `reread_asType?`: it stays where
     it is.
  2. `placedIn_grouped`: the declarations that a parameter list is grouped into.
  3. `yields_signature`, `yields_typeRule`.
-/

namespace RouteCheck

/-! ## Expressions read as types -/

namespace Node

/-- The ways to read an expression as a type. -/
inductive ReadAs : Node → Node → Prop
  | name {n : Node} (hkind : n.kind = .identifier) : ReadAs n (n.as .typeIdentifier)
  | qualified {h : Head} {p f : Node} (hkind : h.kind = .selectorExpression)
      (hp : p.kind = .identifier) : ReadAs (mk h [p, f]) (mk { h with kind := .qualifiedType }
        [(p.as .packageIdentifier).under .package, (f.as .typeIdentifier).under .name])
  | parenthesized {h : Head} {c t : Node} (hkind : h.kind = .parenthesizedExpression)
      (hc : ReadAs c t) : ReadAs (mk h [c]) (mk { h with kind := .parenthesizedType } [t])
  | pointer {h : Head} {op c t : Node} (hkind : h.kind = .unaryExpression) (hc : ReadAs c t) :
      ReadAs (mk h [op, c]) (mk { h with kind := .pointerType }
        [mk { t.head with field := none } t.children])
  | union {h : Head} {l op r l' r' : Node} (hkind : h.kind = .binaryExpression)
      (hl : ReadAs l l') (hr : ReadAs r r') :
      ReadAs (mk h [l, op, r]) (mk { h with kind := .typeElem } [l', r'])
  | generic {h : Head} {base arg t a : Node} (hkind : h.kind = .indexExpression)
      (ht : ReadAs base t) (ha : ReadAs arg a) : ReadAs (mk h [base, arg])
        (mk { h with kind := .genericType } [t.under .type, a.under .typeArguments])
  | instantiation {n : Node} (hkind : n.kind = .typeInstantiationExpression) :
      ReadAs n (n.as .genericType)
  | typeOnly {n : Node} (htype : n.kind.isTypeOnly = true) : ReadAs n n

section
variable {n t : Node} {k : Kind}

theorem readAs_of_asType? (h : n.asType? = some t) : ReadAs n t := by
  induction hsize : n.size using Nat.strongRecOn generalizing n t with
  | ind size ih =>
  obtain ⟨hd, cs⟩ := n
  have hpart {c t : Node} (hc : c ∈ cs) (ht : c.asType? = some t) : ReadAs c t :=
    ih c.size (hsize ▸ size_lt_of_mem hc) ht rfl
  unfold asType? at h
  split at h
  · next hkind =>
    obtain rfl := Option.some.inj h
    exact .name hkind
  · next hkind =>
    split at h
    · next p f =>
      split at h
      · next hp =>
        obtain rfl := Option.some.inj h
        exact .qualified hkind hp
      · exact absurd h nofun
    · exact absurd h nofun
  · next hkind =>
    split at h
    · next c =>
      obtain ⟨c', hc, rfl⟩ := Option.map_eq_some_iff.1 h
      exact .parenthesized hkind (hpart (by simp) hc)
    · exact absurd h nofun
  · next hkind =>
    split at h
    · next op c =>
      split at h
      · obtain ⟨c', hc, rfl⟩ := Option.map_eq_some_iff.1 h
        exact .pointer hkind (hpart (by simp) hc)
      · exact absurd h nofun
    · exact absurd h nofun
  · next hkind =>
    split at h
    · next l op r =>
      split at h
      · obtain ⟨l', hl, h⟩ := Option.bind_eq_some_iff.1 h
        obtain ⟨r', hr, h⟩ := Option.bind_eq_some_iff.1 h
        obtain rfl := Option.some.inj h
        exact .union hkind (hpart (by simp) hl) (hpart (by simp) hr)
      · exact absurd h nofun
    · exact absurd h nofun
  · next hkind =>
    split at h
    · next base arg =>
      dsimp only at h
      split at h
      · exact absurd h nofun
      · obtain ⟨t', ht, h⟩ := Option.bind_eq_some_iff.1 h
        obtain ⟨a', ha, h⟩ := Option.bind_eq_some_iff.1 h
        obtain rfl := Option.some.inj h
        exact .generic hkind (hpart (by simp) ht) (hpart (by simp) ha)
    · exact absurd h nofun
  · next hkind =>
    obtain rfl := Option.some.inj h
    exact .instantiation hkind
  · split at h
    · next htype =>
      obtain rfl := Option.some.inj h
      exact .typeOnly htype
    · exact absurd h nofun

theorem Closed.plain (h : n.Closed) (hn : n.kind = k) (hk : k.opensScope = false) : n.Plain :=
  ⟨h, by rwa [hn]⟩

/-- The second node lies where the first one does, and declares nothing. -/
structure Reread (n t : Node) : Prop where
  start : t.start = n.start
  stop : t.stop = n.stop
  placed : t.Placed
  plain : t.Plain

theorem reread_as (hplaced : n.Placed) (hplain : n.Plain) (hk : k.isPlain = true) :
    Reread n (n.as k) where
  start := start_as
  stop := stop_as
  placed := hplaced.as (Kind.isLoose_of_isPlain hk)
  plain := plain_of_isPlain (by rwa [kind_as]) (by rw [children_as]; exact hplain.children_closed)

theorem Reread.under {f : Field} (h : Reread n t) : Reread n (t.under f) where
  start := start_under.trans h.start
  stop := stop_under.trans h.stop
  placed := placed_under.2 h.placed
  plain := ⟨closed_under.2 h.plain.closed, by rw [kind_under]; exact h.plain.plain⟩

theorem Reread.withoutField (h : Reread n t) :
    Reread n (Node.mk { t.head with field := none } t.children) := by
  obtain ⟨hd, cs⟩ := t
  obtain ⟨hlt, ⟨hlast, hclosed, hdot, htoken⟩, hcs⟩ := placed_iff.1 h.placed
  exact ⟨h.start, h.stop, placed_iff.2 ⟨hlt, ⟨hlast, hclosed, hdot, htoken⟩, hcs⟩,
    ⟨closed_iff.2 (closed_iff.1 h.plain.closed), h.plain.plain⟩⟩

theorem reread_mk {h : Head} {cs ds : List Node} (hplaced : (mk h cs).Placed)
    (hk : k.isPlain = true)
    (hds : PlacedIn cs h.span.start h.span.stop → PlacedIn ds h.span.start h.span.stop)
    (hclosed : ∀ d ∈ ds, d.Closed) : Reread (mk h cs) (mk { h with kind := k } ds) where
  start := rfl
  stop := rfl
  placed := placed_iff.2 ⟨hplaced.nonempty, regular_of_isLoose (Kind.isLoose_of_isPlain hk),
    hds hplaced.children⟩
  plain := plain_of_isPlain hk hclosed

theorem isPlain_of_isTypeOnly (h : k.isTypeOnly = true) : k.isPlain = true := by
  cases k <;> simp_all [Kind.isTypeOnly, Kind.isPlain, Kind.isLoose, Kind.entered?, Kind.opensScope]

theorem Reread.cons {c c' : Node} {cs ds : List Node} {lo hi : Nat} (h : Reread c c')
    (hrest : ∀ lo, PlacedIn cs lo hi → PlacedIn ds lo hi) (hcs : PlacedIn (c :: cs) lo hi) :
    PlacedIn (c' :: ds) lo hi := by
  obtain ⟨hlo, _, hhi, hds⟩ := hcs
  exact ⟨h.start ▸ hlo, h.placed, h.stop ▸ hhi, hrest _ (h.stop ▸ hds)⟩

theorem reread_qualified {h : Head} {p f : Node} (hplaced : (mk h [p, f]).Placed)
    (hclosed : (mk h [p, f]).Closed) (hkind : h.kind = .selectorExpression)
    (hp : p.kind = .identifier) : Reread (mk h [p, f]) (mk { h with kind := .qualifiedType }
      [(p.as .packageIdentifier).under .package, (f.as .typeIdentifier).under .name]) := by
  have hparts : ∀ c ∈ [p, f], c.Closed := Plain.children_closed (hclosed.plain hkind rfl)
  have hplainP : p.Plain := (hparts p (by simp)).plain hp rfl
  have hplainF : f.Plain := ⟨hparts f (by simp), hplaced.regular.dot hkind f (by simp [children])⟩
  have hpackage : Reread p ((p.as .packageIdentifier).under .package) :=
    (reread_as (hplaced.child (c := p) (by simp [children])).2.2 hplainP rfl).under
  have hname : Reread f ((f.as .typeIdentifier).under .name) :=
    (reread_as (hplaced.child (c := f) (by simp [children])).2.2 hplainF rfl).under
  exact reread_mk hplaced rfl (hpackage.cons fun _ => hname.cons fun _ h => h)
    (List.forall_mem_cons.2 ⟨hpackage.plain.closed,
      List.forall_mem_singleton.2 hname.plain.closed⟩)

/-- An expression that is read as a type stays where it is. -/
theorem ReadAs.reread (h : ReadAs n t) (hplaced : n.Placed) (hclosed : n.Closed) : Reread n t := by
  have hchild {h : Head} {cs : List Node} (hplaced : (mk h cs).Placed) {c : Node} (hc : c ∈ cs) :
      c.Placed := (hplaced.child hc).2.2
  have hclosedChild {h : Head} {cs : List Node} (hclosed : (mk h cs).Closed)
      (hk : h.kind.opensScope = false) {c : Node} (hc : c ∈ cs) : c.Closed :=
    Plain.children_closed ⟨hclosed, hk⟩ c hc
  induction h with
  | name hkind => exact reread_as hplaced (hclosed.plain hkind rfl) rfl
  | qualified hkind hp => exact reread_qualified hplaced hclosed hkind hp
  | parenthesized hkind _ ih =>
    have hread := ih (hchild hplaced (by simp)) (hclosedChild hclosed (hkind ▸ rfl) (by simp))
    exact reread_mk hplaced rfl (hread.cons fun _ h => h) (by simpa using hread.plain.closed)
  | pointer hkind _ ih =>
    have hread := (ih (hchild hplaced (by simp))
      (hclosedChild hclosed (hkind ▸ rfl) (by simp))).withoutField
    exact reread_mk hplaced rfl (fun h => hread.cons (fun _ h => h) (h.sublist (by simp)))
      (List.forall_mem_singleton.2 hread.plain.closed)
  | union hkind _ _ ihl ihr =>
    have hl := ihl (hchild hplaced (by simp)) (hclosedChild hclosed (hkind ▸ rfl) (by simp))
    have hr := ihr (hchild hplaced (by simp)) (hclosedChild hclosed (hkind ▸ rfl) (by simp))
    refine reread_mk hplaced rfl (hl.cons fun _ hrest => ?_)
      (by simp [hl.plain.closed, hr.plain.closed])
    exact hr.cons (fun _ h => h) (hrest.sublist (by simp))
  | generic hkind _ _ iht iha =>
    have ht := (iht (hchild hplaced (by simp))
      (hclosedChild hclosed (hkind ▸ rfl) (by simp))).under (f := .type)
    have ha := (iha (hchild hplaced (by simp))
      (hclosedChild hclosed (hkind ▸ rfl) (by simp))).under (f := .typeArguments)
    exact reread_mk hplaced rfl (ht.cons fun _ => ha.cons fun _ h => h)
      (List.forall_mem_cons.2 ⟨ht.plain.closed, List.forall_mem_singleton.2 ha.plain.closed⟩)
  | instantiation hkind => exact reread_as hplaced (hclosed.plain hkind rfl) rfl
  | typeOnly htype =>
    exact ⟨rfl, rfl, hplaced,
      hclosed.plain rfl (Kind.opensScope_of_isPlain (isPlain_of_isTypeOnly htype))⟩

theorem reread_asType? (hplaced : n.Placed) (hclosed : n.Closed) (h : n.asType? = some t) :
    Reread n t := (readAs_of_asType? h).reread hplaced hclosed

end
end Node
namespace Reader
open Node

/-- The readers of rules that contain one another keep to what is shown of them. -/
structure Rules.Sound (r : Rules) : Prop where
  expression : Yields true r.expression (One Closed)
  unary : Yields true r.unary (One Closed)
  type : Yields true r.type (One Plain)
  literalValue : Yields true r.literalValue (One Closed)
  block : Yields true r.block (One fun _ => True)
  statement : Yields true r.statement (One fun _ => True)

theorem yields_identifier : Yields true identifier (One Plain) := yields_leaf rfl rfl
theorem yields_fieldIdentifier : Yields true fieldIdentifier (One Plain) := yields_leaf rfl rfl
theorem yields_typeIdentifier : Yields true typeIdentifier (One Plain) := yields_leaf rfl rfl
theorem yields_packageIdentifier : Yields true packageIdentifier (One Plain) := yields_leaf rfl rfl
theorem yields_bare {w : String} : Yields true (bare w) (One Plain) := yields_leaf rfl rfl

theorem yields_stringLiteral : Yields true stringLiteral (One Plain) :=
  .orElse (yields_leaf rfl rfl) (yields_leaf rfl rfl)

/-! ## Parameters -/

def Entry.nodes (e : Entry) : List Node := e.name.toList ++ [e.type]

def Entry.Plain (e : Entry) : Prop := ∀ n ∈ e.nodes, n.Plain

theorem placedIn_headD {cs : List Node} {c : Node} {lo hi : Nat} (h : PlacedIn (cs ++ [c]) lo hi)
    (d : Node) : lo ≤ ((cs ++ [c]).headD d).start ∧ ((cs ++ [c]).headD d).start < c.stop ∧
      PlacedIn (cs ++ [c]) ((cs ++ [c]).headD d).start c.stop := by
  have h := h.upTo
  cases cs with
  | nil => exact ⟨h.1, h.2.1.nonempty, Nat.le_refl _, h.2⟩
  | cons d' ds =>
    have := h.2.1.nonempty
    exact ⟨h.1, Nat.lt_of_lt_of_le this h.2.2.1, Nat.le_refl _, h.2⟩

/-- The declarations that entries are grouped into lie where the entries do. -/
theorem placedIn_grouped (names : List Node) {es : List Entry} {lo hi : Nat}
    (h : PlacedIn (names ++ es.flatMap Entry.nodes) lo hi) (hnames : ∀ n ∈ names, n.Plain)
    (hes : ∀ e ∈ es, e.Plain) :
    PlacedIn (grouped names es) lo hi ∧ ∀ n ∈ grouped names es, n.Closed := by
  induction es generalizing names lo with
  | nil => exact ⟨trivial, nofun⟩
  | cons e es ih =>
    obtain ⟨he, hes⟩ := List.forall_mem_cons.1 hes
    have htype : e.type.Plain := he e.type (by simp [Entry.nodes])
    rw [List.flatMap_cons] at h
    rw [grouped]
    split
    · next hname =>
      rw [Entry.nodes, hname, Option.toList_none, List.nil_append] at h
      have htype' := (h.place (List.mem_append_right names List.mem_cons_self)).2.2
      have hreread : Reread e.type (e.type.as .identifier) := reread_as htype' htype rfl
      refine ih _ ?_ ?_ hes
      · rw [List.append_assoc]
        rw [placedIn_append_iff] at h ⊢
        exact ⟨h.1, hreread.cons (fun _ h => h) h.2⟩
      · simpa [or_imp, forall_and] using ⟨hnames, hreread.plain⟩
    · next n hname =>
      have hn : n.Plain := he n (by simp [Entry.nodes, hname])
      have hall : Entry.nodes e ++ es.flatMap Entry.nodes =
          [n] ++ ([e.type] ++ es.flatMap Entry.nodes) := by simp [Entry.nodes, hname]
      rw [hall, ← List.append_assoc, ← List.append_assoc, placedIn_append_iff] at h
      obtain ⟨hdecl, hrest⟩ := h
      obtain ⟨hlo, hlt, hparts⟩ := placedIn_headD hdecl n
      have hfirst : (names ++ [n] ++ [e.type]).headD n = (names ++ [n]).headD n := by
        cases names <;> rfl
      have hhi := (hdecl.place (List.mem_append_right _ (List.mem_singleton_self e.type))).2.1
      rw [hfirst] at hlo hlt hparts
      rw [ending_append] at hrest
      obtain ⟨hgroups, hclosed⟩ := ih [] hrest nofun hes
      have hkind : (if e.variadic then Kind.variadicParameterDeclaration
          else .parameterDeclaration).isPlain = true := by split <;> rfl
      have hparts : PlacedIn ((names ++ [n]).map (under .name) ++ [e.type.under .type])
          ((names ++ [n]).headD n).start e.type.stop := by
        rw [placedIn_append_iff, placedIn_map_under, ending_map_under]
        rw [placedIn_append_iff] at hparts
        simpa [PlacedIn] using hparts
      have hplain : ∀ c ∈ (names ++ [n]).map (under .name) ++ [e.type.under .type], c.Closed := by
        simpa [or_imp, forall_and] using
          ⟨fun c hc => (hnames c hc).closed, hn.closed, htype.closed⟩
      exact ⟨⟨hlo, placed_iff.2 ⟨hlt, regular_of_isLoose (Kind.isLoose_of_isPlain hkind), hparts⟩,
        hhi, hgroups⟩, List.forall_mem_cons.2 ⟨(plain_mk hkind hplain).closed, hclosed⟩⟩

theorem placedIn_ungrouped {es : List Entry} {lo hi : Nat}
    (h : PlacedIn (es.flatMap Entry.nodes) lo hi) (hes : ∀ e ∈ es, e.Plain) :
    PlacedIn (ungrouped es) lo hi ∧ ∀ n ∈ ungrouped es, n.Closed := by
  induction es generalizing lo with
  | nil => exact ⟨trivial, nofun⟩
  | cons e es ih =>
    obtain ⟨he, hes⟩ := List.forall_mem_cons.1 hes
    have htype : e.type.Plain := he e.type (by simp [Entry.nodes])
    have hkind : (if e.variadic then Kind.variadicParameterDeclaration
        else .parameterDeclaration).isPlain = true := by split <;> rfl
    have hdrop : PlacedIn (e.type :: es.flatMap Entry.nodes) lo hi := by
      refine h.sublist ?_
      rw [List.flatMap_cons, Entry.nodes, List.append_assoc]
      exact List.sublist_append_right ..
    obtain ⟨hlo, hplaced, hhi, hrest⟩ := hdrop
    obtain ⟨hall, hclosed⟩ := ih hrest hes
    have hpart : PlacedIn [e.type.under .type] e.type.start e.type.stop := by
      simpa [PlacedIn] using hplaced
    have hplain : ∀ c ∈ [e.type.under .type], c.Closed := by simpa using htype.closed
    exact ⟨⟨hlo, placed_iff.2 ⟨hplaced.nonempty,
      regular_of_isLoose (Kind.isLoose_of_isPlain hkind), hpart⟩, hhi, hall⟩,
      List.forall_mem_cons.2 ⟨(plain_mk hkind hplain).closed, hclosed⟩⟩

section
variable {r : Rules} (h : r.Sound)
include h

theorem yields_entry : Yields true (entry r) (Made Entry.nodes Entry.Plain) := by
  refine .orElse ?_ ?_
  · refine yields_identifier.take fun n hname => yields_skip.bind fun variadic _ hskip =>
      h.type.take fun t htype => .pure fun lo hi hlaid => ?_
    subst hskip
    exact ⟨_, hlaid, rfl, by simp [Entry.Plain, Entry.nodes, hname, htype]⟩
  · refine yields_skip.bind fun variadic _ hskip => h.type.take fun t htype =>
      .pure fun lo hi hlaid => ?_
    subst hskip
    exact ⟨_, hlaid, rfl, by simp [Entry.Plain, Entry.nodes, htype]⟩

theorem yields_parameterList : Yields true (parameterList r) (One Plain) := by
  refine yields_plain rfl (.expect (.within ((yields_listUntil (yields_entry h)).take
    fun es hes => .expect (.pure fun lo hi hlaid => ?_))))
  split
  · obtain ⟨hplaced, hclosed⟩ := placedIn_grouped [] hlaid.2 nofun hes
    exact ⟨_, ⟨hlaid.1, hplaced⟩, rfl, hclosed⟩
  · obtain ⟨hplaced, hclosed⟩ := placedIn_ungrouped hlaid.2 hes
    exact ⟨_, ⟨hlaid.1, hplaced⟩, rfl, hclosed⟩

/-- A part of a signature: closed, and not the body of a function. -/
def Signature (n : Node) : Prop := n.Closed ∧ n.inField ≠ some .body

theorem yields_result : Yields false (result r) (All Signature) := by
  have hnone : Reads false [] (pure [] : Read (List Node)) (Gives false (All Signature)) :=
    .pure fun _ _ hlaid => ⟨[], hlaid, rfl, nofun⟩
  have hone {n : Node} (hn : n.Plain) :
      Reads true [n] (pure [n.under .result]) (Gives false (All Signature)) :=
    .pure fun _ _ hlaid =>
      gives_all hlaid nofun (by simp [PlacedIn]) (by simp [Signature, hn.closed])
  refine .peeks peeks_broken fun _ => .ite (fun _ => hnone) fun _ => ?_
  refine .peeks peeks_nextIs fun _ => .ite (fun _ => ?_) fun _ => .peeks peeks_peek fun t? => ?_
  · exact (yields_parameterList h).take fun n hn => hone hn
  · cases t? with
    | none => exact hnone
    | some t =>
      exact .ite (fun _ => h.type.take fun n hn => hone hn) fun _ => hnone

theorem yields_signature : Yields true (signature r) (All Signature) := by
  refine (yields_parameterList h).take fun ps hplain =>
    (yields_result h).take fun rs hresult => .pure fun lo hi hlaid => ?_
  exact gives_all hlaid (fun _ => rfl) (by simp [PlacedIn])
    (List.forall_mem_cons.2 ⟨by simp [Signature, hplain.closed], hresult⟩)

/-! ## Types -/

theorem yields_typeElem : Yields true (typeElem r) (One Plain) := by
  refine h.type.take fun t hplain => ?_
  have hmore : Yields false (do if ← continues "|" then skip? "|" else return false) NoNodes :=
    .peeks peeks_continues fun _ => .ite (fun _ => yields_skip)
      fun _ => .pure fun _ _ hlaid => ⟨[], hlaid, rfl⟩
  refine (yields_many hmore h.type).all.take fun ts htypes => ?_
  refine .ite (fun hnil => .pure fun _ _ hlaid => ?_) fun _ => ?_
  · obtain rfl := List.isEmpty_iff.1 hnil
    exact ⟨_, hlaid, rfl, hplain⟩
  · exact .nodeFrom rfl rfl (fun _ _ h => h)
      (List.forall_mem_cons.2 ⟨hplain.closed, fun t ht => (htypes t ht).closed⟩)

theorem yields_typeArguments : Yields true (typeArguments r) (All Closed) := by
  refine .expect (.within ((yields_listUntil (yields_typeElem h)).all.take
    fun ts htypes => .expect ?_))
  refine .ite (fun _ => .failure) fun _ =>
    .pure fun _ _ hlaid => gives_all hlaid (fun _ => rfl) ?_ ?_
  · simp
  · simpa using fun t ht => (htypes t ht).closed

theorem yields_typeName : Yields true (typeName r) (One Plain) := by
  have hqualified : Yields true (node .qualifiedType do
      let p ← packageIdentifier
      expect "."
      let n ← typeIdentifier
      return [p.under .package, n.under .name]) (One Plain) := by
    refine yields_plain rfl (yields_packageIdentifier.take fun p hplain => .expect
      (yields_typeIdentifier.take fun n hplain' => .pure fun _ _ hlaid => ?_))
    exact gives_all hlaid (fun _ => rfl) (by simp [PlacedIn])
      (by simp [hplain.closed, hplain'.closed])
  refine Yields.take (.orElse hqualified yields_typeIdentifier) fun t hplain => ?_
  have hdone {b : Bool} (hb : b = true) :
      Reads b ([] ++ [t]) (pure t) (Gives true (One Plain)) :=
    .pure fun _ _ hlaid => ⟨_, hlaid.weaken fun _ => hb, rfl, hplain⟩
  refine .peeks peeks_continues fun _ => .ite (fun _ => .orElse ?_ (hdone rfl)) fun _ => hdone rfl
  refine (yields_typeArguments h).take fun args hclosed => ?_
  exact .nodeFrom rfl rfl (by simp [PlacedIn])
    (List.forall_mem_cons.2 ⟨closed_under.2 hplain.closed, hclosed⟩)

/-- Kind and length of a type in brackets. -/
def Bracketed (p : Kind × List Node) (cs : List Node) : Prop :=
  cs = p.2 ∧ p.1.isPlain = true ∧ ∀ c ∈ p.2, c.Closed

theorem yields_bracketType : Yields true (bracketType r) (One Plain) := by
  refine .peek (fun t => .expect (.bind (c := true) (Q := Bracketed) (.within ?_) ?_)) .failure
  · refine .skip (.pure fun _ _ hlaid => ⟨[], hlaid, rfl, rfl, nofun⟩) (.skip ?_ ?_)
    · exact .expect (.pure fun _ _ hlaid => ⟨[], hlaid, rfl, rfl, nofun⟩)
    · refine h.expression.take fun n hclosed => .expect (.pure fun _ _ hlaid => ?_)
      refine ⟨[n.under .length], ⟨hlaid.1, by simpa [PlacedIn] using hlaid.2⟩, rfl, rfl, ?_⟩
      simpa using hclosed
  · rintro ⟨kind, length⟩ _ ⟨rfl, hkind, hlength⟩
    refine .peeks peeks_broken fun _ => .ite (fun _ => .failure) fun _ => ?_
    refine h.type.take fun e hplain => .get fun _ _ hlaid hstart => ?_
    refine gives_mk hkind hstart rfl ⟨hlaid.1, ?_⟩ ?_
    · simpa [placedIn_append_iff, PlacedIn] using hlaid.2
    · simpa [or_imp, forall_and] using ⟨hlength, hplain.closed⟩

theorem yields_fieldDeclaration : Yields true (fieldDeclaration r) (One Plain) := by
  refine yields_plain rfl ?_
  have hnamed : Yields true (do
      let names ← sepBy r.fuel "," fieldIdentifier
      if ← broken then failure
      let t ← r.type
      return names.map (·.under .name) ++ [t.under .type]) (All Closed) := by
    refine (yields_sepBy yields_fieldIdentifier).all.take fun names hnames =>
      .peeks peeks_broken fun _ => .ite (fun _ => .failure) fun _ =>
        h.type.take fun t hplain => .pure fun _ _ hlaid =>
          gives_all hlaid (fun _ => rfl) ?_ ?_
    · simp [placedIn_append_iff, PlacedIn]
    · simpa [or_imp, forall_and] using ⟨fun n hn => (hnames n hn).closed, hplain.closed⟩
  have hembedded : Yields true (do
      if ← nextIs "*" then
        let star ← bare "*"
        return [star, (← typeName r).under .type]
      return [(← typeName r).under .type]) (All Closed) := by
    refine .peeks peeks_nextIs fun _ => .ite (fun _ => ?_) fun _ => ?_
    · refine yields_bare.take fun star hplain => (yields_typeName h).take
        fun t hplain' => .pure fun _ _ hlaid => gives_all hlaid (fun _ => rfl) ?_ ?_
      · simp [PlacedIn]
      · simp [hplain.closed, hplain'.closed]
    · refine (yields_typeName h).take fun t hplain => .pure fun _ _ hlaid =>
        gives_all hlaid (fun _ => rfl) ?_ ?_
      · simp [PlacedIn]
      · simp [hplain.closed]
  have hnone : Yields false (pure [] : Read (List Node)) (All Closed) :=
    .pure fun _ _ hlaid => ⟨[], hlaid, rfl, List.forall_mem_nil _⟩
  have htag : Yields false (do
      if ← broken then return []
      (do return [(← stringLiteral).under .tag]) <|> return []) (All Closed) := by
    refine .peeks peeks_broken fun _ => .ite (fun _ => hnone) fun _ => .orElse ?_ hnone
    refine yields_stringLiteral.take fun t hplain => .pure fun _ _ hlaid =>
      gives_all hlaid (by simp) ?_ ?_
    · simp [PlacedIn]
    · simp [hplain.closed]
  refine Yields.take (.orElse hnamed hembedded) fun parts hclosed =>
    htag.take fun tag hclosed' => .pure fun _ _ hlaid =>
      gives_all hlaid (fun _ => rfl) ?_ ?_
  · simp
  · exact List.forall_mem_append.2 ⟨hclosed, hclosed'⟩

theorem yields_structType : Yields true (structType r) (One Plain) := by
  refine yields_plain rfl (.expect (Yields.take (yields_plain rfl ?_) fun list hplain =>
    .pure fun _ _ hlaid => gives_all hlaid (fun _ => rfl) ?_ ?_))
  · refine .expect (.within ((yields_lines (yields_fieldDeclaration h)).all.take
      fun fs hplain => .expect (.pure fun _ _ hlaid => ?_)))
    exact gives_all hlaid (fun _ => rfl) (fun h => h) fun f hf => (hplain f hf).closed
  · exact fun h => h
  · simpa using hplain.closed

theorem yields_interfaceElement : Yields true (interfaceElement r) (One Plain) := by
  refine .orElse (yields_plain rfl ?_) (yields_typeElem h)
  refine yields_fieldIdentifier.take fun n hplain => .peeks peeks_nextIs fun _ =>
    .ite (fun _ => .failure) fun _ => (yields_signature h).take fun sig hclosed =>
      .pure fun _ _ hlaid => gives_all hlaid (fun _ => rfl) ?_ ?_
  · simp [PlacedIn]
  · exact List.forall_mem_cons.2 ⟨closed_under.2 hplain.closed, fun n hn => (hclosed n hn).1⟩

theorem yields_interfaceType : Yields true (interfaceType r) (One Plain) := by
  refine yields_plain rfl (.expect (.expect (.within
    ((yields_lines (yields_interfaceElement h)).all.take
      fun es hplain => .expect (.pure fun _ _ hlaid => ?_)))))
  exact gives_all hlaid (fun _ => rfl) (fun h => h) fun e he => (hplain e he).closed

theorem reads_type_under {f : Field} :
    Reads true [] (do return [(← r.type).under f]) (Gives true (All Closed)) := by
  refine h.type.take fun t hplain => .pure fun _ _ hlaid =>
    gives_all hlaid (fun _ => rfl) ?_ ?_
  · simp [PlacedIn]
  · simp [hplain.closed]

theorem yields_channelType : Yields true (channelType r) (One Plain) :=
  yields_plain rfl (.skip (.expect (reads_type_under h))
    (.expect (.discardSkip (reads_type_under h) (reads_type_under h))))

theorem yields_typeRule : Yields true (typeRule r) (One Plain) := by
  refine .peeks peeks_peek fun t? => ?_
  cases t? with
  | none => exact .failure
  | some t =>
    have hone : Reads true [] (do return [← r.type]) (Gives true (All Closed)) := by
      refine h.type.take fun t hplain => .pure fun _ _ hlaid => ?_
      exact gives_all hlaid (fun _ => rfl) (fun h => h) (by simpa using hplain.closed)
    refine .ite (fun _ => yields_typeName h) fun _ => .ite (fun _ => ?_) fun _ =>
      .ite (fun _ => yields_plain rfl (.expect hone)) fun _ =>
      .ite (fun _ => yields_plain rfl (.expect hone)) fun _ =>
      .ite (fun _ => yields_bracketType h) fun _ => .ite (fun _ => ?_) fun _ =>
      .ite (fun _ => yields_channelType h) fun _ => .ite (fun _ => ?_) fun _ =>
      .ite (fun _ => yields_structType h) fun _ => .ite (fun _ => yields_interfaceType h) fun _ =>
      .failure
    · -- a type in parentheses
      refine yields_plain rfl (.expect (.within (h.type.take fun t hplain =>
        .expect (.pure fun _ _ hlaid => ?_))))
      exact gives_all hlaid (fun _ => rfl) (fun h => h) (by simpa using hplain.closed)
    · -- a map: its key in brackets, then its value
      refine yields_plain rfl (.expect (.expect ?_))
      have hkey : Yields true (enclosed do
          let k ← r.type
          expect "]"
          return k) (One Plain) :=
        .within (h.type.take fun t hplain =>
          .expect (.pure fun _ _ hlaid => ⟨_, hlaid, rfl, hplain⟩))
      refine hkey.take fun k hplain => h.type.take fun v hplain' =>
        .pure fun _ _ hlaid => gives_all hlaid (fun _ => rfl) ?_ ?_
      · simp [PlacedIn]
      · simp [hplain.closed, hplain'.closed]
    · -- a function type, which is its signature
      have hsig : Yields true (signature r) (All Closed) :=
        (yields_signature h).mono fun _ _ hsig => ⟨hsig.1, fun n hn => (hsig.2 n hn).1⟩
      exact yields_plain rfl (.expect (Reads.weaken hsig (by simp)))

end
end Reader
end RouteCheck
