import RouteCheck.Proofs.Tree.SourceReads
import RouteCheck.Proofs.Tree.SourceTree

/-!
What the texts of a tree are, as far as types are read off it.

A name is an identifier of the text, and the length of an array is what stands between two brackets
that belong together: a run of tokens in which brackets match, up to the bracket that closes it. A
tree in which that holds is `Legible`.

Main statements:
  1. `legible_mk`, `legible_mk_array`: nodes that are made of legible parts.
  2. `Legible.readAs`: an expression that is read as a type.
-/

namespace RouteCheck

/-! ## Stretches of tokens -/

namespace Token

/-- The span goes from the first of the tokens to the last. -/
def Covers (ts : List Token) (span : Span) : Prop :=
  ∃ t u, ts.head? = some t ∧ ts.getLast? = some u ∧ span = { t.span with stop := u.span.stop }

/-- The span begins with the first of the tokens. -/
def Heads (ts : List Token) (span : Span) : Prop :=
  ∃ t, ts.head? = some t ∧ span = { t.span with stop := span.stop }

/-- Where the last of the tokens ends, or else `l`. -/
def lastStop (l : Nat) (ts : List Token) : Nat := (ts.getLast?.map (·.span.stop)).getD l

/-- The span is that of a run of the tokens in which brackets match, and then a bracket closes. -/
def Enclosed (ts : List Token) (span : Span) : Prop :=
  ∃ run t, Covers run span ∧ Balanced run ∧ t.is "]" = true ∧ run ++ [t] <:+: ts

section
variable {t : Token} {ts us : List Token} {span : Span} {l : Nat}

theorem Covers.ne_nil (h : Covers ts span) : ts ≠ [] := by
  rintro rfl
  obtain ⟨t, u, ht, -⟩ := h
  exact nomatch ht

theorem Covers.heads (h : Covers ts span) : Heads ts span := by
  obtain ⟨t, u, ht, -, hspan⟩ := h
  exact ⟨t, ht, by rw [hspan]⟩

theorem Heads.append (h : Heads ts span) : Heads (ts ++ us) span := by
  obtain ⟨t, ht, hspan⟩ := h
  exact ⟨t, by rw [List.head?_append, ht]; rfl, hspan⟩

theorem Heads.covers (h : Heads ts span) : Covers ts { span with stop := lastStop l ts } := by
  obtain ⟨t, ht, hspan⟩ := h
  obtain ⟨ts, rfl⟩ := List.head?_eq_some_iff.1 ht
  refine ⟨t, (t :: ts).getLast (List.cons_ne_nil t ts), rfl, List.getLast?_eq_some_getLast _, ?_⟩
  rw [hspan, lastStop, List.getLast?_eq_some_getLast (List.cons_ne_nil t ts)]
  rfl

theorem lastStop_append : lastStop l (ts ++ us) = lastStop (lastStop l ts) us := by
  unfold lastStop
  rw [List.getLast?_append]
  cases us.getLast? <;> rfl

/-- What ends with a node ends where the node does. -/
theorem Covers.lastStop_append (h : Covers us span) : lastStop l (ts ++ us) = span.stop := by
  obtain ⟨_, u, _, hu, rfl⟩ := h
  rw [Token.lastStop_append, lastStop, hu]
  rfl

theorem lastStop_cons : lastStop l (t :: us) = lastStop t.span.stop us := by
  rw [← List.singleton_append, lastStop_append]
  rfl

end
end Token

/-! ## What types are read off -/

namespace Kind

/-- Something of their own is known of the parts of nodes of this kind. -/
def isExacting (k : Kind) : Bool :=
  k == .qualifiedType || k == .packageClause || k == .selectorExpression ||
    k == .callExpression || k == .arrayType || k == .shortVarDeclaration

/-- Nothing is known of the parts of other kinds but what they are themselves. -/
def hasText (k : Kind) : Bool := k.isLax || k.isExacting

theorem isName_of_isLax {k : Kind} (h : k.isLax = false) : k.isName = false :=
  (Bool.or_eq_false_iff.1 h).1

theorem isLax_of_isName {k : Kind} (h : k.isName = true) : k.isLax = true := by simp [isLax, h]

theorem isExacting_of_isLax {k : Kind} (h : k.isLax = true) : k.isExacting = false := by
  cases k <;> simp_all [isLax, isName, isParameter, isExacting]

end Kind

namespace Node

/-- The node is an identifier among the tokens. -/
def IsIdentifier (ts : List Token) (n : Node) : Prop := ∃ t ∈ ts, t.isIdentifier = true ∧ n.span = t.span

/-- If the node is a name, then an identifier among the tokens. -/
def Worded (ts : List Token) (n : Node) : Prop := n.kind.isName = true → n.IsIdentifier ts

/-- What is known of the parts of a node of its kind. -/
def OfKind (ts : List Token) (n : Node) : Prop :=
  match n.kind with
  | .qualifiedType | .packageClause => ∀ c ∈ n.children, c.kind.isName = true
  | .selectorExpression =>
    ∃ p f, n.children = [p, f] ∧ p.inField = some .operand ∧ f.kind = .fieldIdentifier
  | .callExpression => ∀ c ∈ n.children, c.inField = some .arguments → c.kind = .argumentList
  | .arrayType => ∀ l ∈ n.children, l.inField = some .length → Token.Enclosed ts l.span
  | .shortVarDeclaration => ∀ c ∈ n.children, c.kind = .expressionList
  | _ => True

/-- The parts of the node are what types can be read off. A type that stands among the names of
parameters is taken for a name, whatever it is. -/
structure LegibleAt (ts : List Token) (n : Node) : Prop where
  parts : ∀ c ∈ n.children, (n.kind.isLax = true → c.inField ≠ some .name) → c.Worded ts
  ofKind : n.OfKind ts

/-- So are the parts of every node of the tree. -/
def Within (ts : List Token) (n : Node) : Prop := ∀ m ∈ n.all, m.LegibleAt ts

/-- Types can be read off the tree. -/
def Legible (ts : List Token) (n : Node) : Prop := n.Worded ts ∧ n.Within ts

def AllLegible (ts : List Token) (ns : List Node) : Prop := ∀ n ∈ ns, n.Legible ts

section
variable {ts : List Token} {m n : Node} {cs ds : List Node} {k : Kind} {f : Field} {h : Head}

theorem within_iff : n.Within ts ↔ n.LegibleAt ts ∧ ∀ c ∈ n.children, c.Within ts := by
  unfold Within
  rw [all_eq, List.forall_mem_cons]
  refine and_congr_right fun _ => ⟨fun h c hc m hm => h m (mem_allOf.2 ⟨c, hc, hm⟩), fun h m hm => ?_⟩
  obtain ⟨c, hc, hm⟩ := mem_allOf.1 hm
  exact h c hc m hm

theorem Legible.at (hn : n.Legible ts) : n.LegibleAt ts := (within_iff.1 hn.2).1

theorem Legible.within (hn : n.Legible ts) : ∀ c ∈ n.children, c.Within ts := (within_iff.1 hn.2).2

theorem Legible.children (hn : n.Legible ts) (hk : n.kind.isLax = false) :
    AllLegible ts n.children := fun c hc =>
  ⟨hn.at.parts c hc fun hlax => absurd (hk.symm.trans hlax) nofun, hn.within c hc⟩

theorem ofKind_of_isExacting (hk : n.kind.isExacting = false) : n.OfKind ts := by
  unfold OfKind
  split
  case h_7 => trivial
  all_goals next hkind => rw [hkind] at hk; exact absurd hk nofun

theorem LegibleAt.names (h : n.LegibleAt ts)
    (hkind : n.kind = .qualifiedType ∨ n.kind = .packageClause) :
    ∀ c ∈ n.children, c.kind.isName = true := by
  have hown := h.ofKind
  rcases hkind with hkind | hkind <;> rwa [OfKind, hkind] at hown

theorem LegibleAt.selected (h : n.LegibleAt ts) (hkind : n.kind = .selectorExpression) :
    ∃ p f, n.children = [p, f] ∧ p.inField = some .operand ∧ f.kind = .fieldIdentifier := by
  have hown := h.ofKind
  rwa [OfKind, hkind] at hown

theorem LegibleAt.arguments (h : n.LegibleAt ts) (hkind : n.kind = .callExpression) :
    ∀ c ∈ n.children, c.inField = some .arguments → c.kind = .argumentList := by
  have hown := h.ofKind
  rwa [OfKind, hkind] at hown

theorem LegibleAt.length (h : n.LegibleAt ts) (hkind : n.kind = .arrayType) :
    ∀ l ∈ n.children, l.inField = some .length → Token.Enclosed ts l.span := by
  have hown := h.ofKind
  rwa [OfKind, hkind] at hown

theorem LegibleAt.lists (h : n.LegibleAt ts) (hkind : n.kind = .shortVarDeclaration) :
    ∀ c ∈ n.children, c.kind = .expressionList := by
  have hown := h.ofKind
  rwa [OfKind, hkind] at hown

theorem LegibleAt.congr (hm : m.LegibleAt ts) (hkind : n.kind = m.kind)
    (hchildren : n.children = m.children) : n.LegibleAt ts where
  parts := by rw [hkind, hchildren]; exact hm.parts
  ofKind := by rw [OfKind, hkind, hchildren]; exact hm.ofKind

theorem Legible.congr (hm : m.Legible ts) (hkind : n.kind = m.kind) (hspan : n.span = m.span)
    (hchildren : n.children = m.children) : n.Legible ts := by
  refine ⟨?_, within_iff.2 ⟨hm.at.congr hkind hchildren, by rw [hchildren]; exact hm.within⟩⟩
  rw [Worded, IsIdentifier, hkind, hspan]
  exact hm.1

theorem span_under : (n.under f).span = n.span := by cases n; rfl

theorem span_as : (n.as k).span = n.span := by cases n; rfl

@[simp] theorem isIdentifier_under : (n.under f).IsIdentifier ts ↔ n.IsIdentifier ts := by
  rw [IsIdentifier, IsIdentifier, span_under]

@[simp] theorem worded_under : (n.under f).Worded ts ↔ n.Worded ts := by
  rw [Worded, Worded, kind_under, isIdentifier_under]

@[simp] theorem within_under : (n.under f).Within ts ↔ n.Within ts := by
  rw [within_iff, within_iff, children_under]
  exact and_congr_left fun _ => ⟨fun h => h.congr kind_under.symm children_under.symm,
    fun h => h.congr kind_under children_under⟩

@[simp] theorem legible_under : (n.under f).Legible ts ↔ n.Legible ts :=
  and_congr worded_under within_under

@[simp] theorem allLegible_nil : AllLegible ts [] := List.forall_mem_nil _

@[simp] theorem allLegible_cons : AllLegible ts (n :: cs) ↔ n.Legible ts ∧ AllLegible ts cs :=
  List.forall_mem_cons

@[simp] theorem allLegible_append :
    AllLegible ts (cs ++ ds) ↔ AllLegible ts cs ∧ AllLegible ts ds :=
  List.forall_mem_append

@[simp] theorem allLegible_map_under :
    AllLegible ts (cs.map (·.under f)) ↔ AllLegible ts cs := by
  induction cs with
  | nil => rfl
  | cons c cs ih => simp [ih]

@[simp] theorem allLegible_flatten {nss : List (List Node)} :
    AllLegible ts nss.flatten ↔ ∀ ns ∈ nss, AllLegible ts ns := by
  induction nss with
  | nil => simp
  | cons ns nss ih => rw [List.flatten_cons, allLegible_append, ih, List.forall_mem_cons]

theorem legible_mk_of (hlax : h.kind.isLax = false) (hcs : AllLegible ts cs)
    (hown : (mk h cs).OfKind ts) : (mk h cs).Legible ts :=
  ⟨fun hname => absurd ((Kind.isName_of_isLax hlax).symm.trans hname) nofun,
    within_iff.2 ⟨⟨fun c hc _ => (hcs c hc).1, hown⟩, fun c hc => (hcs c hc).2⟩⟩

theorem legible_mk (hk : h.kind.hasText = false) (hcs : AllLegible ts cs) :
    (mk h cs).Legible ts := by
  obtain ⟨hlax, hexacting⟩ := Bool.or_eq_false_iff.1 hk
  exact legible_mk_of hlax hcs (ofKind_of_isExacting hexacting)

theorem legible_mk_names (hk : h.kind = .qualifiedType ∨ h.kind = .packageClause)
    (hcs : AllLegible ts cs) (hnames : ∀ c ∈ cs, c.kind.isName = true) : (mk h cs).Legible ts := by
  obtain ⟨id, kind, field, span, text⟩ := h
  rcases hk with rfl | rfl <;> exact legible_mk_of rfl hcs hnames

theorem legible_mk_selector {p f : Node} (hk : h.kind = .selectorExpression) (hp : p.Legible ts)
    (hf : f.Legible ts) (hname : f.kind = .fieldIdentifier) :
    (mk h [p.under .operand, f.under .selected]).Legible ts := by
  obtain ⟨id, kind, field, span, text⟩ := h
  obtain rfl : kind = .selectorExpression := hk
  exact legible_mk_of rfl (by simp [hp, hf])
    ⟨_, _, rfl, inField_under, kind_under.trans hname⟩

theorem legible_mk_call {callee args : Node} (hk : h.kind = .callExpression)
    (hcallee : callee.Legible ts) (hargs : args.Legible ts) (hlist : args.kind = .argumentList) :
    (mk h [callee.under .function, args.under .arguments]).Legible ts := by
  obtain ⟨id, kind, field, span, text⟩ := h
  obtain rfl : kind = .callExpression := hk
  refine legible_mk_of rfl (by simp [hcallee, hargs]) fun c hc hfield => ?_
  rcases List.mem_cons.1 hc with rfl | hc
  · simp at hfield
  · rw [List.mem_singleton.1 hc, kind_under, hlist]

/-- An array type with a length. -/
theorem legible_mk_array {l e : Node} (hk : h.kind = .arrayType) (hl : l.Legible ts)
    (he : e.Legible ts) (hlength : Token.Enclosed ts l.span) :
    (mk h [l.under .length, e.under .element]).Legible ts := by
  obtain ⟨id, kind, field, span, text⟩ := h
  obtain rfl : kind = .arrayType := hk
  refine legible_mk_of rfl (by simp [hl, he]) fun c hc hfield => ?_
  rcases List.mem_cons.1 hc with rfl | hc
  · rwa [span_under]
  · obtain rfl := List.mem_singleton.1 hc
    simp at hfield

theorem legible_mk_short (hk : h.kind = .shortVarDeclaration) (hcs : AllLegible ts cs)
    (hlists : ∀ c ∈ cs, c.kind = .expressionList) : (mk h cs).Legible ts := by
  obtain ⟨id, kind, field, span, text⟩ := h
  obtain rfl : kind = .shortVarDeclaration := hk
  exact legible_mk_of rfl hcs hlists

theorem legible_mk_lax (hlax : h.kind.isLax = true) (hword : (mk h cs).Worded ts)
    (hcs : ∀ c ∈ cs, c.inField ≠ some .name → c.Worded ts) (hwithin : ∀ c ∈ cs, c.Within ts) :
    (mk h cs).Legible ts :=
  ⟨hword, within_iff.2 ⟨⟨fun c hc hfield => hcs c hc (hfield hlax),
    ofKind_of_isExacting (Kind.isExacting_of_isLax hlax)⟩, hwithin⟩⟩

theorem Legible.worded (hn : n.Legible ts) {c : Node} (hc : c ∈ n.children)
    (hfield : c.inField ≠ some .name) : c.Worded ts := hn.at.parts c hc fun _ => hfield

theorem Legible.within_as (hn : n.Legible ts) (hk : k.isName = true) : (n.as k).Within ts := by
  refine within_iff.2 ⟨⟨?_, ofKind_of_isExacting ?_⟩, by rw [children_as]; exact hn.within⟩
  · rw [children_as, kind_as]
    exact fun c hc hfield => hn.worded hc (hfield (Kind.isLax_of_isName hk))
  · rw [kind_as]
    exact Kind.isExacting_of_isLax (Kind.isLax_of_isName hk)

theorem Legible.asName (hn : n.Legible ts) (hk : k.isName = true) (hword : n.IsIdentifier ts) :
    (n.as k).Legible ts :=
  ⟨fun _ => by rwa [IsIdentifier, span_as], hn.within_as hk⟩

theorem Legible.as (hn : n.Legible ts) (hlax : n.kind.isLax = false)
    (hk : k.hasText = false) : (n.as k).Legible ts := by
  cases n
  exact legible_mk hk (hn.children hlax)

/-- An expression that is read as a type can still be read off. -/
theorem Legible.readAs {n t : Node} (hn : n.Legible ts) (h : ReadAs n t) : t.Legible ts := by
  have hpart {h : Head} {cs : List Node} (hn : (mk h cs).Legible ts) (hkind : h.kind.isLax = false)
      {c : Node} (hc : c ∈ cs) : c.Legible ts := hn.children hkind c hc
  induction h with
  | name hkind => exact hn.asName rfl (hn.1 (by rw [hkind]; rfl))
  | qualified hkind hp =>
    obtain ⟨p', f', hcs, -, hf⟩ := hn.at.selected hkind
    obtain rfl := (List.cons.inj (List.cons.inj hcs).2).1
    have hpl := hpart hn (hkind ▸ rfl) List.mem_cons_self
    have hfl := hpart hn (hkind ▸ rfl) (List.mem_cons_of_mem _ List.mem_cons_self)
    have hpl := hpl.asName (k := .packageIdentifier) rfl (hpl.1 (by rw [hp]; rfl))
    have hfl := hfl.asName (k := .typeIdentifier) rfl (hfl.1 (by rw [hf]; rfl))
    exact legible_mk_names (.inl rfl) (by simp [hpl, hfl]) (by simp [Kind.isName])
  | parenthesized hkind _ ih =>
    exact legible_mk rfl (by simpa using ih (hpart hn (hkind ▸ rfl) (by simp)))
  | pointer hkind _ ih =>
    exact legible_mk rfl (List.forall_mem_singleton.2
      ((ih (hpart hn (hkind ▸ rfl) (by simp))).congr rfl rfl rfl))
  | union hkind _ _ ihl ihr =>
    have hl := ihl (hpart hn (hkind ▸ rfl) (by simp))
    have hr := ihr (hpart hn (hkind ▸ rfl) (by simp))
    exact legible_mk rfl (by simp [hl, hr])
  | generic hkind _ _ iht iha =>
    have ht := iht (hpart hn (hkind ▸ rfl) (by simp))
    have ha := iha (hpart hn (hkind ▸ rfl) (by simp))
    exact legible_mk rfl (by simp [ht, ha])
  | instantiation hkind => exact hn.as (by rw [hkind]; rfl) rfl
  | typeOnly => exact hn

theorem Legible.asType? {n t : Node} (hn : n.Legible ts) (h : n.asType? = some t) :
    t.Legible ts := hn.readAs (readAs_of_asType? h)

end
end Node
end RouteCheck
