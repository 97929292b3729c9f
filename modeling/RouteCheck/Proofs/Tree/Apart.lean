import RouteCheck.Proofs.Tree.Paths
import RouteCheck.Proofs.Tree.Placed

/-!
Nodes that lie apart.

Two nodes lie apart when the text of one ends before that of the other begins. In a placed tree
different children lie apart, and so does what is taken from different children. `Parts` collects
nodes from below the children of a node that have some property, so that what is taken from
children of other properties can be put next to them; `Spread` forgets where they come from.

Main statements:
  1. `Parts.append`, `Parts.flatMap`, `Parts.spread`: how nodes that lie apart are collected.
  2. `nodup_ids`: nodes of a file that lie apart have different numbers.
  3. `outside_of_mem_walk`, `mem_walk_of_outside`: what a walk meets that enters no function literal.
-/

namespace RouteCheck.Node

/-- The text of one of the nodes ends before that of the other begins. -/
def Apart (m n : Node) : Prop := m.stop ≤ n.start ∨ n.stop ≤ m.start

/-- `m` is `n` or below it, but in no function literal below `n`. -/
inductive Outside : Node → Node → Prop
  | self (n : Node) : Outside n n
  | child {c m n : Node} : n.kind ≠ .funcLiteral → c ∈ n.children → Outside c m → Outside n m

/-- The nodes `ps` lie apart, in `n` and in no function literal below it. -/
structure Spread (n : Node) (ps : List Node) : Prop where
  apart : ps.Pairwise Apart
  outside : ∀ p ∈ ps, Outside n p

/-- The nodes `ps` lie apart, each below a child of `n` with the property `P`. -/
structure Parts (n : Node) (P : Node → Prop) (ps : List Node) : Prop where
  apart : ps.Pairwise Apart
  below : ∀ p ∈ ps, ∃ c ∈ n.children, P c ∧ Outside c p

/-- The node stands in one of these fields. -/
def InFields (fs : List Field) (c : Node) : Prop := ∃ f ∈ fs, c.inField = some f

section
variable {c m n p : Node} {cs ps qs : List Node} {P Q : Node → Prop} {lo hi : Nat}

theorem Apart.symm (h : Apart m n) : Apart n m := Or.symm h

theorem Apart.within (h : Apart m n) {p q : Node} (hm : m.start ≤ p.start ∧ p.stop ≤ m.stop)
    (hn : n.start ≤ q.start ∧ q.stop ≤ n.stop) : Apart p q := by
  unfold Apart at *
  omega

theorem Apart.ne (h : Apart m n) (hm : m.start < m.stop) : m ≠ n := by
  rintro rfl
  unfold Apart at h
  omega

theorem Outside.mem_all (h : Outside n m) : m ∈ n.all := by
  induction h with
  | self n => exact self_mem_all n
  | child _ hc _ ih => exact mem_all_of_child hc ih

theorem Outside.trans (h : Outside n m) (h' : Outside m p) : Outside n p := by
  induction h with
  | self => exact h'
  | child hn hc _ ih => exact .child hn hc (ih h')

theorem PlacedIn.pairwise_apart (h : PlacedIn cs lo hi) : cs.Pairwise Apart :=
  h.pairwise.imp fun hle => .inl hle

theorem Placed.apart_children (h : n.Placed) (hc : c ∈ n.children) (hm : m ∈ n.children)
    (hne : c ≠ m) : Apart c m := h.children.apart hc hm hne

theorem Placed.within_outside (h : n.Placed) (hm : Outside n m) :
    n.start ≤ m.start ∧ m.stop ≤ n.stop :=
  ⟨(h.within hm.mem_all).1, (h.within hm.mem_all).2.1⟩

theorem spread_nil : Spread n [] := ⟨.nil, nofun⟩

theorem spread_self : Spread n [n] :=
  ⟨List.pairwise_singleton .., fun _ hp => List.mem_singleton.1 hp ▸ .self n⟩

theorem Spread.perm (h : Spread n ps) (hperm : ps.Perm qs) : Spread n qs :=
  ⟨(hperm.pairwise_iff Apart.symm).1 h.apart, fun p hp => h.outside p (hperm.mem_iff.2 hp)⟩

theorem Spread.of_child (hn : n.kind ≠ .funcLiteral) (hc : c ∈ n.children) (h : Spread c ps) :
    Spread n ps :=
  ⟨h.apart, fun p hp => .child hn hc (h.outside p hp)⟩

namespace Parts

theorem nil : Parts n P [] := ⟨.nil, nofun⟩

theorem mono (h : Parts n P ps) (hPQ : ∀ c, P c → Q c) : Parts n Q ps :=
  ⟨h.apart, fun p hp =>
    let ⟨c, hc, hP, hout⟩ := h.below p hp
    ⟨c, hc, hPQ c hP, hout⟩⟩

/-- Nodes from below other children lie apart from these. -/
theorem append (hn : n.Placed) (h : Parts n P ps) (h' : Parts n Q qs)
    (hPQ : ∀ c, P c → ¬ Q c) : Parts n (fun c => P c ∨ Q c) (ps ++ qs) where
  apart := by
    refine List.pairwise_append.2 ⟨h.apart, h'.apart, fun p hp q hq => ?_⟩
    obtain ⟨c, hc, hP, hcp⟩ := h.below p hp
    obtain ⟨d, hd, hQ, hdq⟩ := h'.below q hq
    have hne : c ≠ d := fun heq => hPQ c hP (heq ▸ hQ)
    exact (hn.apart_children hc hd hne).within ((hn.child hc).2.2.within_outside hcp)
      ((hn.child hd).2.2.within_outside hdq)
  below p hp := by
    rcases List.mem_append.1 hp with hp | hp
    · obtain ⟨c, hc, hP, hout⟩ := h.below p hp
      exact ⟨c, hc, .inl hP, hout⟩
    · obtain ⟨c, hc, hQ, hout⟩ := h'.below p hp
      exact ⟨c, hc, .inr hQ, hout⟩

/-- What is taken from children, one after the other. -/
theorem flatMap (hn : n.Placed) {take : Node → List Node} (hcs : cs.Sublist n.children)
    (hP : ∀ c ∈ cs, P c) (h : ∀ c ∈ cs, Spread c (take c)) : Parts n P (cs.flatMap take) where
  apart := by
    refine List.pairwise_flatMap.2 ⟨fun c hc => (h c hc).apart, ?_⟩
    refine (hn.children.sublist hcs).pairwise_apart.imp_of_mem fun {c d} hc hd hcd p hp q hq => ?_
    exact hcd.within ((hn.child (hcs.subset hc)).2.2.within_outside ((h c hc).outside p hp))
      ((hn.child (hcs.subset hd)).2.2.within_outside ((h d hd).outside q hq))
  below p hp := by
    obtain ⟨c, hc, hp⟩ := List.mem_flatMap.1 hp
    exact ⟨c, hcs.subset hc, hP c hc, (h c hc).outside p hp⟩

theorem children (hn : n.Placed) (hcs : cs.Sublist n.children) (hP : ∀ c ∈ cs, P c) :
    Parts n P cs := by
  have h : Parts n P (cs.flatMap fun c => [c]) := flatMap hn hcs hP fun _ _ => spread_self
  rwa [List.flatMap_singleton'] at h

theorem append_fields (hn : n.Placed) {fs gs : List Field} (h : Parts n (InFields fs) ps)
    (h' : Parts n (InFields gs) qs) (hdisjoint : ∀ f ∈ fs, f ∉ gs) :
    Parts n (InFields (fs ++ gs)) (ps ++ qs) := by
  refine (append hn h h' ?_).mono ?_
  · rintro c ⟨f, hf, hfield⟩ ⟨g, hg, hfield'⟩
    obtain rfl : f = g := Option.some.inj (hfield.symm.trans hfield')
    exact hdisjoint f hf hg
  · rintro c (⟨f, hf, hfield⟩ | ⟨f, hf, hfield⟩)
    · exact ⟨f, List.mem_append_left _ hf, hfield⟩
    · exact ⟨f, List.mem_append_right _ hf, hfield⟩

theorem field? (hn : n.Placed) {take : Node → List Node} {f : Field}
    (h : ∀ c, n.field? f = some c → Spread c (take c)) :
    Parts n (InFields [f]) ((n.field? f).toList.flatMap take) := by
  cases hc : n.field? f with
  | none => exact nil
  | some c =>
    have hfield : c.inField = some f := by simpa using List.find?_some hc
    refine flatMap hn (List.singleton_sublist.2 (mem_children_of_field? hc)) ?_ ?_
    · exact List.forall_mem_singleton.2 ⟨f, List.mem_singleton_self f, hfield⟩
    · exact List.forall_mem_singleton.2 (h c hc)

theorem field?_self (hn : n.Placed) (f : Field) : Parts n (InFields [f]) (n.field? f).toList := by
  have h : Parts n (InFields [f]) ((n.field? f).toList.flatMap fun c => [c]) :=
    field? hn fun _ _ => spread_self
  rwa [List.flatMap_singleton'] at h

theorem fields (hn : n.Placed) (f : Field) : Parts n (InFields [f]) (n.fields f) := by
  refine children hn List.filter_sublist fun c hc => ⟨f, List.mem_singleton_self f, ?_⟩
  simpa using (List.mem_filter.1 hc).2

theorem spread (hn : n.kind ≠ .funcLiteral) (h : Parts n P ps) : Spread n ps :=
  ⟨h.apart, fun p hp =>
    let ⟨_, hc, _, hout⟩ := h.below p hp
    .child hn hc hout⟩

end Parts

/-- Nodes with different numbers that lie apart have no number twice. -/
theorem nodup_ids (hps : ps.Pairwise Apart) (hplaced : ∀ p ∈ ps, p.Placed)
    (hids : ∀ p ∈ ps, ∀ q ∈ ps, p.id = q.id → p = q) : (ps.map id).Nodup := by
  refine List.pairwise_map.2 (hps.imp_of_mem fun {p q} hp hq h heq => ?_)
  exact h.ne (hplaced p hp).nonempty (hids p hp q hq heq)

/-- A number that no other node has picks out its node. -/
theorem filter_id_eq (h : (ps.map id).Nodup) (hm : m ∈ ps) : ps.filter (·.id == m.id) = [m] := by
  induction ps with
  | nil => exact absurd hm List.not_mem_nil
  | cons p ps ih =>
    obtain ⟨hp, hps⟩ := List.nodup_cons.1 h
    rcases List.mem_cons.1 hm with rfl | hm
    · have hrest : ps.filter (·.id == m.id) = [] := List.filter_eq_nil_iff.2 fun q hq heq =>
        hp (beq_iff_eq.1 heq ▸ List.mem_map_of_mem hq)
      simp only [List.filter_cons, beq_self_eq_true, if_true, hrest]
    · have hne : (p.id == m.id) = false :=
        beq_eq_false_iff_ne.2 fun heq => hp (heq ▸ List.mem_map_of_mem hm)
      simp only [List.filter_cons, hne, Bool.false_eq_true, if_false, ih hps hm]

/-! ## Outside function literals -/

theorem mem_walk_iff {enter : Node → Bool} :
    m ∈ n.walk enter ↔ m = n ∨ enter n = true ∧ ∃ c ∈ n.named, m ∈ c.walk enter := by
  rw [walk, walkFrom]
  split
  · next henter => simp [walkFrom_eq_flatMap, henter]
  · next henter => simp [walkFrom, henter]

theorem outside_of_mem_walk {n : Node} (h : m ∈ n.walk (·.kind != .funcLiteral)) :
    Outside n m := by
  rcases mem_walk_iff.1 h with rfl | ⟨hn, c, hc, hm⟩
  · exact .self m
  · have := size_lt_of_mem_named hc
    exact .child (by simpa using hn) (mem_children_of_mem_named hc) (outside_of_mem_walk hm)
termination_by n.size

/-- A walk that leaves function literals out meets all but bare tokens, which have no parts. -/
theorem mem_walk_of_outside (hn : n.Placed) (hm : m.kind ≠ .token) (h : Outside n m) :
    m ∈ n.walk (·.kind != .funcLiteral) := by
  induction h with
  | self n => exact mem_walk_iff.2 (.inl rfl)
  | @child c m n hkind hc hout ih =>
    have hplaced := (hn.child hc).2.2
    refine mem_walk_iff.2 (.inr ⟨by simpa using hkind, c, List.mem_filter.2 ⟨hc, ?_⟩, ih hplaced hm⟩)
    have htoken : c.kind ≠ .token := fun htoken => by
      cases hout with
      | self => exact hm htoken
      | child _ hd _ => simp [hplaced.regular.token htoken] at hd
    simpa [Kind.isNamed] using htoken

theorem outside_of_field? {f : Field} (hn : n.kind ≠ .funcLiteral) (h : n.field? f = some m) :
    Outside n m := .child hn (mem_children_of_field? h) (.self m)

theorem outside_of_mem_expressions (h : m ∈ n.expressions) : Outside n m := by
  unfold expressions at h
  split at h
  · next hkind => exact .child (by simp [hkind]) (mem_children_of_mem_named h) (.self m)
  · exact List.mem_singleton.1 h ▸ .self m

theorem outside_unparen (n : Node) : Outside n n.unparen := by
  fun_induction unparen n with
  | case1 n hkind inner h ih =>
    have hinner : inner ∈ n.named := List.mem_of_mem_head? (by simpa using h)
    exact .child (by simp [hkind]) (mem_children_of_mem_named hinner) ih
  | case2 n => exact .self n
  | case3 n => exact .self n

end
end RouteCheck.Node
