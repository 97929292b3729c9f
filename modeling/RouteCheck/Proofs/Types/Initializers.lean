import Mathlib.Logic.Relation
import RouteCheck.Proofs.Types.Dependence
import RouteCheck.Proofs.Types.Resolution

/-!
What the type of an expression is while declarations are still being collected.

`Typer.collect` types the value of a declaration with the local declarations met so far, and the
finished typer types it again among all of them. A `Stage` is a point that collecting comes to, and
`Stage.Opens` goes on to one of the parts of its node. What is recorded after a node is collected
from is missed by every use in the node, so that the types of expressions in it stay what they are.

Main statements:
  1. `spreads_collect`: collecting from a node records names in the node.
  2. `Stage.Opens.before`, `Stage.Opens.later`: one step; `Stage.Reaches.before`,
     `Stage.Reaches.later`: any number of steps.
  3. `Stage.Reaches.typeOf`: expressions keep the types that they have once their node is collected
     from, whatever of the later declarations has been recorded.
  4. `initializer_types`: the declared name has the type that its value has in the finished typer.
-/

namespace RouteCheck

namespace Node

theorem PlacedIn.split {c : Node} {cs ds : List Node} {lo hi : Nat}
    (h : PlacedIn (cs ++ c :: ds) lo hi) :
    PlacedIn cs lo c.start ∧ c.Placed ∧ PlacedIn ds c.stop hi := by
  induction cs generalizing lo with
  | nil => exact ⟨trivial, h.2.1, h.2.2.2⟩
  | cons d cs ih =>
    obtain ⟨hlo, hplaced, _, hrest⟩ := h
    obtain ⟨hcs, hc, hds⟩ := ih hrest
    have hstop := (hrest.place (List.mem_append_right cs List.mem_cons_self)).1
    exact ⟨⟨hlo, hplaced, hstop, hcs⟩, hc, hds⟩

end Node

/-- The second node lies in an aside of a declaring node in the first one, or in what names the
declaration gives. -/
inductive Node.SetsAside : Node → Node → Prop
  | here {n part m} (hpart : part ∈ n.children) (h : part ∈ n.asides ∨ n.isNaming part = true)
    (hm : m ∈ part.all) : SetsAside n m
  | part {n part m} (hpart : part ∈ n.children) (h : SetsAside part m) : SetsAside n m

/-! ## Stages -/

/-- Collecting is about to begin with a node. -/
structure Stage where
  typer : Typer
  /-- The narrowest scope around the node. -/
  scope : Extent
  node : Node

namespace Stage

/-- The typer once the node is collected from. -/
def after (s : Stage) : Typer := s.typer.collect s.scope s.node

/-- The typer where the parts of the node are collected from. -/
def opened (s : Stage) : Typer :=
  if s.node.kind.isFunction then s.typer.bindSignature s.node else s.typer

/-- The scope of the parts of the node. -/
def inner (s : Stage) : Extent := if s.node.kind.opensScope then s.node.extent else s.scope

/-- Collecting goes on from the first stage to the second one, a part of the node. -/
inductive Opens (s : Stage) : Stage → Prop
  | entered {part} (h : s.node.entered = some part) : Opens s ⟨s.opened, s.inner, part⟩
  | named {before c rest} (h : s.node.kind.entered? = none)
    (hnamed : s.node.named = before ++ c :: rest) :
    Opens s ⟨s.typer.collectAll s.inner before, s.inner, c⟩

/-- Collecting comes from the first stage to the second one. -/
def Reaches : Stage → Stage → Prop := Relation.ReflTransGen Opens

end Stage

/-- No use in the node can refer to the binding. -/
def Binding.Misses (b : Binding) (n : Node) : Prop :=
  (b.nameAt < n.start ∨ n.stop ≤ b.nameAt) ∧ n.stop ≤ b.visibleFrom

namespace Typer

/-- The second typer has some more bindings, of names between two bytes. -/
def Spreads (t t' : Typer) (lo hi : Nat) : Prop :=
  ∃ new, t'.locals = t.locals ++ new ∧
    ∀ b ∈ new, (lo ≤ b.nameAt ∧ b.nameAt < hi) ∧ lo ≤ b.visibleFrom

section
variable {t t' t'' : Typer} {scope : Extent} {lo lo' mid hi hi' visibleFrom : Nat} {n : Node}
  {names ns : List Node}

theorem Spreads.refl (t : Typer) : Spreads t t lo hi := ⟨[], (List.append_nil _).symm, nofun⟩

theorem Spreads.mono (h : Spreads t t' lo hi) (hlo : lo' ≤ lo) (hhi : hi ≤ hi') :
    Spreads t t' lo' hi' := by
  obtain ⟨new, hnew, hplace⟩ := h
  refine ⟨new, hnew, fun b hb => ?_⟩
  have := hplace b hb
  omega

theorem Spreads.trans (h : Spreads t t' lo hi) (h' : Spreads t' t'' lo hi) :
    Spreads t t'' lo hi := by
  obtain ⟨new, hnew, hplace⟩ := h
  obtain ⟨more, hmore, hplace'⟩ := h'
  refine ⟨new ++ more, by rw [hmore, hnew, List.append_assoc], fun b hb => ?_⟩
  rcases List.mem_append.1 hb with hb | hb
  · exact hplace b hb
  · exact hplace' b hb

theorem Adds.spreads (h : Adds t t' scope visibleFrom names)
    (hnames : ∀ d ∈ names, lo ≤ d.start ∧ d.start < hi) (hvisible : lo ≤ visibleFrom) :
    Spreads t t' lo hi := by
  obtain ⟨new, hnew, hmade⟩ := h
  refine ⟨new, hnew, fun b hb => ?_⟩
  obtain ⟨d, hd, _, hname, _, hfrom⟩ := hmade.exists_name hb
  have := hnames d hd
  omega

theorem place_of_mem_binds (hplaced : n.Placed) {d : Node} (hd : d ∈ n.binds) :
    n.start ≤ d.start ∧ d.start < n.stop := by
  obtain ⟨part, hpart, _, hd⟩ := Node.isNaming_of_mem_binds hd
  obtain ⟨hlo, hhi, hplacedD⟩ := hplaced.within (Node.mem_all_of_child hpart hd)
  have := hplacedD.nonempty
  omega

/-- The names of a clause lie apart from the parts that name nothing. -/
theorem apart_of_mem_binds (hplaced : n.Placed) {part d : Node} (hpart : part ∈ n.children)
    (hnaming : n.isNaming part = false) (hd : d ∈ n.binds) :
    d.start < part.start ∨ part.stop ≤ d.start := by
  obtain ⟨naming, hmem, hin, hd⟩ := Node.isNaming_of_mem_binds hd
  have hne : naming ≠ part := by
    rintro rfl
    exact absurd hin (by simp [hnaming])
  have hparts := hplaced.children.apart hmem hpart hne
  obtain ⟨hlo, hhi, hplacedD⟩ := (hplaced.child hmem).2.2.within hd
  have := hplacedD.nonempty
  omega

theorem collectEntered_eq {part : Node} (h : n.entered = some part) (t : Typer) (scope : Extent) :
    t.collectEntered scope n = t.collect scope part := by
  rw [collectEntered, h]

mutual
/-- Collecting from a node records names in the node. -/
theorem spreads_collect {n : Node} (hplaced : n.Placed) (t : Typer) (scope : Extent) :
    Spreads t (t.collect scope n) n.start n.stop := by
  have hentered (t : Typer) (scope : Extent) :
      Spreads t (t.collectEntered scope n) n.start n.stop := by
    unfold collectEntered
    split
    · next part hpart =>
      have := Lexical.size_lt_of_entered hpart
      obtain ⟨f, _, hfield⟩ := Lexical.field?_of_entered hpart
      obtain ⟨hstart, hstop, hplaced'⟩ := hplaced.child (Node.mem_children_of_field? hfield)
      exact (spreads_collect hplaced' t scope).mono hstart hstop
    · exact .refl t
  -- a function or a clause records its names and what is in the part that it enters; any other node
  -- only what is in its parts
  by_cases hkind : n.kind.entered?.isSome = true
  · by_cases hfunction : n.kind.isFunction = true
    · rw [collect_function t scope hfunction]
      refine Spreads.trans ?_ (hentered _ _)
      refine (adds_bindSignature t n).spreads (fun d hd => ?_) (Nat.le_refl _)
      obtain ⟨hlo, hhi⟩ := place_of_mem_parameterNames hplaced hfunction hd
      refine ⟨hlo, Nat.lt_of_lt_of_le hhi ?_⟩
      cases hpart : n.entered with
      | none => exact Nat.le_refl _
      | some part =>
        obtain ⟨f, _, hfield⟩ := Lexical.field?_of_entered hpart
        obtain ⟨_, hstop, hplaced'⟩ := hplaced.child (Node.mem_children_of_field? hfield)
        exact Nat.le_of_lt (Nat.lt_of_lt_of_le hplaced'.nonempty hstop)
    · refine (hentered t scope).trans ?_
      exact (adds_collect t scope hkind hfunction).spreads
        (fun d hd => place_of_mem_binds hplaced hd) (Nat.le_of_lt hplaced.nonempty)
  · rw [collect_other t scope (by simpa using hkind)]
    have := Node.sizes_named_lt n
    exact spreads_collectAll hplaced.named t _
termination_by 2 * n.size

theorem spreads_collectAll {ns : List Node} {lo hi : Nat} (hplaced : Node.PlacedIn ns lo hi)
    (t : Typer) (scope : Extent) : Spreads t (t.collectAll scope ns) lo hi := by
  match ns with
  | [] =>
    rw [collectAll]
    exact .refl t
  | n :: rest =>
    obtain ⟨hlo, hn, hhi, hrest⟩ := hplaced
    rw [collectAll]
    exact ((spreads_collect hn t scope).mono hlo hhi).trans
      ((spreads_collectAll hrest _ scope).mono (by have := hn.nonempty; omega) (Nat.le_refl _))
termination_by 2 * Node.sizes ns + 1
decreasing_by
  · simp only [Node.sizes]
    omega
  · have := n.size_pos
    simp only [Node.sizes]
    omega
end

theorem collectAll_append (t : Typer) (scope : Extent) (ms ns : List Node) :
    t.collectAll scope (ms ++ ns) = (t.collectAll scope ms).collectAll scope ns := by
  induction ms generalizing t with
  | nil => rw [List.nil_append, collectAll]
  | cons m ms ih => rw [List.cons_append, collectAll, collectAll, ih]

end
end Typer

/-! ## One step and a whole run -/

namespace Stage

open Typer Binding

section
variable {s s' s'' : Stage}

theorem Opens.mem_children (h : s.Opens s') : s'.node ∈ s.node.children := by
  cases h with
  | entered h =>
    obtain ⟨f, _, hfield⟩ := Lexical.field?_of_entered h
    exact Node.mem_children_of_field? hfield
  | named _ hnamed =>
    refine Node.mem_children_of_mem_named ?_
    rw [hnamed]
    exact List.mem_append_right _ List.mem_cons_self

theorem Opens.sameGround (h : s.Opens s') : SameGround s.typer s'.typer := by
  cases h with
  | entered _ =>
    show SameGround s.typer s.opened
    unfold opened
    split
    · exact sameGround_bindSignature ..
    · exact .refl _
  | named _ _ => exact sameGround_collectAll ..

/-- The bindings recorded before a part are of names before it. -/
theorem Opens.before (h : s.Opens s') (hplaced : s.node.Placed)
    (hbefore : ∀ b ∈ s.typer.locals, b.nameAt < s.node.start) :
    ∀ b ∈ s'.typer.locals, b.nameAt < s'.node.start := by
  have hstart := (hplaced.child h.mem_children).1
  cases h with
  | @entered part h =>
    show ∀ b ∈ s.opened.locals, b.nameAt < part.start
    intro b hb
    unfold opened at hb
    split at hb
    · next hfunction =>
      obtain ⟨params, hparams, hmade⟩ := adds_bindSignature s.typer s.node
      rw [hparams] at hb
      rcases List.mem_append.1 hb with hb | hb
      · exact Nat.lt_of_lt_of_le (hbefore b hb) hstart
      · obtain ⟨d, hd, _, hname, _⟩ := hmade.exists_name hb
        have hlt := (place_of_mem_parameterNames hplaced hfunction hd).2
        rw [h] at hlt
        exact hname ▸ hlt
    · exact Nat.lt_of_lt_of_le (hbefore b hb) hstart
  | @named before c rest _ hnamed =>
    have hparts := hplaced.named
    rw [hnamed] at hparts
    obtain ⟨new, hnew, hplace⟩ := spreads_collectAll hparts.split.1 s.typer s.inner
    show ∀ b ∈ (s.typer.collectAll s.inner before).locals, b.nameAt < c.start
    intro b hb
    rw [hnew] at hb
    rcases List.mem_append.1 hb with hb | hb
    · exact Nat.lt_of_lt_of_le (hbefore b hb) hstart
    · exact (hplace b hb).1.2

theorem later_of_entered {part : Node} (h : s.node.entered = some part) (hplaced : s.node.Placed) :
    ∃ later, s.after.locals = (s.opened.collect s.inner part).locals ++ later ∧
      ∀ b ∈ later, b.Misses part := by
  obtain ⟨f, hf, hfield⟩ := Lexical.field?_of_entered h
  have hkind : s.node.kind.entered?.isSome = true := by rw [hf]; rfl
  by_cases hfunction : s.node.kind.isFunction = true
  · -- a function records nothing after its body
    refine ⟨[], ?_, List.forall_mem_nil _⟩
    rw [after, collect_function s.typer s.scope hfunction, collectEntered_eq h, opened,
      if_pos hfunction, inner, if_pos (Kind.opensScope_of_isFunction _ hfunction), List.append_nil]
  · have hopens : s.node.kind.opensScope = false := by
      simpa [Kind.opensScope_eq_isFunction hkind] using hfunction
    obtain ⟨names, hnames, hmade⟩ := adds_collect s.typer s.scope hkind hfunction
    refine ⟨names, ?_, fun b hb => ?_⟩
    · rw [after, hnames, collectEntered_eq h, opened, if_neg hfunction, inner, hopens]
      rfl
    · obtain ⟨d, hd, _, hname, _, hfrom⟩ := hmade.exists_name hb
      have hmem := Node.mem_children_of_field? hfield
      have hapart := apart_of_mem_binds hplaced hmem (Lexical.isNaming_of_entered h) hd
      have hstop := (hplaced.child hmem).2.1
      rw [Misses]
      omega

theorem later_of_named {before rest : List Node} {c : Node} (h : s.node.kind.entered? = none)
    (hnamed : s.node.named = before ++ c :: rest) (hplaced : s.node.Placed) :
    ∃ later, s.after.locals =
        ((s.typer.collectAll s.inner before).collect s.inner c).locals ++ later ∧
      ∀ b ∈ later, b.Misses c := by
  have hparts := hplaced.named
  rw [hnamed] at hparts
  obtain ⟨_, hc, hrest⟩ := hparts.split
  obtain ⟨new, hnew, hplace⟩ := spreads_collectAll hrest
    ((s.typer.collectAll s.inner before).collect s.inner c) s.inner
  refine ⟨new, ?_, fun b hb => ?_⟩
  · rw [after, collect_other s.typer s.scope h, hnamed, collectAll_append, collectAll]
    exact hnew
  · have := hplace b hb
    rw [Misses]
    omega

/-- What is recorded after a part is collected from is missed by the uses in the part. -/
theorem Opens.later (h : s.Opens s') (hplaced : s.node.Placed) :
    ∃ later, s.after.locals = s'.after.locals ++ later ∧ ∀ b ∈ later, b.Misses s'.node := by
  cases h with
  | entered h => exact later_of_entered h hplaced
  | named h hnamed => exact later_of_named h hnamed hplaced

theorem Reaches.mem_all (h : s.Reaches s') : s'.node ∈ s.node.all := by
  induction h with
  | refl => exact Node.self_mem_all _
  | tail _ hopens ih =>
    exact Node.mem_all_trans (Node.mem_all_of_child hopens.mem_children (Node.self_mem_all _)) ih

theorem Reaches.sameGround (h : s.Reaches s') : SameGround s.typer s'.typer := by
  induction h with
  | refl => exact .refl _
  | tail _ hopens ih => exact ih.trans hopens.sameGround

theorem Reaches.before (h : s.Reaches s') (hplaced : s.node.Placed)
    (hbefore : ∀ b ∈ s.typer.locals, b.nameAt < s.node.start) :
    ∀ b ∈ s'.typer.locals, b.nameAt < s'.node.start := by
  induction h with
  | refl => exact hbefore
  | tail hreaches hopens ih => exact hopens.before (hplaced.within (mem_all hreaches)).2.2 ih

theorem Reaches.later (h : s.Reaches s') (hplaced : s.node.Placed) :
    ∃ later, s.after.locals = s'.after.locals ++ later ∧ ∀ b ∈ later, b.Misses s'.node := by
  induction h with
  | refl => exact ⟨[], (List.append_nil _).symm, nofun⟩
  | @tail s' s'' hreaches hopens ih =>
    have hplaced' := (hplaced.within (mem_all hreaches)).2.2
    obtain ⟨later, hlater, hmisses⟩ := ih
    obtain ⟨sooner, hsooner, hmisses'⟩ := hopens.later hplaced'
    refine ⟨sooner ++ later, by rw [hlater, hsooner, List.append_assoc], fun b hb => ?_⟩
    rcases List.mem_append.1 hb with hb | hb
    · exact hmisses' b hb
    · have := hmisses b hb
      have := hplaced'.child hopens.mem_children
      rw [Misses] at *
      omega

theorem Reaches.isPrefix (h : s.Reaches s') (hplaced : s.node.Placed) :
    s'.typer.locals <+: s.after.locals := by
  obtain ⟨new, hnew, _⟩ := spreads_collect (hplaced.within h.mem_all).2.2 s'.typer s'.scope
  obtain ⟨later, hlater, _⟩ := h.later hplaced
  rw [hlater, after, hnew, List.append_assoc]
  exact List.prefix_append ..

/-- Collecting comes to everything that is named in a node, unless it is set aside. -/
theorem exists_reaches {n m : Node} (hplaced : n.Placed) (t : Typer) (scope : Extent)
    (hm : m ∈ n.descendants) : (∃ s, Reaches ⟨t, scope, n⟩ s ∧ s.node = m) ∨ n.SetsAside m := by
  rcases Node.mem_descendants_iff.1 hm with rfl | ⟨c, hc, hm⟩
  · exact .inl ⟨_, .refl, rfl⟩
  · have := Node.size_lt_of_mem_named hc
    have hchild := Node.mem_children_of_mem_named hc
    have hopened (s : Stage) (hnode : s.node = c) (hopens : Opens ⟨t, scope, n⟩ s) :
        (∃ s, Reaches ⟨t, scope, n⟩ s ∧ s.node = m) ∨ n.SetsAside m := by
      obtain ⟨t', scope', _⟩ := s
      obtain rfl := hnode
      have hplaced' := (hplaced.child hchild).2.2
      rcases exists_reaches hplaced' t' scope' hm with ⟨s', hreaches, hs'⟩ | haside
      · exact .inl ⟨s', .head hopens hreaches, hs'⟩
      · exact .inr (.part hchild haside)
    have hall := Node.mem_all_of_mem_walk hm
    by_cases hkind : n.kind.entered?.isSome = true
    · cases hnaming : n.isNaming c with
      | true => exact .inr (.here hchild (.inr hnaming) hall)
      | false =>
        rcases Lexical.mem_asides_or_entered hplaced hkind hc hnaming with haside | hentered
        · exact .inr (.here hchild (.inl haside) hall)
        · exact hopened _ rfl (.entered hentered)
    · obtain ⟨before, rest, hnamed⟩ := List.append_of_mem hc
      exact hopened _ rfl (.named (by simpa using hkind) hnamed)
termination_by n.size

end
end Stage

/-! ## Types -/

theorem Binding.Misses.not_covers {b : Binding} {n u : Node} (h : b.Misses n)
    (hlo : n.start ≤ u.start) (hhi : u.start < n.stop) : b.covers u.start = false := by
  rw [Misses] at h
  rw [Bool.eq_false_iff, ne_eq, covers_iff]
  omega

namespace Stage

section
variable {s s' : Stage}

/-- Whatever has been recorded of what follows a node, expressions in the node have the types that
they have once the node is collected from. -/
theorem Reaches.typeOf (h : s.Reaches s') (hplaced : s.node.Placed) {e : Node}
    (he : e ∈ s'.node.all) {bs : List Binding} (hlo : s'.after.locals <+: bs)
    (hhi : bs <+: s.after.locals) :
    ({ s.after with locals := bs } : Typer).typeOf e = s'.after.typeOf e := by
  obtain ⟨more, rfl⟩ := hlo
  obtain ⟨later, hlater, hmisses⟩ := h.later hplaced
  have hmore : more <+: later := by
    rw [hlater] at hhi
    exact (List.prefix_append_right_inj _).1 hhi
  have hground : Typer.SameGround s'.after s.after := by
    have hs := Typer.sameGround_collect s.typer s.scope s.node
    have hs' := h.sameGround.trans (Typer.sameGround_collect s'.typer s'.scope s'.node)
    exact ⟨hs.1.trans hs'.1.symm, hs.2.trans hs'.2.symm⟩
  have hplaced' := (hplaced.within h.mem_all).2.2
  refine Typer.Agrees.typeOf ⟨hground, fun u hu => ?_⟩
  obtain ⟨hstart, hstop, hplacedU⟩ := hplaced'.within (Node.mem_all_trans hu he)
  have := hplacedU.nonempty
  exact Binding.resolve?_append fun b hb _ =>
    (hmisses b (hmore.subset hb)).not_covers hstart (by omega)

end
end Stage

/-- The name and the value of a declaration of one name by one value that gives no type. -/
def Node.initializer? (n : Node) : Option (Node × Node) :=
  if n.kind = .shortVarDeclaration ||
      (n.kind = .varSpec || n.kind = .constSpec) && (n.field? .type).isNone then
    match n.binds, n.entered.map expressions with
    | [x], some [e] => some (x, e)
    | _, _ => none
  else none

theorem Node.exists_entered_of_initializer? {n x e : Node} (h : n.initializer? = some (x, e)) :
    (n.kind = .shortVarDeclaration ∨
        (n.kind = .varSpec ∨ n.kind = .constSpec) ∧ n.field? .type = none) ∧
      n.binds = [x] ∧ ∃ part, n.entered = some part ∧ part.expressions = [e] := by
  unfold initializer? at h
  split at h
  · next hkind =>
    split at h
    · next hbinds hvalue =>
      obtain ⟨rfl, rfl⟩ := Prod.mk.inj (Option.some.inj h)
      exact ⟨by simpa using hkind, hbinds, Option.map_eq_some_iff.1 hvalue⟩
    · exact absurd h nofun
  · exact absurd h nofun

namespace Typer

section
variable {n x e : Node} {t : Typer} {scope : Extent}

theorem bindValues_singleton :
    t.bindValues scope n [x] none [e] = t.bind scope n.stop x (t.typeOf e) := rfl

/-- The name gets the type that its value has once the value is collected from. -/
theorem collect_initializer (h : n.initializer? = some (x, e)) :
    t.collect scope n = (t.collectEntered scope n).bind scope n.stop x
      ((t.collectEntered scope n).typeOf e) := by
  obtain ⟨hkind, hbinds, part, hpart, hvalue⟩ := Node.exists_entered_of_initializer? h
  rw [← bindValues_singleton, collectEntered_eq hpart, collect]
  rcases hkind with hkind | ⟨hkind, htype⟩
  · have hright : (if (n.field? .left).isNone then none else n.field? .right) = some part := by
      simpa [Node.entered, hkind, Kind.entered?] using hpart
    have hleft : ((n.field? .left).map Node.expressions).getD [] = [x] := by
      simpa [Node.binds, hkind, hpart] using hbinds
    simp only [hkind]
    split
    · next left right hl hr =>
      rw [hl] at hleft hright
      obtain rfl : right = part := Option.some.inj (hr.symm.trans hright)
      rw [show left.expressions = [x] from hleft, hvalue]
    · next hno =>
      cases hl : n.field? .left with
      | none => simp [hl] at hleft
      | some left =>
        rw [hl] at hright
        exact absurd hright (hno left part hl)
  · have hright : n.field? .value = some part := by
      rcases hkind with hkind | hkind <;> simpa [Node.entered, hkind, Kind.entered?] using hpart
    have hnames : n.fields .name = [x] := by
      rcases hkind with hkind | hkind <;> simpa [Node.binds, hkind] using hbinds
    have hsome {v : Node} (hv : n.field? .value = some v) : v = part :=
      Option.some.inj (hv.symm.trans hright)
    have hnone (hv : n.field? .value = none) : False :=
      Option.some_ne_none part (hright.symm.trans hv)
    rw [hnames, htype]
    rcases hkind with hkind | hkind <;> simp only [hkind] <;> split
    · next v hv => rw [hsome hv, hvalue, Option.map_none]
    · next hv => exact absurd hv hnone
    · next v hv => rw [hsome hv, hvalue, Option.map_none]
    · next hv => exact absurd hv hnone

end
end Typer

namespace Stage

section
variable {s s' : Stage} {x e : Node}

theorem Opens.initializer (h : s.node.initializer? = some (x, e)) :
    ∃ s', s.Opens s' ∧ e ∈ s'.node.all ∧ s.typer.collectEntered s.scope s.node = s'.after ∧
      s'.typer = s.typer ∧ s.node.isNaming s'.node = false := by
  obtain ⟨hkind, _, part, hpart, hvalue⟩ := Node.exists_entered_of_initializer? h
  have hkinds : s.node.kind.isFunction = false ∧ s.node.kind.opensScope = false := by
    rcases hkind with hkind | ⟨hkind | hkind, _⟩ <;> rw [hkind] <;> exact ⟨rfl, rfl⟩
  have hopened : s.opened = s.typer := by simp [opened, hkinds.1]
  have hinner : s.inner = s.scope := by simp [inner, hkinds.2]
  refine ⟨_, .entered hpart, ?_, ?_, hopened, Lexical.isNaming_of_entered hpart⟩
  · exact Node.mem_all_of_mem_expressions (hvalue ▸ List.mem_singleton_self e)
  · rw [Typer.collectEntered_eq hpart, after, hopened, hinner]

/-- Among the bindings at the end there is only the one that a declaration records for its name. -/
theorem Reaches.ty_of_nameAt (h : s.Reaches s') (hplaced : s.node.Placed)
    (hempty : s.typer.locals = []) (hx : s'.node.initializer? = some (x, e)) {b : Binding}
    (hb : b ∈ s.after.locals) (hat : b.nameAt = x.start) :
    b.ty = (s'.typer.collectEntered s'.scope s'.node).typeOf e := by
  obtain ⟨_, hbinds, _⟩ := Node.exists_entered_of_initializer? hx
  obtain ⟨s'', hopens, _, hcollect, htyper, hnaming⟩ := Opens.initializer hx
  have hplaced' := (hplaced.within h.mem_all).2.2
  have hplace := Typer.place_of_mem_binds hplaced' (hbinds ▸ List.mem_singleton_self x)
  have hbefore := h.before hplaced (by simp [hempty])
  obtain ⟨later, hlater, hmisses⟩ := h.later hplaced
  obtain ⟨hstart, hstop, hplaced''⟩ := hplaced'.child hopens.mem_children
  obtain ⟨new, hnew, hwithin⟩ := Typer.spreads_collect hplaced'' s''.typer s''.scope
  obtain ⟨names, hnames, hnamesTy⟩ : ∃ names, s'.after.locals = s''.after.locals ++ names ∧
      ∀ b ∈ names, b.ty = (s'.typer.collectEntered s'.scope s'.node).typeOf e := by
    rw [after, Typer.collect_initializer hx, hcollect, Typer.bind]
    split
    · exact ⟨[], (List.append_nil _).symm, nofun⟩
    · exact ⟨_, rfl, by simp⟩
  have hapart := Typer.apart_of_mem_binds hplaced' hopens.mem_children hnaming
    (hbinds ▸ List.mem_singleton_self x)
  rw [hlater, hnames, after, hnew, htyper] at hb
  simp only [List.mem_append] at hb
  -- recorded before the declaration, within its values, by it, or after it: by their places only
  -- the third are of the name
  rcases hb with ((hb | hb) | hb) | hb
  · have := hbefore b hb
    omega
  · have := hwithin b hb
    omega
  · exact hnamesTy b hb
  · have := hmisses b hb
    rw [Binding.Misses] at this
    omega

end
end Stage

/-- Once a node of a function is collected from, the expressions in it have the types that they have
in the finished typer, and as long as the later declarations are recorded these do not change. So
what a declaration takes for the type of its value is the type of the value in the finished typer,
and that of every identifier that refers to the declared name. Collecting comes to whatever is named
in the function, other than what is set aside. -/
theorem initializer_types {p : Program} {f : SourceFile} {n func : Node} (hp : p.Parsed)
    (hf : f ∈ p.files) (houter : f.outermostFunction? n = some func) :
    let finished := Typer.enclosing (.build p) f n
    let start : Stage := ⟨{ index := .build p, file := f }, func.extent, func⟩
    (∀ m ∈ func.descendants, (∃ s, start.Reaches s ∧ s.node = m) ∨ func.SetsAside m) ∧
    ∀ s, start.Reaches s →
      (∀ x e, s.node.initializer? = some (x, e) →
        let current := s.typer.collectEntered s.scope s.node
        s.after = current.bind s.scope s.node.stop x (current.typeOf e) ∧
        finished.typeOf e = current.typeOf e ∧
        ∀ u, u.kind = .identifier → (finished.local? u).map (·.nameAt) = some x.start →
          finished.typeOf u = finished.typeOf e) ∧
      s.typer.locals <+: finished.locals ∧ s.after.locals <+: finished.locals ∧
      ∀ e ∈ s.node.all, ∀ bs, s.after.locals <+: bs → bs <+: finished.locals →
        ({ finished with locals := bs } : Typer).typeOf e = s.after.typeOf e := by
  intro finished start
  have hplaced := placed_of_outermostFunction? (hp.trees f hf) houter
  have hfinished : finished = start.after := by
    simp only [finished, Typer.enclosing, houter]
    rfl
  refine ⟨fun m hm => Stage.exists_reaches hplaced _ _ hm,
    fun s hs => ⟨fun x e hx => ?_, ?_, ?_, ?_⟩⟩
  · intro current
    obtain ⟨s', hopens, he, hcollect, _⟩ := Stage.Opens.initializer hx
    have hreaches : start.Reaches s' := .tail hs hopens
    have htype : finished.typeOf e = current.typeOf e := by
      obtain ⟨later, hlater, _⟩ := hreaches.later hplaced
      have hprefix : s'.after.locals <+: start.after.locals := hlater ▸ List.prefix_append ..
      have htype := hreaches.typeOf hplaced he hprefix (List.prefix_refl _)
      rw [← hfinished] at htype
      exact htype.trans (congrArg (·.typeOf e) hcollect.symm)
    refine ⟨Typer.collect_initializer hx, htype, fun u hu hlocal => ?_⟩
    obtain ⟨b, hb, hat⟩ := Option.map_eq_some_iff.1 hlocal
    have hmem := Typer.mem_of_local? hb
    rw [hfinished] at hmem
    rw [Typer.typeOf_of_local? hu hb, htype]
    exact hs.ty_of_nameAt hplaced rfl hx hmem hat
  · rw [hfinished]
    exact hs.isPrefix hplaced
  · obtain ⟨later, hlater, _⟩ := hs.later hplaced
    rw [hfinished, hlater]
    exact List.prefix_append ..
  · rw [hfinished]
    exact fun e he bs hlo hhi => hs.typeOf hplaced he hlo hhi

/-- The second node, told by its number, may be set aside in the first one. -/
def Node.holdsApart (n m : Node) : Bool :=
  n.all.any fun k => k.children.any fun part =>
    ((k.asides.map Node.id).contains part.id || k.isNaming part) &&
      (part.all.map Node.id).contains m.id

theorem Node.holdsApart_of_setsAside {n m : Node} (h : n.SetsAside m) : n.holdsApart m = true := by
  have hexists : ∃ k ∈ n.all, ∃ part ∈ k.children,
      (part ∈ k.asides ∨ k.isNaming part = true) ∧ m ∈ part.all := by
    induction h with
    | @here n part m hpart haside hm => exact ⟨n, self_mem_all n, part, hpart, haside, hm⟩
    | @part n part m hpart _ ih =>
      obtain ⟨k, hk, hapart⟩ := ih
      exact ⟨k, mem_all_of_child hpart hk, hapart⟩
  obtain ⟨k, hk, part, hpart, haside, hm⟩ := hexists
  refine List.any_eq_true.2 ⟨k, hk, List.any_eq_true.2 ⟨part, hpart, ?_⟩⟩
  rw [Bool.and_eq_true, Bool.or_eq_true]
  refine ⟨haside.imp_left fun haside => ?_, ?_⟩
  · exact List.contains_iff_mem.2 (List.mem_map_of_mem haside)
  · exact List.contains_iff_mem.2 (List.mem_map_of_mem hm)

/-- A name that is declared again in an `if` by way of itself, and a parameter of a closure of the
same name. -/
def reusing : List String :=
  ["func total(xs []string) int \x7b n := len(xs)",
    "g := func(n string) int \x7b var m = n; return len(m) \x7d",
    "if n := xs[n]; n != \"\" \x7b return g(n) \x7d",
    "return n \x7d"]

/-- Of every declaration of one name by one value in a function of a sample file: the name, the type
of the value, whether the declaration may be set aside, and where the name is used. -/
def SourceFile.initialized (f : SourceFile) (func : Node) :
    List (String × Ty × Bool × List Nat) :=
  let t := Typer.enclosing (.build ⟨[f]⟩) f func
  func.descendants.filterMap fun m => m.initializer?.map fun (x, e) =>
    (x.text, t.typeOf e, func.holdsApart m, (func.descendants.filter fun u =>
      u.kind = .identifier && (t.local? u).map (·.nameAt) = some x.start).map Node.start)

theorem exists_of_mem_initialized {f : SourceFile} {func : Node} {name : String} {ty : Ty}
    {uses : List Nat} (h : (name, ty, false, uses) ∈ f.initialized func) :
    ∃ m ∈ func.descendants, ∃ x e, m.initializer? = some (x, e) ∧ ¬ func.SetsAside m ∧
      x.text = name ∧ (Typer.enclosing (.build ⟨[f]⟩) f func).typeOf e = ty ∧
      ∀ at_ ∈ uses, ∃ u : Node, u.kind = .identifier ∧ u.start = at_ ∧
        ((Typer.enclosing (.build ⟨[f]⟩) f func).local? u).map (·.nameAt) = some x.start := by
  obtain ⟨m, hm, hrow⟩ := List.mem_filterMap.1 h
  obtain ⟨⟨x, e⟩, hx, hrow⟩ := Option.map_eq_some_iff.1 hrow
  simp only [Prod.mk.injEq] at hrow
  obtain ⟨hname, hty, hapart, huses⟩ := hrow
  refine ⟨m, hm, x, e, hx, fun haside => ?_, hname, hty, fun at_ hat => ?_⟩
  · exact absurd (Node.holdsApart_of_setsAside haside) (by simp [hapart])
  · obtain ⟨u, hu, hstart⟩ := List.mem_map.1 (huses ▸ hat)
    obtain ⟨hkind, hlocal⟩ := Bool.and_eq_true_iff.1 (List.mem_filter.1 hu).2
    exact ⟨u, by simpa using hkind, hstart, by simpa using hlocal⟩

theorem initialized_reusing :
    let f := SourceFile.sample reusing
    f.functions.map f.initialized =
      [[("n", .int, false, [77, 154, 189]), ("g", .func, false, [90, 175]),
        ("m", .string, false, [120, 138]), ("n", .string, false, [146, 158, 177])]] := by
  simp only [reusing, SourceFile.sample_eq, SourceFile.chars, String.reduceToList]
  decide +kernel

/-- The second declaration of the name has another type than the first, and so has a use of it. -/
theorem initializer_types_reusing : ∃ sources p, Program.ofSources sources = .ok p ∧
    ∃ f ∈ p.files, ∃ func, f.outermostFunction? func = some func ∧
      let finished := Typer.enclosing (.build p) f func
      ∃ s x e, Stage.Reaches ⟨{ index := .build p, file := f }, func.extent, func⟩ s ∧
        s.node.initializer? = some (x, e) ∧ x.text = "n" ∧
        (s.typer.collectEntered s.scope s.node).typeOf e = .string ∧
        ∃ u, u.start = 158 ∧ finished.typeOf u = .string := by
  have hp := Program.ofSources_sample reusing
  have hf : SourceFile.sample reusing ∈ (Program.mk [.sample reusing]).files :=
    List.mem_singleton_self _
  obtain ⟨func, hfunc, hrows⟩ := List.map_eq_singleton_iff.1 initialized_reusing
  have hmem : func ∈ (SourceFile.sample reusing).functions := hfunc ▸ List.mem_singleton_self func
  have hparsed := Program.parsed_ofSources hp
  have houter := outermostFunction?_of_mem_functions (hparsed.trees _ hf) hmem
  have hrow : ("n", Ty.string, false, [146, 158, 177]) ∈
      (SourceFile.sample reusing).initialized func := by
    rw [hrows]
    decide
  obtain ⟨m, hm, x, e, hx, haside, hname, hty, huses⟩ := exists_of_mem_initialized hrow
  obtain ⟨u, hu, hstart, hlocal⟩ := huses 158 (by decide)
  obtain ⟨hreached, htypes⟩ := initializer_types hparsed hf houter
  obtain ⟨s, hs, rfl⟩ := (hreached m hm).resolve_right haside
  obtain ⟨_, hvalue, huse⟩ := (htypes s hs).1 x e hx
  exact ⟨_, _, hp, _, hf, func, houter, s, x, e, hs, hx, hname, hvalue.symm.trans hty, u, hstart,
    (huse u hu hlocal).trans hty⟩

end RouteCheck
