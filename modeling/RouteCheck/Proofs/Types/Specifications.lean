import RouteCheck.Proofs.Program.Lookup
import RouteCheck.Proofs.Types.Initializers
import RouteCheck.Types.Template

/-!
The names of a specification and its values, in pairs.

A name is numbered by its place among the nodes in field `name`. For variables these are names only,
but for constants each name behind the first has the comma before it in that field too. So a name of
several constants is paired with the value of twice its number, in the index as well as where local
declarations are typed.

Main statements:
  1. `Node.IsNameList.getElem?_place`: where the names of a list of names stand in it.
  2. `ValueDecl.mem_ofName`, `ValueDecl.value?_ofName`: what the index lists for a name.
  3. `Typer.collect_declaring`: a declaration records its names with their types.
  4. `Stage.Reaches.ty_of_name`: the type of a local name in the finished typer.
  5. `specification_pairs`: the values that names are paired with, in a package and in a function.
  6. `constants_mispaired`: constants that have a value each and are paired with others.
-/

namespace RouteCheck

namespace Node

/-! ## Lists of names -/

section
variable {commas : Bool} {ns : List Node}

/-- Where a name of a list of names stands in it. -/
def place (commas : Bool) (i : Nat) : Nat := if commas then 2 * i else i

/-- Behind the first name of a list each name has a comma before it. -/
theorem getElem?_others {others : Nat}
    (h : ns.map (·.kind.isNamed) = (List.replicate others [false, true]).flatten) (i : Nat) :
    ns.length = 2 * (ns.filter (·.kind.isNamed)).length ∧
      ns[2 * i + 1]? = (ns.filter (·.kind.isNamed))[i]? := by
  induction others generalizing ns i with
  | zero =>
    obtain rfl : ns = [] := by simpa using h
    simp
  | succ others ih =>
    match ns, h with
    | [_], h => simp [List.replicate_succ] at h
    | c :: n :: ns, h =>
      simp only [List.replicate_succ, List.flatten_cons, List.map_cons, List.cons_append,
        List.nil_append, List.cons.injEq] at h
      obtain ⟨hc, hn, hns⟩ := h
      have hfilter : (c :: n :: ns).filter (·.kind.isNamed) = n :: ns.filter (·.kind.isNamed) :=
        (List.filter_cons_of_neg (by simp [hc])).trans (List.filter_cons_of_pos hn)
      rw [hfilter]
      refine ⟨?_, ?_⟩
      · have := (ih hns 0).1
        simp only [List.length_cons]
        omega
      · cases i with
        | zero => rfl
        | succ i => exact (ih hns i).2

/-- The names of a list of names are where their numbers say, and it ends with the last name. -/
theorem IsNameList.getElem?_place (h : IsNameList commas (ns.map (·.kind.isNamed))) (i : Nat) :
    ns[place commas i]? = (ns.filter (·.kind.isNamed))[i]? ∧
      ns.length = place commas ((ns.filter (·.kind.isNamed)).length - 1) + 1 := by
  obtain ⟨others, h⟩ := h
  match ns, h with
  | first :: ns, h =>
    obtain ⟨hfirst, hns⟩ := List.cons.inj h
    have hfilter : (first :: ns).filter (·.kind.isNamed) = first :: ns.filter (·.kind.isNamed) :=
      List.filter_cons_of_pos hfirst
    rw [hfilter]
    cases commas with
    | true =>
      refine ⟨?_, ?_⟩
      · cases i with
        | zero => rfl
        | succ i => exact (getElem?_others hns i).2
      · rw [List.length_cons, (getElem?_others hns 0).1]
        rfl
    | false =>
      have hall : ∀ n ∈ ns, n.kind.isNamed = true := by
        intro n hn
        have : n.kind.isNamed ∈ ns.map (·.kind.isNamed) := List.mem_map_of_mem hn
        rw [hns] at this
        exact (by simpa using this : others ≠ 0 ∧ n.kind.isNamed = true).2
      rw [List.filter_eq_self.2 hall]
      exact ⟨rfl, rfl⟩

end

/-! ## Specifications and short declarations -/

def IsSpec (n : Node) : Prop := n.kind = .varSpec ∨ n.kind = .constSpec

/-- The node declares names by values of their own. -/
def IsDeclaring (n : Node) : Prop := n.kind = .shortVarDeclaration ∨ n.IsSpec

/-- The names that a specification or short declaration declares. -/
def names (n : Node) : List Node :=
  if n.kind = .shortVarDeclaration then n.binds else n.binds.filter (·.kind.isNamed)

/-- The values of a specification or short declaration. -/
def values (n : Node) : List Node := (n.entered.map expressions).getD []

/-- The value may give several names their types. -/
def givesSeveral (v : Node) : Bool :=
  [.callExpression, .typeAssertionExpression, .indexExpression].contains v.unparen.kind

/-- The type that a specification gives its names. -/
def givenType? (n : Node) : Option Node :=
  if n.kind = .shortVarDeclaration then none else n.field? .type

section
variable {n x : Node} {i : Nat}

theorem IsSpec.binds (h : n.IsSpec) : n.binds = n.fields .name := by
  rcases h with h | h <;> simp only [Node.binds, h]

theorem IsSpec.entered (h : n.IsSpec) : n.entered = n.field? .value := by
  rcases h with h | h <;> simp [Node.entered, h, Kind.entered?]

theorem IsSpec.names (h : n.IsSpec) : n.names = (n.fields .name).filter (·.kind.isNamed) := by
  rw [Node.names, if_neg (by rcases h with h | h <;> simp [h]), h.binds]

/-- Where the names of a declaration stand among the nodes that it binds. -/
theorem getElem?_binds (h : n.IsDeclaring) (hformed : n.Formed) (i : Nat) :
    n.binds[place (n.kind == .constSpec) i]? = n.names[i]? := by
  rcases h with h | h
  · rw [Node.names, if_pos h, h]
    rfl
  · rw [h.binds, h.names]
    exact ((hformed.names h).getElem?_place i).1

theorem length_binds (h : n.IsDeclaring) (hformed : n.Formed) (hnames : n.names ≠ []) :
    n.binds.length = place (n.kind == .constSpec) (n.names.length - 1) + 1 := by
  rcases h with h | h
  · have := List.length_pos_of_ne_nil hnames
    rw [Node.names, if_pos h] at this ⊢
    rw [h]
    exact (Nat.sub_add_cancel this).symm
  · rw [h.binds, h.names]
    exact ((hformed.names h).getElem?_place 0).2

end

end Node

/-! ## Values of a package -/

section
variable {p : Program} {f : SourceFile} {decl spec x : Node} {i : Nat}

/-- The value of the package that a specification declares by the i-th of its names. -/
def ValueDecl.ofName (f : SourceFile) (decl spec : Node) (i : Nat) : ValueDecl :=
  ⟨f, spec, Node.place (spec.kind == .constSpec) i, decl.kind == .constDeclaration⟩

theorem Declaration.isSpec_of_mem (h : spec ∈ valueSpecs decl) : spec.IsSpec := by
  obtain ⟨c, _, hspec⟩ := List.mem_flatMap.1 h
  split at hspec
  · next hc =>
    obtain rfl := List.mem_singleton.1 hspec
    simpa [Node.IsSpec] using hc
  · split at hspec
    · simpa [Node.IsSpec] using (List.mem_filter.1 hspec).2
    · exact absurd hspec List.not_mem_nil

theorem Declaration.mem_all_of_mem_valueSpecs (h : spec ∈ valueSpecs decl) : spec ∈ decl.all := by
  obtain ⟨c, hc, hspec⟩ := List.mem_flatMap.1 h
  split at hspec
  · exact List.mem_singleton.1 hspec ▸ Node.mem_all_of_mem_named hc
  · split at hspec
    · exact Node.mem_all_trans (Node.mem_all_of_mem_named (List.mem_filter.1 hspec).1)
        (Node.mem_all_of_mem_named hc)
    · exact absurd hspec List.not_mem_nil

theorem ValueDecl.value?_ofName (hspec : spec.IsSpec) :
    (ofName f decl spec i).value? = spec.values[Node.place (spec.kind == .constSpec) i]? := by
  rw [value?, ofName, Node.values, hspec.entered]
  cases spec.field? .value <;> rfl

/-- The index lists the value under its name. -/
theorem ValueDecl.mem_ofName (hf : f ∈ p.files) (hdecl : decl ∈ f.tree.named)
    (hkind : decl.kind = .varDeclaration ∨ decl.kind = .constDeclaration)
    (hspec : spec ∈ Declaration.valueSpecs decl) (hformed : spec.Formed)
    (hx : spec.names[i]? = some x) :
    ofName f decl spec i ∈ (Index.build p).values.getD (f.package, x.text) [] := by
  have his := Declaration.isSpec_of_mem hspec
  rw [(Index.lists_build p _).values, List.mem_filterMap]
  refine ⟨.value x.text (ofName f decl spec i), ?_, by simp [Declaration.valueOf?, ofName]⟩
  refine List.mem_flatMap.2 ⟨f, hf, List.mem_flatMap.2 ⟨decl, hdecl, ?_⟩⟩
  have hmade : Declaration.ofNode f decl = (Declaration.valueSpecs decl).flatMap fun spec =>
      (spec.fields .name).mapIdx fun i m =>
        Declaration.value m.text ⟨f, spec, i, decl.kind == .constDeclaration⟩ := by
    rcases hkind with hkind | hkind <;> simp only [Declaration.ofNode, hkind]
  rw [hmade]
  refine List.mem_flatMap.2 ⟨spec, hspec, List.mem_mapIdx.2 ?_⟩
  rw [← Node.getElem?_binds (.inr his) hformed, his.binds] at hx
  obtain ⟨hi, hx⟩ := List.getElem?_eq_some_iff.1 hx
  exact ⟨_, hi, by rw [hx]; rfl⟩

theorem Index.value?_of_only {ix : Index} {here : SourceFile} {package name : String} {d : ValueDecl}
    (hd : d ∈ ix.values.getD (package, name) []) (hnear : sameDir here d.file = true)
    (honly : ∀ d' ∈ ix.values.getD (package, name) [], sameDir here d'.file = true → d' = d) :
    ix.value? here package name = some d := by
  obtain ⟨d', hd'⟩ := Option.isSome_iff_exists.1 (List.find?_isSome
    (p := fun d : ValueDecl => sameDir here d.file).2 ⟨d, hd, hnear⟩)
  obtain rfl := honly d' (List.mem_of_find?_eq_some hd') (by simpa using List.find?_some hd')
  rw [value?, pick, hd', Option.some_or]

end

namespace Typer

section
variable {t : Typer} {u v : Node} {f : SourceFile} {d : ValueDecl}

theorem fold_of_literal (hu : u.kind = .identifier) (hlocal : t.isLocal u = false)
    (hd : t.index.value? t.file t.file.package u.text = some d) (hconst : d.isConst = true)
    (hv : d.value? = some v)
    (hliteral : v.kind = .interpretedStringLiteral ∨ v.kind = .rawStringLiteral) :
    t.fold u = .text ((Literal.value? v.text).getD v.text) := by
  have hconstant : t.constant? t.file.package u.text = some (d.file, v) := by
    simp [constant?, hd, hconst, hv]
  have hvalue (k : Nat) (t : Typer) :
      foldWithin (k + 1) t v = .text ((Literal.value? v.text).getD v.text) := by
    rcases hliteral with h | h <;> simp only [foldWithin, h]
  rw [fold, maxFoldDepth, foldWithin, hu]
  simp only [hlocal, hconstant, hvalue]
  rfl

end
end Typer

/-! ## Local names -/

namespace Typer

/-- The types that a declaration gives the nodes that it binds, once its values are collected
from. -/
def boundTypes (t : Typer) (n : Node) : List Ty :=
  match n.givenType? with
  | some ty => n.binds.map fun _ => Ty.ofNode t.file ty
  | none => t.assignedTypes n.values n.binds.length

section
variable {n part x : Node} {t : Typer} {scope : Extent} {visibleFrom : Nat} {names : List Node}
  {types : List Ty}

theorem locals_bindAll : (t.bindAll scope visibleFrom names types).locals = t.locals ++
    ((names.zip types).filter (·.1.text != "_")).map fun (x, ty) =>
      ⟨x.text, ty, scope, x.start, visibleFrom⟩ := by
  induction names generalizing t types with
  | nil => simp [bindAll]
  | cons x names ih =>
    cases types with
    | nil => simp [bindAll]
    | cons ty types =>
      rw [bindAll, ih, List.zip_cons_cons, List.filter_cons]
      by_cases hblank : x.text = "_"
      · simp [bind, hblank]
      · simp [bind, hblank, List.append_assoc]

theorem bindValues_spec (h : n.IsSpec) :
    t.bindValues scope n (n.fields .name) ((n.field? .type).map (Ty.ofNode t.file)) n.values =
      t.bindAll scope n.stop n.binds (t.boundTypes n) := by
  have hgiven : n.givenType? = n.field? .type := by
    rw [Node.givenType?, if_neg (by rcases h with h | h <;> simp [h])]
  rw [boundTypes, hgiven, h.binds]
  cases n.field? .type <;> rfl

/-- A declaration records its names once its values are collected from. -/
theorem collect_declaring (h : n.IsDeclaring) (hpart : n.entered = some part) :
    t.collect scope n = (t.collectEntered scope n).bindAll scope n.stop n.binds
      ((t.collectEntered scope n).boundTypes n) := by
  rw [collectEntered_eq hpart]
  have hvalues : n.values = part.expressions := by rw [Node.values, hpart]; rfl
  rcases h with hkind | hspec
  · have hright : (if (n.field? .left).isNone then none else n.field? .right) = some part := by
      simpa [Node.entered, hkind, Kind.entered?] using hpart
    have hbinds : n.binds = ((n.field? .left).map Node.expressions).getD [] := by
      simp [Node.binds, hkind, hpart]
    have hgiven : n.givenType? = none := by rw [Node.givenType?, if_pos hkind]
    rw [collect, boundTypes, hvalues]
    simp only [hkind, hgiven, hbinds]
    split
    · next left right hl hr =>
      rw [hl] at hright ⊢
      obtain rfl : right = part := Option.some.inj (hr.symm.trans hright)
      rfl
    · next hno =>
      cases hl : n.field? .left with
      | none => simp [hl] at hright
      | some left =>
        rw [hl] at hright
        exact absurd hright (hno left part hl)
  · have hright : n.field? .value = some part := hspec.entered.symm.trans hpart
    have hsome {v : Node} (hv : n.field? .value = some v) : v = part :=
      Option.some.inj (hv.symm.trans hright)
    rw [← bindValues_spec hspec, hvalues, (sameGround_collect t scope part).2, collect]
    rcases hspec with hkind | hkind <;> simp only [hkind] <;> split
    · next v hv => rw [hsome hv]
    · next hv => exact absurd (hright.symm.trans hv) (Option.some_ne_none part)
    · next v hv => rw [hsome hv]
    · next hv => exact absurd (hright.symm.trans hv) (Option.some_ne_none part)

end
end Typer

namespace Node

section
variable {n part x y : Node} {i j : Nat}

theorem pairwise_binds (hplaced : n.Placed) (h : n.IsDeclaring) :
    n.binds.Pairwise fun x y => x.start < y.start := by
  have hapart (ns : List Node) (lo hi : Nat) (hns : PlacedIn ns lo hi) :
      ns.Pairwise fun x y => x.start < y.start := by
    refine hns.pairwise.imp_of_mem fun {x y} hx _ hle => ?_
    have := (hns.place hx).2.2.nonempty
    omega
  rcases h with hkind | hspec
  · cases hleft : n.field? .left with
    | none => simp [binds, hkind, hleft]
    | some left =>
      have hplaced := (hplaced.child (mem_children_of_field? hleft)).2.2
      have hbinds : n.binds.Sublist left.expressions := by
        simp only [binds, hkind, hleft]
        split
        · exact List.Sublist.refl _
        · exact List.nil_sublist _
      refine (hapart _ left.start left.stop ?_).sublist hbinds
      unfold expressions
      split
      · exact hplaced.named
      · exact ⟨Nat.le_refl _, hplaced, Nat.le_refl _, trivial⟩
  · rw [hspec.binds]
    exact hapart _ _ _ (hplaced.children.sublist List.filter_sublist)

theorem eq_of_start_binds (hplaced : n.Placed) (h : n.IsDeclaring) (hx : n.binds[i]? = some x)
    (hy : n.binds[j]? = some y) (hstart : x.start = y.start) : i = j := by
  have hpairwise := pairwise_binds hplaced h
  obtain ⟨hi, rfl⟩ := List.getElem?_eq_some_iff.1 hx
  obtain ⟨hj, rfl⟩ := List.getElem?_eq_some_iff.1 hy
  rcases Nat.lt_trichotomy i j with hlt | heq | hlt
  · exact absurd hstart (Nat.ne_of_lt (List.pairwise_iff_getElem.1 hpairwise i j hi hj hlt))
  · exact heq
  · exact absurd hstart.symm (Nat.ne_of_lt (List.pairwise_iff_getElem.1 hpairwise j i hj hi hlt))

end
end Node

namespace Stage
open Typer

section
variable {s s' : Stage} {part x : Node} {i : Nat}

theorem Opens.values (h : s.node.IsDeclaring) (hpart : s.node.entered = some part) :
    ∃ s', s.Opens s' ∧ s'.node = part ∧ s.typer.collectEntered s.scope s.node = s'.after ∧
      s'.typer = s.typer ∧ s.node.isNaming part = false := by
  have hkinds : s.node.kind.isFunction = false ∧ s.node.kind.opensScope = false := by
    rcases h with hkind | hkind | hkind <;> rw [hkind] <;> exact ⟨rfl, rfl⟩
  have hopened : s.opened = s.typer := by simp [opened, hkinds.1]
  have hinner : s.inner = s.scope := by simp [inner, hkinds.2]
  refine ⟨_, .entered hpart, rfl, ?_, hopened, Lexical.isNaming_of_entered hpart⟩
  rw [collectEntered_eq hpart, after, hopened, hinner]

/-- A binding at the end that is of a name of a declaration has the type that the declaration gives
the name. -/
theorem Reaches.boundTypes_of_nameAt (h : s.Reaches s') (hplaced : s.node.Placed)
    (hempty : s.typer.locals = []) (hdeclaring : s'.node.IsDeclaring)
    (hpart : s'.node.entered = some part) (hx : s'.node.binds[i]? = some x) {b : Binding}
    (hb : b ∈ s.after.locals) (hat : b.nameAt = x.start) :
    ((s'.typer.collectEntered s'.scope s'.node).boundTypes s'.node)[i]? = some b.ty := by
  have hmem := List.mem_of_getElem? hx
  obtain ⟨s'', hopens, rfl, hcollect, htyper, hnaming⟩ := Opens.values hdeclaring hpart
  have hplaced' := (hplaced.within h.mem_all).2.2
  have hplace := place_of_mem_binds hplaced' hmem
  have hbefore := h.before hplaced (by simp [hempty])
  obtain ⟨later, hlater, hmisses⟩ := h.later hplaced
  obtain ⟨hstart, hstop, hplaced''⟩ := hplaced'.child hopens.mem_children
  obtain ⟨new, hnew, hwithin⟩ := spreads_collect hplaced'' s''.typer s''.scope
  have hapart := apart_of_mem_binds hplaced' hopens.mem_children hnaming hmem
  rw [hlater, after, collect_declaring hdeclaring hpart, locals_bindAll, hcollect, after, hnew,
    htyper] at hb
  simp only [List.mem_append] at hb
  rcases hb with ((hb | hb) | hb) | hb
  · have := hbefore b hb
    omega
  · have := hwithin b hb
    omega
  · -- it is of a name that begins where this one does
    obtain ⟨⟨y, ty⟩, hy, rfl⟩ := List.mem_map.1 hb
    obtain ⟨j, hj⟩ := List.mem_iff_getElem?.1 (List.mem_filter.1 hy).1
    obtain ⟨hbind, hty⟩ := List.getElem?_zip_eq_some.1 hj
    rw [Node.eq_of_start_binds hplaced' hdeclaring hx hbind hat.symm, hcollect, after, htyper]
    exact hty
  · have := hmisses b hb
    rw [Binding.Misses] at this
    omega

end
end Stage

namespace Typer

section
variable {t : Typer} {n v : Node} {i : Nat}

/-- Names that have a value each get the types of their values. -/
theorem boundTypes_of_paired (hgiven : n.givenType? = none)
    (hlength : n.values.length = n.binds.length) (hv : n.values[i]? = some v) :
    (t.boundTypes n)[i]? = some (t.typeOf v) := by
  rw [boundTypes, hgiven]
  simp only [assignedTypes, if_pos hlength, List.getElem?_map, hv, Option.map_some]

/-- Names that have another number of values get no types, unless the first one may give several. -/
theorem boundTypes_of_unpaired (hgiven : n.givenType? = none)
    (hlength : n.values.length ≠ n.binds.length)
    (hfirst : ∀ v ∈ n.values.head?, v.givesSeveral = false) {ty : Ty}
    (hty : (t.boundTypes n)[i]? = some ty) : ty = .unknown := by
  rw [boundTypes, hgiven] at hty
  simp only [assignedTypes, if_neg hlength] at hty
  have hkind {v : Node} (hv : n.values.head?.map Node.unparen = some v) :
      v.kind ≠ .callExpression ∧ v.kind ≠ .typeAssertionExpression ∧ v.kind ≠ .indexExpression := by
    obtain ⟨v, hhead, rfl⟩ := Option.map_eq_some_iff.1 hv
    simpa [Node.givesSeveral] using hfirst v hhead
  rcases List.mem_append.1 (List.mem_of_mem_take (List.mem_of_getElem? hty)) with hmem | hmem
  · exfalso
    split at hmem
    · exact absurd hmem List.not_mem_nil
    · next v hv =>
      obtain ⟨hcall, hassertion, hindex⟩ := hkind hv
      split at hmem <;> contradiction
  · exact List.eq_of_mem_replicate hmem

end
end Typer

namespace Stage
open Typer

section
variable {s s' : Stage} {x v : Node} {i : Nat} {b : Binding}

/-- The binding at the end that is of a name of a declaration, by the type that the name is given or
by the values. -/
theorem Reaches.ty_of_name (h : s.Reaches s') (hplaced : s.node.Placed)
    (hempty : s.typer.locals = []) (hdeclaring : s'.node.IsDeclaring) (hformed : s'.node.Formed)
    (hlength : s'.node.values.length = s'.node.names.length) (hx : s'.node.names[i]? = some x)
    (hv : s'.node.values[i]? = some v) (hb : b ∈ s.after.locals) (hat : b.nameAt = x.start) :
    (∀ ty, s'.node.givenType? = some ty → b.ty = Ty.ofNode s.typer.file ty) ∧
    (s'.node.givenType? = none → s'.node.kind ≠ .constSpec ∨ s'.node.names.length = 1 →
      b.ty = s.after.typeOf v) ∧
    (s'.node.givenType? = none → s'.node.kind = .constSpec → 1 < s'.node.names.length →
      (∀ v ∈ s'.node.values.head?, v.givesSeveral = false) → b.ty = .unknown) := by
  obtain ⟨part, hpart⟩ : ∃ part, s'.node.entered = some part := by
    cases hpart : s'.node.entered with
    | none => simp [Node.values, hpart] at hv
    | some part => exact ⟨part, rfl⟩
  have hi : i < s'.node.names.length := (List.getElem?_eq_some_iff.1 hx).1
  have hbinds := Node.length_binds hdeclaring hformed (List.ne_nil_of_length_pos (by omega))
  rw [← Node.getElem?_binds hdeclaring hformed] at hx
  have hty := h.boundTypes_of_nameAt hplaced hempty hdeclaring hpart hx hb hat
  obtain ⟨s'', hopens, rfl, hcollect, htyper, -⟩ := Opens.values hdeclaring hpart
  have hreaches : s.Reaches s'' := .tail h hopens
  rw [hcollect] at hty
  refine ⟨fun ty hgiven => ?_, fun hgiven hpaired => ?_, fun hgiven hconst hmany hfirst => ?_⟩
  · rw [boundTypes, hgiven, List.getElem?_map, hx] at hty
    have hfile : s''.after.file = s.typer.file :=
      (sameGround_collect ..).2.trans hreaches.sameGround.2
    rw [← hfile]
    exact (Option.some.inj hty).symm
  · -- the values are typed where they are collected from, and keep their types
    have htype : s.after.typeOf v = s''.after.typeOf v := by
      obtain ⟨later, hlater, _⟩ := hreaches.later hplaced
      refine hreaches.typeOf hplaced ?_ (hlater ▸ List.prefix_append ..) (List.prefix_refl _)
      refine Node.mem_all_of_mem_expressions (List.mem_of_getElem? (i := i) ?_)
      rwa [Node.values, hpart] at hv
    have hplace : Node.place (s'.node.kind == .constSpec) i = i ∧
        s'.node.values.length = s'.node.binds.length := by
      rw [hbinds, hlength]
      rcases hpaired with hkind | hone
      · rw [beq_eq_false_iff_ne.2 hkind]
        exact ⟨rfl, by show _ = _ - 1 + 1; omega⟩
      · obtain rfl : i = 0 := by omega
        rw [hone]
        cases s'.node.kind == .constSpec <;> exact ⟨rfl, rfl⟩
    rw [hplace.1, boundTypes_of_paired hgiven hplace.2 hv] at hty
    rw [htype]
    exact (Option.some.inj hty).symm
  · -- the commas between the names make more nodes than there are values
    refine boundTypes_of_unpaired hgiven ?_ hfirst hty
    rw [hbinds, hlength, hconst]
    show _ ≠ 2 * _ + 1
    omega

end
end Stage

/-- No other value under this name is declared in the directory of `here`. -/
def Index.HasOnly (ix : Index) (here : SourceFile) (package name : String) (d : ValueDecl) : Prop :=
  sameDir here d.file = true ∧
    ∀ d' ∈ ix.values.getD (package, name) [], sameDir here d'.file = true → d' = d

/-- Each name of a specification of variables is paired with its own value, and each name of a
specification of constants with the value of twice its number. The first is so in the index of a
program and for the types of local names, and a constant is folded to the literal that it is paired
with. Local constants that are several have no types. -/
theorem specification_pairs {p : Program} {f : SourceFile} (hp : p.Parsed) (hf : f ∈ p.files) :
    (∀ decl ∈ f.tree.named, decl.kind = .varDeclaration ∨ decl.kind = .constDeclaration →
      ∀ spec ∈ Declaration.valueSpecs decl, ∀ (i : Nat) (x : Node), spec.names[i]? = some x →
        let ix := Index.build p
        let d := ValueDecl.ofName f decl spec i
        d ∈ ix.values.getD (f.package, x.text) [] ∧
        (spec.kind = .varSpec ∨ i = 0 → d.value? = spec.values[i]?) ∧
        (spec.kind = .constSpec → d.value? = spec.values[2 * i]?) ∧
        ∀ here, ix.HasOnly here f.package x.text d →
          ix.value? here f.package x.text = some d ∧
          ∀ (t : Typer) (u v : Node), t.index = ix → t.file = here → here.package = f.package →
            u.kind = .identifier → u.text = x.text → t.isLocal u = false →
            decl.kind = .constDeclaration → d.value? = some v →
            v.kind = .interpretedStringLiteral ∨ v.kind = .rawStringLiteral →
            t.fold u = .text ((Literal.value? v.text).getD v.text)) ∧
    ∀ n func, f.outermostFunction? n = some func →
      let finished := Typer.enclosing (.build p) f n
      ∀ m ∈ func.descendants, ¬ func.SetsAside m → m.IsDeclaring →
        m.values.length = m.names.length →
        ∀ (i : Nat) (x v : Node), m.names[i]? = some x → m.values[i]? = some v →
          ∀ u : Node, u.kind = .identifier → (finished.local? u).map (·.nameAt) = some x.start →
            (∀ ty, m.givenType? = some ty → finished.typeOf u = Ty.ofNode f ty) ∧
            (m.givenType? = none → m.kind ≠ .constSpec ∨ m.names.length = 1 →
              finished.typeOf u = finished.typeOf v) ∧
            (m.givenType? = none → m.kind = .constSpec → 1 < m.names.length →
              (∀ v ∈ m.values.head?, v.givesSeveral = false) → finished.typeOf u = .unknown) := by
  have htree := hp.trees f hf
  constructor
  · intro decl hdecl hkind spec hspec i x hx ix d
    have his := Declaration.isSpec_of_mem hspec
    have hvalue : d.value? = spec.values[Node.place (spec.kind == .constSpec) i]? :=
      ValueDecl.value?_ofName his
    have hspecIn : spec ∈ f.tree.all :=
      Node.mem_all_trans (Declaration.mem_all_of_mem_valueSpecs hspec)
        (Node.mem_all_of_mem_named hdecl)
    have hd := ValueDecl.mem_ofName hf hdecl hkind hspec (htree.formed spec hspecIn) hx
    refine ⟨hd, ?_, ?_, fun here honly => ?_⟩
    · rintro (hvar | rfl)
      · rw [hvalue, hvar]
        rfl
      · rw [hvalue]
        cases spec.kind == .constSpec <;> rfl
    · intro hconst
      rw [hvalue, hconst]
      rfl
    · have hfound := Index.value?_of_only hd honly.1 honly.2
      refine ⟨hfound, ?_⟩
      rintro t u v hindex rfl hpackage hu htext hlocal hconst hv hliteral
      refine Typer.fold_of_literal hu hlocal ?_ (by simp [d, ValueDecl.ofName, hconst]) hv hliteral
      rw [hindex, hpackage, htext]
      exact hfound
  · intro n func houter finished m hm haside hdeclaring hlength i x v hx hv u hu hlocal
    have hplaced := placed_of_outermostFunction? htree houter
    have hin : m ∈ f.tree.all := Node.mem_all_trans (Node.mem_all_of_mem_walk hm)
      (SourceFile.mem_all_of_outermostFunction? houter)
    have hfinished : finished =
        Stage.after ⟨{ index := .build p, file := f }, func.extent, func⟩ := by
      simp only [finished, Typer.enclosing, houter]
      rfl
    obtain ⟨s, hs, rfl⟩ :=
      (Stage.exists_reaches hplaced { index := .build p, file := f } func.extent hm).resolve_right
        haside
    obtain ⟨b, hb, hat⟩ := Option.map_eq_some_iff.1 hlocal
    have hmem := Typer.mem_of_local? hb
    rw [hfinished] at hmem
    rw [Typer.typeOf_of_local? hu hb, hfinished]
    exact hs.ty_of_name hplaced rfl hdeclaring (htree.formed _ hin) hlength hx hv hmem hat

theorem Index.hasOnly_of_length {p : Program} {f : SourceFile} {name : String} {d : ValueDecl}
    (hlength : (p.declarations.filterMap (Declaration.valueOf? (f.package, name))).length = 1)
    (hd : d ∈ (build p).values.getD (f.package, name) []) (hfile : d.file = f) :
    (build p).HasOnly f f.package name d := by
  obtain ⟨d', hgroup⟩ := List.length_eq_one_iff.1 hlength
  rw [← (lists_build p _).values] at hgroup
  rw [hgroup, List.mem_singleton] at hd
  refine ⟨by rw [hfile]; exact beq_self_eq_true _, fun d'' hd'' _ => ?_⟩
  rw [hgroup, List.mem_singleton] at hd''
  rw [hd'', hd]

/-- Names with values of their own in the package and in a function, some of them constants. -/
def pairing : List String :=
  ["var (host, port = \"h\", 80)", "const root = \"/items\"",
    "const base, list, tail = \"/base\", \"/list\", \"/tail\"",
    "func run() \x7b a, b := \"s\", 1; const c, d = 2, \"t\"; use(b, d, root, list) \x7d"]

/-- A specification at the top of a file: the kind of the declaration and its own, its names, and
its values with their kinds. -/
structure Specified where
  decl : Kind
  spec : Kind
  names : List String
  values : List (Kind × String)
  deriving DecidableEq

def SourceFile.specified (f : SourceFile) : List Specified :=
  f.tree.named.flatMap fun decl => (Declaration.valueSpecs decl).map fun spec =>
    ⟨decl.kind, spec.kind, spec.names.map Node.text, spec.values.map fun v => (v.kind, v.text)⟩

/-- A declaration in a function: whether it declares constants, its names, the types of its values,
and whether it may be set aside. -/
structure Pairing where
  const : Bool
  names : List (String × Nat)
  types : List Ty
  aside : Bool
  deriving DecidableEq

/-- The short declarations and the specifications of constants in a function. -/
def SourceFile.paired (f : SourceFile) (func : Node) : List Pairing :=
  (func.descendants.filter fun m => m.kind == .shortVarDeclaration || m.kind == .constSpec).map
    fun m => ⟨m.kind == .constSpec, m.names.map fun x => (x.text, x.start),
      m.values.map (Typer.enclosing (.build ⟨[f]⟩) f func).typeOf, func.holdsApart m⟩

/-- Of every argument of a call in a function that is an identifier: its name, and the place of the
name that it refers to with the type that this has. -/
def SourceFile.passed (f : SourceFile) (func : Node) : List (String × Option (Nat × Ty)) :=
  let t := Typer.enclosing (.build ⟨[f]⟩) f func
  (func.descendants.flatMap Node.callArguments).filterMap fun u =>
    if u.kind = .identifier then some (u.text, (t.local? u).map fun b => (b.nameAt, b.ty)) else none

theorem specified_pairing :
    let f := SourceFile.sample pairing
    f.specified =
      [⟨.varDeclaration, .varSpec, ["host", "port"],
          [(.interpretedStringLiteral, "\"h\""), (.intLiteral, "80")]⟩,
        ⟨.constDeclaration, .constSpec, ["root"], [(.interpretedStringLiteral, "\"/items\"")]⟩,
        ⟨.constDeclaration, .constSpec, ["base", "list", "tail"],
          [(.interpretedStringLiteral, "\"/base\""), (.interpretedStringLiteral, "\"/list\""),
            (.interpretedStringLiteral, "\"/tail\"")]⟩] ∧
      ∀ name ∈ ["root", "list"], ((Program.mk [f]).declarations.filterMap
        (Declaration.valueOf? (f.package, name))).length = 1 := by
  simp only [pairing, SourceFile.sample_eq, SourceFile.chars, String.reduceToList]
  constructor <;> decide +kernel

theorem passed_pairing :
    let f := SourceFile.sample pairing
    f.functions.map f.paired = [[⟨false, [("a", 160), ("b", 163)], [.string, .int], false⟩,
        ⟨true, [("c", 182), ("d", 185)], [.int, .string], false⟩]] ∧
      f.functions.map f.passed = [[("b", some (163, .int)), ("d", some (185, .unknown)),
        ("root", none), ("list", none)]] := by
  simp only [pairing, SourceFile.sample_eq, SourceFile.chars, String.reduceToList]
  constructor <;> decide +kernel

theorem exists_of_mem_specified {f : SourceFile} {r : Specified} (h : r ∈ f.specified) :
    ∃ decl ∈ f.tree.named, ∃ spec ∈ Declaration.valueSpecs decl, decl.kind = r.decl ∧
      spec.kind = r.spec ∧ spec.names.map Node.text = r.names ∧
      spec.values.map (fun v => (v.kind, v.text)) = r.values := by
  obtain ⟨decl, hdecl, h⟩ := List.mem_flatMap.1 h
  obtain ⟨spec, hspec, rfl⟩ := List.mem_map.1 h
  exact ⟨decl, hdecl, spec, hspec, rfl, rfl, rfl, rfl⟩

theorem exists_of_mem_paired {f : SourceFile} {func : Node} {r : Pairing} (h : r ∈ f.paired func)
    (haside : r.aside = false) :
    ∃ m ∈ func.descendants, ¬ func.SetsAside m ∧ m.IsDeclaring ∧
      m.kind = (if r.const then .constSpec else .shortVarDeclaration) ∧
      m.names.map (fun x => (x.text, x.start)) = r.names ∧
      m.values.map (Typer.enclosing (.build ⟨[f]⟩) f func).typeOf = r.types := by
  obtain ⟨m, hm, rfl⟩ := List.mem_map.1 h
  obtain ⟨hm, hkind⟩ := List.mem_filter.1 hm
  refine ⟨m, hm, fun hsets => ?_, ?_, ?_, rfl, rfl⟩
  · exact absurd (Node.holdsApart_of_setsAside hsets) (by simpa using haside)
  · rcases Bool.or_eq_true_iff.1 hkind with h | h
    · exact .inl (by simpa using h)
    · exact .inr (.inr (by simpa using h))
  · rcases Bool.or_eq_true_iff.1 hkind with h | h <;> simp [eq_of_beq h]

theorem exists_of_mem_passed {f : SourceFile} {func : Node} {name : String}
    {b? : Option (Nat × Ty)} (h : (name, b?) ∈ f.passed func) :
    ∃ u : Node, u.kind = .identifier ∧ u.text = name ∧
      ((Typer.enclosing (.build ⟨[f]⟩) f func).local? u).map (fun b => (b.nameAt, b.ty)) = b? := by
  obtain ⟨u, _, h⟩ := List.mem_filterMap.1 h
  obtain ⟨hkind, h⟩ := Option.ite_none_right_eq_some.1 h
  obtain ⟨htext, hlocal⟩ := Prod.mk.inj (Option.some.inj h)
  exact ⟨u, hkind, htext, hlocal⟩

theorem exists_getElem?_of_map {α β : Type} {g : α → β} {l : List α} {r : List β} {i : Nat} {y : β}
    (h : l.map g = r) (hy : r[i]? = some y) : ∃ x, l[i]? = some x ∧ g x = y := by
  rw [← h, List.getElem?_map] at hy
  exact Option.map_eq_some_iff.1 hy

theorem exists_func_pairing : ∃ func,
    (SourceFile.sample pairing).outermostFunction? func = some func ∧
    (SourceFile.sample pairing).paired func =
      [⟨false, [("a", 160), ("b", 163)], [.string, .int], false⟩,
        ⟨true, [("c", 182), ("d", 185)], [.int, .string], false⟩] ∧
    (SourceFile.sample pairing).passed func =
      [("b", some (163, .int)), ("d", some (185, .unknown)), ("root", none), ("list", none)] := by
  obtain ⟨hpaired, hpassed⟩ := passed_pairing
  obtain ⟨func, hfunc, hpaired⟩ := List.map_eq_singleton_iff.1 hpaired
  rw [hfunc] at hpassed
  have hmem : func ∈ (SourceFile.sample pairing).functions := hfunc ▸ List.mem_singleton_self func
  have htree := (Program.parsed_sample pairing).trees _ (List.mem_singleton_self _)
  exact ⟨func, outermostFunction?_of_mem_functions htree hmem, hpaired, (List.cons.inj hpassed).1⟩

/-- The second variable has the second value, the constant that is alone is folded to its literal,
and the second name of a short declaration has the type of the second value. -/
theorem specification_pairs_pairing : ∃ sources p, Program.ofSources sources = .ok p ∧
    ∃ f ∈ p.files,
      (∃ d ∈ (Index.build p).values.getD (f.package, "port") [],
        d.value?.map Node.text = some "80") ∧
      ∃ func, f.outermostFunction? func = some func ∧
        let t := Typer.enclosing (.build p) f func
        (∃ u, u.kind = .identifier ∧ u.text = "root" ∧ t.fold u = .text "/items") ∧
        ∃ u, u.kind = .identifier ∧ u.text = "b" ∧ t.typeOf u = .int := by
  have hp := Program.ofSources_sample pairing
  have hf : SourceFile.sample pairing ∈ (Program.mk [.sample pairing]).files :=
    List.mem_singleton_self _
  obtain ⟨hpackage, hlocal⟩ := specification_pairs (Program.parsed_ofSources hp) hf
  obtain ⟨hspecified, hgroups⟩ := specified_pairing
  obtain ⟨func, houter, hpaired, hpassed⟩ := exists_func_pairing
  refine ⟨_, _, hp, _, hf, ?_, func, houter, ?_, ?_⟩
  · obtain ⟨decl, hdecl, spec, hspec, hkind, hkind', hnames, hvalues⟩ :=
      exists_of_mem_specified (hspecified ▸ List.mem_cons_self)
    obtain ⟨x, hx, hport⟩ := exists_getElem?_of_map (i := 1) hnames rfl
    obtain ⟨v, hv, hvalue⟩ := exists_getElem?_of_map (i := 1) hvalues rfl
    obtain ⟨hd, hpair, _⟩ := hpackage decl hdecl (.inl hkind) spec hspec 1 x hx
    refine ⟨_, hport ▸ hd, ?_⟩
    rw [hpair (.inl hkind'), hv]
    exact congrArg some (Prod.mk.inj hvalue).2
  · obtain ⟨decl, hdecl, spec, hspec, hkind, hkind', hnames, hvalues⟩ :=
      exists_of_mem_specified (hspecified ▸ List.mem_cons_of_mem _ List.mem_cons_self)
    obtain ⟨x, hx, hroot⟩ := exists_getElem?_of_map (i := 0) hnames rfl
    obtain ⟨v, hv, hvalue⟩ := exists_getElem?_of_map (i := 0) hvalues rfl
    obtain ⟨hliteral, htext⟩ := Prod.mk.inj hvalue
    obtain ⟨hd, hpair, -, hfound⟩ := hpackage decl hdecl (.inr hkind) spec hspec 0 x hx
    have honly := Index.hasOnly_of_length (hroot ▸ hgroups "root" (by decide)) hd rfl
    have hrow : ("root", none) ∈ (SourceFile.sample pairing).passed func := by
      rw [hpassed]
      decide
    obtain ⟨u, hu, hname, hnone⟩ := exists_of_mem_passed hrow
    refine ⟨u, hu, hname, ?_⟩
    have hfold := (hfound _ honly).2 _ u v (Typer.enclosing_index _ _ func)
      (Typer.enclosing_file _ _ func) rfl hu (hname.trans hroot.symm) ?_ hkind
      ((hpair (.inr rfl)).trans hv) (.inl hliteral)
    · have hcontent : Literal.value? "\"/items\"" = some "/items" := by decide +kernel
      rw [hfold, htext, hcontent]
      rfl
    · rw [Typer.isLocal, Option.map_eq_none_iff.1 hnone]
      rfl
  · obtain ⟨m, hm, haside, hdeclaring, hkind, hnames, htypes⟩ :=
      exists_of_mem_paired (hpaired ▸ List.mem_cons_self) rfl
    obtain ⟨x, hx, hb⟩ := exists_getElem?_of_map (i := 1) hnames rfl
    obtain ⟨v, hv, hint⟩ := exists_getElem?_of_map (i := 1) htypes rfl
    have hrow : ("b", some (163, .int)) ∈ (SourceFile.sample pairing).passed func := by
      rw [hpassed]
      decide
    obtain ⟨u, hu, hname, hbound⟩ := exists_of_mem_passed hrow
    obtain ⟨b, hb', hplace⟩ := Option.map_eq_some_iff.1 hbound
    have hat : b.nameAt = x.start :=
      (Prod.mk.inj hplace).1.trans (Prod.mk.inj hb).2.symm
    have hlength : m.values.length = m.names.length := by
      have hnames := congrArg List.length hnames
      have htypes := congrArg List.length htypes
      rw [List.length_map] at hnames htypes
      exact htypes.trans hnames.symm
    have htype := (hlocal func func houter m hm haside hdeclaring hlength 1 x v hx hv u hu
      (by rw [hb', Option.map_some, hat])).2.1 (if_pos hkind) (.inl (by simp [hkind]))
    exact ⟨u, hu, hname, htype.trans hint⟩

/-- The second of three constants has the third value and is folded to that, and the second of two
in a function has no type. -/
theorem constants_mispaired : ∃ sources p, Program.ofSources sources = .ok p ∧ ∃ f ∈ p.files,
    ∃ func, f.outermostFunction? func = some func ∧
      let t := Typer.enclosing (.build p) f func
      (∃ decl ∈ f.tree.named, ∃ spec ∈ Declaration.valueSpecs decl,
        spec.names.map Node.text = ["base", "list", "tail"] ∧
        spec.values.map Node.text = ["\"/base\"", "\"/list\"", "\"/tail\""] ∧
        (∃ d, (Index.build p).value? f f.package "list" = some d ∧
          d.value?.map Node.text = some "\"/tail\"") ∧
        ∃ u, u.kind = .identifier ∧ u.text = "list" ∧ t.isLocal u = false ∧
          t.fold u = .text "/tail") ∧
      ∃ m ∈ func.descendants, m.kind = .constSpec ∧ m.names.map Node.text = ["c", "d"] ∧
        m.values.map t.typeOf = [.int, .string] ∧
        ∃ x u, m.names[1]? = some x ∧ u.kind = .identifier ∧
          (t.local? u).map (·.nameAt) = some x.start ∧ t.typeOf u = .unknown := by
  have hp := Program.ofSources_sample pairing
  have hf : SourceFile.sample pairing ∈ (Program.mk [.sample pairing]).files :=
    List.mem_singleton_self _
  obtain ⟨hspecified, hgroups⟩ := specified_pairing
  obtain ⟨func, houter, hpaired, hpassed⟩ := exists_func_pairing
  have hrow (r) (h : r ∈ [("d", some (185, Ty.unknown)), ("list", none)]) :
      r ∈ (SourceFile.sample pairing).passed func := by
    rw [hpassed]
    revert h r
    decide
  refine ⟨_, _, hp, _, hf, func, houter, ?_, ?_⟩
  · obtain ⟨decl, hdecl, spec, hspec, hkind, hkind', hnames, hvalues⟩ := exists_of_mem_specified
      (hspecified ▸ List.mem_cons_of_mem _ (List.mem_cons_of_mem _ List.mem_cons_self))
    obtain ⟨x, hx, hlist⟩ := exists_getElem?_of_map (i := 1) hnames rfl
    obtain ⟨v, hv, hvalue⟩ := exists_getElem?_of_map (i := 2) hvalues rfl
    obtain ⟨hliteral, htail⟩ := Prod.mk.inj hvalue
    have hin := Node.mem_all_trans (Declaration.mem_all_of_mem_valueSpecs hspec)
      (Node.mem_all_of_mem_named hdecl)
    have hformed := ((Program.parsed_ofSources hp).trees _ hf).formed spec hin
    have hd := ValueDecl.mem_ofName hf hdecl (.inr hkind) hspec hformed hx
    have honly := Index.hasOnly_of_length (hlist ▸ hgroups "list" (by decide)) hd rfl
    have hfound := Index.value?_of_only hd honly.1 honly.2
    rw [hlist] at hfound
    have hpair : (ValueDecl.ofName (.sample pairing) decl spec 1).value? = some v := by
      rw [ValueDecl.value?_ofName (Declaration.isSpec_of_mem hspec), hkind']
      exact hv
    obtain ⟨u, hu, hname, hnone⟩ := exists_of_mem_passed (hrow ("list", none) (by decide))
    have hlocal : (Typer.enclosing (.build ⟨[.sample pairing]⟩) (.sample pairing) func).isLocal u =
        false := by
      rw [Typer.isLocal, Option.map_eq_none_iff.1 hnone]
      rfl
    have hvalues := congrArg (List.map Prod.snd) hvalues
    rw [List.map_map] at hvalues
    refine ⟨decl, hdecl, spec, hspec, hnames, hvalues, ⟨_, hfound, ?_⟩, u, hu, hname, hlocal, ?_⟩
    · rw [hpair, Option.map_some, htail]
    · have hcontent : Literal.value? "\"/tail\"" = some "/tail" := by decide +kernel
      rw [Typer.fold_of_literal hu hlocal _ (by simp [ValueDecl.ofName, hkind]) hpair
        (.inl hliteral), htail, hcontent]
      · rfl
      · rw [Typer.enclosing_index, Typer.enclosing_file, hname]
        exact hfound
  · obtain ⟨m, hm, -, -, hkind, hnames, htypes⟩ := exists_of_mem_paired
      (hpaired ▸ List.mem_cons_of_mem _ List.mem_cons_self) rfl
    obtain ⟨x, hx, hplace⟩ := exists_getElem?_of_map (i := 1) hnames rfl
    obtain ⟨u, hu, _, hbound⟩ := exists_of_mem_passed (hrow ("d", some (185, .unknown)) (by decide))
    obtain ⟨b, hb, hrow⟩ := Option.map_eq_some_iff.1 hbound
    obtain ⟨hat, hty⟩ := Prod.mk.inj hrow
    have hnames := congrArg (List.map Prod.fst) hnames
    rw [List.map_map] at hnames
    refine ⟨m, hm, hkind, hnames, htypes, x, u, hx, hu, ?_, ?_⟩
    · rw [hb, Option.map_some, hat, (Prod.mk.inj hplace).2]
    · rw [Typer.typeOf_of_local? hu hb, hty]

end RouteCheck
