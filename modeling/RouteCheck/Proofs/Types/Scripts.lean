import RouteCheck.Proofs.Program.Scan
import RouteCheck.Proofs.Tree.Paths
import RouteCheck.Proofs.Types.Dependence
import RouteCheck.Proofs.Types.Rendering
import RouteCheck.Proofs.Types.Specifications
import RouteCheck.Proofs.Types.TypeNodes

/-!
Where the names and lengths in the types of a program come from.

A type has names of packages and lengths of arrays in it; all else is words and fixed texts. The
names of packages come from package clauses and imports, the lengths from the nodes of array types.
A `Script` is any property of the two that words have: if the imports and the array types of a
program are written in it, so is every type that is found in the program.

Main statements:
  1. `Ty.spelledIn_ofNode`: the type that a type node is read as.
  2. `Program.spelledIn_index`: what the index of a program finds.
  3. `Typer.SpelledIn.typeOf`: the type of an expression, by way of its parts.
  4. `Typer.spelledIn_enclosing`: a typer with the declarations around a node.
-/

namespace RouteCheck
open Token (IsWord)

/-- What the names of packages and the lengths of arrays are like. -/
structure Script where
  package : String → Prop
  length : String → Prop
  /-- A word can be the name of a package. -/
  word : ∀ {s : String}, IsWord s → package s
  /-- The package of a file without a package clause has the empty name. -/
  empty : package ""

variable {S : Script}

/-- The names and lengths in the type are written in the script. -/
def Ty.SpelledIn (S : Script) : Ty → Prop
  | named none n => isBuiltinName n = true
  | named (some p) n => S.package p ∧ IsWord n
  | pointer t | slice t | chan t => t.SpelledIn S
  | array l t => S.length l ∧ t.SpelledIn S
  | map k v => k.SpelledIn S ∧ v.SpelledIn S
  | _ => True

/-! ## Nodes -/

namespace Node

/-- The lengths of the array types in the node are written in the script. -/
def LengthsIn (S : Script) (n : Node) : Prop :=
  ∀ m ∈ n.all, m.kind = .arrayType → ∀ l ∈ m.field? .length, S.length l.text

/-- The node is part of a source whose array types are written in the script. -/
structure BelowIn (S : Script) (n : Node) : Prop where
  below : n.Below
  lengths : n.LengthsIn S

/-- So is the node, if it is a name itself. -/
structure SpelledIn (S : Script) (n : Node) : Prop where
  spelled : n.Spelled
  lengths : n.LengthsIn S

section
variable {m c n : Node} {f : Field}

theorem LengthsIn.mem_all (h : n.LengthsIn S) (hm : m ∈ n.all) : m.LengthsIn S :=
  fun c hc => h c (mem_all_trans hc hm)

theorem SpelledIn.belowIn (h : n.SpelledIn S) : n.BelowIn S := ⟨h.spelled.below, h.lengths⟩

theorem BelowIn.mem_all (h : n.BelowIn S) (hm : m ∈ n.all) : m.BelowIn S :=
  ⟨h.below.mem_all hm, h.lengths.mem_all hm⟩

theorem BelowIn.field? (h : n.BelowIn S) (hc : n.field? f = some c) (hf : f ≠ .name) :
    c.SpelledIn S :=
  ⟨h.below.field? hc hf, h.lengths.mem_all (mem_all_of_field? hc)⟩

theorem BelowIn.named (h : n.BelowIn S) (hk : n.kind.isLax = false) (hc : c ∈ n.named) :
    c.SpelledIn S :=
  ⟨h.below.named hk hc, h.lengths.mem_all (mem_all_of_mem_named hc)⟩

theorem BelowIn.length (h : n.BelowIn S) (hk : n.kind = .arrayType)
    (hc : n.field? .length = some c) : S.length c.text :=
  h.lengths n (self_mem_all n) hk c hc

theorem BelowIn.callArguments (h : n.BelowIn S) (hk : n.kind = .callExpression)
    (hc : c ∈ n.callArguments) : c.SpelledIn S :=
  ⟨h.below.callArguments hk hc, h.lengths.mem_all (mem_all_of_mem_callArguments hc)⟩

theorem SpelledIn.expressions (h : n.SpelledIn S) (hc : c ∈ n.expressions) : c.SpelledIn S :=
  ⟨h.spelled.expressions hc, h.lengths.mem_all (mem_all_of_mem_expressions hc)⟩

theorem SpelledIn.unparen (h : n.SpelledIn S) : n.unparen.SpelledIn S :=
  ⟨h.spelled.unparen, h.lengths.mem_all (unparen_mem_all n)⟩

end
end Node

/-! ## Files, indices and typers -/

/-- The tree is that of a source, and it is written in the script with the packages. -/
structure SourceFile.SpelledIn (S : Script) (f : SourceFile) : Prop where
  package : S.package f.package
  imports : ∀ i ∈ f.imports, S.package i.2
  tree : f.tree.BelowIn S

/-- So is every file that the index finds something in. -/
structure Index.SpelledIn (S : Script) (ix : Index) : Prop where
  function : ∀ {here package name d}, ix.function? here package name = some d →
    d.file.SpelledIn S ∧ d.node.BelowIn S
  method : ∀ {here package receiver name d}, ix.method? here package receiver name = some d →
    d.file.SpelledIn S ∧ d.node.BelowIn S
  type : ∀ {here package name d}, ix.type? here package name = some d →
    d.file.SpelledIn S ∧ d.node.BelowIn S
  value : ∀ {here package name d}, ix.value? here package name = some d →
    d.file.SpelledIn S ∧ d.spec.BelowIn S

/-- So is the file of the typer, and so are the types of the local declarations. -/
structure Typer.SpelledIn (S : Script) (t : Typer) : Prop where
  index : t.index.SpelledIn S
  file : t.file.SpelledIn S
  locals : ∀ b ∈ t.locals, b.ty.SpelledIn S

/-! ## Reading a type -/

namespace Ty

variable {file : SourceFile} {n : Node} {p name : String} {o : Option Ty} {t : Ty}

theorem spelledIn_builtin (h : isBuiltinName name = true) : (builtin name).SpelledIn S := by
  unfold builtin
  split
  · exact (by decide : isBuiltinName "uint8" = true)
  · split
    · exact (by decide : isBuiltinName "int32" = true)
    · split
      · trivial
      · exact h

theorem spelledIn_string : string.SpelledIn S := (by decide : isBuiltinName "string" = true)

theorem spelledIn_int : int.SpelledIn S := (by decide : isBuiltinName "int" = true)

theorem spelledIn_bool : bool.SpelledIn S := (by decide : isBuiltinName "bool" = true)

theorem spelledIn_declared (hp : S.package p) (hname : IsWord name) :
    (declared p name).SpelledIn S :=
  ⟨hp, hname⟩

theorem spelledIn_ofName (hf : file.SpelledIn S) (hname : IsWord name) :
    (ofName file name).SpelledIn S := by
  unfold ofName
  split
  · next h => exact spelledIn_builtin h
  · exact spelledIn_declared hf.package hname

theorem spelledIn_none : ∀ t ∈ (none : Option Ty), t.SpelledIn S := nofun

theorem spelledIn_elim {g : Ty → Ty} (ho : ∀ t ∈ o, t.SpelledIn S)
    (hg : ∀ t, t.SpelledIn S → (g t).SpelledIn S) : (o.elim unknown g).SpelledIn S := by
  cases o with
  | none => trivial
  | some t => exact hg t (ho t rfl)

theorem spelledIn_getD (ho : ∀ t ∈ o, t.SpelledIn S) : (o.getD unknown).SpelledIn S := by
  cases o with
  | none => trivial
  | some t => exact ho t rfl

theorem spelledIn_of_mem_getD {o : Option (List Ty)} {others : List Ty}
    (ho : ∀ types, o = some types → ∀ t ∈ types, t.SpelledIn S) (h : ∀ t ∈ others, t.SpelledIn S) :
    ∀ t ∈ o.getD others, t.SpelledIn S := by
  cases o with
  | none => exact h
  | some types => exact ho types rfl

theorem SpelledIn.elem (h : t.SpelledIn S) : t.elem.SpelledIn S := by
  cases t with
  | pointer t => exact h
  | _ => exact h

theorem SpelledIn.ptrOrNil (h : t.SpelledIn S) : t.ptrOrNil.SpelledIn S := by
  cases t with
  | untypedNil => trivial
  | _ => exact h

end Ty

theorem SourceFile.SpelledIn.import? {f : SourceFile} {p name : String} (hf : f.SpelledIn S)
    (h : f.import? name = some p) : S.package p := by
  obtain ⟨l₁, l₂, heq, -⟩ := List.lookup_eq_some_iff.1 h
  exact hf.imports (name, p) (by rw [heq]; simp)

namespace Ty

variable {file : SourceFile}

/-- The type that a type node is read as, by the kind of the node. -/
theorem spelledIn_ofNode (hf : file.SpelledIn S) :
    ∀ {n : Node}, n.SpelledIn S → (ofNode file n).SpelledIn S
  | .mk head cs, hn => by
    have hfirst (hk : head.kind.isLax = false) : ∀ t ∈ ofNode.ofFirst file cs, t.SpelledIn S := by
      intro t ht
      rw [ofFirst_eq] at ht
      obtain ⟨c, hc, rfl⟩ := Option.map_eq_some_iff.1 ht
      have hmem : c ∈ (Node.mk head cs).named := List.mem_of_mem_head? hc
      have := Node.size_lt_of_mem_named hmem
      exact spelledIn_ofNode hf (hn.belowIn.named hk hmem)
    have hfield (f : Field) (hname : f ≠ .name) :
        ∀ t ∈ ofNode.ofField file f cs, t.SpelledIn S := by
      intro t ht
      rw [ofField_eq] at ht
      obtain ⟨c, hc, rfl⟩ := Option.map_eq_some_iff.1 ht
      have hc : (Node.mk head cs).field? f = some c := hc
      have := Node.size_lt_of_field? hc
      exact spelledIn_ofNode hf (hn.belowIn.field? hc hname)
    rw [ofNode]
    split
    case h_1 hk | h_2 hk =>
      refine spelledIn_ofName hf (hn.spelled.isWord ?_)
      show head.kind.isName = true
      rw [hk]
      rfl
    case h_3 hk =>
      split
      · next p m hp hm =>
        have hp := hn.spelled.below.isWord_part (.inl hk) (Node.mem_children_of_field? hp)
        have hm := hn.spelled.below.isWord_part (.inl hk) (Node.mem_children_of_field? hm)
        refine spelledIn_declared ?_ hm
        cases himport : file.import? p.text with
        | none => exact S.word hp
        | some p' => exact hf.import? himport
      · trivial
    case h_4 hk => exact spelledIn_elim (hfirst (by rw [hk]; rfl)) fun _ => id
    case h_5 hk => exact spelledIn_getD (hfirst (by rw [hk]; rfl))
    case h_6 => exact spelledIn_elim (hfield .element (by decide)) fun _ => id
    case h_7 hk =>
      split
      · next l t hl ht => exact ⟨hn.belowIn.length hk hl, hfield .element (by decide) t ht⟩
      · trivial
    case h_8 =>
      split
      · next k v hk hv => exact ⟨hfield .key (by decide) k hk, hfield .value (by decide) v hv⟩
      · trivial
    case h_9 => exact spelledIn_elim (hfield .value (by decide)) fun _ => id
    case h_10 => exact spelledIn_getD (hfield .type (by decide))
    all_goals trivial
termination_by n => n.size

end Ty

/-! ## Results and fields -/

theorem spelledIn_resultTypes {file : SourceFile} {func : Node} (hf : file.SpelledIn S)
    (hfunc : func.BelowIn S) : ∀ t ∈ resultTypes file func, t.SpelledIn S := by
  intro t ht
  unfold resultTypes at ht
  split at ht
  · exact absurd ht List.not_mem_nil
  · next result hresult =>
    have hresult := hfunc.field? hresult (by decide)
    split at ht
    · rw [List.mem_singleton.1 ht]
      exact Ty.spelledIn_ofNode hf hresult
    · obtain ⟨param, hparam, ht⟩ := List.mem_flatMap.1 ht
      have hparam := hresult.belowIn.mem_all (Node.mem_all_of_mem_named hparam)
      split at ht
      · exact absurd ht List.not_mem_nil
      · next ty hty =>
        rw [(List.mem_replicate.1 ht).2]
        exact Ty.spelledIn_ofNode hf (hparam.field? hty (by decide))

theorem spelledIn_scanFields {file : SourceFile} {field : String} (hf : file.SpelledIn S)
    {ds : List Node} (hds : ∀ d ∈ ds, d.BelowIn S) :
    (∀ t ∈ (scanFields file field ds).1, t.SpelledIn S) ∧
      ∀ t ∈ (scanFields file field ds).2, t.SpelledIn S := by
  fun_induction scanFields file field ds with
  | case1 => exact ⟨nofun, nofun⟩
  | case2 d ds ty hty hkind names hempty found embedded hscan ih =>
    obtain ⟨hd, hds⟩ := List.forall_mem_cons.1 hds
    have hty := Ty.spelledIn_ofNode hf (hd.field? hty (by decide))
    rw [hscan] at ih
    exact ⟨(ih hds).1, List.forall_mem_cons.2 ⟨hty, (ih hds).2⟩⟩
  | case3 d ds ty hty hkind names hempty hname =>
    have hty := Ty.spelledIn_ofNode hf ((hds d List.mem_cons_self).field? hty (by decide))
    exact ⟨fun t ht => Option.mem_some.1 ht ▸ hty, nofun⟩
  | case4 d ds ty hty hkind names hempty hname ih =>
    exact ih (List.forall_mem_cons.1 hds).2
  | case5 d ds hother ih => exact ih (List.forall_mem_cons.1 hds).2

namespace Index.SpelledIn

variable {ix : Index} {here : SourceFile} {owner t : Ty} {decl : Decl} {ty : Node} {field : String}

theorem definition? (hix : ix.SpelledIn S) (h : ix.definition? here owner = some (decl, ty)) :
    decl.file.SpelledIn S ∧ ty.SpelledIn S := by
  unfold Index.definition? at h
  split at h
  · obtain ⟨d, hd, h⟩ := Option.bind_eq_some_iff.1 h
    obtain ⟨n, hn, h⟩ := Option.bind_eq_some_iff.1 h
    obtain ⟨rfl, rfl⟩ := Prod.mk.inj (Option.some.inj h)
    obtain ⟨hfile, hnode⟩ := hix.type hd
    exact ⟨hfile, hnode.field? hn (by decide)⟩
  · exact nomatch h

theorem fieldTypeWithin (hix : ix.SpelledIn S) {depth : Nat}
    (h : fieldTypeWithin ix depth here owner field = some t) : t.SpelledIn S := by
  fun_induction RouteCheck.fieldTypeWithin ix depth here owner field with
  | case1 | case2 | case4 | case5 | case7 => exact nomatch h
  | case3 here owner decl ty hdecl hkind d p n hnamed ih => exact ih h
  | case6 depth here owner decl ty hdecl hkind list hlist t' embedded hscan =>
    obtain ⟨hfile, hty⟩ := hix.definition? hdecl
    have hlist := hty.belowIn.mem_all (Node.mem_all_of_mem_named (List.mem_of_find?_eq_some hlist))
    have hfound : ∀ t ∈ (scanFields decl.file field list.named).1, t.SpelledIn S :=
      (spelledIn_scanFields hfile fun d hd => hlist.mem_all (Node.mem_all_of_mem_named hd)).1
    rw [hscan] at hfound
    exact hfound t h
  | case8 here owner decl ty hdecl hkind list hlist embedded hscan d ih =>
    obtain ⟨e, he, h⟩ := List.exists_of_findSome?_eq_some h
    exact ih e h

theorem fieldType? (hix : ix.SpelledIn S) :
    ∀ t ∈ RouteCheck.fieldType? ix here owner field, t.SpelledIn S :=
  fun _ h => hix.fieldTypeWithin h

end Index.SpelledIn

/-! ## Types of expressions -/

namespace Typer

theorem spelledIn_libraryResult? {pkg name : String} :
    ∀ t ∈ libraryResult? pkg name, t.SpelledIn S := by
  intro t ht
  unfold libraryResult? at ht
  dsimp only at ht
  split at ht
  · exact Option.mem_some.1 ht ▸ Ty.spelledIn_string
  · split at ht
    · exact Option.mem_some.1 ht ▸ Ty.spelledIn_builtin (by decide)
    · exact nomatch ht

section
variable {x : Ty}

theorem spelledIn_elementType (hx : x.SpelledIn S) : (elementType x).SpelledIn S := by
  unfold elementType
  split
  · exact hx
  · exact hx.2
  · exact hx.2
  · exact hx.2
  · split
    · exact Ty.spelledIn_builtin (by decide)
    · trivial

theorem spelledIn_slicedType (hx : x.SpelledIn S) : (slicedType x).SpelledIn S := by
  unfold slicedType
  split
  · exact hx.2
  · exact hx

theorem spelledIn_unaryType {op : String} (hx : x.SpelledIn S) : (unaryType op x).SpelledIn S := by
  unfold unaryType
  split
  case h_1 | h_2 | h_4 | h_7 => exact hx
  case h_6 => exact Ty.spelledIn_bool
  all_goals trivial

theorem spelledIn_rangeTypes (hx : x.SpelledIn S) : ∀ t ∈ rangeTypes x, t.SpelledIn S := by
  have hx := hx.elem
  unfold rangeTypes
  split
  · next h => rw [h] at hx; simpa using ⟨Ty.spelledIn_int, hx⟩
  · next h => rw [h] at hx; simpa using ⟨Ty.spelledIn_int, hx.2⟩
  · next h => rw [h] at hx; simpa using And.intro hx.1 hx.2
  · next h => rw [h] at hx; simpa using ⟨hx, trivial⟩
  · split
    · simpa using ⟨Ty.spelledIn_int, Ty.spelledIn_builtin (by decide)⟩
    · simp [Ty.SpelledIn]

end

namespace SpelledIn

section
variable {t : Typer} {n call : Node} {pkg name : String} {value : Typer → String → String → Ty}

theorem import? (ht : t.SpelledIn S) (h : t.import? n = some pkg) : S.package pkg := by
  unfold Typer.import? at h
  split at h
  · exact ht.file.import? h
  · exact nomatch h

theorem declaredCall? (ht : t.SpelledIn S) (hpkg : S.package pkg) (hname : IsWord name)
    {types : List Ty} (h : t.declaredCall? pkg name = some types) :
    ∀ ty ∈ types, ty.SpelledIn S := by
  unfold Typer.declaredCall? at h
  split at h
  · obtain rfl := Option.some.inj h
    simpa using Ty.spelledIn_declared hpkg hname
  · obtain ⟨d, hd, rfl⟩ := Option.map_eq_some_iff.1 h
    obtain ⟨hfile, hnode⟩ := ht.index.function hd
    exact spelledIn_resultTypes hfile hnode

theorem methodCall (ht : t.SpelledIn S) {recv : Ty} :
    ∀ ty ∈ t.methodCall recv name, ty.SpelledIn S := by
  unfold Typer.methodCall
  dsimp only
  split
  · next d hd =>
    have hd : d.file.SpelledIn S ∧ d.node.BelowIn S := by
      split at hd
      · exact ht.index.method hd
      · exact nomatch hd
    exact spelledIn_resultTypes hd.1 hd.2
  · split
    · simpa using Ty.spelledIn_string
    · exact nofun

theorem builtinCall? (ht : t.SpelledIn S) {args : List Node} (hargs : ∀ a ∈ args, a.SpelledIn S)
    {first : Unit → Option Ty} (hfirst : ∀ ty ∈ first (), ty.SpelledIn S) {types : List Ty}
    (h : t.builtinCall? name args first = some types) : ∀ ty ∈ types, ty.SpelledIn S := by
  have hhead (a : Node) (ha : args.head? = some a) : (Ty.ofNode t.file a).SpelledIn S :=
    Ty.spelledIn_ofNode ht.file (hargs a (List.mem_of_mem_head? ha))
  unfold Typer.builtinCall? at h
  split at h
  · obtain rfl := Option.some.inj h
    intro ty hty
    obtain ⟨a, ha, rfl⟩ := Option.map_eq_some_iff.1 (Option.mem_toList.1 hty)
    exact hhead a ha
  · split at h
    · obtain rfl := Option.some.inj h
      intro ty hty
      obtain ⟨a, ha, rfl⟩ := Option.map_eq_some_iff.1 (Option.mem_toList.1 hty)
      exact hhead a ha
    · split at h
      · obtain rfl := Option.some.inj h
        simpa using Ty.spelledIn_int
      · split at h
        · obtain rfl := Option.some.inj h
          exact fun ty hty => hfirst ty (Option.mem_toList.1 hty)
        · split at h
          · next hname =>
            obtain rfl := Option.some.inj h
            simpa using Ty.spelledIn_builtin hname
          · exact nomatch h

theorem typeDenoted? (ht : t.SpelledIn S) {sure : Bool} {n : Node} (hn : n.SpelledIn S) :
    ∀ ty ∈ t.typeDenoted? sure n, ty.SpelledIn S := by
  have hm := hn.unparen
  intro ty hty
  rw [Typer.typeDenoted?.eq_def] at hty
  split at hty
  case h_12 =>
    split at hty
    · split at hty
      · next x hx =>
        have := Node.size_lt_of_field? hx
        have := Node.size_unparen_le n
        obtain ⟨e, he, rfl⟩ := Option.map_eq_some_iff.1 hty
        exact ht.typeDenoted? (hm.belowIn.field? hx (by decide)) e he
      · exact absurd hty (Option.not_mem_none _)
    · exact absurd hty (Option.not_mem_none _)
  case h_13 hk =>
    have hword := hm.spelled.isWord (by rw [hk]; rfl)
    dsimp only at hty
    split at hty
    · exact Option.mem_some.1 hty ▸ Ty.spelledIn_ofName ht.file hword
    · split at hty
      · exact absurd hty (Option.not_mem_none _)
      · split at hty
        · next hname => exact Option.mem_some.1 hty ▸ Ty.spelledIn_builtin hname
        · split at hty
          · exact Option.mem_some.1 hty ▸ Ty.spelledIn_declared ht.file.package hword
          · exact absurd hty (Option.not_mem_none _)
  case h_14 hk =>
    obtain ⟨x, hx, hty⟩ := Option.bind_eq_some_iff.1 hty
    obtain ⟨f, hf, hty⟩ := Option.bind_eq_some_iff.1 hty
    obtain ⟨pkg, hpkg, hty⟩ := Option.bind_eq_some_iff.1 hty
    split at hty
    · exact Option.mem_some.1 hty ▸
        Ty.spelledIn_declared (ht.import? hpkg) (hm.spelled.below.selected hk hf)
    · exact absurd hty (Option.not_mem_none _)
  case h_15 => exact absurd hty (Option.not_mem_none _)
  all_goals exact Option.mem_some.1 hty ▸ Ty.spelledIn_ofNode ht.file hm
termination_by n.size

mutual
theorem typeWith (hvalue : ∀ {t}, t.SpelledIn S → ∀ pkg name, (value t pkg name).SpelledIn S)
    (ht : t.SpelledIn S) {n : Node} (hn : n.BelowIn S) :
    (Typer.typeWith value t n).SpelledIn S := by
  have hfield {f : Field} {x : Node} (hx : n.field? f = some x) :
      (Typer.typeWith value t x).SpelledIn S := by
    have := Node.size_lt_of_field? hx
    exact typeWith hvalue ht (hn.mem_all (Node.mem_all_of_field? hx))
  rw [Typer.typeWith.eq_def]
  split
  case h_1 =>
    split
    · next x hx =>
      have hmem := List.mem_of_mem_head? hx
      have := Node.size_lt_of_mem_named hmem
      exact typeWith hvalue ht (hn.mem_all (Node.mem_all_of_mem_named hmem))
    · trivial
  case h_2 | h_3 => exact Ty.spelledIn_string
  case h_4 | h_5 => exact Ty.spelledIn_int
  case h_6 | h_7 | h_8 => exact Ty.spelledIn_builtin (by decide)
  case h_9 | h_10 => exact Ty.spelledIn_bool
  case h_12 =>
    split
    · next b hb => exact ht.locals b (mem_of_local? hb)
    · exact hvalue ht _ _
  case h_13 =>
    split
    · next x hx => exact spelledIn_unaryType (hfield hx)
    · trivial
  case h_14 =>
    have hpart (f : Field) : (match _h : n.field? f with
        | some x => Typer.typeWith value t x
        | none => .unknown).SpelledIn S := by
      split
      · next x hx => exact hfield hx
      · trivial
    have hchoice {c : Prop} [Decidable c] {a b : Ty} (ha : a.SpelledIn S) (hb : b.SpelledIn S) :
        (if c then a else b).SpelledIn S := by
      split
      · exact ha
      · exact hb
    exact hchoice Ty.spelledIn_bool (hchoice (hpart .left) (hpart .right))
  case h_15 | h_16 | h_17 =>
    cases hty : n.field? .type with
    | none => trivial
    | some ty => exact Ty.spelledIn_ofNode ht.file (hn.field? hty (by decide))
  case h_19 hk =>
    have hcall := callWith hvalue ht hn hk
    cases hresults : Typer.callWith value t n with
    | nil => trivial
    | cons ty rest => exact hcall ty (hresults ▸ List.mem_cons_self)
  case h_20 =>
    split
    · split
      · exact hvalue ht _ _
      · exact Ty.spelledIn_getD ht.index.fieldType?
    · trivial
  case h_21 =>
    split
    · next x hx => exact spelledIn_elementType (hfield hx)
    · trivial
  case h_22 =>
    split
    · next x hx => exact spelledIn_slicedType (hfield hx)
    · trivial
  all_goals trivial
termination_by 2 * n.size + 1

theorem callWith (hvalue : ∀ {t}, t.SpelledIn S → ∀ pkg name, (value t pkg name).SpelledIn S)
    (ht : t.SpelledIn S) {n : Node} (hn : n.BelowIn S) (hk : n.kind = .callExpression) :
    ∀ ty ∈ Typer.callWith value t n, ty.SpelledIn S := by
  intro ty hty
  rw [Typer.callWith.eq_def] at hty
  split at hty
  · exact absurd hty List.not_mem_nil
  · next func hfunc =>
    have hf := hn.field? hfunc (by decide)
    split at hty
    · next hkind =>
      have hname : IsWord func.text := hf.spelled.isWord (by rw [hkind]; rfl)
      dsimp only at hty
      have hfirst : ∀ ty ∈ (match _h : n.callArguments.head? with
          | some a => some (Typer.typeWith value t a)
          | none => none), ty.SpelledIn S := by
        split
        · next a ha =>
          have hmem := List.mem_of_mem_head? ha
          have := Node.size_lt_of_mem_callArguments hmem
          exact fun ty hty => Option.mem_some.1 hty ▸
            typeWith hvalue ht (hn.callArguments hk hmem).belowIn
        · exact nofun
      refine Ty.spelledIn_of_mem_getD (fun types htypes => ?_)
        (Ty.spelledIn_of_mem_getD (fun _ => ht.declaredCall? ht.file.package hname)
          (List.forall_mem_nil _)) ty hty
      split at htypes
      · exact nomatch htypes
      · exact ht.builtinCall? (fun a ha => hn.callArguments hk ha) hfirst htypes
    · next hkind =>
      split at hty
      · next x f hx hsel =>
        have := Node.size_lt_of_field? hfunc
        have := Node.size_lt_of_field? hx
        split at hty
        · -- a function of an imported package, or a method
          next pkg hpkg =>
          have hname : IsWord f.text := hf.spelled.below.selected hkind hsel
          exact Ty.spelledIn_of_mem_getD (fun _ => ht.declaredCall? (ht.import? hpkg) hname)
            (fun ty hty => spelledIn_libraryResult? ty (Option.mem_toList.1 hty)) ty hty
        · exact ht.methodCall ty hty
      · exact absurd hty List.not_mem_nil
    · exact ht.typeDenoted? hf ty (Option.mem_toList.1 hty)
termination_by 2 * n.size
end

theorem valueType {jumps : Nat} (ht : t.SpelledIn S) :
    (Typer.valueType jumps t pkg name).SpelledIn S := by
  induction jumps generalizing t pkg name with
  | zero => trivial
  | succ k ih =>
    unfold Typer.valueType
    split
    · trivial
    · next d hd =>
      obtain ⟨hfile, hspec⟩ := ht.index.value hd
      split
      · next ty hty => exact Ty.spelledIn_ofNode hfile (hspec.field? hty (by decide))
      · next v _ hv =>
        obtain ⟨list, hlist, hv⟩ := Option.bind_eq_some_iff.1 hv
        have hlist := (hspec.field? hlist (by decide)).expressions (List.mem_of_getElem? hv)
        have ht : Typer.SpelledIn S { index := t.index, file := d.file } :=
          ⟨ht.index, hfile, List.forall_mem_nil _⟩
        exact typeWith (fun ht _ _ => ih ht) ht hlist.belowIn
      · trivial

theorem typeOf (ht : t.SpelledIn S) (hn : n.BelowIn S) : (t.typeOf n).SpelledIn S :=
  typeWith (fun ht _ _ => ht.valueType) ht hn

theorem callResults (ht : t.SpelledIn S) (hn : n.BelowIn S) (hk : n.kind = .callExpression) :
    ∀ ty ∈ t.callResults n, ty.SpelledIn S :=
  callWith (fun ht _ _ => ht.valueType) ht hn hk

theorem assignedTypes (ht : t.SpelledIn S) {values : List Node}
    (hvalues : ∀ v ∈ values, v.BelowIn S) {count : Nat} :
    ∀ ty ∈ t.assignedTypes values count, ty.SpelledIn S := by
  unfold Typer.assignedTypes
  split
  · exact List.forall_mem_map.2 fun v hv => ht.typeOf (hvalues v hv)
  · intro ty hty
    rcases List.mem_append.1 (List.mem_of_mem_take hty) with hty | hty
    · split at hty
      · exact absurd hty List.not_mem_nil
      · next v hv =>
        obtain ⟨v', hv', rfl⟩ := Option.map_eq_some_iff.1 hv
        have hv := (hvalues v' (List.mem_of_mem_head? hv')).mem_all (Node.unparen_mem_all v')
        have hpair : ∀ ty ∈ [t.typeOf v'.unparen, .bool], ty.SpelledIn S := by
          simpa using And.intro (ht.typeOf hv) Ty.spelledIn_bool
        split at hty
        · next hk => exact ht.callResults hv hk ty hty
        · exact hpair ty hty
        · exact hpair ty hty
        · exact absurd hty List.not_mem_nil
    · rw [(List.mem_replicate.1 hty).2]
      trivial

/-! ## Collecting declarations -/

variable {scope : Extent} {visibleFrom : Nat}

theorem bind (ht : t.SpelledIn S) {ty : Ty} (hty : ty.SpelledIn S) :
    (t.bind scope visibleFrom n ty).SpelledIn S := by
  unfold Typer.bind
  split
  · exact ht
  · refine ⟨ht.index, ht.file, fun b hb => ?_⟩
    rcases List.mem_append.1 hb with hb | hb
    · exact ht.locals b hb
    · rw [List.mem_singleton.1 hb]
      exact hty

theorem bindAll (ht : t.SpelledIn S) {names : List Node} {types : List Ty}
    (htypes : ∀ ty ∈ types, ty.SpelledIn S) :
    (t.bindAll scope visibleFrom names types).SpelledIn S := by
  fun_induction Typer.bindAll t scope visibleFrom names types with
  | case1 t n names ty types ih =>
    obtain ⟨hty, htypes⟩ := List.forall_mem_cons.1 htypes
    exact ih (ht.bind hty) htypes
  | case2 => exact ht

theorem bindAll_const (ht : t.SpelledIn S) {names : List Node} {ty : Ty} (hty : ty.SpelledIn S) :
    (t.bindAll scope visibleFrom names (names.map fun _ => ty)).SpelledIn S :=
  ht.bindAll (List.forall_mem_map.2 fun _ _ => hty)

theorem bindParameters (ht : t.SpelledIn S) {list : Node} (hlist : list.BelowIn S) :
    (t.bindParameters scope list).SpelledIn S := by
  unfold Typer.bindParameters
  refine List.foldlRecOn list.named _ ht fun t ht param hparam => ?_
  have hparam := hlist.mem_all (Node.mem_all_of_mem_named hparam)
  split
  · exact ht
  · next ty hty =>
    refine ht.bindAll_const ?_
    split
    all_goals exact Ty.spelledIn_ofNode ht.file (hparam.field? hty (by decide))

theorem bindSignature (ht : t.SpelledIn S) (hn : n.BelowIn S) :
    (t.bindSignature n).SpelledIn S := by
  unfold Typer.bindSignature
  refine List.foldlRecOn _ _ ht fun t ht f _ => ?_
  split
  · next list hlist =>
    split
    · exact ht.bindParameters (hn.mem_all (Node.mem_all_of_field? hlist))
    · exact ht
  · exact ht

theorem bindValues (ht : t.SpelledIn S) {names values : List Node} {declared : Option Ty}
    (hdeclared : ∀ ty ∈ declared, ty.SpelledIn S) (hvalues : ∀ v ∈ values, v.BelowIn S) :
    (t.bindValues scope n names declared values).SpelledIn S := by
  unfold Typer.bindValues
  cases declared with
  | none => exact ht.bindAll (ht.assignedTypes hvalues)
  | some ty => exact ht.bindAll_const (hdeclared ty rfl)

end

mutual
theorem collect {t : Typer} (ht : t.SpelledIn S) {scope : Extent} {n : Node} (hn : n.BelowIn S) :
    (t.collect scope n).SpelledIn S := by
  have hexpressions {list : Node} (hlist : list ∈ n.all) : ∀ v ∈ list.expressions, v.BelowIn S :=
    fun v hv => hn.mem_all (Node.mem_all_trans (Node.mem_all_of_mem_expressions hv) hlist)
  rw [Typer.collect]
  split
  case h_1 | h_2 | h_3 =>
    split
    · next body hbody =>
      have := Node.size_lt_of_field? hbody
      exact (ht.bindSignature hn).collect (hn.mem_all (Node.mem_all_of_field? hbody))
    · exact ht.bindSignature hn
  case h_4 =>
    split
    · next left right _ hright =>
      have := Node.size_lt_of_field? hright
      have hmem := Node.mem_all_of_field? hright
      exact (ht.collect (hn.mem_all hmem)).bindValues nofun (hexpressions hmem)
    · exact ht
  case h_5 | h_6 =>
    have hdeclared : ∀ ty ∈ (n.field? .type).map (Ty.ofNode t.file), ty.SpelledIn S := by
      intro ty hty
      obtain ⟨node, hnode, rfl⟩ := Option.map_eq_some_iff.1 hty
      exact Ty.spelledIn_ofNode ht.file (hn.field? hnode (by decide))
    dsimp only
    split
    · next v hv =>
      have := Node.size_lt_of_field? hv
      have hmem := Node.mem_all_of_field? hv
      exact (ht.collect (hn.mem_all hmem)).bindValues hdeclared (hexpressions hmem)
    · exact ht.bindValues hdeclared (List.forall_mem_nil _)
  case h_7 =>
    split
    · exact ht
    · next right hright =>
      have := Node.size_lt_of_field? hright
      have hright := hn.mem_all (Node.mem_all_of_field? hright)
      have ht : (t.collect scope right).SpelledIn S := ht.collect hright
      dsimp only
      split
      · split
        · exact ht.bindAll (spelledIn_rangeTypes (ht.typeOf hright))
        · exact ht
      · exact ht
  case h_8 =>
    have := Node.sizes_named_lt n
    exact ht.collectAll fun c hc => hn.mem_all (Node.mem_all_of_mem_named hc)
termination_by 2 * n.size

theorem collectAll {t : Typer} (ht : t.SpelledIn S) {scope : Extent} {ns : List Node}
    (hns : ∀ n ∈ ns, n.BelowIn S) : (t.collectAll scope ns).SpelledIn S := by
  match ns with
  | [] =>
    rw [Typer.collectAll]
    exact ht
  | n :: rest =>
    obtain ⟨hn, hrest⟩ := List.forall_mem_cons.1 hns
    rw [Typer.collectAll]
    exact (ht.collect hn).collectAll hrest
termination_by 2 * Node.sizes ns + 1
decreasing_by
  · simp only [Node.sizes]
    omega
  · have := n.size_pos
    simp only [Node.sizes]
    omega
end

end SpelledIn

/-- A typer with the declarations of the function around a node. -/
theorem spelledIn_enclosing {index : Index} {file : SourceFile} (hindex : index.SpelledIn S)
    (hfile : file.SpelledIn S) (n : Node) : (enclosing index file n).SpelledIn S := by
  have ht : Typer.SpelledIn S { index, file } := ⟨hindex, hfile, List.forall_mem_nil _⟩
  unfold enclosing
  dsimp only
  split
  · next func hfunc =>
    exact ht.collect (hfile.tree.mem_all (SourceFile.mem_all_of_outermostFunction? hfunc))
  · exact ht

end Typer

/-! ## Programs -/

theorem SourceFile.package_packageOf {tree : Node} (h : tree.Below) :
    S.package (packageOf tree) := by
  refine List.foldlRecOn tree.named _ (motive := S.package) S.empty ?_
  intro p hp decl hdecl
  split
  · next hk =>
    cases hname : decl.named.head? with
    | none => exact hp
    | some name =>
      have hname := Node.mem_children_of_mem_named (List.mem_of_mem_head? hname)
      have hdecl := h.mem_all (Node.mem_all_of_mem_named hdecl)
      exact S.word (hdecl.isWord_part (.inr hk) hname)
  · exact hp

namespace Program

/-- The imports and the array types of the program are written in the script. -/
structure WrittenIn (S : Script) (p : Program) : Prop where
  imports : ∀ f ∈ p.files, ∀ i ∈ f.imports, S.package i.2
  lengths : ∀ f ∈ p.files, f.tree.LengthsIn S

variable {p : Program}

theorem spelledIn_of_mem_files (hp : p.Parsed) (hwritten : p.WrittenIn S)
    {f : SourceFile} (hf : f ∈ p.files) : f.SpelledIn S := by
  have htree := (hp.trees f hf).below
  have hpackage : S.package f.package :=
    hp.packages f hf ▸ SourceFile.package_packageOf htree
  exact ⟨hpackage, hwritten.imports f hf, htree, hwritten.lengths f hf⟩

/-- What the index of a program finds stands in a file of the program. -/
theorem spelledIn_index (hp : p.Parsed) (hwritten : p.WrittenIn S) :
    (Index.build p).SpelledIn S := by
  have hscans := Index.scans_build p
  have hlisting {α : Type} {here : SourceFile} {fileOf : α → SourceFile} {fits : α → Bool}
      {items : SourceFile → Node → List α} {a : α}
      (h : Index.scan? here fileOf fits (p.listing items) = some a) :
      ∃ f n, f.SpelledIn S ∧ n.BelowIn S ∧ a ∈ items f n := by
    have hmem : a ∈ p.listing items := by
      rcases Option.or_eq_some_iff.1 h with h | ⟨-, h⟩
      · exact List.mem_of_find?_eq_some h
      · exact List.mem_of_find?_eq_some h
    obtain ⟨f, hf, hmem⟩ := List.mem_flatMap.1 hmem
    obtain ⟨n, hn, ha⟩ := List.mem_flatMap.1 hmem
    have hf := spelledIn_of_mem_files hp hwritten hf
    exact ⟨f, n, hf, hf.tree.mem_all (Node.mem_all_of_mem_named hn), ha⟩
  refine ⟨fun {here package name d} h => ?_, fun {here package receiver name d} h => ?_,
    fun {here package name d} h => ?_, fun {here package name d} h => ?_⟩
  · rw [hscans.function] at h
    obtain ⟨f, n, hf, hn, hd⟩ := hlisting h
    obtain rfl := List.mem_singleton.1 hd
    exact ⟨hf, hn⟩
  · rw [hscans.method] at h
    obtain ⟨f, n, hf, hn, hd⟩ := hlisting h
    obtain rfl := List.mem_singleton.1 hd
    exact ⟨hf, hn⟩
  · rw [hscans.type] at h
    obtain ⟨f, n, hf, hn, hd⟩ := hlisting h
    unfold Decl.typeParts at hd
    split at hd
    · obtain ⟨s, hs, rfl⟩ := List.mem_map.1 hd
      exact ⟨hf, hn.mem_all (Node.mem_all_of_mem_named hs)⟩
    · exact absurd hd List.not_mem_nil
  · rw [hscans.value] at h
    obtain ⟨f, n, hf, hn, hd⟩ := hlisting h
    unfold ValueDecl.names at hd
    split at hd
    · obtain ⟨spec, hspec, hd⟩ := List.mem_flatMap.1 hd
      obtain ⟨i, hi, rfl⟩ := List.mem_mapIdx.1 hd
      exact ⟨hf, hn.mem_all (Declaration.mem_all_of_mem_valueSpecs hspec)⟩
    · exact absurd hd List.not_mem_nil

end Program
end RouteCheck
