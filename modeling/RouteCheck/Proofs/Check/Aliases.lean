import RouteCheck.Check.Server
import RouteCheck.Proofs.Check.Parity
import RouteCheck.Proofs.Program.Lookup
import RouteCheck.Proofs.Program.Sample
import RouteCheck.Proofs.Tree.Nodes
import RouteCheck.Proofs.Types.TypeNodes

/-!
Aliases, and types that are spelled with them.

A declared type is known by its package and its name, and so is an alias that a program declares: it
is a type of its own, other than the type that it stands for. The predeclared aliases are read as
what they stand for. Spelling a type with the one name or with the other makes a difference just
where the two are read differently, at whatever depth they stand.

Main statements:
  1. `Ty.ofNode_of_namesType`: what a name of a declared type is read as, in its package and in the
     files that import it.
  2. `Ty.same_of_eq`, `Ty.differ_of_ne`: what the checks make of two known types.
  3. `alias_identity`: types that are spelled with an alias and without it.
  4. `alias_tells_types_apart`: an alias that makes a difference.
-/

namespace RouteCheck

/-- The program declares the name for an alias of the type that the node writes. -/
structure Program.Alias (p : Program) (d : Decl) (name : String) (target : Node) : Prop where
  declared : Declaration.type name d ∈ p.declarations
  kind : d.node.kind = .typeAlias
  target : d.node.field? .type = some target

/-- In the file the node names the type that the package declares by this name, with the name of the
package in front or, in a file of the package, without it. -/
def Node.NamesType (file : SourceFile) (package name : String) (m : Node) : Prop :=
  (m.kind = .typeIdentifier ∨ m.kind = .identifier) ∧ m.text = name ∧ file.package = package ∨
    m.kind = .qualifiedType ∧ ∃ q x, m.field? .package = some q ∧ m.field? .name = some x ∧
      (file.import? q.text).getD q.text = package ∧ x.text = name

namespace Ty

/-- Nothing is reported between the two types, and they are identical. -/
structure Same (t t' : Ty) : Prop where
  identical : t.identical t' = true
  conflicts : t.conflicts t' = false ∧ t'.conflicts t = false
  compared : ∀ (typer : Typer) (n : Node) (message : String),
    compareTypes typer n t t' message = [] ∧ compareTypes typer n t' t message = []

/-- The two types are a conflict where a handler offers both of them, and a difference between a
client and the server. -/
structure Differ (t t' : Ty) : Prop where
  identical : t.identical t' = false
  conflicts : t.conflicts t' = true ∧ t'.conflicts t = true
  compared : ∀ (typer : Typer) (n : Node) (message : String),
    compareTypes typer n t t' message = [⟨typer.file.position n, message⟩] ∧
      compareTypes typer n t' t message = [⟨typer.file.position n, message⟩]

section
variable {t t' : Ty} {file : SourceFile} {package name : String} {m : Node}

theorem same_of_eq (ht : t.containsUnknown = false) (h : t = t') : t.Same t' := by
  subst h
  have hself : t.identical t = true := identical_iff.2 ⟨ht, rfl⟩
  have hconflicts : t.conflicts t = false := by simp [conflicts, hself]
  have hcompared (typer : Typer) (n : Node) (message : String) :
      compareTypes typer n t t message = [] := by simp [compareTypes, hself]
  exact ⟨hself, ⟨hconflicts, hconflicts⟩, fun _ _ _ => ⟨hcompared .., hcompared ..⟩⟩

theorem differ_of_ne (ht : t.containsUnknown = false) (ht' : t'.containsUnknown = false)
    (h : t ≠ t') : t.Differ t' := by
  have hidentical : t.identical t' = false ∧ t'.identical t = false := by
    simp [identical, ht, ht', h, h.symm]
  refine ⟨hidentical.1, ?_, fun typer n message => ?_⟩
  · simp [conflicts, ht, ht', hidentical]
  · simp [compareTypes, ht, ht', hidentical]

theorem ofNode_of_namesType (hname : isBuiltinName name = false)
    (h : m.NamesType file package name) : ofNode file m = declared package name := by
  rcases h with ⟨hkind, rfl, rfl⟩ | ⟨hkind, q, x, hq, hx, rfl, rfl⟩
  · rw [ofNode_identifier hkind, ofName, hname]
    rfl
  · exact ofNode_qualifiedType hkind hq hx

end
end Ty

theorem Index.isType_of_alias {p : Program} {d : Decl} {name : String} {target : Node}
    (h : p.Alias d name target) (here : SourceFile) :
    (build p).isType here d.file.package name = true := by
  have hmem : d ∈ (build p).types.getD (d.file.package, name) [] := by
    rw [(lists_build p _).types]
    exact List.mem_filterMap.2 ⟨_, h.declared, by simp [Declaration.typeOf?]⟩
  obtain ⟨d', ds, hgroup⟩ := List.exists_cons_of_ne_nil (List.ne_nil_of_mem hmem)
  rw [isType, type?, pick, hgroup, List.head?_cons]
  cases (d' :: ds).find? fun c => sameDir here c.file <;> rfl

/-- The predeclared aliases, and what they stand for. -/
def Ty.predeclaredAliases : List (Ty × Ty) :=
  [(.builtin "byte", .builtin "uint8"), (.builtin "rune", .builtin "int32"),
    (.builtin "any", .interface)]

/-- An alias that a program declares is a declared type of its own, and every name of it is read as
that. So two known types, one spelled with the alias and one with what it stands for, are identical
just where the latter is read as the alias too; else they conflict, and are reported as different.
Types that are spelled with a predeclared alias and without it are identical. -/
theorem alias_identity {p : Program} {d : Decl} {name : String} {target : Node}
    (halias : p.Alias d name target) (hname : Ty.isBuiltinName name = false) :
    let a := Ty.declared d.file.package name
    let b := Ty.ofNode d.file target
    (∀ here, (Index.build p).isType here d.file.package name = true) ∧
    (∀ file m, m.NamesType file d.file.package name → Ty.ofNode file m = a) ∧
    (∀ mold : Ty.Mold, mold.isOpen = true → ∀ file file' n n', n.casts file a mold = true →
      n'.casts file' b mold = true →
      let t := Ty.ofNode file n
      let t' := Ty.ofNode file' n'
      t.containsUnknown = false → t'.containsUnknown = false →
        (b = a → t.Same t') ∧ (b ≠ a → t.Differ t')) ∧
    ∀ x y, (x, y) ∈ Ty.predeclaredAliases → ∀ (mold : Ty.Mold) file file' n n',
      n.casts file x mold = true → n'.casts file' y mold = true →
      let t := Ty.ofNode file n
      let t' := Ty.ofNode file' n'
      t.containsUnknown = false → t.Same t' := by
  intro a b
  refine ⟨Index.isType_of_alias halias, fun file m hm => Ty.ofNode_of_namesType hname hm, ?_, ?_⟩
  · intro mold hopen file file' n n' hn hn' t t' ht ht'
    have hread : t = mold.fill a := Node.ofNode_of_casts hn
    have hread' : t' = mold.fill b := Node.ofNode_of_casts hn'
    constructor
    · intro hab
      exact Ty.same_of_eq ht (by rw [hread, hread', hab])
    · intro hab
      refine Ty.differ_of_ne ht ht' fun heq => hab ?_
      rw [hread, hread'] at heq
      exact ((Ty.Mold.fill_inj hopen).1 heq).symm
  · intro x y hxy mold file file' n n' hn hn' t t' ht
    have hall : ∀ xy ∈ Ty.predeclaredAliases, xy.1 = xy.2 := by decide
    have heq : x = y := hall (x, y) hxy
    refine Ty.same_of_eq ht ?_
    show Ty.ofNode file n = Ty.ofNode file' n'
    rw [Node.ofNode_of_casts hn, Node.ofNode_of_casts hn', heq]

/-- An alias, and the types of four parameters. -/
def aliasing : List String :=
  ["type B struct \x7b\x7d", "type A = B",
    "func f(x map[string][]*A, y map[string][]*B, z [4]byte, w [4]uint8) \x7b\x7d"]

/-- The aliases that a file declares, and what they stand for. -/
def SourceFile.aliases (f : SourceFile) : List (String × Ty) :=
  f.tree.named.flatMap fun n =>
    if n.kind = .typeDeclaration then
      (n.named.filter (·.kind == .typeAlias)).filterMap fun s =>
        match s.field? .name, s.field? .type with
        | some m, some t => some (m.text, Ty.ofNode f t)
        | _, _ => none
    else []

theorem exists_of_mem_aliases {f : SourceFile} {name : String} {b : Ty}
    (h : (name, b) ∈ f.aliases) :
    ∃ d target, (Program.mk [f]).Alias d name target ∧ d.file = f ∧ Ty.ofNode f target = b := by
  obtain ⟨n, hn, h⟩ := List.mem_flatMap.1 h
  obtain ⟨hkind, h⟩ := List.mem_ite_nil_right.1 h
  obtain ⟨s, hs, h⟩ := List.mem_filterMap.1 h
  obtain ⟨hs, halias⟩ := List.mem_filter.1 hs
  split at h
  · next m t hm ht =>
    obtain ⟨rfl, rfl⟩ := Prod.mk.inj (Option.some.inj h)
    refine ⟨⟨f, s⟩, t, ⟨?_, eq_of_beq halias, ht⟩, rfl, rfl⟩
    refine List.mem_flatMap.2 ⟨f, List.mem_singleton_self f, List.mem_flatMap.2 ⟨n, hn, ?_⟩⟩
    simp only [Declaration.ofNode, hkind]
    exact List.mem_filterMap.2 ⟨s, List.mem_filter.2 ⟨hs, by simp [eq_of_beq halias]⟩, by simp [hm]⟩
  · cases h

/-- The mold of the map types of the sample. -/
def mapping : Ty.Mold := .map (.type .string) (.slice (.pointer .hole))

theorem aliases_aliasing :
    let f := SourceFile.sample aliasing
    f.aliases = [("A", .declared "api" "B")] ∧
    (f.tree.all.filter (·.kind == .mapType)).map (fun n =>
      (n.casts f (.declared "api" "A") mapping, n.casts f (.declared "api" "B") mapping)) =
        [(true, false), (false, true)] ∧
    (f.tree.all.filter (·.kind == .arrayType)).map (fun n =>
      (n.casts f (.builtin "byte") (.array "4" .hole), n.text)) =
        [(true, "[4]byte"), (true, "[4]uint8")] ∧
    f.package = "api" := by
  simp only [aliasing, SourceFile.sample_eq, SourceFile.chars, String.reduceToList]
  decide +kernel

theorem exists_aliasing :
    let f := SourceFile.sample aliasing
    (∃ d target, (Program.mk [f]).Alias d "A" target ∧ d.file = f ∧
      Ty.ofNode f target = .declared "api" "B") ∧
    ∃ n ∈ f.tree.all, ∃ n' ∈ f.tree.all, n.casts f (.declared "api" "A") mapping = true ∧
      n'.casts f (.declared "api" "B") mapping = true ∧
      ∃ k ∈ f.tree.all, ∃ k' ∈ f.tree.all, k.text = "[4]byte" ∧ k'.text = "[4]uint8" ∧
        k.casts f (.builtin "byte") (.array "4" .hole) = true ∧
        k'.casts f (.builtin "byte") (.array "4" .hole) = true := by
  intro f
  obtain ⟨haliases, hmaps, harrays, -⟩ := aliases_aliasing
  have hmem {n : Node} {k : Kind} {ns : List Node} (hns : f.tree.all.filter (·.kind == k) = ns)
      (hn : n ∈ ns) : n ∈ f.tree.all := (List.mem_filter.1 (hns.symm ▸ hn)).1
  obtain ⟨n, ns, hn, hcast, hns⟩ := List.map_eq_cons_iff.1 hmaps
  obtain ⟨n', hn', hcast'⟩ := List.map_eq_singleton_iff.1 hns
  obtain ⟨k, ks, hk, hitem, hks⟩ := List.map_eq_cons_iff.1 harrays
  obtain ⟨k', hk', hitem'⟩ := List.map_eq_singleton_iff.1 hks
  rw [hn'] at hn
  rw [hk'] at hk
  exact ⟨exists_of_mem_aliases (haliases ▸ List.mem_singleton_self _),
    n, hmem hn (by simp), n', hmem hn (by simp), (Prod.mk.inj hcast).1, (Prod.mk.inj hcast').2,
    k, hmem hk (by simp), k', hmem hk (by simp), (Prod.mk.inj hitem).2, (Prod.mk.inj hitem').2,
    (Prod.mk.inj hitem).1, (Prod.mk.inj hitem').1⟩

/-- The maps to slices of pointers differ, and the arrays of octets are the same. -/
theorem alias_identity_aliasing : ∃ sources p, Program.ofSources sources = .ok p ∧
    ∃ f ∈ p.files,
      (∃ n ∈ f.tree.all, ∃ n' ∈ f.tree.all,
        Ty.ofNode f n = mapping.fill (.declared "api" "A") ∧
        Ty.ofNode f n' = mapping.fill (.declared "api" "B") ∧
        (Ty.ofNode f n).Differ (Ty.ofNode f n')) ∧
      ∃ k ∈ f.tree.all, ∃ k' ∈ f.tree.all, k.text = "[4]byte" ∧ k'.text = "[4]uint8" ∧
        (Ty.ofNode f k).Same (Ty.ofNode f k') := by
  obtain ⟨⟨d, target, halias, hfile, htarget⟩, n, hn, n', hn', hcast, hcast', k, hk, k', hk',
    htext, htext', hitem, hitem'⟩ := exists_aliasing
  obtain ⟨-, -, hspelled, hpredeclared⟩ := alias_identity halias (by decide)
  have hpackage : d.file.package = "api" := by rw [hfile]; exact aliases_aliasing.2.2.2
  rw [hfile, htarget, ← hfile, hpackage] at hspelled
  have hread := Node.ofNode_of_casts hcast
  have hread' := Node.ofNode_of_casts hcast'
  refine ⟨_, _, Program.ofSources_sample aliasing, _, List.mem_singleton_self _,
    ⟨n, hn, n', hn', hread, hread', ?_⟩, k, hk, k', hk', htext, htext', ?_⟩
  · exact (hspelled mapping rfl _ _ n n' hcast hcast' (by rw [hread]; rfl) (by rw [hread']; rfl)).2
      (by decide)
  · refine hpredeclared (.builtin "byte") (.builtin "uint8") (by decide) (.array "4" .hole) _ _ k k'
      hitem hitem' ?_
    rw [Node.ofNode_of_casts hitem]
    rfl

/-- A type that is spelled with an alias and with the type that it stands for: the two are not
identical, they conflict, and they are reported as different. -/
theorem alias_tells_types_apart : ∃ sources p, Program.ofSources sources = .ok p ∧
    ∃ d target, p.Alias d "A" target ∧ ∃ f ∈ p.files, ∃ n ∈ f.tree.all, ∃ n' ∈ f.tree.all,
      n.casts f (.declared d.file.package "A") mapping = true ∧
      n'.casts f (Ty.ofNode d.file target) mapping = true ∧
      (Ty.ofNode f n).identical (Ty.ofNode f n') = false ∧
      (Ty.ofNode f n).conflicts (Ty.ofNode f n') = true ∧
      ∀ (typer : Typer) (x : Node) (message : String),
        compareTypes typer x (Ty.ofNode f n') (Ty.ofNode f n) message ≠ [] := by
  obtain ⟨⟨d, target, halias, hfile, htarget⟩, n, hn, n', hn', hcast, hcast', -⟩ := exists_aliasing
  have hpackage : d.file.package = "api" := by rw [hfile]; exact aliases_aliasing.2.2.2
  have hdiffer : (Ty.ofNode (.sample aliasing) n).Differ (Ty.ofNode (.sample aliasing) n') := by
    rw [Node.ofNode_of_casts hcast, Node.ofNode_of_casts hcast']
    exact Ty.differ_of_ne rfl rfl (by decide)
  refine ⟨_, _, Program.ofSources_sample aliasing, d, target, halias, _, List.mem_singleton_self _,
    n, hn, n', hn', ?_, ?_, hdiffer.identical, hdiffer.conflicts.1, fun typer x message => ?_⟩
  · rw [hpackage]
    exact hcast
  · rw [hfile, htarget]
    exact hcast'
  · rw [(hdiffer.compared typer x message).2]
    exact List.cons_ne_nil _ _

end RouteCheck
