import RouteCheck.Proofs.Tree.Nodes
import RouteCheck.Program.SourceFile

/-!
Walks and paths.

A walk keeps a list of pending trees; it visits them one after the other, so that the named
descendants of a node are those of its named children in turn. `Node.pathTo` looks for a number in
pre-order. Where the nodes of a tree are numbered apart, the path to a node goes through the child
that it is in.

Main statements:
  1. `walkFrom_append`, `mem_descendants_iff`: what a walk meets.
  2. `pathTo_child`: the path to a node through a child.
  3. `outermostFunction?_of_child`: the outermost function around a node of a top-level declaration
     is that declaration, if it is a function.
-/

namespace RouteCheck
namespace Node

/-! ## Walks -/

/-- Pending trees are visited in turn. -/
theorem walkFrom_append (enter : Node → Bool) (ns ms : List Node) :
    walkFrom enter (ns ++ ms) = walkFrom enter ns ++ walkFrom enter ms := by
  fun_induction walkFrom enter ns with
  | case1 => rfl
  | case2 n rest henter ih =>
    rw [List.cons_append, walkFrom, if_pos henter, ← List.append_assoc, ih, List.cons_append]
  | case3 n rest henter ih =>
    rw [List.cons_append, walkFrom, if_neg henter, ih, List.cons_append]

theorem walkFrom_eq_flatMap (enter : Node → Bool) (ns : List Node) :
    walkFrom enter ns = ns.flatMap (walk enter) := by
  induction ns with
  | nil => rw [walkFrom, List.flatMap_nil]
  | cons n ns ih =>
    rw [List.flatMap_cons, ← ih]
    exact walkFrom_append enter [n] ns

theorem descendants_eq (n : Node) : n.descendants = n :: n.named.flatMap descendants := by
  show walkFrom _ [n] = _
  rw [walkFrom, if_pos rfl, List.append_nil, walkFrom_eq_flatMap]
  rfl

theorem mem_descendants_iff {m n : Node} :
    m ∈ n.descendants ↔ m = n ∨ ∃ c ∈ n.named, m ∈ c.descendants := by
  rw [descendants_eq, List.mem_cons, List.mem_flatMap]

/-! ## Paths -/

mutual
theorem pathTo_eq_none {target : Nat} : ∀ {n : Node}, target ∉ n.all.map id →
    pathTo target n = none
  | mk h cs, hno => by
    rw [all, List.map_cons, List.mem_cons, not_or] at hno
    have hne : h.id ≠ target := Ne.symm hno.1
    rw [pathTo, if_neg hne, pathsTo_eq_none hno.2]
    rfl
theorem pathsTo_eq_none {target : Nat} : ∀ {ns : List Node}, target ∉ (allOf ns).map id →
    pathsTo target ns = none
  | [], _ => rfl
  | c :: cs, hno => by
    rw [allOf, List.map_append, List.mem_append, not_or] at hno
    rw [pathsTo, pathTo_eq_none hno.1, pathsTo_eq_none hno.2]
    rfl
end

mutual
theorem mem_all_of_mem_pathTo {target : Nat} {m : Node} : ∀ {n : Node} {path : List Node},
    pathTo target n = some path → m ∈ path → m ∈ n.all
  | mk h cs, path, hpath, hm => by
    rw [pathTo] at hpath
    rw [all]
    split at hpath
    · obtain rfl := Option.some.inj hpath
      obtain rfl := List.mem_singleton.1 hm
      exact List.mem_cons_self
    · obtain ⟨rest, hrest, rfl⟩ := Option.map_eq_some_iff.1 hpath
      rcases List.mem_cons.1 hm with rfl | hm
      · exact List.mem_cons_self
      · exact List.mem_cons_of_mem _ (mem_allOf_of_mem_pathsTo hrest hm)
theorem mem_allOf_of_mem_pathsTo {target : Nat} {m : Node} : ∀ {ns path : List Node},
    pathsTo target ns = some path → m ∈ path → m ∈ allOf ns
  | [], _, hpath, _ => absurd hpath (by simp [pathsTo])
  | c :: cs, path, hpath, hm => by
    rw [pathsTo, Option.or_eq_some_iff] at hpath
    rw [allOf, List.mem_append]
    rcases hpath with hpath | ⟨_, hpath⟩
    · exact .inl (mem_all_of_mem_pathTo hpath hm)
    · exact .inr (mem_allOf_of_mem_pathsTo hpath hm)
end

section
variable {c d m n : Node}

/-- The child that a node is in is told by the number of the node. -/
theorem child_unique {ns : List Node} (hids : ((allOf ns).map id).Nodup) (hc : c ∈ ns)
    (hd : d ∈ ns) (hm : m ∈ c.all) (hm' : m ∈ d.all) : c = d := by
  induction ns with
  | nil => exact absurd hc List.not_mem_nil
  | cons e es ih =>
    rw [allOf, List.map_append, List.nodup_append] at hids
    obtain ⟨_, hrest, hapart⟩ := hids
    have hboth (hin : m ∈ e.all) {e' : Node} (he' : e' ∈ es) (hin' : m ∈ e'.all) : False :=
      hapart m.id (List.mem_map_of_mem hin) m.id
        (List.mem_map_of_mem (mem_allOf.2 ⟨e', he', hin'⟩)) rfl
    rcases List.mem_cons.1 hc with hce | hc
    · rcases List.mem_cons.1 hd with hde | hd
      · exact hce.trans hde.symm
      · exact (hboth (hce ▸ hm) hd hm').elim
    · rcases List.mem_cons.1 hd with hde | hd
      · exact (hboth (hde ▸ hm') hc hm).elim
      · exact ih hrest hc hd

theorem pathsTo_of_mem {ns : List Node} (hc : c ∈ ns) (hm : m ∈ c.all)
    (hids : ((allOf ns).map id).Nodup) : pathsTo m.id ns = pathTo m.id c := by
  induction ns with
  | nil => exact absurd hc List.not_mem_nil
  | cons d ds ih =>
    rw [allOf, List.map_append, List.nodup_append] at hids
    obtain ⟨_, hrest, hapart⟩ := hids
    rw [pathsTo]
    rcases List.mem_cons.1 hc with rfl | hc
    · have hno : m.id ∉ (allOf ds).map id := fun hmem =>
        hapart m.id (List.mem_map_of_mem hm) m.id hmem rfl
      rw [pathsTo_eq_none hno, Option.or_none]
    · have hmem : m.id ∈ (allOf ds).map id :=
        List.mem_map_of_mem (mem_allOf.2 ⟨c, hc, hm⟩)
      have hno : m.id ∉ d.all.map id := fun hd => hapart m.id hd m.id hmem rfl
      rw [pathTo_eq_none hno, Option.none_or, ih hc hrest]

theorem nodup_ids_children (hids : (n.all.map id).Nodup) : ((allOf n.children).map id).Nodup := by
  rw [all_eq, List.map_cons, List.nodup_cons] at hids
  exact hids.2

/-- The path to a node begins with the tree, and goes on with the path in the child that the node
is in. -/
theorem pathTo_child (hids : (n.all.map id).Nodup) (hc : c ∈ n.children) (hm : m ∈ c.all) :
    pathTo m.id n = (pathTo m.id c).map (n :: ·) := by
  obtain ⟨h, cs⟩ := n
  have hmem : m.id ∈ (allOf cs).map id := List.mem_map_of_mem (mem_allOf.2 ⟨c, hc, hm⟩)
  have hne : h.id ≠ m.id := fun heq => by
    rw [all, List.map_cons, List.nodup_cons] at hids
    exact hids.1 (show h.id ∈ _ from heq ▸ hmem)
  have hpaths : pathsTo m.id cs = pathTo m.id c :=
    pathsTo_of_mem hc hm (nodup_ids_children hids)
  rw [pathTo, if_neg hne, hpaths]

theorem pathTo_self (n : Node) : pathTo n.id n = some [n] := by
  obtain ⟨h, cs⟩ := n
  exact if_pos rfl

theorem pathTo_eq_cons {target : Nat} {path : List Node} (hpath : pathTo target n = some path) :
    ∃ rest, path = n :: rest := by
  obtain ⟨h, cs⟩ := n
  rw [pathTo] at hpath
  split at hpath
  · exact ⟨[], (Option.some.inj hpath).symm⟩
  · obtain ⟨rest, _, rfl⟩ := Option.map_eq_some_iff.1 hpath
    exact ⟨rest, rfl⟩

end

mutual
theorem exists_pathTo {m : Node} : ∀ {n : Node}, m ∈ n.all → ∃ path, pathTo m.id n = some path
  | mk h cs, hm => by
    rw [pathTo]
    split
    · exact ⟨_, rfl⟩
    · next hne =>
      rw [all] at hm
      rcases List.mem_cons.1 hm with rfl | hm
      · exact absurd rfl hne
      · obtain ⟨path, hpath⟩ := exists_pathsTo hm
        exact ⟨_, by rw [hpath]; rfl⟩
theorem exists_pathsTo {m : Node} : ∀ {ns : List Node}, m ∈ allOf ns →
    ∃ path, pathsTo m.id ns = some path
  | [], hm => absurd hm List.not_mem_nil
  | c :: cs, hm => by
    rw [allOf, List.mem_append] at hm
    rw [pathsTo]
    rcases hm with hm | hm
    · obtain ⟨path, hpath⟩ := exists_pathTo hm
      exact ⟨path, by rw [hpath]; rfl⟩
    · obtain ⟨path, hpath⟩ := exists_pathsTo hm
      cases hc : pathTo m.id c with
      | none => exact ⟨path, by rw [hpath, Option.none_or]⟩
      | some path' => exact ⟨path', rfl⟩
end

end Node

/-! ## Outermost functions -/

namespace SourceFile

variable {f : SourceFile} {decl g m n : Node}

theorem isFunction_of_outermostFunction? (h : f.outermostFunction? n = some g) :
    g.kind.isFunction = true := by
  unfold outermostFunction? at h
  exact (List.find?_eq_some_iff_append.1 h).1

theorem mem_all_of_outermostFunction? (h : f.outermostFunction? n = some g) : g ∈ f.tree.all := by
  unfold outermostFunction? pathTo at h
  cases hpath : f.tree.pathTo n.id with
  | none => simp [hpath] at h
  | some path =>
    rw [hpath] at h
    exact Node.mem_all_of_mem_pathTo hpath (List.mem_of_find?_eq_some h)

/-- Around a top-level declaration that is a function, and around what is in it, the outermost
function is that declaration; in any other one it is found below the declaration. -/
theorem outermostFunction?_of_child (hids : (f.tree.all.map Node.id).Nodup)
    (hroot : f.tree.kind.isFunction = false) (hdecl : decl ∈ f.tree.children) (hm : m ∈ decl.all) :
    if decl.kind.isFunction then f.outermostFunction? m = some decl
    else f.outermostFunction? decl = none ∧
      ∀ g, f.outermostFunction? m = some g → g ∈ decl.all := by
  have hpath {m : Node} (hm : m ∈ decl.all) : ∃ rest, Node.pathTo m.id decl = some (decl :: rest) ∧
      f.outermostFunction? m = (decl :: rest).find? (·.kind.isFunction) := by
    obtain ⟨path, hpath⟩ := Node.exists_pathTo hm
    obtain ⟨rest, rfl⟩ := Node.pathTo_eq_cons hpath
    refine ⟨rest, hpath, ?_⟩
    rw [outermostFunction?, SourceFile.pathTo, Node.pathTo_child hids hdecl hm, hpath]
    exact List.find?_cons_of_neg (by simp [hroot])
  split
  · next hfunction =>
    obtain ⟨rest, _, heq⟩ := hpath hm
    rw [heq]
    exact List.find?_cons_of_pos hfunction
  · next hfunction =>
    constructor
    · have hself : f.outermostFunction? decl = [decl].find? (·.kind.isFunction) := by
        rw [outermostFunction?, SourceFile.pathTo,
          Node.pathTo_child hids hdecl (Node.self_mem_all decl), Node.pathTo_self]
        exact List.find?_cons_of_neg (by simp [hroot])
      rw [hself]
      exact List.find?_cons_of_neg hfunction
    · intro g hg
      obtain ⟨rest, hrest, heq⟩ := hpath hm
      exact Node.mem_all_of_mem_pathTo hrest (List.mem_of_find?_eq_some (heq ▸ hg))

end SourceFile
end RouteCheck
