import RouteCheck.Proofs.Program.Parsed
import RouteCheck.Proofs.Tree.Paths
import RouteCheck.Proofs.Types.Scoping

/-!
What the uses of names in a function refer to.

The typer of a node holds the local declarations of the outermost function around it. In the tree of
a source text that function is placed, and collecting from it goes along with walking over it.

Main statements:
  1. `placed_of_outermostFunction?`: an outermost function is placed.
  2. `enclosing_resolves_as_visit`: the walk comes to the uses of names in the function, and the
     typer finds for them the declarations that the walk finds, but for those that an aside hides.
  3. `resolution_in_asides`: in an aside the two differ.
-/

namespace RouteCheck

/-- An outermost function is placed. -/
theorem placed_of_outermostFunction? {f : SourceFile} {n func : Node} (htree : f.tree.SourceTree)
    (houter : f.outermostFunction? n = some func) : func.Placed :=
  htree.placed_of_isFunction (SourceFile.mem_all_of_outermostFunction? houter)
    (SourceFile.isFunction_of_outermostFunction? houter)

namespace Typer

theorem mirrors_nil (scope : Extent) : Mirrors [] [] scope scope.start where
  start := Nat.le_refl _
  settled := by simp
  agree _ _ _ _ := rfl

/-- The typer of a node finds for a use of a name in the outermost function around the node what
the walk over the function finds. -/
theorem nameAt_local?_of_mem_visit {index : Index} {f : SourceFile} {n func u : Node}
    {d? : Option Node} (hplaced : func.Placed) (houter : f.outermostFunction? n = some func)
    (hu : (u, d?) ∈ (Lexical.visit [] func).1) (hhidden : ¬ func.Hides u) :
    ((enclosing index f n).local? u).map (·.nameAt) = d?.map Node.start := by
  have hfollows := followed_of_placed hplaced (t := { index, file := f })
    (mirrors_nil func.extent) (Nat.le_refl _) (Nat.le_refl _)
  rw [local?, enclosing, houter]
  exact hfollows.agree u d? hu hhidden

end Typer

/-- The walk over the outermost function around a node comes to the uses of names in the function,
and for each of them the typer of the node finds the declaration that the walk finds, if the use is
not hidden in an aside. -/
theorem enclosing_resolves_as_visit {p : Program} {f : SourceFile} {n func : Node} (hp : p.Parsed)
    (hf : f ∈ p.files) (houter : f.outermostFunction? n = some func) (u : Node) :
    (func.Uses u ↔ ∃ d?, (u, d?) ∈ (Lexical.visit [] func).1) ∧
      ∀ d?, (u, d?) ∈ (Lexical.visit [] func).1 → ¬ func.Hides u →
        ((Typer.enclosing (.build p) f n).local? u).map (·.nameAt) = d?.map Node.start := by
  have hplaced := placed_of_outermostFunction? (hp.trees f hf) houter
  refine ⟨⟨Lexical.exists_mem_visit [] hplaced, fun ⟨d?, hu⟩ =>
    Lexical.uses_of_mem_visit hplaced hu⟩, fun d? hu hhidden => ?_⟩
  exact Typer.nameAt_local?_of_mem_visit hplaced houter hu hhidden

/-! ## Names that are declared over and over, and asides -/

/-- The second node, told by its number, lies in an aside of a node in the first one. -/
def Node.holdsAside (n u : Node) : Bool :=
  n.all.any fun m => m.asides.any fun part => (part.all.map Node.id).contains u.id

theorem Node.holdsAside_of_hides {n u : Node} (h : n.Hides u) : n.holdsAside u = true := by
  have hexists : ∃ m ∈ n.all, ∃ part ∈ m.asides, u ∈ part.all := by
    induction h with
    | @aside n part u hpart hu _ => exact ⟨n, self_mem_all n, part, hpart, hu⟩
    | @part n part u hpart _ ih =>
      obtain ⟨m, hm, haside⟩ := ih
      exact ⟨m, mem_all_of_child hpart hm, haside⟩
  obtain ⟨m, hm, part, hpart, hu⟩ := hexists
  exact List.any_eq_true.2 ⟨m, hm, List.any_eq_true.2
    ⟨part, hpart, List.contains_iff_mem.2 (List.mem_map_of_mem hu)⟩⟩

/-- Of every use of a name in a function of a sample file: where the walk finds its declaration,
where the typer of the function does, and whether the use lies in an aside. -/
def SourceFile.resolved (f : SourceFile) (func : Node) :
    List (String × Option Nat × Option Nat × Bool) :=
  (Lexical.visit [] func).1.map fun (u, d?) => (u.text, d?.map Node.start,
    ((Typer.enclosing (.build ⟨[f]⟩) f func).local? u).map (·.nameAt), func.holdsAside u)

/-- The declarations of a sample file that are functions. -/
def SourceFile.functions (f : SourceFile) : List Node := f.tree.named.filter (·.kind.isFunction)

/-- A function declaration is the outermost function around itself. -/
theorem outermostFunction?_of_mem_functions {f : SourceFile} {func : Node}
    (htree : f.tree.SourceTree) (hfunc : func ∈ f.functions) :
    f.outermostFunction? func = some func := by
  obtain ⟨hnamed, hfunction⟩ := List.mem_filter.1 hfunc
  have hroot : f.tree.kind.isFunction = false := by
    rw [htree.kind]
    rfl
  have hself := SourceFile.outermostFunction?_of_child htree.ids hroot
    (Node.mem_children_of_mem_named hnamed) (Node.self_mem_all func)
  rwa [if_pos hfunction] at hself

theorem exists_of_mem_resolved {f : SourceFile} {func : Node} {name : String} {d l : Option Nat}
    {aside : Bool} (h : (name, d, l, aside) ∈ f.resolved func) :
    ∃ u d?, (u, d?) ∈ (Lexical.visit [] func).1 ∧ u.text = name ∧ d?.map Node.start = d ∧
      ((Typer.enclosing (.build ⟨[f]⟩) f func).local? u).map (·.nameAt) = l ∧
      func.holdsAside u = aside := by
  obtain ⟨⟨u, d?⟩, hu, heq⟩ := List.mem_map.1 h
  simp only [Prod.mk.injEq] at heq
  exact ⟨u, d?, hu, heq⟩

/-- A function whose parameter is declared again in an `if`, and again in a closure. -/
def shadowing : List String :=
  ["func last(xs []string, n string) string \x7b",
    "if n := len(xs); n > 0 \x7b g := func(n int) string \x7b return xs[n] \x7d; return g(n - 1) \x7d",
    "return n \x7d"]

theorem resolved_shadowing :
    let f := SourceFile.sample shadowing
    f.functions.map f.resolved =
      [[("len", none, none, false), ("xs", some 57, some 57, false), ("n", some 92, some 92, false),
        ("xs", some 57, some 57, false), ("n", some 124, some 124, false),
        ("g", some 114, some 114, false), ("n", some 92, some 92, false),
        ("n", some 70, some 70, false)]] := by
  simp only [shadowing, SourceFile.sample_eq, SourceFile.chars, String.reduceToList]
  decide +kernel

/-- Uses of one name in one function, one of them shadowed, refer to different declarations. -/
theorem enclosing_resolves_as_visit_shadowing : ∃ sources p, Program.ofSources sources = .ok p ∧
    ∃ f ∈ p.files, ∃ func, f.outermostFunction? func = some func ∧
      ∃ u v, func.Uses u ∧ func.Uses v ∧ u.text = v.text ∧
        ((Typer.enclosing (.build p) f func).local? u).map (·.nameAt) = some 92 ∧
        ((Typer.enclosing (.build p) f func).local? v).map (·.nameAt) = some 70 := by
  have hp := Program.ofSources_sample shadowing
  have hf : SourceFile.sample shadowing ∈ (Program.mk [.sample shadowing]).files :=
    List.mem_singleton_self _
  obtain ⟨func, hfunc, hrows⟩ := List.map_eq_singleton_iff.1 resolved_shadowing
  have hmem : func ∈ (SourceFile.sample shadowing).functions := hfunc ▸ List.mem_singleton_self func
  have hparsed := Program.parsed_ofSources hp
  have houter := outermostFunction?_of_mem_functions (hparsed.trees _ hf) hmem
  have hresolved (name : String) (at_ : Nat)
      (h : (name, some at_, some at_, false) ∈ (SourceFile.sample shadowing).resolved func) :
      ∃ u, func.Uses u ∧ u.text = name ∧ ((Typer.enclosing (.build ⟨[.sample shadowing]⟩)
        (.sample shadowing) func).local? u).map (·.nameAt) = some at_ := by
    obtain ⟨u, d?, hu, hname, hd, _, haside⟩ := exists_of_mem_resolved h
    obtain ⟨huses, hresolves⟩ := enclosing_resolves_as_visit hparsed hf houter u
    have hhidden : ¬ func.Hides u := fun hhides =>
      absurd (Node.holdsAside_of_hides hhides) (by simp [haside])
    exact ⟨u, huses.2 ⟨d?, hu⟩, hname, (hresolves d? hu hhidden).trans hd⟩
  obtain ⟨u, hu, hutext, hulocal⟩ := hresolved "n" 92 (by rw [hrows]; decide)
  obtain ⟨v, hv, hvtext, hvlocal⟩ := hresolved "n" 70 (by rw [hrows]; decide)
  exact ⟨_, _, hp, _, hf, func, houter, u, v, hu, hv, hutext.trans hvtext.symm, hulocal, hvlocal⟩

/-- A closure in what a loop assigns to, and a parameter list with a name in a type before the
parameter of that name. -/
def asideUses : List String :=
  ["func count(m map[int]int, xs []int) \x7b",
    "for m[func() int \x7b k := 1; return k \x7d()] = range xs \x7b \x7d \x7d",
    "func take(xs [n]int, n string) \x7b \x7d"]

theorem resolved_asideUses :
    let f := SourceFile.sample asideUses
    f.functions.map f.resolved =
      [[("m", some 58, some 58, true), ("k", some 104, none, true), ("xs", some 73, some 73, false)],
        [("n", none, some 164, true)]] := by
  simp only [asideUses, SourceFile.sample_eq, SourceFile.chars, String.reduceToList]
  decide +kernel

/-- In asides the typer of a function does not find a declaration that the walk finds, and finds one
where the walk finds none. -/
theorem resolution_in_asides : ∃ sources p, Program.ofSources sources = .ok p ∧ ∃ f ∈ p.files,
    (∃ func u d, f.outermostFunction? func = some func ∧ (u, some d) ∈ (Lexical.visit [] func).1 ∧
      (Typer.enclosing (.build p) f func).local? u = none) ∧
    ∃ func u b, f.outermostFunction? func = some func ∧ (u, none) ∈ (Lexical.visit [] func).1 ∧
      (Typer.enclosing (.build p) f func).local? u = some b := by
  have hp := Program.ofSources_sample asideUses
  have hf : SourceFile.sample asideUses ∈ (Program.mk [.sample asideUses]).files :=
    List.mem_singleton_self _
  have houter {func : Node} (h : func ∈ (SourceFile.sample asideUses).functions) :=
    outermostFunction?_of_mem_functions ((Program.parsed_ofSources hp).trees _ hf) h
  have hrows := resolved_asideUses
  obtain ⟨count, rest, hfunctions, hcount, hrest⟩ := List.map_eq_cons_iff.1 hrows
  obtain ⟨take, rfl, htake⟩ := List.map_eq_singleton_iff.1 hrest
  refine ⟨_, _, hp, _, hf, ?_, ?_⟩
  · have hk : ("k", some 104, none, true) ∈ (SourceFile.sample asideUses).resolved count := by
      rw [hcount]
      decide
    obtain ⟨u, d?, hu, _, hd, hl, _⟩ := exists_of_mem_resolved hk
    obtain ⟨d, rfl, _⟩ := Option.map_eq_some_iff.1 hd
    exact ⟨count, u, d, houter (hfunctions ▸ List.mem_cons_self), hu, Option.map_eq_none_iff.1 hl⟩
  · have hn : ("n", none, some 164, true) ∈ (SourceFile.sample asideUses).resolved take := by
      rw [htake]
      decide
    obtain ⟨u, d?, hu, _, hd, hl, _⟩ := exists_of_mem_resolved hn
    obtain rfl := Option.map_eq_none_iff.1 hd
    obtain ⟨b, hb, _⟩ := Option.map_eq_some_iff.1 hl
    exact ⟨take, u, b, houter (hfunctions ▸ .tail _ (.head _)), hu, hb⟩

end RouteCheck
