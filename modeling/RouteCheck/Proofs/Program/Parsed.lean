import RouteCheck.Proofs.Check.SourceOrder
import RouteCheck.Proofs.Program.Sample
import RouteCheck.Proofs.Tree.Texts

/-!
Programs that are made of the trees of source files.

`Program.Parsed` names what is used of a program: what its trees are like, that its files are told
apart by their numbers, and that they are in path order. Sources are read into such a program
(`Program.parsed_ofSources`).
-/

namespace RouteCheck.Program

/-- The program is made of source files in path order. -/
structure Parsed (p : Program) : Prop where
  trees : ∀ f ∈ p.files, f.tree.SourceTree
  packages : ∀ f ∈ p.files, f.package = SourceFile.packageOf f.tree
  indices : ∀ f ∈ p.files, ∀ g ∈ p.files, f.index = g.index → f = g
  order : p.files.Pairwise fun f g => (f.path.compare g.path).isLE = true ∧ f ≠ g

variable {p : Program}

theorem Parsed.numbered (hp : p.Parsed) : p.Numbered :=
  ⟨hp.indices, fun f hf => (hp.trees f hf).ids⟩

theorem pairwise_ofFiles (files : List SourceFile) : (ofFiles files).files.Pairwise fun f g =>
    (f.path.compare g.path).isLE = true ∧ f ≠ g := by
  have hpaths := pairwise_sorted files
  rw [ofFiles_eq, List.pairwise_iff_getElem] at *
  intro i j hi hj hij
  simp only [List.length_mapIdx] at hi hj
  simp only [List.getElem_mapIdx]
  refine ⟨hpaths i j hi hj hij, fun heq => ?_⟩
  exact absurd (congrArg SourceFile.index heq) (Nat.ne_of_lt hij)

/-- Sources are read into source files. -/
theorem parsed_ofSources {sources : List (Path × String)} (h : ofSources sources = .ok p) :
    p.Parsed where
  trees f hf := by
    obtain ⟨source, _, htree⟩ := tree_of_mem_ofSources h hf
    exact htree ▸ Node.sourceTree_ofSource source.2
  packages f hf := by
    obtain ⟨source, _, g, i, hread, rfl⟩ := read_of_mem_ofSources h hf
    obtain ⟨_, _, rfl⟩ := Option.map_eq_some_iff.1 hread
    rfl
  indices := (numbered_ofSources h).files
  order := by
    obtain ⟨files, _, rfl⟩ := exists_of_ofSources h
    exact pairwise_ofFiles files

theorem parsed_sample (lines : List String) : Parsed ⟨[.sample lines]⟩ :=
  parsed_ofSources (ofSources_sample lines)

end RouteCheck.Program
