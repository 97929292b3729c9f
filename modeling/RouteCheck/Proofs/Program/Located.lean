import RouteCheck.Proofs.Tree.Nodes
import RouteCheck.Program.Declarations
import Mathlib.Data.List.Nodup

/-!
Places in a program: files are told apart by their numbers, and nodes of a file by theirs.

Main statements:
  1. `map_id_label`: labelling a tree numbers its nodes in pre-order, without gaps.
  2. `numbered_ofSources`: in a program that was read from sources, files of one number are the
     same file, and nodes of one number in a file are the same node.
  3. `Index.located_build`: what the index of a program lists stands in a file of the program. By
     induction on the declarations; `Located.add` is the step.
-/

namespace RouteCheck

/-! ## Numbers of nodes -/

namespace Node

section
variable {source : String} {k : Nat} {n : Node}

@[simp] theorem start_label : (label source k n).1.start = n.start := by cases n; rfl
@[simp] theorem stop_label : (label source k n).1.stop = n.stop := by cases n; rfl
@[simp] theorem kind_label : (label source k n).1.kind = n.kind := by cases n; rfl
@[simp] theorem inField_label : (label source k n).1.inField = n.inField := by cases n; rfl

theorem kind_ofSource : (ofSource source).kind = .sourceFile := by
  rw [ofSource, kind_label, Reader.sourceFile]
  rfl

end

mutual
theorem label_next (source : String) : ∀ (k : Nat) (n : Node),
    (label source k n).2 = k + n.size
  | k, mk h cs => by
    rw [label, size]
    simp only [labels_next source (k + 1) cs]
    omega
theorem labels_next (source : String) : ∀ (k : Nat) (ns : List Node),
    (labels source k ns).2 = k + sizes ns
  | k, [] => rfl
  | k, c :: cs => by
    rw [labels, sizes]
    simp only [label_next source k c, labels_next source (k + c.size) cs]
    omega
end

mutual
/-- Labelling a tree from `k` on numbers its nodes `k`, `k + 1`, … in pre-order. -/
theorem map_id_label (source : String) : ∀ (k : Nat) (n : Node),
    (label source k n).1.all.map id = List.range' k n.size
  | k, mk h cs => by
    rw [label, size]
    simp only [all, List.map_cons, map_id_labels source (k + 1) cs]
    rw [List.range'_succ]
    rfl
theorem map_id_labels (source : String) : ∀ (k : Nat) (ns : List Node),
    (allOf (labels source k ns).1).map id = List.range' k (sizes ns)
  | k, [] => rfl
  | k, c :: cs => by
    rw [labels, sizes]
    simp only [allOf, List.map_append, label_next, map_id_label source k c,
      map_id_labels source (k + c.size) cs]
    rw [List.range'_append_1]
end

theorem nodup_ids_ofSource (source : String) : ((ofSource source).all.map id).Nodup := by
  unfold ofSource
  rw [map_id_label]
  exact List.nodup_range'

end Node

/-! ## Numbers of files -/

section
variable {α β ε : Type} {f : α → Except ε β}

theorem ok_of_mapM_eq_ok {as : List α} {bs : List β} (h : as.mapM f = .ok bs) :
    (∀ a ∈ as, ∃ b ∈ bs, f a = .ok b) ∧ ∀ b ∈ bs, ∃ a ∈ as, f a = .ok b := by
  induction as generalizing bs with
  | nil =>
    obtain rfl : [] = bs := by simpa [pure, Except.pure] using h
    simp
  | cons a as ih =>
    rw [List.mapM_cons] at h
    cases ha : f a with
    | error e => simp [ha, bind, Except.bind] at h
    | ok b =>
      cases has : as.mapM f with
      | error e => simp [ha, has, bind, Except.bind] at h
      | ok rest =>
        obtain rfl : b :: rest = bs := by
          simpa [ha, has, bind, Except.bind, pure, Except.pure] using h
        obtain ⟨hfrom, hto⟩ := ih has
        constructor
        · intro x hx
          rcases List.mem_cons.1 hx with rfl | hx
          · exact ⟨b, List.mem_cons_self, ha⟩
          · obtain ⟨y, hy, hxy⟩ := hfrom x hx
            exact ⟨y, List.mem_cons_of_mem _ hy, hxy⟩
        · intro y hy
          rcases List.mem_cons.1 hy with rfl | hy
          · exact ⟨a, List.mem_cons_self, ha⟩
          · obtain ⟨x, hx, hxy⟩ := hto y hy
            exact ⟨x, List.mem_cons_of_mem _ hx, hxy⟩

end

namespace Program

variable {p : Program}

/-- Files have different numbers, and so have the nodes of each file. -/
structure Numbered (p : Program) : Prop where
  files : ∀ f ∈ p.files, ∀ g ∈ p.files, f.index = g.index → f = g
  nodes : ∀ f ∈ p.files, (f.tree.all.map Node.id).Nodup

theorem Numbered.eq_of_id_eq (hp : p.Numbered) {f : SourceFile} (hf : f ∈ p.files) {m n : Node}
    (hm : m ∈ f.tree.all) (hn : n ∈ f.tree.all) (h : m.id = n.id) : m = n :=
  List.inj_on_of_nodup_map (hp.nodes f hf) hm hn h

theorem numbered_ofFiles {files : List SourceFile}
    (h : ∀ f ∈ files, (f.tree.all.map Node.id).Nodup) : (ofFiles files).Numbered := by
  constructor
  -- the number of a file is its place in the sorted list
  · intro f hf g hg heq
    obtain ⟨i, hi, rfl⟩ := List.mem_mapIdx.1 hf
    obtain ⟨j, hj, rfl⟩ := List.mem_mapIdx.1 hg
    obtain rfl : i = j := heq
    rfl
  · intro f hf
    obtain ⟨i, hi, rfl⟩ := List.mem_mapIdx.1 hf
    have hnodup := h _ (List.mem_mergeSort.1 (List.getElem_mem hi))
    exact hnodup

theorem nodup_ids_readSource {source : Path × String} {f : SourceFile}
    (h : readSource source = .ok f) : (f.tree.all.map Node.id).Nodup := by
  unfold readSource at h
  split at h
  · next g hread =>
    obtain rfl := Except.ok.inj h
    unfold SourceFile.read? at hread
    obtain ⟨_, _, rfl⟩ := Option.map_eq_some_iff.1 hread
    exact Node.nodup_ids_ofSource source.2
  · exact absurd h (by simp)

theorem exists_of_ofSources {sources : List (Path × String)} (h : ofSources sources = .ok p) :
    ∃ files, sources.mapM readSource = .ok files ∧ ofFiles files = p := by
  unfold ofSources at h
  cases hfiles : sources.mapM readSource with
  | error e => simp [hfiles, bind, Except.bind] at h
  | ok files =>
    refine ⟨files, rfl, ?_⟩
    simpa [hfiles, bind, Except.bind, pure, Except.pure] using h

/-- A program that was read from sources is numbered. -/
theorem numbered_ofSources {sources : List (Path × String)} (h : ofSources sources = .ok p) :
    p.Numbered := by
  obtain ⟨files, hfiles, rfl⟩ := exists_of_ofSources h
  refine numbered_ofFiles fun f hf => ?_
  obtain ⟨source, _, h⟩ := (ok_of_mapM_eq_ok hfiles).2 f hf
  exact nodup_ids_readSource h

/-- The files of a program that was read from sources are what is read of them, but numbered. -/
theorem read_of_mem_ofSources {sources : List (Path × String)} (h : ofSources sources = .ok p)
    {f : SourceFile} (hf : f ∈ p.files) : ∃ source ∈ sources, ∃ g i,
      SourceFile.read? source.1 source.2 = some g ∧ { g with index := i } = f := by
  obtain ⟨files, hfiles, rfl⟩ := exists_of_ofSources h
  obtain ⟨i, hi, rfl⟩ := List.mem_mapIdx.1 hf
  obtain ⟨source, hsource, hread⟩ :=
    (ok_of_mapM_eq_ok hfiles).2 _ (List.mem_mergeSort.1 (List.getElem_mem hi))
  unfold readSource at hread
  split at hread
  · next g hg => exact ⟨source, hsource, g, i, hg, by rw [Except.ok.inj hread]⟩
  · exact absurd hread (by simp)

theorem tree_of_mem_ofSources {sources : List (Path × String)} (h : ofSources sources = .ok p)
    {f : SourceFile} (hf : f ∈ p.files) : ∃ source ∈ sources, f.tree = Node.ofSource source.2 := by
  obtain ⟨source, hsource, g, i, hread, rfl⟩ := read_of_mem_ofSources h hf
  obtain ⟨_, _, rfl⟩ := Option.map_eq_some_iff.1 hread
  exact ⟨source, hsource, rfl⟩

/-! ## Packages -/

theorem mem_addToPackages {f g : SourceFile} {ps : List Package} {q : Package}
    (hq : q ∈ addToPackages f ps) (hg : g ∈ q.files) : g = f ∨ ∃ q' ∈ ps, g ∈ q'.files := by
  induction ps with
  | nil =>
    obtain rfl : q = ⟨f.path.parent, f.package, [f]⟩ := by simpa [addToPackages] using hq
    exact .inl (List.mem_singleton.1 hg)
  | cons q' ps ih =>
    unfold addToPackages at hq
    split at hq
    · rcases List.mem_cons.1 hq with rfl | hq
      · rcases List.mem_append.1 hg with hg | hg
        · exact .inr ⟨q', List.mem_cons_self, hg⟩
        · exact .inl (List.mem_singleton.1 hg)
      · exact .inr ⟨q, List.mem_cons_of_mem _ hq, hg⟩
    · rcases List.mem_cons.1 hq with rfl | hq
      · exact .inr ⟨q, List.mem_cons_self, hg⟩
      · rcases ih hq with h | ⟨r, hr, h⟩
        · exact .inl h
        · exact .inr ⟨r, List.mem_cons_of_mem _ hr, h⟩

theorem mem_files_of_mem_packages {q : Package} {f : SourceFile} (hq : q ∈ p.packages)
    (hf : f ∈ q.files) : f ∈ p.files := by
  have hfold (files : List SourceFile) (ps : List Package)
      (hq : q ∈ files.foldl (fun ps f => addToPackages f ps) ps) :
      f ∈ files ∨ ∃ q' ∈ ps, f ∈ q'.files := by
    induction files generalizing ps with
    | nil => exact .inr ⟨q, hq, hf⟩
    | cons g files ih =>
      rcases ih _ hq with h | ⟨q', hq', h⟩
      · exact .inl (List.mem_cons_of_mem _ h)
      · rcases mem_addToPackages hq' h with rfl | h
        · exact .inl List.mem_cons_self
        · exact .inr h
  rcases hfold p.files [] (List.mem_mergeSort.1 hq) with h | ⟨_, hmem, _⟩
  · exact h
  · exact absurd hmem List.not_mem_nil

end Program

/-! ## Declarations -/

/-- The declaration stands in a file of the program. -/
structure Decl.In (d : Decl) (p : Program) : Prop where
  file : d.file ∈ p.files
  node : d.node ∈ d.file.tree.all

/-- The functions and methods that the index lists stand in files of the program. -/
structure Index.Located (ix : Index) (p : Program) : Prop where
  functions : ∀ k, ∀ d ∈ ix.functions.getD k [], d.In p
  methods : ∀ k, ∀ m ∈ ix.methods.getD k [], m.2.In p

namespace Index

variable {p : Program} {ix : Index} {here : SourceFile} {package receiver name : String} {d : Decl}

theorem mem_getD_push {α : Type} {m : Std.HashMap Key (List α)} {k k' : Key} {x a : α}
    (h : a ∈ (push m k x).getD k' []) : a ∈ m.getD k' [] ∨ a = x := by
  unfold push at h
  rw [Std.HashMap.getD_insert] at h
  split at h
  · next heq =>
    obtain rfl : k = k' := by simpa using heq
    simpa using h
  · exact .inl h

/-- The step: a declaration that stands in the program leaves the index located. -/
theorem Located.add (hix : ix.Located p) {f : SourceFile} (hf : f ∈ p.files) {n : Node}
    (hn : n ∈ f.tree.all) {c : Declaration} (hc : c ∈ Declaration.ofNode f n) :
    (ix.add c).Located p := by
  unfold Declaration.ofNode at hc
  split at hc
  · obtain ⟨m, _, rfl⟩ : ∃ m, n.field? .name = some m ∧ .function m.text ⟨f, n⟩ = c := by
      simpa using hc
    refine ⟨fun k d hd => ?_, hix.methods⟩
    rcases mem_getD_push hd with hd | rfl
    · exact hix.functions k d hd
    · exact ⟨hf, hn⟩
  · split at hc
    · next m r _ _ =>
      obtain rfl := List.mem_singleton.1 hc
      refine ⟨hix.functions, fun k d hd => ?_⟩
      rcases mem_getD_push hd with hd | rfl
      · exact hix.methods k d hd
      · exact ⟨hf, hn⟩
    · exact absurd hc List.not_mem_nil
  · obtain ⟨s, _, hs⟩ := List.mem_filterMap.1 hc
    obtain ⟨m, _, rfl⟩ := Option.map_eq_some_iff.1 hs
    exact ⟨hix.functions, hix.methods⟩
  · obtain ⟨spec, _, hs⟩ := List.mem_flatMap.1 hc
    obtain ⟨i, _, rfl⟩ := List.mem_mapIdx.1 hs
    exact ⟨hix.functions, hix.methods⟩
  · obtain ⟨spec, _, hs⟩ := List.mem_flatMap.1 hc
    obtain ⟨i, _, rfl⟩ := List.mem_mapIdx.1 hs
    exact ⟨hix.functions, hix.methods⟩
  · exact absurd hc List.not_mem_nil

/-- What the index of a program lists stands in a file of the program. -/
theorem located_build (p : Program) : (build p).Located p := by
  have hfold (cs : List Declaration) (hcs : ∀ c ∈ cs, ∃ f ∈ p.files, ∃ n ∈ f.tree.all,
      c ∈ Declaration.ofNode f n) (ix : Index) (hix : ix.Located p) :
      (cs.foldl add ix).Located p := by
    induction cs generalizing ix with
    | nil => exact hix
    | cons c cs ih =>
      obtain ⟨f, hf, n, hn, hc⟩ := hcs c List.mem_cons_self
      exact ih (fun c hc => hcs c (List.mem_cons_of_mem _ hc)) _ (hix.add hf hn hc)
  refine hfold p.declarations (fun c hc => ?_) {} ⟨fun k d hd => ?_, fun k d hd => ?_⟩
  · obtain ⟨f, hf, hc⟩ := List.mem_flatMap.1 hc
    obtain ⟨n, hn, hc⟩ := List.mem_flatMap.1 hc
    exact ⟨f, hf, n, Node.mem_all_of_mem_named hn, hc⟩
  · simp at hd
  · simp at hd

theorem mem_of_pick {α : Type} {fileOf : α → SourceFile} {candidates : List α} {a : α}
    (h : pick here fileOf candidates = some a) : a ∈ candidates := by
  unfold pick at h
  rcases Option.or_eq_some_iff.1 h with h | ⟨_, h⟩
  · exact List.mem_of_find?_eq_some h
  · exact List.mem_of_mem_head? h

theorem Located.function? (hix : ix.Located p) (h : ix.function? here package name = some d) :
    d.In p :=
  hix.functions _ d (mem_of_pick h)

theorem Located.method? (hix : ix.Located p)
    (h : ix.method? here package receiver name = some d) : d.In p := by
  obtain ⟨m, hm, rfl⟩ := List.mem_map.1 (mem_of_pick h)
  exact hix.methods _ m (List.mem_filter.1 hm).1

theorem Located.uniqueMethod? (hix : ix.Located p)
    (h : ix.uniqueMethod? here package name = some d) : d.In p := by
  have hfound : ∀ d ∈ (ix.methods.getD (package, name) []).map (·.2), d.In p := by
    intro d hd
    obtain ⟨m, hm, rfl⟩ := List.mem_map.1 hd
    exact hix.methods _ m hm
  unfold Index.uniqueMethod? at h
  simp only at h
  split at h
  · next hfilter =>
    obtain rfl := Option.some.inj h
    exact hfound _ (List.mem_of_mem_filter (hfilter ▸ List.mem_singleton_self _))
  · next heq =>
    obtain rfl := Option.some.inj h
    exact hfound _ (heq ▸ List.mem_singleton_self _)
  · exact absurd h (by simp)

end Index

end RouteCheck
