import Mathlib.Data.List.Nodup
import RouteCheck.Check.Check
import RouteCheck.Proofs.Text.Order

/-!
The order in which sources are given.

A program keeps its files in the order of their paths, and whatever is found in it later is read
off that list. If no two paths have the same components, then only one list of the files is in that
order, and it is the same for every arrangement of the sources.

Main statements:
  1. `map_path_ofFiles`, `ascending_ofFiles`: the files of a program have the given paths, in
     strictly ascending order.
  2. `ofFiles_eq_of_perm`: files that are given in another order make the same program.
  3. `check_eq_of_perm`: so do sources, and the checks and inventories of both are the same.
-/

namespace RouteCheck

open scoped List

namespace Program

/-! ## Files in the order of their paths -/

/-- Files sorted by path, before they are numbered. -/
def sorted (files : List SourceFile) : List SourceFile :=
  files.mergeSort fun a b => (a.path.compare b.path).isLE

section
variable {files others : List SourceFile}

theorem ofFiles_eq (files : List SourceFile) :
    ofFiles files = ⟨(sorted files).mapIdx fun i f => { f with index := i }⟩ := rfl

theorem sorted_perm (files : List SourceFile) : (sorted files).Perm files :=
  List.mergeSort_perm files _

theorem pairwise_sorted (files : List SourceFile) :
    (sorted files).Pairwise fun a b => (a.path.compare b.path).isLE = true := by
  apply List.pairwise_mergeSort
  · intro a b c hab hbc
    exact Std.TransCmp.isLE_trans hab hbc
  · intro a b
    have hswap : b.path.compare a.path = (a.path.compare b.path).swap := Std.OrientedCmp.eq_swap
    rw [hswap]
    cases a.path.compare b.path <;> rfl

/-- Files whose paths compare equal are one file, if no two have the same components. -/
theorem eq_of_compare_eq (hdistinct : (files.map (·.path.components)).Nodup) {a b : SourceFile}
    (ha : a ∈ files) (hb : b ∈ files) (h : a.path.compare b.path = .eq) : a = b :=
  List.inj_on_of_nodup_map hdistinct ha hb (Path.compare_eq_iff.1 h)

/-- The sorted list does not depend on how the files were arranged. -/
theorem sorted_eq_of_perm (hperm : files.Perm others)
    (hdistinct : (files.map (·.path.components)).Nodup) : sorted files = sorted others := by
  have hsame : sorted files ~ sorted others :=
    calc
      sorted files
      _ ~ files := sorted_perm files
      _ ~ others := hperm
      _ ~ sorted others := (sorted_perm others).symm
  refine hsame.eq_of_pairwise ?_ (pairwise_sorted files) (pairwise_sorted others)
  intro a b ha hb hab hba
  have ha : a ∈ files := (sorted_perm files).mem_iff.1 ha
  have hb : b ∈ files := hperm.mem_iff.2 ((sorted_perm others).mem_iff.1 hb)
  exact eq_of_compare_eq hdistinct ha hb (Std.OrientedCmp.isLE_antisymm hab hba)

/-- Files that are given in another order make the same program. -/
theorem ofFiles_eq_of_perm (hperm : files.Perm others)
    (hdistinct : (files.map (·.path.components)).Nodup) : ofFiles files = ofFiles others := by
  rw [ofFiles_eq, ofFiles_eq, sorted_eq_of_perm hperm hdistinct]

/-- Numbering the files leaves their paths. -/
theorem map_path_ofFiles (files : List SourceFile) :
    (ofFiles files).files.map (·.path) = (sorted files).map (·.path) := by
  rw [ofFiles_eq]
  apply List.ext_getElem?
  intro i
  rw [List.getElem?_map, List.getElem?_mapIdx, List.getElem?_map, Option.map_map]
  rfl

/-- The paths of a program ascend, each before the next. -/
theorem ascending_ofFiles (hdistinct : (files.map (·.path.components)).Nodup) :
    ((ofFiles files).files.map (·.path)).Pairwise fun a b => a.compare b = .lt := by
  rw [map_path_ofFiles, List.pairwise_map]
  have hnodup : (sorted files).Nodup := (sorted_perm files).nodup_iff.2 hdistinct.of_map
  refine ((pairwise_sorted files).and hnodup).imp_of_mem ?_
  rintro a b ha hb ⟨hle, hne⟩
  have ha : a ∈ files := (sorted_perm files).mem_iff.1 ha
  have hb : b ∈ files := (sorted_perm files).mem_iff.1 hb
  cases hab : a.path.compare b.path with
  | lt => rfl
  | eq => exact absurd (eq_of_compare_eq hdistinct ha hb hab) hne
  | gt => simp [hab] at hle

end

/-! ## Reading sources -/

/-- The file that is read from a source. -/
def fileOf (source : Path × String) : SourceFile :=
  (SourceFile.read? source.1 source.2).getD default

section
variable {sources others : List (Path × String)}

theorem readSource_eq {source : Path × String} (h : (SourceKind.ofPath? source.1).isSome = true) :
    readSource source = .ok (fileOf source) ∧ (fileOf source).path = source.1 := by
  obtain ⟨kind, hkind⟩ := Option.isSome_iff_exists.1 h
  have hread : SourceFile.read? source.1 source.2 = some (fileOf source) := by
    rw [fileOf, SourceFile.read?, hkind]
    rfl
  constructor
  · unfold readSource
    rw [hread]
  · rw [fileOf, SourceFile.read?, hkind]
    rfl

theorem ofSources_eq (hgo : ∀ s ∈ sources, (SourceKind.ofPath? s.1).isSome = true) :
    ofSources sources = .ok (ofFiles (sources.map fileOf)) := by
  have hread : sources.mapM readSource = .ok (sources.map fileOf) := by
    induction sources with
    | nil => rfl
    | cons s rest ih =>
      have hs := (readSource_eq (hgo s List.mem_cons_self)).1
      have hrest := ih fun s hs => hgo s (List.mem_cons_of_mem _ hs)
      rw [List.mapM_cons, hs, hrest]
      rfl
  rw [ofSources, hread]
  rfl

theorem map_path_fileOf (hgo : ∀ s ∈ sources, (SourceKind.ofPath? s.1).isSome = true) :
    (sources.map fileOf).map (·.path) = sources.map (·.1) := by
  rw [List.map_map]
  apply List.map_congr_left
  intro s hs
  exact (readSource_eq (hgo s hs)).2

end

end Program

/-- Sources whose paths differ make the same program however they are arranged: its files have the
given paths in ascending order, and checks and inventories find the same in it. -/
theorem check_eq_of_perm {sources others : List (Path × String)}
    (hgo : ∀ s ∈ sources, (SourceKind.ofPath? s.1).isSome = true)
    (hdistinct : sources.Pairwise fun s s' => s.1.components ≠ s'.1.components)
    (hperm : sources.Perm others) :
    ∃ p p', Program.ofSources sources = .ok p ∧ Program.ofSources others = .ok p' ∧
      p'.files = p.files ∧
      (p.files.map (·.path)).Perm (sources.map (·.1)) ∧
      (p.files.map (·.path)).Pairwise (fun a b => a.compare b = .lt) ∧
      ∀ config, checkProgram p' config = checkProgram p config ∧
        inventory p' config = inventory p config := by
  have hgo' : ∀ s ∈ others, (SourceKind.ofPath? s.1).isSome = true := by
    intro s hs
    exact hgo s (hperm.mem_iff.2 hs)
  have hpaths := Program.map_path_fileOf hgo
  have hfiles : ((sources.map Program.fileOf).map (·.path.components)).Nodup := by
    have hcomponents := congrArg (List.map Path.components) hpaths
    simp only [List.map_map, Function.comp_def] at hcomponents ⊢
    rw [hcomponents]
    exact List.pairwise_map.2 hdistinct
  have hsame := Program.ofFiles_eq_of_perm (hperm.map Program.fileOf) hfiles
  refine ⟨_, _, Program.ofSources_eq hgo, Program.ofSources_eq hgo', ?_, ?_, ?_, ?_⟩
  · rw [hsame]
  · rw [Program.map_path_ofFiles, ← hpaths]
    exact (Program.sorted_perm _).map _
  · exact Program.ascending_ofFiles hfiles
  · intro config
    rw [hsame]
    exact ⟨rfl, rfl⟩

/-- Two sources whose paths are in another order by components than as texts. -/
def dashed : List (Path × String) :=
  [(⟨"a-b/c.go"⟩, "package c"), (⟨"a/b.go"⟩, "package b")]

/-- Both arrangements of the two sources make one program, with the file in `a` first. -/
theorem check_eq_of_perm_dashed :
    ∃ p p', Program.ofSources dashed = .ok p ∧ Program.ofSources dashed.reverse = .ok p' ∧
      p'.files = p.files ∧ p.files.map (·.path) = [⟨"a/b.go"⟩, ⟨"a-b/c.go"⟩] ∧
      ∀ config, checkProgram p' config = checkProgram p config ∧
        inventory p' config = inventory p config := by
  have hgo : ∀ s ∈ dashed, (SourceKind.ofPath? s.1).isSome = true := by decide
  have hdistinct : dashed.Pairwise fun s s' => s.1.components ≠ s'.1.components := by decide
  obtain ⟨p, p', hp, hp', hfiles, hpaths, hascending, hcheck⟩ :=
    check_eq_of_perm hgo hdistinct (List.reverse_perm dashed).symm
  refine ⟨p, p', hp, hp', hfiles, ?_, hcheck⟩
  have hswapped : (p.files.map (·.path)).Perm [⟨"a/b.go"⟩, ⟨"a-b/c.go"⟩] :=
    hpaths.trans (.swap _ _ [])
  refine hswapped.eq_of_pairwise ?_ hascending (by decide)
  intro a b _ _ hab hba
  exact absurd hba (Std.OrientedCmp.not_lt_of_lt hab)

end RouteCheck
