import RouteCheck.Proofs.Check.Routes
import RouteCheck.Proofs.Flow.Conditions
import RouteCheck.Proofs.Flow.Pieces
import RouteCheck.Proofs.Flow.WellFormed
import Mathlib.Algebra.GroupWithZero.Nat

/-!
How many points the exploration of a handler expands.

A state speaks of writes in the body: the last write is at one of their sites, and a result that is
kept is that of a write at one of them. Pieces lie apart, so that a site tells the piece, and with it
the variable that keeps the result. So `k` sites make at most `(k + 1) ^ 2` states for each block.

Main statements:
  1. `WriteCheck.among_of_mem_explored`: the states that are explored, by induction along the
     exploration.
  2. `Handler.site_mem_writeSites`: what a piece of the graph writes is a write in the body.
  3. `Handler.nodup_sites_kept`: results are kept of writes at different sites.
  4. `explored_bounded`: the loop ends, and expands no more points than that, each once.
-/

namespace RouteCheck
open Node

namespace WriteCheck

section
variable {w : WriteCheck} {g : Graph Node} {S : List Site} {K : List (String × Site)}
  (hg : g.Sound) (hjoins : ∀ e ∈ g.edges, e.target < g.size) (hK : ∀ p ∈ K, p.2 ∈ S)
  (hpieces : ∀ q ∈ g.pieces, w.Within (· ∈ S) (· ∈ K) q)
include hg hjoins hK hpieces

/-- Where the pieces of a graph write at some sites and keep some results, the explored states speak
of these. -/
theorem among_of_mem_explored {b : Nat} {s : FlowState} (hexplored : (b, s) ∈ w.explored g) :
    b < g.size ∧ Among (· ∈ S) (· ∈ K) s := by
  have hreach := (drains_explored hg).mem_iff.1 hexplored
  clear hexplored
  generalize hq : (b, s) = q at hreach
  induction hreach generalizing b s with
  | start h =>
    obtain ⟨rfl, rfl⟩ := Prod.mk.inj (hq.trans (List.mem_singleton.1 h))
    exact ⟨Nat.lt_trans Nat.one_pos hg.exit_lt, by simp, by simp⟩
  | @step p q hp hnext ih =>
    obtain ⟨-, hstate⟩ := ih rfl
    obtain ⟨e, he, htarget, hafter⟩ := (mem_next (b := p.1) (s := p.2) hg).1 (hq ▸ hnext)
    refine ⟨htarget ▸ hjoins e (List.mem_filter.1 he).1, hafter ▸ ?_⟩
    exact Among.run hK (fun e he => hpieces _ (subject_mem_pieces he)) hstate

/-- No more points are explored than blocks, last writes and kept results make. -/
theorem length_explored_le :
    (w.explored g).length ≤ g.size * ((S.length + 1) * (K.length + 1)) := by
  have hnodup : (w.explored g).Nodup := nodup_of_rounds (rounds_explored hg) .nil
  have hsub : w.explored g ⊆
      (List.range g.size).flatMap fun b => (statesAmong S K).map (b, ·) := by
    rintro ⟨b, s⟩ h
    obtain ⟨hb, hs⟩ := among_of_mem_explored hg hjoins hK hpieces h
    exact List.mem_flatMap.2 ⟨b, List.mem_range.2 hb, List.mem_map_of_mem (mem_statesAmong.2 hs)⟩
  refine Nat.le_trans (List.subperm_of_subset hnodup hsub).length_le (Nat.le_of_eq ?_)
  simp only [List.length_flatMap, List.length_map, length_statesAmong, List.map_const',
    List.length_range, List.sum_replicate_nat]

end
end WriteCheck

/-! ## The pieces of a handler -/

namespace Handler

/-- The sites of the writes in the body, function literals left out, each site once. -/
def writeSites (h : Handler) (w : WriteCheck) : List Site :=
  ((h.body.statements.flatMap w.writes).map Node.site).dedup

section
variable {p : Program} {h : Handler} (hp : p.Parsed) (hin : h.In p) {w : WriteCheck} {m m' q : Node}
include hp hin

theorem placed_body : h.body.Placed :=
  (hp.trees h.file hin.file).placed_of_mem_children hin.node (mem_children_of_field? hin.body)

theorem formed_body (hm : m ∈ h.body.all) : m.Formed :=
  (hp.trees h.file hin.file).formed m
    (mem_all_trans hm (mem_all_trans (mem_all_of_field? hin.body) hin.node))

theorem start_eq_of_site_eq (hm : m ∈ h.body.all) (hm' : m' ∈ h.body.all)
    (hsite : m.site = m'.site) : m.start = m'.start := by
  have hbelow {m : Node} (hm : m ∈ h.body.all) : m ∈ allOf h.file.tree.children := by
    have hnode := hin.node
    rw [all_eq] at hnode
    have hbody := mem_children_of_field? hin.body
    rcases List.mem_cons.1 hnode with hroot | hnode
    · exact mem_allOf.2 ⟨h.body, hroot ▸ hbody, hm⟩
    · obtain ⟨c, hc, hnode⟩ := mem_allOf.1 hnode
      exact mem_allOf.2 ⟨c, hc, mem_all_trans (mem_all_of_child hbody hm) hnode⟩
  exact (hp.trees h.file hin.file).sites m (hbelow hm) m' (hbelow hm') hsite

theorem parts_pieces : Parts h.body (fun _ => True) h.graph.pieces := by
  have hparts := Stmt.parts_ofBody (placed_body hp hin) fun m hm => formed_body hp hin hm
  have hperm := Sketch.perm_pieces_ofBody (Stmt.ofBody h.body)
  exact ⟨(hperm.symm.pairwise_iff Apart.symm).1 hparts.apart,
    fun q hq => hparts.below q (hperm.subset hq)⟩

theorem mem_all_of_mem_pieces (hq : q ∈ h.graph.pieces) : q ∈ h.body.all :=
  let ⟨_, hc, _, hout⟩ := (parts_pieces hp hin).below q hq
  mem_all_of_child hc hout.mem_all

/-- What a piece of the graph writes is a write in the body. -/
theorem site_mem_writeSites (hq : q ∈ h.graph.pieces) (hm : Outside q m)
    (hwrite : w.isWrite m = true) : m.site ∈ h.writeSites w := by
  have hbody := placed_body hp hin
  have hq : q ∈ Stmt.piecesAll (Stmt.ofBody h.body) := (Sketch.perm_pieces_ofBody _).subset hq
  rw [Stmt.ofBody, Stmt.piecesAll_map] at hq
  obtain ⟨s, hs, hq⟩ := List.mem_flatMap.1 hq
  have hmem : s ∈ h.body.all := Stmt.mem_all_of_mem_statements hs
  have hplaced : s.Placed := (hbody.within hmem).2.2
  have hspread := Stmt.spread_ofNode hplaced
    (fun c hc => formed_body hp hin (mem_all_trans hc hmem)) none
  have hwalk := mem_walk_of_outside hplaced (by simp [WriteCheck.kind_of_isWrite hwrite])
    ((hspread.outside q hq).trans hm)
  exact List.mem_dedup.2 (List.mem_map_of_mem
    (List.mem_flatMap.2 ⟨s, hs, List.mem_filter.2 ⟨hwalk, hwrite⟩⟩))

theorem site_mem_of_mem_kept {k : String × Site} (hk : k ∈ w.kept h.graph) :
    k.2 ∈ h.writeSites w := by
  obtain ⟨q, hq, hk⟩ := List.mem_filterMap.1 hk
  obtain ⟨m, hm, hwrite, hsite⟩ := WriteCheck.site_of_keeps? hk
  exact hsite ▸ site_mem_writeSites hp hin hq hm hwrite

/-- Results are kept of writes at different sites: writes in different pieces lie apart. -/
theorem nodup_sites_kept : ((w.kept h.graph).map Prod.snd).Nodup := by
  refine List.pairwise_map.2 (List.pairwise_filterMap.2 ?_)
  refine (parts_pieces hp hin).apart.imp_of_mem fun {q q'} hq hq' hapart k hk k' hk' heq => ?_
  obtain ⟨m, hm, -, hsite⟩ := WriteCheck.site_of_keeps? hk
  obtain ⟨m', hm', -, hsite'⟩ := WriteCheck.site_of_keeps? hk'
  have hqbody := mem_all_of_mem_pieces hp hin hq
  have hqbody' := mem_all_of_mem_pieces hp hin hq'
  have hbody := placed_body hp hin
  have hstart : m.start = m'.start :=
    start_eq_of_site_eq hp hin (mem_all_trans hm.mem_all hqbody)
      (mem_all_trans hm'.mem_all hqbody') (by rw [hsite, hsite', heq])
  obtain ⟨hlo, hhi, hplaced⟩ := (hbody.within hqbody).2.2.within hm.mem_all
  obtain ⟨hlo', hhi', hplaced'⟩ := (hbody.within hqbody').2.2.within hm'.mem_all
  have hlt := hplaced.nonempty
  have hlt' := hplaced'.nonempty
  have hparts : Apart m m' := hapart.within ⟨hlo, hhi⟩ ⟨hlo', hhi'⟩
  unfold Apart at hparts
  omega

theorem length_kept_le : (w.kept h.graph).length ≤ (h.writeSites w).length := by
  have hsub : (w.kept h.graph).map Prod.snd ⊆ h.writeSites w := fun x hx => by
    obtain ⟨k, hk, rfl⟩ := List.mem_map.1 hx
    exact site_mem_of_mem_kept hp hin hk
  have hle := (List.subperm_of_subset (nodup_sites_kept hp hin) hsub).length_le
  rwa [List.length_map] at hle

end
end Handler

/-- The loop over a handler comes to its end from wherever it has come so far. In the end it has
expanded no point twice, and for each block no more points than the last write and the kept result
of a state can make of the sites of the writes in the body. -/
theorem explored_bounded {p : Program} {h : Handler} (hp : p.Parsed) (hin : h.In p) (index : Index)
    (library : String) :
    let w : WriteCheck := ⟨h.typer index, library⟩
    (∀ c, Relation.ReflTransGen (Round (w.next h.graph)) ([(Graph.entry, {})], []) c →
      Relation.ReflTransGen (Round (w.next h.graph)) c ([], w.explored h.graph)) ∧
    (w.explored h.graph).Nodup ∧
    (w.explored h.graph).length ≤ h.graph.blocks.length * ((h.writeSites w).length + 1) ^ 2 := by
  intro w
  have hg : h.graph.Sound := Graph.sound_ofBody _
  have hrounds := WriteCheck.rounds_explored (w := w) hg
  refine ⟨fun c hc => ends_of_rounds hrounds hc, nodup_of_rounds hrounds .nil, ?_⟩
  have hjoins : ∀ e ∈ h.graph.edges, e.target < h.graph.size := fun e he =>
    ((Sketch.shaped_ofBody (Stmt.ofBody h.body)).joins e he).2.1
  have hwithin : ∀ q ∈ h.graph.pieces, w.Within (· ∈ h.writeSites w) (· ∈ w.kept h.graph) q :=
    fun q hq => ⟨fun m hm hwrite => Handler.site_mem_writeSites hp hin hq hm hwrite,
      fun k hk => List.mem_filterMap.2 ⟨q, hq, hk⟩⟩
  have hlength := WriteCheck.length_explored_le hg hjoins
    (fun k hk => Handler.site_mem_of_mem_kept hp hin hk) hwithin
  have hkept : (w.kept h.graph).length ≤ (h.writeSites w).length := Handler.length_kept_le hp hin
  refine Nat.le_trans hlength (Nat.mul_le_mul_left _ ?_)
  rw [Nat.pow_two]
  exact Nat.mul_le_mul_left _ (Nat.succ_le_succ hkept)

/-- A handler with a write in a loop, whose result is kept, and one after it. -/
def retrying : List String :=
  ["func retry(jc jape.Context) \x7b", "for i := 0; i < 3; i++ \x7b",
    "err := jc.Check(\"failed\", nil)", "if err == nil \x7b break \x7d \x7d", "jc.Encode(1) \x7d"]

/-- Nine blocks and two sites make at most 81 points, of which 12 are expanded. -/
theorem explored_bounded_retrying :
    ∃ sources p, ∃ h : Handler, Program.ofSources sources = .ok p ∧ h.In p ∧
      let w : WriteCheck := ⟨h.typer (.build p), "jape"⟩
      h.graph.blocks.length = 9 ∧ h.writeSites w = [(5, 8), (7, 1)] ∧
      (w.explored h.graph).length = 12 ∧
      (∀ c, Relation.ReflTransGen (Round (w.next h.graph)) ([(Graph.entry, {})], []) c →
        Relation.ReflTransGen (Round (w.next h.graph)) c ([], w.explored h.graph)) ∧
      (w.explored h.graph).Nodup ∧
      (w.explored h.graph).length ≤ h.graph.blocks.length * ((h.writeSites w).length + 1) ^ 2 := by
  have hfind : (((SourceFile.sample retrying).tree.all.find? (·.kind == .functionDeclaration)).bind
      fun func => (Handler.ofFunction? (.sample retrying) func)).map (fun h =>
        let w : WriteCheck := ⟨h.typer (.build ⟨[.sample retrying]⟩), "jape"⟩
        (h.graph.blocks.length, h.writeSites w, (w.explored h.graph).length)) =
          some (9, [(5, 8), (7, 1)], 12) := by
    simp only [retrying, SourceFile.sample_eq, SourceFile.chars, String.reduceToList]
    decide +kernel
  obtain ⟨h, hfind, hcounts⟩ := Option.map_eq_some_iff.1 hfind
  obtain ⟨func, hfunc, hhandler⟩ := Option.bind_eq_some_iff.1 hfind
  obtain ⟨hblocks, hcounts⟩ := Prod.mk.inj hcounts
  obtain ⟨hsites, hexplored⟩ := Prod.mk.inj hcounts
  have hp := Program.ofSources_sample retrying
  have hdecl : (⟨.sample retrying, func⟩ : Decl).In ⟨[.sample retrying]⟩ :=
    ⟨List.mem_singleton_self _, List.mem_of_find?_eq_some hfunc⟩
  have hin := hdecl.ofFunction? hhandler
  exact ⟨_, _, h, hp, hin, hblocks, hsites, hexplored,
    explored_bounded (Program.parsed_ofSources hp) hin _ _⟩

end RouteCheck
