import RouteCheck.Proofs.Flow.Steps

/-!
The shape of the graph of a body.

A walk through a graph takes both sides of a block that ends in a condition and every edge of
another block. That is right only where conditions have just these two sides and other blocks have
no sided edge. `Sketch.Shaped` says this of a graph that is still being laid out, in which a
condition may wait for its second side; every step of the layout keeps it.

Main statements:
  1. `Sketch.Shaped.step`, `Sketch.Shaped.steps`: one step and a whole layout.
  2. `Graph.wellFormed_ofBody`: the graph of every body is well formed.
-/

namespace RouteCheck

variable {α : Type}

/-- Edges join blocks, the entry has only outgoing edges, the exit is empty and has only incoming
ones, and a block is left on the two sides of its condition or, without a condition, always. -/
structure Graph.WellFormed (g : Graph α) : Prop where
  entry_exists : ∃ block, g.block? entry = some block
  joins : ∀ e ∈ g.edges,
    (∃ block, g.block? e.source = some block) ∧ ∃ block, g.block? e.target = some block
  into_entry : ∀ e ∈ g.edges, e.target ≠ entry
  exit_empty : g.block? exit = some { items := [], cond := none }
  out_of_exit : ∀ e ∈ g.edges, e.source ≠ exit
  sides : ∀ b block, g.block? b = some block → block.cond ≠ none →
    (g.out b).map Edge.branch = [.yes, .no]
  always : ∀ b block, g.block? b = some block → block.cond = none →
    ∀ e ∈ g.out b, e.branch = .always

namespace Sketch

open RouteCheck.Graph

/-! ## Steps keep the shape -/

/-- Edges join blocks and none leads to the entry. Blocks without a condition are left always,
those with one on its `yes` side and, unless that is still to come, on its `no` side. -/
structure Shaped (d : Sketch α) : Prop where
  joins : ∀ e ∈ d.graph.edges, e.source < d.graph.size ∧ Reaches d.graph e.target
  always : ∀ b, d.graph.cond b = none → ∀ e ∈ d.graph.out b, e.branch = .always
  sides : ∀ b, d.graph.cond b ≠ none →
    (d.graph.out b).map Edge.branch = if b ∈ d.half then [.yes] else [.yes, .no]
  cond : ∀ b ∈ d.half, d.graph.cond b ≠ none
  nodup : d.half.Nodup

section
variable {g : Graph α} {half : List Nat} {placed : List α} {b s t : Nat} {a : α} {is : List α}
  {branch : Branch}

/-- A new edge from one block to another joins blocks too. -/
theorem joins_edgeOn
    (h : ∀ e ∈ g.edges, e.source < g.size ∧ Reaches g e.target) (hs : s < g.size)
    (ht : Reaches g t) :
    ∀ e ∈ (g.edgeOn branch s t).edges,
      e.source < (g.edgeOn branch s t).size ∧ Reaches (g.edgeOn branch s t) e.target := by
  intro e he
  rcases List.mem_append.1 he with hold | hnew
  · exact h e hold
  · obtain rfl := List.mem_singleton.1 hnew
    exact ⟨hs, ht⟩

theorem joins_grow (h : ∀ e ∈ g.edges, e.source < g.size ∧ Reaches g e.target) :
    ∀ e ∈ g.grow.edges, e.source < g.grow.size ∧ Reaches g.grow e.target := by
  intro e he
  obtain ⟨hsource, htarget⟩ := h e he
  rw [size_grow]
  exact ⟨Nat.lt_succ_of_lt hsource, htarget.mono (by simp)⟩

theorem Shaped.grow (h : Shaped ⟨g, half, placed⟩) : Shaped ⟨g.grow, half, placed⟩ where
  joins := joins_grow h.joins
  always b hb := h.always b (by simpa using hb)
  sides b hb := h.sides b (by simpa using hb)
  cond b hb := by simpa using h.cond b hb
  nodup := h.nodup

theorem Shaped.push (h : Shaped ⟨g, half, placed⟩) :
    Shaped ⟨g.push b a, half, placed ++ [a]⟩ where
  joins e he := by
    obtain ⟨hsource, htarget⟩ := h.joins e he
    exact ⟨by simpa using hsource, htarget.mono (by simp)⟩
  always c hc := h.always c (by simpa using hc)
  sides c hc := h.sides c (by simpa using hc)
  cond c hc := by simpa using h.cond c hc
  nodup := h.nodup

theorem Shaped.edge (h : Shaped ⟨g, half, placed⟩) (hs : s < g.size) (hc : g.cond s = none)
    (ht : Reaches g t) : Shaped ⟨g.edge s t, half, placed⟩ where
  joins := joins_edgeOn h.joins hs ht
  always b hb e he := by
    rcases List.mem_append.1 (List.mem_filter.1 he).1 with hold | hnew
    · exact h.always b hb e (List.mem_filter.2 ⟨hold, (List.mem_filter.1 he).2⟩)
    · rw [List.mem_singleton.1 hnew]
  sides b hb := by
    have hne : b ≠ s := fun heq => hb (heq ▸ hc)
    show ((g.edge s t).out b).map Edge.branch = _
    rw [out_of_view (view_edge_of_ne hne)]
    exact h.sides b hb
  cond := h.cond
  nodup := h.nodup

/-- A block that gets a condition waits for its `no` side. -/
theorem Shaped.fork (h : Shaped ⟨g, half, placed⟩) (ho : Open g b is) :
    Shaped ⟨g.startBranch b none a, b :: half, placed ++ [a]⟩ := by
  have hself : (g.startBranch b none a).view b = (is ++ [], some a, [⟨b, g.size + 1, .yes⟩]) :=
    view_startBranch_self ho
  have hcond : (g.startBranch b none a).cond b = some a := congrArg (·.2.1) hself
  have hout : (g.startBranch b none a).out b = [⟨b, g.size + 1, .yes⟩] := congrArg (·.2.2) hself
  have hnew : b ∉ half := fun hb => h.cond b hb ho.cond
  exact
    { joins := by
        have hgrown := joins_grow (joins_grow h.joins)
        refine joins_edgeOn (g := ((g.pushAll b []).setCond b a).grow.grow)
          (fun e he => ?_) ?_ ?_
        · obtain ⟨hsource, htarget⟩ := hgrown e he
          exact ⟨by simpa using hsource, htarget.mono (by simp)⟩
        · have hlt := ho.lt
          simp only [size_grow, size_setCond, size_pushAll]
          omega
        · exact ⟨by simp, Nat.succ_ne_zero _⟩
      always := fun c hc => by
        have hne : c ≠ b := fun heq => by simp [heq, hcond] at hc
        rw [cond_of_view (view_startBranch_of_ne hne)] at hc
        rw [out_of_view (view_startBranch_of_ne hne)]
        exact h.always c hc
      sides := fun c hc => by
        by_cases heq : c = b
        · subst heq
          simp [hout]
        · rw [cond_of_view (view_startBranch_of_ne heq)] at hc
          show ((g.startBranch b none a).out c).map Edge.branch = _
          rw [out_of_view (view_startBranch_of_ne heq), h.sides c hc]
          simp [heq]
      cond := fun c hc => by
        rcases List.mem_cons.1 hc with rfl | hold
        · simp [hcond]
        · have hne : c ≠ b := fun heq => hnew (heq ▸ hold)
          rw [cond_of_view (view_startBranch_of_ne hne)]
          exact h.cond c hold
      nodup := List.nodup_cons.2 ⟨hnew, h.nodup⟩ }

theorem Shaped.close (h : Shaped ⟨g, b :: half, placed⟩) (ht : Reaches g t) :
    Shaped ⟨g.edgeOn .no b t, half, placed⟩ := by
  obtain ⟨hnew, hnodup⟩ := List.nodup_cons.1 h.nodup
  have hcond : g.cond b ≠ none := h.cond b List.mem_cons_self
  have hbranches : (g.out b).map Edge.branch = [.yes] := by
    rw [h.sides b hcond, if_pos List.mem_cons_self]
  have hlt : b < g.size := by
    obtain ⟨e, he, -⟩ := List.exists_of_mem_map (hbranches ▸ List.mem_singleton_self Branch.yes)
    obtain ⟨hedge, hsource⟩ := List.mem_filter.1 he
    exact beq_iff_eq.1 hsource ▸ (h.joins e hedge).1
  exact
    { joins := joins_edgeOn h.joins hlt ht
      always := fun c hc => by
        have hne : c ≠ b := fun heq => hcond (heq ▸ hc)
        rw [out_of_view (view_edgeOn_of_ne hne)]
        exact h.always c hc
      sides := fun c hc => by
        by_cases heq : c = b
        · subst heq
          have hself : (g.edgeOn .no c t).view c = _ := view_edgeOn_self rfl
          have hout : (g.edgeOn .no c t).out c = g.out c ++ [⟨c, t, .no⟩] := congrArg (·.2.2) hself
          rw [hout, List.map_append, hbranches, if_neg hnew]
          rfl
        · rw [out_of_view (view_edgeOn_of_ne heq), h.sides c hc]
          simp [heq]
      cond := fun c hc => h.cond c (List.mem_cons_of_mem _ hc)
      nodup := hnodup }

end

section
variable {d d' : Sketch α}

/-- Each step keeps the shape. -/
theorem Shaped.step (h : Shaped d) (hstep : Step d d') : Shaped d' := by
  cases hstep with
  | grow => exact h.grow
  | edge hs hc ht hentry => exact h.edge hs hc ⟨ht, hentry⟩
  | push a hb => exact h.push
  | fork a ho => exact h.fork ho
  | close ht hentry => exact h.close ⟨ht, hentry⟩

/-- A whole layout keeps the shape. -/
theorem Shaped.steps (h : Shaped d) (hsteps : Steps d d') : Shaped d' := by
  induction hsteps with
  | refl => exact h
  | tail _ hstep ih => exact ih.step hstep

theorem shaped_blank : Shaped (α := α) ⟨blank, [], []⟩ where
  joins e he := absurd he List.not_mem_nil
  always b _ e he := absurd he (by simp [blank, Graph.out])
  sides b hb := absurd (congrArg (·.2.1) (view_blank (α := α) b)) hb
  cond b hb := absurd hb List.not_mem_nil
  nodup := .nil

end

theorem shaped_ofBody (body : List (Stmt α)) :
    Shaped ⟨ofBody body, [], Stmt.piecesAll body⟩ :=
  shaped_blank.steps (steps_ofBody body)

end Sketch

/-! ## Every graph -/

namespace Graph

theorem exists_block?_iff {g : Graph α} {b : Nat} :
    (∃ block, g.block? b = some block) ↔ b < g.size := by
  constructor
  · rintro ⟨block, hblock⟩
    exact (List.getElem?_eq_some_iff.1 hblock).1
  · exact fun h => ⟨g.blocks[b], List.getElem?_eq_getElem h⟩

theorem cond_of_block? {g : Graph α} {b : Nat} {block : Block α} (h : g.block? b = some block) :
    g.cond b = block.cond := by
  rw [cond, blockAt, h]
  rfl

/-- The graph of every body is well formed, whatever jumps the body has and whether or not all of
it can be reached. -/
theorem wellFormed_ofBody (body : List (Stmt α)) : (ofBody body).WellFormed := by
  have hshape := Sketch.shaped_ofBody body
  obtain ⟨_, -, -, hexit, hsound⟩ := laid_ofBody body
  have hentry : entry < (ofBody body).size := Nat.lt_trans Nat.one_pos hsound.exit_lt
  exact
    { entry_exists := exists_block?_iff.2 hentry
      joins := fun e he => ⟨exists_block?_iff.2 (hshape.joins e he).1,
        exists_block?_iff.2 (hshape.joins e he).2.1⟩
      into_entry := fun e he => (hshape.joins e he).2.2
      exit_empty := by
        obtain ⟨block, hblock⟩ := exists_block?_iff.2 hsound.exit_lt
        have hitems : block.items = [] := by
          simpa [items, blockAt, hblock] using items_of_view hexit
        have hcond : block.cond = none := by
          rw [← cond_of_block? hblock]
          exact congrArg (·.2.1) hexit
        rw [hblock, ← hitems, ← hcond]
      out_of_exit := fun e he hsource => by
        have hout : (ofBody body).out exit = [] := congrArg (·.2.2) hexit
        have hmem : e ∈ (ofBody body).out exit := List.mem_filter.2 ⟨he, beq_iff_eq.2 hsource⟩
        exact absurd hmem (hout ▸ List.not_mem_nil)
      sides := fun b block hblock hcond => by
        rw [hshape.sides b (by rwa [cond_of_block? hblock])]
        rfl
      always := fun b block hblock hcond =>
        hshape.always b ((cond_of_block? hblock).trans hcond) }

end Graph
end RouteCheck
