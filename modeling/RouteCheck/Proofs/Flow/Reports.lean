import Mathlib.Data.List.Dedup
import RouteCheck.Flow.Writes
import RouteCheck.Proofs.Flow.Layout
import RouteCheck.Proofs.Flow.Worklist
import RouteCheck.Proofs.Tree.Apart

/-!
What is reported for a handler, seen along walks.

`run` threads a state through everything that is evaluated on a walk. A point, a block with a
state, can be explored just if some walk leads to the block in that state, so the reports of the
explored points are the reports along all walks.

There are infinitely many walks, but only finitely many points. The last write of a state and the
write whose result is kept stand in some piece of the graph, outside the function literals in it;
this is kept by every step (`Among.react`). So `bound` is fuel enough.

Main statements:
  1. `reachable_iff`: the points that can be explored are those that walks lead to.
  2. `rounds_explored`: the exploration comes to its end.
  3. `mem_checkHandler_iff_trace`: what is reported, whatever the order of exploration.
-/

namespace RouteCheck

open Event

namespace WriteCheck

variable (w : WriteCheck)

/-! ## Threading a state along a walk -/

/-- Evaluate a piece, or a condition that is left on one side. -/
def react : Event Node → FlowState → List Diagnostic × FlowState
  | .piece n, s => w.item n s
  | .test c side, s =>
    let (notes, yes, no) := w.branch c s
    (notes, match side with
      | .always => s
      | .yes => yes
      | .no => no)

/-- Evaluate in order. -/
def run : List (Event Node) → FlowState → List Diagnostic × FlowState
  | [], s => ([], s)
  | e :: es, s =>
    let (notes, s) := w.react e s
    let (more, s) := run es s
    (notes ++ more, s)

@[simp] theorem run_nil (s : FlowState) : w.run [] s = ([], s) := rfl

theorem run_cons (e : Event Node) (es : List (Event Node)) (s : FlowState) :
    w.run (e :: es) s = ((w.react e s).1 ++ (w.run es (w.react e s).2).1,
      (w.run es (w.react e s).2).2) := rfl

theorem run_append (es fs : List (Event Node)) (s : FlowState) :
    w.run (es ++ fs) s = ((w.run es s).1 ++ (w.run fs (w.run es s).2).1,
      (w.run fs (w.run es s).2).2) := by
  induction es generalizing s with
  | nil => rfl
  | cons e es ih => simp only [List.cons_append, run_cons, ih, List.append_assoc]

theorem run_evals (ns : List Node) (s : FlowState) : w.run (evals ns) s = w.items ns s := by
  induction ns generalizing s with
  | nil => rfl
  | cons n ns ih =>
    show w.run (.piece n :: evals ns) s = _
    rw [run_cons, ih]
    rfl

/-- The state in which a block is left on one side. -/
def after (b : Block Node) (side : Branch) (s : FlowState) : FlowState :=
  match side with
  | .always => (w.block b s).2.1
  | .yes => (w.block b s).2.2.1
  | .no => (w.block b s).2.2.2

theorem run_events (g : Graph Node) (b : Nat) (side : Branch) (s : FlowState) :
    w.run (g.events b side) s = ((w.block (g.blockAt b) s).1, w.after (g.blockAt b) side s) := by
  have hevents : g.events b side =
      evals (g.blockAt b).items ++ (g.blockAt b).cond.toList.map (.test · side) := rfl
  rw [hevents, run_append, run_evals]
  cases hcond : (g.blockAt b).cond with
  | none => cases side <;> simp [block, after, hcond]
  | some c => cases side <;> simp [block, after, hcond, run_cons, react]

variable {w} {g : Graph Node} {b c : Nat} {s t : FlowState}

theorem notes_eq (side : Branch) : w.notes g (b, s) = (w.run (g.events b side) s).1 := by
  rw [run_events, notes, Graph.blockAt]
  cases g.block? b <;> rfl

theorem mem_next (hg : g.Sound) :
    (c, t) ∈ w.next g (b, s) ↔ ∃ e ∈ g.out b, c = e.target ∧
      t = (w.run (g.events b e.branch) s).2 := by
  simp only [run_events, next, Graph.blockAt]
  cases hblock : g.block? b with
  | none =>
    have hout : g.out b = [] := hg.out b (List.getElem?_eq_none_iff.1 hblock)
    simp [hout]
  | some k =>
    simp only [List.mem_map, Prod.mk.injEq, Option.getD_some, eq_comm]
    rfl

/-! ## Points and walks -/

theorem walk_snoc {a : Nat} {es : List (Event Node)} {e : Edge} (h : g.Walk a es b)
    (he : e ∈ g.out b) : g.Walk a (es ++ g.events b e.branch) e.target := by
  induction h with
  | here b => simpa using Graph.Walk.step he (.here e.target)
  | step he' _ ih =>
    rw [List.append_assoc]
    exact .step he' (ih he)

theorem reachable_of_walk (hg : g.Sound) {es : List (Event Node)} (h : g.Walk b es c)
    {start : List Point} (hb : Reachable (w.next g) start (b, s)) :
    Reachable (w.next g) start (c, (w.run es s).2) := by
  induction h generalizing s with
  | here b => exact hb
  | step he _ ih =>
    rw [run_append]
    exact ih (.step hb ((mem_next hg).2 ⟨_, he, rfl, rfl⟩))

/-- The points that can be explored are those that walks from the entry lead to. -/
theorem reachable_iff (hg : g.Sound) :
    Reachable (w.next g) [(Graph.entry, {})] (b, s) ↔
      ∃ es, g.Walk Graph.entry es b ∧ s = (w.run es {}).2 := by
  constructor
  · intro h
    -- the induction passes other points, each with a walk of its own
    generalize hp : (b, s) = p at h
    induction h generalizing b s with
    | start h =>
      rw [← hp, List.mem_singleton, Prod.mk.injEq] at h
      obtain ⟨rfl, rfl⟩ := h
      exact ⟨[], .here _, rfl⟩
    | @step p q _ hnext ih =>
      obtain ⟨es, hw, hs⟩ := ih rfl
      obtain ⟨e, he, rfl, rfl⟩ := (mem_next hg).1 (hp ▸ hnext)
      refine ⟨es ++ g.events p.1 e.branch, walk_snoc hw he, ?_⟩
      rw [run_append, ← hs]
  · rintro ⟨es, hw, rfl⟩
    exact reachable_of_walk hg hw (.start List.mem_cons_self)

/-- What is reported on a walk is reported at some point that it passes. -/
theorem mem_run_walk {es : List (Event Node)} {d : Diagnostic} (h : g.Walk b es c)
    (hd : d ∈ (w.run es s).1) :
    ∃ fs b', g.Walk b fs b' ∧ d ∈ w.notes g (b', (w.run fs s).2) := by
  induction h generalizing s with
  | here => simp at hd
  | @step b c es e he _ ih =>
    rw [run_append] at hd
    rcases List.mem_append.1 hd with hd | hd
    · exact ⟨[], b, .here b, by rwa [notes_eq e.branch]⟩
    · obtain ⟨fs, b', hw, hd⟩ := ih hd
      exact ⟨_, b', .step he hw, by rwa [run_append]⟩

/-- The reports at the points that can be explored are the reports along all walks. -/
theorem exists_reachable_iff_trace (hg : g.Sound) {d : Diagnostic} :
    (∃ p, Reachable (w.next g) [(Graph.entry, {})] p ∧ d ∈ w.notes g p) ↔
      ∃ es b, g.Trace es b ∧ d ∈ (w.run es {}).1 := by
  constructor
  · rintro ⟨⟨b, s⟩, hp, hd⟩
    obtain ⟨es, hw, rfl⟩ := (reachable_iff hg).1 hp
    refine ⟨es ++ g.events b .always, b, ⟨es, .always, hw, rfl⟩, ?_⟩
    rw [run_append, ← notes_eq]
    exact List.mem_append_right _ hd
  · rintro ⟨_, b, ⟨es, side, hw, rfl⟩, hd⟩
    rw [run_append] at hd
    rcases List.mem_append.1 hd with hd | hd
    · obtain ⟨fs, b', hw', hd⟩ := mem_run_walk hw hd
      exact ⟨_, (reachable_iff hg).2 ⟨fs, hw', rfl⟩, hd⟩
    · rw [← notes_eq] at hd
      exact ⟨_, (reachable_iff hg).2 ⟨es, hw, rfl⟩, hd⟩

/-! ## Finitely many states -/

theorem record_state (calls : List Node) (s : FlowState) :
    (w.record calls s).2 = { s with wrote := (calls.getLast?.map Node.site).or s.wrote } := by
  induction calls generalizing s with
  | nil => rfl
  | cons c calls ih =>
    show (w.record calls { s with wrote := some c.site }).2 = _
    rw [ih]
    cases calls with
    | nil => rfl
    | cons d calls => rw [List.getLast?_cons_cons, List.getLast?_eq_some_getLast (by simp)]; rfl

/-- The result that an item keeps, by variable and write. -/
def keeps? (w : WriteCheck) (n : Node) : Option (String × Site) :=
  if n.kind = .shortVarDeclaration || n.kind = .assignmentStatement then
    match n.field? .left, n.field? .right with
    | some left, some right =>
      (w.keptWrite? left.expressions right.expressions).map fun (var, call) => (var, call.site)
    | _, _ => none
  else none

def sites (g : Graph Node) : List Site := (g.pieces.flatMap Node.all).map Node.site

def kept (w : WriteCheck) (g : Graph Node) : List (String × Site) := g.pieces.filterMap w.keeps?

/-- The writes that the state speaks of stand in pieces of the graph, and the pending result is
one that a piece keeps. -/
structure Confined (w : WriteCheck) (g : Graph Node) (s : FlowState) : Prop where
  wrote : ∀ x, s.wrote = some x → x ∈ sites g
  pending : ∀ p, s.pending = some p → p ∈ w.kept g

theorem keptWrite?_eq_some {names values : List Node} {var : String} {call : Node}
    (h : w.keptWrite? names values = some (var, call)) :
    ∃ name value, names = [name] ∧ values = [value] ∧ name.kind = .identifier ∧
      name.text = var ∧ w.isWrite call = true ∧ call = value.unparen := by
  unfold keptWrite? at h
  split at h
  · next name value =>
    split at h
    · next hc =>
      simp only [Bool.and_eq_true, decide_eq_true_eq] at hc
      simp only [Option.some.injEq, Prod.mk.injEq] at h
      obtain ⟨rfl, rfl⟩ := h
      exact ⟨name, value, rfl, rfl, hc.1.1, rfl, hc.2, rfl⟩
    · simp at h
  · simp at h

/-- The last write of the state is at a site of `S`, and the pending result is one of `K`. -/
structure Among (S : Site → Prop) (K : String × Site → Prop) (s : FlowState) : Prop where
  wrote : ∀ x, s.wrote = some x → S x
  pending : ∀ p, s.pending = some p → K p

/-- The writes of the piece `n` are at sites of `S`, and the result that it keeps is one of `K`. -/
structure Within (w : WriteCheck) (S : Site → Prop) (K : String × Site → Prop) (n : Node) :
    Prop where
  site : ∀ m, Node.Outside n m → w.isWrite m = true → S m.site
  kept : ∀ p, w.keeps? n = some p → K p

/-- The result that an item keeps is that of a write in it. -/
theorem site_of_keeps? {n : Node} {p : String × Site} (hp : w.keeps? n = some p) :
    ∃ m, Node.Outside n m ∧ w.isWrite m = true ∧ m.site = p.2 := by
  unfold keeps? at hp
  split at hp
  · next hkind =>
    split at hp
    · next left right _ hright =>
      obtain ⟨⟨var, call⟩, hkept, rfl⟩ := Option.map_eq_some_iff.1 hp
      obtain ⟨_, value, -, hvalues, -, -, hwrite, rfl⟩ := keptWrite?_eq_some hkept
      have hvalue : value ∈ right.expressions := hvalues ▸ List.mem_cons_self
      have hliteral : n.kind ≠ .funcLiteral := by
        intro h
        simp [h] at hkind
      refine ⟨_, ?_, hwrite, rfl⟩
      exact (Node.outside_of_field? hliteral hright).trans
        ((Node.outside_of_mem_expressions hvalue).trans (Node.outside_unparen value))
    · simp at hp
  · simp at hp

section
variable {S : Site → Prop} {K : String × Site → Prop}

theorem Within.of_writes {m n : Node} (h : w.Within S K n) (hm : Node.Outside n m) :
    ∀ c ∈ w.writes m, S c.site := fun c hc =>
  h.site c (hm.trans (Node.outside_of_mem_walk (List.mem_filter.1 hc).1)) (List.mem_filter.1 hc).2

theorem Among.record (h : Among S K s) {calls : List Node} (hcalls : ∀ m ∈ calls, S m.site) :
    Among S K (w.record calls s).2 := by
  rw [record_state]
  refine ⟨fun x hx => ?_, h.pending⟩
  cases hlast : calls.getLast? with
  | none => exact h.wrote x (by simpa [hlast] using hx)
  | some c =>
    obtain rfl : c.site = x := by simpa [hlast] using hx
    exact hcalls c (List.mem_of_getLast? hlast)

theorem Among.drop (h : Among S K s) : Among S K { s with pending := none } :=
  ⟨h.wrote, by simp⟩

theorem Among.item {n : Node} (hn : w.Within S K n) (h : Among S K s) :
    Among S K (w.item n s).2 := by
  unfold WriteCheck.item
  split
  · next hkind =>
    split
    · next left right hleft hright =>
      have hliteral : n.kind ≠ .funcLiteral := by
        intro h
        simp [h] at hkind
      unfold assign
      simp only
      split
      · next var call hkept =>
        refine ⟨h.wrote, fun p hp => ?_⟩
        obtain rfl : (var, call.site) = p := by simpa using hp
        exact hn.kept _ (by simp [keeps?, hkind, hleft, hright, hkept])
      · have hrecord := h.record (w := w) (hn.of_writes (Node.outside_of_field? hliteral hright))
        split
        · exact hrecord.drop
        · exact hrecord
    · exact h
  · exact h.record (hn.of_writes (.self n))

theorem outside_of_mem_flatten {l c : Node} (h : l ∈ (flatten c).2) : Node.Outside c l := by
  fun_induction flatten c with
  | case1 c op left right hleft hright hop ops₁ leaves₁ hl ops₂ leaves₂ hr ih₁ ih₂ =>
    have hliteral : c.unparen.kind ≠ .funcLiteral := by
      intro h
      simp [connective?, h] at hop
    refine (Node.outside_unparen c).trans ?_
    rcases List.mem_append.1 h with h | h
    · exact (Node.outside_of_field? hliteral hleft).trans (ih₁ (by rw [hl]; exact h))
    · exact (Node.outside_of_field? hliteral hright).trans (ih₂ (by rw [hr]; exact h))
  | case2 c =>
    obtain rfl := List.mem_singleton.1 h
    exact Node.outside_unparen c

theorem outside_of_nilSubject? {leaf subject : Node} {equal : Bool}
    (h : nilSubject? leaf = some (equal, subject)) : Node.Outside leaf subject := by
  unfold nilSubject? at h
  split at h
  · next hkind =>
    have hside {f : Field} {m : Node} (hm : leaf.field? f = some m) :
        Node.Outside leaf m.unparen :=
      (Node.outside_of_field? (by simp [hkind]) hm).trans (Node.outside_unparen m)
    have hoperand (eq : Bool) (h : ((leaf.field? .left).bind fun l => (leaf.field? .right).bind
        fun r => if r.unparen.kind = .nilLiteral then some (eq, l.unparen)
          else if l.unparen.kind = .nilLiteral then some (eq, r.unparen)
          else none) = some (equal, subject)) : Node.Outside leaf subject := by
      simp only [Option.bind_eq_some_iff] at h
      obtain ⟨l, hl, r, hr, h⟩ := h
      split at h
      · simp only [Option.some.injEq, Prod.mk.injEq] at h
        exact h.2 ▸ hside hl
      · split at h
        · simp only [Option.some.injEq, Prod.mk.injEq] at h
          exact h.2 ▸ hside hr
        · simp at h
    obtain ⟨op, -, h⟩ := Option.bind_eq_some_iff.1 h
    split at h
    · exact hoperand true h
    · split at h
      · exact hoperand false h
      · simp at h
  · simp at h

end

/-- A nil check is about a write that the leaf itself makes or about the pending result. -/
theorem nilCheck?_cases {leaf : Node} {check : NilCheck} (h : w.nilCheck? leaf s = some check) :
    ∃ equal subject, nilSubject? leaf = some (equal, subject) ∧ check.equal = equal ∧
      ((w.isWrite subject = true ∧ check.site = subject.site) ∨
       (w.isWrite subject = false ∧ s.pending = some (subject.text, check.site) ∧
        subject.kind = .identifier)) := by
  unfold nilCheck? at h
  simp only [bind, Option.bind_eq_some_iff] at h
  obtain ⟨⟨equal, subject⟩, hsubject, h⟩ := h
  refine ⟨equal, subject, hsubject, ?_⟩
  simp only at h
  split at h
  · next hwrite =>
    obtain rfl : (⟨equal, subject.site⟩ : NilCheck) = check := by simpa using h
    exact ⟨rfl, .inl ⟨hwrite, rfl⟩⟩
  · next hwrite =>
    simp only [Option.bind_eq_some_iff] at h
    obtain ⟨⟨var, site⟩, hp, h⟩ := h
    simp only at h
    split at h
    · next hc =>
      simp only [Bool.and_eq_true, decide_eq_true_eq, beq_iff_eq] at hc
      obtain rfl : (⟨equal, site⟩ : NilCheck) = check := by simpa using h
      exact ⟨rfl, .inr ⟨by simpa using hwrite, by rw [hp, hc.2], hc.1⟩⟩
    · simp at h

section
variable {S : Site → Prop} {K : String × Site → Prop} (hK : ∀ p, K p → S p.2)
include hK

theorem Among.leaves {n : Node} {leaves : List Node} (hn : w.Within S K n)
    (hleaves : ∀ l ∈ leaves, Node.Outside n l) (h : Among S K s) :
    Among S K (w.leaves leaves s).state ∧ ∀ check ∈ (w.leaves leaves s).checks, S check.site := by
  induction leaves generalizing s with
  | nil => exact ⟨h, by simp [WriteCheck.leaves]⟩
  | cons leaf rest ih =>
    obtain ⟨hleaf, hrest⟩ := List.forall_mem_cons.1 hleaves
    simp only [WriteCheck.leaves]
    split
    · next check hcheck =>
      refine ⟨(ih hrest h).1, fun c hc => ?_⟩
      rcases List.mem_cons.1 hc with rfl | hc
      · obtain ⟨_, subject, hsubject, -, ⟨hwrite, hsite⟩ | ⟨-, hp, -⟩⟩ := nilCheck?_cases hcheck
        · rw [hsite]
          exact hn.site subject (hleaf.trans (outside_of_nilSubject? hsubject)) hwrite
        · exact hK _ (h.pending _ hp)
      · exact (ih hrest h).2 c hc
    · exact ih hrest (h.record (hn.of_writes hleaf))

theorem Among.branch {c : Node} (hc : w.Within S K c) (h : Among S K s) :
    Among S K (w.branch c s).2.1 ∧ Among S K (w.branch c s).2.2 := by
  obtain ⟨hstate, hchecks⟩ := h.leaves hK hc fun _ => outside_of_mem_flatten
  simp only [WriteCheck.branch]
  split
  · exact ⟨hstate, hstate⟩
  · next first _ heq =>
    have hfirst : Among S K { wrote := some first.site } :=
      ⟨fun x hx => by
        obtain rfl : first.site = x := by simpa using hx
        exact hchecks first (heq ▸ List.mem_cons_self), by simp⟩
    split
    · exact ⟨hstate.drop, hfirst⟩
    · split
      · exact ⟨hfirst, hstate.drop⟩
      · exact ⟨hstate.drop, hstate.drop⟩

/-- The step: evaluating a piece leaves the state with writes and results of these. -/
theorem Among.react {e : Event Node} (he : w.Within S K e.subject) (h : Among S K s) :
    Among S K (w.react e s).2 := by
  cases e with
  | piece n => exact h.item he
  | test c side =>
    cases side with
    | always => exact h
    | yes => exact (h.branch hK he).1
    | no => exact (h.branch hK he).2

theorem Among.run {es : List (Event Node)} (hes : ∀ e ∈ es, w.Within S K e.subject)
    (h : Among S K s) : Among S K (w.run es s).2 := by
  induction es generalizing s with
  | nil => exact h
  | cons e es ih =>
    obtain ⟨he, hes⟩ := List.forall_mem_cons.1 hes
    exact ih hes (h.react hK he)

end

theorem within_of_mem_pieces {n : Node} (hn : n ∈ g.pieces) :
    w.Within (· ∈ sites g) (· ∈ w.kept g) n where
  site _ hm _ := List.mem_map_of_mem (List.mem_flatMap.2 ⟨n, hn, hm.mem_all⟩)
  kept _ hp := List.mem_filterMap.2 ⟨n, hn, hp⟩

/-- Evaluating pieces of the graph keeps the state confined. -/
theorem Confined.run {es : List (Event Node)} (hes : ∀ e ∈ es, e.subject ∈ g.pieces)
    (h : w.Confined g s) : w.Confined g (w.run es s).2 := by
  have hkept : ∀ p ∈ w.kept g, p.2 ∈ sites g := by
    intro p hp
    obtain ⟨n, hn, hp⟩ := List.mem_filterMap.1 hp
    obtain ⟨m, hm, hwrite, hsite⟩ := site_of_keeps? hp
    exact hsite ▸ (within_of_mem_pieces (w := w) hn).site m hm hwrite
  have hrun : Among (· ∈ sites g) (· ∈ w.kept g) (w.run es s).2 :=
    Among.run hkept (fun e he => within_of_mem_pieces (hes e he)) ⟨h.wrote, h.pending⟩
  exact ⟨hrun.wrote, hrun.pending⟩

theorem subject_mem_pieces {side : Branch} {e : Event Node} (he : e ∈ g.events b side) :
    e.subject ∈ g.pieces := by
  have hmem {n : Node} (hn : n ∈ (g.blockAt b).items ++ (g.blockAt b).cond.toList) :
      n ∈ g.pieces := by
    unfold Graph.blockAt at hn
    cases hblock : g.block? b with
    | none => simp [hblock] at hn
    | some k =>
      rw [hblock] at hn
      exact List.mem_flatMap.2 ⟨k, List.mem_of_getElem? hblock, hn⟩
  simp only [Graph.events, Graph.eventsFrom, List.drop_zero, evals, List.mem_append,
    List.mem_map] at he
  rcases he with ⟨n, hn, rfl⟩ | ⟨n, hn, rfl⟩
  · exact hmem (List.mem_append_left _ hn)
  · exact hmem (List.mem_append_right _ hn)

/-! ## The fuel of the exploration -/

/-- The states that speak of these sites and results. -/
def statesAmong (xs : List Site) (ks : List (String × Site)) : List FlowState :=
  (none :: xs.map some).flatMap fun x => (none :: ks.map some).map fun p => ⟨x, p⟩

theorem mem_statesAmong {xs : List Site} {ks : List (String × Site)} :
    s ∈ statesAmong xs ks ↔ Among (· ∈ xs) (· ∈ ks) s := by
  obtain ⟨wrote, pending⟩ := s
  constructor
  · intro h
    simp only [statesAmong, List.mem_flatMap, List.mem_map, FlowState.mk.injEq] at h
    obtain ⟨_, hwrote, _, hpending, rfl, rfl⟩ := h
    constructor
    · rintro x rfl
      simpa using hwrote
    · rintro p rfl
      simpa using hpending
  · intro h
    refine List.mem_flatMap.2 ⟨wrote, ?_, List.mem_map.2 ⟨pending, ?_, rfl⟩⟩
    · cases wrote with
      | none => exact List.mem_cons_self
      | some x => exact List.mem_cons_of_mem _ (List.mem_map_of_mem (h.wrote x rfl))
    · cases pending with
      | none => exact List.mem_cons_self
      | some p => exact List.mem_cons_of_mem _ (List.mem_map_of_mem (h.pending p rfl))

theorem length_statesAmong (xs : List Site) (ks : List (String × Site)) :
    (statesAmong xs ks).length = (xs.length + 1) * (ks.length + 1) := by
  simp only [statesAmong, List.length_flatMap, List.length_map, List.length_cons,
    List.map_const', List.sum_replicate_nat]

def confinedStates (w : WriteCheck) (g : Graph Node) : List FlowState :=
  (none :: (sites g).map some).flatMap fun x => (none :: (w.kept g).map some).map fun p => ⟨x, p⟩

theorem mem_confinedStates : s ∈ w.confinedStates g ↔ w.Confined g s :=
  mem_statesAmong.trans ⟨fun h => ⟨h.wrote, h.pending⟩, fun h => ⟨h.wrote, h.pending⟩⟩

theorem length_confinedStates_le :
    (w.confinedStates g).length ≤ (nodeCount g + 1) * (nodeCount g + 1) := by
  have hsites : (sites g).length = nodeCount g := by
    unfold sites nodeCount
    rw [List.length_map]
    induction g.pieces with
    | nil => rfl
    | cons n ns ih => rw [List.flatMap_cons, List.length_append, ih, Node.length_all, Node.sizes]
  have hpieces : ∀ ns : List Node, ns.length ≤ Node.sizes ns := by
    intro ns
    induction ns with
    | nil => exact Nat.le_refl 0
    | cons n ns ih =>
      have := n.size_pos
      rw [List.length_cons, Node.sizes]
      omega
  have hkept : (w.kept g).length ≤ nodeCount g :=
    Nat.le_trans (List.length_filterMap_le ..) (hpieces g.pieces)
  have hlength : (w.confinedStates g).length = ((sites g).length + 1) * ((w.kept g).length + 1) :=
    length_statesAmong (sites g) (w.kept g)
  rw [hlength, hsites]
  exact Nat.mul_le_mul_left _ (Nat.succ_le_succ hkept)

def targets (g : Graph Node) : List Nat := (Graph.entry :: g.edges.map (·.target)).dedup

def points (w : WriteCheck) (g : Graph Node) : List Point :=
  (targets g).flatMap fun b => (w.confinedStates g).map (b, ·)

theorem mem_points {b : Nat} {s : FlowState} :
    (b, s) ∈ w.points g ↔ b ∈ targets g ∧ s ∈ w.confinedStates g := by
  simp [points]

theorem length_flatMap_out_cons_le (e : Edge) (edges : List Edge) {bs : List Nat} (hbs : bs.Nodup) :
    (bs.flatMap fun b => (e :: edges).filter (·.source == b)).length ≤
      (bs.flatMap fun b => edges.filter (·.source == b)).length + 1 := by
  induction bs with
  | nil => simp
  | cons b bs ih =>
    obtain ⟨hb, hbs⟩ := List.nodup_cons.1 hbs
    have ih := ih hbs
    rw [List.flatMap_cons, List.flatMap_cons, List.length_append, List.length_append]
    by_cases he : e.source = b
    · have hrest : (bs.flatMap fun b => (e :: edges).filter (·.source == b)) =
          bs.flatMap fun b => edges.filter (·.source == b) := by
        refine List.flatMap_congr fun b' hb' => ?_
        have hne : e.source ≠ b' := fun h => hb (by rwa [← he, h])
        simp [hne]
      rw [hrest]
      simp only [he, List.filter_cons, beq_self_eq_true, if_true, List.length_cons]
      omega
    · have hb : (e :: edges).filter (·.source == b) = edges.filter (·.source == b) := by simp [he]
      rw [hb]
      omega

theorem length_flatMap_out_le {bs : List Nat} (hbs : bs.Nodup) (g : Graph Node) :
    (bs.flatMap g.out).length ≤ g.edges.length := by
  obtain ⟨blocks, edges⟩ := g
  show (bs.flatMap fun b => edges.filter (·.source == b)).length ≤ edges.length
  induction edges with
  | nil => simp
  | cons e edges ih =>
    exact Nat.le_trans (length_flatMap_out_cons_le e edges hbs) (Nat.succ_le_succ ih)

theorem length_next_le (p : Point) : (w.next g p).length ≤ (g.out p.1).length := by
  unfold next
  cases g.block? p.1 with
  | none => exact Nat.zero_le _
  | some k => exact Nat.le_of_eq (List.length_map _)

/-- All that is ever queued, the entry apart. -/
theorem unexpanded_points_le :
    unexpanded (w.next g) (w.points g) [] ≤ g.edges.length * (w.confinedStates g).length := by
  have hblock (b : Nat) : (((w.confinedStates g).map (b, ·)).flatMap (w.next g)).length ≤
      (g.out b).length * (w.confinedStates g).length := by
    induction w.confinedStates g with
    | nil => simp
    | cons s rest ih =>
      have := length_next_le (w := w) (g := g) (b, s)
      simp only [List.map_cons, List.flatMap_cons, List.length_append, List.length_cons,
        Nat.mul_succ]
      simp only at this
      omega
  have hsum : ∀ bs : List Nat,
      ((bs.flatMap fun b => (w.confinedStates g).map (b, ·)).flatMap (w.next g)).length ≤
        (bs.flatMap g.out).length * (w.confinedStates g).length := by
    intro bs
    induction bs with
    | nil => simp
    | cons b bs ih =>
      have := hblock b
      simp only [List.flatMap_cons, List.flatMap_append, List.length_append, Nat.add_mul]
      omega
  have hall : unexpanded (w.next g) (w.points g) [] = ((w.points g).flatMap (w.next g)).length := by
    simp [unexpanded]
  rw [hall]
  exact Nat.le_trans (hsum (targets g))
    (Nat.mul_le_mul_right _ (length_flatMap_out_le (List.nodup_dedup _) g))

/-- From its points the exploration comes to its points. -/
theorem next_mem_points (hg : g.Sound) {p q : Point} (hp : p ∈ w.points g)
    (hq : q ∈ w.next g p) : q ∈ w.points g := by
  obtain ⟨e, he, htarget, hstate⟩ := (mem_next (b := p.1) (s := p.2) (c := q.1) (t := q.2) hg).1 hq
  refine mem_points.2 ⟨?_, ?_⟩
  · rw [htarget]
    exact List.mem_dedup.2 (List.mem_cons_of_mem _ (List.mem_map_of_mem (List.mem_filter.1 he).1))
  · rw [hstate, mem_confinedStates]
    have hp : w.Confined g p.2 := mem_confinedStates.1 (mem_points.1 hp).2
    exact hp.run fun _ h => subject_mem_pieces h

/-- The exploration comes to its end: its fuel is enough. -/
theorem rounds_explored (hg : g.Sound) : Relation.ReflTransGen (Round (w.next g))
    ([(Graph.entry, {})], []) ([], w.explored g) := by
  refine rounds_explore (w.points g) (fun p hp q hq => next_mem_points hg hp hq) _ _ _ ?_ ?_
  · intro p hp
    obtain rfl := List.mem_singleton.1 hp
    refine mem_points.2 ⟨List.mem_dedup.2 List.mem_cons_self, ?_⟩
    exact mem_confinedStates.2 ⟨by simp, by simp⟩
  · have hqueued := unexpanded_points_le (w := w) (g := g)
    have hstates := Nat.mul_le_mul_left g.edges.length (length_confinedStates_le (w := w) (g := g))
    show 1 + _ ≤ (g.edges.length + 1) * ((nodeCount g + 1) * (nodeCount g + 1)) + 1
    rw [Nat.add_mul]
    omega

theorem drains_explored (hg : g.Sound) :
    Drains (w.next g) [(Graph.entry, {})] [] (w.explored g) :=
  drains_of_rounds (rounds_explored hg)

end WriteCheck

/-- Whatever order the points are explored in, the reports are those along all walks. -/
theorem mem_reports_iff_trace {w : WriteCheck} {g : Graph Node} (hg : g.Sound)
    {expanded : List WriteCheck.Point}
    (h : Drains (w.next g) [(Graph.entry, {})] [] expanded) {d : Diagnostic} :
    d ∈ expanded.flatMap (w.notes g) ↔ ∃ es b, g.Trace es b ∧ d ∈ (w.run es {}).1 := by
  rw [← WriteCheck.exists_reachable_iff_trace hg, List.mem_flatMap]
  simp only [h.mem_iff]

theorem drains_handler (w : WriteCheck) (h : Handler) :
    Drains (w.next h.graph) [(Graph.entry, {})] [] (w.explored h.graph) :=
  WriteCheck.drains_explored (Graph.sound_ofBody _)

/-- A handler's diagnostics are the reports along the walks through its graph. -/
theorem mem_checkHandler_iff {index : Index} {library : String} {h : Handler} {d : Diagnostic} :
    d ∈ checkHandler index library h ↔
      ∃ es b, h.graph.Trace es b ∧ d ∈ (WriteCheck.run ⟨h.typer index, library⟩ es {}).1 :=
  mem_reports_iff_trace (Graph.sound_ofBody _) (drains_handler ⟨h.typer index, library⟩ h)

/-- The diagnostics of a handler are those that are reported along the walks through its graph.
They do not depend on the order in which points are explored and edges queued, and the
exploration is one such order. -/
theorem mem_checkHandler_iff_trace (index : Index) (library : String) (h : Handler) :
    let w : WriteCheck := ⟨h.typer index, library⟩
    (∀ d, d ∈ checkHandler index library h ↔
      ∃ es b, h.graph.Trace es b ∧ d ∈ (w.run es {}).1) ∧
    Drains (w.next h.graph) [(Graph.entry, {})] [] (w.explored h.graph) ∧
    ∀ expanded, Drains (w.next h.graph) [(Graph.entry, {})] [] expanded →
      ∀ d, d ∈ expanded.flatMap (w.notes h.graph) ↔ d ∈ checkHandler index library h := by
  intro w
  refine ⟨fun d => mem_checkHandler_iff, drains_handler w h, fun expanded hexpanded d => ?_⟩
  rw [mem_checkHandler_iff]
  exact mem_reports_iff_trace (Graph.sound_ofBody _) hexpanded

end RouteCheck
