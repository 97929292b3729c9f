import RouteCheck.Proofs.Flow.Layout
import Mathlib.Logic.Relation

/-!
The layout, step by step.

Whatever the layout of a body does to a graph is made of five kinds of steps: a new block, an edge
out of a block without a condition, a piece at the end of a block, a condition with its `yes` edge,
and the `no` edge that completes it. `Sketch.Step` lists them, with what holds of the blocks they
touch, so that a property of all graphs needs one case for each step and none for each statement.

Main statements:
  1. `Sketch.builds`, `Sketch.buildsAll`, `Sketch.buildsClauses`: every statement is laid out by steps
     that place its pieces in order.
  2. `Sketch.steps_ofBody`: so is a body, from two empty blocks on.
  3. `Sketch.perm_pieces_ofBody`: the blocks hold the pieces of the body, each as often as it has it.
-/

namespace RouteCheck

variable {α : Type}

/-! ## Pieces of statements -/

mutual
/-- The pieces of a statement, in the order in which they are laid out. -/
def Stmt.pieces : Stmt α → List α
  | .skip => []
  | .piece a => [a]
  | .block body => piecesAll body
  | .branch init cond yes none => init.toList ++ [cond] ++ yes.pieces
  | .branch init cond yes (some no) => init.toList ++ [cond] ++ yes.pieces ++ no.pieces
  | .loop _ before head _ update body => before ++ head ++ body.pieces ++ update.toList
  | .choice _ head _ clauses => head ++ piecesClauses clauses
  | .stop last => last.toList
  | .jump .. => []

/-- The pieces of statements that follow each other. -/
def Stmt.piecesAll : List (Stmt α) → List α
  | [] => []
  | s :: rest => s.pieces ++ piecesAll rest

/-- The pieces of clauses, those of a header before its body. -/
def Stmt.piecesClauses : List (Clause α) → List α
  | [] => []
  | .mk _ head body _ :: rest => head ++ piecesAll body ++ piecesClauses rest
end

/-! ## Steps -/

/-- A graph that is being laid out. -/
structure Sketch (α : Type) where
  graph : Graph α
  /-- Blocks that end in a condition whose `no` edge is still to come, the latest first. -/
  half : List Nat
  /-- The pieces that have been put into blocks. -/
  placed : List α

namespace Sketch

open RouteCheck.Graph

/-- What the layout does to a graph in one step. -/
inductive Step : Sketch α → Sketch α → Prop
  | grow {g : Graph α} {half : List Nat} {placed : List α} :
      Step ⟨g, half, placed⟩ ⟨g.grow, half, placed⟩
  | edge {g : Graph α} {half : List Nat} {placed : List α} {s t : Nat} (hs : s < g.size)
      (hc : g.cond s = none) (ht : t < g.size) (hentry : t ≠ entry) :
      Step ⟨g, half, placed⟩ ⟨g.edge s t, half, placed⟩
  | push {g : Graph α} {half : List Nat} {placed : List α} {b : Nat} (a : α) (hb : b < g.size) :
      Step ⟨g, half, placed⟩ ⟨g.push b a, half, placed ++ [a]⟩
  | fork {g : Graph α} {half : List Nat} {placed : List α} {b : Nat} {is : List α} (a : α)
      (ho : Open g b is) :
      Step ⟨g, half, placed⟩ ⟨g.startBranch b none a, b :: half, placed ++ [a]⟩
  | close {g : Graph α} {half : List Nat} {placed : List α} {b t : Nat} (ht : t < g.size)
      (hentry : t ≠ entry) :
      Step ⟨g, b :: half, placed⟩ ⟨g.edgeOn .no b t, half, placed⟩

abbrev Steps : Sketch α → Sketch α → Prop := Relation.ReflTransGen Step

theorem ne_entry {b : Nat} (h : 0 < b) : b ≠ entry := Nat.ne_of_gt h

section
variable {g : Graph α} {cur b : Nat} {is as : List α} {half : List Nat} {placed : List α}

theorem steps_pushAll (hb : b < g.size) :
    Steps ⟨g, half, placed⟩ ⟨g.pushAll b as, half, placed ++ as⟩ := by
  induction as generalizing g placed with
  | nil =>
    rw [List.append_nil]
    exact .refl
  | cons a as ih =>
    have hrest : Steps ⟨g.push b a, half, placed ++ [a]⟩ _ := ih (by simpa using hb)
    rw [List.append_assoc] at hrest
    exact .head (.push a hb) hrest

theorem steps_startBranch {init : Option α} {c : α} (ho : Open g cur is) :
    Steps ⟨g, half, placed⟩
      ⟨g.startBranch cur init c, cur :: half, placed ++ init.toList ++ [c]⟩ := by
  have hpush : Open (g.pushAll cur init.toList) cur (is ++ init.toList) :=
    ⟨by simpa using ho.lt, ho.ne_exit, view_pushAll_self ho.lt ho.view⟩
  have hfork : (g.pushAll cur init.toList).startBranch cur none c = g.startBranch cur init c := by
    simp only [startBranch, size_pushAll]
    rfl
  rw [← hfork]
  exact .tail (steps_pushAll ho.lt) (.fork c hpush)

theorem steps_startLoop {before head : List α} {bounded : Bool} (hs : Sound g) (ho : Open g cur is) :
    Steps ⟨g, half, placed⟩
      ⟨g.startLoop cur before head bounded, half, placed ++ before ++ head⟩ := by
  have hcur := ho.lt
  have hexit : 1 < g.size := hs.exit_lt
  have hheader : g.cond g.size = none := hs.cond (Nat.le_refl _)
  let g' := ((g.grow.grow.grow.pushAll cur before).pushAll g.size head).edge cur g.size
  have hsize : g'.size = g.size + 3 := by simp [g']
  have hcond : g'.cond g.size = none := by simpa [g'] using hheader
  have hfront : Steps ⟨g, half, placed⟩ ⟨g', half, placed ++ before ++ head⟩ := by
    have hblocks : Steps ⟨g, half, placed⟩ ⟨g.grow.grow.grow, half, placed⟩ :=
      .tail (.tail (.single .grow) .grow) .grow
    refine .tail ((hblocks.trans (steps_pushAll ?_)).trans (steps_pushAll ?_))
      (.edge ?_ ?_ ?_ (ne_entry (by omega)))
    · simp only [size_grow]
      omega
    · simp only [size_pushAll, size_grow]
      omega
    · simp only [size_pushAll, size_grow]
      omega
    · simpa using ho.cond
    · simp only [size_pushAll, size_grow]
      omega
  have hlast {g'' : Graph α} (hsize : g''.size = g.size + 3) (hcond : g''.cond g.size = none) :
      Steps ⟨g'', half, placed ++ before ++ head⟩
        ⟨g''.grow.edge g.size (g.size + 3), half, placed ++ before ++ head⟩ := by
    refine .tail (.single .grow) (.edge ?_ (by simpa using hcond) ?_ (ne_entry (by omega)))
    · rw [size_grow]
      omega
    · rw [size_grow]
      omega
  cases bounded with
  | false => exact hfront.trans (hlast hsize hcond)
  | true =>
    refine (hfront.tail (.edge ?_ hcond ?_ (ne_entry ?_))).trans (hlast hsize hcond)
    · omega
    · omega
    · omega

theorem steps_startClause {fallen : Option Nat} {head : List α} (hs : Sound g)
    (hcur : cur < g.size) (hcond : g.cond cur = none)
    (hfallen : ∀ p, fallen = some p → p < g.size ∧ p ≠ cur ∧ g.cond p = none) :
    Steps ⟨g, half, placed⟩ ⟨g.startClause cur fallen head, half, placed ++ head⟩ := by
  have hnew : g.size ≠ entry := ne_entry (Nat.zero_lt_of_lt hs.exit_lt)
  have hedge {g' : Graph α} {p : Nat} (hsize : g'.size = g.size + 1) (hp : p < g.size)
      (hpcond : g'.cond p = none) :
      Steps ⟨g', half, placed⟩ ⟨g'.edge p g.size, half, placed⟩ :=
    .single (.edge (by omega) hpcond (by omega) hnew)
  have hfront : Steps ⟨g, half, placed⟩ ⟨g.grow.edge cur g.size, half, placed⟩ :=
    .trans (.single .grow) (hedge size_grow hcur (by simpa using hcond))
  cases fallen with
  | none => exact hfront.trans (steps_pushAll (by simp))
  | some p =>
    obtain ⟨hp, -, hpcond⟩ := hfallen p rfl
    exact (hfront.trans (hedge (by simp) hp (by simpa using hpcond))).trans
      (steps_pushAll (by simp))

end

/-! ## Targets -/

def Reaches (g : Graph α) (t : Nat) : Prop := t < g.size ∧ t ≠ entry

/-- Edges may lead to all targets of jumps. -/
def ReachesAll (g : Graph α) (ts : List Target) : Prop :=
  ∀ t ∈ ts, Reaches g t.breakTo ∧ ∀ n, t.continueTo = some n → Reaches g n

section
variable {g g' : Graph α} {t : Nat} {ts : List Target}

theorem Reaches.mono (h : Reaches g t) (hle : g.size ≤ g'.size) : Reaches g' t :=
  ⟨Nat.lt_of_lt_of_le h.1 hle, h.2⟩

theorem ReachesAll.mono (h : ReachesAll g ts) (hle : g.size ≤ g'.size) : ReachesAll g' ts :=
  fun t ht => ⟨(h t ht).1.mono hle, fun n hn => ((h t ht).2 n hn).mono hle⟩

theorem ReachesAll.cons {label : Option String} {next : Option Nat} (h : ReachesAll g ts)
    (hbreak : Reaches g t) (hnext : ∀ n, next = some n → Reaches g n) :
    ReachesAll g (⟨label, t, next⟩ :: ts) := by
  intro u hu
  rcases List.mem_cons.1 hu with rfl | hu
  · exact ⟨hbreak, hnext⟩
  · exact h u hu

theorem ReachesAll.jumpTo? (h : ReachesAll g ts) {isBreak : Bool} {label : Option String}
    (ht : jumpTo? ts isBreak label = some t) : Reaches g t := by
  obtain ⟨u, hu, htarget⟩ := Option.bind_eq_some_iff.1 ht
  obtain ⟨hbreak, hnext⟩ := h u (List.mem_of_find?_eq_some hu)
  cases isBreak with
  | true =>
    obtain rfl : u.breakTo = t := by simpa using htarget
    exact hbreak
  | false => exact hnext t (by simpa using htarget)

end

/-! ## Statements -/

/-- From an open block on, `lay` takes steps that place `as`. -/
def Builds (ts : List Target) (lay : Nat → Graph α → Nat × Graph α) (as : List α) : Prop :=
  ∀ (g g' : Graph α) (cur nxt : Nat) (is : List α) (half : List Nat) (placed : List α), Sound g →
    Open g cur is → ReachesAll g ts → lay cur g = (nxt, g') →
    Steps ⟨g, half, placed⟩ ⟨g', half, placed ++ as⟩

/-- Between the open block `cur` and `after`, and from the block that falls into them, the clauses
are laid out by steps that place `as`. -/
def BuildsClauses (ts : List Target) (after : Nat) (clauses : List (Clause α)) (as : List α) :
    Prop :=
  ∀ (g : Graph α) (cur : Nat) (fallen : Option Nat) (half : List Nat) (placed : List α), Sound g →
    cur < g.size → g.cond cur = none →
    (∀ p, fallen = some p → p < g.size ∧ p ≠ cur ∧ g.cond p = none) → Reaches g after →
    ReachesAll g ts →
    Steps ⟨g, half, placed⟩
      ⟨layoutClauses ts cur after fallen g clauses, half, placed ++ as⟩

section
variable {ts : List Target}

theorem builds_skip : Builds ts (layout (α := α) ts · · .skip) [] := by
  intro g g' cur nxt is half placed hs ho hts hlay
  simp only [layout, Prod.mk.injEq] at hlay
  rw [List.append_nil, hlay.2]

theorem builds_piece (a : α) : Builds ts (layout ts · · (.piece a)) [a] := by
  intro g g' cur nxt is half placed hs ho hts hlay
  simp only [layout, Prod.mk.injEq] at hlay
  rw [← hlay.2]
  exact .single (.push a ho.lt)

theorem Builds.extends {lay : Nat → Graph α → Nat × Graph α} {as : List α}
    {laid : Graph α → CodePoint → CodePoint → Prop} {g : Graph α} {cur : Nat} {is : List α}
    (h : Builds ts lay as) (hlay : LaysOut lay laid) (hs : Sound g) (ho : Open g cur is)
    (hts : ReachesAll g ts) (half : List Nat) (placed : List α) :
    ∃ nxt g' js, lay cur g = (nxt, g') ∧ Extends g g' cur nxt is js ∧
      Steps ⟨g, half, placed⟩ ⟨g', half, placed ++ as⟩ := by
  obtain ⟨nxt, g', js, heq, hx, -⟩ := hlay g cur is hs ho
  exact ⟨nxt, g', js, heq, hx, h g g' cur nxt is half placed hs ho hts heq⟩

theorem steps_firstSide {g : Graph α} {cur : Nat} {is : List α} (init : Option α) (c : α)
    {yes : Stmt α} (h : Builds ts (layout ts · · yes) yes.pieces) (hs : Sound g)
    (ho : Open g cur is) (hts : ReachesAll g ts) (half : List Nat) (placed : List α) :
    ∃ last g' js, layout ts (g.size + 1) (g.startBranch cur init c) yes = (last, g') ∧
      Extends (g.startBranch cur init c) g' (g.size + 1) last [] js ∧
      Steps ⟨g, half, placed⟩
        ⟨g', cur :: half, placed ++ init.toList ++ [c] ++ yes.pieces⟩ := by
  have hcur := ho.lt
  have hsize : (g.startBranch cur init c).size = g.size + 2 := size_startBranch
  have hopen : Open (g.startBranch cur init c) (g.size + 1) [] :=
    hs.open_new (by omega) (by omega) (view_startBranch_of_ne (by omega))
  obtain ⟨last, g', js, hlay, hx, hsteps⟩ := h.extends (laysOut yes ts) (hs.startBranch ho) hopen
    (hts.mono (by omega)) (cur :: half) (placed ++ init.toList ++ [c])
  exact ⟨last, g', js, hlay, hx, (steps_startBranch ho).trans hsteps⟩

theorem builds_branch_none {init : Option α} {c : α} {yes : Stmt α}
    (h : Builds ts (layout ts · · yes) yes.pieces) :
    Builds ts (layout ts · · (.branch init c yes none)) (Stmt.branch init c yes none).pieces := by
  intro g g' cur nxt is half placed hs ho hts hlay'
  have hexit : 1 < g.size := hs.exit_lt
  obtain ⟨last, g₂, js, hlay, hx, hyes⟩ :=
    steps_firstSide init c h hs ho hts half placed
  have hsize₂ : g.size + 2 ≤ g₂.size := size_startBranch ▸ hx.size_le
  obtain rfl : (g₂.edge last g.size).edgeOn .no cur g.size = g' := by
    simp only [startBranch] at hlay
    simp only [layout, fresh_eq, size_grow, size_setCond, size_pushAll, hlay] at hlay'
    exact congrArg Prod.snd hlay'
  rw [Stmt.pieces]
  simp only [← List.append_assoc]
  refine (hyes.tail (.edge hx.isOpen.lt hx.isOpen.cond ?_ (ne_entry ?_))).tail
    (.close ?_ (ne_entry ?_))
  · omega
  · omega
  · rw [size_edge]
    omega
  · omega

theorem builds_branch_some {init : Option α} {c : α} {yes no : Stmt α}
    (h : Builds ts (layout ts · · yes) yes.pieces)
    (h' : Builds ts (layout ts · · no) no.pieces) :
    Builds ts (layout ts · · (.branch init c yes (some no)))
      (Stmt.branch init c yes (some no)).pieces := by
  intro g g' cur nxt is half placed hs ho hts hlay''
  have hcur := ho.lt
  have hexit : 1 < g.size := hs.exit_lt
  obtain ⟨last, g₂, js, hlay, hx, hyes⟩ :=
    steps_firstSide init c h hs ho hts half placed
  have hsize₂ : g.size + 2 ≤ g₂.size := size_startBranch ▸ hx.size_le
  have hlast := hx.isOpen.lt
  have hplace := hx.place
  have hsize₁ : (g.startBranch cur init c).size = g.size + 2 := size_startBranch
  let g₃ := (g₂.edge last g.size).grow.edgeOn .no cur g₂.size
  have hsize₃ : g₃.size = g₂.size + 1 := by simp [g₃]
  have hmid : Steps ⟨g₂, cur :: half, placed ++ init.toList ++ [c] ++ yes.pieces⟩
      ⟨g₃, half, placed ++ init.toList ++ [c] ++ yes.pieces⟩ := by
    refine .tail (.tail (.single (.edge hlast hx.isOpen.cond ?_ (ne_entry ?_))) .grow)
      (.close ?_ (ne_entry ?_))
    · omega
    · omega
    · rw [size_grow, size_edge]
      exact Nat.lt_succ_self _
    · omega
  have hs₃ : Sound g₃ :=
    (hx.sound.edge hlast hx.isOpen.cond).grow.edgeOn (by simp; omega) (.inr (by decide))
  have hopen' : Open g₃ g₂.size [] := by
    refine hx.sound.open_new (Nat.le_refl _) (by omega) ?_
    rw [view_edgeOn_of_ne (by omega), view_grow, view_edge_of_ne (by omega)]
  obtain ⟨last', g₄, js', hlay', hx', hno⟩ := h'.extends (laysOut no ts) hs₃ hopen'
    (hts.mono (by omega)) half (placed ++ init.toList ++ [c] ++ yes.pieces)
  have hsize₄ := hx'.size_le
  obtain rfl : g₄.edge last' g.size = g' := by
    simp only [startBranch] at hlay
    simp only [g₃] at hlay'
    simp only [layout, fresh_eq, size_grow, size_setCond, size_pushAll, size_edge, hlay, hlay']
      at hlay''
    exact congrArg Prod.snd hlay''
  rw [Stmt.pieces]
  simp only [← List.append_assoc]
  refine ((hyes.trans hmid).trans hno).tail (.edge hx'.isOpen.lt hx'.isOpen.cond ?_ (ne_entry ?_))
  · omega
  · omega

theorem builds_loop {label : Option String} {before head : List α} {bounded : Bool}
    {update : Option α} {body : Stmt α}
    (h : ∀ ts', Builds ts' (layout ts' · · body) body.pieces) :
    Builds ts (layout ts · · (.loop label before head bounded update body))
      (Stmt.loop label before head bounded update body).pieces := by
  intro g g' cur nxt is half placed hs ho hts hlay'
  have hcur := ho.lt
  have hexit : 1 < g.size := hs.exit_lt
  let ts' : List Target := ⟨label, g.size + 1, some (g.size + 2)⟩ :: ts
  let g₁ := g.startLoop cur before head bounded
  have hsize₁ : g₁.size = g.size + 4 := size_startLoop
  have hold₁ (b : Nat) (hb : b ≠ cur) (hn : b ≠ g.size) : g₁.view b = g.view b :=
    view_startLoop_of_ne hb hn
  have hopen : Open g₁ (g.size + 3) [] :=
    hs.open_new (by omega) (by omega) (hold₁ _ (by omega) (by omega))
  have hts' : ReachesAll g₁ ts' := by
    refine (hts.mono (by omega)).cons ⟨by omega, ne_entry ?_⟩ fun n hn => ?_
    · omega
    · obtain rfl : g.size + 2 = n := Option.some.inj hn
      exact ⟨by omega, ne_entry (by omega)⟩
  obtain ⟨last, g₂, js, hlay, hx, hbody⟩ := (h ts').extends (g := g₁) (laysOut body ts')
    (hs.startLoop ho) hopen hts' half (placed ++ before ++ head)
  have hsize₂ := hx.size_le
  have hnext : g₂.cond (g.size + 2) = none := by
    rw [cond_of_view (hx.keeps _ (by omega) (by omega)),
      cond_of_view (hold₁ _ (by omega) (by omega))]
    exact hs.cond (by omega)
  obtain rfl : ((g₂.edge last (g.size + 2)).pushAll (g.size + 2) update.toList).edge (g.size + 2)
      g.size = g' := by
    simp only [g₁, startLoop, ts'] at hlay
    cases bounded <;>
      simp [layout, fresh_eq] at hlay hlay' <;> simp [hlay] at hlay' <;> exact hlay'.2
  rw [Stmt.pieces]
  simp only [← List.append_assoc]
  refine .tail ((((steps_startLoop hs ho).trans hbody).tail
    (.edge hx.isOpen.lt hx.isOpen.cond ?_ (ne_entry ?_))).trans (steps_pushAll ?_))
    (.edge ?_ ?_ ?_ (ne_entry ?_))
  · omega
  · omega
  · rw [size_edge]
    omega
  · rw [size_pushAll, size_edge]
    omega
  · simpa using hnext
  · rw [size_pushAll, size_edge]
    omega
  · omega

theorem builds_stop (last : Option α) :
    Builds ts (layout ts · · (.stop last)) (Stmt.stop last).pieces := by
  intro g g' cur nxt is half placed hs ho hts hlay
  simp only [layout, fresh_eq, Prod.mk.injEq] at hlay
  rw [← hlay.2, Stmt.pieces]
  refine .tail (.tail (steps_pushAll ho.lt) (.edge ?_ ?_ ?_ (ne_entry Nat.one_pos))) .grow
  · simpa using ho.lt
  · simpa using ho.cond
  · rw [size_pushAll]
    exact hs.exit_lt

theorem builds_jump (isBreak : Bool) (label : Option String) :
    Builds ts (layout (α := α) ts · · (.jump isBreak label)) [] := by
  intro g g' cur nxt is half placed hs ho hts hlay
  rw [List.append_nil]
  cases ht : jumpTo? ts isBreak label with
  | none =>
    simp only [layout, fresh_eq, ht, Prod.mk.injEq] at hlay
    rw [← hlay.2]
    exact .single .grow
  | some t =>
    simp only [layout, fresh_eq, ht, Prod.mk.injEq] at hlay
    obtain ⟨hlt, hentry⟩ := hts.jumpTo? ht
    rw [← hlay.2]
    exact .tail (.single (.edge ho.lt ho.cond hlt hentry)) .grow

theorem builds_nil : Builds ts (layoutAll (α := α) ts · · []) [] := by
  intro g g' cur nxt is half placed hs ho hts hlay
  simp only [layoutAll, Prod.mk.injEq] at hlay
  rw [List.append_nil, hlay.2]

theorem builds_cons {s : Stmt α} {rest : List (Stmt α)}
    (h : Builds ts (layout ts · · s) s.pieces)
    (hrest : Builds ts (layoutAll ts · · rest) (Stmt.piecesAll rest)) :
    Builds ts (layoutAll ts · · (s :: rest)) (Stmt.piecesAll (s :: rest)) := by
  intro g g' cur nxt is half placed hs ho hts hlay'
  obtain ⟨mid, g₁, js, hlay, hx, hfirst⟩ := h.extends (laysOut s ts) hs ho hts half placed
  simp only [layoutAll, hlay] at hlay'
  rw [Stmt.piecesAll, ← List.append_assoc]
  exact hfirst.trans (hrest g₁ g' _ _ _ half _ hx.sound hx.isOpen (hts.mono hx.size_le) hlay')

theorem buildsClauses_nil {after : Nat} : BuildsClauses (α := α) ts after [] [] := by
  intro g cur fallen half placed _ _ _ _ _ _
  rw [List.append_nil, layoutClauses]

theorem buildsClauses_cons {after : Nat} {isDefault falls : Bool} {head : List α}
    {body : List (Stmt α)} {rest : List (Clause α)}
    (h : Builds ts (layoutAll ts · · body) (Stmt.piecesAll body))
    (hrest : BuildsClauses ts after rest (Stmt.piecesClauses rest)) :
    BuildsClauses ts after (.mk isDefault head body falls :: rest)
      (Stmt.piecesClauses (.mk isDefault head body falls :: rest)) := by
  intro g cur fallen half placed hs hcur hcond hfallen hafter hts
  have hexit : 1 < g.size := hs.exit_lt
  let g₁ := g.startClause cur fallen head
  have hsize₁ : g₁.size = g.size + 1 := size_startClause
  have hs₁ : Sound g₁ := hs.startClause hcur hcond hfallen
  have hopen : Open g₁ g.size head :=
    ⟨by omega, Nat.ne_of_gt hexit, view_startClause_new hs hcur hfallen⟩
  obtain ⟨last, g₂, js, hlay, hx, hbody⟩ := h.extends (laysOutAll body ts) hs₁ hopen
    (hts.mono (by omega)) half (placed ++ head)
  have hsize₂ := hx.size_le
  have hlast := hx.isOpen.lt
  have hplace := hx.place
  let g₃ := g₂.endClause last after falls
  let fallen' := if falls then some last else none
  have hsize₃ : g₃.size = g₂.size := size_endClause
  have hcond₃ : g₃.cond cur = none := by
    rw [cond_of_view (view_endClause_of_ne (by omega)),
      cond_of_view (hx.keeps cur (by omega) (by omega))]
    cases fallen <;> simpa [g₁, startClause] using hcond
  have hend : Steps ⟨g₂, half, placed ++ head ++ Stmt.piecesAll body⟩
      ⟨g₃, half, placed ++ head ++ Stmt.piecesAll body⟩ := by
    cases falls with
    | true => exact .refl
    | false =>
      obtain ⟨hlt, hentry⟩ : Reaches g₂ after := hafter.mono (by omega)
      exact .single (.edge hlast hx.isOpen.cond hlt hentry)
  have hlater := hrest g₃ cur fallen' half (placed ++ head ++ Stmt.piecesAll body)
    (hx.sound.endClause hx.isOpen) (by omega) hcond₃
    (fun p hp => by
      cases falls with
      | false => exact absurd hp (by simp [fallen'])
      | true =>
        obtain rfl : last = p := by simpa [fallen'] using hp
        exact ⟨by omega, by omega, hx.isOpen.cond⟩)
    (hafter.mono (by omega)) (hts.mono (by omega))
  rw [layoutClauses_cons hlay, Stmt.piecesClauses]
  simp only [← List.append_assoc]
  exact (((steps_startClause hs hcur hcond hfallen).trans hbody).trans hend).trans hlater

theorem builds_choice {label : Option String} {head : List α} {waits : Bool}
    {clauses : List (Clause α)}
    (h : ∀ ts' after, BuildsClauses ts' after clauses (Stmt.piecesClauses clauses)) :
    Builds ts (layout ts · · (.choice label head waits clauses))
      (Stmt.choice label head waits clauses).pieces := by
  intro g g' cur nxt is half placed hs ho hts hlay
  have hcur := ho.lt
  have hexit : 1 < g.size := hs.exit_lt
  let ts' : List Target := ⟨label, g.size, none⟩ :: ts
  let g₁ := g.grow.pushAll cur head
  have hsize₁ : g₁.size = g.size + 1 := by simp [g₁]
  have hcond₁ : g₁.cond cur = none := by simpa [g₁] using ho.cond
  have hafter : Reaches g₁ g.size := ⟨by omega, ne_entry (by omega)⟩
  obtain ⟨starts, he⟩ := laysOutClauses clauses ts' g.size g₁ cur none hs.grow.pushAll (by omega)
    hcond₁ (fun p hp => by simp at hp)
  have hclauses := h ts' g.size g₁ cur none half (placed ++ head) hs.grow.pushAll (by omega) hcond₁
    (fun p hp => by simp at hp) hafter ((hts.mono (by omega)).cons hafter fun n hn => by simp at hn)
  let g₂ := layoutClauses ts' cur g.size none g₁ clauses
  have hsize₂ : g₁.size ≤ g₂.size := he.size_le
  have hcond₂ : g₂.cond cur = none :=
    (congrArg (·.2.1) (he.enters (g₁.items cur) none (g₁.out cur) (by rw [← hcond₁]; rfl)))
  let skips := !clauses.any Clause.isDefault && !waits
  obtain rfl : (if skips then g₂.edge cur g.size else g₂) = g' := by
    simp only [layout, fresh_eq, Prod.mk.injEq] at hlay
    exact hlay.2
  have hlast : Steps ⟨g₂, half, placed ++ head ++ Stmt.piecesClauses clauses⟩
      ⟨if skips then g₂.edge cur g.size else g₂, half,
        placed ++ head ++ Stmt.piecesClauses clauses⟩ := by
    cases skips with
    | false => exact .refl
    | true =>
      exact .single (.edge (by omega) hcond₂ (by omega) (ne_entry (by omega)))
  rw [Stmt.pieces, ← List.append_assoc]
  have hfront : Steps ⟨g, half, placed⟩ ⟨g₁, half, placed ++ head⟩ :=
    .trans (.single .grow) (steps_pushAll (by simp; omega))
  exact (hfront.trans hclauses).trans hlast

end

/-! ## Every body -/

mutual
/-- Every statement is laid out by steps that place its pieces. -/
theorem builds : ∀ (s : Stmt α) (ts : List Target), Builds ts (layout ts · · s) s.pieces
  | .skip, _ => builds_skip
  | .piece a, _ => builds_piece a
  | .block body, ts => buildsAll body ts
  | .branch _ _ yes none, ts => builds_branch_none (builds yes ts)
  | .branch _ _ yes (some no), ts => builds_branch_some (builds yes ts) (builds no ts)
  | .loop _ _ _ _ _ body, _ => builds_loop fun _ => builds body _
  | .choice _ _ _ clauses, _ => builds_choice fun _ after => buildsClauses clauses _ after
  | .stop last, _ => builds_stop last
  | .jump isBreak label, _ => builds_jump isBreak label

theorem buildsAll : ∀ (ss : List (Stmt α)) (ts : List Target),
    Builds ts (layoutAll ts · · ss) (Stmt.piecesAll ss)
  | [], _ => builds_nil
  | s :: rest, ts => builds_cons (builds s ts) (buildsAll rest ts)

theorem buildsClauses : ∀ (cs : List (Clause α)) (ts : List Target) (after : Nat),
    BuildsClauses ts after cs (Stmt.piecesClauses cs)
  | [], _, _ => buildsClauses_nil
  | .mk _ _ body _ :: rest, ts, after =>
    buildsClauses_cons (buildsAll body ts) (buildsClauses rest ts after)
end

/-- The graph of a body is laid out by steps, from the blank one on, that place its pieces and leave
no condition without its `no` edge. -/
theorem steps_ofBody (body : List (Stmt α)) :
    Steps ⟨blank, [], []⟩ ⟨ofBody body, [], Stmt.piecesAll body⟩ := by
  obtain ⟨last, g, js, hlay, hx, hbody⟩ := (buildsAll body []).extends (laysOutAll body [])
    sound_blank open_blank (fun t ht => absurd ht List.not_mem_nil) [] []
  rw [ofBody_eq hlay]
  exact hbody.tail (.edge hx.isOpen.lt hx.isOpen.cond hx.sound.exit_lt (ne_entry Nat.one_pos))

/-! ## Where the pieces are -/

section
variable {g : Graph α} {b : Nat} {as : List α}

def blockPieces (k : Block α) : List α := k.items ++ k.cond.toList

theorem pieces_grow : g.grow.pieces = g.pieces := by
  show (g.blocks ++ [({} : Block α)]).flatMap blockPieces = g.blocks.flatMap blockPieces
  rw [List.flatMap_append]
  exact List.append_nil _

/-- What a change adds to one block it adds to the graph. -/
theorem perm_pieces_modify (hb : b < g.size) {f : Block α → Block α}
    (h : (blockPieces (f (g.blockAt b))).Perm (blockPieces (g.blockAt b) ++ as)) :
    ({ g with blocks := g.blocks.modify b f } : Graph α).pieces.Perm (g.pieces ++ as) := by
  have hb : b < g.blocks.length := hb
  have hat : g.blockAt b = g.blocks[b] := by
    rw [blockAt, block?, List.getElem?_eq_getElem hb]
    rfl
  rw [hat] at h
  have hsplit : g.blocks = g.blocks.take b ++ g.blocks[b] :: g.blocks.drop (b + 1) := by
    rw [List.getElem_cons_drop, List.take_append_drop]
  show ((g.blocks.modify b f).flatMap blockPieces).Perm (g.blocks.flatMap blockPieces ++ as)
  rw [List.modify_eq_take_cons_drop hb, congrArg (List.flatMap blockPieces) hsplit]
  simp only [List.flatMap_append, List.flatMap_cons, List.append_assoc]
  refine List.Perm.append_left _ ?_
  calc (blockPieces (f g.blocks[b]) ++ (g.blocks.drop (b + 1)).flatMap blockPieces).Perm
        (blockPieces g.blocks[b] ++ as ++ (g.blocks.drop (b + 1)).flatMap blockPieces) :=
        h.append_right _
    _ = blockPieces g.blocks[b] ++ (as ++ (g.blocks.drop (b + 1)).flatMap blockPieces) :=
        List.append_assoc ..
    List.Perm _ (blockPieces g.blocks[b] ++ ((g.blocks.drop (b + 1)).flatMap blockPieces ++ as)) :=
        List.perm_append_comm.append_left _

theorem perm_pieces_push {a : α} (hb : b < g.size) :
    (g.push b a).pieces.Perm (g.pieces ++ [a]) := by
  refine perm_pieces_modify hb ?_
  simp only [blockPieces, List.append_assoc]
  exact List.perm_append_comm.append_left _

theorem perm_pieces_startBranch {a : α} {is : List α} (ho : Open g b is) :
    (g.startBranch b none a).pieces.Perm (g.pieces ++ [a]) := by
  have hcond : (g.blockAt b).cond = none := ho.cond
  have hgrown : (g.startBranch b none a).pieces = (g.setCond b a).grow.grow.pieces := rfl
  rw [hgrown, pieces_grow, pieces_grow]
  refine perm_pieces_modify ho.lt ?_
  simp [blockPieces, hcond]

end

theorem Step.perm_pieces {d d' : Sketch α} (h : Step d d')
    (hd : d.graph.pieces.Perm d.placed) : d'.graph.pieces.Perm d'.placed := by
  cases h with
  | grow => exact (List.Perm.of_eq pieces_grow).trans hd
  | edge => exact hd
  | push a hb => exact (perm_pieces_push hb).trans (hd.append_right _)
  | fork a ho => exact (perm_pieces_startBranch ho).trans (hd.append_right _)
  | close => exact hd

/-- The blocks of the graph of a body hold just the pieces of the body. -/
theorem perm_pieces_ofBody (body : List (Stmt α)) :
    (ofBody body).pieces.Perm (Stmt.piecesAll body) := by
  have hsteps {d d' : Sketch α} (h : Steps d d') (hd : d.graph.pieces.Perm d.placed) :
      d'.graph.pieces.Perm d'.placed := by
    induction h with
    | refl => exact hd
    | tail _ hstep ih => exact hstep.perm_pieces ih
  exact hsteps (steps_ofBody body) .nil

end Sketch
end RouteCheck
