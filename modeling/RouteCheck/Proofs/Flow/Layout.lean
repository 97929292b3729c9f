import RouteCheck.Proofs.Flow.Laid

/-!
The layout puts every statement where it should be.

`view` is what a graph says about one block. Each elementary step changes the view of one block
at most, so a finished graph is known block by block. `LaysOut` says what laying out a piece of
code does: it changes only the current block and new ones, ends in an open block, and in every
graph that later steps make of the result the code is `Laid`.

Main statements:
  1. `laysOut_skip` … `laysOutClauses_cons`: one step lemma for each form of statement.
  2. `laysOut`, `laysOutAll`, `laysOutClauses`: every statement, by induction.
  3. `laid_ofBody`: the finished graph of a body.
  4. `trace_exit_ofBody_iff`: the complete walks of the graph of a body evaluate just what the
     complete runs of the body do.
-/

namespace RouteCheck

open Event

namespace Graph

variable {α : Type}

/-! ## Views of blocks -/

def size (g : Graph α) : Nat := g.blocks.length

/-- Items, condition and outgoing edges of a block. -/
def view (g : Graph α) (b : Nat) : List α × Option α × List Edge := (g.items b, g.cond b, g.out b)

def grow (g : Graph α) : Graph α := { g with blocks := g.blocks ++ [{}] }

theorem fresh_eq (g : Graph α) : g.fresh = (g.size, g.grow) := rfl

/-- Blocks that do not exist have no edges, a block that ends in a condition is left on one of its
sides, and the exit exists. -/
structure Sound (g : Graph α) : Prop where
  out : ∀ b, g.size ≤ b → g.out b = []
  sides : ∀ b, g.cond b ≠ none → ∀ e ∈ g.out b, e.branch ≠ .always
  exit_lt : exit < g.size

section
variable {g : Graph α} {b c s t : Nat} {a : α} {as : List α} {branch : Branch}

@[simp] theorem size_grow : g.grow.size = g.size + 1 := by simp [grow, size]
@[simp] theorem size_edgeOn : (g.edgeOn branch s t).size = g.size := rfl
@[simp] theorem size_edge : (g.edge s t).size = g.size := rfl
@[simp] theorem size_push : (g.push c a).size = g.size := by simp [push, size]
@[simp] theorem size_setCond : (g.setCond c a).size = g.size := by simp [setCond, size]

@[simp] theorem size_pushAll : (g.pushAll c as).size = g.size := by
  induction as generalizing g with
  | nil => rfl
  | cons a as ih =>
    show ((g.push c a).pushAll c as).size = g.size
    rw [ih, size_push]

theorem Sound.view (h : Sound g) (hb : g.size ≤ b) : g.view b = ([], none, []) := by
  have hnone : g.block? b = none := List.getElem?_eq_none hb
  simp [Graph.view, items, cond, blockAt, hnone, h.out b hb]

@[simp] theorem view_grow : g.grow.view b = g.view b := by
  have hblock : g.grow.blockAt b = g.blockAt b := by
    unfold blockAt block? grow
    rw [List.getElem?_append]
    split
    · rfl
    · next h =>
      rw [List.getElem?_eq_none (Nat.le_of_not_lt h)]
      cases b - g.blocks.length <;> rfl
  simp only [view, items, cond, hblock]
  rfl

theorem view_edgeOn_of_ne (h : b ≠ s) : (g.edgeOn branch s t).view b = g.view b := by
  have hout : (g.edgeOn branch s t).out b = g.out b := by
    simp [out, edgeOn, List.filter_append, h.symm]
  simp only [view, hout]
  rfl

theorem view_edgeOn_self {u : List α} {k : Option α} {l : List Edge}
    (h : g.view s = (u, k, l)) :
    (g.edgeOn branch s t).view s = (u, k, l ++ [⟨s, t, branch⟩]) := by
  have hout : (g.edgeOn branch s t).out s = g.out s ++ [⟨s, t, branch⟩] := by
    simp [out, edgeOn, List.filter_append]
  simp only [view, Prod.mk.injEq] at h ⊢
  exact ⟨h.1, h.2.1, by rw [hout, h.2.2]⟩

theorem view_edge_of_ne (h : b ≠ s) : (g.edge s t).view b = g.view b := view_edgeOn_of_ne h

theorem view_edge_self {u : List α} {k : Option α} {l : List Edge} (h : g.view s = (u, k, l)) :
    (g.edge s t).view s = (u, k, l ++ [⟨s, t, .always⟩]) := view_edgeOn_self h

theorem blockAt_modify (f : Block α → Block α) :
    blockAt { g with blocks := g.blocks.modify c f } b =
      if c = b ∧ b < g.size then f (g.blockAt b) else g.blockAt b := by
  unfold blockAt block? size
  rw [List.getElem?_modify]
  by_cases hb : b < g.blocks.length
  · by_cases hc : c = b <;> simp [hb, hc]
  · simp [hb]

theorem view_push_of_ne (h : b ≠ c) : (g.push c a).view b = g.view b := by
  have hblock : (g.push c a).blockAt b = g.blockAt b := by
    rw [push, blockAt_modify, if_neg fun hc => h hc.1.symm]
  simp only [view, items, cond, hblock]
  rfl

theorem view_push_self (hc : c < g.size) {u : List α} {k : Option α} {l : List Edge}
    (h : g.view c = (u, k, l)) : (g.push c a).view c = (u ++ [a], k, l) := by
  have hblock : (g.push c a).blockAt c =
      { g.blockAt c with items := (g.blockAt c).items ++ [a] } := by
    rw [push, blockAt_modify, if_pos ⟨rfl, hc⟩]
  simp only [view, items, cond, hblock, Prod.mk.injEq] at h ⊢
  exact ⟨by rw [h.1], h.2⟩

theorem view_setCond_of_ne (h : b ≠ c) : (g.setCond c a).view b = g.view b := by
  have hblock : (g.setCond c a).blockAt b = g.blockAt b := by
    rw [setCond, blockAt_modify, if_neg fun hc => h hc.1.symm]
  simp only [view, items, cond, hblock]
  rfl

theorem view_setCond_self (hc : c < g.size) {u : List α} {k : Option α} {l : List Edge}
    (h : g.view c = (u, k, l)) : (g.setCond c a).view c = (u, some a, l) := by
  have hblock : (g.setCond c a).blockAt c = { g.blockAt c with cond := some a } := by
    rw [setCond, blockAt_modify, if_pos ⟨rfl, hc⟩]
  simp only [view, items, cond, hblock, Prod.mk.injEq] at h ⊢
  exact ⟨h.1, trivial, h.2.2⟩

theorem view_pushAll_of_ne (h : b ≠ c) : (g.pushAll c as).view b = g.view b := by
  induction as generalizing g with
  | nil => rfl
  | cons a as ih => exact ih.trans (view_push_of_ne h)

theorem view_pushAll_self (hc : c < g.size) {u : List α} {k : Option α} {l : List Edge}
    (h : g.view c = (u, k, l)) : (g.pushAll c as).view c = (u ++ as, k, l) := by
  induction as generalizing g u with
  | nil => rw [List.append_nil]; exact h
  | cons a as ih =>
    have := ih (by simpa using hc) (view_push_self (a := a) hc h)
    rwa [List.append_assoc] at this

/-! ## The elementary steps keep a graph sound -/

theorem cond_of_view {g g' : Graph α} (h : g'.view b = g.view b) : g'.cond b = g.cond b :=
  congrArg (·.2.1) h

theorem out_of_view {g g' : Graph α} (h : g'.view b = g.view b) : g'.out b = g.out b :=
  congrArg (·.2.2) h

@[simp] theorem cond_grow : g.grow.cond b = g.cond b := cond_of_view view_grow
@[simp] theorem cond_edgeOn : (g.edgeOn branch s t).cond b = g.cond b := rfl
@[simp] theorem cond_edge : (g.edge s t).cond b = g.cond b := rfl

@[simp] theorem cond_push : (g.push c a).cond b = g.cond b := by
  unfold cond push
  rw [blockAt_modify]
  split <;> rfl

@[simp] theorem cond_pushAll : (g.pushAll c as).cond b = g.cond b := by
  induction as generalizing g with
  | nil => rfl
  | cons a as ih => exact ih.trans cond_push

@[simp] theorem out_pushAll : (g.pushAll c as).out b = g.out b := by
  induction as generalizing g with
  | nil => rfl
  | cons a as ih => exact ih

theorem Sound.cond (h : Sound g) (hb : g.size ≤ b) : g.cond b = none :=
  congrArg (·.2.1) (h.view hb)

theorem Sound.grow (h : Sound g) : Sound g.grow where
  out b hb := by
    rw [out_of_view view_grow]
    exact h.out b (by simp at hb; omega)
  sides b hc e he := h.sides b (by simpa using hc) e he
  exit_lt := by have := h.exit_lt; simp; omega

theorem Sound.edgeOn (h : Sound g) (hs : s < g.size) (hside : g.cond s = none ∨ branch ≠ .always) :
    Sound (g.edgeOn branch s t) where
  out b hb := by
    have hb : g.size ≤ b := by simpa using hb
    rw [out_of_view (view_edgeOn_of_ne (by omega))]
    exact h.out b hb
  sides b hc e he := by
    simp only [Graph.out, Graph.edgeOn, List.filter_append, List.mem_append, List.mem_filter,
      List.mem_singleton, beq_iff_eq] at he
    rcases he with he | ⟨rfl, rfl⟩
    · exact h.sides b hc e (List.mem_filter.2 ⟨he.1, by simpa using he.2⟩)
    · exact hside.resolve_left hc
  exit_lt := by simpa using h.exit_lt

theorem Sound.edge (h : Sound g) (hs : s < g.size) (hc : g.cond s = none) : Sound (g.edge s t) :=
  h.edgeOn hs (.inl hc)

theorem Sound.push (h : Sound g) : Sound (g.push c a) where
  out b hb := h.out b (by simpa using hb)
  sides b hc e he := h.sides b (by simpa using hc) e he
  exit_lt := by simpa using h.exit_lt

theorem Sound.pushAll (h : Sound g) : Sound (g.pushAll c as) := by
  induction as generalizing g with
  | nil => exact h
  | cons a as ih => exact ih h.push

theorem Sound.setCond (h : Sound g) (hout : g.out c = []) : Sound (g.setCond c a) where
  out b hb := h.out b (by simpa using hb)
  sides b hc e he := by
    by_cases hb : b = c
    · subst hb
      have he : e ∈ g.out b := he
      simp [hout] at he
    · exact h.sides b (by rwa [cond_of_view (view_setCond_of_ne hb)] at hc) e he
  exit_lt := by simpa using h.exit_lt

end

/-! ## What laying out a piece of code does -/

/-- A block that the layout may go on with: it holds `is` so far, and nothing leaves it. -/
structure Open (g : Graph α) (b : Nat) (is : List α) : Prop where
  lt : b < g.size
  ne_exit : b ≠ exit
  view : g.view b = (is, none, [])

theorem Open.cond {g : Graph α} {b : Nat} {is : List α} (h : Open g b is) : g.cond b = none :=
  congrArg (·.2.1) h.view

theorem Open.out {g : Graph α} {b : Nat} {is : List α} (h : Open g b is) : g.out b = [] :=
  congrArg (·.2.2) h.view

/-- Going on from the open block `cur` with items `is`, the layout has added blocks to `g` and
ended in the open block `nxt` with items `js`; of the old blocks it has changed `cur` alone. -/
structure Extends (g g' : Graph α) (cur nxt : Nat) (is js : List α) : Prop where
  size_le : g.size ≤ g'.size
  sound : Sound g'
  isOpen : Open g' nxt js
  place : nxt = cur ∨ g.size ≤ nxt
  keeps : ∀ b < g.size, b ≠ cur → g'.view b = g.view b
  grows : is <+: g'.items cur

/-- `G` has what was added between `g` and `g'`, and the open block as a beginning. -/
structure Final (g g' G : Graph α) (cur nxt : Nat) (js : List α) : Prop where
  keeps : ∀ b, b = cur ∨ g.size ≤ b → b < g'.size → b ≠ nxt → G.view b = g'.view b
  grows : js <+: G.items nxt

theorem items_of_view {G : Graph α} {b : Nat} {is : List α} {c : Option α} {es : List Edge}
    (h : G.view b = (is, c, es)) : G.items b = is := congrArg (·.1) h

theorem Tail.of_view {G : Graph α} {b : Nat} {u as : List α} {c : Option α} {es : List Edge}
    (hb : b ≠ exit) (h : G.view b = (u ++ as, c, es)) : G.Tail (b, u.length) as c es where
  ne_exit := hb
  items := by
    show (G.items b).drop u.length = as
    rw [items_of_view h, List.drop_left]
  cond := congrArg (·.2.1) h
  out := congrArg (·.2.2) h

theorem Sound.open_new {g : Graph α} {b : Nat} (h : Sound g) (hb : g.size ≤ b) {g' : Graph α}
    (hlt : b < g'.size) (hv : g'.view b = g.view b) : Open g' b [] where
  lt := hlt
  ne_exit := by have := h.exit_lt; omega
  view := hv.trans (h.view hb)

theorem Extends.sealed {g g' G : Graph α} {cur nxt : Nat} {is js : List α} {edges : List Edge}
    (h : Extends g g' cur nxt is js)
    (hkeeps : ∀ b, b = cur ∨ g.size ≤ b → b < g'.size → b ≠ nxt → G.view b = g'.view b)
    (hnxt : G.view nxt = (js, none, edges)) :
    Final g g' G cur nxt js ∧ G.Tail (nxt, js.length) [] none edges :=
  ⟨⟨hkeeps, items_of_view hnxt ▸ List.prefix_refl js⟩,
    .of_view h.isOpen.ne_exit (by rw [List.append_nil]; exact hnxt)⟩

theorem Extends.refl {g : Graph α} {cur : Nat} {is : List α} (hs : Sound g)
    (ho : Open g cur is) : Extends g g cur cur is is where
  size_le := Nat.le_refl _
  sound := hs
  isOpen := ho
  place := .inl rfl
  keeps _ _ _ := rfl
  grows := items_of_view ho.view ▸ List.prefix_refl _

theorem Extends.trans {g₀ g₁ g₂ : Graph α} {a b c : Nat} {is js ks : List α}
    (h₁ : Extends g₀ g₁ a b is js) (h₂ : Extends g₁ g₂ b c js ks) (ha : a < g₀.size) :
    Extends g₀ g₂ a c is ks where
  size_le := Nat.le_trans h₁.size_le h₂.size_le
  sound := h₂.sound
  isOpen := h₂.isOpen
  place := by
    have := h₁.size_le
    rcases h₁.place with rfl | h <;> rcases h₂.place with rfl | h' <;> omega
  keeps x hx hxa := by
    have := h₁.size_le
    rw [h₂.keeps x (by omega) (by rcases h₁.place with rfl | h <;> omega), h₁.keeps x hx hxa]
  grows := by
    by_cases hab : a = b
    · subst hab
      have := h₁.grows
      rw [items_of_view h₁.isOpen.view] at this
      exact this.trans h₂.grows
    · have := h₁.size_le
      have hv := h₂.keeps a (by omega) hab
      rw [show g₂.items a = g₁.items a from congrArg (·.1) hv]
      exact h₁.grows

theorem Extends.of_new {g g' : Graph α} {cur nxt : Nat} {is as : List α} {c : Option α}
    {edges : List Edge} (hs : Sound g) (hs' : Sound g') (hnew : g.size ≤ nxt) (hlt : nxt < g'.size)
    (hnxt : g'.view nxt = g.view nxt) (hcur : g'.view cur = (is ++ as, c, edges))
    (hkeeps : ∀ b < g.size, b ≠ cur → g'.view b = g.view b) : Extends g g' cur nxt is [] where
  size_le := by omega
  sound := hs'
  isOpen := hs.open_new hnew hlt hnxt
  place := .inr hnew
  keeps := hkeeps
  grows := by
    rw [items_of_view hcur]
    exact List.prefix_append is as

theorem Final.of_trans {g₀ g₁ g₂ G : Graph α} {a b c : Nat} {is js ks : List α}
    (h₁ : Extends g₀ g₁ a b is js) (h₂ : Extends g₁ g₂ b c js ks) (ha : a < g₀.size)
    (hG : Final g₀ g₂ G a c ks) : Final g₀ g₁ G a b js ∧ Final g₁ g₂ G b c ks := by
  have hle₁ := h₁.size_le
  have hle₂ := h₂.size_le
  have hplace : b = a ∨ g₀.size ≤ b := h₁.place
  constructor
  · constructor
    · intro x hx hlt hne
      have hxc : x ≠ c := by rcases h₂.place with rfl | h <;> omega
      rw [hG.keeps x hx (by omega) hxc, h₂.keeps x hlt hne]
    · by_cases hbc : b = c
      · subst hbc
        have := h₂.grows
        rw [items_of_view h₂.isOpen.view] at this
        exact this.trans hG.grows
      · have hv := hG.keeps b hplace (by have := h₁.isOpen.lt; omega) hbc
        rw [show G.items b = g₂.items b from congrArg (·.1) hv]
        exact h₂.grows
  · exact ⟨fun x hx hlt hne => hG.keeps x (by omega) hlt hne, hG.grows⟩

/-- From an open block on, `lay` only adds to a sound graph, and what it adds is `laid` in every
graph that keeps it. -/
def LaysOut (lay : Nat → Graph α → Nat × Graph α) (laid : Graph α → CodePoint → CodePoint → Prop) :
    Prop :=
  ∀ (g : Graph α) (cur : Nat) (is : List α), Sound g → Open g cur is →
    ∃ nxt g' js, lay cur g = (nxt, g') ∧ Extends g g' cur nxt is js ∧
      ∀ G, Final g g' G cur nxt js → laid G (cur, is.length) (nxt, js.length)

section
variable {ts : List Target}

theorem laysOut_skip : LaysOut (layout ts · · .skip) (Laid (α := α) · ts .skip) := by
  intro g cur is hs ho
  exact ⟨cur, g, is, by simp [layout], .refl hs ho, fun G _ => rfl⟩

theorem laysOut_piece (a : α) : LaysOut (layout ts · · (.piece a)) (Laid · ts (.piece a)) := by
  intro g cur is hs ho
  have hview : (g.push cur a).view cur = (is ++ [a], none, []) := view_push_self ho.lt ho.view
  refine ⟨cur, g.push cur a, is ++ [a], by simp [layout], ?_, ?_⟩
  · exact
      { size_le := by simp
        sound := hs.push
        isOpen := ⟨by simpa using ho.lt, ho.ne_exit, hview⟩
        place := .inl rfl
        keeps := fun b _ hb => view_push_of_ne hb
        grows := by
          rw [items_of_view hview]
          exact List.prefix_append is [a] }
  · intro G hG
    obtain ⟨more, hmore⟩ := hG.grows
    refine ⟨by simp, more, ?_⟩
    show (G.items cur).drop is.length = [a] ++ more
    rw [← hmore, List.append_assoc, List.drop_left]

/-- The graph when the first side of a branch is about to be laid out: block `g.size` is where the
sides meet, the next one is where the first side begins. -/
def startBranch (g : Graph α) (cur : Nat) (init : Option α) (c : α) : Graph α :=
  ((g.pushAll cur init.toList).setCond cur c).grow.grow.edgeOn .yes cur (g.size + 1)

section
variable {g : Graph α} {cur b : Nat} {init : Option α} {c : α} {is : List α}

@[simp] theorem size_startBranch : (g.startBranch cur init c).size = g.size + 2 := by
  simp [startBranch]

theorem Sound.startBranch (h : Sound g) (ho : Open g cur is) :
    Sound (g.startBranch cur init c) := by
  have hlt := ho.lt
  have hout : (g.pushAll cur init.toList).out cur = [] := by simpa using ho.out
  exact (h.pushAll.setCond hout).grow.grow.edgeOn (by simp; omega) (.inr (by decide))

theorem view_startBranch_of_ne (hb : b ≠ cur) : (g.startBranch cur init c).view b = g.view b := by
  rw [startBranch, view_edgeOn_of_ne hb, view_grow, view_grow, view_setCond_of_ne hb,
    view_pushAll_of_ne hb]

theorem view_startBranch_self (ho : Open g cur is) :
    (g.startBranch cur init c).view cur =
      (is ++ init.toList, some c, [⟨cur, g.size + 1, .yes⟩]) := by
  refine view_edgeOn_self (l := []) ?_
  rw [view_grow, view_grow]
  exact view_setCond_self (by simpa using ho.lt) (view_pushAll_self ho.lt ho.view)

end

theorem laysOut_branch_none {init : Option α} {c : α} {yes : Stmt α}
    (h : LaysOut (layout ts · · yes) (Laid · ts yes)) :
    LaysOut (layout ts · · (.branch init c yes none)) (Laid · ts (.branch init c yes none)) := by
  intro g cur is hs ho
  have hcur := ho.lt
  have hexit := hs.exit_lt
  let g₁ := g.startBranch cur init c
  have hsize₁ : g₁.size = g.size + 2 := size_startBranch
  have hold₁ (b : Nat) (hb : b ≠ cur) : g₁.view b = g.view b := view_startBranch_of_ne hb
  obtain ⟨last, g₂, js, hlay, hx, hlaid⟩ := h g₁ (g.size + 1) [] (hs.startBranch ho)
    (hs.open_new (by omega) (by omega) (hold₁ _ (by omega)))
  have hsize₂ := hx.size_le
  have hlast := hx.isOpen.lt
  have hplace := hx.place
  let g₃ := (g₂.edge last g.size).edgeOn .no cur g.size
  have hview (b : Nat) (hb : b ≠ cur) (hl : b ≠ last) : g₃.view b = g₂.view b := by
    rw [view_edgeOn_of_ne hb, view_edge_of_ne hl]
  have hviewLast : g₃.view last = (js, none, always last [g.size]) := by
    rw [view_edgeOn_of_ne (by omega)]
    exact view_edge_self hx.isOpen.view
  have hviewCur : g₃.view cur =
      (is ++ init.toList, some c, [⟨cur, g.size + 1, .yes⟩, ⟨cur, g.size, .no⟩]) := by
    refine view_edgeOn_self (l := [⟨cur, g.size + 1, .yes⟩]) ?_
    rw [view_edge_of_ne (by omega), hx.keeps cur (by omega) (by omega)]
    exact view_startBranch_self ho
  have hviewJoin : g₃.view g.size = g.view g.size := by
    rw [hview _ (by omega) (by omega), hx.keeps _ (by omega) (by omega), hold₁ _ (by omega)]
  refine ⟨g.size, g₃, [], ?_, ?_, ?_⟩
  · simp only [g₁, startBranch] at hlay
    simp only [layout, fresh_eq, size_grow, size_setCond, size_pushAll, hlay, g₃]
  · have hs₃ : Sound g₃ :=
      (hx.sound.edge hlast hx.isOpen.cond).edgeOn (by simp; omega) (.inr (by decide))
    refine .of_new hs hs₃ (Nat.le_refl _) (by simp [g₃]; omega) hviewJoin hviewCur fun b hb hne => ?_
    rw [hview b hne (by omega), hx.keeps b (by omega) (by omega), hold₁ b hne]
  · intro G hG
    have hkeep (b : Nat) (hb : b = cur ∨ g.size ≤ b) (hlt : b < g₂.size) (hne : b ≠ g.size) :
        G.view b = g₃.view b := hG.keeps b hb (by simpa [g₃] using hlt) hne
    obtain ⟨hfinal, htail⟩ := hx.sealed (G := G)
      (fun b hb hlt hne => by
        rw [hkeep b (by omega) hlt (by omega), hview b (by omega) hne])
      (by rw [hkeep last (by omega) hlast (by omega)]; exact hviewLast)
    refine ⟨g.size + 1, (last, js.length), ?_, hlaid G hfinal, htail, rfl⟩
    exact .of_view ho.ne_exit (by rw [hkeep cur (.inl rfl) (by omega) (by omega)]; exact hviewCur)

theorem laysOut_branch_some {init : Option α} {c : α} {yes no : Stmt α}
    (h : LaysOut (layout ts · · yes) (Laid · ts yes))
    (h' : LaysOut (layout ts · · no) (Laid · ts no)) :
    LaysOut (layout ts · · (.branch init c yes (some no)))
      (Laid · ts (.branch init c yes (some no))) := by
  intro g cur is hs ho
  have hcur := ho.lt
  have hexit := hs.exit_lt
  let g₁ := g.startBranch cur init c
  have hsize₁ : g₁.size = g.size + 2 := size_startBranch
  have hold₁ (b : Nat) (hb : b ≠ cur) : g₁.view b = g.view b := view_startBranch_of_ne hb
  obtain ⟨last, g₂, js, hlay, hx, hlaid⟩ := h g₁ (g.size + 1) [] (hs.startBranch ho)
    (hs.open_new (by omega) (by omega) (hold₁ _ (by omega)))
  have hsize₂ := hx.size_le
  have hlast := hx.isOpen.lt
  have hplace := hx.place
  let g₃ := (g₂.edge last g.size).grow.edgeOn .no cur g₂.size
  have hsize₃ : g₃.size = g₂.size + 1 := by simp [g₃]
  have hview₃ (b : Nat) (hb : b ≠ cur) (hl : b ≠ last) : g₃.view b = g₂.view b := by
    rw [view_edgeOn_of_ne hb, view_grow, view_edge_of_ne hl]
  have hs₃ : Sound g₃ :=
    (hx.sound.edge hlast hx.isOpen.cond).grow.edgeOn (by simp; omega) (.inr (by decide))
  obtain ⟨last', g₄, js', hlay', hx', hlaid'⟩ := h' g₃ g₂.size [] hs₃
    (hx.sound.open_new (Nat.le_refl _) (by omega) (hview₃ _ (by omega) (by omega)))
  have hsize₄ := hx'.size_le
  have hlast' := hx'.isOpen.lt
  have hplace' := hx'.place
  let g₅ := g₄.edge last' g.size
  have hview (b : Nat) (hb : b < g₂.size) (hc : b ≠ cur) (hl : b ≠ last) :
      g₅.view b = g₂.view b := by
    rw [view_edge_of_ne (by omega), hx'.keeps b (by omega) (by omega), hview₃ b hc hl]
  have hviewLast : g₅.view last = (js, none, always last [g.size]) := by
    rw [view_edge_of_ne (by omega), hx'.keeps last (by omega) (by omega),
      view_edgeOn_of_ne (by omega), view_grow]
    exact view_edge_self hx.isOpen.view
  have hviewCur : g₅.view cur =
      (is ++ init.toList, some c, [⟨cur, g.size + 1, .yes⟩, ⟨cur, g₂.size, .no⟩]) := by
    rw [view_edge_of_ne (by omega), hx'.keeps cur (by omega) (by omega)]
    refine view_edgeOn_self (l := [⟨cur, g.size + 1, .yes⟩]) ?_
    rw [view_grow, view_edge_of_ne (by omega), hx.keeps cur (by omega) (by omega)]
    exact view_startBranch_self ho
  have hviewJoin : g₅.view g.size = g.view g.size := by
    rw [hview _ (by omega) (by omega) (by omega), hx.keeps _ (by omega) (by omega),
      hold₁ _ (by omega)]
  refine ⟨g.size, g₅, [], ?_, ?_, ?_⟩
  · simp only [g₁, startBranch] at hlay
    simp only [g₃] at hlay'
    simp only [layout, fresh_eq, size_grow, size_setCond, size_pushAll, size_edge, hlay, hlay', g₅]
  · have hs₅ : Sound g₅ := hx'.sound.edge hlast' hx'.isOpen.cond
    refine .of_new hs hs₅ (Nat.le_refl _) (by simp [g₅]; omega) hviewJoin hviewCur fun b hb hne => ?_
    rw [hview b (by omega) hne (by omega), hx.keeps b (by omega) (by omega), hold₁ b hne]
  · intro G hG
    have hkeep (b : Nat) (hb : b = cur ∨ g.size ≤ b) (hlt : b < g₄.size) (hne : b ≠ g.size) :
        G.view b = g₅.view b := hG.keeps b hb (by simpa [g₅] using hlt) hne
    obtain ⟨hfinal, htail⟩ := hx.sealed (G := G)
      (fun b hb hlt hne => by
        rw [hkeep b (by omega) (by omega) (by omega), hview b hlt (by omega) hne])
      (by rw [hkeep last (by omega) (by omega) (by omega)]; exact hviewLast)
    obtain ⟨hfinal', htail'⟩ := hx'.sealed (G := G)
      (fun b hb hlt hne => by
        rw [hkeep b (by omega) hlt (by omega)]
        exact view_edge_of_ne hne)
      (by
        rw [hkeep last' (by omega) hlast' (by omega)]
        exact view_edge_self hx'.isOpen.view)
    refine ⟨g.size + 1, (last, js.length), g₂.size, (last', js'.length), ?_, hlaid G hfinal, htail,
      hlaid' G hfinal', htail', rfl⟩
    exact .of_view ho.ne_exit (by rw [hkeep cur (.inl rfl) (by omega) (by omega)]; exact hviewCur)

/-- The graph when the body of a loop is about to be laid out: block `g.size` is the header, then
come the block behind the loop, the one for the update and the beginning of the body. -/
def startLoop (g : Graph α) (cur : Nat) (before head : List α) (bounded : Bool) : Graph α :=
  let g' := ((g.grow.grow.grow.pushAll cur before).pushAll g.size head).edge cur g.size
  (if bounded then g'.edge g.size (g.size + 1) else g').grow.edge g.size (g.size + 3)

section
variable {g : Graph α} {cur b : Nat} {before head is : List α} {bounded : Bool}

@[simp] theorem size_startLoop : (g.startLoop cur before head bounded).size = g.size + 4 := by
  cases bounded <;> simp [startLoop]

theorem Sound.startLoop (h : Sound g) (ho : Open g cur is) :
    Sound (g.startLoop cur before head bounded) := by
  have hlt := ho.lt
  have hcur : g.cond cur = none := ho.cond
  have hheader : g.cond g.size = none := h.cond (Nat.le_refl _)
  have hs : Sound (((g.grow.grow.grow.pushAll cur before).pushAll g.size head).edge cur g.size) :=
    h.grow.grow.grow.pushAll.pushAll.edge (by simp; omega) (by simpa using hcur)
  have hlast {g' : Graph α} (hs' : Sound g') (hsize : g'.size = g.size + 3)
      (hc : g'.cond g.size = none) : Sound (g'.grow.edge g.size (g.size + 3)) :=
    hs'.grow.edge (by simp; omega) (by simpa using hc)
  cases bounded with
  | false => exact hlast hs (by simp) (by simpa using hheader)
  | true =>
    refine hlast (hs.edge ?_ ?_) (by simp) (by simpa using hheader)
    · simp
      omega
    · simpa using hheader

theorem view_startLoop_of_ne (hb : b ≠ cur) (hn : b ≠ g.size) :
    (g.startLoop cur before head bounded).view b = g.view b := by
  cases bounded <;>
    simp [startLoop, view_edge_of_ne hn, view_edge_of_ne hb, view_pushAll_of_ne hn,
      view_pushAll_of_ne hb]

theorem view_startLoop_self (ho : Open g cur is) :
    (g.startLoop cur before head bounded).view cur = (is ++ before, none, always cur [g.size]) := by
  have hn : cur ≠ g.size := Nat.ne_of_lt ho.lt
  have hcur : (((g.grow.grow.grow.pushAll cur before).pushAll g.size head).edge cur g.size).view
      cur = (is ++ before, none, always cur [g.size]) := by
    refine view_edge_self (l := []) ?_
    rw [view_pushAll_of_ne hn]
    exact view_pushAll_self (by simp; have := ho.lt; omega) (by simpa using ho.view)
  cases bounded <;> simpa [startLoop, view_edge_of_ne hn] using hcur

theorem view_startLoop_header (hs : Sound g) (hcur : cur ≠ g.size) :
    (g.startLoop cur before head bounded).view g.size =
      (head, none, always g.size ((if bounded then [g.size + 1] else []) ++ [g.size + 3])) := by
  have hhead : (((g.grow.grow.grow.pushAll cur before).pushAll g.size head).edge cur g.size).view
      g.size = (head, none, []) := by
    rw [view_edge_of_ne hcur.symm]
    refine view_pushAll_self (u := []) (by simp; omega) ?_
    rw [view_pushAll_of_ne hcur.symm]
    simpa using hs.view (Nat.le_refl _)
  cases bounded with
  | false => exact view_edge_self (l := []) (by simpa using hhead)
  | true =>
    exact view_edge_self (l := [⟨g.size, g.size + 1, .always⟩])
      (by simpa using view_edge_self (t := g.size + 1) hhead)

end

theorem laysOut_loop {label : Option String} {before head : List α} {bounded : Bool}
    {update : Option α} {body : Stmt α}
    (h : ∀ after next, LaysOut (layout (⟨label, after, some next⟩ :: ts) · · body)
      (Laid · (⟨label, after, some next⟩ :: ts) body)) :
    LaysOut (layout ts · · (.loop label before head bounded update body))
      (Laid · ts (.loop label before head bounded update body)) := by
  intro g cur is hs ho
  have hcur := ho.lt
  have hexit := hs.exit_lt
  let g₁ := g.startLoop cur before head bounded
  have hsize₁ : g₁.size = g.size + 4 := size_startLoop
  have hold₁ (b : Nat) (hb : b ≠ cur) (hn : b ≠ g.size) : g₁.view b = g.view b :=
    view_startLoop_of_ne hb hn
  obtain ⟨last, g₂, js, hlay, hx, hlaid⟩ := h (g.size + 1) (g.size + 2) g₁ (g.size + 3) []
    (hs.startLoop ho) (hs.open_new (by omega) (by omega) (hold₁ _ (by omega) (by omega)))
  have hsize₂ := hx.size_le
  have hlast := hx.isOpen.lt
  have hplace := hx.place
  let g₃ := ((g₂.edge last (g.size + 2)).pushAll (g.size + 2) update.toList).edge (g.size + 2) g.size
  have hview (b : Nat) (hb : b ≠ g.size + 2) (hl : b ≠ last) : g₃.view b = g₂.view b := by
    rw [view_edge_of_ne hb, view_pushAll_of_ne hb, view_edge_of_ne hl]
  have hviewLast : g₃.view last = (js, none, always last [g.size + 2]) := by
    rw [view_edge_of_ne (by omega), view_pushAll_of_ne (by omega)]
    exact view_edge_self hx.isOpen.view
  have hnew : g₂.view (g.size + 2) = ([], none, []) := by
    rw [hx.keeps _ (by omega) (by omega), hold₁ _ (by omega) (by omega)]
    exact hs.view (by omega)
  have hviewNext : g₃.view (g.size + 2) = (update.toList, none, always (g.size + 2) [g.size]) := by
    refine view_edge_self (l := []) (view_pushAll_self (u := []) (by simp; omega) ?_)
    rw [view_edge_of_ne (by omega)]
    exact hnew
  have hviewCur : g₃.view cur = (is ++ before, none, always cur [g.size]) := by
    rw [hview _ (by omega) (by omega), hx.keeps _ (by omega) (by omega)]
    exact view_startLoop_self ho
  have hviewHeader : g₃.view g.size =
      (head, none, always g.size ((if bounded then [g.size + 1] else []) ++ [g.size + 3])) := by
    rw [hview _ (by omega) (by omega), hx.keeps _ (by omega) (by omega)]
    exact view_startLoop_header hs (by omega)
  have hviewAfter : g₃.view (g.size + 1) = g.view (g.size + 1) := by
    rw [hview _ (by omega) (by omega), hx.keeps _ (by omega) (by omega),
      hold₁ _ (by omega) (by omega)]
  refine ⟨g.size + 1, g₃, [], ?_, ?_, ?_⟩
  · simp only [g₁, startLoop] at hlay
    cases bounded <;>
      simp [layout, fresh_eq, g₃] at hlay ⊢ <;> simp [hlay]
  · have hcond : g₂.cond (g.size + 2) = none := congrArg (·.2.1) hnew
    have hs₃ : Sound g₃ :=
      (hx.sound.edge hlast hx.isOpen.cond).pushAll.edge (by simp; omega) (by simpa using hcond)
    refine .of_new hs hs₃ (by omega) (by simp [g₃]; omega) hviewAfter hviewCur fun b hb hne => ?_
    rw [hview b (by omega) (by omega), hx.keeps b (by omega) (by omega), hold₁ b hne (by omega)]
  · intro G hG
    have hkeep (b : Nat) (hb : b = cur ∨ g.size ≤ b) (hlt : b < g₂.size) (hne : b ≠ g.size + 1) :
        G.view b = g₃.view b := hG.keeps b hb (by simpa [g₃] using hlt) hne
    obtain ⟨hfinal, htail⟩ := hx.sealed (G := G)
      (fun b hb hlt hne => by
        rw [hkeep b (by omega) hlt (by omega), hview b (by omega) hne])
      (by rw [hkeep last (by omega) hlast (by omega)]; exact hviewLast)
    have hheader : G.Tail (g.size, 0) head none
        (always g.size ((if bounded then [g.size + 1] else []) ++ [g.size + 3])) :=
      .of_view (u := []) (by omega)
        (by rw [hkeep _ (by omega) (by omega) (by omega)]; exact hviewHeader)
    have hnext : G.Tail (g.size + 2, 0) update.toList none (always (g.size + 2) [g.size]) :=
      .of_view (u := []) (by omega)
        (by rw [hkeep _ (by omega) (by omega) (by omega)]; exact hviewNext)
    refine ⟨g.size, g.size + 2, g.size + 3, (last, js.length), ?_, hheader, hlaid G hfinal, htail,
      hnext, rfl⟩
    exact .of_view ho.ne_exit (by rw [hkeep cur (.inl rfl) (by omega) (by omega)]; exact hviewCur)

/-- Code that leads away from its block, with a fresh block behind it that nothing leads to. -/
theorem extends_leave {g g' : Graph α} {cur : Nat} {is as : List α} {edges : List Edge}
    (hs : Sound g) (ho : Open g cur is) (hs' : Sound g') (hsize : g'.size = g.size)
    (hcur : g'.view cur = (is ++ as, none, edges)) (hold : ∀ b, b ≠ cur → g'.view b = g.view b) :
    Extends g g'.grow cur g.size is [] ∧
      ∀ G, Final g g'.grow G cur g.size [] → G.Tail (cur, is.length) as none edges := by
  have hlt := ho.lt
  refine ⟨?_, fun G hG => .of_view ho.ne_exit ?_⟩
  · have hfresh : g'.grow.view g.size = g.view g.size := by rw [view_grow, hold _ (by omega)]
    refine .of_new hs hs'.grow (Nat.le_refl _) (by simp; omega) hfresh (view_grow.trans hcur)
      fun b hb hne => ?_
    rw [view_grow, hold b hne]
  · rw [hG.keeps cur (.inl rfl) (by simp; omega) (by omega), view_grow]
    exact hcur

theorem laysOut_stop (last : Option α) :
    LaysOut (layout ts · · (.stop last)) (Laid · ts (.stop last)) := by
  intro g cur is hs ho
  have hcur : ((g.pushAll cur last.toList).edge cur exit).view cur =
      (is ++ last.toList, none, always cur [exit]) :=
    view_edge_self (l := []) (view_pushAll_self ho.lt ho.view)
  obtain ⟨hx, hG⟩ := extends_leave hs ho
    (hs.pushAll.edge (by simpa using ho.lt) (by simpa using ho.cond)) (by simp) hcur
    fun b hb => by rw [view_edge_of_ne hb, view_pushAll_of_ne hb]
  exact ⟨_, _, [], by simp [layout, fresh_eq], hx, fun G h => by simpa only [Laid] using hG G h⟩

theorem laysOut_jump (isBreak : Bool) (label : Option String) :
    LaysOut (layout ts · · (.jump isBreak label)) (Laid (α := α) · ts (.jump isBreak label)) := by
  intro g cur is hs ho
  cases ht : jumpTo? ts isBreak label with
  | none =>
    have hcur : g.view cur = (is ++ [], none, []) := by simpa using ho.view
    obtain ⟨hx, hG⟩ := extends_leave hs ho hs rfl hcur fun _ _ => rfl
    exact ⟨_, _, [], by simp [layout, fresh_eq, ht], hx,
      fun G h => by simp only [Laid, ht]; exact hG G h⟩
  | some t =>
    have hcur : (g.edge cur t).view cur = (is ++ [], none, always cur [t]) := by
      rw [List.append_nil]
      exact view_edge_self ho.view
    obtain ⟨hx, hG⟩ := extends_leave hs ho (hs.edge ho.lt ho.cond) size_edge hcur
      fun b hb => view_edge_of_ne hb
    exact ⟨_, _, [], by simp [layout, fresh_eq, ht], hx,
      fun G h => by simp only [Laid, ht]; exact hG G h⟩

theorem laysOut_nil : LaysOut (layoutAll ts · · []) (LaidAll (α := α) · ts []) := by
  intro g cur is hs ho
  exact ⟨cur, g, is, by simp [layoutAll], .refl hs ho, fun G _ => rfl⟩

theorem laysOut_cons {s : Stmt α} {rest : List (Stmt α)}
    (h : LaysOut (layout ts · · s) (Laid · ts s))
    (hrest : LaysOut (layoutAll ts · · rest) (LaidAll · ts rest)) :
    LaysOut (layoutAll ts · · (s :: rest)) (LaidAll · ts (s :: rest)) := by
  intro g cur is hs ho
  obtain ⟨mid, g₁, js, hlay, hx, hlaid⟩ := h g cur is hs ho
  obtain ⟨nxt, g₂, ks, hlay', hx', hlaid'⟩ := hrest g₁ mid js hx.sound hx.isOpen
  refine ⟨nxt, g₂, ks, by simp only [layoutAll, hlay, hlay'], hx.trans hx' ho.lt, fun G hG => ?_⟩
  obtain ⟨hG₁, hG₂⟩ := hG.of_trans hx hx' ho.lt
  exact ⟨(mid, js.length), hlaid G hG₁, hlaid' G hG₂⟩

/-! ## Clauses -/

/-- Laying clauses out adds edges to `cur` and to the block that falls into them, and new blocks
in which the clauses are laid out. -/
structure Entered (ts : List Target) (after : Nat) (clauses : List (Clause α)) (g g' : Graph α)
    (cur : Nat) (fallen : Option Nat) (starts : List Nat) : Prop where
  size_le : g.size ≤ g'.size
  sound : Sound g'
  keeps : ∀ b < g.size, b ≠ cur → fallen ≠ some b → g'.view b = g.view b
  enters : ∀ is c es, g.view cur = (is, c, es) → g'.view cur = (is, c, es ++ always cur starts)
  falls : ∀ p, fallen = some p → ∀ is c es, g.view p = (is, c, es) →
    g'.view p = (is, c, es ++ always p starts.head?.toList)
  laid : ∀ G, (∀ b, g.size ≤ b → b < g'.size → G.view b = g'.view b) →
    LaidClauses G ts after clauses starts

/-- The clauses are entered from every block, and from another one that falls into them. -/
def LaysOutClauses (ts : List Target) (after : Nat) (clauses : List (Clause α)) : Prop :=
  ∀ (g : Graph α) (cur : Nat) (fallen : Option Nat), Sound g → cur < g.size → g.cond cur = none →
    (∀ p, fallen = some p → p < g.size ∧ p ≠ cur ∧ g.cond p = none) →
    ∃ starts, Entered ts after clauses g (layoutClauses ts cur after fallen g clauses) cur fallen
      starts

theorem laysOutClauses_nil {after : Nat} : LaysOutClauses (α := α) ts after [] := by
  intro g cur fallen hs hcur hcond hfallen
  exact ⟨[],
    { size_le := Nat.le_refl _
      sound := hs
      keeps := fun _ _ _ _ => rfl
      enters := fun is c es h => by simpa [always, layoutClauses] using h
      falls := fun p hp is c es h => by simpa [always, layoutClauses] using h
      laid := fun G _ => rfl }⟩

/-- The graph when the body of a clause is about to be laid out in the new block `g.size`. -/
def startClause (g : Graph α) (cur : Nat) (fallen : Option Nat) (head : List α) : Graph α :=
  let g' := g.grow.edge cur g.size
  (fallen.elim g' fun p => g'.edge p g.size).pushAll g.size head

/-- The graph when the body of a clause has ended in `last`: from there it leads behind the
choice, or falls into the clauses that are left. -/
def endClause (g : Graph α) (last after : Nat) (falls : Bool) : Graph α :=
  if falls then g else g.edge last after

section
variable {g : Graph α} {cur b p : Nat} {fallen : Option Nat} {head is : List α} {c : Option α}
  {es : List Edge}

@[simp] theorem size_startClause : (g.startClause cur fallen head).size = g.size + 1 := by
  cases fallen <;> simp [startClause]

theorem Sound.startClause (h : Sound g) (hcur : cur < g.size) (hcond : g.cond cur = none)
    (hfallen : ∀ p, fallen = some p → p < g.size ∧ p ≠ cur ∧ g.cond p = none) :
    Sound (g.startClause cur fallen head) := by
  have hs : Sound (g.grow.edge cur g.size) := h.grow.edge (by simp; omega) (by simpa using hcond)
  cases fallen with
  | none => exact hs.pushAll
  | some p =>
    obtain ⟨hp, -, hpc⟩ := hfallen p rfl
    exact (hs.edge (by simp; omega) (by simpa using hpc)).pushAll

theorem view_startClause_of_ne (hn : b ≠ g.size) (hb : b ≠ cur) (hp : fallen ≠ some b) :
    (g.startClause cur fallen head).view b = g.view b := by
  cases fallen with
  | none => rw [startClause, view_pushAll_of_ne hn]; exact (view_edge_of_ne hb).trans view_grow
  | some p =>
    have hne : b ≠ p := fun h => hp (h ▸ rfl)
    rw [startClause, view_pushAll_of_ne hn]
    exact (view_edge_of_ne hne).trans ((view_edge_of_ne hb).trans view_grow)

theorem view_startClause_cur (hcur : cur < g.size)
    (hfallen : ∀ p, fallen = some p → p < g.size ∧ p ≠ cur ∧ g.cond p = none)
    (h : g.view cur = (is, c, es)) :
    (g.startClause cur fallen head).view cur = (is, c, es ++ always cur [g.size]) := by
  have hedge : (g.grow.edge cur g.size).view cur = (is, c, es ++ always cur [g.size]) :=
    view_edge_self (view_grow.trans h)
  rw [startClause, view_pushAll_of_ne (by omega)]
  cases fallen with
  | none => exact hedge
  | some p => exact (view_edge_of_ne (hfallen p rfl).2.1.symm).trans hedge

theorem view_startClause_fallen (hp : p < g.size) (hne : p ≠ cur) (h : g.view p = (is, c, es)) :
    (g.startClause cur (some p) head).view p = (is, c, es ++ always p [g.size]) := by
  rw [startClause, view_pushAll_of_ne (by omega)]
  exact view_edge_self ((view_edge_of_ne hne).trans (view_grow.trans h))

theorem view_startClause_new (hs : Sound g) (hcur : cur < g.size)
    (hfallen : ∀ p, fallen = some p → p < g.size ∧ p ≠ cur ∧ g.cond p = none) :
    (g.startClause cur fallen head).view g.size = (head, none, []) := by
  have hedge : (g.grow.edge cur g.size).view g.size = ([], none, []) := by
    rw [view_edge_of_ne (by omega), view_grow, hs.view (Nat.le_refl _)]
  refine view_pushAll_self (u := []) ?_ ?_
  · cases fallen <;> simp
  · cases fallen with
    | none => exact hedge
    | some p =>
      have hp := (hfallen p rfl).1
      exact (view_edge_of_ne (by omega)).trans hedge

variable {last after : Nat} {falls : Bool}

@[simp] theorem size_endClause : (g.endClause last after falls).size = g.size := by
  cases falls <;> rfl

theorem Sound.endClause (h : Sound g) (ho : Open g last is) :
    Sound (g.endClause last after falls) := by
  cases falls with
  | false => exact h.edge ho.lt ho.cond
  | true => exact h

theorem view_endClause_of_ne (hb : b ≠ last) : (g.endClause last after falls).view b = g.view b := by
  cases falls with
  | false => exact view_edge_of_ne hb
  | true => rfl

/-- A clause is laid out, and then the rest, into which it falls through if it says so. -/
theorem layoutClauses_cons {isDefault : Bool} {body : List (Stmt α)} {rest : List (Clause α)}
    {g₂ : Graph α} (hlay : layoutAll ts g.size (g.startClause cur fallen head) body = (last, g₂)) :
    layoutClauses ts cur after fallen g (.mk isDefault head body falls :: rest) =
      layoutClauses ts cur after (if falls then some last else none) (g₂.endClause last after falls)
        rest := by
  simp only [startClause] at hlay
  cases falls <;> simp only [layoutClauses, fresh_eq, hlay, endClause] <;> rfl

end

theorem laysOutClauses_cons {after : Nat} {isDefault falls : Bool} {head : List α}
    {body : List (Stmt α)} {rest : List (Clause α)}
    (h : LaysOut (layoutAll ts · · body) (LaidAll · ts body))
    (hrest : LaysOutClauses ts after rest) :
    LaysOutClauses ts after (.mk isDefault head body falls :: rest) := by
  intro g cur fallen hs hcur hcond hfallen
  have hexit := hs.exit_lt
  let g₁ := g.startClause cur fallen head
  have hsize₁ : g₁.size = g.size + 1 := size_startClause
  have hnew : Open g₁ g.size head :=
    ⟨by omega, by omega, view_startClause_new hs hcur hfallen⟩
  obtain ⟨last, g₂, js, hlay, hx, hlaid⟩ := h g₁ g.size head (hs.startClause hcur hcond hfallen) hnew
  have hsize₂ := hx.size_le
  have hlast := hx.isOpen.lt
  have hplace := hx.place
  let g₃ := g₂.endClause last after falls
  let fallen' := if falls then some last else none
  have hsize₃ : g₃.size = g₂.size := size_endClause
  have hs₃ : Sound g₃ := hx.sound.endClause hx.isOpen
  have hold₃ (b : Nat) (hb : b ≠ last) : g₃.view b = g₂.view b := view_endClause_of_ne hb
  have hcond₃ : g₃.cond cur = none := by
    rw [cond_of_view (hold₃ cur (by omega)), cond_of_view (hx.keeps cur (by omega) (by omega))]
    cases fallen <;> simpa [g₁, startClause] using hcond
  obtain ⟨starts, he⟩ := hrest g₃ cur fallen' hs₃ (by omega) hcond₃ (by
    intro p hp
    cases falls with
    | false => exact absurd hp (by simp [fallen'])
    | true =>
      obtain rfl : last = p := by simpa [fallen'] using hp
      exact ⟨by omega, by omega, hx.isOpen.cond⟩)
  let g₄ := layoutClauses ts cur after fallen' g₃ rest
  have hstep : layoutClauses ts cur after fallen g (.mk isDefault head body falls :: rest) = g₄ :=
    layoutClauses_cons hlay
  have hview (b : Nat) (hb : b < g₂.size) (hc : b ≠ cur) (hl : b ≠ last) :
      g₄.view b = g₂.view b := by
    have hfall : fallen' ≠ some b := by
      cases falls with
      | false => simp [fallen']
      | true => simpa [fallen'] using hl.symm
    rw [he.keeps b (by omega) hc hfall, hold₃ b hl]
  have hviewLast : g₄.view last =
      (js, none, always last (if falls then starts.head?.toList else [after])) := by
    have hopen := hx.isOpen.view
    cases falls with
    | false =>
      rw [he.keeps last (by omega) (by omega) (by simp [fallen'])]
      exact view_edge_self hopen
    | true => exact he.falls last rfl _ _ _ hopen
  have hsize₄ : g₃.size ≤ g₄.size := he.size_le
  rw [hstep]
  refine ⟨g.size :: starts,
    { size_le := by omega
      sound := he.sound
      keeps := fun b hb hc hf => ?_
      enters := fun is c es hv => ?_
      falls := fun p hp is c es hv => ?_
      laid := fun G hG => ?_ }⟩
  · rw [hview b (by omega) hc (by omega), hx.keeps b (by omega) (by omega)]
    exact view_startClause_of_ne (by omega) hc hf
  · have hv₁ : g₁.view cur = (is, c, es ++ always cur [g.size]) :=
      view_startClause_cur hcur hfallen hv
    have hv₃ : g₃.view cur = (is, c, es ++ always cur [g.size]) := by
      rw [hold₃ cur (by omega), hx.keeps cur (by omega) (by omega)]
      exact hv₁
    rw [he.enters _ _ _ hv₃, List.append_assoc]
    rfl
  · subst hp
    obtain ⟨hlt, hne, -⟩ := hfallen p rfl
    rw [hview p (by omega) hne (by omega), hx.keeps p (by omega) (by omega)]
    exact view_startClause_fallen hlt hne hv
  · have hkeep (b : Nat) (hb : g.size ≤ b) (hlt : b < g₂.size) (hl : b ≠ last) :
        G.view b = g₂.view b := by
      rw [hG b hb (by omega), hview b hlt (by omega) hl]
    obtain ⟨hfinal, htail⟩ := hx.sealed (G := G)
      (fun b hb hlt hl => hkeep b (by omega) hlt hl)
      (by rw [hG last (by omega) (by omega)]; exact hviewLast)
    have hitems : ∃ more, G.items g.size = head ++ more := by
      obtain ⟨more, hmore⟩ := hx.grows
      refine ⟨more, hmore.symm ▸ ?_⟩
      by_cases hl : g.size = last
      · rw [hl, items_of_view hx.isOpen.view, items_of_view (hG last (by omega) (by omega) |>.trans
          hviewLast)]
      · exact congrArg (·.1) (hkeep g.size (Nat.le_refl _) (by omega) hl)
    exact ⟨g.size, starts, (last, js.length), rfl, hitems, hlaid G hfinal, htail,
      he.laid G fun b hb hlt => hG b (by omega) hlt⟩

theorem laysOut_choice {label : Option String} {head : List α} {waits : Bool}
    {clauses : List (Clause α)}
    (h : ∀ after, LaysOutClauses (⟨label, after, none⟩ :: ts) after clauses) :
    LaysOut (layout ts · · (.choice label head waits clauses))
      (Laid · ts (.choice label head waits clauses)) := by
  intro g cur is hs ho
  have hcur := ho.lt
  let g₁ := g.grow.pushAll cur head
  have hsize₁ : g₁.size = g.size + 1 := by simp [g₁]
  have hold₁ (b : Nat) (hb : b ≠ cur) : g₁.view b = g.view b := by
    rw [view_pushAll_of_ne hb, view_grow]
  have hcur₁ : g₁.view cur = (is ++ head, none, []) :=
    view_pushAll_self (by simp; omega) (view_grow.trans ho.view)
  obtain ⟨starts, he⟩ := h g.size g₁ cur none hs.grow.pushAll (by omega)
    (congrArg (·.2.1) hcur₁) (fun p hp => by simp at hp)
  let g₂ := layoutClauses (⟨label, g.size, none⟩ :: ts) cur g.size none g₁ clauses
  have hsize₂ : g₁.size ≤ g₂.size := he.size_le
  have hcur₂ : g₂.view cur = (is ++ head, none, always cur starts) := he.enters _ _ _ hcur₁
  -- without a default clause control may pass the clauses by, unless the choice waits for one
  let skips := !clauses.any Clause.isDefault && !waits
  let g₃ := if skips then g₂.edge cur g.size else g₂
  have hsize₃ : g₃.size = g₂.size := by
    simp only [g₃]
    cases skips <;> rfl
  have hs₃ : Sound g₃ := by
    simp only [g₃]
    cases skips with
    | false => exact he.sound
    | true => exact he.sound.edge (Nat.lt_of_lt_of_le (by omega) hsize₂) (congrArg (·.2.1) hcur₂)
  have hold₃ (b : Nat) (hb : b ≠ cur) : g₃.view b = g₂.view b := by
    simp only [g₃]
    cases skips with
    | false => rfl
    | true => exact view_edge_of_ne hb
  have hcur₃ : g₃.view cur =
      (is ++ head, none, always cur (choiceTargets waits clauses starts g.size)) := by
    simp only [g₃, choiceTargets]
    cases hskips : skips with
    | false => simpa [show (!clauses.any Clause.isDefault && !waits) = false from hskips] using hcur₂
    | true =>
      rw [show (!clauses.any Clause.isDefault && !waits) = true from hskips]
      simpa [always] using view_edge_self (t := g.size) hcur₂
  refine ⟨g.size, g₃, [], ?_, ?_, ?_⟩
  · simp only [layout, fresh_eq, g₃, g₂, g₁, skips]
    rfl
  · have hold (b : Nat) (hb : b < g₁.size) (hne : b ≠ cur) : g₃.view b = g.view b := by
      rw [hold₃ b hne, he.keeps b hb hne (by simp), hold₁ b hne]
    exact .of_new hs hs₃ (Nat.le_refl _) (by omega) (hold g.size (by omega) (by omega)) hcur₃
      fun b hb hne => hold b (by omega) hne
  · intro G hG
    refine ⟨starts, .of_view ho.ne_exit ?_, he.laid G fun b hb (hlt : b < g₂.size) => ?_, rfl⟩
    · rw [hG.keeps cur (.inl rfl) (by omega) (by omega)]
      exact hcur₃
    · rw [hG.keeps b (.inr (by omega)) (by omega) (by omega), hold₃ b (by omega)]

/-! ## Every body -/

mutual
/-- Every statement is laid out where the layout puts it. -/
theorem laysOut : ∀ (s : Stmt α) (ts : List Target), LaysOut (layout ts · · s) (Laid · ts s)
  | .skip, _ => laysOut_skip
  | .piece a, _ => laysOut_piece a
  | .block body, ts => laysOutAll body ts
  | .branch _ _ yes none, ts => laysOut_branch_none (laysOut yes ts)
  | .branch _ _ yes (some no), ts => laysOut_branch_some (laysOut yes ts) (laysOut no ts)
  | .loop _ _ _ _ _ body, _ => laysOut_loop fun _ _ => laysOut body _
  | .choice _ _ _ clauses, _ => laysOut_choice fun after => laysOutClauses clauses _ after
  | .stop last, _ => laysOut_stop last
  | .jump isBreak label, _ => laysOut_jump isBreak label

theorem laysOutAll : ∀ (ss : List (Stmt α)) (ts : List Target),
    LaysOut (layoutAll ts · · ss) (LaidAll · ts ss)
  | [], _ => laysOut_nil
  | s :: rest, ts => laysOut_cons (laysOut s ts) (laysOutAll rest ts)

theorem laysOutClauses : ∀ (cs : List (Clause α)) (ts : List Target) (after : Nat),
    LaysOutClauses ts after cs
  | [], _, _ => laysOutClauses_nil
  | .mk _ _ body _ :: rest, ts, after =>
    laysOutClauses_cons (laysOutAll body ts) (laysOutClauses rest ts after)
end

end

/-- The graph that a layout starts from: the entry and the exit, both empty. -/
def blank : Graph α := { blocks := [{}, {}] }

theorem view_blank (b : Nat) : (blank (α := α)).view b = ([], none, []) := by
  match b with
  | 0 | 1 | _ + 2 => rfl

theorem sound_blank : Sound (blank (α := α)) where
  out b _ := congrArg (·.2.2) (view_blank (α := α) b)
  sides b hc := absurd (congrArg (·.2.1) (view_blank (α := α) b)) hc
  exit_lt := Nat.one_lt_two

theorem open_blank : Open (blank (α := α)) entry [] where
  lt := Nat.zero_lt_two
  ne_exit := by decide
  view := view_blank entry

theorem ofBody_eq {body : List (Stmt α)} {last : Nat} {g : Graph α}
    (h : layoutAll [] entry blank body = (last, g)) : ofBody body = g.edge last exit := by
  simp only [blank] at h
  simp only [ofBody, h]

/-- The finished graph of a body: its statements are laid out from the entry, their end leads to
the exit, and the exit is empty. -/
theorem laid_ofBody (body : List (Stmt α)) : ∃ last,
    (ofBody body).LaidAll [] body (entry, 0) last ∧
      (ofBody body).Tail last [] none (always last.1 [exit]) ∧
      (ofBody body).view exit = ([], none, []) ∧ Sound (ofBody body) := by
  obtain ⟨last, g', js, hlay, hx, hlaid⟩ := laysOutAll body [] blank entry [] sound_blank open_blank
  rw [ofBody_eq hlay]
  obtain ⟨hfinal, htail⟩ := hx.sealed (G := g'.edge last exit)
    (fun b _ _ hb => view_edge_of_ne hb) (view_edge_self hx.isOpen.view)
  refine ⟨(last, js.length), hlaid _ hfinal, htail, ?_,
    hx.sound.edge hx.isOpen.lt hx.isOpen.cond⟩
  rw [view_edge_of_ne hx.isOpen.ne_exit.symm, hx.keeps exit sound_blank.exit_lt (by decide),
    view_blank]

theorem sound_ofBody (body : List (Stmt α)) : Sound (ofBody body) := by
  obtain ⟨_, _, _, _, hs⟩ := laid_ofBody body
  exact hs

end Graph

end RouteCheck
