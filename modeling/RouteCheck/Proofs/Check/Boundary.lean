import RouteCheck.Proofs.Check.Miscounts
import RouteCheck.Proofs.Types.Symbols
import Mathlib.Data.List.Basic

/-!
Where the path of a client call ends.

A template is cut at its first `?` three times: its key keeps the rendering up to there, its slots
are those of the path or of the query, and its holes are counted on both sides. The key works on
the rendering, the others on the pieces, and a `?` may stand anywhere in the text of a piece. Here
each hole is placed at the character of the rendering where its `%s` begins, and the three cuts
are compared there.

Main statements:
  1. `Template.exists_render_of_mem_holesAt`: a hole is rendered where it is placed.
  2. `Template.slots_at_boundary`: the three cuts agree.
-/

namespace RouteCheck

/-- A hole of a template, placed at the character of the rendering where it begins. -/
structure Hole where
  start : Nat
  filler : Option Node

def queryStart (cs : List Char) : Nat := cs.findIdx (· == '?')

def spellPieces (ps : List Piece) : List Char := ps.flatMap fun p => p.render.toList

namespace Template

/-- Holes of pieces whose rendering begins at character `k`. -/
def holesFrom (k : Nat) : List Piece → List Hole
  | [] => []
  | .lit s :: rest => holesFrom (k + s.length) rest
  | .hole f :: rest => ⟨k, f⟩ :: holesFrom (k + wildcard.length) rest

def holesAt (t : Template) : List Hole := holesFrom 0 t.pieces

def endsBy (q : Nat) (h : Hole) : Bool := h.start + wildcard.length ≤ q

/-- Holes rendered before the first `?` of the rendering. -/
def pathHoles (t : Template) : List Hole := t.holesAt.filter (endsBy (queryStart t.render.toList))

def queryHoles (t : Template) : List Hole :=
  t.holesAt.filter (!endsBy (queryStart t.render.toList) ·)

end Template

/-! ## The first `?` -/

section
variable {s : String} {cs : List Char} {rest : List Piece} {f : Option Node}

theorem queryStart_append_of_mem (h : '?' ∈ s.toList) : queryStart (s.toList ++ cs) < s.length := by
  have hin : s.toList.findIdx (· == '?') < s.toList.length :=
    List.findIdx_lt_length_of_exists ⟨'?', h, beq_self_eq_true '?'⟩
  rwa [queryStart, List.findIdx_append, if_pos hin, ← String.length_toList]

theorem queryStart_append_of_not_mem (h : '?' ∉ s.toList) :
    queryStart (s.toList ++ cs) = s.length + queryStart cs := by
  have hout : s.toList.findIdx (· == '?') = s.toList.length :=
    List.findIdx_eq_length_of_false fun c hc => beq_eq_false_iff_ne.2 fun hq => h (hq ▸ hc)
  rw [queryStart, List.findIdx_append, hout, if_neg (Nat.lt_irrefl _), String.length_toList,
    queryStart, Nat.add_comm]

theorem spellPieces_lit : spellPieces (.lit s :: rest) = s.toList ++ spellPieces rest := rfl

theorem spellPieces_hole :
    spellPieces (.hole f :: rest) = wildcard.toList ++ spellPieces rest := rfl

/-- The rendering up to a `?` is what precedes the first one. -/
theorem headD_split_eq_take (other : String) :
    (Text.split '?' s).headD other = String.ofList (s.toList.take (queryStart s.toList)) := by
  rw [Text.headD_split]
  congr 1
  generalize s.toList = cs
  induction cs with
  | nil => rfl
  | cons c cs ih =>
    rw [queryStart, List.findIdx_cons, List.takeWhile_cons]
    cases hc : c == '?' with
    | true => simp [bne, hc]
    | false => simpa [bne, hc, queryStart] using ih

end

namespace Template

/-! ## Holes and where they begin -/

section
variable {k : Nat} {ps : List Piece} {h : Hole}

theorem length_holesFrom (k : Nat) (ps : List Piece) :
    (holesFrom k ps).length = ps.countP Piece.isHole := by
  induction ps generalizing k with
  | nil => rfl
  | cons p rest ih =>
    cases p with
    | lit s => rw [holesFrom, ih, List.countP_cons_of_neg Bool.false_ne_true]
    | hole f => rw [holesFrom, List.length_cons, ih, List.countP_cons_of_pos rfl]

theorem le_start_of_mem_holesFrom (hh : h ∈ holesFrom k ps) : k ≤ h.start := by
  induction ps generalizing k with
  | nil => cases hh
  | cons p rest ih =>
    cases p with
    | lit s => exact Nat.le_of_add_right_le (ih hh)
    | hole f =>
      rcases List.mem_cons.1 hh with rfl | hlater
      · exact Nat.le_refl k
      · exact Nat.le_of_add_right_le (ih hlater)

theorem ascending_holesFrom (k : Nat) (ps : List Piece) :
    (holesFrom k ps).Pairwise (·.start < ·.start) := by
  induction ps generalizing k with
  | nil => exact .nil
  | cons p rest ih =>
    cases p with
    | lit s => exact ih _
    | hole f =>
      refine .cons (fun h hh => ?_) (ih _)
      have hlater : k + wildcard.length ≤ h.start := le_start_of_mem_holesFrom hh
      have hwide : 0 < wildcard.length := by decide
      show k < h.start
      omega

theorem exists_spellPieces_of_mem_holesFrom (hh : h ∈ holesFrom k ps) :
    ∃ before after, spellPieces ps = before ++ wildcard.toList ++ after ∧
      h.start = k + before.length := by
  induction ps generalizing k with
  | nil => cases hh
  | cons p rest ih =>
    cases p with
    | lit s =>
      obtain ⟨before, after, hrest, hstart⟩ := ih hh
      refine ⟨s.toList ++ before, after, ?_, ?_⟩
      · rw [spellPieces_lit, hrest]
        simp only [List.append_assoc]
      · rw [hstart, List.length_append, String.length_toList, Nat.add_assoc]
    | hole f =>
      rcases List.mem_cons.1 hh with rfl | hlater
      · exact ⟨[], spellPieces rest, spellPieces_hole, rfl⟩
      · obtain ⟨before, after, hrest, hstart⟩ := ih hlater
        refine ⟨wildcard.toList ++ before, after, ?_, ?_⟩
        · rw [spellPieces_hole, hrest]
          simp only [List.append_assoc]
        · rw [hstart, List.length_append, String.length_toList, Nat.add_assoc]

end

/-! ## The cut through pieces -/

section
variable {k q : Nat} {s : String} {rest : List Piece}

theorem not_endsBy_of_mem (hs : '?' ∈ s.toList) {h : Hole} (hh : h ∈ holesFrom (k + s.length) rest) :
    endsBy (k + queryStart (spellPieces (.lit s :: rest))) h = false := by
  have hstart : k + s.length ≤ h.start := le_start_of_mem_holesFrom hh
  have hquery : queryStart (spellPieces (.lit s :: rest)) < s.length := queryStart_append_of_mem hs
  rw [endsBy, decide_eq_false_iff_not]
  omega

/-- A `?` in a text cuts before all that follows. -/
theorem holesFrom_cut_of_mem (hs : '?' ∈ s.toList) :
    (holesFrom k (.lit s :: rest)).filter
        (endsBy (k + queryStart (spellPieces (.lit s :: rest)))) = [] ∧
      (holesFrom k (.lit s :: rest)).filter
        (!endsBy (k + queryStart (spellPieces (.lit s :: rest))) ·) =
          holesFrom (k + s.length) rest := by
  refine ⟨List.filter_eq_nil_iff.2 fun h hh => ?_, List.filter_eq_self.2 fun h hh => ?_⟩
  · exact Bool.eq_false_iff.1 (not_endsBy_of_mem hs hh)
  · rw [not_endsBy_of_mem hs hh, Bool.not_false]

theorem path_slotsOf_eq_map (k : Nat) (ps : List Piece) :
    ((holesFrom k ps).filter (endsBy (k + queryStart (spellPieces ps)))).map Hole.filler =
      (slotsOf ps).path := by
  induction ps generalizing k with
  | nil => rfl
  | cons p rest ih =>
    cases p with
    | hole f =>
      have hcut : k + queryStart (spellPieces (.hole f :: rest)) =
          k + wildcard.length + queryStart (spellPieces rest) := by
        rw [spellPieces_hole, queryStart_append_of_not_mem (by decide), Nat.add_assoc]
      have hhead : endsBy (k + wildcard.length + queryStart (spellPieces rest)) ⟨k, f⟩ = true :=
        decide_eq_true (Nat.le_add_right _ _)
      rw [hcut, holesFrom, List.filter_cons_of_pos hhead, List.map_cons, ih]
      rfl
    | lit s =>
      by_cases hs : '?' ∈ s.toList
      · obtain ⟨before, after, hcut⟩ := Text.exists_cut?_of_mem hs
        rw [(holesFrom_cut_of_mem hs).1, slotsOf, hcut]
        rfl
      · rw [spellPieces_lit, queryStart_append_of_not_mem hs, ← Nat.add_assoc, holesFrom, ih,
          slotsOf, Text.cut?_eq_none hs]

theorem exists_sublist_querySlots (key : Option String) (k : Nat) (ps : List Piece) :
    ∃ bound : List Hole, bound.Sublist (holesFrom k ps) ∧
      bound.map Hole.filler = (querySlots key ps).map Prod.snd := by
  induction ps generalizing key k with
  | nil => exact ⟨[], .slnil, rfl⟩
  | cons p rest ih =>
    cases p with
    | lit s => exact ih (pendingKey? s) (k + s.length)
    | hole f =>
      obtain ⟨bound, hsub, hfillers⟩ := ih none (k + wildcard.length)
      cases key with
      | none => exact ⟨bound, hsub.cons _, hfillers⟩
      | some name => exact ⟨⟨k, f⟩ :: bound, hsub.cons_cons _, congrArg (f :: ·) hfillers⟩

theorem exists_sublist_slotsOf (k : Nat) (ps : List Piece) :
    ∃ bound : List Hole, bound.Sublist
        ((holesFrom k ps).filter (!endsBy (k + queryStart (spellPieces ps)) ·)) ∧
      bound.map Hole.filler = (slotsOf ps).query.map Prod.snd := by
  induction ps generalizing k with
  | nil => exact ⟨[], .slnil, rfl⟩
  | cons p rest ih =>
    cases p with
    | hole f =>
      obtain ⟨bound, hsub, hfillers⟩ := ih (k + wildcard.length)
      rw [Nat.add_assoc, ← queryStart_append_of_not_mem (by decide), ← spellPieces_hole] at hsub
      exact ⟨bound, hsub.trans ((List.sublist_cons_self _ _).filter _), hfillers⟩
    | lit s =>
      by_cases hs : '?' ∈ s.toList
      · obtain ⟨before, after, hcut⟩ := Text.exists_cut?_of_mem hs
        rw [(holesFrom_cut_of_mem hs).2, slotsOf, hcut]
        exact exists_sublist_querySlots _ _ _
      · rw [spellPieces_lit, queryStart_append_of_not_mem hs, ← Nat.add_assoc, holesFrom, slotsOf,
          Text.cut?_eq_none hs]
        exact ih _

end

section
variable (t : Template)

theorem toList_render_eq_spellPieces : t.render.toList = spellPieces t.pieces := by
  rw [toList_render]
  show spellAll (t.pieces.flatMap Piece.symbols) = _
  rw [spellAll, List.flatMap_assoc]
  exact List.flatMap_congr fun p _ => spellAll_symbols p

/-- Each hole is rendered where it is placed. -/
theorem exists_render_of_mem_holesAt {h : Hole} (hh : h ∈ t.holesAt) :
    ∃ before after, t.render = before ++ wildcard ++ after ∧ h.start = before.length := by
  obtain ⟨before, after, hrender, hstart⟩ := exists_spellPieces_of_mem_holesFrom hh
  refine ⟨String.ofList before, String.ofList after, ?_, ?_⟩
  · rw [← String.toList_inj, toList_render_eq_spellPieces, hrender]
    simp
  · rw [hstart, Nat.zero_add, String.length_ofList]

theorem map_filler_pathHoles : t.pathHoles.map Hole.filler = t.slots.path := by
  have h := path_slotsOf_eq_map 0 t.pieces
  rwa [Nat.zero_add, ← toList_render_eq_spellPieces] at h

theorem countHoles_fst : t.countHoles.1 = t.slots.path.length := by
  obtain ⟨pieces, _⟩ := t
  show (countHolesOf pieces).1 = (slotsOf pieces).path.length
  induction pieces with
  | nil => rfl
  | cons p rest ih =>
    cases p with
    | hole f => exact congrArg (· + 1) ih
    | lit s =>
      rw [countHolesOf, slotsOf]
      by_cases hs : '?' ∈ s.toList
      · obtain ⟨before, after, hcut⟩ := Text.exists_cut?_of_mem hs
        have hin : Text.contains '?' s = true := List.contains_iff_mem.2 hs
        rw [hcut, if_pos hin]
        rfl
      · have hout : ¬ Text.contains '?' s = true := fun h => hs (List.contains_iff_mem.1 h)
        rw [Text.cut?_eq_none hs, if_neg hout, ih]

theorem length_queryHoles : t.pathHoles.length + t.queryHoles.length = t.holes := by
  rw [pathHoles, queryHoles, ← List.length_eq_length_filter_add]
  exact length_holesFrom 0 t.pieces

/-- The three cuts of a template at its first `?` agree. Each hole is rendered where it is placed.
The key of a call keeps the rendering up to the `?`. The path slots are the holes rendered before
it, and the query slots some of the others, each at most once and in order. On both sides the holes
are counted rightly. -/
theorem slots_at_boundary (method : String) :
    (∀ h ∈ t.holesAt, ∃ before after,
      t.render = before ++ wildcard ++ after ∧ h.start = before.length) ∧
      clientKey method t.render = joinKey isVerb method
        (String.ofList (t.render.toList.take (queryStart t.render.toList))) ∧
      t.pathHoles.map Hole.filler = t.slots.path ∧
      t.countHoles = (t.pathHoles.length, t.queryHoles.length) ∧
      ∃ bound : List Hole, bound.Sublist t.queryHoles ∧ (bound.map Hole.start).Nodup ∧
        bound.map Hole.filler = t.slots.query.map Prod.snd := by
  have hpath : t.pathHoles.length = t.countHoles.1 := by
    rw [countHoles_fst, ← map_filler_pathHoles, List.length_map]
  have hquery : t.queryHoles.length = t.countHoles.2 := by
    have htotal := t.total_countHoles
    have hlength := t.length_queryHoles
    omega
  obtain ⟨bound, hsub, hfillers⟩ := exists_sublist_slotsOf 0 t.pieces
  rw [Nat.zero_add, ← toList_render_eq_spellPieces] at hsub
  have hascending : bound.Pairwise (·.start < ·.start) :=
    (ascending_holesFrom 0 t.pieces).sublist (hsub.trans List.filter_sublist)
  have hnodup : (bound.map Hole.start).Nodup :=
    List.pairwise_map.2 (hascending.imp fun hlt => Nat.ne_of_lt hlt)
  refine ⟨fun h => t.exists_render_of_mem_holesAt, ?_, t.map_filler_pathHoles, ?_, bound, hsub,
    hnodup, hfillers⟩
  · rw [clientKey, headD_split_eq_take]
  · rw [hpath, hquery]

end

end Template
end RouteCheck
