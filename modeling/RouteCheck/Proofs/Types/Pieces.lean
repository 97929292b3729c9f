import RouteCheck.Check.Route
import RouteCheck.Proofs.Text.Split

/-!
Templates that differ in nothing that is read off them.

Texts that stand side by side are joined as a template is put together, so that a text without
characters can only stand next to holes. Such texts come and go with the way a string is written;
nothing that is read off a template shows them. Of what fills a hole only the text counts here.

Main statements:
  1. `foldl_push`: putting pieces together joins neighbouring texts.
  2. `Template.Alike.trimLead`, `Template.Alike.reading`: templates that are alike stay so without a
     lead, and have the same rendering, the same holes and the same slots.
-/

namespace RouteCheck
namespace Piece

/-! ## Joining texts -/

/-- Pieces with neighbouring texts joined. -/
@[grind =]
def merge : List Piece → List Piece
  | [] => []
  | .hole f :: rest => .hole f :: merge rest
  | .lit s :: rest =>
    match merge rest with
    | .lit u :: more => .lit (s ++ u) :: more
    | [] => [.lit s]
    | .hole f :: more => .lit s :: .hole f :: more

/-- No two texts are neighbours. -/
def Apart : List Piece → Prop
  | .lit _ :: .lit _ :: _ => False
  | _ :: rest => Apart rest
  | [] => True

def isBlank : Piece → Bool
  | lit s => s == ""
  | hole _ => false

def dropBlank (ps : List Piece) : List Piece := ps.filter (!·.isBlank)

section
variable {ps qs rest : List Piece} {p : Piece} {s u : String} {f : Option Node}

theorem apart_hole : Apart (.hole f :: rest) ↔ Apart rest := by
  cases rest <;> rfl

theorem apart_lit : Apart (.lit s :: rest) ↔ Apart rest ∧ ∀ u more, rest ≠ .lit u :: more := by
  cases rest with
  | nil => simp [Apart]
  | cons q rest => cases q <;> simp [Apart]

theorem apart_merge (ps : List Piece) : Apart (merge ps) := by
  fun_induction merge ps with
  | case1 => trivial
  | case2 f rest ih => exact apart_hole.2 ih
  | case3 s rest u more heq ih =>
    rw [heq] at ih
    exact apart_lit.2 (apart_lit.1 ih)
  | case4 s rest heq ih => exact apart_lit.2 ⟨trivial, by simp⟩
  | case5 s rest f more heq ih =>
    rw [heq] at ih
    exact apart_lit.2 ⟨ih, by simp⟩

theorem merge_of_apart (h : Apart ps) : merge ps = ps := by
  fun_induction merge ps with
  | case1 => rfl
  | case2 f rest ih => rw [ih (apart_hole.1 h)]
  | case3 s rest u more heq ih =>
    obtain ⟨hrest, hne⟩ := apart_lit.1 h
    exact absurd ((ih hrest).symm.trans heq) (hne u more)
  | case4 s rest heq ih => rw [← ih (apart_lit.1 h).1, heq]
  | case5 s rest f more heq ih => rw [← ih (apart_lit.1 h).1, heq]

/-- Texts of the second part may be joined first. -/
theorem merge_append_merge (ps qs : List Piece) : merge (ps ++ merge qs) = merge (ps ++ qs) := by
  induction ps with
  | nil => exact merge_of_apart (apart_merge qs)
  | cons p ps ih => cases p <;> rw [List.cons_append, List.cons_append, merge, merge, ih]

theorem merge_lit_lit : merge (.lit s :: .lit u :: rest) = merge (.lit (s ++ u) :: rest) := by
  cases hrest : merge rest with
  | nil => simp [merge, hrest]
  | cons q more => cases q <;> simp [merge, hrest, String.append_assoc]

theorem push_merge (ps : List Piece) (p : Piece) : push (merge ps) p = merge (ps ++ [p]) := by
  fun_induction merge ps with
  | case1 => cases p <;> rfl
  | case2 f rest ih =>
    rw [push, ih]
    · rfl
    · simp
  | case3 s rest u more heq ih =>
    rw [List.cons_append, merge, ← ih, heq]
    cases more with
    | nil => cases p <;> simp [push, String.append_assoc]
    | cons q more => rfl
  | case4 s rest heq ih =>
    rw [List.cons_append, merge, ← ih, heq]
    cases p <;> rfl
  | case5 s rest f more heq ih =>
    rw [List.cons_append, merge, ← ih, heq]
    cases more <;> rfl

/-- Putting pieces together joins neighbouring texts. -/
theorem foldl_push (ps qs : List Piece) : qs.foldl push (merge ps) = merge (ps ++ qs) := by
  induction qs generalizing ps with
  | nil => rw [List.append_nil, List.foldl_nil]
  | cons q qs ih => rw [List.foldl_cons, push_merge, ih, List.append_assoc, List.singleton_append]

/-! ## Blank texts -/

theorem dropBlank_hole : dropBlank (.hole f :: rest) = .hole f :: dropBlank rest := rfl

theorem dropBlank_lit :
    dropBlank (.lit s :: rest) = if s = "" then dropBlank rest else .lit s :: dropBlank rest := by
  by_cases hs : s = "" <;> simp [dropBlank, isBlank, hs]

theorem dropBlank_append (ps qs : List Piece) :
    dropBlank (ps ++ qs) = dropBlank ps ++ dropBlank qs := List.filter_append ..

theorem dropBlank_dropBlank (ps : List Piece) : dropBlank (dropBlank ps) = dropBlank ps :=
  List.filter_filter.trans (by simp [dropBlank])

theorem dropBlank_ne_lit (h : ∀ u more, rest ≠ .lit u :: more) (happart : Apart rest) :
    ∀ u more, dropBlank rest ≠ .lit u :: more := by
  cases rest with
  | nil => simp [dropBlank]
  | cons q rest =>
    cases q with
    | lit u => exact absurd rfl (h u rest)
    | hole f => simp [dropBlank_hole]

theorem apart_dropBlank (h : Apart ps) : Apart (dropBlank ps) := by
  induction ps with
  | nil => trivial
  | cons p rest ih =>
    cases p with
    | hole f => exact apart_hole.2 (ih (apart_hole.1 h))
    | lit s =>
      obtain ⟨hrest, hne⟩ := apart_lit.1 h
      rw [dropBlank_lit]
      split
      · exact ih hrest
      · exact apart_lit.2 ⟨ih hrest, dropBlank_ne_lit hne hrest⟩

/-! ## Outlines -/

/-- A node of which nothing but the text is known. -/
def named (text : String) : Node :=
  .mk { kind := .identifier, span := ⟨0, 0, 0, 0⟩, text } []

/-- The piece with no more of what fills it than the text. -/
def outline : Piece → Piece
  | lit s => lit s
  | hole f => hole (f.map fun n => named n.text)

theorem map_outline_push (ps : List Piece) (p : Piece) :
    (push ps p).map outline = push (ps.map outline) p.outline := by
  fun_induction push ps p with
  | case1 p => rfl
  | case2 a b => rfl
  | case3 p q qs hno ih =>
    cases q <;> cases qs <;> cases p <;> simp_all [push, outline]

theorem map_outline_dropBlank (ps : List Piece) :
    (dropBlank ps).map outline = dropBlank (ps.map outline) := by
  rw [dropBlank, dropBlank, List.filter_map]
  refine congrArg _ (List.filter_congr fun p _ => ?_)
  cases p <;> rfl

theorem map_outline_foldl_push (ps qs : List Piece) :
    (qs.foldl push ps).map outline = (qs.map outline).foldl push (ps.map outline) := by
  induction qs generalizing ps with
  | nil => rfl
  | cons q qs ih => rw [List.foldl_cons, ih, map_outline_push, List.map_cons, List.foldl_cons]

end
end Piece

namespace Template
open Piece

/-! ## What is read off a template -/

section
variable {ps : List Piece} {a b : Template}

theorem render_eq (t : Template) : t.render = String.join (t.pieces.map Piece.render) := by
  rw [render, String.join, List.foldl_map]

theorem join_dropBlank (ps : List Piece) :
    String.join ((dropBlank ps).map Piece.render) = String.join (ps.map Piece.render) := by
  induction ps with
  | nil => rfl
  | cons p rest ih =>
    cases p with
    | hole f => simp [dropBlank_hole, String.join_cons, ih]
    | lit s =>
      rw [dropBlank_lit]
      split
      · next hs => simp [hs, String.join_cons, ih, Piece.render]
      · simp [String.join_cons, ih]

theorem countP_dropBlank (ps : List Piece) :
    (dropBlank ps).countP Piece.isHole = ps.countP Piece.isHole := by
  rw [dropBlank, List.countP_filter]
  refine List.countP_congr fun p _ => ?_
  cases p <;> simp [Piece.isHole, isBlank]

theorem countHolesOf_dropBlank (ps : List Piece) :
    countHolesOf (dropBlank ps) = countHolesOf ps := by
  induction ps with
  | nil => rfl
  | cons p rest ih =>
    cases p with
    | hole f => rw [dropBlank_hole, countHolesOf, countHolesOf, ih]
    | lit s =>
      rw [dropBlank_lit]
      split
      · next hs => rw [countHolesOf, hs, ih, if_neg (by decide)]
      · rw [countHolesOf, countHolesOf, ih, countP_dropBlank]

theorem querySlots_dropBlank {key : Option String} (happart : Apart ps)
    (hkey : ∀ s more, ps = .lit s :: more → key = none) :
    querySlots key (dropBlank ps) = querySlots key ps := by
  induction ps generalizing key with
  | nil => rfl
  | cons p rest ih =>
    cases p with
    | hole f =>
      have hrest : querySlots none (dropBlank rest) = querySlots none rest :=
        ih (apart_hole.1 happart) fun _ _ _ => rfl
      rw [dropBlank_hole]
      cases key <;> simp [querySlots, hrest]
    | lit s =>
      obtain rfl := hkey s rest rfl
      obtain ⟨hrest, hne⟩ := apart_lit.1 happart
      have ih (key : Option String) : querySlots key (dropBlank rest) = querySlots key rest :=
        ih hrest fun u more h => absurd h (hne u more)
      rw [dropBlank_lit]
      split
      · next hs =>
        have hnone : pendingKey? "" = none := by decide +kernel
        rw [querySlots, ih, hs, hnone]
      · rw [querySlots, querySlots, ih]

theorem slotsOf_dropBlank (happart : Apart ps) : slotsOf (dropBlank ps) = slotsOf ps := by
  induction ps with
  | nil => rfl
  | cons p rest ih =>
    cases p with
    | hole f => rw [dropBlank_hole, slotsOf, slotsOf, ih (apart_hole.1 happart)]
    | lit s =>
      obtain ⟨hrest, hne⟩ := apart_lit.1 happart
      rw [dropBlank_lit]
      split
      · next hs =>
        have hnone : Text.cut? '?' "" = none := by decide +kernel
        rw [slotsOf, hs, hnone]
        exact ih hrest
      · rw [slotsOf, slotsOf]
        split
        · rw [querySlots_dropBlank hrest fun u more h => absurd h (hne u more)]
        · exact ih hrest

/-! ## Outlines of templates -/

/-- The template with no more of what fills its holes than the text. -/
def outline (t : Template) : Template := ⟨t.pieces.map Piece.outline, t.mismatch⟩

/-- Slots with no more of what fills them than the text. -/
def Slots.texts (s : Slots) : List (Option String) × List (String × Option String) :=
  (s.path.map (·.map Node.text), s.query.map fun (key, f) => (key, f.map Node.text))

theorem outline_append : (a ++ b).outline = a.outline ++ b.outline := by
  show Template.mk ((b.pieces.foldl push a.pieces).map Piece.outline) _ = _
  rw [map_outline_foldl_push]
  rfl

theorem outline_trimLead (lead : String) (t : Template) :
    (t.trimLead lead).outline = t.outline.trimLead lead := by
  obtain ⟨pieces, mismatch⟩ := t
  cases pieces with
  | nil => rfl
  | cons p rest =>
    cases p with
    | hole f => rfl
    | lit s =>
      simp only [trimLead, outline, List.map_cons, Piece.outline]
      split <;> rfl

theorem mismatch_trimLead (lead : String) (t : Template) :
    (t.trimLead lead).mismatch = t.mismatch := by
  unfold trimLead
  split
  · split <;> rfl
  · rfl

theorem render_outline (t : Template) : t.outline.render = t.render := by
  rw [render_eq, render_eq, outline, List.map_map]
  refine congrArg _ (List.map_congr_left fun p _ => ?_)
  cases p <;> rfl

theorem countP_map_outline (ps : List Piece) :
    (ps.map Piece.outline).countP Piece.isHole = ps.countP Piece.isHole := by
  rw [List.countP_map]
  refine List.countP_congr fun p _ => ?_
  cases p <;> rfl

theorem countHoles_outline (t : Template) : t.outline.countHoles = t.countHoles := by
  obtain ⟨ps, _⟩ := t
  show countHolesOf (ps.map Piece.outline) = countHolesOf ps
  induction ps with
  | nil => rfl
  | cons p rest ih =>
    cases p <;> simp only [List.map_cons, Piece.outline, countHolesOf, ih, countP_map_outline]

theorem querySlots_outline (key : Option String) (ps : List Piece) :
    (querySlots key (ps.map Piece.outline)).map (fun (key, f) => (key, f.map Node.text)) =
      (querySlots key ps).map fun (key, f) => (key, f.map Node.text) := by
  induction ps generalizing key with
  | nil => rfl
  | cons p rest ih =>
    cases p with
    | lit s => exact ih (pendingKey? s)
    | hole f =>
      cases key with
      | none => exact ih none
      | some key =>
        simp only [List.map_cons, Piece.outline, querySlots, ih, Option.map_map]
        rfl

theorem texts_slots_outline (t : Template) : t.outline.slots.texts = t.slots.texts := by
  obtain ⟨ps, _⟩ := t
  show (slotsOf (ps.map Piece.outline)).texts = (slotsOf ps).texts
  induction ps with
  | nil => rfl
  | cons p rest ih =>
    cases p with
    | hole f =>
      obtain ⟨hpath, hquery⟩ := Prod.mk.inj ih
      simp only [List.map_cons, Piece.outline, slotsOf, Slots.texts, hpath, hquery, Option.map_map]
      rfl
    | lit s =>
      rw [List.map_cons, Piece.outline, slotsOf, slotsOf]
      split
      · simp only [Slots.texts, querySlots_outline, List.map_nil]
      · exact ih

end

/-! ## Templates that are alike -/

/-- Nothing that is read off the templates tells them apart. -/
structure SameReading (a b : Template) : Prop where
  render : a.render = b.render
  key : ∀ method, clientKey method a.render = clientKey method b.render
  countHoles : a.countHoles = b.countHoles
  /-- The slots have the same keys, and are filled by the same texts. -/
  slots : a.slots.texts = b.slots.texts
  mismatch : a.mismatch = none ∧ b.mismatch = none

/-- The templates are the same but for blank texts and for what fills the holes. -/
structure Alike (a b : Template) : Prop where
  left : Apart a.outline.pieces
  right : Apart b.outline.pieces
  pieces : dropBlank a.outline.pieces = dropBlank b.outline.pieces
  mismatch : a.mismatch = none ∧ b.mismatch = none

section
variable {a b : Template} (lead : String)

theorem Alike.reading (h : Alike a b) : SameReading a b := by
  have hrender : a.render = b.render := by
    rw [← render_outline a, ← render_outline b, render_eq, render_eq, ← join_dropBlank, h.pieces,
      join_dropBlank]
  refine ⟨hrender, fun method => by rw [hrender], ?_, ?_, h.mismatch⟩
  · rw [← countHoles_outline a, ← countHoles_outline b, countHoles, countHoles,
      ← countHolesOf_dropBlank, h.pieces, countHolesOf_dropBlank]
  · rw [← texts_slots_outline a, ← texts_slots_outline b, slots, slots,
      ← slotsOf_dropBlank h.left, h.pieces, slotsOf_dropBlank h.right]

theorem trimLead_lit (s : String) (rest : List Piece) (mismatch : Option Mismatch) :
    (Template.trimLead lead ⟨.lit s :: rest, mismatch⟩).pieces =
      .lit ((Text.dropLead? lead s).getD s) :: rest := by
  cases hdrop : Text.dropLead? lead s <;> simp [Template.trimLead, hdrop]

theorem apart_trimLead {t : Template} (happart : Apart t.pieces) :
    Apart (t.trimLead lead).pieces := by
  obtain ⟨pieces, mismatch⟩ := t
  cases pieces with
  | nil => trivial
  | cons p rest =>
    cases p with
    | hole f => exact happart
    | lit s =>
      rw [trimLead_lit]
      exact apart_lit.2 (apart_lit.1 happart)

/-- Taking a lead off does not depend on blank texts. -/
theorem dropBlank_trimLead {t : Template} (happart : Apart t.pieces) :
    dropBlank (t.trimLead lead).pieces =
      dropBlank (Template.trimLead lead ⟨dropBlank t.pieces, t.mismatch⟩).pieces := by
  obtain ⟨pieces, mismatch⟩ := t
  cases pieces with
  | nil => rfl
  | cons p rest =>
    cases p with
    | hole f => exact (dropBlank_dropBlank (.hole f :: rest)).symm
    | lit s =>
      obtain ⟨hrest, hne⟩ := apart_lit.1 happart
      rw [trimLead_lit, dropBlank_lit (s := s)]
      split
      · next hs =>
        have hstays : (Template.trimLead lead ⟨dropBlank rest, mismatch⟩).pieces =
            dropBlank rest := by
          unfold Template.trimLead
          split
          · next first more heq => exact absurd heq (dropBlank_ne_lit hne hrest first more)
          · rfl
        rw [hs, Text.getD_dropLead?_empty, dropBlank_lit, if_pos rfl, hstays, dropBlank_dropBlank]
      · rw [trimLead_lit, dropBlank_lit, dropBlank_lit, dropBlank_dropBlank]

theorem Alike.trimLead (h : Alike a b) : Alike (a.trimLead lead) (b.trimLead lead) where
  left := by
    rw [outline_trimLead]
    exact apart_trimLead lead h.left
  right := by
    rw [outline_trimLead]
    exact apart_trimLead lead h.right
  pieces := by
    have hmismatch : a.outline.mismatch = b.outline.mismatch := h.mismatch.1.trans h.mismatch.2.symm
    rw [outline_trimLead, outline_trimLead, dropBlank_trimLead lead h.left,
      dropBlank_trimLead lead h.right, h.pieces, hmismatch]
  mismatch := by
    rw [mismatch_trimLead, mismatch_trimLead]
    exact h.mismatch

end
end Template
end RouteCheck
