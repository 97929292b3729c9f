import RouteCheck.Proofs.Types.Leads

/-!
Texts between the holes of what folding produces.

The key of a query parameter is read off the text right before its hole. That is sound only if
this text is all there is since the hole before it, however the expression is put together.
`Typer.partsWithin` lists the parts of an expression as they are written, with texts apart that
come from different operands; folding joins them.

Main statements:
  1. `Typer.pieces_foldWithin`: folding joins the parts of an expression, by induction on levels.
  2. `Piece.gapsFrom_merge`, `Piece.leadsFrom_eq_gapsFrom`: joined parts have the same texts between
     their holes, and each of them in one piece.
  3. `Typer.foldWithin_text_since_hole`: so the text right before a hole is the whole text.
-/

namespace RouteCheck

namespace Piece

/-! ## Texts between holes -/

/-- The whole text before each hole since the hole before it, and after the last one; `text` was
there before. -/
def gapsFrom (text : String) : List Piece → List String
  | [] => [text]
  | .lit s :: rest => gapsFrom (text ++ s) rest
  | .hole _ :: rest => text :: gapsFrom "" rest

/-- The piece of text right before each hole, and the one at the end, empty where there is none;
`last` was there before. -/
def leadsFrom (last : String) : List Piece → List String
  | [] => [last]
  | .lit s :: rest => leadsFrom s rest
  | .hole _ :: rest => last :: leadsFrom "" rest

section
variable {ps : List Piece}

theorem apart_iff :
    Apart ps ↔ ∀ before s u after, ps ≠ before ++ .lit s :: .lit u :: after := by
  induction ps with
  | nil => simp [Apart]
  | cons p rest ih =>
    have hrest : (∀ before s u after, p :: rest ≠ before ++ .lit s :: .lit u :: after) ↔
        (∀ before s u after, rest ≠ before ++ .lit s :: .lit u :: after) ∧
          ∀ s u after, p :: rest ≠ .lit s :: .lit u :: after := by
      constructor
      · intro h
        refine ⟨fun before s u after heq => h (p :: before) s u after ?_, h []⟩
        rw [heq, List.cons_append]
      · rintro ⟨htail, hhead⟩ before s u after heq
        cases before with
        | nil => exact hhead s u after heq
        | cons q before => exact htail before s u after (List.cons.inj heq).2
    rw [hrest, ← ih]
    cases p with
    | hole f => simp [apart_hole]
    | lit s =>
      rw [apart_lit]
      exact and_congr_right fun _ =>
        ⟨fun h _ u after heq => h u after (List.cons.inj heq).2, fun h u after heq =>
          h s u after (heq ▸ rfl)⟩

/-- Joining neighbouring texts leaves the texts between the holes as they are. -/
theorem gapsFrom_merge (text : String) (ps : List Piece) :
    gapsFrom text (merge ps) = gapsFrom text ps := by
  fun_induction merge ps generalizing text with
  | case1 => rfl
  | case2 f rest ih => rw [gapsFrom, gapsFrom, ih]
  | case3 s rest u more heq ih =>
    rw [heq] at ih
    rw [gapsFrom, ← String.append_assoc]
    exact ih (text ++ s)
  | case4 s rest heq ih | case5 s rest _ _ heq ih =>
    rw [heq] at ih
    exact ih (text ++ s)

theorem filter_isHole_merge (ps : List Piece) :
    (merge ps).filter isHole = ps.filter isHole := by
  fun_induction merge ps with
  | case1 => rfl
  | case2 f rest ih => rw [List.filter_cons_of_pos rfl, ih, List.filter_cons_of_pos rfl]
  | case3 s rest _ _ heq ih | case5 s rest _ _ heq ih | case4 s rest heq ih =>
    rw [heq] at ih
    exact ih

theorem map_unbind_merge (ps : List Piece) : (merge ps).map unbind = merge (ps.map unbind) := by
  fun_induction merge ps with
  | case1 => rfl
  | case2 f rest ih => rw [List.map_cons, List.map_cons, ih]; rfl
  | case3 s rest _ _ heq ih | case5 s rest _ _ heq ih | case4 s rest heq ih =>
    rw [heq] at ih
    rw [List.map_cons (l := rest), unbind, merge, ← ih]
    · rfl
    · simp

/-- Where no two texts are neighbours, the text between two holes is one piece. -/
theorem leadsFrom_eq_gapsFrom {last : String} (happart : Apart ps)
    (hlast : ∀ s more, ps = .lit s :: more → last = "") : leadsFrom last ps = gapsFrom last ps := by
  induction ps generalizing last with
  | nil => rfl
  | cons p rest ih =>
    cases p with
    | hole f => rw [leadsFrom, gapsFrom, ih (apart_hole.1 happart) fun _ _ _ => rfl]
    | lit s =>
      obtain ⟨hrest, hne⟩ := apart_lit.1 happart
      obtain rfl := hlast s rest rfl
      rw [leadsFrom, gapsFrom, String.empty_append, ih hrest fun u more h => absurd h (hne u more)]

end
end Piece

namespace Typer
open Piece

/-- The parts of an expression from left to right, texts of different operands apart. The verbs of
a format are those of its joined texts. -/
def partsWithin : Nat → Typer → Node → List Piece
  | 0, _, n => [.hole (some n)]
  | depth + 1, t, n =>
    match t.shape n with
    | .text s => [.lit s]
    | .inner m => partsWithin depth t m
    | .concat l r => partsWithin depth t l ++ partsWithin depth t r
    | .sprintf format args =>
      Mark.bindFrom args 0 ((merge (partsWithin depth t format)).flatMap Piece.marks)
    | .constant file v => (partsWithin depth { index := t.index, file } v).map unbind
    | .other => [.hole (some n)]

/-- Folding joins the parts of an expression. -/
theorem pieces_foldWithin (depth : Nat) (t : Typer) (n : Node) :
    (t.foldWithin depth n).pieces = merge (t.partsWithin depth n) := by
  induction depth generalizing t n with
  | zero => rfl
  | succ depth ih =>
    rw [foldWithin_succ, partsWithin]
    cases t.shape n with
    | text s => rfl
    | inner m => exact ih t m
    | concat l r =>
      show (foldWithin depth t r).pieces.foldl push (foldWithin depth t l).pieces = _
      rw [ih t l, ih t r, foldl_push, merge_append_merge]
    | sprintf format args =>
      rw [Shape.template, Template.applyFormat, Template.fillPieces_eq, ih t format]
      exact foldl_push [] _
    | constant file v =>
      show (foldWithin depth _ v).pieces.map unbind = _
      rw [ih _ v, map_unbind_merge]
    | other => rfl

/-- No two texts are neighbours in what an expression is folded to within any number of levels. It
has the holes that the parts of the expression have, and the text right before a hole is the whole
text since the hole before it. -/
theorem foldWithin_text_since_hole (depth : Nat) (t : Typer) (n : Node) :
    (∀ before s u after,
      (t.foldWithin depth n).pieces ≠ before ++ .lit s :: .lit u :: after) ∧
    (t.foldWithin depth n).pieces.filter isHole = (t.partsWithin depth n).filter isHole ∧
    leadsFrom "" (t.foldWithin depth n).pieces = gapsFrom "" (t.partsWithin depth n) := by
  have happart := apart_foldWithin depth t n
  refine ⟨apart_iff.1 happart, ?_, ?_⟩
  · rw [pieces_foldWithin, filter_isHole_merge]
  · rw [leadsFrom_eq_gapsFrom happart fun _ _ _ => rfl, pieces_foldWithin, gapsFrom_merge]

end Typer

/-- Texts of several operands before a hole, and after the last one. -/
example : Piece.gapsFrom "" [.lit "/api", .lit "/", .hole none, .lit "?limit", .lit "="] =
    ["/api/", "?limit="] := by decide +kernel

end RouteCheck
