import RouteCheck.Proofs.Types.Formatted

/-!
Leads of what folding produces.

The path of a call loses its lead as a template, from its first text; the path of a route loses it
as a rendered text. The two agree because folding leaves no two texts as neighbours: what follows
the first text is a hole, whose rendering begins with a percent sign.

Main statements:
  1. `Typer.apart_foldWithin`: folding leaves no two texts as neighbours.
  2. `Template.render_trimLead`: a lead comes off such a template as it comes off its rendering.
  3. `Typer.render_trimLead_fold`: so it does for every expression, and the holes stay.
-/

namespace RouteCheck

namespace Piece

section
variable {ps : List Piece}

theorem apart_foldl_push (h : Apart ps) (qs : List Piece) : Apart (qs.foldl push ps) := by
  rw [← merge_of_apart h, foldl_push]
  exact apart_merge _

theorem apart_map_unbind (h : Apart ps) : Apart (ps.map unbind) := by
  induction ps with
  | nil => trivial
  | cons p rest ih =>
    cases p with
    | hole f => exact apart_hole.2 (ih (apart_hole.1 h))
    | lit s =>
      obtain ⟨hrest, hne⟩ := apart_lit.1 h
      refine apart_lit.2 ⟨ih hrest, fun u more heq => ?_⟩
      obtain ⟨p, rest', hsplit, hp, -⟩ := List.map_eq_cons_iff.1 heq
      cases p with
      | hole f => cases hp
      | lit v => exact hne v rest' hsplit

end
end Piece

namespace Typer
open Piece

/-- Folding leaves no two texts as neighbours. -/
theorem apart_foldWithin (depth : Nat) (t : Typer) (n : Node) :
    Apart (t.foldWithin depth n).pieces := by
  induction depth generalizing t n with
  | zero => trivial
  | succ depth ih =>
    rw [foldWithin_succ]
    cases t.shape n with
    | text s => trivial
    | inner m => exact ih t m
    | concat l r => exact apart_foldl_push (ih t l) _
    | sprintf format args =>
      rw [Shape.template, Template.pieces_applyFormat]
      have hnil : Apart [] := trivial
      exact apart_foldl_push hnil _
    | constant file v => exact apart_map_unbind (ih _ v)
    | other => trivial

end Typer

namespace Template
open Piece (Apart apart_lit)

section
variable {lead : String} {t : Template}

/-- What follows the leading text begins with the percent sign of a hole. -/
theorem head?_join_render {rest : List Piece} (hne : ∀ u more, rest ≠ .lit u :: more) :
    ∀ d ∈ (String.join (rest.map Piece.render)).toList.head?, d = '%' := by
  cases rest with
  | nil => nofun
  | cons p rest =>
    cases p with
    | lit u => exact absurd rfl (hne u rest)
    | hole f =>
      intro d hd
      rw [List.map_cons, String.join_cons, String.toList_append] at hd
      have hpercent : (Piece.hole f).render.toList = ['%', 's'] := String.toList_ofList
      rw [hpercent] at hd
      exact (Option.some.inj hd).symm

/-- Where no two texts are neighbours, a lead without a percent sign comes off the rendering as it
comes off the template. -/
theorem render_trimLead (happart : Apart t.pieces) (hlead : '%' ∉ lead.toList) :
    (t.trimLead lead).render = (Text.dropLead? lead t.render).getD t.render := by
  obtain ⟨pieces, mismatch⟩ := t
  have hopen (hne : ∀ u more, pieces ≠ .lit u :: more) :
      (Template.mk pieces mismatch).render =
        (Text.dropLead? lead (Template.mk pieces mismatch).render).getD
          (Template.mk pieces mismatch).render := by
    have happend := Text.getD_dropLead?_append (s := "") hlead (head?_join_render hne)
    rw [String.empty_append, Text.getD_dropLead?_empty, String.empty_append] at happend
    rw [render_eq, happend]
  cases pieces with
  | nil => exact hopen nofun
  | cons p rest =>
    cases p with
    | hole f => exact hopen nofun
    | lit s =>
      have hne := (apart_lit.1 happart).2
      rw [render_eq, trimLead_lit, render_eq, List.map_cons, String.join_cons, List.map_cons,
        String.join_cons]
      exact (Text.getD_dropLead?_append hlead (head?_join_render hne)).symm

theorem trimLead_eq_self (h : ¬ lead.toList <+: t.render.toList) : t.trimLead lead = t := by
  unfold trimLead
  split
  · next first rest hpieces =>
    split
    · next shorter hdrop =>
      refine absurd ?_ h
      rw [render_eq, hpieces, List.map_cons, String.join_cons, String.toList_append, Piece.render,
        Text.dropLead?_eq_some_iff.1 hdrop, String.toList_append, List.append_assoc]
      exact List.prefix_append ..
    · rfl
  · rfl

theorem filter_isHole_trimLead (lead : String) (t : Template) :
    (t.trimLead lead).pieces.filter Piece.isHole = t.pieces.filter Piece.isHole := by
  obtain ⟨pieces, mismatch⟩ := t
  cases pieces with
  | nil => rfl
  | cons p rest =>
    cases p with
    | hole f => rfl
    | lit s => rw [trimLead_lit]; rfl

end
end Template

namespace Typer

/-- A lead without a percent sign is taken off what an expression folds to, and off its rendering,
with the same outcome. -/
theorem render_trimLead_fold (t : Typer) (n : Node) {lead : String} (hlead : '%' ∉ lead.toList) :
    ((t.fold n).trimLead lead).render =
        (Text.dropLead? lead (t.fold n).render).getD (t.fold n).render ∧
      (∀ rest, (t.fold n).render = lead ++ rest → ((t.fold n).trimLead lead).render = rest) ∧
      (¬ lead.toList <+: (t.fold n).render.toList → (t.fold n).trimLead lead = t.fold n) ∧
      ((t.fold n).trimLead lead).pieces.filter Piece.isHole =
        (t.fold n).pieces.filter Piece.isHole := by
  have hrender := Template.render_trimLead (apart_foldWithin (maxFoldDepth + 1) t n) hlead
  refine ⟨hrender, fun rest hrest => ?_, fun hno => ?_, Template.filter_isHole_trimLead ..⟩
  · exact hrender.trans (by rw [← fold, Text.dropLead?_eq_some_iff.2 hrest]; rfl)
  · exact Template.trimLead_eq_self hno

end Typer

/-- A path that is put together from two texts and a variable. -/
def based : List String :=
  ["func path(id string) string \x7b return \"/api\" + (\"/items/\" + id) \x7d"]

/-- Of the first concatenation of a file: what it is folded to, rendered. -/
def SourceFile.rendered? (f : SourceFile) : Option String :=
  (f.tree.descendants.find? (·.kind = .binaryExpression)).map fun n =>
    ((Typer.enclosing (.build ⟨[f]⟩) f n).fold n).render

theorem rendered_based : (SourceFile.sample based).rendered? = some "/api/items/%s" := by
  simp only [based, SourceFile.sample_eq, SourceFile.chars, String.reduceToList]
  decide +kernel

/-- A lead that ends in the middle of the second text of the concatenation. -/
theorem render_trimLead_fold_based : ∃ (t : Typer) (n : Node), '%' ∉ "/api/it".toList ∧
    (t.fold n).render = "/api/items/%s" ∧ ((t.fold n).trimLead "/api/it").render = "ems/%s" := by
  obtain ⟨n, -, hrender⟩ := Option.map_eq_some_iff.1 rendered_based
  have hlead : '%' ∉ "/api/it".toList := by decide +kernel
  obtain ⟨-, htrimmed, -, -⟩ := Typer.render_trimLead_fold
    (Typer.enclosing (.build ⟨[.sample based]⟩) (.sample based) n) n hlead
  exact ⟨_, n, hlead, hrender, htrimmed "ems/%s" hrender⟩

end RouteCheck
