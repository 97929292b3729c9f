import RouteCheck.Proofs.Tree.Nodes
import RouteCheck.Proofs.Types.Dependence
import RouteCheck.Proofs.Types.Leads

/-!
What fills the holes of a template.

Folding an expression leaves holes where it meets what it cannot evaluate, and each hole remembers
the expression that fills it. That is always a part of the expression that is folded: constants that
are declared elsewhere come in without what fills their holes.

Main statements:
  1. `Typer.mem_all_of_shape`: what folding enters is part of the expression.
  2. `Typer.mem_all_of_hole_foldWithin`: so is what fills a hole, by induction on the levels of folding.
  3. `Template.hole_of_mem_path`, `Template.hole_of_mem_query`: the slots of a template are filled
     with what fills its holes.
-/

namespace RouteCheck

/-! ## Holes of templates that are put together -/

section
variable {f : Option Node} {p : Piece} {ps qs : List Piece}

theorem Piece.hole_mem_push (h : .hole f ∈ push ps p) : .hole f ∈ ps ∨ p = .hole f := by
  fun_induction push ps p with
  | case1 p => exact .inr (List.mem_singleton.1 h).symm
  | case2 a b => exact absurd (List.mem_singleton.1 h) (by simp)
  | case3 p q qs hno ih =>
    rcases List.mem_cons.1 h with h | h
    · exact .inl (h ▸ List.mem_cons_self)
    · exact (ih h).imp_left (List.mem_cons_of_mem _)

theorem Piece.hole_mem_foldl_push (h : .hole f ∈ qs.foldl push ps) : .hole f ∈ ps ∨ .hole f ∈ qs := by
  induction qs generalizing ps with
  | nil => exact .inl h
  | cons q qs ih =>
    rcases ih h with h | h
    · refine (hole_mem_push h).imp_right fun hq => ?_
      rw [hq]
      exact List.mem_cons_self
    · exact .inr (List.mem_cons_of_mem q h)

theorem Template.hole_mem_applyFormat {format : Template} {call : Node} {args : List Node}
    {m : Node} (h : .hole (some m) ∈ (format.applyFormat call args).pieces) :
    m ∈ args ∨ .hole (some m) ∈ format.pieces := by
  rw [pieces_applyFormat] at h
  obtain ⟨i, hi, hbound⟩ := List.mem_mapIdx.1 ((Piece.hole_mem_foldl_push h).resolve_left
    List.not_mem_nil)
  have hmark := List.getElem_mem hi
  obtain ⟨p, hp, hmark⟩ := List.mem_flatMap.1 hmark
  cases hm : format.marks[i] with
  | text s => simp [hm, Mark.bound] at hbound
  | verb =>
    rw [hm, Mark.bound] at hbound
    exact .inl (List.mem_of_getElem? (Piece.hole.inj hbound))
  | hole g =>
    rw [hm, Mark.bound] at hbound
    rw [hm] at hmark
    obtain rfl : g = some m := Piece.hole.inj hbound
    cases p with
    | lit s =>
      obtain ⟨segment, _, hsegment⟩ := List.mem_map.1 hmark
      cases segment <;> cases hsegment
    | hole g =>
      obtain rfl := Mark.hole.inj (List.mem_singleton.1 hmark)
      exact .inr hp

theorem Template.hole_mem_trimLead {lead : String} {t : Template}
    (h : .hole f ∈ (t.trimLead lead).pieces) : .hole f ∈ t.pieces := by
  have h := List.mem_filter.2 ⟨h, (rfl : (Piece.hole f).isHole = true)⟩
  rw [filter_isHole_trimLead] at h
  exact (List.mem_filter.1 h).1

end

/-! ## Holes of a folded expression -/

namespace Typer

variable {t : Typer} {m n : Node}

/-- The expressions of the typer's file that folding goes on with. -/
def Shape.parts : Shape → List Node
  | text _ | constant _ _ | other => []
  | inner m => [m]
  | concat l r => [l, r]
  | sprintf format args => format :: args

theorem mem_all_of_shape (h : m ∈ (t.shape n).parts) : m ∈ n.all := by
  have hnamed (pkg name : String) : (t.namedShape pkg name).parts = [] := by
    rw [namedShape]
    cases t.constant? pkg name <;> rfl
  unfold shape at h
  split at h
  case h_3 =>
    split at h
    · next inner hinner =>
      rw [List.mem_singleton.1 h]
      exact Node.mem_all_of_mem_named (List.mem_of_mem_head? hinner)
    · exact absurd h List.not_mem_nil
  case h_4 =>
    split at h
    · next l r _ hl hr =>
      rcases List.mem_cons.1 h with rfl | h
      · exact Node.mem_all_of_field? hl
      · rw [List.mem_singleton.1 h]
        exact Node.mem_all_of_field? hr
    · exact absurd h List.not_mem_nil
  case h_5 =>
    split at h
    · split at h
      · next hargs => exact Node.mem_all_of_mem_callArguments (hargs ▸ h)
      · exact absurd h List.not_mem_nil
    · exact absurd h List.not_mem_nil
  case h_6 =>
    split at h
    · exact absurd h List.not_mem_nil
    · rw [hnamed] at h
      exact absurd h List.not_mem_nil
  case h_7 =>
    split at h
    · split at h
      · rw [hnamed] at h
        exact absurd h List.not_mem_nil
      · exact absurd h List.not_mem_nil
    · exact absurd h List.not_mem_nil
  all_goals exact absurd h List.not_mem_nil

/-- What fills a hole is part of the expression, by induction on the levels of folding. -/
theorem mem_all_of_hole_foldWithin {depth : Nat}
    (h : .hole (some m) ∈ (foldWithin depth t n).pieces) : m ∈ n.all := by
  induction depth generalizing n with
  | zero =>
    rw [Option.some.inj (Piece.hole.inj (List.mem_singleton.1 h))]
    exact Node.self_mem_all n
  | succ depth ih =>
    have hpart {c : Node} (hc : c ∈ (t.shape n).parts)
        (h : .hole (some m) ∈ (foldWithin depth t c).pieces) : m ∈ n.all :=
      Node.mem_all_trans (ih h) (mem_all_of_shape hc)
    rw [foldWithin_succ] at h
    cases hshape : t.shape n with
    | text s =>
      rw [hshape] at h
      exact nomatch List.mem_singleton.1 h
    | inner c =>
      rw [hshape] at h
      exact hpart (by simp [hshape, Shape.parts]) h
    | concat l r =>
      rw [hshape] at h
      rcases Piece.hole_mem_foldl_push h with h | h
      · exact hpart (by simp [hshape, Shape.parts]) h
      · exact hpart (by simp [hshape, Shape.parts]) h
    | sprintf format args =>
      rw [hshape] at h
      rcases Template.hole_mem_applyFormat h with h | h
      · have hpart : m ∈ (t.shape n).parts := by simp [hshape, Shape.parts, h]
        exact mem_all_of_shape hpart
      · exact hpart (by simp [hshape, Shape.parts]) h
    -- the value of a constant stands in another expression, and its holes are empty
    | constant file v =>
      rw [hshape] at h
      obtain ⟨p, _, hp⟩ := List.mem_map.1 h
      cases p <;> exact nomatch hp
    | other =>
      rw [hshape] at h
      rw [Option.some.inj (Piece.hole.inj (List.mem_singleton.1 h))]
      exact Node.self_mem_all n

end Typer

/-! ## Slots -/

namespace Template

variable {m : Node} {ps : List Piece} {key : Option String} {k : String}

theorem hole_of_mem_path (h : some m ∈ (slotsOf ps).path) : .hole (some m) ∈ ps := by
  induction ps with
  | nil => exact absurd h List.not_mem_nil
  | cons p ps ih =>
    cases p with
    | hole f =>
      rcases List.mem_cons.1 h with rfl | h
      · exact List.mem_cons_self
      · exact List.mem_cons_of_mem _ (ih h)
    | lit s =>
      rw [slotsOf] at h
      split at h
      · exact absurd h List.not_mem_nil
      · exact List.mem_cons_of_mem _ (ih h)

theorem hole_of_mem_querySlots (h : (k, some m) ∈ querySlots key ps) : .hole (some m) ∈ ps := by
  fun_induction querySlots key ps with
  | case1 => exact absurd h List.not_mem_nil
  | case2 key s rest ih => exact List.mem_cons_of_mem _ (ih h)
  | case3 f rest key ih =>
    rcases List.mem_cons.1 h with h | h
    · rw [(Prod.mk.inj h).2]
      exact List.mem_cons_self
    · exact List.mem_cons_of_mem _ (ih h)
  | case4 f rest ih => exact List.mem_cons_of_mem _ (ih h)

theorem hole_of_mem_query (h : (k, some m) ∈ (slotsOf ps).query) : .hole (some m) ∈ ps := by
  induction ps with
  | nil => exact absurd h List.not_mem_nil
  | cons p ps ih =>
    cases p with
    | hole f => exact List.mem_cons_of_mem _ (ih h)
    | lit s =>
      rw [slotsOf] at h
      split at h
      · exact List.mem_cons_of_mem _ (hole_of_mem_querySlots h)
      · exact List.mem_cons_of_mem _ (ih h)

end Template
end RouteCheck
