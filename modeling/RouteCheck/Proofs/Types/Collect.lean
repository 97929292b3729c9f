import RouteCheck.Types.Typing

/-!
Collecting declarations adds to the local declarations of a typer and changes nothing else: the
typer for a node keeps its index and its file.
-/

namespace RouteCheck
namespace Typer

/-- The two know the same program and stand in the same file. -/
def SameGround (t t' : Typer) : Prop := t'.index = t.index ∧ t'.file = t.file

section
variable {t t' t'' : Typer}

theorem SameGround.refl (t : Typer) : SameGround t t := ⟨rfl, rfl⟩

theorem SameGround.trans (h : SameGround t t') (h' : SameGround t' t'') : SameGround t t'' :=
  ⟨h'.1.trans h.1, h'.2.trans h.2⟩

theorem sameGround_foldl {β : Type} {f : Typer → β → Typer} (h : ∀ t b, SameGround t (f t b))
    (bs : List β) (t : Typer) : SameGround t (bs.foldl f t) := by
  induction bs generalizing t with
  | nil => exact .refl t
  | cons b bs ih => exact (h t b).trans (ih (f t b))

end

theorem sameGround_bind (t : Typer) (scope : Extent) (visibleFrom : Nat) (name : Node) (ty : Ty) :
    SameGround t (t.bind scope visibleFrom name ty) := by
  unfold bind
  split <;> exact ⟨rfl, rfl⟩

theorem sameGround_bindAll (t : Typer) (scope : Extent) (visibleFrom : Nat) :
    ∀ (names : List Node) (types : List Ty), SameGround t (t.bindAll scope visibleFrom names types)
  | n :: ns, ty :: tys =>
    (sameGround_bind t scope visibleFrom n ty).trans (sameGround_bindAll _ scope visibleFrom ns tys)
  | [], _ => .refl t
  | _ :: _, [] => .refl t

theorem sameGround_bindSignature (t : Typer) (func : Node) : SameGround t (t.bindSignature func) := by
  refine sameGround_foldl (fun t f => ?_) _ t
  cases func.field? f with
  | none => exact .refl t
  | some list =>
    simp only
    split
    · refine sameGround_foldl (fun t param => ?_) _ t
      cases param.field? .type with
      | none => exact .refl t
      | some node => exact sameGround_bindAll t _ _ _ _
    · exact .refl t

theorem sameGround_bindValues (t : Typer) (scope : Extent) (decl : Node) (names : List Node)
    (declared : Option Ty) (values : List Node) :
    SameGround t (t.bindValues scope decl names declared values) :=
  sameGround_bindAll t _ _ _ _

mutual
theorem sameGround_collect (t : Typer) (scope : Extent) (n : Node) :
    SameGround t (t.collect scope n) := by
  have hbody (scope' : Extent) : SameGround t (match _h : n.field? .body with
      | some body => collect (t.bindSignature n) scope' body
      | none => t.bindSignature n) := by
    split
    · next body hb =>
      have := Node.size_lt_of_field? hb
      exact (sameGround_bindSignature t n).trans (sameGround_collect _ scope' body)
    · exact sameGround_bindSignature t n
  have hspec (names : List Node) (declared : Option Ty) : SameGround t (match _h : n.field? .value with
      | some v => (collect t scope v).bindValues scope n names declared v.expressions
      | none => t.bindValues scope n names declared []) := by
    split
    · next v hv =>
      have := Node.size_lt_of_field? hv
      exact (sameGround_collect t scope v).trans (sameGround_bindValues _ _ _ _ _ _)
    · exact sameGround_bindValues _ _ _ _ _ _
  rw [collect]
  split
  · exact hbody _
  · exact hbody _
  · exact hbody _
  · split
    · next left right _ hright =>
      have := Node.size_lt_of_field? hright
      exact (sameGround_collect t scope right).trans (sameGround_bindValues _ _ _ _ _ _)
    · exact .refl t
  · exact hspec _ _
  · exact hspec _ _
  · split
    · exact .refl t
    · next right hright =>
      have := Node.size_lt_of_field? hright
      have hcollect := sameGround_collect t scope right
      simp only
      split
      · split
        · exact hcollect.trans (sameGround_bindAll _ _ _ _ _)
        · exact hcollect
      · exact hcollect
  · have := Node.sizes_named_lt n
    exact sameGround_collectAll t _ n.named
termination_by 2 * n.size

theorem sameGround_collectAll (t : Typer) (scope : Extent) (ns : List Node) :
    SameGround t (t.collectAll scope ns) := by
  match ns with
  | [] => 
    rw [collectAll]
    exact .refl t
  | n :: rest =>
    rw [collectAll]
    exact (sameGround_collect t scope n).trans (sameGround_collectAll _ scope rest)
termination_by 2 * Node.sizes ns + 1
decreasing_by
  · simp only [Node.sizes]
    omega
  · have := n.size_pos
    simp only [Node.sizes]
    omega
end

theorem sameGround_enclosing (index : Index) (file : SourceFile) (n : Node) :
    SameGround { index, file } (enclosing index file n) := by
  unfold enclosing
  simp only
  split
  · exact sameGround_collect _ _ _
  · exact .refl _

@[simp] theorem enclosing_file (index : Index) (file : SourceFile) (n : Node) :
    (enclosing index file n).file = file := (sameGround_enclosing index file n).2

@[simp] theorem enclosing_index (index : Index) (file : SourceFile) (n : Node) :
    (enclosing index file n).index = index := (sameGround_enclosing index file n).1

end Typer
end RouteCheck
