import RouteCheck.Proofs.Tree.Nodes
import RouteCheck.Proofs.Types.Scoping

/-!
What the type of an expression depends on.

Two typers of one file that know the same program give an expression the same type if they find the
same local declarations for the identifiers in it. What is declared elsewhere plays no part: a
package-level value is typed by a typer of its own, without local declarations.

Main statements:
  1. `SameGround.valueType`: package-level values do not depend on local declarations.
  2. `Agrees.typeDenoted?`, `Agrees.typeWith`, `Agrees.callWith`: by induction on the expression.
  3. `Agrees.typeOf`, `Agrees.callResults`: the type of an expression and the results of a call.
-/

namespace RouteCheck

theorem Node.mem_all_of_mem_callArguments {a call : Node} (h : a ∈ call.callArguments) :
    a ∈ call.all := by
  unfold callArguments at h
  cases hargs : call.field? .arguments with
  | none => simp [hargs] at h
  | some args =>
    rw [hargs] at h
    exact mem_all_trans (mem_all_of_mem_named h) (mem_all_of_field? hargs)

namespace Typer

/-- The typers know the same program, and find the same for every identifier in the node. -/
structure Agrees (t t' : Typer) (n : Node) : Prop where
  ground : SameGround t t'
  local? : ∀ u ∈ n.all, t'.local? u = t.local? u

section
variable {t t' : Typer} {n c : Node}

/-! ## Identifiers -/

theorem mem_of_local? {b : Binding} (h : t.local? n = some b) : b ∈ t.locals :=
  (List.mem_filter.1 (Binding.mem_of_innermost h)).1

theorem typeOf_of_local? (hkind : n.kind = .identifier) {b : Binding} (h : t.local? n = some b) :
    t.typeOf n = b.ty := by
  rw [typeOf, typeWith, hkind]
  simp only [h]

theorem Agrees.mono (h : Agrees t t' n) (hc : c ∈ n.all) : Agrees t t' c where
  ground := h.ground
  local? u hu := h.local? u (Node.mem_all_trans hu hc)

theorem Agrees.isLocal (h : Agrees t t' n) : t'.isLocal n = t.isLocal n := by
  rw [Typer.isLocal, Typer.isLocal, h.local? n (Node.self_mem_all n)]

theorem Agrees.import? (h : Agrees t t' n) : t'.import? n = t.import? n := by
  rw [Typer.import?, Typer.import?, h.isLocal, h.ground.2]

/-! ## What the program declares -/

theorem SameGround.declaredCall? (h : SameGround t t') (pkg name : String) :
    t'.declaredCall? pkg name = t.declaredCall? pkg name := by
  rw [Typer.declaredCall?, Typer.declaredCall?, h.1, h.2]

theorem SameGround.methodCall (h : SameGround t t') (recv : Ty) (name : String) :
    t'.methodCall recv name = t.methodCall recv name := by
  rw [Typer.methodCall, Typer.methodCall, h.1, h.2]

theorem SameGround.builtinCall? (h : SameGround t t') (name : String) (args : List Node)
    (first : Unit → Option Ty) :
    t'.builtinCall? name args first = t.builtinCall? name args first := by
  rw [Typer.builtinCall?, Typer.builtinCall?, h.2]

/-- Package-level values are typed without local declarations. -/
theorem SameGround.valueType (h : SameGround t t') (jumps : Nat) :
    valueType jumps t' = valueType jumps t := by
  funext pkg name
  cases jumps with
  | zero => rfl
  | succ k => rw [Typer.valueType, Typer.valueType, h.1, h.2]

/-! ## Expressions -/

theorem Agrees.typeDenoted? {n : Node} {sure : Bool} (h : Agrees t t' n) :
    typeDenoted? t' sure n = typeDenoted? t sure n := by
  have hm := h.mono (Node.unparen_mem_all n)
  rw [Typer.typeDenoted?.eq_def t', Typer.typeDenoted?.eq_def t]
  split
  case h_12 =>
    split
    · split
      · next x hx =>
        have := Node.size_lt_of_field? hx
        have := Node.size_unparen_le n
        rw [(hm.mono (Node.mem_all_of_field? hx)).typeDenoted?]
      · rfl
    · rfl
  case h_13 => simp only [hm.isLocal, hm.ground.1, hm.ground.2]
  case h_14 =>
    cases hx : n.unparen.field? .operand with
    | none => rfl
    | some x =>
      simp only [Option.bind_eq_bind, Option.bind_some,
        (hm.mono (Node.mem_all_of_field? hx)).import?, hm.ground.1, hm.ground.2]
  case h_15 => rfl
  all_goals rw [hm.ground.2]
termination_by n.size

mutual
/-- An expression is typed by way of the types of its parts. -/
theorem Agrees.typeWith {value : Typer → String → String → Ty} {n : Node}
    (hvalue : value t' = value t) (h : Agrees t t' n) :
    typeWith value t' n = typeWith value t n := by
  have hfield {f : Field} {x : Node} (hx : n.field? f = some x) :
      Typer.typeWith value t' x = Typer.typeWith value t x := by
    have := Node.size_lt_of_field? hx
    exact (h.mono (Node.mem_all_of_field? hx)).typeWith hvalue
  have hbinary {op : String} {left left' right right' : Ty} (hl : left' = left)
      (hr : right' = right) :
      (if !left'.isUnknown || op = "<<" || op = ">>" then left' else right') =
        if !left.isUnknown || op = "<<" || op = ">>" then left else right := by
    rw [hl, hr]
  rw [Typer.typeWith.eq_def value t', Typer.typeWith.eq_def value t]
  -- the two typers differ only in what names refer to, so that only names and what is typed by way
  -- of its parts are left to show
  split
  case h_1 =>
    split
    · next x hx =>
      have hmem := List.mem_of_mem_head? hx
      have := Node.size_lt_of_mem_named hmem
      exact (h.mono (Node.mem_all_of_mem_named hmem)).typeWith hvalue
    · rfl
  case h_12 => rw [h.local? n (Node.self_mem_all n), hvalue, h.ground.2]
  case h_13 | h_21 | h_22 =>
    split
    · next x hx => rw [hfield hx]
    · rfl
  case h_14 =>
    simp only
    split
    · rfl
    · refine hbinary ?_ ?_ <;> split
      · next x hx => exact hfield hx
      · rfl
      · next x hx => exact hfield hx
      · rfl
  case h_15 | h_16 | h_17 => rw [h.ground.2]
  case h_19 => rw [h.callWith hvalue]
  case h_20 =>
    split
    · next x f hx _ =>
      rw [(h.mono (Node.mem_all_of_field? hx)).import?, hvalue, hfield hx, h.ground.1, h.ground.2]
    · rfl
  all_goals rfl
termination_by 2 * n.size + 1

theorem Agrees.callWith {value : Typer → String → String → Ty} {n : Node}
    (hvalue : value t' = value t) (h : Agrees t t' n) :
    callWith value t' n = callWith value t n := by
  rw [Typer.callWith.eq_def value t', Typer.callWith.eq_def value t]
  split
  · rfl
  · next func hfunc =>
    have hf := h.mono (Node.mem_all_of_field? hfunc)
    split
    · simp only [hf.isLocal, h.ground.builtinCall?, h.ground.declaredCall?, h.ground.2]
      refine congrArg (fun first => (if t.isLocal func = true then none else
        t.builtinCall? func.text n.callArguments first).getD _) (funext fun _ => ?_)
      split
      · next a ha =>
        have hmem := List.mem_of_mem_head? ha
        have := Node.size_lt_of_mem_callArguments hmem
        exact congrArg some ((h.mono (Node.mem_all_of_mem_callArguments hmem)).typeWith hvalue)
      · rfl
    · split
      · next x f hx _ =>
        have := Node.size_lt_of_field? hfunc
        have := Node.size_lt_of_field? hx
        have hx := hf.mono (Node.mem_all_of_field? hx)
        rw [hx.import?, hx.typeWith hvalue]
        simp only [h.ground.declaredCall?, h.ground.methodCall]
      · rfl
    · rw [hf.typeDenoted?]
termination_by 2 * n.size
end

/-- The type of an expression depends on what its identifiers refer to, and on nothing else that is
local. -/
theorem Agrees.typeOf (h : Agrees t t' n) : t'.typeOf n = t.typeOf n :=
  h.typeWith (h.ground.valueType maxJumps)

theorem Agrees.callResults (h : Agrees t t' n) : t'.callResults n = t.callResults n :=
  h.callWith (h.ground.valueType maxJumps)

end
end Typer
end RouteCheck
