import Mathlib.Data.List.Basic
import RouteCheck.Check.Diagnostic

/-!
Laws of the orders on texts, paths, positions and diagnostics.

Every one of these comparisons is lexicographic: over characters, over components, over the fields
of a record. So each is transitive and oriented because its parts are, and says `eq` where all
parts agree. Paths that are written differently can have the same components, and then a comparison
of positions cannot tell them apart.

Main statements:
  1. the instances of `Std.TransCmp` and, for texts and lists of components, `Std.LawfulEqCmp`;
  2. `Path.compare_eq_iff`: two paths compare equal if they have the same components;
  3. `Diagnostic.same_refl`, `Diagnostic.same_trans`: being the same diagnostic.
-/

namespace RouteCheck

/-! ## Texts -/

namespace Text

theorem compareChars_eq : compareChars = List.compareLex (compareOn Char.toNat) := by
  funext as bs
  induction as generalizing bs with
  | nil => cases bs <;> rfl
  | cons a as ih =>
    cases bs with
    | nil => rfl
    | cons b bs =>
      rw [compareChars, List.compareLex_cons_cons, ih]
      rfl

instance lawfulEqCmp_compareOn_toNat : Std.LawfulEqCmp (compareOn Char.toNat) where
  compare_self := Std.ReflCmp.compare_self
  eq_of_compare h := Char.toNat_inj.1 (Nat.compare_eq_eq.1 h)

instance : Std.TransCmp compareChars := by
  rw [compareChars_eq]
  infer_instance

instance : Std.LawfulEqCmp compareChars := by
  rw [compareChars_eq]
  infer_instance

instance : Std.TransCmp Text.compare where
  eq_swap {a b} := @Std.OrientedCmp.eq_swap _ compareChars _ a.toList b.toList
  isLE_trans {a b c} := @Std.TransCmp.isLE_trans _ compareChars _ a.toList b.toList c.toList

instance : Std.LawfulEqCmp Text.compare where
  compare_self {a} := @Std.ReflCmp.compare_self _ compareChars _ a.toList
  eq_of_compare h := String.toList_inj.1 (Std.LawfulEqCmp.eq_of_compare h)

end Text

/-! ## Paths -/

namespace Path

namespace Component

/-- The text of a name, and none for the other components. -/
def text : Component → String
  | name s => s
  | _ => ""

theorem compare_eq : compare =
    compareLex (compareOn rank) (fun a b => Text.compare a.text b.text) := by
  funext a b
  cases a <;> cases b <;> rfl

instance : Std.TransCmp compare := by
  have htext : Std.TransCmp fun a b : Component => Text.compare a.text b.text :=
    { eq_swap := Std.OrientedCmp.eq_swap, isLE_trans := Std.TransCmp.isLE_trans }
  rw [compare_eq]
  infer_instance

instance : Std.LawfulEqCmp compare where
  compare_self := Std.ReflCmp.compare_self
  eq_of_compare {a b} h := by
    rw [compare_eq] at h
    obtain ⟨hrank, htext⟩ := Ordering.then_eq_eq.1 h
    have hrank : a.rank = b.rank := Nat.compare_eq_eq.1 hrank
    have htext : a.text = b.text := Std.LawfulEqCmp.eq_of_compare htext
    cases a <;> cases b <;> simp_all [rank, text]

end Component

theorem compareComponents_eq : compareComponents = List.compareLex Component.compare := by
  funext as bs
  induction as generalizing bs with
  | nil => cases bs <;> rfl
  | cons a as ih =>
    cases bs with
    | nil => rfl
    | cons b bs => rw [compareComponents, List.compareLex_cons_cons, ih]

instance : Std.TransCmp compareComponents := by
  rw [compareComponents_eq]
  infer_instance

instance : Std.LawfulEqCmp compareComponents := by
  rw [compareComponents_eq]
  infer_instance

instance : Std.TransCmp Path.compare where
  eq_swap {a b} := @Std.OrientedCmp.eq_swap _ compareComponents _ a.components b.components
  isLE_trans {a b c} :=
    @Std.TransCmp.isLE_trans _ compareComponents _ a.components b.components c.components

/-- Two paths compare equal just if they have the same components. -/
theorem compare_eq_iff {a b : Path} : a.compare b = .eq ↔ a.components = b.components :=
  @Std.LawfulEqCmp.compare_eq_iff_eq _ compareComponents _ a.components b.components

end Path

/-! ## Positions and diagnostics -/

theorem Position.compare_eq : Position.compare =
    compareLex (compareLex (fun a b => a.file.compare b.file) (compareOn Position.line))
      (compareOn Position.column) := rfl

instance : Std.TransCmp Position.compare := by
  have hfile : Std.TransCmp fun a b : Position => a.file.compare b.file :=
    { eq_swap := Std.OrientedCmp.eq_swap, isLE_trans := Std.TransCmp.isLE_trans }
  rw [Position.compare_eq]
  infer_instance

namespace Diagnostic

theorem compare_eq : compare = compareLex (fun a b => a.position.compare b.position)
    (fun a b => Text.compare a.message b.message) := rfl

instance : Std.TransCmp compare := by
  have hposition : Std.TransCmp fun a b : Diagnostic => a.position.compare b.position :=
    { eq_swap := Std.OrientedCmp.eq_swap, isLE_trans := Std.TransCmp.isLE_trans }
  have hmessage : Std.TransCmp fun a b : Diagnostic => Text.compare a.message b.message :=
    { eq_swap := Std.OrientedCmp.eq_swap, isLE_trans := Std.TransCmp.isLE_trans }
  rw [compare_eq]
  infer_instance

section
variable {a b c : Diagnostic}

theorem same_iff : a.same b = true ↔ a.compare b = .eq := beq_iff_eq

theorem same_refl (a : Diagnostic) : a.same a = true := same_iff.2 Std.ReflCmp.compare_self

theorem same_trans (hab : a.same b = true) (hbc : b.same c = true) : a.same c = true :=
  same_iff.2 (Std.TransCmp.eq_trans (same_iff.1 hab) (same_iff.1 hbc))

end

end Diagnostic

end RouteCheck
