import RouteCheck.Proofs.Check.Inventory

/-!
The settled list of diagnostics.

Diagnostics are put in the order of their places and messages, and of neighbours that are the same
the first is kept. The order compares paths by their components, so that it cannot tell apart two
diagnostics just where these differ in how the path is written. What is the same therefore stands
together, one of each is left, and another arrangement of the reports leaves the same list, except
that it may keep another spelling of a path.

Main statements:
  1. `compare_eq_lt_iff`, `same_iff_coincides`: the order and the equality, field by field.
  2. `ascends_dropRepeats`: what is left of a sorted list ascends strictly.
  3. `forall₂_coincides_of_ascends`: of two strictly ascending lists with the same diagnostics, each
     element of one coincides with the element of the other at its place.
  4. `settle_canonical`: the settled list of any reports.
-/

namespace RouteCheck.Diagnostic

/-! ## The order, field by field -/

/-- The same place and message: paths by their components. -/
def Coincides (a b : Diagnostic) : Prop :=
  a.position.file.components = b.position.file.components ∧ a.position.line = b.position.line ∧
    a.position.column = b.position.column ∧ a.message = b.message

instance : DecidableRel Coincides := fun a b =>
  inferInstanceAs (Decidable (a.position.file.components = b.position.file.components ∧ _ ∧ _ ∧ _))

/-- Earlier by path, then line, then column, then message. -/
def Precedes (a b : Diagnostic) : Prop :=
  Path.compareComponents a.position.file.components b.position.file.components = .lt ∨
    a.position.file.components = b.position.file.components ∧
      (a.position.line < b.position.line ∨ a.position.line = b.position.line ∧
        (a.position.column < b.position.column ∨ a.position.column = b.position.column ∧
          Text.compare a.message b.message = .lt))

section
variable {a b c : Diagnostic} {as bs ds es : List Diagnostic}

theorem compare_eq_eq_iff : a.compare b = .eq ↔ a.Coincides b := by
  unfold compare Position.compare Coincides
  rw [Ordering.then_eq_eq, Ordering.then_eq_eq, Ordering.then_eq_eq, Path.compare_eq_iff,
    Nat.compare_eq_eq, Nat.compare_eq_eq, Std.LawfulEqCmp.compare_eq_iff_eq, and_assoc, and_assoc]

theorem same_iff_coincides : a.same b = true ↔ a.Coincides b := same_iff.trans compare_eq_eq_iff

theorem compare_eq_lt_iff : a.compare b = .lt ↔ a.Precedes b := by
  unfold compare Position.compare Precedes
  simp only [Ordering.then_eq_lt, Ordering.then_eq_eq, Path.compare_eq_iff, Nat.compare_eq_eq,
    Nat.compare_eq_lt, and_or_left, or_assoc, and_assoc]
  rfl

theorem Coincides.symm (h : a.Coincides b) : b.Coincides a :=
  ⟨h.1.symm, h.2.1.symm, h.2.2.1.symm, h.2.2.2.symm⟩

theorem Coincides.trans (h : a.Coincides b) (h' : b.Coincides c) : a.Coincides c :=
  ⟨h.1.trans h'.1, h.2.1.trans h'.2.1, h.2.2.1.trans h'.2.2.1, h.2.2.2.trans h'.2.2.2⟩

theorem Precedes.trans (h : a.Precedes b) (h' : b.Precedes c) : a.Precedes c :=
  compare_eq_lt_iff.1 (Std.TransCmp.lt_trans (compare_eq_lt_iff.2 h) (compare_eq_lt_iff.2 h'))

theorem Precedes.not_coincides (h : a.Precedes b) : ¬ a.Coincides b := by
  intro heq
  have hlt := compare_eq_lt_iff.2 h
  rw [compare_eq_eq_iff.2 heq] at hlt
  cases hlt

theorem Precedes.congr {a' b' : Diagnostic} (h : a.Precedes b) (ha : a.Coincides a')
    (hb : b.Coincides b') : a'.Precedes b' := by
  rw [← compare_eq_lt_iff] at h ⊢
  calc
    a'.compare b'
    _ = a'.compare b := (Std.TransCmp.congr_right (compare_eq_eq_iff.2 hb)).symm
    _ = a.compare b := (Std.TransCmp.congr_left (compare_eq_eq_iff.2 ha)).symm
    _ = .lt := h

/-! ## Strictly ascending lists -/

/-- Each diagnostic stands before all that follow it. -/
def Ascends (ds : List Diagnostic) : Prop := ds.Pairwise Precedes

theorem dropRepeats_singleton (a : Diagnostic) : dropRepeats [a] = [a] := by
  generalize hds : [a] = ds
  fun_cases dropRepeats ds <;> cases hds
  rfl

theorem dropRepeats_cons_cons (a b : Diagnostic) (rest : List Diagnostic) :
    dropRepeats (a :: b :: rest) =
      if a.same b then dropRepeats (a :: rest) else a :: dropRepeats (b :: rest) := by
  generalize hds : a :: b :: rest = ds
  fun_cases dropRepeats ds with
  | case1 => cases hds
  | case2 => cases hds
  | case3 a b rest hsame =>
    cases hds
    rw [if_pos hsame]
  | case4 a b rest hne =>
    cases hds
    rw [if_neg hne]

/-- Of a sorted list strictly ascending diagnostics are left. -/
theorem ascends_dropRepeats (h : ds.Pairwise fun a b => (a.compare b).isLE = true) :
    Ascends (dropRepeats ds) := by
  fun_induction dropRepeats ds with
  | case1 => exact .nil
  | case2 a => exact List.pairwise_singleton _ a
  | case3 a b rest _ ih =>
    obtain ⟨ha, hrest⟩ := List.pairwise_cons.1 h
    exact ih (List.pairwise_cons.2
      ⟨fun c hc => ha c (List.mem_cons_of_mem _ hc), (List.pairwise_cons.1 hrest).2⟩)
  | case4 a b rest hne ih =>
    obtain ⟨ha, hrest⟩ := List.pairwise_cons.1 h
    refine List.pairwise_cons.2 ⟨fun c hc => ?_, ih hrest⟩
    have hab : a.compare b = .lt := by
      have hle := ha b List.mem_cons_self
      have hne : a.compare b ≠ .eq := fun heq => hne (same_iff.2 heq)
      cases hcmp : a.compare b <;> simp_all
    have hbc : (b.compare c).isLE = true := by
      rcases List.mem_cons.1 (mem_of_mem_dropRepeats hc) with rfl | hc
      · exact Std.ReflCmp.isLE_rfl
      · exact (List.pairwise_cons.1 hrest).1 c hc
    exact compare_eq_lt_iff.1 (Std.TransCmp.lt_of_lt_of_isLE hab hbc)

/-- In an ascending list no other diagnostic coincides with one of it. -/
theorem countP_coincides (h : Ascends ds) (ha : a ∈ ds) (hab : a.Coincides b) :
    ds.countP (fun d => decide (d.Coincides b)) = 1 := by
  have hnone {rest : List Diagnostic} (h : ∀ d ∈ rest, ¬ d.Coincides b) :
      rest.countP (fun d => decide (d.Coincides b)) = 0 :=
    List.countP_eq_zero.2 fun d hd => by simpa using h d hd
  induction ds with
  | nil => exact absurd ha List.not_mem_nil
  | cons d rest ih =>
    obtain ⟨hd, hrest⟩ := List.pairwise_cons.1 h
    rw [List.countP_cons]
    rcases List.mem_cons.1 ha with rfl | ha
    · have hothers : ∀ d ∈ rest, ¬ d.Coincides b := fun d hmem heq =>
        (hd d hmem).not_coincides (hab.trans heq.symm)
      rw [hnone hothers]
      simp [hab]
    · have hnot : ¬ d.Coincides b := fun heq =>
        (hd a ha).not_coincides (heq.trans hab.symm)
      rw [ih hrest ha]
      simp [hnot]

/-- The first of two ascending lists coincide if each has a counterpart in the other list. -/
theorem coincides_head (has : Ascends (a :: as)) (hbs : Ascends (b :: bs))
    (hab : ∃ d ∈ b :: bs, a.Coincides d) (hba : ∃ d ∈ a :: as, d.Coincides b) :
    a.Coincides b := by
  obtain ⟨d, hd, had⟩ := hab
  obtain ⟨e, he, heb⟩ := hba
  rcases List.mem_cons.1 hd with rfl | hd
  · exact had
  rcases List.mem_cons.1 he with rfl | he
  · exact heb
  -- otherwise `a` is before `b`, by `e`, and `b` is before `a`, by `d`
  have hlt : a.Precedes b := ((List.pairwise_cons.1 has).1 e he).congr ⟨rfl, rfl, rfl, rfl⟩ heb
  have hgt : b.Precedes a :=
    ((List.pairwise_cons.1 hbs).1 d hd).congr ⟨rfl, rfl, rfl, rfl⟩ had.symm
  exact absurd ⟨rfl, rfl, rfl, rfl⟩ (hlt.trans hgt).not_coincides

/-- Ascending lists in which every diagnostic has a counterpart in the other coincide place by
place. -/
theorem forall₂_coincides_of_ascends (has : Ascends as) (hbs : Ascends bs)
    (hab : ∀ a ∈ as, ∃ b ∈ bs, a.Coincides b) (hba : ∀ b ∈ bs, ∃ a ∈ as, a.Coincides b) :
    List.Forall₂ Coincides as bs := by
  induction as generalizing bs with
  | nil =>
    cases bs with
    | nil => exact .nil
    | cons b bs =>
      obtain ⟨a, ha, -⟩ := hba b List.mem_cons_self
      exact absurd ha List.not_mem_nil
  | cons a as ih =>
    cases bs with
    | nil =>
      obtain ⟨b, hb, -⟩ := hab a List.mem_cons_self
      exact absurd hb List.not_mem_nil
    | cons b bs =>
      have hhead := coincides_head has hbs (hab a List.mem_cons_self) (hba b List.mem_cons_self)
      obtain ⟨ha, hasrest⟩ := List.pairwise_cons.1 has
      obtain ⟨hb, hbsrest⟩ := List.pairwise_cons.1 hbs
      refine .cons hhead (ih hasrest hbsrest (fun d hd => ?_) fun e he => ?_)
      · obtain ⟨e, he, hde⟩ := hab d (List.mem_cons_of_mem _ hd)
        rcases List.mem_cons.1 he with rfl | he
        · exact absurd (hhead.trans hde.symm) (ha d hd).not_coincides
        · exact ⟨e, he, hde⟩
      · obtain ⟨d, hd, hde⟩ := hba e (List.mem_cons_of_mem _ he)
        rcases List.mem_cons.1 hd with rfl | hd
        · exact absurd (hhead.symm.trans hde) (hb e he).not_coincides
        · exact ⟨d, hd, hde⟩

/-! ## Settled lists -/

theorem pairwise_mergeSort (ds : List Diagnostic) :
    (ds.mergeSort fun a b => (a.compare b).isLE).Pairwise fun a b =>
      (a.compare b).isLE = true := by
  apply List.pairwise_mergeSort
  · intro a b c hab hbc
    exact Std.TransCmp.isLE_trans hab hbc
  · intro a b
    have hswap : b.compare a = (a.compare b).swap := Std.OrientedCmp.eq_swap
    rw [hswap]
    cases a.compare b <;> rfl

theorem ascends_settle (ds : List Diagnostic) : Ascends (settle ds) :=
  ascends_dropRepeats (pairwise_mergeSort ds)

/-- What is reported has a counterpart in the settled list of the same reports. -/
theorem exists_coincides_settle (hperm : ds.Perm es) (ha : a ∈ ds) :
    ∃ b ∈ settle es, b.Coincides a := by
  obtain ⟨b, hb, hsame⟩ := exists_same_mem_settle (hperm.mem_iff.1 ha)
  exact ⟨b, hb, same_iff_coincides.1 hsame⟩

end

/-- The settled list of any reports ascends strictly by path, line, column and message; it has
exactly one diagnostic for each report, and none that was not reported; and another arrangement of
the reports settles to the same list, paths compared by components. -/
theorem settle_canonical (ds : List Diagnostic) :
    (settle ds).Pairwise Precedes ∧
    (∀ d ∈ ds, (settle ds).countP (fun kept => decide (kept.Coincides d)) = 1) ∧
    (∀ kept ∈ settle ds, kept ∈ ds) ∧
    ∀ es, ds.Perm es → List.Forall₂ Coincides (settle ds) (settle es) := by
  refine ⟨ascends_settle ds, fun d hd => ?_, fun _ => mem_of_mem_settle, fun es hperm => ?_⟩
  · obtain ⟨kept, hkept, hsame⟩ := exists_coincides_settle (.refl ds) hd
    exact countP_coincides (ascends_settle ds) hkept hsame
  · refine forall₂_coincides_of_ascends (ascends_settle ds) (ascends_settle es)
      (fun a ha => ?_) fun b hb => ?_
    · obtain ⟨b, hb, hba⟩ := exists_coincides_settle hperm (mem_of_mem_settle ha)
      exact ⟨b, hb, hba.symm⟩
    · exact exists_coincides_settle hperm.symm (mem_of_mem_settle hb)

/-- Of two neighbours that coincide the first stays. -/
theorem settle_triple {a b c : Diagnostic} (hab : a.compare b = .lt) (hbc : b.compare c = .eq) :
    settle [a, b, c] = [a, b] := by
  have hac : a.compare c = .lt := (Std.TransCmp.congr_right hbc).symm.trans hab
  have hsorted : [a, b, c].Pairwise fun a b => (a.compare b).isLE = true := by
    simp [hab, hbc, hac]
  have hne : ¬ a.same b = true := by simp [same, hab]
  have hsort := List.mergeSort_of_pairwise hsorted
  rw [settle, hsort, dropRepeats_cons_cons, if_neg hne, dropRepeats_cons_cons,
    if_pos (same_iff.2 hbc), dropRepeats_singleton]

/-- An early report, and two of one place whose path is written in the two given ways. -/
def spelledTwice (first second : String) : List Diagnostic :=
  [⟨⟨⟨"a/a.go"⟩, 9, 1⟩, "early"⟩, ⟨⟨⟨first⟩, 2, 1⟩, "late"⟩, ⟨⟨⟨second⟩, 2, 1⟩, "late"⟩]

/-- The first of the two stays; if they are reported the other way round, the other one. -/
theorem settle_canonical_spelledTwice :
    let ds := spelledTwice "a//b.go" "a/b.go"
    let es := spelledTwice "a/b.go" "a//b.go"
    settle ds = ds.take 2 ∧ settle es = es.take 2 ∧ settle ds ≠ settle es ∧
    (settle ds).countP (fun kept => decide (kept.Coincides ⟨⟨⟨"a/b.go"⟩, 2, 1⟩, "late"⟩)) = 1 ∧
    List.Forall₂ Coincides (settle ds) (settle es) := by
  intro ds es
  have hds : settle ds = ds.take 2 := settle_triple (by decide) (by decide)
  have hes : settle es = es.take 2 := settle_triple (by decide) (by decide)
  obtain ⟨-, hone, -, hperm⟩ := settle_canonical ds
  refine ⟨hds, hes, ?_, hone _ (by simp [ds, spelledTwice]), hperm es (.cons _ (.swap ..))⟩
  rw [hds, hes]
  decide

end RouteCheck.Diagnostic
