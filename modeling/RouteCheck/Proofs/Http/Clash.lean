import Mathlib.Logic.Basic
import RouteCheck.Proofs.Http.PathTree

/-!
Patterns that leave no room for another one.

There are two reasons to refuse a pattern. It clashes with one that is held: the two are the same,
or where they part one has a wildcard for a segment and the other one for everything. Or a wildcard
for everything stands in the middle of a segment, and no pattern that is held begins with what comes
before it.

Main statements:
  1. `clash_append_left`, `clash_comm`: clashes do not look at what is in front, nor at the order.
  2. `refuses_congr`, `refuses_behind`: which patterns can refuse one, and that what they have in
     common at the front does not matter.
  3. `refuses_nil_append_char`, `refuses_nil_literal_rest`: what is refused where nothing is held.
-/

namespace RouteCheck.Http.PathTree

/-! ## Clashes -/

/-- Two patterns that are the same, or that part at wildcards of different kinds. -/
@[grind =]
def clash : List PathPart → List PathPart → Bool
  | [], [] => true
  | .param :: _, .rest :: _ => true
  | .rest :: _, .param :: _ => true
  | p :: ps, q :: qs => p == q && clash ps qs
  | _, _ => false

/-- A wildcard for everything follows `stem` in the middle of a segment. -/
def MidSegment (stem parts : List PathPart) : Prop :=
  parts = stem ++ [.rest] ∧ ∃ c, c ≠ '/' ∧ stem.getLast? = some (.char c)

/-- The patterns `held` leave no room for one more: it clashes with one of them, or it has a
wildcard for everything in the middle of a segment that none of them begins with. -/
def Refuses (held : List (List PathPart)) (parts : List PathPart) : Prop :=
  (∃ p ∈ held, clash p parts = true) ∨ ∃ stem, MidSegment stem parts ∧ ∀ p ∈ held, ¬ stem <+: p

/-- What follows the wildcard of a segment begins with a slash, and nothing follows a wildcard for
everything. -/
def Formed : List PathPart → Prop
  | [] => True
  | .char _ :: ps => Formed ps
  | .param :: ps => (∀ p ∈ ps.head?, p = .char '/') ∧ Formed ps
  | .rest :: ps => ps = []

section
variable {held held' : List (List PathPart)} {parts ps qs : List PathPart} {c : Char}

theorem clash_append_left (before ps qs : List PathPart) :
    clash (before ++ ps) (before ++ qs) = clash ps qs := by
  induction before with
  | nil => rfl
  | cons p before ih => cases p <;> simpa [clash] using ih

theorem clash_comm (ps qs : List PathPart) : clash ps qs = clash qs ps := by
  induction ps generalizing qs with
  | nil => cases qs <;> simp [clash]
  | cons p ps ih =>
    cases qs with
    | nil => cases p <;> simp [clash]
    | cons q qs => cases p <;> cases q <;> simp [clash, ih qs, BEq.comm]

theorem MidSegment.append {stem : List PathPart} (h : MidSegment stem parts)
    (before : List PathPart) : MidSegment (before ++ stem) (before ++ parts) := by
  obtain ⟨rfl, c, hc, hlast⟩ := h
  exact ⟨(List.append_assoc ..).symm, c, hc, by simp [List.getLast?_append, hlast]⟩

/-- What comes before a wildcard in the middle of a segment ends in the front of the pattern, or
goes beyond it. -/
theorem MidSegment.cases_append {stem before : List PathPart}
    (h : MidSegment stem (before ++ parts)) :
    stem <+: before ∨ ∃ more, stem = before ++ more ∧ MidSegment more parts := by
  obtain ⟨hparts, c, hc, hlast⟩ := h
  rcases List.append_eq_append_iff.1 hparts with ⟨more, rfl, hmid⟩ | ⟨more, hbefore, -⟩
  · cases hmore : more.getLast? with
    | none =>
      obtain rfl := List.getLast?_eq_none_iff.1 hmore
      exact .inl (by simp)
    | some x =>
      have hlast : more.getLast? = some (.char c) := by
        simpa [List.getLast?_append, hmore] using hlast
      exact .inr ⟨more, rfl, hmid, c, hc, hlast⟩
  · exact .inl ⟨more, hbefore.symm⟩

/-- What refuses a pattern are only patterns that begin as it does, or clash with it at once. -/
theorem refuses_congr
    (h : ∀ p, p.head? = parts.head? ∨ clash p parts = true → (p ∈ held ↔ p ∈ held')) :
    Refuses held parts ↔ Refuses held' parts := by
  have hbegins {stem p : List PathPart} (hmid : MidSegment stem parts) (hp : stem <+: p) :
      p.head? = parts.head? := by
    obtain ⟨rfl, c, -, hlast⟩ := hmid
    cases stem with
    | nil => simp at hlast
    | cons x stem =>
      obtain ⟨more, rfl⟩ := hp
      rfl
  unfold Refuses
  refine or_congr (exists_congr fun p => ?_) (exists_congr fun stem => ?_)
  · exact and_congr_left fun hclash => h p (.inr hclash)
  · refine and_congr_right fun hmid => forall_congr' fun p => ?_
    constructor
    · exact fun hheld hp hstem => hheld ((h p (.inl (hbegins hmid hstem))).2 hp) hstem
    · exact fun hheld hp hstem => hheld ((h p (.inl (hbegins hmid hstem))).1 hp) hstem

/-- What patterns have in common at the front does not matter. -/
theorem refuses_behind (hheld : held ≠ []) (before : List PathPart) :
    Refuses (held.map (before ++ ·)) (before ++ parts) ↔ Refuses held parts := by
  obtain ⟨p₀, hp₀⟩ := List.exists_mem_of_ne_nil held hheld
  unfold Refuses
  refine or_congr
    (by simp only [List.mem_map, exists_exists_and_eq_and, clash_append_left]) ⟨?_, ?_⟩
  · rintro ⟨stem, hmid, hnone⟩
    rcases hmid.cases_append with hstem | ⟨more, rfl, hbehind⟩
    · -- `p₀` behind the common front would begin with the stem
      exact absurd (hstem.trans (List.prefix_append ..)) (hnone _ (List.mem_map_of_mem hp₀))
    · refine ⟨more, hbehind, fun p hp hmore => ?_⟩
      exact hnone _ (List.mem_map_of_mem hp) ((List.prefix_append_right_inj before).2 hmore)
  · rintro ⟨stem, hmid, hnone⟩
    refine ⟨before ++ stem, hmid.append before, ?_⟩
    simpa [List.prefix_append_right_inj] using hnone

/-- Where nothing is held, only a wildcard in the middle of a segment is refused. -/
theorem refuses_nil_iff : Refuses [] parts ↔ ∃ stem, MidSegment stem parts := by
  simp [Refuses]

/-- The front of a pattern does not matter if a literal character follows it. -/
theorem refuses_nil_append_char (before : List PathPart) :
    Refuses [] (before ++ .char c :: parts) ↔ Refuses [] (.char c :: parts) := by
  rw [refuses_nil_iff, refuses_nil_iff]
  constructor
  · rintro ⟨stem, hmid⟩
    rcases hmid.cases_append with ⟨more, rfl⟩ | ⟨more, -, hbehind⟩
    · have hrest : more ++ .char c :: parts = [.rest] := by
        simpa [List.append_assoc] using hmid.1
      exact absurd hrest (by simp [List.append_eq_singleton_iff])
    · exact ⟨more, hbehind⟩
  · rintro ⟨stem, hmid⟩
    exact ⟨before ++ stem, hmid.append before⟩

theorem clash_nil_iff : clash ps [] = true ↔ ps = [] := by
  cases ps with
  | nil => simp [clash]
  | cons p ps => cases p <;> simp [clash]

theorem clash_char_iff :
    clash ps (.char c :: qs) = true ↔ ∃ more, ps = .char c :: more ∧ clash more qs = true := by
  cases ps with
  | nil => simp [clash]
  | cons p ps => cases p <;> simp [clash, and_assoc]

/-- What refuses a pattern that begins with a literal character are only patterns that begin with
it. -/
theorem refuses_char_congr
    (h : ∀ p : List PathPart, p.head? = some (.char c) → (p ∈ held ↔ p ∈ held')) :
    Refuses held (.char c :: qs) ↔ Refuses held' (.char c :: qs) := by
  refine refuses_congr fun p hp => h p ?_
  rcases hp with hp | hp
  · exact hp
  · obtain ⟨more, rfl, -⟩ := clash_char_iff.1 hp
    rfl

theorem clash_rest_iff : clash ps [.rest] = true ↔ ps.head? = some .param ∨ ps = [.rest] := by
  cases ps with
  | nil => simp [clash]
  | cons p ps => cases p <;> simp [clash, clash_nil_iff]

theorem head?_of_clash_param (h : clash ps (.param :: qs) = true) :
    ps.head? = some .param ∨ ps.head? = some .rest := by
  cases ps with
  | nil => simp [clash] at h
  | cons p ps => cases p <;> simp [clash] at h ⊢

theorem not_midSegment_nil {stem : List PathPart} : ¬ MidSegment stem [] := by
  rintro ⟨h, -⟩
  simp at h

theorem not_midSegment_rest {stem : List PathPart} : ¬ MidSegment stem [.rest] := by
  rintro ⟨h, c, -, hlast⟩
  obtain rfl : stem = [] := by simpa using h
  simp at hlast

theorem refuses_empty_iff : Refuses held [] ↔ [] ∈ held := by
  simp [Refuses, clash_nil_iff, not_midSegment_nil]

theorem refuses_rest_iff :
    Refuses held [.rest] ↔ (∃ p ∈ held, p.head? = some .param) ∨ [.rest] ∈ held := by
  simp [Refuses, clash_rest_iff, not_midSegment_rest, and_or_left, exists_or]

end

/-! ## Well-formed patterns -/

section
variable {parts : List PathPart} {cs : List Char}

theorem Formed.of_append {before : List PathPart} (h : Formed (before ++ parts)) :
    Formed parts := by
  induction before with
  | nil => exact h
  | cons p before ih =>
    cases p with
    | char c => exact ih h
    | param => exact ih h.2
    | rest =>
      obtain ⟨-, rfl⟩ := List.append_eq_nil_iff.1 h
      trivial

theorem Formed.drop (h : Formed parts) (n : Nat) : Formed (parts.drop n) :=
  (List.take_append_drop n parts ▸ h).of_append

/-- Behind the wildcard of a segment comes a slash, or nothing. -/
theorem Formed.behind_param (h : Formed (.param :: parts)) :
    parts = [] ∨ ∃ more, parts = .char '/' :: more := by
  cases parts with
  | nil => exact .inl rfl
  | cons p more => exact .inr ⟨more, by rw [h.1 p rfl]⟩

theorem not_refuses_nil (h : parts.getLast? ≠ some .rest) : ¬ Refuses [] parts := by
  rw [refuses_nil_iff]
  rintro ⟨stem, rfl, -⟩
  simp at h

/-- A wildcard for everything behind literal characters has to follow a slash. -/
theorem refuses_nil_literal_rest :
    Refuses [] (literal cs ++ [.rest]) ↔ ¬ (cs.isEmpty || cs.getLast? = some '/') := by
  rw [refuses_nil_iff]
  constructor
  · rintro ⟨stem, hstem, c, hc, hlast⟩
    obtain rfl := List.append_inj_left' hstem rfl
    have hlast : cs.getLast? = some c := by simpa [literal] using hlast
    cases cs with
    | nil => simp at hlast
    | cons d cs => simpa [hlast] using hc
  · intro h
    refine ⟨literal cs, rfl, ?_⟩
    cases hlast : cs.getLast? with
    | none => simp [List.getLast?_eq_none_iff.1 hlast] at h
    | some c => exact ⟨c, fun hc => h (by simp [hlast, hc]), by simp [literal, hlast]⟩

end

end RouteCheck.Http.PathTree
