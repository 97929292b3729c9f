import RouteCheck.Http.PathTree

/-!
What a path tree holds.

A tree stands for a list of patterns with their values: along every way down from the root to a
value the parts of a pattern are written, leads and branches literally, and wildcards as such. An
insertion that is not refused adds the pattern with its value to that list and changes nothing else,
wherever it splits a lead.

Main statements:
  1. `patterns_single`, `patterns_insert`: insertion into the empty tree and into any tree, by
     recursion along the tree.
  2. `PathMap.patterns_insert?`: insertion of the text of a pattern.
-/

namespace RouteCheck.Http

open scoped List

namespace PathTree

variable {α : Type}

/-! ## Patterns of a tree -/

def literal (cs : List Char) : List PathPart := cs.map .char

/-- Put parts in front of every pattern of a list. -/
def behind (parts : List PathPart) (ps : List (List PathPart × α)) : List (List PathPart × α) :=
  ps.map fun p => (parts ++ p.1, p.2)

/-- A value, if there is one, at the end of a pattern. -/
def ending (parts : List PathPart) (value : Option α) : List (List PathPart × α) :=
  value.toList.map fun v => (parts, v)

mutual
/-- The patterns of a tree with their values. -/
def patterns : PathTree α → List (List PathPart × α)
  | node lead value branches param rest =>
    behind (literal lead)
      (ending [] value ++ branchPatterns branches ++ behind [.param] (paramPatterns param) ++
        ending [.rest] rest)
/-- The patterns of a list of branches. -/
def branchPatterns : List (PathTree α) → List (List PathPart × α)
  | [] => []
  | t :: ts => patterns t ++ branchPatterns ts
/-- What follows a segment in the patterns of the tree behind it. -/
def paramPatterns : Option (PathTree α) → List (List PathPart × α)
  | none => []
  | some t => patterns t
end

section
variable {parts qs : List PathPart} {ps ps' : List (List PathPart × α)} {v : α}

@[simp] theorem behind_behind : behind parts (behind qs ps) = behind (parts ++ qs) ps := by
  simp [behind]

@[simp] theorem behind_cons {p : List PathPart × α} :
    behind parts (p :: ps) = (parts ++ p.1, p.2) :: behind parts ps := rfl

@[simp] theorem behind_empty : behind parts ([] : List (List PathPart × α)) = [] := rfl

theorem behind_perm (h : ps.Perm ps') : (behind parts ps).Perm (behind parts ps') := h.map _

@[simp] theorem ending_none : ending parts (none : Option α) = [] := rfl

@[simp] theorem ending_some : ending parts (some v) = [(parts, v)] := rfl

@[simp] theorem literal_nil : literal [] = [] := rfl

@[simp] theorem literal_append (cs ds : List Char) :
    literal (cs ++ ds) = literal cs ++ literal ds := List.map_append

@[simp] theorem branchPatterns_append (ts us : List (PathTree α)) :
    branchPatterns (ts ++ us) = branchPatterns ts ++ branchPatterns us := by
  induction ts with
  | nil => rfl
  | cons t ts ih => simp only [List.cons_append, branchPatterns, ih, List.append_assoc]

end

/-! ## Trees of one pattern -/

def RestLast (parts : List PathPart) : Prop :=
  ∀ before after, parts = before ++ .rest :: after → after = []

section
variable {parts more : List PathPart} {v : α}

theorem restLast_nil : RestLast [] := by
  intro before after h
  exact absurd h (by simp)

theorem restLast_rest : RestLast [.rest] := by
  intro before after h
  cases before with
  | nil => exact (List.cons.inj h).2.symm
  | cons p before => exact absurd (List.cons.inj h).2 (by simp)

theorem RestLast.cons {p : PathPart} (h : RestLast parts) (hp : p ≠ .rest) :
    RestLast (p :: parts) := by
  intro before after heq
  cases before with
  | nil => exact absurd (List.cons.inj heq).1 hp
  | cons q before => exact h before after (List.cons.inj heq).2

theorem RestLast.of_append {before : List PathPart} (h : RestLast (before ++ parts)) :
    RestLast parts := by
  rintro pre post rfl
  exact h (before ++ pre) post (List.append_assoc ..).symm

theorem RestLast.tail {p : PathPart} (h : RestLast (p :: parts)) : RestLast parts :=
  @RestLast.of_append parts [p] h

theorem RestLast.drop (h : RestLast parts) (n : Nat) : RestLast (parts.drop n) :=
  (List.take_append_drop n parts ▸ h).of_append

theorem splitLiteral_eq (parts : List PathPart) :
    literal (splitLiteral parts).1 ++ (splitLiteral parts).2 = parts := by
  fun_induction splitLiteral parts with
  | case1 c ps cs rest hsplit ih =>
    rw [hsplit] at ih
    exact congrArg (.char c :: ·) ih
  | case2 => rfl

/-- The tree of a single pattern holds that pattern. -/
theorem patterns_single {fuel : Nat} (hlast : RestLast parts) {t : PathTree α}
    (h : single v fuel parts = some t) : patterns t = [(parts, v)] := by
  induction fuel, parts using single.induct generalizing t with
  | case1 fuel parts cs hsplit =>
    have hparts := splitLiteral_eq parts
    rw [single, hsplit] at h
    obtain rfl := Option.some.inj h
    rw [hsplit] at hparts
    simpa [patterns, branchPatterns, paramPatterns] using hparts
  | case2 fuel parts cs after hsegment hsplit =>
    have hparts := splitLiteral_eq parts
    simp only [single, hsplit, if_pos hsegment] at h
    obtain rfl := Option.some.inj h
    rw [hsplit] at hparts
    obtain rfl := hlast _ _ hparts.symm
    simpa [patterns, branchPatterns, paramPatterns] using hparts
  | case3 fuel parts cs after hsegment hsplit =>
    simp only [single, hsplit, if_neg hsegment] at h
    exact absurd h nofun
  | case4 fuel parts cs hsplit =>
    have hparts := splitLiteral_eq parts
    simp only [single, hsplit] at h
    obtain rfl := Option.some.inj h
    rw [hsplit] at hparts
    simpa [patterns, branchPatterns, paramPatterns] using hparts
  | case5 parts cs after fuel hne hsplit ih =>
    have hparts := splitLiteral_eq parts
    rw [hsplit] at hparts
    rw [single, hsplit] at h
    obtain ⟨p, ps, rfl⟩ := List.exists_cons_of_ne_nil hne
    obtain ⟨t, ht, rfl⟩ := Option.map_eq_some_iff.1 h
    have hafter := ih ((hparts.symm ▸ hlast).of_append.tail) ht
    simpa [patterns, branchPatterns, paramPatterns, hafter] using hparts
  | case6 fuel parts cs more hsplit hend hrest hparam hsegment =>
    rw [single, hsplit] at h
    rcases more with _ | ⟨_ | _ | _, _ | ⟨p, ps⟩⟩
    · exact absurd rfl hend
    · exact absurd h nofun
    · exact absurd h nofun
    · exact absurd rfl hparam
    · cases fuel with
      | zero => exact absurd h nofun
      | succ fuel => exact absurd rfl (hsegment _ fuel rfl)
    · exact absurd rfl (hrest _)
    · exact absurd rfl (hrest _)

theorem patterns_behindSegment (hlast : RestLast parts) {t : PathTree α}
    (h : behindSegment v parts = some t) : patterns t = [(parts, v)] := by
  unfold behindSegment at h
  split at h
  · next hempty =>
    obtain rfl := Option.some.inj h
    obtain rfl := List.isEmpty_iff.1 hempty
    simp [patterns, branchPatterns, paramPatterns]
  · obtain ⟨t, ht, rfl⟩ := Option.map_eq_some_iff.1 h
    simp [patterns, branchPatterns, paramPatterns, patterns_single hlast ht]

end

/-! ## Insertion -/

section
variable {parts : List PathPart} {v : α} {lead : List Char} {value rest : Option α}
  {branches : List (PathTree α)} {param : Option (PathTree α)}

theorem literal_take_agreement (lead : List Char) (parts : List PathPart) :
    literal (lead.take (agreement lead parts)) = parts.take (agreement lead parts) := by
  fun_induction agreement lead parts with
  | case1 cs d ps ih => simpa [literal] using ih
  | case2 => rfl
  | case3 => rfl

/-- A node whose lead is split stands for the same patterns. -/
theorem patterns_splitLead (n : Nat) :
    patterns (node (lead.take n) none [node (lead.drop n) value branches param rest] none none) =
      patterns (node lead value branches param rest) := by
  simp only [patterns, branchPatterns, paramPatterns, ending_none, List.nil_append, List.append_nil,
    behind_empty, behind_behind, ← literal_append, List.take_append_drop]

/-! Each part of a node holds patterns of its own, behind the lead. -/

theorem patterns_some_value :
    patterns (node lead (some v) branches param rest) ~
      (literal lead, v) :: patterns (node lead none branches param rest) := by
  simp [patterns]

theorem patterns_perm_branches {branches' : List (PathTree α)}
    (h : branchPatterns branches' ~ (parts, v) :: branchPatterns branches) :
    patterns (node lead value branches' param rest) ~
      (literal lead ++ parts, v) :: patterns (node lead value branches param rest) := by
  unfold patterns
  rw [← behind_cons (p := (parts, v))]
  refine behind_perm ((((h.append_left _).append_right _).append_right _).trans ?_)
  simp

theorem patterns_perm_param {t : PathTree α} (h : patterns t ~ (parts, v) :: paramPatterns param) :
    patterns (node lead value branches (some t) rest) ~
      (literal lead ++ .param :: parts, v) :: patterns (node lead value branches param rest) := by
  unfold patterns
  rw [← behind_cons (p := (.param :: parts, v))]
  refine behind_perm ((((behind_perm h).append_left _).append_right _).trans ?_)
  exact List.perm_middle.append_right _

theorem patterns_some_rest :
    patterns (node lead value branches param (some v)) ~
      (literal lead ++ [.rest], v) :: patterns (node lead value branches param none) := by
  unfold patterns
  rw [← behind_cons (p := ([.rest], v)), ending_none, List.append_nil]
  exact behind_perm (List.perm_append_singleton ..)

/-- Parts that go on after the lead of a node without wildcards. -/
theorem patterns_extend (hlast : RestLast parts) {t : PathTree α}
    (h : extend v parts (node lead none branches none none) = some t) :
    patterns t ~ (literal lead ++ parts, v) :: patterns (node lead none branches none none) := by
  rcases parts with _ | ⟨c | _ | _, more⟩
  · obtain rfl := Option.some.inj h
    rw [List.append_nil]
    exact patterns_some_value
  · obtain ⟨t, ht, rfl⟩ := Option.map_eq_some_iff.1 h
    apply patterns_perm_branches
    rw [branchPatterns_append]
    simp [branchPatterns, patterns_single hlast ht]
  · obtain ⟨t, ht, rfl⟩ := Option.map_eq_some_iff.1 h
    apply patterns_perm_param
    rw [patterns_behindSegment hlast.tail ht, paramPatterns]
  · obtain rfl := Option.some.inj h
    obtain rfl := hlast [] _ rfl
    exact patterns_some_rest

mutual

/-- An insertion that is not refused adds a pattern to those of the tree. -/
theorem patterns_insert {parts : List PathPart} (hlast : RestLast parts) (t : PathTree α)
    {t' : PathTree α} (h : insert v parts t = some t') :
    patterns t' ~ (parts, v) :: patterns t := by
  obtain ⟨lead, value, branches, param, rest⟩ := t
  have htake := literal_take_agreement lead parts
  unfold insert at h
  generalize hn : agreement lead parts = n at h htake
  dsimp only at h
  split at h
  · -- the lead is split where the parts leave it
    have hperm := patterns_extend (hlast.drop n) h
    rwa [htake, List.take_append_drop, patterns_splitLead] at hperm
  · next hle =>
    have hparts : literal lead ++ parts.drop n = parts := by
      rw [← List.take_of_length_le (Nat.not_lt.1 hle), htake, List.take_append_drop]
    have hafter := hlast.drop n
    rw [← hparts]
    generalize parts.drop n = after at h hafter
    rcases after with _ | ⟨c | _ | _, more⟩
    · dsimp only at h
      split at h
      · exact absurd h nofun
      · next hfree =>
        obtain rfl := Option.some.inj h
        obtain rfl : value = none := by simpa using hfree
        rw [List.append_nil]
        exact patterns_some_value
    · obtain ⟨bs, hbs, rfl⟩ := Option.map_eq_some_iff.1 h
      exact patterns_perm_branches (patterns_insertBranch hafter branches hbs)
    · dsimp only at h
      split at h
      · exact absurd h nofun
      · obtain ⟨t, ht, rfl⟩ := Option.map_eq_some_iff.1 h
        exact patterns_perm_param (patterns_insertParam hafter.tail param ht)
    · dsimp only at h
      split at h
      · exact absurd h nofun
      · next hfree =>
        obtain rfl := Option.some.inj h
        obtain rfl := hafter [] _ rfl
        obtain ⟨rfl, rfl⟩ : rest = none ∧ param = none := by simpa using hfree
        exact patterns_some_rest

theorem patterns_insertBranch {c : Char} {more : List PathPart} (hlast : RestLast (.char c :: more))
    (ts : List (PathTree α)) {ts' : List (PathTree α)} (h : insertBranch v c more ts = some ts') :
    branchPatterns ts' ~ (.char c :: more, v) :: branchPatterns ts := by
  match ts with
  | [] =>
    obtain ⟨t, ht, rfl⟩ := Option.map_eq_some_iff.1 h
    simp [branchPatterns, patterns_single hlast ht]
  | t :: ts =>
    unfold insertBranch at h
    split at h
    · obtain ⟨t', ht, rfl⟩ := Option.map_eq_some_iff.1 h
      exact (patterns_insert hlast t ht).append_right _
    · obtain ⟨ts', hts, rfl⟩ := Option.map_eq_some_iff.1 h
      calc
        patterns t ++ branchPatterns ts'
        _ ~ patterns t ++ (.char c :: more, v) :: branchPatterns ts :=
          (patterns_insertBranch hlast ts hts).append_left _
        _ ~ (.char c :: more, v) :: (patterns t ++ branchPatterns ts) := List.perm_middle

theorem patterns_insertParam {parts : List PathPart} (hlast : RestLast parts)
    (param : Option (PathTree α)) {t : PathTree α} (h : insertParam v parts param = some t) :
    patterns t ~ (parts, v) :: paramPatterns param := by
  match param with
  | none => rw [patterns_behindSegment hlast h, paramPatterns]
  | some t => exact patterns_insert hlast t h

end

end

end PathTree

/-! ## Patterns by their text -/

namespace PathPattern

/-- In a pattern that was read a wildcard for everything comes last. -/
theorem restLast_ofChars? {cs : List Char} {p : PathPattern} (h : ofChars? cs = some p) :
    PathTree.RestLast p.parts := by
  induction cs using ofChars?.induct generalizing p with
  | case1 =>
    rw [ofChars?] at h
    obtain rfl := Option.some.inj h
    exact PathTree.restLast_nil
  | case2 cs ih =>
    rw [ofChars?, if_pos rfl] at h
    obtain ⟨name, -, h⟩ := Option.bind_eq_some_iff.1 h
    obtain ⟨more, hmore, h⟩ := Option.bind_eq_some_iff.1 h
    obtain rfl := Option.some.inj h
    exact (ih hmore).cons nofun
  | case3 cs hne =>
    rw [ofChars?, if_neg hne, if_pos rfl] at h
    obtain ⟨name, -, h⟩ := Option.bind_eq_some_iff.1 h
    split at h
    · obtain rfl := Option.some.inj h
      exact PathTree.restLast_rest
    · exact absurd h nofun
  | case4 c cs hparam hrest ih =>
    rw [ofChars?, if_neg hparam, if_neg hrest] at h
    obtain ⟨more, hmore, h⟩ := Option.bind_eq_some_iff.1 h
    obtain rfl := Option.some.inj h
    exact (ih hmore).cons nofun

theorem restLast_ofText? {s : String} {p : PathPattern} (h : ofText? s = some p) :
    PathTree.RestLast p.parts :=
  restLast_ofChars? (Option.filter_eq_some_iff.1 h).1

end PathPattern

namespace PathMap

variable {α : Type}

/-- The patterns that were added, with their values. -/
def patterns (m : PathMap α) : List (PathPattern × α) :=
  (m.tree?.elim [] PathTree.patterns).map fun p => (⟨p.1, p.2.2⟩, p.2.1)

/-- Adding the text of a pattern adds that pattern and nothing else. -/
theorem patterns_insert? {m m' : PathMap α} {path : String} {v : α}
    (h : m.insert? path v = some m') :
    ∃ p, PathPattern.ofText? path = some p ∧ m'.patterns ~ (p, v) :: m.patterns := by
  unfold insert? at h
  obtain ⟨p, hp, h⟩ := Option.bind_eq_some_iff.1 h
  have hlast := PathPattern.restLast_ofText? hp
  refine ⟨p, hp, ?_⟩
  obtain ⟨t?⟩ := m
  cases t? with
  | none =>
    obtain ⟨t, ht, hm⟩ := Option.bind_eq_some_iff.1 h
    obtain rfl := Option.some.inj hm
    simp [patterns, PathTree.patterns_single hlast ht]
  | some t =>
    obtain ⟨t', ht, hm⟩ := Option.bind_eq_some_iff.1 h
    obtain rfl := Option.some.inj hm
    exact (PathTree.patterns_insert hlast t ht).map _

end PathMap

end RouteCheck.Http
