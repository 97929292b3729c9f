import RouteCheck.Proofs.Http.Clash

/-!
Which patterns a path tree refuses.

A tree refuses just the patterns that those it holds leave no room for. That takes that no two
branches of a node begin alike: then a pattern goes down the tree as far as it has anything in
common with a pattern there, and where it leaves the tree in the middle of a lead the lead is split
and the insertion does not look at the character in front of a wildcard any more. Insertion keeps
trees like that.

Main statements:
  1. `single_eq_none_iff`, `extend_eq_none_iff`: patterns that leave the tree.
  2. `insert_eq_none_iff`: any pattern and any sound tree, by induction on the tree.
  3. `sound_single`, `sound_insert`: insertion keeps trees sound.
-/

namespace RouteCheck.Http.PathTree

variable {α : Type}

/-! ## Patterns held by a tree -/

def shapes (t : PathTree α) : List (List PathPart) := (patterns t).map (·.1)

def heads (ts : List (PathTree α)) : List (Option Char) := ts.map (·.lead.head?)

/-- No two branches of a node begin with the same character, and no node is empty. -/
inductive Sound : PathTree α → Prop
  | node {lead : List Char} {value rest : Option α} {branches : List (PathTree α)}
      {param : Option (PathTree α)} (hbranches : ∀ t ∈ branches, Sound t)
      (hheads : (heads branches).Nodup) (hbegin : none ∉ heads branches)
      (hparam : ∀ t ∈ param, Sound t)
      (hholds : value ≠ none ∨ branches ≠ [] ∨ param ≠ none ∨ rest ≠ none) :
      Sound (node lead value branches param rest)

section
variable {lead : List Char} {value rest : Option α} {branches : List (PathTree α)}
  {param : Option (PathTree α)} {t : PathTree α} {p : List PathPart} {c : Char}

theorem exists_mem_branchPatterns (ts : List (PathTree α)) :
    (∃ v, (p, v) ∈ branchPatterns ts) ↔ ∃ t ∈ ts, p ∈ shapes t := by
  induction ts with
  | nil => simp [branchPatterns]
  | cons t ts ih => simp [branchPatterns, exists_or, ih, shapes]

theorem shapes_node (lead : List Char) :
    shapes (node lead value branches param rest) =
      (shapes (node [] value branches param rest)).map (literal lead ++ ·) := by
  simp [shapes, patterns, behind, literal, Function.comp_def]

theorem mem_shapes_node :
    p ∈ shapes (node [] value branches param rest) ↔
      (value.isSome ∧ p = []) ∨ (∃ t ∈ branches, p ∈ shapes t) ∨
        (∃ t ∈ param, ∃ q ∈ shapes t, p = .param :: q) ∨ (rest.isSome ∧ p = [.rest]) := by
  cases value <;> cases param <;> cases rest <;>
    simp [shapes, patterns, paramPatterns, exists_mem_branchPatterns, behind, ending, literal,
      eq_comm]

theorem Sound.shapes_ne_nil (h : Sound t) : shapes t ≠ [] := by
  induction h with
  | @node lead value rest branches param hbranches hheads hbegin hparam hholds ih ihparam =>
    suffices h : ∃ p, p ∈ shapes (.node [] value branches param rest) by
      obtain ⟨p, hp⟩ := h
      rw [shapes_node]
      exact List.ne_nil_of_mem (List.mem_map_of_mem hp)
    simp only [mem_shapes_node]
    rcases hholds with h | h | h | h
    · exact ⟨[], .inl ⟨Option.isSome_iff_ne_none.2 h, rfl⟩⟩
    · obtain ⟨t, ht⟩ := List.exists_mem_of_ne_nil _ h
      obtain ⟨p, hp⟩ := List.exists_mem_of_ne_nil _ (ih t ht)
      exact ⟨p, .inr (.inl ⟨t, ht, hp⟩)⟩
    · obtain ⟨t, rfl⟩ := Option.ne_none_iff_exists'.1 h
      obtain ⟨p, hp⟩ := List.exists_mem_of_ne_nil _ (ihparam t rfl)
      exact ⟨.param :: p, .inr (.inr (.inl ⟨t, rfl, p, hp, rfl⟩))⟩
    · exact ⟨[.rest], .inr (.inr (.inr ⟨Option.isSome_iff_ne_none.2 h, rfl⟩))⟩

theorem head?_of_mem_shapes (ht : t.lead.head? = some c) (h : p ∈ shapes t) :
    p.head? = some (.char c) := by
  obtain ⟨lead, value, branches, param, rest⟩ := t
  obtain ⟨cs, rfl⟩ : ∃ cs, lead = c :: cs := by
    cases lead with
    | nil => simp [PathTree.lead] at ht
    | cons d cs => exact ⟨cs, by simpa [PathTree.lead] using ht⟩
  rw [shapes_node] at h
  obtain ⟨q, -, rfl⟩ := List.mem_map.1 h
  rfl

theorem exists_char_of_mem_shapes {ts : List (PathTree α)} (hbegin : none ∉ heads ts)
    (ht : t ∈ ts) (h : p ∈ shapes t) : ∃ c, p.head? = some (.char c) := by
  have hhead : t.lead.head? ∈ heads ts := List.mem_map_of_mem ht
  obtain ⟨c, hc⟩ := Option.ne_none_iff_exists'.1 fun h => hbegin (h ▸ hhead)
  exact ⟨c, head?_of_mem_shapes hc h⟩

/-- No pattern of a branch begins with another character than its lead. -/
theorem head?_ne_of_mem_shapes (hlead : t.lead.head? ≠ none) (hne : t.lead.head? ≠ some c)
    (h : p ∈ shapes t) : p.head? ≠ some (.char c) := by
  obtain ⟨d, hd⟩ := Option.ne_none_iff_exists'.1 hlead
  rw [head?_of_mem_shapes hd h]
  rintro hcd
  obtain rfl : d = c := by simpa using hcd
  exact hne hd

end

/-! ## Patterns that leave the tree -/

section
variable {parts more : List PathPart} {v : α} {cs : List Char}

theorem splitLiteral_ne_char (parts : List PathPart) {c : Char} {more : List PathPart} :
    (splitLiteral parts).2 ≠ .char c :: more := by
  fun_induction splitLiteral parts with
  | case1 d ps cs rest hsplit ih => simpa [hsplit] using ih
  | case2 parts hparts =>
    rintro rfl
    exact hparts c more rfl

theorem splitLiteral_tail (hparts : Formed parts) (hsplit : splitLiteral parts = (cs, more)) :
    more = [] ∨ more = [.rest] ∨ ∃ after, more = .param :: after := by
  have hmore : Formed more := by
    have hsplits := splitLiteral_eq parts
    rw [hsplit] at hsplits
    exact (hsplits ▸ hparts).of_append
  rcases more with _ | ⟨c | _ | _, after⟩
  · exact .inl rfl
  · exact absurd (congrArg (·.2) hsplit) (splitLiteral_ne_char _)
  · exact .inr (.inr ⟨after, rfl⟩)
  · obtain rfl : after = [] := hmore
    exact .inr (.inl rfl)

/-- There is no tree of a single pattern just if it has a wildcard in the middle of a segment. -/
theorem single_eq_none_iff {fuel : Nat} (hparts : Formed parts) (hfuel : parts.length ≤ fuel) :
    single v fuel parts = none ↔ Refuses [] parts := by
  have hsplits := splitLiteral_eq parts
  induction fuel, parts using single.induct with
  | case1 fuel parts cs hsplit =>
    rw [hsplit, List.append_nil] at hsplits
    rw [single, hsplit]
    refine iff_of_false (Option.some_ne_none _) (not_refuses_nil ?_)
    simp [← hsplits, literal]
  | case2 fuel parts cs after hsegment hsplit =>
    rw [hsplit] at hsplits
    obtain rfl : after = [] := (hsplits ▸ hparts).of_append
    rw [single, hsplit]
    simp only [if_pos hsegment, ← hsplits, refuses_nil_literal_rest]
    exact iff_of_false (Option.some_ne_none _) (not_not_intro hsegment)
  | case3 fuel parts cs after hsegment hsplit =>
    rw [hsplit] at hsplits
    obtain rfl : after = [] := (hsplits ▸ hparts).of_append
    rw [single, hsplit]
    simp only [if_neg hsegment, ← hsplits, refuses_nil_literal_rest]
    exact iff_of_true trivial hsegment
  | case4 fuel parts cs hsplit =>
    rw [hsplit] at hsplits
    rw [single, hsplit]
    refine iff_of_false (Option.some_ne_none _) (not_refuses_nil ?_)
    simp [← hsplits]
  | case5 parts cs after fuel hne hsplit ih =>
    rw [hsplit] at hsplits
    have hbehind : Formed (.param :: after) := (hsplits ▸ hparts).of_append
    obtain ⟨more, rfl⟩ := hbehind.behind_param.resolve_left hne
    have hlength := congrArg List.length hsplits
    simp only [List.length_append, List.length_cons] at hlength
    have hafter := ih hbehind.2 (by simp only [List.length_cons]; omega) (splitLiteral_eq _)
    rw [single, hsplit]
    simp only [Option.map_eq_none_iff, hafter]
    rw [← refuses_nil_append_char (literal cs ++ [.param]), ← hsplits, List.append_assoc]
    rfl
  | case6 fuel parts cs more hsplit hend hrest hparam hsegment =>
    -- there is fuel for what follows a segment, so that every case is one above
    have hlength := congrArg List.length hsplits
    simp only [hsplit, List.length_append] at hlength
    rcases splitLiteral_tail hparts hsplit with rfl | rfl | ⟨after, rfl⟩
    · exact absurd rfl hend
    · exact absurd rfl (hrest _)
    · cases after with
      | nil => exact absurd rfl hparam
      | cons p ps =>
        cases fuel with
        | zero => simp only [List.length_cons] at hlength; omega
        | succ fuel => exact absurd rfl (hsegment _ fuel rfl)

theorem behindSegment_eq_none_iff (hparts : Formed (.param :: parts)) :
    behindSegment v parts = none ↔ Refuses [] (.param :: parts) := by
  rcases hparts.behind_param with rfl | ⟨more, rfl⟩
  · exact iff_of_false nofun (not_refuses_nil nofun)
  · have hsingle := single_eq_none_iff (v := v) hparts.2 (Nat.le_refl _)
    simp only [behindSegment, List.isEmpty_cons, Bool.false_eq_true, if_false,
      Option.map_eq_none_iff, hsingle]
    exact (refuses_nil_append_char [.param]).symm

theorem extend_eq_none_iff {lead : List Char} {value rest : Option α}
    {branches : List (PathTree α)} {param : Option (PathTree α)} (hparts : Formed parts) :
    extend v parts (node lead value branches param rest) = none ↔ Refuses [] parts := by
  rcases parts with _ | ⟨c | _ | _, more⟩
  · exact iff_of_false nofun (not_refuses_nil nofun)
  · exact Option.map_eq_none_iff.trans (single_eq_none_iff hparts (Nat.le_refl _))
  · exact Option.map_eq_none_iff.trans (behindSegment_eq_none_iff hparts)
  · obtain rfl : more = [] := hparts
    exact iff_of_false nofun fun h => by simp [refuses_rest_iff] at h

end

/-! ## Refusals -/

section
variable {parts more : List PathPart} {v : α} {c : Char}

/-- The parts that leave a lead do so with another character than the lead has there. -/
theorem head?_drop_agreement {lead : List Char} {parts : List PathPart} {d : Char} {ds : List Char}
    (h : lead.drop (agreement lead parts) = d :: ds) :
    (parts.drop (agreement lead parts)).head? ≠ some (.char d) := by
  fun_induction agreement lead parts with
  | case1 cs c ps ih => exact ih h
  | case2 c cs d' ps hne =>
    obtain rfl : c = d := (List.cons.inj h).1
    intro hhead
    exact hne (by simpa using hhead.symm)
  | case3 lead parts hnone =>
    intro hhead
    cases parts with
    | nil => simp at hhead
    | cons p ps =>
      obtain rfl : p = .char d := by simpa using hhead
      exact hnone d ds d ps h rfl

/-- Among branches, only the one that begins as the parts do can refuse them. -/
theorem insertBranch_eq_none_iff {ts : List (PathTree α)}
    (ih : ∀ t ∈ ts, ∀ parts, Formed parts → (insert v parts t = none ↔ Refuses (shapes t) parts))
    (hheads : (heads ts).Nodup) (hbegin : none ∉ heads ts) (hparts : Formed (.char c :: more)) :
    insertBranch v c more ts = none ↔ Refuses (ts.flatMap shapes) (.char c :: more) := by
  induction ts with
  | nil => exact Option.map_eq_none_iff.trans (single_eq_none_iff hparts (Nat.le_refl _))
  | cons t ts ihts =>
    obtain ⟨ht, hrest⟩ := List.forall_mem_cons.1 ih
    obtain ⟨hnone, hbegin⟩ := List.ne_and_not_mem_of_not_mem_cons hbegin
    obtain ⟨hnew, hheads⟩ := List.nodup_cons.1 hheads
    unfold insertBranch
    split
    · next hlead =>
      rw [Option.map_eq_none_iff, ht _ hparts, List.flatMap_cons]
      refine refuses_char_congr fun p hp => (List.mem_append.trans (or_iff_left ?_)).symm
      intro hmem
      obtain ⟨u, hu, hpu⟩ := List.mem_flatMap.1 hmem
      have hhead : u.lead.head? ∈ heads ts := List.mem_map_of_mem hu
      refine head?_ne_of_mem_shapes (c := c) ?_ ?_ hpu hp
      · exact fun h => hbegin (h ▸ hhead)
      · exact fun h => hnew (by rwa [h, ← hlead] at hhead)
    · next hlead =>
      rw [Option.map_eq_none_iff, ihts hrest hheads hbegin, List.flatMap_cons]
      refine refuses_char_congr fun p hp => (List.mem_append.trans (or_iff_right ?_)).symm
      exact fun hmem => head?_ne_of_mem_shapes hnone.symm hlead hmem hp

section
variable {value rest : Option α} {branches : List (PathTree α)} {param : Option (PathTree α)}

/-! Behind the lead of a node, each kind of part meets the patterns of its own kind. -/

theorem refuses_node_nil (hbegin : none ∉ heads branches) :
    Refuses (shapes (node [] value branches param rest)) [] ↔ value.isSome := by
  rw [refuses_empty_iff, mem_shapes_node]
  constructor
  · rintro (⟨h, -⟩ | ⟨t, ht, h⟩ | ⟨t, -, q, -, h⟩ | ⟨-, h⟩)
    · exact h
    · obtain ⟨c, hc⟩ := exists_char_of_mem_shapes hbegin ht h
      simp at hc
    · simp at h
    · simp at h
  · exact fun h => .inl ⟨h, rfl⟩

theorem refuses_node_char :
    Refuses (shapes (node [] value branches param rest)) (.char c :: more) ↔
      Refuses (branches.flatMap shapes) (.char c :: more) := by
  refine refuses_char_congr fun p hp => ?_
  rw [mem_shapes_node, List.mem_flatMap]
  constructor
  · rintro (⟨-, rfl⟩ | h | ⟨t, -, q, -, rfl⟩ | ⟨-, rfl⟩)
    · simp at hp
    · exact h
    · simp at hp
    · simp at hp
  · exact fun h => .inr (.inl h)

theorem refuses_node_param (hbegin : none ∉ heads branches) :
    Refuses (shapes (node [] value branches param none)) (.param :: more) ↔
      Refuses ((param.elim [] shapes).map ([.param] ++ ·)) (.param :: more) := by
  refine refuses_congr fun p hp => ?_
  have hwild : p.head? = some .param ∨ p.head? = some .rest :=
    hp.elim .inl head?_of_clash_param
  rw [mem_shapes_node]
  constructor
  · rintro (⟨-, rfl⟩ | ⟨t, ht, h⟩ | ⟨t, rfl, q, hq, rfl⟩ | ⟨h, -⟩)
    · simp at hwild
    · obtain ⟨c, hc⟩ := exists_char_of_mem_shapes hbegin ht h
      simp [hc] at hwild
    · exact List.mem_map_of_mem hq
    · simp at h
  · intro h
    obtain ⟨q, hq, rfl⟩ := List.mem_map.1 h
    cases param with
    | none => simp at hq
    | some t => exact .inr (.inr (.inl ⟨t, rfl, q, hq, rfl⟩))

theorem refuses_node_rest (hbegin : none ∉ heads branches) (hparam : ∀ t ∈ param, Sound t) :
    Refuses (shapes (node [] value branches param rest)) [.rest] ↔
      (rest.isSome || param.isSome) = true := by
  rw [refuses_rest_iff, Bool.or_eq_true]
  constructor
  · rintro (⟨p, hp, hhead⟩ | hp)
    · rcases mem_shapes_node.1 hp with ⟨-, rfl⟩ | ⟨t, ht, h⟩ | ⟨t, rfl, -⟩ | ⟨-, rfl⟩
      · simp at hhead
      · obtain ⟨c, hc⟩ := exists_char_of_mem_shapes hbegin ht h
        simp [hc] at hhead
      · exact .inr rfl
      · simp at hhead
    · rcases mem_shapes_node.1 hp with ⟨-, h⟩ | ⟨t, ht, h⟩ | ⟨t, -, q, -, h⟩ | ⟨h, -⟩
      · simp at h
      · obtain ⟨c, hc⟩ := exists_char_of_mem_shapes hbegin ht h
        simp at hc
      · simp at h
      · exact .inl h
  · rintro (h | h)
    · exact .inr (mem_shapes_node.2 (.inr (.inr (.inr ⟨h, rfl⟩))))
    · obtain ⟨t, rfl⟩ := Option.isSome_iff_exists.1 h
      obtain ⟨q, hq⟩ := List.exists_mem_of_ne_nil _ (hparam t rfl).shapes_ne_nil
      exact .inl ⟨_, mem_shapes_node.2 (.inr (.inr (.inl ⟨t, rfl, q, hq, rfl⟩))), rfl⟩

theorem refuses_of_head?_ne {lead : List Char} {d : Char} {ds : List Char} (hlead : lead = d :: ds)
    (hne : parts.head? ≠ some (.char d)) :
    Refuses (shapes (node lead value branches param rest)) parts ↔ Refuses [] parts := by
  refine refuses_congr fun p hp => iff_of_false (fun hmem => ?_) List.not_mem_nil
  have hhead : p.head? = some (.char d) :=
    head?_of_mem_shapes (by simp [PathTree.lead, hlead]) hmem
  rcases hp with hp | hp
  · exact hne (hp ▸ hhead)
  · obtain ⟨ps, rfl⟩ : ∃ ps, p = .char d :: ps := by
      cases p with
      | nil => simp at hhead
      | cons q ps => exact ⟨ps, by simpa using hhead⟩
    rw [clash_comm] at hp
    obtain ⟨more, rfl, -⟩ := clash_char_iff.1 hp
    exact hne rfl

end

/-- A sound tree refuses a pattern just if the patterns that it holds do. -/
theorem insert_eq_none_iff {t : PathTree α} (ht : Sound t) (hparts : Formed parts) :
    insert v parts t = none ↔ Refuses (shapes t) parts := by
  induction ht generalizing parts with
  | @node lead value rest branches param hbranches hheads hbegin hparam hholds ih ihparam =>
    have htake := literal_take_agreement lead parts
    have hleave := @head?_drop_agreement lead parts
    have hsome (lead : List Char) : shapes (node lead value branches param rest) ≠ [] :=
      (Sound.node hbranches hheads hbegin hparam hholds).shapes_ne_nil
    unfold insert
    generalize agreement lead parts = n at htake hleave ⊢
    dsimp only
    split
    · next hlt =>
      obtain ⟨d, ds, hdrop⟩ := List.exists_cons_of_ne_nil (by simpa using hlt : lead.drop n ≠ [])
      have hshapes : shapes (node lead value branches param rest) =
          (shapes (node (lead.drop n) value branches param rest)).map (parts.take n ++ ·) := by
        rw [shapes_node lead, shapes_node (lead.drop n), List.map_map, ← htake]
        simp [literal, Function.comp_def, ← List.append_assoc]
      calc
        extend v (parts.drop n) _ = none ↔ Refuses [] (parts.drop n) :=
          extend_eq_none_iff (hparts.drop n)
        _ ↔ Refuses (shapes (node (lead.drop n) value branches param rest)) (parts.drop n) :=
          (refuses_of_head?_ne hdrop (hleave hdrop)).symm
        _ ↔ Refuses (shapes (node lead value branches param rest)) parts := by
          rw [hshapes, ← refuses_behind (hsome _) (parts.take n), List.take_append_drop]
    · next hle =>
      have hsplit : literal lead ++ parts.drop n = parts := by
        rw [← List.take_of_length_le (Nat.not_lt.1 hle), htake, List.take_append_drop]
      have hafter := hparts.drop n
      generalize parts.drop n = after at hsplit hafter ⊢
      rw [shapes_node, ← hsplit, refuses_behind (hsome [])]
      rcases after with _ | ⟨c | _ | _, more⟩
      · rw [refuses_node_nil hbegin]
        cases value <;> simp
      · rw [refuses_node_char, ← insertBranch_eq_none_iff (v := v) ih hheads hbegin hafter]
        simp
      · cases rest with
        | some w =>
          refine iff_of_true rfl (.inl ⟨[.rest], ?_, rfl⟩)
          exact mem_shapes_node.2 (.inr (.inr (.inr ⟨rfl, rfl⟩)))
        | none =>
          rw [refuses_node_param hbegin]
          cases param with
          | none => simpa [insertParam] using behindSegment_eq_none_iff hafter
          | some t =>
            rw [Option.elim_some, ← List.singleton_append,
              refuses_behind (hparam t rfl).shapes_ne_nil]
            simpa [insertParam] using ihparam t rfl hafter.2
      · obtain rfl : more = [] := hafter
        rw [refuses_node_rest hbegin hparam]
        cases rest <;> cases param <;> simp

/-! ## Soundness -/

theorem sound_leaf (lead : List Char) (v : α) : Sound (node lead (some v) [] none none) :=
  .node nofun List.nodup_nil List.not_mem_nil nofun (.inl nofun)

theorem sound_branch {t : PathTree α} (ht : Sound t) (hhead : t.lead.head? = some c) :
    Sound (node [] none [t] none none) :=
  .node (by simpa using ht) (by simp [heads]) (by simp [heads, hhead]) nofun
    (.inr (.inl nofun))

theorem sound_param {t : PathTree α} (ht : Sound t) (lead : List Char) :
    Sound (node lead none [] (some t) none) :=
  .node nofun List.nodup_nil List.not_mem_nil (by simpa using ht) (.inr (.inr (.inl nofun)))

theorem sound_rest (lead : List Char) (v : α) : Sound (node lead none [] none (some v)) :=
  .node nofun List.nodup_nil List.not_mem_nil nofun (.inr (.inr (.inr nofun)))

/-- The tree of a single pattern is sound, and its lead are the first literal characters. -/
theorem sound_single {fuel : Nat} (hparts : Formed parts) {t : PathTree α}
    (h : single v fuel parts = some t) : Sound t ∧ t.lead = (splitLiteral parts).1 := by
  have hsplits := splitLiteral_eq parts
  induction fuel, parts using single.induct generalizing t with
  | case1 fuel parts cs hsplit =>
    rw [single, hsplit] at h
    obtain rfl := Option.some.inj h
    exact ⟨sound_leaf cs v, by rw [hsplit]; rfl⟩
  | case2 fuel parts cs after hsegment hsplit =>
    rw [single, hsplit] at h
    simp only [if_pos hsegment] at h
    obtain rfl := Option.some.inj h
    refine ⟨sound_rest cs v, ?_⟩
    rw [hsplit]
    rfl
  | case3 fuel parts cs after hsegment hsplit =>
    rw [single, hsplit] at h
    simp only [if_neg hsegment] at h
    cases h
  | case4 fuel parts cs hsplit =>
    rw [single, hsplit] at h
    obtain rfl := Option.some.inj h
    exact ⟨sound_param (sound_leaf [] v) cs, by rw [hsplit]; rfl⟩
  | case5 parts cs after fuel hne hsplit ih =>
    rw [hsplit] at hsplits
    have hbehind : Formed (.param :: after) := (hsplits ▸ hparts).of_append
    obtain ⟨more, rfl⟩ := hbehind.behind_param.resolve_left hne
    rw [single, hsplit] at h
    obtain ⟨t, ht, rfl⟩ := Option.map_eq_some_iff.1 h
    obtain ⟨hsound, hlead⟩ := ih hbehind.2 ht (splitLiteral_eq _)
    refine ⟨sound_param (sound_branch hsound (c := '/') ?_) cs, by rw [hsplit]; rfl⟩
    simp [hlead, splitLiteral]
  | case6 fuel parts cs more hsplit hend hrest hparam hsegment =>
    rw [single, hsplit] at h
    rcases splitLiteral_tail hparts hsplit with rfl | rfl | ⟨after, rfl⟩
    · exact absurd rfl hend
    · exact absurd rfl (hrest _)
    · cases after with
      | nil => exact absurd rfl hparam
      | cons p ps =>
        cases fuel with
        | zero => cases h
        | succ fuel => exact absurd rfl (hsegment _ fuel rfl)

theorem head?_lead_single {fuel : Nat} (hparts : Formed (.char c :: parts)) {t : PathTree α}
    (h : single v fuel (.char c :: parts) = some t) : t.lead.head? = some c := by
  simp [(sound_single hparts h).2, splitLiteral]

theorem sound_behindSegment (hparts : Formed (.param :: parts)) {t : PathTree α}
    (h : behindSegment v parts = some t) : Sound t := by
  rcases hparts.behind_param with rfl | ⟨more, rfl⟩
  · obtain rfl := Option.some.inj h
    exact sound_leaf [] v
  · obtain ⟨t, ht, rfl⟩ := Option.map_eq_some_iff.1 h
    exact sound_branch (sound_single hparts.2 ht).1 (head?_lead_single hparts.2 ht)

/-! Insertion keeps a lead as far as the parts agree with it. -/

theorem lead_extend {lead : List Char} {value rest : Option α} {branches : List (PathTree α)}
    {param : Option (PathTree α)} {t : PathTree α}
    (h : extend v parts (node lead value branches param rest) = some t) : t.lead = lead := by
  rcases parts with _ | ⟨c | _ | _, more⟩
  · obtain rfl := Option.some.inj h
    rfl
  · obtain ⟨t, -, rfl⟩ := Option.map_eq_some_iff.1 h
    rfl
  · obtain ⟨t, -, rfl⟩ := Option.map_eq_some_iff.1 h
    rfl
  · obtain rfl := Option.some.inj h
    rfl

theorem lead_insert {t t' : PathTree α} (h : insert v parts t = some t') :
    t'.lead = t.lead.take (agreement t.lead parts) := by
  obtain ⟨lead, value, branches, param, rest⟩ := t
  unfold insert at h
  simp only [PathTree.lead] at h ⊢
  generalize agreement lead parts = n at h ⊢
  split at h
  · exact lead_extend h
  · next hle =>
    rw [List.take_of_length_le (Nat.not_lt.1 hle)]
    split at h
    · split at h
      · cases h
      · obtain rfl := Option.some.inj h
        rfl
    · obtain ⟨bs, -, rfl⟩ := Option.map_eq_some_iff.1 h
      rfl
    · split at h
      · cases h
      · obtain ⟨t, -, rfl⟩ := Option.map_eq_some_iff.1 h
        rfl
    · split at h
      · cases h
      · obtain rfl := Option.some.inj h
        rfl

theorem head?_lead_insert {t t' : PathTree α} (hlead : t.lead.head? = some c)
    (h : insert v (.char c :: more) t = some t') : t'.lead.head? = some c := by
  rw [lead_insert h]
  cases hcs : t.lead with
  | nil => simp [hcs] at hlead
  | cons d cs =>
    obtain rfl : d = c := by simpa [hcs] using hlead
    simp [agreement]

theorem heads_insertBranch {ts ts' : List (PathTree α)} (hparts : Formed (.char c :: more))
    (h : insertBranch v c more ts = some ts') :
    (some c ∈ heads ts ∧ heads ts' = heads ts) ∨
      (some c ∉ heads ts ∧ heads ts' = heads ts ++ [some c]) := by
  induction ts generalizing ts' with
  | nil =>
    obtain ⟨t, ht, rfl⟩ := Option.map_eq_some_iff.1 h
    exact .inr ⟨List.not_mem_nil, by simp [heads, head?_lead_single hparts ht]⟩
  | cons t ts ih =>
    unfold insertBranch at h
    split at h
    · next hlead =>
      obtain ⟨t', ht, rfl⟩ := Option.map_eq_some_iff.1 h
      exact .inl (by simp [heads, hlead, head?_lead_insert hlead ht])
    · next hlead =>
      obtain ⟨ts', hts, rfl⟩ := Option.map_eq_some_iff.1 h
      rcases ih hts with ⟨hold, heq⟩ | ⟨hnew, heq⟩
      · exact .inl ⟨List.mem_cons_of_mem _ hold, congrArg (t.lead.head? :: ·) heq⟩
      · refine .inr ⟨?_, congrArg (t.lead.head? :: ·) heq⟩
        exact List.not_mem_cons_of_ne_of_not_mem (Ne.symm hlead) hnew

theorem sound_extend {lead : List Char} {below t : PathTree α} {d : Char} (hparts : Formed parts)
    (hbelow : Sound below) (hlead : below.lead.head? = some d)
    (hleave : parts.head? ≠ some (.char d))
    (h : extend v parts (node lead none [below] none none) = some t) : Sound t := by
  have hbranches : ∀ t ∈ [below], Sound t := by simpa using hbelow
  have hheads : (heads [below]).Nodup := by simp [heads]
  have hbegin : none ∉ heads [below] := by simp [heads, hlead]
  rcases parts with _ | ⟨c | _ | _, more⟩
  · obtain rfl := Option.some.inj h
    exact .node hbranches hheads hbegin nofun (.inl nofun)
  · obtain ⟨t, ht, rfl⟩ := Option.map_eq_some_iff.1 h
    have hhead := head?_lead_single hparts ht
    have hne : d ≠ c := fun hdc => hleave (by rw [hdc]; rfl)
    refine .node ?_ ?_ ?_ nofun (.inr (.inl nofun))
    · simpa using ⟨hbelow, (sound_single hparts ht).1⟩
    · simpa [heads, hlead, hhead] using hne
    · simp [heads, hlead, hhead]
  · obtain ⟨t, ht, rfl⟩ := Option.map_eq_some_iff.1 h
    have ht := sound_behindSegment hparts ht
    exact .node hbranches hheads hbegin (by simpa using ht) (.inr (.inl nofun))
  · obtain rfl := Option.some.inj h
    exact .node hbranches hheads hbegin nofun (.inr (.inl nofun))

theorem sound_insertBranch {ts ts' : List (PathTree α)} (hparts : Formed (.char c :: more))
    (hts : ∀ t ∈ ts, Sound t)
    (ih : ∀ t ∈ ts, ∀ t', insert v (.char c :: more) t = some t' → Sound t')
    (h : insertBranch v c more ts = some ts') : ∀ t ∈ ts', Sound t := by
  induction ts generalizing ts' with
  | nil =>
    obtain ⟨t, ht, rfl⟩ := Option.map_eq_some_iff.1 h
    simpa using (sound_single hparts ht).1
  | cons t ts ihts =>
    obtain ⟨ht, hts⟩ := List.forall_mem_cons.1 hts
    obtain ⟨iht, ih⟩ := List.forall_mem_cons.1 ih
    unfold insertBranch at h
    split at h
    · obtain ⟨t', ht', rfl⟩ := Option.map_eq_some_iff.1 h
      exact List.forall_mem_cons.2 ⟨iht t' ht', hts⟩
    · obtain ⟨ts', hts', rfl⟩ := Option.map_eq_some_iff.1 h
      exact List.forall_mem_cons.2 ⟨ht, ihts hts ih hts'⟩

/-- Insertion keeps a tree sound. -/
theorem sound_insert {t t' : PathTree α} (ht : Sound t) (hparts : Formed parts)
    (h : insert v parts t = some t') : Sound t' := by
  induction ht generalizing parts t' with
  | @node lead value rest branches param hbranches hheads hbegin hparam hholds ih ihparam =>
    have hleave := @head?_drop_agreement lead parts
    have hafter := hparts.drop (agreement lead parts)
    unfold insert at h
    generalize agreement lead parts = n at h hleave hafter
    dsimp only at h
    split at h
    · -- the parts leave the lead before its end: the node is split there
      next hlt =>
      obtain ⟨d, ds, hdrop⟩ := List.exists_cons_of_ne_nil (by simpa using hlt : lead.drop n ≠ [])
      have hbelow : Sound (node (lead.drop n) value branches param rest) :=
        .node hbranches hheads hbegin hparam hholds
      exact sound_extend hafter hbelow (by simp [PathTree.lead, hdrop]) (hleave hdrop) h
    · generalize parts.drop n = after at h hafter
      rcases after with _ | ⟨c | _ | _, more⟩
      · dsimp only at h
        split at h
        · cases h
        · obtain rfl := Option.some.inj h
          exact .node hbranches hheads hbegin hparam (.inl (Option.some_ne_none _))
      · obtain ⟨bs, hbs, rfl⟩ := Option.map_eq_some_iff.1 h
        have hsound := sound_insertBranch hafter hbranches (fun t ht t' => ih t ht hafter) hbs
        have hsome (h : some c ∈ heads bs) : bs ≠ [] := by
          rintro rfl
          exact absurd h List.not_mem_nil
        rcases heads_insertBranch hafter hbs with ⟨hold, heq⟩ | ⟨hnew, heq⟩
        · rw [← heq] at hheads hbegin hold
          exact .node hsound hheads hbegin hparam (.inr (.inl (hsome hold)))
        · refine .node hsound ?_ ?_ hparam (.inr (.inl (hsome (by simp [heq]))))
          · rw [heq, List.nodup_append]
            refine ⟨hheads, by simp, fun a ha b hb hab => hnew ?_⟩
            rwa [← List.mem_singleton.1 hb, ← hab]
          · simpa [heq] using hbegin
      · dsimp only at h
        split at h
        · cases h
        · obtain ⟨t, ht, rfl⟩ := Option.map_eq_some_iff.1 h
          have hsound : Sound t := by
            cases param with
            | none => exact sound_behindSegment hafter ht
            | some u => exact ihparam u rfl hafter.2 ht
          exact .node hbranches hheads hbegin (by simpa using hsound)
            (.inr (.inr (.inl (Option.some_ne_none _))))
      · dsimp only at h
        split at h
        · cases h
        · obtain rfl := Option.some.inj h
          exact .node hbranches hheads hbegin hparam (.inr (.inr (.inr (Option.some_ne_none _))))

end

end RouteCheck.Http.PathTree
