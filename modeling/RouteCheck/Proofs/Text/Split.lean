import RouteCheck.Text.Basic
import RouteCheck.Text.Blank
import Mathlib.Data.List.TakeDrop
import Mathlib.Data.List.TakeWhile

/-!
Splitting text.

`Text.splitChars` is the library's `List.splitOn`, so that what is known of that carries over: a
text is told by its pieces (`join_inj`), and the first piece ends at the first separator.

Main statements:
  1. `splitChars_eq`, `headD_split`, `getLast?_split`: what splitting is, its first and last piece.
  2. `mem_of_mem_splitOn`, `join_inj`: pieces have no separator, and texts joined from such
     pieces differ if the pieces do.
  3. `append_cons_inj`: two texts around one separator.
  4. `dropLead?_eq_some_iff`, `startsWith_iff`: leads are prefixes; `getD_dropLead?_append`: a lead
     without the character that ends a text comes off that text alone.
  5. `not_blank_of_mem_fields`: fields have no white space.
  6. `cut?_eq_some_iff`: a text is cut at its first separator. `trim_around`, `exists_around_trim`:
     a text is what it is trimmed to and the white space around that.
-/

namespace RouteCheck.Text

theorem splitChars_eq (c : Char) (cs : List Char) : splitChars c cs = cs.splitOn c := by
  induction cs with
  | nil => rw [splitChars, List.splitOn_nil]
  | cons x xs ih =>
    rw [splitChars, List.splitOn_cons_eq_if_modifyHead, ih]
    simp only [beq_iff_eq]
    split
    · rfl
    · cases h : xs.splitOn c with
      | nil => exact absurd h (List.splitOn_ne_nil c xs)
      | cons p ps => rfl

theorem split_eq (c : Char) (s : String) :
    split c s = (s.toList.splitOn c).map String.ofList := by
  rw [split, splitChars_eq]

theorem split_ne_nil (c : Char) (s : String) : split c s ≠ [] := by
  rw [split_eq, ne_eq, List.map_eq_nil_iff]
  exact List.splitOn_ne_nil c _

theorem head?_splitOn (c : Char) (cs : List Char) :
    (cs.splitOn c).head? = some (cs.takeWhile (· != c)) := by
  induction cs with
  | nil => simp
  | cons x xs ih =>
    rw [List.splitOn_cons_eq_if_modifyHead]
    by_cases hx : x = c
    · simp [hx]
    · simp [hx, ih]

theorem headD_split (c : Char) (s other : String) :
    (split c s).headD other = String.ofList (s.toList.takeWhile (· != c)) := by
  rw [List.headD_eq_head?_getD, split_eq, List.head?_map, head?_splitOn]
  rfl

theorem modifyHead_nil_append {α : Type} (parts : List (List α)) :
    parts.modifyHead ([] ++ ·) = parts := congrFun List.modifyHead_id parts

/-- What follows the last `c` of a text whose part up to here, since the last `c`, is `part`. -/
def lastPart (c : Char) (part : List Char) : List Char → List Char
  | [] => part
  | d :: ds => if d = c then lastPart c [] ds else lastPart c (part ++ [d]) ds

theorem getLast?_splitOn (c : Char) (part cs : List Char) :
    ((cs.splitOn c).modifyHead (part ++ ·)).getLast? = some (lastPart c part cs) := by
  induction cs generalizing part with
  | nil => simp [lastPart]
  | cons d cs ih =>
    rw [List.splitOn_cons_eq_if_modifyHead, lastPart]
    by_cases hd : d = c
    · have hrest := ih []
      rw [modifyHead_nil_append] at hrest
      rw [if_pos (beq_iff_eq.2 hd), if_pos hd, List.modifyHead_cons, List.getLast?_cons, hrest]
      rfl
    · have hrest := ih (part ++ [d])
      rw [if_neg (by simpa using hd), if_neg hd, List.modifyHead_modifyHead, ← hrest]
      congr 2
      exact funext fun cs => by simp

theorem getLast?_split (c : Char) (s : String) :
    (split c s).getLast? = some (String.ofList (lastPart c [] s.toList)) := by
  have hlast := getLast?_splitOn c [] s.toList
  rw [modifyHead_nil_append] at hlast
  rw [split_eq, List.getLast?_map, hlast]
  rfl

theorem splitOn_append_of_not_mem {c : Char} {as : List Char} (has : c ∉ as) (bs : List Char) :
    (as ++ bs).splitOn c = (bs.splitOn c).modifyHead (as ++ ·) := by
  induction as with
  | nil => exact (congrFun List.modifyHead_id _).symm
  | cons a as ih =>
    obtain ⟨hne, has⟩ := List.ne_and_not_mem_of_not_mem_cons has
    rw [List.cons_append, List.splitOn_cons_eq_if_modifyHead, ih has,
      if_neg (by simpa using hne.symm), List.modifyHead_modifyHead]
    rfl

/-- Pieces are made of the characters of the text other than the separator. -/
theorem mem_of_mem_splitOn {c d : Char} {cs piece : List Char} (h : piece ∈ cs.splitOn c)
    (hd : d ∈ piece) : d ∈ cs ∧ d ≠ c := by
  induction cs generalizing piece with
  | nil =>
    obtain rfl : piece = [] := by simpa using h
    exact absurd hd List.not_mem_nil
  | cons x xs ih =>
    have htail {piece : List Char} (h : piece ∈ xs.splitOn c) (hd : d ∈ piece) :
        d ∈ x :: xs ∧ d ≠ c :=
      ⟨List.mem_cons_of_mem _ (ih h hd).1, (ih h hd).2⟩
    rw [List.splitOn_cons_eq_if_modifyHead] at h
    split at h
    · rcases List.mem_cons.1 h with rfl | h
      · exact absurd hd List.not_mem_nil
      · exact htail h hd
    · next hx =>
      cases hxs : xs.splitOn c with
      | nil => exact absurd hxs (List.splitOn_ne_nil c xs)
      | cons p ps =>
        rw [hxs] at h htail
        rcases List.mem_cons.1 h with rfl | h
        · rcases List.mem_cons.1 hd with rfl | hd
          · exact ⟨List.mem_cons_self, by simpa using hx⟩
          · exact htail List.mem_cons_self hd
        · exact htail (List.mem_cons_of_mem _ h) hd

theorem mem_of_mem_split {c d : Char} {s piece : String} (h : piece ∈ split c s)
    (hd : d ∈ piece.toList) : d ∈ s.toList ∧ d ≠ c := by
  rw [split_eq] at h
  obtain ⟨cs, hcs, rfl⟩ := List.mem_map.1 h
  exact mem_of_mem_splitOn hcs (by simpa using hd)

theorem not_mem_intercalate {c d : Char} (hne : d ≠ c) {ps : List (List Char)}
    (h : ∀ p ∈ ps, d ∉ p) : d ∉ [c].intercalate ps := by
  induction ps with
  | nil => simp
  | cons p ps ih =>
    obtain ⟨hp, hps⟩ := List.forall_mem_cons.1 h
    cases ps with
    | nil => simpa using hp
    | cons q qs =>
      rw [List.intercalate_cons_cons]
      simp [hp, hne, ih hps]

/-- A text that is joined from pieces without the separator tells them. -/
theorem join_inj {c : Char} {ps qs : List (List Char)} (hps : ∀ p ∈ ps, c ∉ p)
    (hqs : ∀ q ∈ qs, c ∉ q) (hp : ps ≠ []) (hq : qs ≠ [])
    (h : [c].intercalate ps = [c].intercalate qs) : ps = qs := by
  calc ps = ([c].intercalate ps).splitOn c := (List.splitOn_intercalate c hps hp).symm
    _ = ([c].intercalate qs).splitOn c := by rw [h]
    _ = qs := List.splitOn_intercalate c hqs hq

/-- Where the separator is only once on one side, the texts around it are the same. -/
theorem append_cons_inj {c : Char} {as bs as' bs' : List Char} (has : c ∉ as) (hbs : c ∉ bs)
    (h : as ++ c :: bs = as' ++ c :: bs') : as = as' ∧ bs = bs' := by
  have hcount := congrArg (List.count c) h
  simp only [List.count_append, List.count_cons_self, List.count_eq_zero_of_not_mem has,
    List.count_eq_zero_of_not_mem hbs] at hcount
  have has' : c ∉ as' := List.count_eq_zero.1 (by omega)
  have hsplit := congrArg (List.splitOn c) h
  rw [List.splitOn_append_cons_self_of_not_mem has,
    List.splitOn_append_cons_self_of_not_mem has'] at hsplit
  obtain rfl : as = as' := (List.cons.inj hsplit).1
  exact ⟨rfl, (List.cons.inj (List.append_cancel_left h)).2⟩

theorem cut?_eq (c : Char) (s : String) :
    cut? c s = match s.toList.dropWhile (· != c) with
      | [] => none
      | _ :: after =>
        some (String.ofList (s.toList.takeWhile (· != c)), String.ofList after) := by
  rw [cut?, List.span_eq_takeWhile_dropWhile]
  cases s.toList.dropWhile (· != c) <;> rfl

theorem cut?_eq_none {c : Char} {s : String} (h : c ∉ s.toList) : cut? c s = none := by
  have hall : s.toList.dropWhile (· != c) = [] :=
    List.dropWhile_eq_nil_iff.2 fun d hd => bne_iff_ne.2 fun hdc => h (hdc ▸ hd)
  rw [cut?_eq, hall]

theorem exists_cut?_of_mem {c : Char} {s : String} (h : c ∈ s.toList) :
    ∃ before after, cut? c s = some (before, after) := by
  rw [cut?_eq]
  cases hrest : s.toList.dropWhile (· != c) with
  | nil => exact absurd (List.dropWhile_eq_nil_iff.1 hrest c h) (by simp)
  | cons d after => exact ⟨_, _, rfl⟩

/-- A text is cut at the first character of this kind. -/
theorem cut?_eq_some_iff {c : Char} {s before after : String} :
    cut? c s = some (before, after) ↔
      s.toList = before.toList ++ c :: after.toList ∧ c ∉ before.toList := by
  rw [cut?_eq]
  constructor
  · intro h
    split at h
    · cases h
    · next d rest hrest =>
      obtain ⟨rfl, rfl⟩ := Prod.mk.inj (Option.some.inj h)
      have hhead := List.head?_dropWhile_not (· != c) s.toList
      rw [hrest] at hhead
      obtain rfl : d = c := by simpa using hhead
      rw [String.toList_ofList, String.toList_ofList, ← hrest, List.takeWhile_append_dropWhile]
      exact ⟨rfl, fun hmem => by simpa using List.mem_takeWhile_imp hmem⟩
  · rintro ⟨hs, hbefore⟩
    have hpass : ∀ d ∈ before.toList, (d != c) = true := fun d hd =>
      bne_iff_ne.2 fun hdc => hbefore (hdc ▸ hd)
    rw [hs, List.dropWhile_append_of_pos hpass, List.takeWhile_append_of_pos hpass,
      List.dropWhile_cons_of_neg (by simp), List.takeWhile_cons_of_neg (by simp), List.append_nil]
    simp only [String.ofList_toList]

/-! ## Leads and tails -/

theorem dropLeadChars?_eq_some_iff {lead cs rest : List Char} :
    dropLeadChars? lead cs = some rest ↔ cs = lead ++ rest := by
  induction lead generalizing cs with
  | nil => simp [dropLeadChars?]
  | cons p ps ih =>
    cases cs with
    | nil => simp [dropLeadChars?]
    | cons c cs =>
      rw [dropLeadChars?]
      split
      · next hpc => rw [ih, List.cons_append, hpc, List.cons_inj_right]
      · next hpc => simp [Ne.symm hpc]

/-- Dropping a lead takes a text apart. -/
theorem dropLead?_eq_some_iff {lead s rest : String} :
    dropLead? lead s = some rest ↔ s = lead ++ rest := by
  rw [dropLead?, Option.map_eq_some_iff, ← String.toList_inj, String.toList_append]
  constructor
  · rintro ⟨cs, hcs, rfl⟩
    rw [String.toList_ofList]
    exact dropLeadChars?_eq_some_iff.1 hcs
  · intro h
    exact ⟨rest.toList, dropLeadChars?_eq_some_iff.2 h, String.ofList_toList⟩

theorem startsWith_iff {lead s : String} :
    startsWith lead s = true ↔ lead.toList <+: s.toList := by
  rw [startsWith, dropLead?, Option.isSome_map, Option.isSome_iff_exists]
  constructor
  · rintro ⟨rest, h⟩
    exact ⟨rest, (dropLeadChars?_eq_some_iff.1 h).symm⟩
  · rintro ⟨rest, h⟩
    exact ⟨rest, dropLeadChars?_eq_some_iff.2 h.symm⟩

section
variable {lead s more : String} {c : Char}

theorem getD_dropLead?_empty : (dropLead? lead "").getD "" = "" := by
  cases hdrop : dropLead? lead "" with
  | none => rfl
  | some rest => exact (String.append_eq_empty_iff.1 (dropLead?_eq_some_iff.1 hdrop).symm).2

/-- A lead without the character `c` ends before what begins with `c`. -/
theorem isPrefix_of_isPrefix_append {lead cs ds : List Char} (hlead : c ∉ lead)
    (hds : ∀ d ∈ ds.head?, d = c) (h : lead <+: cs ++ ds) : lead <+: cs := by
  obtain ⟨rest, hrest⟩ := h
  rcases List.append_eq_append_iff.1 hrest with ⟨more, hcs, -⟩ | ⟨more, hmore, hds'⟩
  · exact ⟨more, hcs.symm⟩
  · cases more with
    | nil => exact ⟨[], by rw [hmore]; simp⟩
    | cons d more =>
      obtain rfl : d = c := hds d (by rw [hds']; rfl)
      exact absurd (hmore ▸ List.mem_append_right cs List.mem_cons_self) hlead

/-- Such a lead comes off a text that goes on with `c` as it comes off what is before. -/
theorem getD_dropLead?_append (hlead : c ∉ lead.toList)
    (hmore : ∀ d ∈ more.toList.head?, d = c) :
    (dropLead? lead (s ++ more)).getD (s ++ more) = (dropLead? lead s).getD s ++ more := by
  cases hdrop : dropLead? lead s with
  | some rest =>
    have hs : s ++ more = lead ++ (rest ++ more) := by
      rw [dropLead?_eq_some_iff.1 hdrop, String.append_assoc]
    rw [dropLead?_eq_some_iff.2 hs]
    rfl
  | none =>
    have hnone : dropLead? lead (s ++ more) = none := by
      refine Option.eq_none_iff_forall_ne_some.2 fun rest hrest => ?_
      have hprefix : lead.toList <+: s.toList ++ more.toList := by
        rw [← String.toList_append, dropLead?_eq_some_iff.1 hrest, String.toList_append]
        exact List.prefix_append ..
      have hstarts := startsWith_iff.2 (isPrefix_of_isPrefix_append hlead hmore hprefix)
      rw [startsWith, hdrop] at hstarts
      exact absurd hstarts Bool.false_ne_true
    rw [hnone]
    rfl

end

/-- Dropping a tail takes a text apart. -/
theorem dropTail?_eq_some_iff {tail s rest : String} :
    dropTail? tail s = some rest ↔ s = rest ++ tail := by
  rw [dropTail?, Option.map_eq_some_iff, ← String.toList_inj, String.toList_append]
  constructor
  · rintro ⟨cs, hcs, rfl⟩
    have hreverse := congrArg List.reverse (dropLeadChars?_eq_some_iff.1 hcs)
    simpa using hreverse
  · intro h
    exact ⟨rest.toList.reverse, dropLeadChars?_eq_some_iff.2 (by simp [h]), by simp⟩

/-! ## Fields -/

theorem not_blank_of_mem_fieldChars {cs field : List Char} (h : field ∈ fieldChars cs) :
    ∀ c ∈ field, isBlank c = false := by
  induction cs generalizing field with
  | nil => simp [fieldChars] at h
  | cons c cs ih =>
    unfold fieldChars at h
    split at h
    · exact ih h
    · next hc =>
      have hc : isBlank c = false := Bool.eq_false_iff.2 hc
      have hone : ∀ d ∈ [c], isBlank d = false := by simpa using hc
      simp only at h
      split at h
      · split at h
        · rcases List.mem_cons.1 h with rfl | h
          · exact hone
          · exact ih h
        · split at h
          · obtain rfl := List.mem_singleton.1 h
            exact hone
          · next f fs hrest =>
            rw [hrest] at ih
            rcases List.mem_cons.1 h with rfl | h
            · exact List.forall_mem_cons.2 ⟨hc, ih List.mem_cons_self⟩
            · exact ih (List.mem_cons_of_mem _ h)
      · obtain rfl := List.mem_singleton.1 h
        exact hone

theorem not_blank_of_mem_fields {s field : String} (h : field ∈ fields s) :
    ∀ c ∈ field.toList, isBlank c = false := by
  obtain ⟨cs, hcs, rfl⟩ := List.mem_map.1 h
  simpa using not_blank_of_mem_fieldChars hcs

/-! ## White space around a text -/

theorem toList_trim (s : String) :
    (trim s).toList = ((s.toList.dropWhile isBlank).reverse.dropWhile isBlank).reverse := by
  rw [trim, trimEnd, trimStart, String.toList_ofList, String.toList_ofList]

theorem dropWhile_isBlank {cs : List Char} (h : ∀ c ∈ cs, isBlank c = false) :
    cs.dropWhile isBlank = cs := by
  cases cs with
  | nil => rfl
  | cons c cs => exact List.dropWhile_cons_of_neg (by simp [h c List.mem_cons_self])

/-- White space around a text without any is what trimming takes away. -/
theorem trim_around {before core after : String} (hbefore : ∀ c ∈ before.toList, isBlank c = true)
    (hafter : ∀ c ∈ after.toList, isBlank c = true)
    (hcore : ∀ c ∈ core.toList, isBlank c = false) : trim (before ++ core ++ after) = core := by
  have hstart : core.toList.dropWhile isBlank = core.toList := dropWhile_isBlank hcore
  have hend : core.toList.reverse.dropWhile isBlank = core.toList.reverse :=
    dropWhile_isBlank fun c hc => hcore c (List.mem_reverse.1 hc)
  have hnone : after.toList.dropWhile isBlank = [] := List.dropWhile_eq_nil_iff.2 hafter
  rw [← String.toList_inj, toList_trim, String.toList_append, String.toList_append,
    List.append_assoc, List.dropWhile_append_of_pos hbefore, List.dropWhile_append, hstart]
  split
  · next hempty =>
    rw [hnone, List.isEmpty_iff.1 hempty]
    rfl
  · rw [List.reverse_append, List.dropWhile_append_of_pos (by simpa using hafter), hend,
      List.reverse_reverse]

theorem exists_around_trim (s : String) :
    ∃ before after : String, s = before ++ trim s ++ after ∧
      (∀ c ∈ before.toList, isBlank c = true) ∧ ∀ c ∈ after.toList, isBlank c = true := by
  refine ⟨String.ofList (s.toList.takeWhile isBlank),
    String.ofList ((s.toList.dropWhile isBlank).reverse.takeWhile isBlank).reverse, ?_, ?_, ?_⟩
  · rw [← String.toList_inj, String.toList_append, String.toList_append, toList_trim,
      String.toList_ofList, String.toList_ofList, List.append_assoc, ← List.reverse_append,
      List.takeWhile_append_dropWhile, List.reverse_reverse, List.takeWhile_append_dropWhile]
  · rw [String.toList_ofList]
    exact fun c hc => List.mem_takeWhile_imp hc
  · rw [String.toList_ofList]
    exact fun c hc => List.mem_takeWhile_imp (List.mem_reverse.1 hc)

end RouteCheck.Text
