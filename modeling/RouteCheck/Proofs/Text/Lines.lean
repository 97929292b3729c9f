import RouteCheck.Proofs.Text.Split
import RouteCheck.Text.Quoted

/-!
Texts on one line, and texts that are written line by line.

Where each of some texts is followed by a line break, the lines that are read back are the lines of
the texts. They are the texts themselves just if none of these has a line break of its own.

Main statements:
  1. `oneLine_append`, `oneLine_quote`, `oneLine_toString`: texts that are put together, quoted, or
     the decimal digits of a number.
  2. `split_lines`: what is read back of texts that are written line by line.
  3. `split_lines_eq_iff`, `length_split_lines_eq_iff`: when it is one line for each of them.
-/

namespace RouteCheck.Text

def OneLine (s : String) : Prop := '\n' ∉ s.toList

instance : DecidablePred OneLine := fun s => inferInstanceAs (Decidable ('\n' ∉ s.toList))

section
variable {s t : String} {ss : List String}

@[simp] theorem oneLine_append : OneLine (s ++ t) ↔ OneLine s ∧ OneLine t := by
  simp [OneLine]

theorem OneLine.append (hs : OneLine s) (ht : OneLine t) : OneLine (s ++ t) :=
  oneLine_append.2 ⟨hs, ht⟩

theorem oneLine_join (h : ∀ s ∈ ss, OneLine s) : OneLine (String.join ss) := by
  rw [OneLine, String.toList_join, List.mem_flatMap]
  rintro ⟨s, hs, hmem⟩
  exact h s hs hmem

theorem oneLine_intercalate {sep : String} (hsep : OneLine sep) (h : ∀ s ∈ ss, OneLine s) :
    OneLine (sep.intercalate ss) := by
  rw [OneLine, String.toList_intercalate]
  induction ss with
  | nil => simp
  | cons s ss ih =>
    obtain ⟨hs, hss⟩ := List.forall_mem_cons.1 h
    cases ss with
    | nil => simpa [OneLine] using hs
    | cons t ts =>
      rw [List.map_cons, List.map_cons, List.intercalate_cons_cons, List.mem_append,
        List.mem_append]
      rintro ((hmem | hmem) | hmem)
      · exact hs hmem
      · exact hsep hmem
      · exact ih hss hmem

/-! ## Digits and quotes -/

theorem oneLine_hex (n : Nat) : OneLine (hex n) := by
  have hcore (fuel n : Nat) (cs : List Char) (hcs : '\n' ∉ cs) :
      '\n' ∉ Nat.toDigitsCore 16 fuel n cs := by
    induction fuel generalizing n cs with
    | zero => exact hcs
    | succ fuel ih =>
      have hdigit : '\n' ∉ (n % 16).digitChar :: cs :=
        List.not_mem_cons_of_ne_of_not_mem (Nat.digitChar_ne '\n' (by decide)).symm hcs
      rw [Nat.toDigitsCore]
      split
      · exact hdigit
      · exact ih _ _ hdigit
  rw [OneLine, hex, String.toList_ofList]
  exact hcore _ n [] List.not_mem_nil

theorem oneLine_toString (n : Nat) : OneLine (toString n) := by
  intro h
  have hmem : '\n' ∈ Nat.toDigits 10 n := by simpa [toString, Nat.repr] using h
  exact absurd (Nat.isDigit_of_mem_toDigits (by decide) (by decide) hmem) (by decide)

theorem oneLine_quoteChar (c : Char) : OneLine (quoteChar c) := by
  unfold quoteChar
  split_ifs
  case pos => decide
  case pos => decide
  case pos => decide
  case pos => decide
  case pos => decide
  case pos => decide
  case pos => exact .append (.append (by decide) (oneLine_hex _)) (by decide)
  case neg hbreak _ _ _ _ =>
    have hne : '\n' ≠ c := fun heq => hbreak heq.symm
    simpa [OneLine] using hne

/-- A text in double quotes. -/
theorem oneLine_quote (s : String) : OneLine (quote s) := by
  have hjoin : OneLine (String.join (s.toList.map quoteChar)) :=
    oneLine_join (List.forall_mem_map.2 fun c _ => oneLine_quoteChar c)
  exact .append (.append (by decide) hjoin) (by decide)

theorem oneLine_quoteList (ss : List String) : OneLine (quoteList ss) := by
  have hlist : OneLine (String.intercalate ", " (ss.map quote)) :=
    oneLine_intercalate (by decide) (List.forall_mem_map.2 fun s _ => oneLine_quote s)
  exact .append (.append (by decide) hlist) (by decide)

/-! ## Lines -/

theorem splitOn_append_cons {c : Char} (as bs : List Char) :
    (as ++ c :: bs).splitOn c = as.splitOn c ++ bs.splitOn c := by
  induction as with
  | nil => simp [List.splitOn_cons_eq_if_modifyHead]
  | cons a as ih =>
    rw [List.cons_append, List.splitOn_cons_eq_if_modifyHead,
      List.splitOn_cons_eq_if_modifyHead, ih]
    split
    · rfl
    · cases h : as.splitOn c with
      | nil => exact absurd h (List.splitOn_ne_nil c as)
      | cons p ps => rfl

theorem split_append_break (s t : String) :
    split '\n' (s ++ "\n" ++ t) = split '\n' s ++ split '\n' t := by
  have hbreak : (s ++ "\n" ++ t).toList = s.toList ++ '\n' :: t.toList := by simp
  rw [split_eq, hbreak, splitOn_append_cons, List.map_append, ← split_eq, ← split_eq]

/-- The lines of texts that are written line by line; nothing is on the last one. -/
theorem split_lines (ss : List String) :
    split '\n' (String.join (ss.map (· ++ "\n"))) = ss.flatMap (split '\n') ++ [""] := by
  induction ss with
  | nil => rfl
  | cons s ss ih =>
    have hcons : String.join ((s :: ss).map (· ++ "\n")) =
        s ++ "\n" ++ String.join (ss.map (· ++ "\n")) := by simp [String.join_cons]
    rw [hcons, split_append_break, ih, List.flatMap_cons, List.append_assoc]

theorem split_eq_singleton (h : OneLine s) : split '\n' s = [s] := by
  rw [split_eq, List.splitOn_eq_singleton h, List.map_singleton, String.ofList_toList]

theorem length_split_eq_one_iff : (split '\n' s).length = 1 ↔ OneLine s := by
  refine ⟨fun h hmem => ?_, fun h => by rw [split_eq_singleton h]; rfl⟩
  obtain ⟨as, bs, has⟩ := List.append_of_mem hmem
  rw [split_eq, has, splitOn_append_cons, List.length_map, List.length_append] at h
  have := List.length_pos_iff.2 (List.splitOn_ne_nil '\n' as)
  have := List.length_pos_iff.2 (List.splitOn_ne_nil '\n' bs)
  omega

/-- There are as many lines as texts just if each text has one line. -/
theorem length_split_lines_eq_iff : (split '\n' (String.join (ss.map (· ++ "\n")))).length =
    ss.length + 1 ↔ ∀ s ∈ ss, OneLine s := by
  have hmore (ss : List String) : ss.length ≤ (ss.flatMap (split '\n')).length ∧
      ((ss.flatMap (split '\n')).length = ss.length ↔ ∀ s ∈ ss, OneLine s) := by
    induction ss with
    | nil => simp
    | cons s ss ih =>
      have hpos := List.length_pos_iff.2 (split_ne_nil '\n' s)
      rw [List.flatMap_cons, List.length_append, List.length_cons, List.forall_mem_cons, ← ih.2,
        ← length_split_eq_one_iff]
      omega
  rw [split_lines, List.length_append, List.length_singleton, Nat.add_right_cancel_iff]
  exact (hmore ss).2

/-- The lines are the texts just if each text has one line. -/
theorem split_lines_eq_iff :
    split '\n' (String.join (ss.map (· ++ "\n"))) = ss ++ [""] ↔ ∀ s ∈ ss, OneLine s := by
  refine ⟨fun h => length_split_lines_eq_iff.1 (by rw [h, List.length_append]; rfl), fun h => ?_⟩
  rw [split_lines, List.append_cancel_right_eq]
  induction ss with
  | nil => rfl
  | cons s ss ih =>
    obtain ⟨hs, hss⟩ := List.forall_mem_cons.1 h
    rw [List.flatMap_cons, split_eq_singleton hs, ih hss, List.singleton_append]

end
end RouteCheck.Text
