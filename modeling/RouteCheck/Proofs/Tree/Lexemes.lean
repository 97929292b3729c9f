import RouteCheck.Proofs.Tree.Legible
import RouteCheck.Proofs.Tree.SourceOrigins
import Mathlib.Data.List.TakeWhile
import Mathlib.Data.String.Basic

/-!
How far a scanner looks, and what the texts of tokens are.

A scanner looks at one character after what it takes, and where that character is a bracket that
closes, it ends what it takes. So the tokens of a text do not change when another text with a
bracket in front follows, as long as none of them runs into what followed.

Main statements:
  1. `near_exponentLength`, `number_close`, `measure_close`: what a token measures.
  2. `scanFrom_close`: the tokens of a text that a bracket follows.
  3. `scanFrom_split`: where in a text a token stands, and what its text is.
  4. `bracketed_of_enclosed`: what stands in brackets can be told from what follows it.
-/

namespace RouteCheck.Token
open String (utf8Len)

/-! ## Measures -/

/-- What is measured at the front of a text ends where a bracket closes, if it does not reach any
further. -/
def Near (f : List Char → Nat) : Prop :=
  ∀ as bs zs, f (as ++ bs) ≤ as.length → f (as ++ ']' :: zs) = f (as ++ bs)

/-- What is measured at the front of a text ends with a mark of its own, or the text ends. -/
def Marked (f : List Char → Nat) : Prop :=
  ∀ as bs xs, bs ≠ [] → f (as ++ bs) ≤ as.length → f (as ++ xs) = f (as ++ bs)

/-- A character that `q` accepts, and then what `g` measures. -/
def headed (q : Char → Bool) (g : List Char → Nat) : List Char → Nat
  | [] => 0
  | c :: cs => if q c then 1 + g cs else 0

section
variable {f g : List Char → Nat} {p q : Char → Bool} {marks : List Char}

theorem run_cons (c : Char) (cs : List Char) : run p (c :: cs) = if p c then 1 + run p cs else 0 := by
  unfold run
  rw [List.takeWhile_cons]
  split
  · rw [List.length_cons, Nat.add_comm]
  · rfl

theorem near_const (k : Nat) : Near fun _ => k := fun _ _ _ _ => rfl

theorem near_headed (hq : q ']' = false) (hg : Near g) : Near (headed q g) := by
  intro as bs zs h
  cases as with
  | nil =>
    have h : headed q g bs = 0 := Nat.le_zero.1 h
    rw [List.nil_append, List.nil_append, h, headed, hq]
    rfl
  | cons a as =>
    rw [List.cons_append, headed] at h ⊢
    rw [List.cons_append, headed]
    split
    · next ha =>
      rw [if_pos ha, List.length_cons, Nat.add_comm] at h
      rw [hg as bs zs (Nat.le_of_succ_le_succ h)]
    · rfl

theorem near_run (hp : p ']' = false) : Near (run p) := by
  intro as bs zs h
  induction as with
  | nil =>
    have h : run p bs = 0 := Nat.le_zero.1 h
    simp [h, run_cons, hp]
  | cons a as ih =>
    rw [List.cons_append, run_cons] at h ⊢
    rw [List.cons_append, run_cons]
    split
    · next ha =>
      rw [if_pos ha, List.length_cons, Nat.add_comm] at h
      rw [ih (Nat.le_of_succ_le_succ h)]
    · rfl

theorem Near.add (hf : Near f) (hg : Near g) : Near fun cs => f cs + g cs := by
  intro as bs zs h
  dsimp only at h ⊢
  rw [hf as bs zs (Nat.le_trans (Nat.le_add_right _ _) h),
    hg as bs zs (Nat.le_trans (Nat.le_add_left _ _) h)]

theorem Near.after (hf : Near f) (hg : Near g) : Near fun cs => f cs + g (cs.drop (f cs)) := by
  intro as bs zs h
  have hlead : f (as ++ bs) ≤ as.length := Nat.le_trans (Nat.le_add_right _ _) h
  dsimp only at h ⊢
  rw [hf as bs zs hlead]
  rw [List.drop_append_of_le_length hlead] at h ⊢
  rw [List.drop_append_of_le_length hlead, hg]
  rw [List.length_drop]
  omega

/-- A run that ends before what follows does not depend on it. -/
theorem run_append {as bs : List Char} (h : run p (as ++ bs) < as.length) (xs : List Char) :
    run p (as ++ xs) = run p (as ++ bs) := by
  induction as with
  | nil => exact absurd h (Nat.not_lt_zero _)
  | cons a as ih =>
    rw [List.cons_append, run_cons] at h ⊢
    rw [List.cons_append, run_cons]
    split
    · next ha =>
      rw [if_pos ha, List.length_cons, Nat.add_comm] at h
      rw [ih (Nat.lt_of_succ_lt_succ h)]
    · rfl

theorem quotedLength_cons {c q : Char} {cs : List Char} (hc : c ≠ '\\') :
    quotedLength q (c :: cs) = if c = q then 1 else 1 + quotedLength q cs := by
  rw [quotedLength]
  exact fun _ _ h => absurd h hc

theorem quotedLength_pos {q : Char} {cs : List Char} (hcs : cs ≠ []) : 0 < quotedLength q cs := by
  fun_cases quotedLength q cs with
  | case1 => exact absurd rfl hcs
  | case2 => omega
  | case3 => omega
  | case4 => omega

theorem marked_quotedLength (q : Char) : Marked (quotedLength q)
  | [], bs, xs, hbs, h => absurd h (Nat.not_le_of_lt (quotedLength_pos hbs))
  | [c], bs, xs, hbs, h => by
    obtain ⟨b, bs, rfl⟩ := List.exists_cons_of_ne_nil hbs
    have hb : 0 < quotedLength q (b :: bs) := quotedLength_pos hbs
    rw [List.cons_append, List.nil_append, List.length_singleton] at h
    by_cases hc : c = '\\'
    · rw [hc, quotedLength] at h
      omega
    · rw [quotedLength_cons hc] at h
      rw [List.cons_append, List.cons_append, quotedLength_cons hc, quotedLength_cons hc]
      split
      · rfl
      · next hq =>
        rw [if_neg hq] at h
        omega
  | c :: a :: as, bs, xs, hbs, h => by
    rw [List.cons_append, List.cons_append, List.length_cons, List.length_cons] at h
    by_cases hc : c = '\\'
    · rw [hc, quotedLength] at h
      have ih := marked_quotedLength q as bs xs hbs (by omega)
      rw [hc, List.cons_append, List.cons_append, List.cons_append, List.cons_append, quotedLength,
        quotedLength, ih]
    · rw [quotedLength_cons hc] at h
      show quotedLength q (c :: (a :: as ++ xs)) = quotedLength q (c :: (a :: as ++ bs))
      rw [quotedLength_cons hc, quotedLength_cons hc]
      split
      · rfl
      · next hq =>
        rw [if_neg hq] at h
        rw [marked_quotedLength q (a :: as) bs xs hbs (by
          rw [List.cons_append, List.length_cons]; omega)]

theorem blockCommentLength_cons {c : Char} {cs : List Char}
    (h : ¬ (c = '*' ∧ cs.head? = some '/')) :
    blockCommentLength (c :: cs) = 1 + blockCommentLength cs := by
  rw [blockCommentLength]
  rintro ds rfl rfl
  exact h ⟨rfl, rfl⟩

theorem blockCommentLength_pos {cs : List Char} (hcs : cs ≠ []) : 0 < blockCommentLength cs := by
  fun_cases blockCommentLength cs with
  | case1 => exact absurd rfl hcs
  | case2 => omega
  | case3 => omega

theorem marked_blockCommentLength : Marked blockCommentLength := by
  intro as bs xs hbs h
  induction as with
  | nil => exact absurd h (Nat.not_le_of_lt (blockCommentLength_pos hbs))
  | cons c as ih =>
    cases as with
    | nil =>
      obtain ⟨b, bs, rfl⟩ := List.exists_cons_of_ne_nil hbs
      have hb : 0 < blockCommentLength (b :: bs) := blockCommentLength_pos hbs
      rw [List.cons_append, List.nil_append, List.length_singleton] at h
      by_cases hend : c = '*' ∧ b = '/'
      · rw [hend.1, hend.2, blockCommentLength] at h
        omega
      · rw [blockCommentLength_cons (by simpa using hend)] at h
        omega
    | cons a as =>
      by_cases hend : c = '*' ∧ a = '/'
      · rw [hend.1, hend.2]
        rfl
      · rw [List.cons_append, blockCommentLength_cons (by simpa using hend), List.length_cons] at h
        show blockCommentLength (c :: (a :: as ++ xs)) = blockCommentLength (c :: (a :: as ++ bs))
        rw [blockCommentLength_cons (by simpa using hend),
          blockCommentLength_cons (by simpa using hend), ih (by omega)]

/-! ## Numbers -/

def radixOf : List Char → Char
  | '0' :: x :: _ => x
  | _ => ' '

def isBased (radix : Char) : Bool := "xXbBoO".toList.contains radix

def isNumeral (radix c : Char) : Bool :=
  c = '_' || if radix = 'x' || radix = 'X' then isHexDigit c else Char.isDigit c

/-- The letters that an exponent of a number may begin with. -/
def exponentMarks (radix : Char) : List Char :=
  if radix = 'x' || radix = 'X' then ['p', 'P'] else ['e', 'E']

/-- Length of a number up to its point. -/
def wholeLength (radix : Char) (cs : List Char) : Nat :=
  let lead := if isBased radix then 2 else 0
  lead + run (isNumeral radix) (cs.drop lead)

/-- Length of the digits after a point, with the point. -/
def pointLength (radix : Char) : List Char → Nat
  | '.' :: more => 1 + run (isNumeral radix) more
  | _ => 0

/-- Length of a number up to its exponent. -/
def mantissaLength (radix : Char) (cs : List Char) : Nat :=
  wholeLength radix cs + pointLength radix (cs.drop (wholeLength radix cs))

/-- Length of a number up to the mark of imaginary numbers. -/
def fullLength (radix : Char) (cs : List Char) : Nat :=
  mantissaLength radix cs +
    exponentLength (exponentMarks radix) (cs.drop (mantissaLength radix cs))

def numberLength (radix : Char) (cs : List Char) : Nat :=
  fullLength radix cs + headed (· == 'i') (fun _ => 0) (cs.drop (fullLength radix cs))

def numberAs (radix : Char) (cs : List Char) : Nat × Class :=
  (numberLength radix cs, if numberLength radix cs ≠ fullLength radix cs then .imaginary
    else if fullLength radix cs = wholeLength radix cs then .int else .float)

theorem imaginary_eq (n : Nat) (cls : Class) (cs : List Char) : (match cs with
    | 'i' :: _ => (n + 1, .imaginary)
    | _ => (n, cls)) = (n + headed (· == 'i') (fun _ => 0) cs,
      if n + headed (· == 'i') (fun _ => 0) cs ≠ n then .imaginary else cls) := by
  split
  · simp [headed]
  · next hother =>
    have hnone : headed (· == 'i') (fun _ => 0) cs = 0 := by
      cases cs with
      | nil => rfl
      | cons c l => exact if_neg fun hc => hother l (by rw [eq_of_beq hc])
    simp [hnone]

theorem number_eq (cs : List Char) : number cs = numberAs (radixOf cs) cs :=
  imaginary_eq _ _ _

theorem pointLength_eq (radix : Char) :
    pointLength radix = headed (· == '.') (run (isNumeral radix)) := by
  funext cs
  unfold pointLength
  split
  · rfl
  · next hcs =>
    cases cs with
    | nil => rfl
    | cons c l => exact (if_neg fun hc => hcs l (by rw [eq_of_beq hc])).symm

theorem exponentLength_eq : exponentLength marks = headed marks.contains fun cs =>
    headed (fun s => s = '+' || s = '-') (run Char.isDigit) cs +
      run (fun c => c.isDigit || c = '_') cs := by
  funext cs
  fun_cases exponentLength marks cs with
  | case1 e s cs he => exact (if_neg (by simpa using he)).symm
  | case2 e s cs he hs =>
    have hdigit : ¬ (s.isDigit || s = '_') = true := by
      rcases Bool.or_eq_true_iff.1 hs with hs | hs <;> rw [of_decide_eq_true hs] <;> decide
    rw [headed, if_pos (by simpa using he), headed, if_pos hs, run_cons, if_neg hdigit]
    omega
  | case3 e s cs he hs =>
    rw [headed, if_pos (by simpa using he), headed, if_neg hs, Nat.zero_add]
  | case4 e he => rw [headed, if_pos he]; rfl
  | case5 e he => exact (if_neg he).symm
  | case6 => rfl

theorem near_exponentLength (hmarks : marks.contains ']' = false) :
    Near (exponentLength marks) := by
  rw [exponentLength_eq]
  exact near_headed hmarks (.add (near_headed rfl (near_run rfl)) (near_run rfl))

variable {radix : Char}

theorem near_isNumeral : Near (run (isNumeral radix)) :=
  near_run (by unfold isNumeral; split <;> rfl)

theorem near_wholeLength : Near (wholeLength radix) :=
  .after (near_const _) near_isNumeral

theorem near_fullLength : Near (fullLength radix) := by
  have hmantissa : Near (mantissaLength radix) := .after near_wholeLength (by
    rw [pointLength_eq]
    exact near_headed rfl near_isNumeral)
  exact .after hmantissa (near_exponentLength (by unfold exponentMarks; split <;> rfl))

theorem near_numberLength : Near (numberLength radix) :=
  .after near_fullLength (near_headed rfl (near_const 0))

theorem numberAs_close (as : List Char) {bs zs : List Char}
    (h : numberLength radix (as ++ bs) ≤ as.length) :
    numberAs radix (as ++ ']' :: zs) = numberAs radix (as ++ bs) := by
  have hfull : fullLength radix (as ++ bs) ≤ as.length := Nat.le_trans (Nat.le_add_right _ _) h
  have hmantissa : mantissaLength radix (as ++ bs) ≤ as.length :=
    Nat.le_trans (Nat.le_add_right _ _) hfull
  have hwhole : wholeLength radix (as ++ bs) ≤ as.length :=
    Nat.le_trans (Nat.le_add_right _ _) hmantissa
  rw [numberAs, numberAs, near_numberLength as bs zs h, near_fullLength as bs zs hfull,
    near_wholeLength as bs zs hwhole]

theorem numberAs_of_not_based (h : isBased radix = false) : numberAs radix = numberAs ' ' := by
  have hx : ¬ (radix = 'x' || radix = 'X') = true := by
    intro hx
    rcases Bool.or_eq_true_iff.1 hx with hx | hx <;> obtain rfl := of_decide_eq_true hx <;>
      exact absurd h (by decide)
  have hnumeral : isNumeral radix = isNumeral ' ' := by
    funext c
    rw [isNumeral, if_neg hx]
    rfl
  have hmarks : exponentMarks radix = exponentMarks ' ' := if_neg hx
  have hbased : isBased radix = isBased ' ' := h
  funext cs
  simp only [numberAs, numberLength, fullLength, mantissaLength, pointLength_eq, wholeLength,
    hnumeral, hmarks, hbased]

/-- A number that ends before a bracket does not depend on what follows. -/
theorem number_close {c : Char} {as bs zs : List Char}
    (h : (number (c :: (as ++ bs))).1 ≤ as.length + 1) :
    number (c :: (as ++ ']' :: zs)) = number (c :: (as ++ bs)) := by
  rw [number_eq] at h
  rw [number_eq, number_eq]
  cases as with
  | cons a as =>
    have hradix (xs : List Char) : radixOf (c :: (a :: as ++ xs)) = radixOf [c, a] := by
      unfold radixOf
      split <;> simp_all
    rw [hradix] at h ⊢
    rw [hradix]
    exact numberAs_close (c :: a :: as) h
  | nil =>
    have hplain : isBased (radixOf (c :: bs)) = false := by
      by_contra hbased
      have hlead : 2 ≤ wholeLength (radixOf (c :: bs)) (c :: bs) := by
        rw [wholeLength, if_pos (by simpa using hbased)]
        exact Nat.le_add_right _ _
      have h : numberLength (radixOf (c :: bs)) (c :: bs) ≤ 1 := h
      unfold numberLength fullLength mantissaLength at h
      omega
    have hclose : isBased (radixOf (c :: ']' :: zs)) = false := by
      unfold radixOf
      split
      · next hcs => rw [← (List.cons.inj (List.cons.inj hcs).2).1]; rfl
      · rfl
    rw [List.nil_append, List.nil_append, numberAs_of_not_based hclose,
      numberAs_of_not_based hplain]
    rw [List.nil_append, numberAs_of_not_based hplain] at h
    exact numberAs_close [c] h

/-! ## Tokens -/

theorem find?_close {marks : List (List Char)} {as : List Char} (bs : List Char) {zs : List Char}
    (hmarks : ∀ m ∈ marks, ']' ∉ m)
    (h : ∀ m ∈ marks.find? (·.isPrefixOf (as ++ bs)), m.length ≤ as.length) :
    marks.find? (·.isPrefixOf (as ++ ']' :: zs)) = marks.find? (·.isPrefixOf (as ++ bs)) := by
  induction marks with
  | nil => rfl
  | cons m marks ih =>
    obtain ⟨hm, hmarks⟩ := List.forall_mem_cons.1 hmarks
    by_cases hfront : m <+: as
    · have hfound (xs : List Char) : m.isPrefixOf (as ++ xs) = true :=
        List.isPrefixOf_iff_prefix.2 (hfront.trans (List.prefix_append as xs))
      simp [hfound]
    · have hclose : m.isPrefixOf (as ++ ']' :: zs) = false := by
        by_contra hbegins
        have hbegins := List.isPrefixOf_iff_prefix.1 (Bool.eq_true_of_not_eq_false hbegins)
        rcases List.prefix_or_prefix_of_prefix hbegins (List.prefix_append as _) with h | ⟨t, rfl⟩
        · exact hfront h
        · cases t with
          | nil => exact hfront (by simp)
          | cons d t =>
            have hd := (List.cons_prefix_cons.1 ((List.prefix_append_right_inj as).1 hbegins)).1
            exact hm (by simp [hd])
      have hopen : m.isPrefixOf (as ++ bs) = false := by
        by_contra hbegins
        have hbegins := Bool.eq_true_of_not_eq_false hbegins
        exact hfront (List.prefix_of_prefix_length_le (List.isPrefixOf_iff_prefix.1 hbegins)
          (List.prefix_append as bs) (h m (by simp [hbegins])))
      simp only [List.find?_cons, hclose, hopen] at h ⊢
      exact ih hmarks h

/-- The token that begins with `c` is a number. -/
def isNumberHead (c : Char) (cs : List Char) : Bool :=
  c.isDigit || (c = '.' && (cs.head?.map Char.isDigit).getD false)

theorem number_point {d : Char} (hd : d.isDigit = true) (cs : List Char) :
    2 ≤ (number ('.' :: d :: cs)).1 := by
  have hwhole : wholeLength ' ' ('.' :: d :: cs) = 0 := rfl
  have hpoint : pointLength ' ' ('.' :: d :: cs) = 2 + run (isNumeral ' ') cs := by
    have hnumeral : isNumeral ' ' d = true := by simp [isNumeral, hd]
    rw [pointLength, run_cons, if_pos hnumeral]
    omega
  have hradix : radixOf ('.' :: d :: cs) = ' ' := rfl
  rw [number_eq, hradix, numberAs, numberLength, fullLength, mantissaLength, hwhole, List.drop_zero,
    hpoint]
  dsimp only
  omega

theorem isNumberHead_close {c : Char} {as bs zs : List Char}
    (h : isNumberHead c (as ++ bs) = true → (number (c :: (as ++ bs))).1 ≤ as.length + 1) :
    isNumberHead c (as ++ ']' :: zs) = isNumberHead c (as ++ bs) := by
  cases as with
  | cons a as => rfl
  | nil =>
    cases bs with
    | nil => simp [isNumberHead]
    | cons b bs =>
      by_cases hpoint : c = '.' ∧ b.isDigit = true
      · obtain ⟨rfl, hb⟩ := hpoint
        have hlength := h (by simp [isNumberHead, hb])
        exact absurd (number_point hb bs) (Nat.not_le_of_lt (Nat.lt_succ_of_le hlength))
      · have hb : (decide (c = '.') && b.isDigit) = false := by simpa using hpoint
        simp [isNumberHead, hb]

theorem mark_eq (found : Option (List Char)) : (match found with
    | some m => (Class.mark, m.length - 1)
    | none => (Class.mark, 0)) = (.mark, found.elim 1 List.length - 1) := by
  cases found <;> rfl

theorem measure_eq (c : Char) (cs : List Char) : measure c cs =
    if isLetter c then (.word, run isWordChar cs)
    else if isNumberHead c cs then ((number (c :: cs)).2, (number (c :: cs)).1 - 1)
    else if c = '"' then (.interpreted, quotedLength '"' cs)
    else if c = '\'' then (.rune, quotedLength '\'' cs)
    else if c = '\x60' then (.raw, run (· != '\x60') cs + 1)
    else (.mark, ((longMarks.find? (·.isPrefixOf (c :: cs))).elim 1 List.length) - 1) := by
  rewrite [measure, ← mark_eq, ← isNumberHead]
  generalize number (c :: cs) = found
  obtain ⟨n, cls⟩ := found
  rfl

/-- A token that ends before a bracket does not depend on what follows. -/
theorem measure_close {c : Char} {as bs : List Char} (hbs : bs ≠ [])
    (h : (measure c (as ++ bs)).2 ≤ as.length) (zs : List Char) :
    measure c (as ++ ']' :: zs) = measure c (as ++ bs) := by
  rw [measure_eq] at h
  rw [measure_eq, measure_eq]
  by_cases hletter : isLetter c = true
  · rw [if_pos hletter] at h ⊢
    rw [if_pos hletter, near_run rfl as bs zs h]
  rw [if_neg hletter] at h ⊢
  rw [if_neg hletter]
  have hnumber : isNumberHead c (as ++ bs) = true →
      (number (c :: (as ++ bs))).1 ≤ as.length + 1 := by
    intro hhead
    rw [if_pos hhead] at h
    exact Nat.le_add_of_sub_le h
  rw [isNumberHead_close hnumber]
  by_cases hhead : isNumberHead c (as ++ bs) = true
  · rw [if_pos hhead, if_pos hhead, number_close (hnumber hhead)]
  rw [if_neg hhead] at h ⊢
  rw [if_neg hhead]
  by_cases hquote : c = '"'
  · rw [if_pos hquote] at h ⊢
    rw [if_pos hquote, marked_quotedLength '"' as bs _ hbs h]
  rw [if_neg hquote] at h ⊢
  rw [if_neg hquote]
  by_cases hrune : c = '\''
  · rw [if_pos hrune] at h ⊢
    rw [if_pos hrune, marked_quotedLength '\'' as bs _ hbs h]
  rw [if_neg hrune] at h ⊢
  rw [if_neg hrune]
  by_cases hraw : c = '\x60'
  · rw [if_pos hraw] at h ⊢
    rw [if_pos hraw, run_append h]
  rw [if_neg hraw] at h ⊢
  rw [if_neg hraw, ← List.cons_append, ← List.cons_append, find?_close bs (by decide)]
  intro m hm
  rw [← List.cons_append] at h
  have h : (longMarks.find? (·.isPrefixOf (c :: as ++ bs))).elim 1 List.length - 1 ≤ as.length := h
  rw [Option.mem_def.1 hm] at h
  exact Nat.le_add_of_sub_le h

/-! ## Scanning -/

section
variable {p q : Place} {newline : Bool} {cs : List Char} {t : Token} {ts us : List Token}

def kinds (ts : List Token) : List (Class × String) := ts.map fun t => (t.cls, t.text)

theorem depth_congr {d : Nat} (h : kinds ts = kinds us) : depth d ts = depth d us := by
  induction ts generalizing us d with
  | nil =>
    obtain rfl : us = [] := List.map_eq_nil_iff.1 h.symm
    rfl
  | cons t ts ih =>
    obtain ⟨u, us, rfl⟩ : ∃ u us', us = u :: us' := by
      cases us with
      | nil => exact absurd h nofun
      | cons u us => exact ⟨u, us, rfl⟩
    obtain ⟨heq, hrest⟩ := List.cons.inj h
    obtain ⟨hcls, htext⟩ := Prod.mk.inj heq
    rw [depth_cons, depth_cons, deepen, deepen, is, is, is, is, hcls, htext]
    exact Option.bind_congr fun e _ => ih hrest

theorem byte_step (p : Place) (c : Char) : (p.step c).byte = p.byte + c.utf8Size := by
  unfold Place.step
  split
  · next hc => rw [hc]; rfl
  · rfl

theorem byte_advance (p : Place) (cs : List Char) : (p.advance cs).byte = p.byte + utf8Len cs := by
  induction cs generalizing p with
  | nil => rfl
  | cons c cs ih =>
    show ((p.step c).advance cs).byte = _
    rw [ih, byte_step, String.utf8Len_cons]
    omega

theorem advance_append (as bs : List Char) : p.advance (as ++ bs) = (p.advance as).advance bs :=
  List.foldl_append

/-- How many of the characters `cs` after `c` are passed over with it, where no token begins. -/
def skipped (c : Char) (cs : List Char) : Option Nat :=
  if Text.isBlank c then some 0
  else if c = '/' && cs.head? = some '/' then some (run (· != '\n') cs)
  else if c = '/' && cs.head? = some '*' then some (1 + blockCommentLength (cs.drop 1))
  else none

def lexeme (p : Place) (newline : Bool) (c : Char) (cs : List Char) : Token where
  cls := (measure c cs).1
  text := String.ofList (c :: cs.take (measure c cs).2)
  span := ⟨p.byte, (p.advance (c :: cs.take (measure c cs).2)).byte, p.line, p.column⟩
  newlineBefore := newline

theorem scanFrom_nil : scanFrom p newline [] = [] := by rw [scanFrom.eq_def]

theorem scanFrom_skipped {c : Char} {n : Nat} (h : skipped c cs = some n) :
    scanFrom p newline (c :: cs) =
      scanFrom (p.advance (c :: cs.take n)) (newline || c = '\n') (cs.drop n) := by
  rw [scanFrom.eq_def]
  dsimp only
  unfold skipped at h
  split at h
  · next hblank =>
    obtain rfl := Option.some.inj h
    rw [if_pos hblank]
    rfl
  split at h
  · next hblank hline =>
    obtain rfl := Option.some.inj h
    obtain rfl : c = '/' := of_decide_eq_true (Bool.and_eq_true_iff.1 hline).1
    rw [if_neg hblank, if_pos hline, show decide ('/' = '\n') = false from rfl, Bool.or_false]
  split at h
  · next hblank hline hblock =>
    obtain rfl := Option.some.inj h
    obtain rfl : c = '/' := of_decide_eq_true (Bool.and_eq_true_iff.1 hblock).1
    rw [if_neg hblank, if_neg hline, if_pos hblock, show decide ('/' = '\n') = false from rfl,
      Bool.or_false]
  · cases h

theorem scanFrom_lexeme {c : Char} (h : skipped c cs = none) : scanFrom p newline (c :: cs) =
    lexeme p newline c cs :: scanFrom (p.advance (c :: cs.take (measure c cs).2)) false
      (cs.drop (measure c cs).2) := by
  rw [scanFrom.eq_def]
  dsimp only
  unfold skipped at h
  split at h
  · cases h
  split at h
  · cases h
  split at h
  · cases h
  · next hblank hline hblock =>
    rw [if_neg hblank, if_neg hline, if_neg hblock]
    rfl

theorem skipped_cons (c a : Char) (cs : List Char) : skipped c (a :: cs) =
    if Text.isBlank c then some 0
    else if c = '/' ∧ a = '/' then some (run (· != '\n') (a :: cs))
    else if c = '/' ∧ a = '*' then some (1 + blockCommentLength cs)
    else none := by
  simp [skipped]

/-- What is passed over before a token does not depend on what follows the token. -/
theorem skipped_close {c : Char} {as bs : List Char} (hbs : bs ≠ [])
    (h : ∀ n ∈ skipped c (as ++ bs), n < as.length) (zs : List Char) :
    skipped c (as ++ ']' :: zs) = skipped c (as ++ bs) := by
  cases as with
  | nil =>
    have hnone : skipped c bs = none := Option.eq_none_iff_forall_not_mem.2 fun n hn =>
      absurd (h n hn) (Nat.not_lt_zero n)
    rw [List.nil_append, List.nil_append, hnone]
    unfold skipped at hnone
    split at hnone
    · cases hnone
    · next hblank => simp [skipped, hblank]
  | cons a as =>
    rw [List.cons_append, skipped_cons] at h ⊢
    rw [List.cons_append, skipped_cons]
    by_cases hblank : Text.isBlank c = true
    · rw [if_pos hblank, if_pos hblank]
    rw [if_neg hblank] at h ⊢
    rw [if_neg hblank]
    by_cases hline : c = '/' ∧ a = '/'
    · rw [if_pos hline] at h ⊢
      have hlength : run (· != '\n') (a :: as ++ bs) < (a :: as).length := h _ rfl
      rw [if_pos hline, ← List.cons_append, run_append hlength, List.cons_append]
    rw [if_neg hline] at h ⊢
    rw [if_neg hline]
    by_cases hblock : c = '/' ∧ a = '*'
    · rw [if_pos hblock] at h ⊢
      have hlength : 1 + blockCommentLength (as ++ bs) < as.length + 1 := h _ rfl
      rw [if_pos hblock, marked_blockCommentLength as bs _ hbs (by omega)]
    · rw [if_neg hblock, if_neg hblock]

/-- The text `as` after `p` has the tokens `run`, and so it has where a bracket follows it. -/
structure Cut (p : Place) (run : List Token) (as : List Char) : Prop where
  stop : (p.advance as).byte = lastStop p.byte run
  close : ∀ q newline zs, ∃ run' newline', kinds run' = kinds run ∧
    scanFrom q newline (as ++ ']' :: zs) = run' ++ scanFrom (q.advance as) newline' (']' :: zs)

theorem cut_nil : Cut p [] [] := ⟨rfl, fun _ newline _ => ⟨[], newline, rfl, rfl⟩⟩

theorem Cut.gap {c : Char} {gap as bs : List Char} (hbs : bs ≠ [])
    (hgap : skipped c (gap ++ (as ++ bs)) = some gap.length) (has : as ≠ []) (hts : ts ≠ [])
    (h : Cut (p.advance (c :: gap)) ts as) : Cut p ts (c :: gap ++ as) where
  stop := by
    obtain ⟨t, ts, rfl⟩ := List.exists_cons_of_ne_nil hts
    rw [advance_append, h.stop, lastStop_cons, lastStop_cons]
  close q newline zs := by
    obtain ⟨run', newline', hkinds, hscan⟩ :=
      h.close (q.advance (c :: gap)) (newline || c = '\n') zs
    have hlength : gap.length < (gap ++ as).length := by
      have := List.length_pos_of_ne_nil has
      rw [List.length_append]
      omega
    rw [← List.append_assoc] at hgap
    have hclose : skipped c (gap ++ as ++ ']' :: zs) = some gap.length := by
      rw [skipped_close hbs (by rw [hgap]; rintro _ ⟨⟩; exact hlength), hgap]
    refine ⟨run', newline', hkinds, ?_⟩
    rw [List.cons_append, List.cons_append, scanFrom_skipped hclose, ← List.cons_append,
      advance_append, ← hscan, List.append_assoc, List.take_left, List.drop_left]

theorem Cut.token {newline : Bool} {c : Char} {more as bs : List Char} (hbs : bs ≠ [])
    (hnone : skipped c (more ++ (as ++ bs)) = none)
    (hmore : (measure c (more ++ (as ++ bs))).2 = more.length)
    (h : Cut (p.advance (c :: more)) ts as) :
    Cut p (lexeme p newline c (more ++ (as ++ bs)) :: ts) (c :: more ++ as) where
  stop := by
    have hstop : (lexeme p newline c (more ++ (as ++ bs))).span.stop =
        (p.advance (c :: more)).byte := by
      rw [lexeme, hmore, List.take_left]
    rw [advance_append, h.stop, lastStop_cons, hstop]
  close q newline' zs := by
    obtain ⟨run', newline'', hkinds, hscan⟩ := h.close (q.advance (c :: more)) false zs
    rw [← List.append_assoc] at hnone hmore
    have hclose : skipped c (more ++ as ++ ']' :: zs) = none := by
      rw [skipped_close hbs (by rw [hnone]; rintro _ ⟨⟩), hnone]
    have hmeasure : measure c (more ++ as ++ ']' :: zs) = measure c (more ++ as ++ bs) :=
      measure_close hbs (by rw [hmore, List.length_append]; exact Nat.le_add_right _ _) zs
    refine ⟨lexeme q newline' c (more ++ as ++ ']' :: zs) :: run', newline'', ?_, ?_⟩
    · have htoken : ((lexeme q newline' c (more ++ as ++ ']' :: zs)).cls,
          (lexeme q newline' c (more ++ as ++ ']' :: zs)).text) =
          ((lexeme p newline c (more ++ as ++ bs)).cls,
            (lexeme p newline c (more ++ as ++ bs)).text) := by
        rw [lexeme, lexeme, hmeasure, hmore, List.append_assoc, List.append_assoc, List.take_left,
          List.take_left]
      rw [← List.append_assoc]
      exact congrArg₂ List.cons htoken hkinds
    · rw [← advance_append] at hscan
      rw [List.cons_append, List.cons_append, scanFrom_lexeme hclose, hmeasure, hmore,
        List.append_assoc, List.take_left, List.drop_left, hscan]
      rfl

theorem exists_of_drop {as bs : List Char} {k : Nat} (h : cs.drop k = as ++ bs) (hbs : bs ≠ []) :
    ∃ gap, cs = gap ++ (as ++ bs) ∧ k = gap.length := by
  have hlength : k ≤ cs.length := by
    by_contra hlt
    rw [List.drop_eq_nil_of_le (Nat.le_of_not_le hlt)] at h
    exact hbs (List.append_eq_nil_iff.1 h.symm).2
  exact ⟨cs.take k, by rw [← h, List.take_append_drop], (List.length_take_of_le hlength).symm⟩

theorem length_drop_lt {c : Char} {k n : Nat} (hn : (c :: cs).length = n) :
    (cs.drop k).length < n := by
  rw [← hn, List.length_drop, List.length_cons]
  omega

/-- The text that a run of tokens is cut from. -/
theorem scanFrom_close {newline : Bool} {run : List Token}
    (h : scanFrom p newline cs = run ++ t :: ts) :
    ∃ as bs, cs = as ++ bs ∧ bs ≠ [] ∧ (run ≠ [] → as ≠ []) ∧ Cut p run as := by
  induction hn : cs.length using Nat.strongRecOn generalizing p newline cs run with
  | ind n ih =>
  cases cs with
  | nil => simp [scanFrom_nil] at h
  | cons c cs =>
    cases run with
    | nil => exact ⟨[], c :: cs, rfl, List.cons_ne_nil _ _, absurd rfl, cut_nil⟩
    | cons u run =>
      cases hskipped : skipped c cs with
      | some k =>
        rw [scanFrom_skipped hskipped] at h
        obtain ⟨as, bs, hcs, hbs, has, hcut⟩ := ih _ (length_drop_lt hn) h rfl
        have has := has (List.cons_ne_nil _ _)
        obtain ⟨gap, rfl, rfl⟩ := exists_of_drop hcs hbs
        rw [List.take_left] at hcut
        exact ⟨c :: gap ++ as, bs, by simp, hbs, by simp,
          .gap hbs hskipped has (List.cons_ne_nil _ _) hcut⟩
      | none =>
        rw [scanFrom_lexeme hskipped] at h
        obtain ⟨rfl, hrest⟩ := List.cons.inj h
        obtain ⟨as, bs, hcs, hbs, -, hcut⟩ := ih _ (length_drop_lt hn) hrest rfl
        obtain ⟨more, rfl, hmore⟩ := exists_of_drop hcs hbs
        rw [hmore, List.take_left] at hcut
        exact ⟨c :: more ++ as, bs, by simp, hbs, by simp, .token hbs hskipped hmore hcut⟩

/-- The token stands at the front of the text. -/
structure Front (t : Token) (cs : List Char) : Prop where
  text : t.text.toList <+: cs
  stop : t.span.stop = t.span.start + utf8Len t.text.toList
  word : t.cls = .word → IsWord t.text

theorem cls_measure {c : Char} (h : (measure c cs).1 = .word) :
    isLetter c = true ∧ (measure c cs).2 = run isWordChar cs := by
  rw [measure_eq] at h ⊢
  by_cases hletter : isLetter c = true
  · rw [if_pos hletter]
    exact ⟨hletter, rfl⟩
  rw [if_neg hletter] at h
  by_cases hhead : isNumberHead c cs = true
  · rw [if_pos hhead, number_eq, numberAs] at h
    dsimp only at h
    split at h
    · cases h
    · split at h <;> cases h
  rw [if_neg hhead] at h
  split at h
  · cases h
  split at h
  · cases h
  split at h <;> cases h

theorem front_lexeme {newline : Bool} {c : Char} : Front (lexeme p newline c cs) (c :: cs) where
  text := by
    rw [lexeme, String.toList_ofList]
    exact (List.prefix_cons_inj c).2 (List.take_prefix _ cs)
  stop := by
    rw [lexeme, String.toList_ofList]
    exact byte_advance p _
  word h := by
    obtain ⟨hletter, hrun⟩ := cls_measure h
    refine ⟨fun hempty => ?_, ?_⟩
    · have hempty := congrArg String.toList hempty
      rw [lexeme, String.toList_ofList] at hempty
      exact absurd hempty (List.cons_ne_nil _ _)
    · rw [lexeme, String.toList_ofList, hrun, run]
      refine List.forall_mem_cons.2 ⟨by simp [isWordChar, hletter], fun d hd => ?_⟩
      rw [← List.prefix_iff_eq_take.1 (List.takeWhile_prefix isWordChar)] at hd
      exact List.mem_takeWhile_imp hd

/-- Where in a text a token stands. -/
theorem scanFrom_split {newline : Bool} (h : scanFrom p newline cs = us ++ t :: ts) :
    ∃ as bs newline', cs = as ++ bs ∧ p.advance as = t.place ∧ Front t bs ∧
      scanFrom t.place newline' bs = t :: ts := by
  induction hn : cs.length using Nat.strongRecOn generalizing p newline cs us with
  | ind n ih =>
  cases cs with
  | nil => simp [scanFrom_nil] at h
  | cons c cs =>
    have hrest {k : Nat} {newline' : Bool} {us : List Token}
        (h : scanFrom (p.advance (c :: cs.take k)) newline' (cs.drop k) = us ++ t :: ts) :
        ∃ as bs newline', c :: cs = as ++ bs ∧ p.advance as = t.place ∧ Front t bs ∧
          scanFrom t.place newline' bs = t :: ts := by
      obtain ⟨as, bs, newline'', hcs, hplace, hfront, hscan⟩ :=
        ih _ (length_drop_lt hn) h rfl
      refine ⟨c :: cs.take k ++ as, bs, newline'', ?_, ?_, hfront, hscan⟩
      · rw [List.append_assoc, ← hcs, List.cons_append, List.take_append_drop]
      · rw [advance_append, hplace]
    cases hskipped : skipped c cs with
    | some k =>
      rw [scanFrom_skipped hskipped] at h
      exact hrest h
    | none =>
      cases us with
      | nil =>
        have hscan : scanFrom p newline (c :: cs) = _ := scanFrom_lexeme hskipped
        obtain ⟨rfl, _⟩ := List.cons.inj (hscan.symm.trans h)
        exact ⟨[], c :: cs, newline, rfl, rfl, front_lexeme, h⟩
      | cons u us =>
        rw [scanFrom_lexeme hskipped] at h
        exact hrest (List.cons.inj h).2

end

/-! ## Texts -/

theorem scanFrom_bracket (p : Place) (newline : Bool) (zs : List Char) : ∃ t rest,
    scanFrom p newline (']' :: zs) = t :: rest ∧ t.is "]" = true ∧ t.span.start = p.byte := by
  have hmark : longMarks.find? (·.isPrefixOf ([] ++ ']' :: zs)) = none := by
    rw [find?_close [] (by decide) (by decide)]
    rfl
  have hmeasure : measure ']' zs = (.mark, 0) := by
    have hletter : isLetter ']' = false := rfl
    have hnumber : isNumberHead ']' zs = false := rfl
    rw [measure_eq, hletter, hnumber, ← List.nil_append (']' :: zs), hmark]
    rfl
  exact ⟨_, _, scanFrom_lexeme rfl, by simp [lexeme, hmeasure]; rfl, rfl⟩

theorem bracketed_nil : Bracketed [] := fun zs => by
  obtain ⟨t, rest, hscan, ht, hstart⟩ := scanFrom_bracket {} false zs
  exact ⟨[], t, rest, hscan, rfl, ht, hstart⟩

/-- A byte order mark at the start of a text is no token. -/
theorem exists_scan_eq (source : String) : ∃ lead cs p, source.toList = lead ++ cs ∧
    p.byte = utf8Len lead ∧ scan source = scanFrom p false cs := by
  unfold scan
  split
  · next cs hcs => exact ⟨['\uFEFF'], cs, _, hcs, byte_step {} _, rfl⟩
  · exact ⟨[], source.toList, {}, rfl, rfl, rfl⟩

section
variable {source : String} {t : Token} {us ts : List Token}

/-- Where in a source text a token stands. -/
theorem scan_split (h : scan source = us ++ t :: ts) : ∃ as bs newline,
    source.toList = as ++ bs ∧ utf8Len as = t.span.start ∧ Front t bs ∧
      scanFrom t.place newline bs = t :: ts := by
  obtain ⟨lead, cs, p, hcs, hp, hscan⟩ := exists_scan_eq source
  obtain ⟨as, bs, newline, rfl, hplace, hfront, hrest⟩ := scanFrom_split (hscan.symm.trans h)
  refine ⟨lead ++ as, bs, newline, by rw [hcs, List.append_assoc], ?_, hfront, hrest⟩
  have hbyte : (p.advance as).byte = t.span.start := congrArg Place.byte hplace
  rw [String.utf8Len_append, ← hp, ← byte_advance, hbyte]

theorem extract_eq_ofList {as bs cs : List Char} (h : source.toList = as ++ bs ++ cs) :
    String.Pos.Raw.extract source ⟨utf8Len as⟩ ⟨utf8Len as + utf8Len bs⟩ = String.ofList bs := by
  rw [← String.ofList_toList (s := source), h, String.extract_of_valid]

theorem isWord_of_mem_scan (ht : t ∈ scan source) (hword : t.cls = .word) : IsWord t.text := by
  obtain ⟨us, ts, h⟩ := List.append_of_mem ht
  obtain ⟨_, _, _, _, _, hfront, _⟩ := scan_split h
  exact hfront.word hword

theorem extract_of_mem_scan (ht : t ∈ scan source) :
    String.Pos.Raw.extract source ⟨t.span.start⟩ ⟨t.span.stop⟩ = t.text := by
  obtain ⟨us, ts, h⟩ := List.append_of_mem ht
  obtain ⟨as, bs, _, hsource, has, hfront, _⟩ := scan_split h
  obtain ⟨cs, hcs⟩ := hfront.text
  rw [← hcs, ← List.append_assoc] at hsource
  rw [hfront.stop, ← has, extract_eq_ofList hsource, String.ofList_toList]

theorem plain_of_mem_scan (ht : t ∈ scan source) : t.Plain := by
  intro hword
  have hne {c : Char} {s : String} (hs : s.toList = [c]) (hc : isWordChar c = false) :
      t.text ≠ s := by
    rintro rfl
    have hchar := (isWord_of_mem_scan ht hword).2 c (by simp [hs])
    exact absurd (hc.symm.trans hchar) nofun
  exact ⟨hne rfl rfl, hne rfl rfl⟩

/-- What stands in brackets in a source text. -/
theorem bracketed_of_enclosed {span : Span} (h : Enclosed (scan source) span) : ∃ as, as ≠ [] ∧
    Bracketed as ∧
      String.Pos.Raw.extract source ⟨span.start⟩ ⟨span.stop⟩ = String.ofList as := by
  obtain ⟨run, t, ⟨first, last, hfirst, hlast, hspan⟩, hrun, ht, us, ts, h⟩ := h
  obtain ⟨rest, rfl⟩ := List.head?_eq_some_iff.1 hfirst
  have h : scan source = us ++ first :: (rest ++ t :: ts) := by rw [← h]; simp
  obtain ⟨lead, bs, newline, hsource, hlead, -, hscan⟩ := scan_split h
  rw [← List.cons_append] at hscan
  obtain ⟨as, cs, rfl, -, has, hcut⟩ := scanFrom_close hscan
  refine ⟨as, has (List.cons_ne_nil _ _), fun zs => ?_, ?_⟩
  · obtain ⟨run', newline', hkinds, hclose⟩ := hcut.close {} false zs
    obtain ⟨t', rest', hbracket, ht', hstart⟩ := scanFrom_bracket (Place.advance {} as) newline' zs
    refine ⟨run', t', rest', by rw [hclose, hbracket], ?_, ht', ?_⟩
    · rwa [Balanced, depth_congr hkinds]
    · rw [hstart, byte_advance]
      exact Nat.zero_add _
  · have hstop : last.span.stop = first.span.start + utf8Len as := by
      have hcover := hcut.stop
      rw [byte_advance, lastStop, hlast] at hcover
      exact hcover.symm
    rw [← List.append_assoc] at hsource
    rw [hspan, hstop]
    show String.Pos.Raw.extract source ⟨first.span.start⟩ ⟨first.span.start + utf8Len as⟩ = _
    rw [← hlead, extract_eq_ofList hsource]

end

end
end RouteCheck.Token
