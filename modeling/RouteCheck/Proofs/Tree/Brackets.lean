import RouteCheck.Tree.Token
import Mathlib.Data.String.Basic

/-!
Words, and texts that stand in brackets.

A run of tokens in which brackets match ends where the bracket around it closes
(`Token.balanced_inj`). So a text of such a run can be told from what follows it.
-/

namespace RouteCheck.Token
open String (utf8Len)

/-! ## Brackets -/

/-- How many brackets are open after the token; a bracket that closes has to be open. -/
def deepen (d : Nat) (t : Token) : Option Nat :=
  if t.is "[" then some (d + 1)
  else if t.is "]" then (if d = 0 then none else some (d - 1))
  else some d

/-- How many brackets are open after the tokens. -/
def depth (d : Nat) (ts : List Token) : Option Nat := ts.foldlM deepen d

def Balanced (ts : List Token) : Prop := depth 0 ts = some 0

def Plain (t : Token) : Prop := t.cls = .word → t.text ≠ "[" ∧ t.text ≠ "]"

section
variable {t u : Token} {ts us vs ws : List Token} {d e k : Nat} {w : String}

theorem depth_cons : depth d (t :: ts) = (deepen d t).bind fun e => depth e ts := rfl

theorem depth_append (h : depth d ts = some e) : depth d (ts ++ us) = depth e us := by
  unfold depth at h ⊢
  rw [List.foldlM_append, h]
  rfl

theorem text_of_is (h : t.is w = true) : t.text = w := by
  simpa using (Bool.and_eq_true_iff.1 h).2

theorem deepen_open (h : t.is "[" = true) : deepen d t = some (d + 1) := by simp [deepen, h]

theorem deepen_close (h : t.is "]" = true) : deepen (d + 1) t = some d := by
  have hopen : t.is "[" = false := by simp [is, text_of_is h]
  simp [deepen, h, hopen]

theorem deepen_close_zero (h : t.is "]" = true) : deepen 0 t = none := by
  have hopen : t.is "[" = false := by simp [is, text_of_is h]
  simp [deepen, h, hopen]

theorem deepen_of_text (h : t.text ≠ "[" ∧ t.text ≠ "]") : deepen d t = some d := by
  simp [deepen, is, h.1, h.2]

theorem deepen_of_cls (h : t.cls ≠ .word) (hmark : t.cls ≠ .mark) : deepen d t = some d := by
  simp [deepen, is, h, hmark]

theorem deepen_add (h : deepen d t = some e) : deepen (d + k) t = some (e + k) := by
  by_cases hopen : t.is "[" = true
  · rw [deepen_open hopen] at h ⊢
    obtain rfl := Option.some.inj h
    rw [Nat.add_right_comm]
  · by_cases hclose : t.is "]" = true
    · cases d with
      | zero => exact absurd (h.symm.trans (deepen_close_zero hclose)) nofun
      | succ d =>
        obtain rfl := Option.some.inj ((deepen_close hclose).symm.trans h)
        rw [Nat.add_right_comm, deepen_close hclose]
    · simp only [deepen, hopen, hclose] at h ⊢
      obtain rfl := Option.some.inj h
      rfl

theorem depth_add (h : depth d ts = some e) : depth (d + k) ts = some (e + k) := by
  induction ts generalizing d with
  | nil =>
    obtain rfl : d = e := Option.some.inj h
    rfl
  | cons t ts ih =>
    rw [depth_cons] at h ⊢
    obtain ⟨c, hc, h⟩ := Option.bind_eq_some_iff.1 h
    rw [deepen_add hc]
    exact ih h

theorem not_balanced_append_close (hts : Balanced ts) (ht : t.is "]" = true) :
    ¬Balanced (ts ++ t :: us) := by
  intro h
  rw [Balanced, depth_append hts, depth_cons, deepen_close_zero ht] at h
  exact nomatch h

/-- A run in which brackets match ends where the bracket around it closes. -/
theorem balanced_inj (hts : Balanced ts) (hus : Balanced us) (ht : t.is "]" = true)
    (hu : u.is "]" = true) (h : ts ++ t :: vs = us ++ u :: ws) : ts = us ∧ t = u := by
  rcases List.append_eq_append_iff.1 h with ⟨as, rfl, has⟩ | ⟨as, rfl, has⟩
  · cases as with
    | nil => exact ⟨(List.append_nil ts).symm, (List.cons.inj has).1⟩
    | cons a as =>
      obtain rfl := (List.cons.inj has).1
      exact absurd hus (not_balanced_append_close hts ht)
  · cases as with
    | nil => exact ⟨List.append_nil us, (List.cons.inj has).1.symm⟩
    | cons a as =>
      obtain rfl := (List.cons.inj has).1
      exact absurd hts (not_balanced_append_close hus hu)

end

/-! ## Texts -/

def IsWord (s : String) : Prop := s ≠ "" ∧ ∀ c ∈ s.toList, isWordChar c = true

/-- What stands in brackets: whatever comes behind the bracket that closes, it closes at the end of
the text. -/
def Bracketed (as : List Char) : Prop :=
  ∀ zs, ∃ run t rest, scanFrom {} false (as ++ ']' :: zs) = run ++ t :: rest ∧ Balanced run ∧
    t.is "]" = true ∧ t.span.start = utf8Len as

theorem eq_of_utf8Len_eq {as bs cs : List Char} (h : bs = as ++ cs)
    (hlength : utf8Len as = utf8Len bs) : as = bs := by
  rw [h, String.utf8Len_append] at hlength
  have hcs : cs = [] := String.utf8Len_eq_zero.1 (by omega)
  rw [h, hcs, List.append_nil]

/-- What stands in brackets can be told from what follows it. -/
theorem bracketed_inj {as bs xs ys : List Char} (has : Bracketed as) (hbs : Bracketed bs)
    (h : as ++ ']' :: xs = bs ++ ']' :: ys) : as = bs ∧ xs = ys := by
  obtain ⟨run, t, _, hscan, hrun, ht, hstart⟩ := has xs
  obtain ⟨run', t', _, hscan', hrun', ht', hstart'⟩ := hbs ys
  have hsame := hscan.symm.trans ((congrArg _ h).trans hscan')
  have hlength : utf8Len as = utf8Len bs := by
    rw [← hstart, ← hstart', (balanced_inj hrun hrun' ht ht' hsame).2]
  have heq : as = bs := by
    rcases List.append_eq_append_iff.1 h with ⟨ds, hds, -⟩ | ⟨ds, hds, -⟩
    · exact eq_of_utf8Len_eq hds hlength
    · exact (eq_of_utf8Len_eq hds hlength.symm).symm
  subst heq
  exact ⟨rfl, (List.cons.inj (List.append_cancel_left h)).2⟩

end RouteCheck.Token
