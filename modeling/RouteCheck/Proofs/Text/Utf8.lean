import RouteCheck.Text.Utf8
import Mathlib.Algebra.Order.Group.Nat

/-!
Decoding UTF-8 is the inverse of encoding.

A character is encoded by a first octet, which tells how many octets follow, and by octets of six
bits each. The first octet and the range of the second one leave out what is too long, the codes of
surrogates and those above the last code point, so that what is left is the encoding of a character.

Main statements:
  1. `tails_continuation`, `of_tails`: the octets that follow a first one, by induction on how many
     they are.
  2. `next_eq_some_iff`: one character.
  3. `decode?_eq_some_iff`: the octets that encode a text.
-/

namespace RouteCheck.Text.Utf8

/-- The last `n` groups of six bits of a code, as octets that follow a first one. -/
def continuation : Nat → Nat → Octets
  | 0, _ => []
  | n + 1, v => UInt8.ofNat (v / 64 ^ n % 64 + 0x80) :: continuation n v

/-- The first of the octets that follow lies between the bounds, if any octet follows. -/
def Ranged (low high n v : Nat) : Prop :=
  n ≠ 0 → low ≤ v / 64 ^ (n - 1) % 64 + 0x80 ∧ v / 64 ^ (n - 1) % 64 + 0x80 ≤ high

section
variable {low high code n v : Nat} {b : UInt8} {bs rest : Octets} {c : Char}

theorem div_pow_succ (v n : Nat) : v / 64 ^ (n + 1) = v / 64 ^ n / 64 := by
  rw [pow_succ, Nat.div_div_eq_div_mul]

theorem ranged_all (n v : Nat) : Ranged 0x80 0xBF n v := by
  intro _
  have := Nat.mod_lt (v / 64 ^ (n - 1)) (show 0 < 64 by decide)
  omega

/-- The octets that follow are read back. -/
theorem tails_continuation (rest : Octets) (h : Ranged low high n v) :
    tails low high (v / 64 ^ n) n (continuation n v ++ rest) = (some v, rest) := by
  induction n generalizing low high with
  | zero => simp [tails, continuation]
  | succ n ih =>
    have hbit := Nat.mod_lt (v / 64 ^ n) (show 0 < 64 by decide)
    have hoctet : (UInt8.ofNat (v / 64 ^ n % 64 + 0x80)).toNat = v / 64 ^ n % 64 + 0x80 := by
      rw [UInt8.toNat_ofNat']
      omega
    obtain ⟨hlow, hhigh⟩ := h (Nat.succ_ne_zero n)
    rw [Nat.add_sub_cancel] at hlow hhigh
    rw [continuation, List.cons_append, tails, hoctet, if_pos (by simp [hlow, hhigh]),
      Nat.add_sub_cancel, div_pow_succ, Nat.div_add_mod']
    exact ih (ranged_all n v)

/-- What is read from the octets that follow has them. -/
theorem of_tails (hlow : 0x80 ≤ low) (hhigh : high ≤ 0xBF)
    (h : tails low high code n bs = (some v, rest)) :
    bs = continuation n v ++ rest ∧ v / 64 ^ n = code ∧ Ranged low high n v := by
  induction n generalizing low high code bs with
  | zero =>
    obtain ⟨hv, rfl⟩ := Prod.mk.inj h
    obtain rfl := Option.some.inj hv
    exact ⟨rfl, by simp, fun hn => absurd rfl hn⟩
  | succ n ih =>
    cases bs with
    | nil => cases h
    | cons b bs =>
      rw [tails] at h
      split at h
      · next hb =>
        obtain ⟨hb, hb'⟩ : low ≤ b.toNat ∧ b.toNat ≤ high := by simpa using hb
        obtain ⟨rfl, hv, -⟩ := ih (Nat.le_refl _) (Nat.le_refl _) h
        have hbit : v / 64 ^ n % 64 + 0x80 = b.toNat := by omega
        refine ⟨?_, by rw [div_pow_succ]; omega, fun _ => ?_⟩
        · rw [continuation, hbit, UInt8.ofNat_toNat, List.cons_append]
        · rw [Nat.add_sub_cancel]
          omega
      · cases h

/-! ## First octets -/

/-- The octet is the first one of a character with this code. -/
structure Begins (b : Nat) (l : Lead) (v : Nat) : Prop where
  lead : lead? b = some l
  bits : v / 64 ^ l.more = l.bits
  ranged : Ranged l.low l.high l.more v

theorem bounds_of_lead? {b : Nat} {l : Lead} (h : lead? b = some l) :
    0x80 ≤ l.low ∧ l.high ≤ 0xBF := by
  unfold lead? at h
  split_ifs at h <;> obtain rfl := Option.some.inj h <;> exact ⟨by simp, by simp⟩

theorem toNat_ofNat {v : Nat} (h : v.isValidChar) : (Char.ofNat v).toNat = v := by
  rw [Char.ofNat, dif_pos h]
  rfl

/-- A first octet leaves out what is too long, the surrogates and what lies above the last code
point: the codes that it begins are those of characters. -/
theorem isValidChar_of_begins {b : Nat} {l : Lead} {v : Nat} (h : Begins b l v) :
    v.isValidChar := by
  obtain ⟨hl, hbits, hranged⟩ := h
  unfold Ranged at hranged
  unfold Nat.isValidChar
  unfold lead? at hl
  split_ifs at hl <;> obtain rfl := Option.some.inj hl <;> simp at hbits hranged <;> omega

theorem next_eq_some_iff_begins :
    next b bs = (some c, rest) ↔
      ∃ l, Begins b.toNat l c.toNat ∧ bs = continuation l.more c.toNat ++ rest := by
  unfold next
  constructor
  · intro h
    split at h
    · exact nomatch h
    · next l hl =>
      obtain ⟨hcode, rfl⟩ := Prod.mk.inj h
      obtain ⟨v, hv, rfl⟩ := Option.map_eq_some_iff.1 hcode
      obtain ⟨hlow, hhigh⟩ := bounds_of_lead? hl
      obtain ⟨hbs, hbits, hranged⟩ := of_tails hlow hhigh (Prod.ext hv rfl)
      have hbegins : Begins b.toNat l v := ⟨hl, hbits, hranged⟩
      have hc : (Char.ofNat v).toNat = v := toNat_ofNat (isValidChar_of_begins hbegins)
      exact ⟨l, hc.symm ▸ hbegins, hc.symm ▸ hbs⟩
  · rintro ⟨l, ⟨hl, hbits, hranged⟩, rfl⟩
    rw [hl]
    simp only
    rw [← hbits, tails_continuation rest hranged, Option.map_some, Char.ofNat_toNat]

/-- How many octets follow tells between which bounds the code lies. -/
theorem sizes_of_begins {b : Nat} {l : Lead} {v : Nat} (h : Begins b l v) :
    (l.more = 0 ∧ v ≤ 0x7F ∧ b = v) ∨
    (l.more = 1 ∧ 0x7F < v ∧ v ≤ 0x7FF ∧ b = v / 64 + 0xC0) ∨
    (l.more = 2 ∧ 0x7FF < v ∧ v ≤ 0xFFFF ∧ b = v / 4096 + 0xE0) ∨
    (l.more = 3 ∧ 0xFFFF < v ∧ b = v / 262144 + 0xF0) := by
  obtain ⟨hl, hbits, hranged⟩ := h
  unfold Ranged at hranged
  unfold lead? at hl
  split_ifs at hl <;> obtain rfl := Option.some.inj hl <;> simp at hbits hranged ⊢ <;> omega

theorem encodeChar_eq (c : Char) :
    String.utf8EncodeChar c =
      if c.toNat ≤ 0x7F then UInt8.ofNat c.toNat :: continuation 0 c.toNat
      else if c.toNat ≤ 0x7FF then UInt8.ofNat (c.toNat / 64 + 0xC0) :: continuation 1 c.toNat
      else if c.toNat ≤ 0xFFFF then UInt8.ofNat (c.toNat / 4096 + 0xE0) :: continuation 2 c.toNat
      else UInt8.ofNat (c.toNat / 262144 + 0xF0) :: continuation 3 c.toNat := by
  have hvalid : c.toNat.isValidChar := c.valid
  unfold Nat.isValidChar at hvalid
  rw [String.utf8EncodeChar, Char.toNat_val]
  simp only [continuation, Nat.reducePow, Nat.div_one]
  split_ifs
  · rfl
  · rw [Nat.mod_eq_of_lt (by omega)]
  · rw [Nat.mod_eq_of_lt (by omega)]
  · rw [Nat.mod_eq_of_lt (by omega)]

/-- The encoding of a character is its first octet and those that continue it. -/
theorem encodeChar_of_begins {b : Nat} {l : Lead} (h : Begins b l c.toNat) :
    String.utf8EncodeChar c = UInt8.ofNat b :: continuation l.more c.toNat := by
  rw [encodeChar_eq]
  obtain ⟨hmore, hv, rfl⟩ | ⟨hmore, hv, hv', rfl⟩ | ⟨hmore, hv, hv', rfl⟩ | ⟨hmore, hv, rfl⟩ :=
    sizes_of_begins h <;> rw [hmore]
  · rw [if_pos hv]
  · rw [if_neg (by omega), if_pos hv']
  · rw [if_neg (by omega), if_neg (by omega), if_pos hv']
  · rw [if_neg (by omega), if_neg (by omega), if_neg (by omega)]

theorem exists_begins (c : Char) : ∃ b l, b < 256 ∧ Begins b l c.toNat := by
  have hvalid : c.toNat.isValidChar := c.valid
  generalize c.toNat = v at hvalid
  unfold Nat.isValidChar at hvalid
  have hsix (n : Nat) : Ranged 0x80 0xBF n v := ranged_all n v
  by_cases h1 : v ≤ 0x7F
  · exact ⟨v, ⟨0, 0x80, 0xBF, v⟩, by omega, if_pos h1, by simp, hsix 0⟩
  by_cases h2 : v ≤ 0x7FF
  · refine ⟨v / 64 + 0xC0, ⟨1, 0x80, 0xBF, v / 64⟩, by omega, ?_, by simp, hsix 1⟩
    rw [lead?, if_neg (by omega), if_neg (by omega), if_pos (by omega), Nat.add_sub_cancel]
  by_cases h3 : v ≤ 0xFFFF
  · -- the second octet is bounded from below against what is too long, from above by surrogates
    refine ⟨v / 4096 + 0xE0, ⟨2, if v / 4096 = 0 then 0xA0 else 0x80,
      if v / 4096 = 0xD then 0x9F else 0xBF, v / 4096⟩, by omega, ?_, rfl, fun _ => ?_⟩
    · grind [lead?]
    · simp only [Nat.reduceSub, pow_one]
      split_ifs <;> omega
  · refine ⟨v / 262144 + 0xF0, ⟨3, if v / 262144 = 0 then 0x90 else 0x80,
      if v / 262144 = 4 then 0x8F else 0xBF, v / 262144⟩, by omega, ?_, rfl, fun _ => ?_⟩
    · grind [lead?]
    · simp only [Nat.reduceSub, Nat.reducePow]
      split_ifs <;> omega

/-- A character that is read is the one that is encoded. -/
theorem next_eq_some_iff :
    next b bs = (some c, rest) ↔ b :: bs = String.utf8EncodeChar c ++ rest := by
  rw [next_eq_some_iff_begins]
  constructor
  · rintro ⟨l, hc, rfl⟩
    rw [encodeChar_of_begins hc, UInt8.ofNat_toNat, List.cons_append]
  · intro h
    obtain ⟨first, l, hfirst, hc⟩ := exists_begins c
    rw [encodeChar_of_begins hc, List.cons_append] at h
    obtain ⟨rfl, rfl⟩ := List.cons.inj h
    refine ⟨l, ?_, rfl⟩
    rwa [UInt8.toNat_ofNat_of_lt' hfirst]

end

/-! ## Texts -/

theorem chars_encode (cs : List Char) :
    chars (cs.flatMap String.utf8EncodeChar) = cs.map some := by
  induction cs with
  | nil => rw [List.flatMap_nil, chars, List.map_nil]
  | cons c cs ih =>
    obtain ⟨first, l, -, hc⟩ := exists_begins c
    have hnext : next (UInt8.ofNat first) (continuation l.more c.toNat ++
        cs.flatMap String.utf8EncodeChar) = (some c, cs.flatMap String.utf8EncodeChar) := by
      rw [next_eq_some_iff, encodeChar_of_begins hc, List.cons_append]
    rw [List.flatMap_cons, encodeChar_of_begins hc, List.cons_append, chars, hnext, ih,
      List.map_cons]

theorem eq_of_chars {bs : Octets} {cs : List Char} (h : chars bs = cs.map some) :
    bs = cs.flatMap String.utf8EncodeChar := by
  induction cs generalizing bs with
  | nil =>
    cases bs with
    | nil => rfl
    | cons b bs => rw [chars] at h; cases h
  | cons c cs ih =>
    cases bs with
    | nil => rw [chars] at h; cases h
    | cons b bs =>
      rw [chars, List.map_cons] at h
      obtain ⟨hc, hcs⟩ := List.cons.inj h
      rw [List.flatMap_cons, ← ih hcs, ← next_eq_some_iff, ← hc]

theorem mapM_id_eq_some_iff {α : Type*} {xs : List (Option α)} {ys : List α} :
    xs.mapM id = some ys ↔ xs = ys.map some := by
  induction xs generalizing ys with
  | nil => cases ys <;> simp
  | cons x xs ih =>
    cases x with
    | none => cases ys <;> simp
    | some x =>
      simp only [List.mapM_cons, id_eq, Option.bind_eq_bind, Option.bind_some,
        Option.pure_def, Option.bind_eq_some_iff, Option.some.injEq, ih]
      cases ys with
      | nil => simp
      | cons y ys => simp [and_left_comm]

/-- Octets decode to a text exactly when they are its encoding. -/
theorem decode?_eq_some_iff {bs : Octets} {s : String} : decode? bs = some s ↔ bs = encode s := by
  rw [decode?, Option.map_eq_some_iff]
  constructor
  · rintro ⟨cs, hcs, rfl⟩
    rw [encode, String.toList_ofList]
    exact eq_of_chars (mapM_id_eq_some_iff.1 hcs)
  · rintro rfl
    exact ⟨s.toList, mapM_id_eq_some_iff.2 (chars_encode s.toList), String.ofList_toList⟩

end RouteCheck.Text.Utf8
