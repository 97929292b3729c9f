import RouteCheck.Text.Base64
import Mathlib.Data.UInt

/-!
Decoding base64 is the inverse of encoding.

Four characters of the alphabet hold the twenty-four bits of three octets. A last group with one or
two octets leaves bits of its last character unused; they are zero where encoding writes them and
have to be zero where decoding reads them, so that no two texts decode to the same octets.

Main statements:
  1. `value?_digit`, `value?_eq_some`: the alphabet has one character for each value.
  2. `decodeChars?_encodeChars`, `eq_encodeChars_of_decodeChars?`: group by group.
  3. `decode?_eq_some_iff`: a text decodes to octets exactly when it is what they encode to.
  4. `isVisible_of_mem_encode`: encodings are written in visible characters of ASCII.
-/

namespace RouteCheck.Text.Base64

/-! ## The alphabet -/

theorem value?_digit {v : Nat} (h : v < 64) : value? (digit v) = some v := by
  decide +revert

theorem digit_ne_pad {v : Nat} (h : v < 64) : digit v ≠ '=' := by
  decide +revert

theorem value?_eq_some {c : Char} {v : Nat} (h : value? c = some v) : v < 64 ∧ digit v = c := by
  have htable : ∀ n < 128, ∀ v ∈ value? (Char.ofNat n), v < 64 ∧ digit v = Char.ofNat n := by
    decide
  have hascii : c.toNat < 128 := by
    have hle (d : Char) : (c ≤ d) = (c.toNat ≤ d.toNat) := rfl
    unfold value? at h
    simp only [hle, Bool.and_eq_true, decide_eq_true_eq] at h
    split_ifs at h with h1 h2 h3 h4 h5
    · exact Nat.lt_of_le_of_lt h1.2 (by decide)
    · exact Nat.lt_of_le_of_lt h2.2 (by decide)
    · exact Nat.lt_of_le_of_lt h3.2 (by decide)
    · exact h4 ▸ (by decide)
    · exact h5 ▸ (by decide)
  rw [← Char.ofNat_toNat c] at h ⊢
  exact htable c.toNat hascii v h

/-! ## Groups -/

theorem ofNat_eq_of_eq_toNat {n : Nat} {a : UInt8} (h : n = a.toNat) : UInt8.ofNat n = a := by
  rw [h, UInt8.ofNat_toNat]

theorem toNat_ofNat_of_lt {n : Nat} (h : n < 256) : (UInt8.ofNat n).toNat = n :=
  UInt8.toNat_ofNat_of_lt' h

theorem decodeChars?_encodeChars (bs : Octets) : decodeChars? (encodeChars bs) = some bs := by
  fun_induction encodeChars bs with
  | case1 => rw [decodeChars?]
  | case2 a =>
    have ha := a.toNat_lt
    rw [decodeChars?, value?_digit (by omega), value?_digit (by omega)]
    simp only [Option.bind_eq_bind, Option.bind_some]
    rw [if_pos (by omega), ofNat_eq_of_eq_toNat (a := a) (by omega)]
    rfl
  | case3 a b =>
    have ha := a.toNat_lt
    have hb := b.toNat_lt
    rw [decodeChars?, value?_digit (by omega), value?_digit (by omega), value?_digit (by omega)]
    · simp only [Option.bind_eq_bind, Option.bind_some]
      rw [if_pos (by omega), ofNat_eq_of_eq_toNat (a := a) (by omega),
        ofNat_eq_of_eq_toNat (a := b) (by omega)]
      rfl
    · exact fun hpad => absurd hpad (digit_ne_pad (by omega))
  | case4 a b c rest ih =>
    have ha := a.toNat_lt
    have hb := b.toNat_lt
    have hc := c.toNat_lt
    rw [decodeChars?, value?_digit (by omega), value?_digit (by omega), value?_digit (by omega),
      value?_digit (by omega), ih]
    · simp only [Option.bind_eq_bind, Option.bind_some]
      rw [ofNat_eq_of_eq_toNat (a := a) (by omega), ofNat_eq_of_eq_toNat (a := b) (by omega),
        ofNat_eq_of_eq_toNat (a := c) (by omega)]
      rfl
    · exact fun _ hpad => absurd hpad (digit_ne_pad (by omega))
    · exact fun hpad => absurd hpad (digit_ne_pad (by omega))

theorem eq_encodeChars_of_decodeChars? {cs : List Char} {bs : Octets}
    (h : decodeChars? cs = some bs) : cs = encodeChars bs := by
  fun_induction decodeChars? cs generalizing bs with
  | case1 =>
    obtain rfl := Option.some.inj h
    rfl
  | case2 a b =>
    simp only [Option.bind_eq_bind, Option.bind_eq_some_iff] at h
    obtain ⟨x, ha, y, hb, hbs⟩ := h
    obtain ⟨hx, rfl⟩ := value?_eq_some ha
    obtain ⟨hy, rfl⟩ := value?_eq_some hb
    split_ifs at hbs with hunused
    obtain rfl := Option.some.inj hbs
    have h1 : (x * 4 + y / 16) / 4 = x := by omega
    have h2 : (x * 4 + y / 16) % 4 * 16 = y := by omega
    rw [encodeChars, toNat_ofNat_of_lt (by omega), h1, h2]
  | case3 a b c =>
    simp only [Option.bind_eq_bind, Option.bind_eq_some_iff] at h
    obtain ⟨x, ha, y, hb, z, hc, hbs⟩ := h
    obtain ⟨hx, rfl⟩ := value?_eq_some ha
    obtain ⟨hy, rfl⟩ := value?_eq_some hb
    obtain ⟨hz, rfl⟩ := value?_eq_some hc
    split_ifs at hbs with hunused
    obtain rfl := Option.some.inj hbs
    have h1 : (x * 4 + y / 16) / 4 = x := by omega
    have h2 : (x * 4 + y / 16) % 4 * 16 + (y % 16 * 16 + z / 4) / 16 = y := by omega
    have h3 : (y % 16 * 16 + z / 4) % 16 * 4 = z := by omega
    rw [encodeChars, toNat_ofNat_of_lt (by omega), toNat_ofNat_of_lt (by omega), h1, h2, h3]
  | case4 a b c d rest hpad hpad' ih =>
    simp only [Option.bind_eq_bind, Option.bind_eq_some_iff] at h
    obtain ⟨x, ha, y, hb, z, hc, w, hd, more, hmore, hbs⟩ := h
    obtain ⟨hx, rfl⟩ := value?_eq_some ha
    obtain ⟨hy, rfl⟩ := value?_eq_some hb
    obtain ⟨hz, rfl⟩ := value?_eq_some hc
    obtain ⟨hw, rfl⟩ := value?_eq_some hd
    obtain rfl := ih hmore
    obtain rfl := Option.some.inj hbs
    have h1 : (x * 4 + y / 16) / 4 = x := by omega
    have h2 : (x * 4 + y / 16) % 4 * 16 + (y % 16 * 16 + z / 4) / 16 = y := by omega
    have h3 : (y % 16 * 16 + z / 4) % 16 * 4 + (z % 4 * 64 + w) / 64 = z := by omega
    have h4 : (z % 4 * 64 + w) % 64 = w := by omega
    rw [encodeChars, toNat_ofNat_of_lt (by omega), toNat_ofNat_of_lt (by omega),
      toNat_ofNat_of_lt (by omega), h1, h2, h3, h4]
  | case5 => exact nomatch h

/-- A text decodes to octets exactly when it is their encoding. -/
theorem decode?_eq_some_iff {s : String} {bs : Octets} : decode? s = some bs ↔ s = encode bs := by
  rw [decode?, encode, ← String.toList_inj, String.toList_ofList]
  exact ⟨eq_encodeChars_of_decodeChars?, fun h => h ▸ decodeChars?_encodeChars bs⟩

/-! ## What encodings are written in -/

/-- A character of ASCII that is seen: no control character and no space. -/
def IsVisible (c : Char) : Prop := 0x20 < c.toNat ∧ c.toNat < 0x7F

instance : DecidablePred IsVisible := fun _ => inferInstanceAs (Decidable (_ ∧ _))

theorem isVisible_digit {v : Nat} (h : v < 64) : IsVisible (digit v) := by
  decide +revert

theorem isVisible_of_mem_encodeChars {bs : Octets} : ∀ c ∈ encodeChars bs, IsVisible c := by
  have hpad : IsVisible '=' := by decide
  fun_induction encodeChars bs with
  | case1 => exact nofun
  | case2 a =>
    have ha := a.toNat_lt
    simp only [List.forall_mem_cons]
    exact ⟨isVisible_digit (by omega), isVisible_digit (by omega), hpad, hpad, nofun⟩
  | case3 a b =>
    have ha := a.toNat_lt
    have hb := b.toNat_lt
    simp only [List.forall_mem_cons]
    exact ⟨isVisible_digit (by omega), isVisible_digit (by omega), isVisible_digit (by omega),
      hpad, nofun⟩
  | case4 a b c rest ih =>
    have ha := a.toNat_lt
    have hb := b.toNat_lt
    have hc := c.toNat_lt
    simp only [List.forall_mem_cons]
    exact ⟨isVisible_digit (by omega), isVisible_digit (by omega), isVisible_digit (by omega),
      isVisible_digit (by omega), ih⟩

theorem isVisible_of_mem_encode {bs : Octets} {c : Char} (h : c ∈ (encode bs).toList) :
    IsVisible c := by
  rw [encode, String.toList_ofList] at h
  exact isVisible_of_mem_encodeChars c h

end RouteCheck.Text.Base64
