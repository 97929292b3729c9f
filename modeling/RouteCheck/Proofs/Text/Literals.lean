import RouteCheck.Text.Utf8
import RouteCheck.Tree.Literal

/-!
String literals and the octets they stand for.

A `Spelled` literal is a text that the grammar of string literals derives: a raw one, or characters
and escapes between double quotes. Its value is a string of octets, to which `\x` and octal escapes
give one octet each and everything else the encoding of a character. Reading a literal gives every
escape a character, and so an octet above ASCII becomes a character of two octets.

Main statements:
  1. `nat?_digits`: the number that digits write.
  2. `unescape?_append`, `unescape?_spelling`: one item, and a body of items.
  3. `value?_text`: reading never fails on a literal that the grammar derives.
  4. `Text.Utf8.encode_injective`, `encode_content_eq_iff`: what is read has the octets of the
     literal just where no escape writes an octet above ASCII.
  5. `value?_spelled`: the text that is read is the one that has these octets.
-/

namespace RouteCheck

/-! ## Octets -/

namespace Text.Utf8

theorem utf8Encode_eq (s : String) : s.toList.utf8Encode = (encode s).toByteArray := rfl

/-- No two texts have the same octets. -/
theorem encode_injective {s w : String} (h : encode s = encode w) : s = w := by
  have hchars : s.toList.toArray = w.toList.toArray := by
    have hs := List.utf8Decode?_utf8Encode (l := s.toList)
    rw [utf8Encode_eq, h, ← utf8Encode_eq, List.utf8Decode?_utf8Encode] at hs
    exact (Option.some.inj hs).symm
  exact String.toList_inj.1 (List.toArray_inj hchars)

@[simp] theorem encode_ofList (cs : List Char) :
    encode (String.ofList cs) = cs.flatMap String.utf8EncodeChar := by
  rw [encode, String.toList_ofList]

end Text.Utf8

namespace Literal
open Text.Integer

/-! ## Numbers -/

/-- A digit of a radix, in lower or upper case. -/
abbrev Digit (radix : Nat) := { c : Char // (digit? radix c).isSome = true }

section
variable {radix hi acc : Nat}

def Digit.value (d : Digit radix) : Nat := (digit? radix d.1).get d.2

/-- The number that goes on from `acc` by the digits. -/
def numberFrom (acc : Nat) (ds : List (Digit radix)) : Nat :=
  ds.foldl (fun n d => n * radix + d.value) acc

def number (ds : List (Digit radix)) : Nat := numberFrom 0 ds

theorem Digit.digit?_eq (d : Digit radix) : digit? radix d.1 = some d.value :=
  (Option.some_get d.2).symm

theorem Digit.value_lt (d : Digit radix) : d.value < radix := by
  have h := d.digit?_eq
  rw [digit?] at h
  simpa using (Option.filter_eq_some_iff.1 h).2

theorem Digit.ne_of_not_digit (d : Digit radix) {c : Char} (h : digit? radix c = none) :
    d.1 ≠ c := by
  rintro rfl
  exact Option.some_ne_none _ (d.digit?_eq.symm.trans h)

theorem le_numberFrom (hradix : 0 < radix) (ds : List (Digit radix)) :
    acc ≤ numberFrom acc ds := by
  induction ds generalizing acc with
  | nil => exact Nat.le_refl _
  | cons d ds ih =>
    have hstep : acc ≤ acc * radix + d.value :=
      Nat.le_trans (Nat.le_mul_of_pos_right acc hradix) (Nat.le_add_right _ _)
    exact Nat.le_trans hstep ih

theorem readUp_digits (hradix : 0 < radix) (ds : List (Digit radix))
    (h : numberFrom acc ds ≤ hi) :
    readUp radix hi acc (ds.map (·.1)) = .ok (numberFrom acc ds : Nat) := by
  induction ds generalizing acc with
  | nil => rfl
  | cons d ds ih =>
    -- the number only grows, so it is in the range at every digit
    have hstep : (acc : Int) * radix + d.value = (acc * radix + d.value : Nat) := by simp
    have hfits : ¬ ((acc * radix + d.value : Nat) : Int) > hi :=
      Int.not_lt.2 (Int.ofNat_le.2 (Nat.le_trans (le_numberFrom hradix ds) h))
    rw [List.map_cons, readUp, d.digit?_eq]
    simp only [hstep, if_neg hfits]
    exact ih h

/-- The number that digits write is read, if it is in the range. -/
theorem nat?_digits (hradix : 0 < radix) {ds : List (Digit radix)} (hds : ds ≠ [])
    (h : number ds ≤ hi) : nat? radix hi (ds.map (·.1)) = some (number ds) := by
  obtain ⟨d, ds, rfl⟩ := List.exists_cons_of_ne_nil hds
  have hplus : d.1 ≠ '+' := d.ne_of_not_digit rfl
  have hminus : d.1 ≠ '-' := d.ne_of_not_digit rfl
  have hread : Text.Integer.read radix 0 hi ((d :: ds).map (·.1)) =
      readUp radix hi (0 : Nat) ((d :: ds).map (·.1)) := by
    rw [List.map_cons, Text.Integer.read] <;> simp_all
  rw [nat?, hread, readUp_digits hradix (d :: ds) h]
  rfl

end

/-! ## The grammar -/

/-- The letters that escape one character, and the character. -/
def letters : List (Char × Char) :=
  [('a', '\x07'), ('b', '\x08'), ('f', '\x0c'), ('n', '\n'), ('r', '\r'), ('t', '\t'),
   ('v', '\x0b'), ('\\', '\\'), ('"', '"')]

/-- An item of the body of an interpreted literal. -/
inductive Item where
  /-- A character that stands for itself. -/
  | char (c : Char) (h : c ≠ '"' ∧ c ≠ '\\' ∧ c ≠ '\n')
  | letter (e c : Char) (h : (e, c) ∈ letters)
  /-- `\x` and the two digits of an octet. -/
  | hex (ds : List (Digit 16)) (h : ds.length = 2)
  /-- The three digits of an octet. -/
  | octal (ds : List (Digit 8)) (h : ds.length = 3 ∧ number ds ≤ 255)
  /-- `\u` or `\U` and the digits of a code point. -/
  | point (e : Char) (ds : List (Digit 16)) (h : (e, ds.length) = ('u', 4) ∨ (e, ds.length) = ('U', 8))
    (hpoint : (number ds).isValidChar)

namespace Item

def spelling : Item → List Char
  | char c _ => [c]
  | letter e _ _ => ['\\', e]
  | hex ds _ => '\\' :: 'x' :: ds.map (·.1)
  | octal ds _ => '\\' :: ds.map (·.1)
  | point e ds _ _ => '\\' :: e :: ds.map (·.1)

def octets : Item → Text.Octets
  | char c _ | letter _ c _ => String.utf8EncodeChar c
  | hex ds _ => [.ofNat (number ds)]
  | octal ds _ => [.ofNat (number ds)]
  | point _ ds _ _ => String.utf8EncodeChar (.ofNat (number ds))

def content : Item → Char
  | char c _ | letter _ c _ => c
  | hex ds _ => .ofNat (number ds)
  | octal ds _ => .ofNat (number ds)
  | point _ ds _ _ => .ofNat (number ds)

/-- The item is an escape of an octet above ASCII. -/
def IsHighOctet : Item → Prop
  | hex ds _ => 0x80 ≤ number ds
  | octal ds _ => 0x80 ≤ number ds
  | _ => False

instance : (i : Item) → Decidable i.IsHighOctet
  | hex ds _ => inferInstanceAs (Decidable (0x80 ≤ number ds))
  | octal ds _ => inferInstanceAs (Decidable (0x80 ≤ number ds))
  | char .. | letter .. | point .. => inferInstanceAs (Decidable False)

end Item

/-- A string literal that the grammar derives. -/
inductive Spelled where
  | raw (body : List Char) (h : '\x60' ∉ body)
  | interpreted (items : List Item)

namespace Spelled

def text : Spelled → String
  | raw body _ => String.ofList ('\x60' :: (body ++ ['\x60']))
  | interpreted items => String.ofList ('"' :: (items.flatMap Item.spelling ++ ['"']))

/-- The value of the literal. A raw one drops its carriage returns. -/
def octets : Spelled → Text.Octets
  | raw body _ => (body.filter (· != '\r')).flatMap String.utf8EncodeChar
  | interpreted items => items.flatMap Item.octets

def content : Spelled → List Char
  | raw body _ => body.filter (· != '\r')
  | interpreted items => items.map Item.content

/-- An escape of the literal writes an octet above ASCII. -/
def HasHighOctet : Spelled → Prop
  | raw _ _ => False
  | interpreted items => ∃ i ∈ items, i.IsHighOctet

instance : (l : Spelled) → Decidable l.HasHighOctet
  | raw .. => inferInstanceAs (Decidable False)
  | interpreted items => inferInstanceAs (Decidable (∃ i ∈ items, i.IsHighOctet))

end Spelled

/-! ## Reading one item -/

theorem char?_of_isValidChar {n : Nat} (h : n.isValidChar) : char? n = some (Char.ofNat n) :=
  if_pos h

theorem char?_of_octet {n : Nat} (h : n ≤ 255) : char? n = some (Char.ofNat n) :=
  char?_of_isValidChar (.inl (by omega))

theorem number_pair_le {ds : List (Digit 16)} (h : ds.length = 2) : number ds ≤ 255 := by
  match ds, h with
  | [a, b], _ =>
    have ha := a.value_lt
    have hb := b.value_lt
    show (0 * 16 + a.value) * 16 + b.value ≤ 255
    omega

/-- An octal escape begins with a digit, so that it is no other escape. -/
theorem Digit.between (d : Digit 8) : '0' ≤ d.1 ∧ d.1 ≤ '7' := by
  have h := d.digit?_eq
  have hlt := d.value_lt
  rw [digit?] at h
  obtain ⟨h, _⟩ := Option.filter_eq_some_iff.1 h
  split at h
  · next hdigit =>
    have hvalue := Option.some.inj h
    refine ⟨hdigit.1, ?_⟩
    have := hdigit.1
    simp only [Char.le_def, UInt32.le_iff_toNat_le] at this ⊢
    change d.1.toNat - 48 = _ at hvalue
    change d.1.toNat ≤ 55
    omega
  · split at h
    · have := Option.some.inj h
      omega
    · split at h
      · have := Option.some.inj h
        omega
      · cases h

theorem unescape?_plain {c : Char} (h : c ≠ '\\') (rest : List Char) :
    unescape? (c :: rest) = (unescape? rest).map (c :: ·) := by
  rw [unescape?.eq_def]
  split
  · next heq => cases heq
  · next heq => exact absurd (List.cons.inj heq).1 h
  · next heq =>
    obtain ⟨rfl, rfl⟩ := List.cons.inj heq
    exact if_neg h

theorem unescape?_letter {e c : Char} (h : (e, c) ∈ letters) (rest : List Char) :
    unescape? ('\\' :: e :: rest) = (unescape? rest).map (c :: ·) := by
  have hsimple : isNumeric e = false ∧ simple? e = some c := by
    have hall : ∀ p ∈ letters, isNumeric p.1 = false ∧ simple? p.1 = some p.2 := by decide
    exact hall _ h
  rw [unescape?, hsimple.1, hsimple.2]
  rfl

theorem unescape?_numeric {e c : Char} {digits : List Char} (h : isNumeric e = true)
    (hlength : digits.length = digitCount e) (hc : numeric? e digits = some c) (rest : List Char) :
    unescape? ('\\' :: e :: (digits ++ rest)) = (unescape? rest).map (c :: ·) := by
  rw [unescape?, if_pos h, ← hlength, List.take_left, List.drop_left, hc]

/-- Reading an item gives its character, whatever follows. -/
theorem unescape?_append (i : Item) (rest : List Char) :
    unescape? (i.spelling ++ rest) = (unescape? rest).map (i.content :: ·) := by
  cases i with
  | char c h => exact unescape?_plain h.2.1 rest
  | letter e c h => exact unescape?_letter h rest
  | hex ds h =>
    have hds : ds ≠ [] := by
      rintro rfl
      cases h
    have hle := number_pair_le h
    refine unescape?_numeric rfl (by rw [List.length_map, h]; rfl) ?_ rest
    show (nat? 16 255 (ds.map (·.1))).bind char? = _
    rw [nat?_digits (by decide) hds hle]
    exact char?_of_octet hle
  | octal ds h =>
    obtain ⟨hlength, hle⟩ := h
    match ds, hlength with
    | d :: ds, hlength =>
      have hx : d.1 ≠ 'x' := d.ne_of_not_digit rfl
      have hu : d.1 ≠ 'u' := d.ne_of_not_digit rfl
      have hU : d.1 ≠ 'U' := d.ne_of_not_digit rfl
      have hnumeric : isNumeric d.1 = true := by simp [isNumeric, d.between]
      have hcount : (ds.map (·.1)).length = digitCount d.1 := by
        simp_all [digitCount]
      refine unescape?_numeric hnumeric hcount ?_ rest
      have hread : numeric? d.1 (ds.map (·.1)) = (nat? 8 255 ((d :: ds).map (·.1))).bind char? := by
        rw [List.map_cons, numeric?] <;> assumption
      rw [hread, nat?_digits (by decide) (List.cons_ne_nil d ds) hle]
      exact char?_of_octet hle
  | point e ds h hpoint =>
    have hds : ds ≠ [] := by
      rintro rfl
      simp at h
    have hle : number ds ≤ 0xFFFFFFFF := by
      have := hpoint
      unfold Nat.isValidChar at this
      omega
    have hread : (nat? 16 0xFFFFFFFF (ds.map (·.1))).bind char? = some (.ofNat (number ds)) := by
      rw [nat?_digits (by decide) hds hle]
      exact char?_of_isValidChar hpoint
    have hescape : isNumeric e = true ∧ (ds.map (·.1)).length = digitCount e ∧
        numeric? e (ds.map (·.1)) = some (.ofNat (number ds)) := by
      rw [List.length_map]
      rcases h with h | h <;> obtain ⟨rfl, hlength⟩ := Prod.mk.inj h
      · exact ⟨rfl, hlength, hread⟩
      · exact ⟨rfl, hlength, hread⟩
    exact unescape?_numeric hescape.1 hescape.2.1 hescape.2.2 rest

/-- A body of items is read item by item. -/
theorem unescape?_spelling (items : List Item) :
    unescape? (items.flatMap Item.spelling) = some (items.map Item.content) := by
  induction items with
  | nil => rw [List.flatMap_nil, unescape?]; rfl
  | cons i items ih => rw [List.flatMap_cons, unescape?_append, ih]; rfl

/-! ## Reading a literal -/

theorem trim_quoted {q : Char} (hq : Text.isBlank q = false) (body : List Char) :
    (Text.trim (String.ofList (q :: (body ++ [q])))).toList = q :: (body ++ [q]) := by
  have hstart : Text.trimStart (String.ofList (q :: (body ++ [q]))) =
      String.ofList (q :: (body ++ [q])) := by
    rw [Text.trimStart, String.toList_ofList, List.dropWhile_cons_of_neg (by simp [hq])]
  have hreverse : (q :: (body ++ [q])).reverse = q :: (body.reverse ++ [q]) := by simp
  rw [Text.trim, hstart, Text.trimEnd, String.toList_ofList, String.toList_ofList, hreverse,
    List.dropWhile_cons_of_neg (by simp [hq])]
  simp

theorem between?_quoted (q : Char) (body : List Char) :
    between? q (q :: (body ++ [q])) = some body := by
  simp [between?]

/-- A literal that the grammar derives is read to its characters. -/
theorem value?_text (l : Spelled) : value? l.text = some (String.ofList l.content) := by
  cases l with
  | raw body h =>
    have hbetween : between? '\x60' (Text.trim (Spelled.raw body h).text).toList = some body := by
      rw [Spelled.text, trim_quoted rfl, between?_quoted]
    simp only [value?, hbetween]
    rfl
  | interpreted items =>
    have hchars := trim_quoted (q := '"') rfl (items.flatMap Item.spelling)
    have hraw : between? '\x60' ('"' :: (items.flatMap Item.spelling ++ ['"'])) = none := by
      simp [between?]
    simp only [value?, Spelled.text, hchars, hraw, between?_quoted]
    rw [Option.bind_some, unescape?_spelling]
    rfl

/-! ## The octets of what is read -/

theorem length_utf8EncodeChar_octet {n : Nat} (h : n ≤ 255) :
    (String.utf8EncodeChar (.ofNat n)).length = if 0x80 ≤ n then 2 else 1 := by
  have hall : ∀ n ≤ 255, (String.utf8EncodeChar (.ofNat n)).length = if 0x80 ≤ n then 2 else 1 := by
    decide +kernel
  exact hall n h

theorem utf8EncodeChar_octet {n : Nat} (h : n < 0x80) :
    String.utf8EncodeChar (.ofNat n) = [UInt8.ofNat n] := by
  have hall : ∀ n < 0x80, String.utf8EncodeChar (.ofNat n) = [UInt8.ofNat n] := by decide +kernel
  exact hall n h

namespace Item

theorem encode_content {i : Item} (h : ¬ i.IsHighOctet) :
    String.utf8EncodeChar i.content = i.octets := by
  cases i with
  | char | letter | point => rfl
  | hex ds _ | octal ds _ => exact utf8EncodeChar_octet (Nat.lt_of_not_le h)

theorem length_octets_lt {i : Item} (h : i.IsHighOctet) :
    i.octets.length < (String.utf8EncodeChar i.content).length := by
  cases i with
  | char | letter | point => exact h.elim
  | hex ds hds =>
    have hhigh : 0x80 ≤ number ds := h
    rw [content, length_utf8EncodeChar_octet (number_pair_le hds), if_pos hhigh]
    exact Nat.lt_succ_self 1
  | octal ds hds =>
    have hhigh : 0x80 ≤ number ds := h
    rw [content, length_utf8EncodeChar_octet hds.2, if_pos hhigh]
    exact Nat.lt_succ_self 1

theorem length_octets_le (i : Item) :
    i.octets.length ≤ (String.utf8EncodeChar i.content).length := by
  by_cases h : i.IsHighOctet
  · exact Nat.le_of_lt (length_octets_lt h)
  · exact Nat.le_of_eq (congrArg List.length (encode_content h)).symm

end Item

theorem encode_contents {items : List Item} (h : ∀ i ∈ items, ¬ i.IsHighOctet) :
    (items.map Item.content).flatMap String.utf8EncodeChar = items.flatMap Item.octets := by
  induction items with
  | nil => rfl
  | cons i items ih =>
    obtain ⟨hi, hitems⟩ := List.forall_mem_cons.1 h
    rw [List.map_cons, List.flatMap_cons, List.flatMap_cons, Item.encode_content hi, ih hitems]

theorem length_octets_le (items : List Item) : (items.flatMap Item.octets).length ≤
    ((items.map Item.content).flatMap String.utf8EncodeChar).length := by
  induction items with
  | nil => exact Nat.le_refl _
  | cons i items ih =>
    have := i.length_octets_le
    simp only [List.map_cons, List.flatMap_cons, List.length_append]
    omega

theorem length_octets_lt {items : List Item} {i : Item} (hi : i ∈ items) (h : i.IsHighOctet) :
    (items.flatMap Item.octets).length <
      ((items.map Item.content).flatMap String.utf8EncodeChar).length := by
  obtain ⟨before, after, rfl⟩ := List.append_of_mem hi
  have hbefore := length_octets_le before
  have hlt := Item.length_octets_lt h
  have hafter := length_octets_le after
  simp only [List.map_append, List.map_cons, List.flatMap_append, List.flatMap_cons,
    List.length_append]
  omega

/-- What is read has the octets of the literal just where no escape writes one above ASCII. -/
theorem encode_content_eq_iff (l : Spelled) :
    Text.Utf8.encode (String.ofList l.content) = l.octets ↔ ¬ l.HasHighOctet := by
  rw [Text.Utf8.encode_ofList]
  cases l with
  | raw body h => exact ⟨fun _ => id, fun _ => rfl⟩
  | interpreted items =>
    constructor
    · rintro heq ⟨i, hi, hhigh⟩
      exact absurd (congrArg List.length heq) (Nat.ne_of_gt (length_octets_lt hi hhigh))
    · exact fun h => encode_contents fun i hi hhigh => h ⟨i, hi, hhigh⟩

/-- A literal that the grammar derives is always read to some text. If its octets are those of a
text, that text is what is read just where no escape of the literal writes an octet above ASCII. -/
theorem value?_spelled (l : Spelled) :
    (∃ s, value? l.text = some s) ∧ ∀ w, Text.Utf8.encode w = l.octets →
      (value? l.text = some w ↔ ¬ l.HasHighOctet) := by
  refine ⟨⟨_, value?_text l⟩, fun w hw => ?_⟩
  rw [value?_text, ← encode_content_eq_iff, ← hw, Option.some.injEq]
  exact ⟨fun h => h ▸ rfl, Text.Utf8.encode_injective⟩

def everyForm : Spelled := .interpreted
  [.char 'é' (by decide), .letter 't' '\t' (by decide), .hex [⟨'4', rfl⟩, ⟨'a', rfl⟩] rfl,
   .octal [⟨'1', rfl⟩, ⟨'0', rfl⟩, ⟨'1', rfl⟩] (by decide),
   .point 'u' [⟨'0', rfl⟩, ⟨'0', rfl⟩, ⟨'E', rfl⟩, ⟨'9', rfl⟩] (by decide) (by decide),
   .point 'U' [⟨'0', rfl⟩, ⟨'0', rfl⟩, ⟨'0', rfl⟩, ⟨'1', rfl⟩, ⟨'f', rfl⟩, ⟨'6', rfl⟩, ⟨'0', rfl⟩,
     ⟨'0', rfl⟩] (by decide) (by decide)]

theorem value?_spelled_everyForm : everyForm.text = "\"é\\t\\x4a\\101\\u00E9\\U0001f600\"" ∧
    Text.Utf8.encode "é\tJAé😀" = everyForm.octets ∧
    value? "\"é\\t\\x4a\\101\\u00E9\\U0001f600\"" = some "é\tJAé😀" := by
  have htext : everyForm.text = "\"é\\t\\x4a\\101\\u00E9\\U0001f600\"" := by decide +kernel
  have hoctets : Text.Utf8.encode "é\tJAé😀" = everyForm.octets := by decide +kernel
  have hvalue := ((value?_spelled everyForm).2 _ hoctets).2 (by decide +kernel)
  exact ⟨htext, hoctets, htext ▸ hvalue⟩

/-- A character written by the two octets that encode it. -/
def octetPair : Spelled :=
  .interpreted [.hex [⟨'c', rfl⟩, ⟨'3', rfl⟩] rfl, .hex [⟨'a', rfl⟩, ⟨'9', rfl⟩] rfl]

/-- The octets of the literal are those of a text, and another text is read. -/
theorem value?_octetPair : octetPair.text = "\"\\xc3\\xa9\"" ∧
    Text.Utf8.encode "é" = octetPair.octets ∧ value? "\"\\xc3\\xa9\"" = some "Ã©" ∧
    value? "\"\\xc3\\xa9\"" ≠ some "é" := by
  have htext : octetPair.text = "\"\\xc3\\xa9\"" := by decide +kernel
  have hvalue : value? "\"\\xc3\\xa9\"" = some "Ã©" := by
    rw [← htext, value?_text]
    decide +kernel
  refine ⟨htext, by decide +kernel, hvalue, ?_⟩
  rw [hvalue]
  decide

end Literal
end RouteCheck
