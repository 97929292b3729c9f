import RouteCheck.Http.Auth
import RouteCheck.Proofs.Text.Base64
import RouteCheck.Proofs.Text.Split
import RouteCheck.Proofs.Text.Utf8

/-!
Which header values carry which password.

Reading credentials is a chain of steps that can fail: the first header of that name, its text, the
cut at the first space, the scheme, base64, UTF-8 and the cut at the first colon. Each step has an
exact inverse, so that the chain has one: a value has a password exactly when it is written from a
user name without a colon and this password, up to the case of the scheme and the white space around
what is encoded.

Main statements:
  1. `givenPassword?_eq_some_iff`: the chain of steps, before plain text is asked for.
  2. `isPlain_of_isBasic`: credentials are plain text, whatever the user name and the password are.
     `givenPassword?_iff_isBasic`: the other way round, plain text has no other white space than
     spaces and tabs.
  3. `authorized_iff`: the requests that are let through.
  4. `authorized_exact`: a password lets itself through, and no other one.
-/

namespace RouteCheck.Http

def IsPad (s : String) : Prop := ∀ c ∈ s.toList, c = ' ' ∨ c = '\t'

instance (s : String) : Decidable (IsPad s) := List.decidableBAll _ s.toList

/-- The value is written from these Basic credentials: the scheme in any case, a space, and the
octets of `user:password` in base64, with white space around. -/
def IsBasic (value user password : String) : Prop :=
  ∃ scheme before after : String, Text.lowerAscii scheme = "basic" ∧ IsPad before ∧ IsPad after ∧
    value = scheme ++ " " ++
      (before ++ Text.Base64.encode (Text.Utf8.encode (user ++ ":" ++ password)) ++ after)

section
variable {value user password scheme s : String} {c : Char}

/-! ## Plain text -/

theorem isPad_iff :
    IsPad s ↔ ∀ c ∈ s.toList, Headers.isPlain c = true ∧ Text.isBlank c = true := by
  refine forall₂_congr fun c _ => ⟨?_, ?_⟩
  · rintro (rfl | rfl) <;> exact ⟨by decide, by decide⟩
  · rintro ⟨hplain, hblank⟩
    simp only [Headers.isPlain, Bool.or_eq_true, decide_eq_true_eq, Bool.and_eq_true] at hplain
    rcases hplain with rfl | ⟨hlow, hhigh⟩
    · exact .inr rfl
    · simp only [Text.isBlank, Bool.or_eq_true, Bool.and_eq_true, decide_eq_true_eq,
        beq_iff_eq] at hblank
      have hspace : c.toNat = 0x20 := by omega
      exact .inl (Char.toNat_inj.1 hspace)

theorem isPlain_of_isVisible (h : Text.Base64.IsVisible c) : Headers.isPlain c = true := by
  obtain ⟨hlow, hhigh⟩ := h
  simp [Headers.isPlain]
  omega

theorem isBlank_of_isVisible (h : Text.Base64.IsVisible c) : Text.isBlank c = false := by
  obtain ⟨hlow, hhigh⟩ := h
  simp [Text.isBlank]
  omega

theorem isVisible_of_mem_scheme (h : Text.lowerAscii scheme = "basic") (hc : c ∈ scheme.toList) :
    Text.Base64.IsVisible c := by
  have hlower : c.toLower ∈ "basic".toList := by
    rw [← h, Text.lowerAscii, String.toList_ofList]
    exact List.mem_map_of_mem hc
  unfold Char.toLower at hlower
  split at hlower
  · next hupper =>
    obtain ⟨hlow, hhigh⟩ : 'A'.toNat ≤ c.toNat ∧ c.toNat ≤ 'Z'.toNat := hupper
    exact ⟨Nat.lt_of_lt_of_le (by decide) hlow, Nat.lt_of_le_of_lt hhigh (by decide)⟩
  · have hletters : "basic".toList.all (Text.Base64.IsVisible ·) = true := by decide
    exact of_decide_eq_true (List.all_eq_true.1 hletters c hlower)

/-- Credentials are plain text, whatever is encoded. -/
theorem isPlain_of_isBasic (h : IsBasic value user password) :
    value.toList.all Headers.isPlain = true := by
  obtain ⟨scheme, before, after, hscheme, hbefore, hafter, rfl⟩ := h
  have hpad {s : String} (hs : IsPad s) : ∀ c ∈ s.toList, Headers.isPlain c = true :=
    fun c hc => (isPad_iff.1 hs c hc).1
  have hspace : ∀ c ∈ " ".toList, Headers.isPlain c = true := List.all_eq_true.1 (by decide)
  simp only [List.all_eq_true, String.toList_append, List.forall_mem_append]
  exact ⟨⟨fun c hc => isPlain_of_isVisible (isVisible_of_mem_scheme hscheme hc), hspace⟩,
    ⟨hpad hbefore, fun c hc => isPlain_of_isVisible (Text.Base64.isVisible_of_mem_encode hc)⟩,
    hpad hafter⟩

/-! ## The chain of steps -/

theorem cut?_colon_eq_some_iff {text : String} :
    Text.cut? ':' text = some (user, password) ↔
      text = user ++ ":" ++ password ∧ ':' ∉ user.toList := by
  rw [Text.cut?_eq_some_iff, ← String.toList_inj]
  simp

/-- What is after the scheme, if it is this one: the scheme has no space itself. -/
theorem cut?_scheme_eq_some_iff {rest : String} (h : Text.lowerAscii scheme = "basic") :
    Text.cut? ' ' value = some (scheme, rest) ↔ value = scheme ++ " " ++ rest := by
  have hvisible : ' ' ∉ scheme.toList := fun hspace =>
    absurd (isVisible_of_mem_scheme h hspace).1 (by decide)
  rw [Text.cut?_eq_some_iff, ← String.toList_inj]
  simp [hvisible]

/-- A value has a password just where each step of reading it is the inverse of writing it. -/
theorem givenPassword?_eq_some_iff :
    givenPassword? value = some password ↔
      ∃ scheme rest user : String, Text.lowerAscii scheme = "basic" ∧
        value = scheme ++ " " ++ rest ∧ ':' ∉ user.toList ∧
        Text.trim rest = Text.Base64.encode (Text.Utf8.encode (user ++ ":" ++ password)) := by
  unfold givenPassword?
  constructor
  · intro h
    obtain ⟨⟨scheme, rest⟩, hcut, h⟩ := Option.bind_eq_some_iff.1 h
    dsimp only at h
    split at h
    · next hscheme =>
      obtain ⟨octets, hoctets, h⟩ := Option.bind_eq_some_iff.1 h
      obtain ⟨text, htext, h⟩ := Option.bind_eq_some_iff.1 h
      obtain ⟨⟨user, after⟩, hcolon, h⟩ := Option.bind_eq_some_iff.1 h
      obtain rfl : after = password := Option.some.inj h
      obtain ⟨rfl, huser⟩ := cut?_colon_eq_some_iff.1 hcolon
      rw [Text.Utf8.decode?_eq_some_iff.1 htext] at hoctets
      exact ⟨scheme, rest, user, hscheme, (cut?_scheme_eq_some_iff hscheme).1 hcut, huser,
        Text.Base64.decode?_eq_some_iff.1 hoctets⟩
    · exact nomatch h
  · rintro ⟨scheme, rest, user, hscheme, hvalue, huser, hrest⟩
    rw [(cut?_scheme_eq_some_iff hscheme).2 hvalue]
    simp only [Option.bind_eq_bind, Option.bind_some]
    rw [if_pos hscheme, Text.Base64.decode?_eq_some_iff.2 hrest, Option.bind_some,
      Text.Utf8.decode?_eq_some_iff.2 rfl, Option.bind_some,
      cut?_colon_eq_some_iff.2 ⟨rfl, huser⟩]
    rfl

theorem isPad_around {before core after : String}
    (hplain : (before ++ core ++ after).toList.all Headers.isPlain = true)
    (hbefore : ∀ c ∈ before.toList, Text.isBlank c = true)
    (hafter : ∀ c ∈ after.toList, Text.isBlank c = true) : IsPad before ∧ IsPad after := by
  simp only [List.all_eq_true, String.toList_append, List.forall_mem_append] at hplain
  exact ⟨isPad_iff.2 fun c hc => ⟨hplain.1.1 c hc, hbefore c hc⟩,
    isPad_iff.2 fun c hc => ⟨hplain.2 c hc, hafter c hc⟩⟩

/-- A header value that is plain text has a password just where it is written from it. -/
theorem givenPassword?_iff_isBasic :
    value.toList.all Headers.isPlain = true ∧ givenPassword? value = some password ↔
      ∃ user : String, ':' ∉ user.toList ∧ IsBasic value user password := by
  rw [givenPassword?_eq_some_iff]
  constructor
  · rintro ⟨hplain, scheme, rest, user, hscheme, rfl, huser, hrest⟩
    obtain ⟨before, after, heq, hbefore, hafter⟩ := Text.exists_around_trim rest
    rw [hrest] at heq
    have hplain : rest.toList.all Headers.isPlain = true := by
      rw [String.toList_append, List.all_append, Bool.and_eq_true] at hplain
      exact hplain.2
    rw [heq] at hplain
    obtain ⟨hbefore, hafter⟩ := isPad_around hplain hbefore hafter
    exact ⟨user, huser, scheme, before, after, hscheme, hbefore, hafter, by rw [heq]⟩
  · rintro ⟨user, huser, hbasic⟩
    refine ⟨isPlain_of_isBasic hbasic, ?_⟩
    obtain ⟨scheme, before, after, hscheme, hbefore, hafter, rfl⟩ := hbasic
    refine ⟨scheme, _, user, hscheme, rfl, huser, Text.trim_around ?_ ?_ ?_⟩
    · exact fun c hc => (isPad_iff.1 hbefore c hc).2
    · exact fun c hc => (isPad_iff.1 hafter c hc).2
    · exact fun c hc => isBlank_of_isVisible (Text.Base64.isVisible_of_mem_encode hc)

/-! ## Requests -/

variable {headers : Headers}

/-- The requests that are let through: the first value of the header is written from credentials
with this password. -/
theorem authorized_iff :
    authorized headers password = true ↔ ∃ value user : String,
      headers.get? "Authorization" = some value ∧ ':' ∉ user.toList ∧
        IsBasic value user password := by
  rw [authorized, beq_iff_eq, Option.bind_eq_some_iff]
  refine exists_congr fun value => ?_
  rw [Headers.text?, Option.filter_eq_some_iff, and_assoc, givenPassword?_iff_isBasic]
  simp only [exists_and_left]

theorem eq_of_authorized {other : String} (h : authorized headers password = true)
    (hother : authorized headers other = true) : password = other := by
  rw [authorized, beq_iff_eq] at h hother
  exact Option.some.inj (h.symm.trans hother)

/-- Credentials let through their own password and no other one, whatever user name, password, case
of the scheme and white space they are written with; and where a password is let through, the
headers have credentials with it. -/
theorem authorized_exact (headers : Headers) :
    (∀ value user password other : String, headers.get? "Authorization" = some value →
      ':' ∉ user.toList → IsBasic value user password →
        (authorized headers other = true ↔ password = other)) ∧
    (∀ password other : String, authorized headers password = true →
      authorized headers other = true → password = other) ∧
    ∀ password : String, authorized headers password = true → ∃ value user : String,
      headers.get? "Authorization" = some value ∧ ':' ∉ user.toList ∧
        IsBasic value user password := by
  refine ⟨fun value user password other hvalue huser hbasic => ?_,
    fun password other => eq_of_authorized, fun password => authorized_iff.1⟩
  have hself : authorized headers password = true :=
    authorized_iff.2 ⟨value, user, hvalue, huser, hbasic⟩
  exact ⟨eq_of_authorized hself, fun h => h ▸ hself⟩

/-- A password with a colon and a letter that is not ASCII. -/
theorem authorized_exact_accent :
    authorized [("authorization", "BASIC  dTpww6k6\t")] "p\u00e9:" = true ∧
      authorized [("authorization", "BASIC  dTpww6k6\t")] "p\u00e9" = false := by
  have hexact := (authorized_exact [("authorization", "BASIC  dTpww6k6\t")]).1
    "BASIC  dTpww6k6\t" "u" "p\u00e9:"
  have hvalue : Headers.get? [("authorization", "BASIC  dTpww6k6\t")] "Authorization" =
      some "BASIC  dTpww6k6\t" := by decide +kernel
  have hbasic : IsBasic "BASIC  dTpww6k6\t" "u" "p\u00e9:" :=
    ⟨"BASIC", " ", "\t", by decide +kernel, by decide +kernel, by decide +kernel,
      by decide +kernel⟩
  refine ⟨(hexact _ hvalue (by decide +kernel) hbasic).2 rfl, ?_⟩
  exact Bool.eq_false_iff.2 fun h =>
    absurd ((hexact _ hvalue (by decide +kernel) hbasic).1 h) (by decide +kernel)

end
end RouteCheck.Http
