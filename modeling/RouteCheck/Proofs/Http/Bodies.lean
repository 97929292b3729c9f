import RouteCheck.Http.Context
import Mathlib.Algebra.Order.Group.Nat

/-!
Decoding the body of a request.

The limit is spent chunk by chunk, while what is decoded is the whole. Since the chunks that fit so
far and what is left of the limit add up to the limit, a body is too large exactly when all of its
octets are too many, and how they come in chunks does not show.

A body is read once. What a later decode reads is empty, for any type and any limit; types whose
readers ask for a value then fail at the end of the text.

Main statements:
  1. `Body.read_eq`: reading a body by its octets, by induction on the chunks.
  2. `Context.decodeLimit_eq`: decoding by the octets of the body.
  3. `Context.spent_of_decoded`: the context after any number of decodes, by induction on them.
  4. `Json.Reader.run_of_asksValue`: readers that ask for a value fail on the empty text.
  5. `Context.decodeLimit_exact`: the first decode of a context and all later ones.
-/

namespace RouteCheck

/-! ## Readers that ask for a value -/

namespace Json.Reader

/-- The reader begins with asking for a value: it looks at the next token and, where there is none,
fails for want of it. An optional value is asked for unless the token is that of null; what is made
of the value that was read does not matter. -/
inductive AsksValue : ∀ {α : Type}, Reader α → Prop
  | token {α : Type} {next : Option Char → Reader α} (h : next none = failHere .eofInValue) :
      AsksValue (peekToken >>= next)
  | optional {α : Type} {r : Reader α} (h : AsksValue r) : AsksValue r.optional
  | andThen {α β : Type} {r : Reader β} {next : β → Reader α} (h : AsksValue r) :
      AsksValue (r >>= next)

section
variable {α : Type} {r : Reader α}

theorem asksValue_value : AsksValue value := by
  unfold value valueWithin
  exact .token rfl

theorem asksValue_integer (wanted : String) (fit : Int → Option α) :
    AsksValue (integer wanted fit) := .token rfl

theorem asksValue_boolean : AsksValue boolean := .token rfl

theorem asksValue_text : AsksValue text := .token rfl

theorem asksValue_list (item : Reader α) : AsksValue (list item) := .token rfl

theorem asksValue_nothing : AsksValue nothing := .token rfl

theorem asksValue_map {β : Type} (f : α → β) (h : AsksValue r) : AsksValue (f <$> r) := by
  rw [map_eq_pure_bind]
  exact h.andThen

theorem error_of_asksValue (h : AsksValue r) (place : Place) :
    StateT.run r ⟨[], place⟩ = .error ⟨.eofInValue, place⟩ := by
  induction h with
  | @token α next hnext =>
    have hpeek : StateT.run peekToken ⟨[], place⟩ = .ok (none, ⟨[], place⟩) := rfl
    rw [StateT.run_bind, hpeek]
    exact congrArg (StateT.run · ⟨[], place⟩) hnext
  | @optional α r h ih =>
    have hpeek : StateT.run peekToken ⟨[], place⟩ = .ok (none, ⟨[], place⟩) := rfl
    rw [optional, StateT.run_bind, hpeek]
    show (StateT.run (some <$> r) ⟨[], place⟩ : Except Error _) = _
    rw [StateT.run_map, ih]
    rfl
  | @andThen α β r next h ih =>
    rw [StateT.run_bind, ih]
    rfl

/-- Nothing is not what a reader that asks for a value reads. -/
theorem run_of_asksValue (h : AsksValue r) : r.run [] = .error ⟨.eofInValue, {}⟩ := by
  have hwhole : AsksValue (r >>= fun a => do
    if (← peekToken).isSome then failNext .trailingText else return a) := h.andThen
  have hfail := error_of_asksValue hwhole {}
  rw [run]
  exact congrArg (Except.map (·.1)) hfail

end
end Json.Reader

namespace Http

open Text (Octets)

/-! ## Bodies -/

namespace Body

/-- The octets of a body, whatever chunks they come in. -/
def octets (b : Body) : Octets := b.chunks.flatten

/-- What is left of the limit tells what the chunks so far have taken of it: by induction on the
chunks, they are too large when their octets are too many. -/
theorem collect_eq (failure : Option String) (limit : Nat) (chunks : List Octets) :
    collect failure limit chunks =
      if limit < chunks.flatten.length then .error .tooLarge
      else match failure with
        | some reason => .error (.broken reason)
        | none => .ok chunks.flatten := by
  induction chunks generalizing limit with
  | nil =>
    rw [if_neg (by simp)]
    cases failure <;> rfl
  | cons chunk chunks ih =>
    rw [collect, List.flatten_cons, List.length_append]
    by_cases hchunk : limit < chunk.length
    · rw [if_pos hchunk, if_pos (by omega)]
    · rw [if_neg hchunk, ih]
      by_cases hrest : limit < chunk.length + chunks.flatten.length
      · rw [if_pos hrest, if_pos (by omega)]
        rfl
      · rw [if_neg hrest, if_neg (by omega)]
        cases failure <;> rfl

theorem read_eq (b : Body) (limit : Nat) :
    b.read limit =
      if limit < b.octets.length then .error .tooLarge
      else match b.failure with
        | some reason => .error (.broken reason)
        | none => .ok b.octets :=
  collect_eq ..

end Body

/-! ## Decoding -/

namespace Context

section
variable {α : Type}

def spent (c : Context) : Context := { c with request := { c.request with body := {} } }

/-- What octets decode to, with the type in the error. -/
def decoded (codec : Codec α) (bs : Octets) : Except ApiError α :=
  (codec.decode bs).mapError fun e => .decode codec.name e.message

/-- Decoding by the octets of the body. -/
theorem decodeLimit_eq (c : Context) (codec : Codec α) (limit : Nat) :
    c.decodeLimit codec limit =
      (if limit < c.request.body.octets.length then .error .bodyTooLarge
        else match c.request.body.failure with
          | some reason => .error (.decode codec.name reason)
          | none => decoded codec c.request.body.octets,
       c.spent) := by
  rw [decodeLimit, Body.read_eq]
  by_cases h : limit < c.request.body.octets.length
  · rw [if_pos h, if_pos h]
    rfl
  · rw [if_neg h, if_neg h]
    cases c.request.body.failure <;> rfl

theorem decoded_ne_bodyTooLarge (codec : Codec α) (bs : Octets) :
    ¬decoded codec bs = .error .bodyTooLarge := by
  unfold decoded
  cases codec.decode bs <;> exact nofun

/-- A context after one or more decodes of another, each into some type within some limit. -/
inductive Decoded (c : Context) : Context → Prop
  | first {α : Type} (codec : Codec α) (limit : Nat) : Decoded c (c.decodeLimit codec limit).2
  | later {c' : Context} {α : Type} (h : Decoded c c') (codec : Codec α) (limit : Nat) :
      Decoded c (c'.decodeLimit codec limit).2

/-- Whatever was decoded before, and however that ended, the body is spent and the rest is as it
was. -/
theorem spent_of_decoded {c c' : Context} (h : Decoded c c') : c' = c.spent := by
  induction h with
  | first codec limit => rw [decodeLimit_eq]
  | later h codec limit ih =>
    rw [decodeLimit_eq, ih]
    rfl

theorem decodeLimit_spent (c : Context) (codec : Codec α) (limit : Nat) :
    (c.spent.decodeLimit codec limit).1 = decoded codec [] := by
  have hfits : ¬limit < c.spent.request.body.octets.length := Nat.not_lt_zero limit
  rw [decodeLimit_eq, if_neg hfits]
  rfl

theorem decoded_nil {codec : Codec α} (h : codec.reader.AsksValue) :
    decoded codec [] =
      .error (.decode codec.name "EOF while parsing a value at line 1 column 0") := by
  rw [decoded, Codec.decode, Json.Reader.run_of_asksValue h]
  rfl

/-- The first decode of a context is told by the octets of its body alone: they are too many, or the
body breaks off after them, or they are decoded. Every later one, whatever its limit and type and
however the first one ended, is that of the empty body, an error for all that ask for a value. -/
theorem decodeLimit_exact (c : Context) (codec : Codec α) (limit : Nat) :
    ((c.decodeLimit codec limit).1 = .error .bodyTooLarge ↔
      limit < c.request.body.octets.length) ∧
    (c.request.body.octets.length ≤ limit →
      (∀ reason, c.request.body.failure = some reason →
        (c.decodeLimit codec limit).1 = .error (.decode codec.name reason)) ∧
      (c.request.body.failure = none →
        (c.decodeLimit codec limit).1 = decoded codec c.request.body.octets)) ∧
    (∀ c₂ : Context, c₂.request.body.octets = c.request.body.octets →
      c₂.request.body.failure = c.request.body.failure →
        (c₂.decodeLimit codec limit).1 = (c.decodeLimit codec limit).1) ∧
    ∀ c' : Context, Decoded c c' → ∀ {β : Type} (codec' : Codec β) (limit' : Nat),
      (c'.decodeLimit codec' limit').1 = decoded codec' [] ∧
      (codec'.reader.AsksValue → (c'.decodeLimit codec' limit').1 =
        .error (.decode codec'.name "EOF while parsing a value at line 1 column 0")) := by
  refine ⟨?_, fun hfits => ⟨fun reason hbroken => ?_, fun hwhole => ?_⟩,
    fun c₂ hoctets hfailure => ?_,
    fun c' hdecoded β codec' limit' => ?_⟩
  · rw [decodeLimit_eq]
    split
    · next hlimit => exact iff_of_true rfl hlimit
    · next hlimit =>
      refine iff_of_false ?_ hlimit
      split
      · exact nofun
      · exact decoded_ne_bodyTooLarge codec _
  · rw [decodeLimit_eq, if_neg (Nat.not_lt.2 hfits), hbroken]
  · rw [decodeLimit_eq, if_neg (Nat.not_lt.2 hfits), hwhole]
  · rw [decodeLimit_eq, decodeLimit_eq, hoctets, hfailure]
  · rw [spent_of_decoded hdecoded, decodeLimit_spent]
    exact ⟨rfl, decoded_nil⟩

/-- A string whose octets come in three chunks, one of them empty. -/
def greeting : Context where
  request := {
    method := "POST"
    url := default
    body := { chunks := [Text.Utf8.encode "\"hel", [], Text.Utf8.encode "lo\""] }
  }

/-- Seven octets within a limit of seven, then nothing. -/
theorem decodeLimit_exact_greeting :
    (greeting.decodeLimit ⟨"String", Json.Reader.text⟩ 6).1 = .error .bodyTooLarge ∧
    (greeting.decodeLimit ⟨"String", Json.Reader.text⟩ 7).1 = .ok "hello" ∧
    ((greeting.decodeLimit ⟨"String", Json.Reader.text⟩ 7).2.decodeLimit
        ⟨"bool", Json.Reader.boolean⟩ 7).1 =
      .error (.decode "bool" "EOF while parsing a value at line 1 column 0") := by
  have hoctets : greeting.request.body.octets = Text.Utf8.encode "\"hello\"" := by decide +kernel
  have hexact (limit : Nat) :=
    decodeLimit_exact greeting ⟨"String", Json.Reader.text⟩ limit
  obtain ⟨-, hfits, -, hlater⟩ := hexact 7
  refine ⟨(hexact 6).1.2 (by decide +kernel), ?_, ?_⟩
  · have hread : Json.Reader.text.run (Text.Utf8.encode "\"hello\"") = .ok "hello" := by
      decide +kernel
    rw [(hfits (by decide +kernel)).2 rfl, hoctets, decoded, Codec.decode, hread]
    rfl
  · exact (hlater _ (.first _ 7) ⟨"bool", Json.Reader.boolean⟩ 7).2 Json.Reader.asksValue_boolean

end
end Context
end Http
end RouteCheck
