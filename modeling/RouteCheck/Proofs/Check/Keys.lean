import RouteCheck.Check.Route
import RouteCheck.Proofs.Text.Split
import Mathlib.Data.List.Forall2

/-!
What a key tells.

A key is the method, a space, and the segments of the path, wildcards in place of parameters. The
method and path of a table entry have no white space, so that a key of a route has one space only
and tells all of them, whatever stands in the method and path of a call.

Main statements:
  1. `joinKey_inj`: a route and a call of one key have the same method and, parameters aside, the
     same segments.
  2. `not_blank_of_splitRouteKey?`: method and path of a table entry have no white space.
  3. `serverKey_eq_iff`: a route shares its key with the calls and routes that match it segment by
     segment, and with no others.
-/

namespace RouteCheck

/-- A segment as it stands in a key. -/
def keyPart (isWild : String → Bool) (segment : String) : String :=
  if isWild segment then wildcard else segment

section
variable {isWild isWild' : String → Bool} {method method' path path' segment : String}

theorem keyPart_eq_wildcard (h : isWild segment = true) : keyPart isWild segment = wildcard :=
  if_pos h

theorem keyPart_eq_self (h : isWild segment = false) : keyPart isWild segment = segment :=
  if_neg (by simp [h])

/-- Characters of the parts of a path in a key. -/
def keyParts (isWild : String → Bool) (path : String) : List (List Char) :=
  ((Text.split '/' path).map (keyPart isWild)).map String.toList

theorem toList_joinKey (isWild : String → Bool) (method path : String) :
    (joinKey isWild method path).toList =
      method.toList ++ ' ' :: ['/'].intercalate (keyParts isWild path) := by
  rw [joinKey, String.toList_append, String.toList_append, String.toList_intercalate,
    List.append_assoc]
  rfl

theorem not_mem_keyPart {c : Char} (hc : c ∉ wildcard.toList) (h : c ∉ segment.toList) :
    c ∉ (keyPart isWild segment).toList := by
  unfold keyPart
  split
  · exact hc
  · exact h

theorem keyParts_ne_nil (isWild : String → Bool) (path : String) : keyParts isWild path ≠ [] := by
  simp [keyParts, Text.split_ne_nil]

theorem slash_not_mem_keyParts {part : List Char} (h : part ∈ keyParts isWild path) :
    '/' ∉ part := by
  rw [keyParts, List.map_map] at h
  obtain ⟨segment, hsegment, rfl⟩ := List.mem_map.1 h
  exact not_mem_keyPart (by decide) fun hmem => (Text.mem_of_mem_split hsegment hmem).2 rfl

theorem space_not_mem_keyParts (hpath : ' ' ∉ path.toList) {part : List Char}
    (h : part ∈ keyParts isWild path) : ' ' ∉ part := by
  rw [keyParts, List.map_map] at h
  obtain ⟨segment, hsegment, rfl⟩ := List.mem_map.1 h
  exact not_mem_keyPart (by decide) fun hmem => hpath (Text.mem_of_mem_split hsegment hmem).1

/-- The key of a method and path without spaces tells the method and the parts of the path. -/
theorem joinKey_inj (hmethod : ' ' ∉ method.toList) (hpath : ' ' ∉ path.toList)
    (h : joinKey isWild method path = joinKey isWild' method' path') :
    method = method' ∧ (Text.split '/' path).map (keyPart isWild) =
      (Text.split '/' path').map (keyPart isWild') := by
  have h := congrArg String.toList h
  rw [toList_joinKey, toList_joinKey] at h
  have hspace : ' ' ∉ ['/'].intercalate (keyParts isWild path) :=
    Text.not_mem_intercalate (by decide) fun _ => space_not_mem_keyParts hpath
  obtain ⟨hmethod, hparts⟩ := Text.append_cons_inj hmethod hspace h
  have hparts : keyParts isWild path = keyParts isWild' path' :=
    Text.join_inj (fun _ => slash_not_mem_keyParts) (fun _ => slash_not_mem_keyParts)
      (keyParts_ne_nil _ _) (keyParts_ne_nil _ _) hparts
  exact ⟨String.toList_inj.1 hmethod,
    (List.map_inj_right fun _ _ => String.toList_inj.1).1 hparts⟩

end

/-- The words of a route's key have no white space, also without the server's lead. -/
theorem not_blank_of_splitRouteKey? {key method path : String}
    (h : splitRouteKey? key = some (method, path)) (lead : String) :
    (∀ c ∈ method.toList, Text.isBlank c = false) ∧
      ∀ c ∈ ((Text.dropLead? lead path).getD path).toList, Text.isBlank c = false := by
  have hfields : Text.fields key = [method, path] := by
    unfold splitRouteKey? at h
    split at h
    · next heq =>
      obtain ⟨rfl, rfl⟩ := Prod.mk.inj (Option.some.inj h)
      exact heq
    · simp at h
  have hword (field : String) (hfield : field ∈ [method, path]) :=
    Text.not_blank_of_mem_fields (hfields ▸ hfield)
  refine ⟨hword method (by simp), fun c hc => ?_⟩
  cases hdrop : Text.dropLead? lead path with
  | none => exact hword path (by simp) c (by simpa [hdrop] using hc)
  | some rest =>
    have hc : c ∈ rest.toList := by simpa [hdrop] using hc
    refine hword path (by simp) c ?_
    rw [Text.dropLead?_eq_some_iff.1 hdrop, String.toList_append]
    exact List.mem_append_right _ hc

theorem spaceless_of_splitRouteKey? {key method path : String}
    (h : splitRouteKey? key = some (method, path)) (lead : String) :
    ' ' ∉ method.toList ∧ ' ' ∉ ((Text.dropLead? lead path).getD path).toList := by
  obtain ⟨hmethod, hpath⟩ := not_blank_of_splitRouteKey? h lead
  exact ⟨fun hmem => absurd (hmethod _ hmem) (by decide),
    fun hmem => absurd (hpath _ hmem) (by decide)⟩

/-! ## Segments that match -/

/-- The segment is written as a wildcard in a key, being one of the parameters or spelling it. -/
def Wild (isWild : String → Bool) (segment : String) : Prop :=
  isWild segment = true ∨ segment = wildcard

section
variable {isWild isWild' : String → Bool} {segment segment' : String}

theorem keyPart_eq_wildcard_iff :
    keyPart isWild segment = wildcard ↔ Wild isWild segment := by
  unfold keyPart Wild
  split <;> simp_all

/-- Two segments stand alike in a key if both are wildcards there, or neither and they are equal. -/
theorem keyPart_eq_keyPart_iff :
    keyPart isWild segment = keyPart isWild' segment' ↔
      (Wild isWild segment ∧ Wild isWild' segment') ∨
        (isWild segment = false ∧ isWild' segment' = false ∧ segment = segment') := by
  cases hsegment : isWild segment with
  | true =>
    rw [keyPart_eq_wildcard hsegment, eq_comm, keyPart_eq_wildcard_iff]
    simp [Wild, hsegment]
  | false =>
    cases hsegment' : isWild' segment' with
    | true =>
      rw [keyPart_eq_wildcard hsegment', keyPart_eq_wildcard_iff]
      simp [Wild, hsegment']
    | false =>
      rw [keyPart_eq_self hsegment, keyPart_eq_self hsegment']
      simp only [Wild, hsegment, hsegment', Bool.false_eq_true, false_or, true_and]
      exact ⟨.inr, fun h => h.elim (fun h => h.1.trans h.2.symm) id⟩

theorem keyPart_eq_iff {other : String} :
    keyPart isWild segment = keyPart isWild other ↔
      (Wild isWild segment ∧ Wild isWild other) ∨ segment = other := by
  constructor
  · intro h
    rcases keyPart_eq_keyPart_iff.1 h with h | ⟨_, _, h⟩
    · exact .inl h
    · exact .inr h
  · rintro (h | rfl)
    · exact keyPart_eq_keyPart_iff.2 (.inl h)
    · rfl

theorem map_keyPart_eq_iff {segments segments' : List String} :
    segments.map (keyPart isWild) = segments'.map (keyPart isWild') ↔
      List.Forall₂ (fun s s' => keyPart isWild s = keyPart isWild' s') segments segments' := by
  rw [← List.forall₂_eq_eq_eq, List.forall₂_map_left_iff, List.forall₂_map_right_iff]

theorem joinKey_eq (isWild : String → Bool) (method path : String) :
    joinKey isWild method path =
      method ++ " " ++ String.intercalate "/" ((Text.split '/' path).map (keyPart isWild)) :=
  rfl

/-- With method and path of one side spaceless, a key is shared just where the segments match. -/
theorem joinKey_eq_joinKey_iff {method path method' path' : String}
    (hmethod : ' ' ∉ method.toList) (hpath : ' ' ∉ path.toList) :
    joinKey isWild method path = joinKey isWild' method' path' ↔
      method = method' ∧ List.Forall₂ (fun s s' => keyPart isWild s = keyPart isWild' s')
        (Text.split '/' path) (Text.split '/' path') := by
  rw [← map_keyPart_eq_iff]
  refine ⟨joinKey_inj hmethod hpath, fun ⟨hmethod, hparts⟩ => ?_⟩
  rw [joinKey_eq, joinKey_eq, hmethod, hparts]

end

/-- What a client path asks for, the query aside. -/
def beforeQuery (path : String) : String := String.ofList (path.toList.takeWhile (· != '?'))

/-- A segment of a route against one of a call: a parameter, or the wildcard spelled out, takes a
format verb, and any other segment its equal. -/
def SegmentMatch (segment segment' : String) : Prop :=
  ((Text.startsWith ":" segment ∨ Text.startsWith "*" segment ∨ segment = "%s") ∧
      Text.startsWith "%" segment' ∧ 1 < segment'.utf8ByteSize) ∨
    (isParameter segment = false ∧ (Text.startsWith "%" segment' = false ∨ segment' = "%") ∧
      segment = segment')

instance (segment segment' : String) : Decidable (SegmentMatch segment segment') :=
  inferInstanceAs (Decidable (_ ∨ _))

theorem isVerb_iff {segment : String} :
    isVerb segment = true ↔ Text.startsWith "%" segment ∧ 1 < segment.utf8ByteSize := by
  simp [isVerb, and_comm]

theorem isVerb_eq_false_iff {segment : String} :
    isVerb segment = false ↔ Text.startsWith "%" segment = false ∨ segment = "%" := by
  cases hlead : Text.startsWith "%" segment with
  | false => simp [isVerb, hlead]
  | true =>
    obtain ⟨rest, hrest⟩ := Option.isSome_iff_exists.1 hlead
    obtain rfl := Text.dropLead?_eq_some_iff.1 hrest
    have hone : ("%" ++ rest).utf8ByteSize = 1 + rest.utf8ByteSize := String.utf8ByteSize_append
    have hempty : "%" ++ rest = "%" ↔ rest.utf8ByteSize = 0 := by
      rw [String.utf8ByteSize_eq_zero_iff, ← String.toList_inj, ← String.toList_inj]
      simp
    simp only [isVerb, hlead, hone, hempty, Bool.and_true, decide_eq_false_iff_not,
      Bool.true_eq_false, false_or]
    omega

theorem wild_isVerb_iff {segment : String} : Wild isVerb segment ↔ isVerb segment = true :=
  ⟨fun h => h.elim id fun h => h ▸ by decide, .inl⟩

theorem keyPart_isParameter_eq_isVerb_iff {segment segment' : String} :
    keyPart isParameter segment = keyPart isVerb segment' ↔ SegmentMatch segment segment' := by
  rw [keyPart_eq_keyPart_iff, wild_isVerb_iff, isVerb_iff, isVerb_eq_false_iff, SegmentMatch]
  simp only [Wild, isParameter, Bool.or_eq_true, or_assoc]
  rfl

theorem clientKey_eq (method path : String) :
    clientKey method path = joinKey isVerb method (beforeQuery path) := by
  rw [clientKey, Text.headD_split]
  rfl

/-- A route has the key of a call exactly if the methods are the same and the segments of the two
paths match one by one, the query aside. So routes of one key match segment by segment, and so do
the calls that have the key of one route. -/
theorem serverKey_eq_iff {method path : String} (hmethod : ' ' ∉ method.toList)
    (hpath : ' ' ∉ path.toList) :
    (∀ method' path', serverKey method path = clientKey method' path' ↔
      method = method' ∧ List.Forall₂ SegmentMatch (Text.split '/' path)
        (Text.split '/' (beforeQuery path'))) ∧
    (∀ method' path', serverKey method path = serverKey method' path' ↔
      method = method' ∧ List.Forall₂
        (fun s s' => (Wild isParameter s ∧ Wild isParameter s') ∨ s = s')
        (Text.split '/' path) (Text.split '/' path')) ∧
    ∀ method₁ path₁ method₂ path₂, serverKey method path = clientKey method₁ path₁ →
      serverKey method path = clientKey method₂ path₂ →
        method₁ = method₂ ∧ List.Forall₂ (fun s s' => (isVerb s ∧ isVerb s') ∨ s = s')
          (Text.split '/' (beforeQuery path₁)) (Text.split '/' (beforeQuery path₂)) := by
  refine ⟨fun method' path' => ?_, fun method' path' => ?_, fun m₁ p₁ m₂ p₂ h₁ h₂ => ?_⟩
  · rw [serverKey, clientKey_eq, joinKey_eq_joinKey_iff hmethod hpath]
    simp only [keyPart_isParameter_eq_isVerb_iff]
  · rw [serverKey, serverKey, joinKey_eq_joinKey_iff hmethod hpath]
    simp only [keyPart_eq_iff]
  · rw [serverKey, clientKey_eq] at h₁ h₂
    obtain ⟨rfl, hparts₁⟩ := joinKey_inj hmethod hpath h₁
    obtain ⟨rfl, hparts₂⟩ := joinKey_inj hmethod hpath h₂
    -- both calls have the segments of the route, so that they have each other's
    refine ⟨rfl, (map_keyPart_eq_iff.1 (hparts₁.symm.trans hparts₂)).imp fun s s' h => ?_⟩
    simpa only [wild_isVerb_iff] using keyPart_eq_iff.1 h

/-- A route and the calls and routes of its key: the query of the call is cut off, a method with a
space in it is not mistaken for the path. -/
theorem serverKey_eq_iff_users :
    serverKey "GET" "/users/:id" = clientKey "GET" "/users/%v?tab=a/b" ∧
      serverKey "GET" "/users/:id" ≠ clientKey "GET /users" "%v" ∧
      serverKey "GET" "/users/:id" = serverKey "GET" "/users/*rest" := by
  obtain ⟨hcall, hroute, -⟩ := serverKey_eq_iff (by decide : ' ' ∉ "GET".toList)
    (by decide : ' ' ∉ "/users/:id".toList)
  have hsplit : Text.split '/' "/users/:id" = ["", "users", ":id"] := by decide
  have hsplit' : Text.split '/' (beforeQuery "/users/%v?tab=a/b") = ["", "users", "%v"] := by decide
  have hsplit'' : Text.split '/' "/users/*rest" = ["", "users", "*rest"] := by decide
  refine ⟨(hcall _ _).2 ⟨rfl, ?_⟩, fun hkey => absurd ((hcall _ _).1 hkey).1 (by decide),
    (hroute _ _).2 ⟨rfl, ?_⟩⟩
  · rw [hsplit, hsplit']
    exact .cons (by decide) (.cons (by decide) (.cons (by decide) .nil))
  · rw [hsplit, hsplit'']
    have hwild : Wild isParameter ":id" ∧ Wild isParameter "*rest" :=
      ⟨.inl (by decide), .inl (by decide)⟩
    exact .cons (.inr rfl) (.cons (.inr rfl) (.cons (.inl hwild) .nil))

end RouteCheck
