import RouteCheck.Proofs.Check.Keys
import RouteCheck.Proofs.Check.Routes
import RouteCheck.Proofs.Program.Sample
import RouteCheck.Proofs.Types.Symbols

/-!
Which argument of a call is compared with which parameter of its route.

Parity compares the i-th path slot of a call with the i-th parameter of the route. Slots are counted
over the holes of a template and parameters over the segments of a path, so that the two go together
where each parameter has one hole in its segment and no other segment has one. A key does not say
so: in a call any segment that begins with a percent sign is a wildcard, and in a route a segment
that is `%s` stands for one without being a parameter.

Main statements:
  1. `getElem?_placedFrom`, `of_getElem?_placedFrom`: the number of an element is the number of
     elements in the segments before its own, and its number there.
  2. `ofEntry_of_mem_routes`, `map_snd_placedHoles`: the parameters of a route are those of its
     path, and the slots of a call the holes of its segments.
  3. `hole_fills_param`: where parameters and holes go together, the i-th slot of a call is a hole
     in the segment of the i-th parameter; `crossed_by_key` has calls where they do not.
-/

namespace RouteCheck

/-! ## Elements by their segments -/

section
variable {α β γ δ : Type}

/-- What `f` answers for segments, each with the number of its segment, counted from `k`. -/
def placedFrom (k : Nat) (f : α → List β) (segments : List α) : List (Nat × β) :=
  (segments.zipIdx k).flatMap fun (s, n) => (f s).map (n, ·)

theorem placedFrom_cons (k : Nat) (f : α → List β) (s : α) (segments : List α) :
    placedFrom k f (s :: segments) = (f s).map (k, ·) ++ placedFrom (k + 1) f segments := by
  rw [placedFrom, List.zipIdx_cons, List.flatMap_cons, placedFrom]

theorem map_snd_placedFrom (k : Nat) (f : α → List β) (segments : List α) :
    (placedFrom k f segments).map (·.2) = segments.flatMap f := by
  induction segments generalizing k with
  | nil => rfl
  | cons s segments ih =>
    rw [placedFrom_cons, List.map_append, ih, List.flatMap_cons, List.map_map]
    congr 1
    exact List.map_id _

/-- An element comes after those of the segments before its own. -/
theorem getElem?_placedFrom {k m j : Nat} {f : α → List β} {segments : List α} {s : α} {b : β}
    (hs : segments[m]? = some s) (hb : (f s)[j]? = some b) :
    (placedFrom k f segments)[((segments.take m).flatMap f).length + j]? = some (k + m, b) := by
  induction segments generalizing k m with
  | nil => simp at hs
  | cons s' segments ih =>
    rw [placedFrom_cons]
    cases m with
    | zero =>
      obtain rfl : s' = s := by simpa using hs
      obtain ⟨hj, -⟩ := List.getElem?_eq_some_iff.1 hb
      rw [List.getElem?_append_left (by simpa using hj)]
      simp [hb]
    | succ m =>
      have h := ih (k := k + 1) (m := m) (by simpa using hs)
      rw [List.take_succ_cons, List.flatMap_cons, List.length_append,
        List.getElem?_append_right (by rw [List.length_map]; omega), List.length_map]
      rw [show k + (m + 1) = k + 1 + m by omega, ← h]
      congr 1
      omega

/-- Every element is found that way. -/
theorem of_getElem?_placedFrom {k i n : Nat} {f : α → List β} {segments : List α} {b : β}
    (h : (placedFrom k f segments)[i]? = some (n, b)) :
    ∃ m s j, n = k + m ∧ segments[m]? = some s ∧ (f s)[j]? = some b ∧
      i = ((segments.take m).flatMap f).length + j := by
  induction segments generalizing k i with
  | nil => simp [placedFrom] at h
  | cons s segments ih =>
    rw [placedFrom_cons] at h
    by_cases hi : i < (f s).length
    · rw [List.getElem?_append_left (by simpa using hi), List.getElem?_map] at h
      obtain ⟨b', hb', heq⟩ := Option.map_eq_some_iff.1 h
      obtain ⟨rfl, rfl⟩ := Prod.mk.inj heq
      exact ⟨0, s, i, rfl, rfl, hb', by simp⟩
    · rw [List.getElem?_append_right (by simpa using hi), List.length_map] at h
      obtain ⟨m, s', j, rfl, hs', hb, hij⟩ := ih h
      refine ⟨m + 1, s', j, by omega, by simpa using hs', hb, ?_⟩
      rw [List.take_succ_cons, List.flatMap_cons, List.length_append]
      omega

theorem length_flatMap_take {m : Nat} {f : α → List β} {g : γ → List δ} {ss : List α}
    {qs : List γ} (hlength : ss.length = qs.length)
    (h : ∀ j < m, ∀ s q, ss[j]? = some s → qs[j]? = some q → (f s).length = (g q).length) :
    ((ss.take m).flatMap f).length = ((qs.take m).flatMap g).length := by
  rw [List.length_flatMap, List.length_flatMap]
  congr 1
  refine List.ext_getElem (by simp [hlength]) fun j hj hj' => ?_
  simp only [List.length_map, List.length_take] at hj hj'
  have hs : ss[j]? = some ss[j] := List.getElem?_eq_getElem (by omega)
  have hq : qs[j]? = some qs[j] := List.getElem?_eq_getElem (by omega)
  simpa using h j (by omega) _ _ hs hq

end

/-! ## Parameters and holes -/

/-- The name of a segment that is a parameter. -/
def paramNames (segment : String) : List String :=
  if isParameter segment then [String.ofList (segment.toList.drop 1)] else []

/-- Names of the parameters of a route's path, with the numbers of their segments. -/
def ServerRoute.placedParams (r : ServerRoute) : List (Nat × String) :=
  placedFrom 0 paramNames (Text.split '/' r.path)

/-- What fills the path holes of a call, with the numbers of their segments. -/
def ClientCall.placedHoles (c : ClientCall) : List (Nat × Option Node) :=
  placedFrom 0 fillers c.path.segments

/-- Method and path of the route have no space, and its parameters are those of the path. -/
structure ServerRoute.OfEntry (r : ServerRoute) : Prop where
  method : ' ' ∉ r.method.toList
  path : ' ' ∉ r.path.toList
  params : r.pathParams.map (·.name) = r.placedParams.map (·.2)

theorem names_new (method path : String) (position : Position) :
    (ServerRoute.new method path position).pathParams.map (·.name) =
      (Text.split '/' path).flatMap paramNames := by
  rw [ServerRoute.new, List.map_map]
  induction Text.split '/' path with
  | nil => rfl
  | cons s segments ih =>
    rw [List.filter_cons, List.flatMap_cons, paramNames]
    split
    · rw [List.map_cons, ih]; rfl
    · rw [ih]; rfl

theorem ofEntry_readEntry {t : Typer} {config : Config} {key value : Node} {r : ServerRoute}
    {h : Handler} (hr : (t.readEntry config key value).2 = .accepted r h) : r.OfEntry := by
  unfold Typer.readEntry at hr
  simp only at hr
  split at hr
  · simp at hr
  · next method full hsplit =>
    obtain ⟨hmethod, hpath⟩ := spaceless_of_splitRouteKey? hsplit config.serverPrefix
    split at hr
    · simp at hr
    · split at hr
      · next r' hreplay =>
        obtain ⟨rfl, rfl⟩ := Entry.Outcome.accepted.injEq .. ▸ hr
        have hsame := (replay_sane _ _ _ _).2 r' (by rw [hreplay])
        refine ⟨hsame.method ▸ hmethod, hsame.path ▸ hpath, ?_⟩
        rw [hsame.params, ServerRoute.placedParams, map_snd_placedFrom, hsame.path]
        exact names_new ..
      · simp at hr

theorem ofEntry_of_mem_routes {index : Index} {files : List SourceFile} {config : Config}
    {r : ServerRoute} (h : r ∈ (extractRoutes index files config).2.table.routes) : r.OfEntry := by
  obtain ⟨t, key, value, handler, _, haccepted⟩ := accepted_of_mem_routes h
  exact ofEntry_readEntry haccepted

theorem pathParams_readCall {t : Typer} {config : Config} {op : ClientOp} {call : Node}
    {c : ClientCall} (h : (t.readCall config op call).2 = some c) :
    c.pathParams = c.path.slots.path := by
  unfold Typer.readCall at h
  split at h
  · simp at h
  · simp only at h
    split at h
    · simp at h
    · obtain rfl := Option.some.inj h
      rfl

/-- The path slots of a call are the holes of its segments. -/
theorem map_snd_placedHoles {index : Index} {files : List SourceFile} {config : Config}
    {c : ClientCall} (h : c ∈ (extractCalls index files config).2) :
    c.placedHoles.map (·.2) = c.pathParams := by
  obtain ⟨read, hread, hc⟩ := List.mem_filterMap.1 h
  obtain ⟨⟨t, op, call⟩, -, rfl⟩ := List.mem_map.1 hread
  rw [ClientCall.placedHoles, map_snd_placedFrom, ← Template.path_slots_eq_flatMap]
  exact (pathParams_readCall hc).symm

/-! ## Segments of one key -/

section
variable {segment : String} {seg : List Symbol}

theorem isVerb_of_keyPart_eq (hparam : isParameter segment = true)
    (h : keyPart isParameter segment = keyPart isVerb (spelled seg)) :
    isVerb (spelled seg) = true := by
  cases hverb : isVerb (spelled seg) with
  | true => rfl
  | false =>
    rw [keyPart_eq_wildcard hparam, keyPart_eq_self hverb] at h
    exact absurd hverb (h ▸ by decide)

/-- What stands for a segment that is no parameter has no hole, unless the segment spells one. -/
theorem fillers_of_keyPart_eq (hparam : isParameter segment = false)
    (hplain : ¬ wildcard.toList <:+: segment.toList)
    (h : keyPart isParameter segment = keyPart isVerb (spelled seg)) : fillers seg = [] := by
  rw [keyPart_eq_self hparam] at h
  cases hverb : isVerb (spelled seg) with
  | true =>
    rw [keyPart_eq_wildcard hverb] at h
    exact absurd (h ▸ List.infix_refl _) hplain
  | false =>
    rw [keyPart_eq_self hverb] at h
    refine fillers_eq_nil fun hspelled => hplain ?_
    rw [h, spelled, String.toList_ofList]
    exact hspelled

end

/-! ## The comparison -/

/-- No segment of the route before segment `k` spells a wildcard, parameters aside. -/
def ServerRoute.PlainBefore (r : ServerRoute) (k : Nat) : Prop :=
  ∀ s ∈ (Text.split '/' r.path).take k, isParameter s = false → ¬ wildcard.toList <:+: s.toList

/-- Each wildcard of the call before segment `k` has one hole, and segment `k` has a hole. -/
structure ClientCall.FilledUpTo (c : ClientCall) (k : Nat) : Prop where
  before : ∀ seg ∈ c.path.segments.take k, isVerb (spelled seg) = true → (fillers seg).length = 1
  here : ∀ seg ∈ c.path.segments[k]?, fillers seg ≠ []

instance (r : ServerRoute) (k : Nat) : Decidable (r.PlainBefore k) :=
  inferInstanceAs (Decidable (∀ s ∈ (Text.split '/' r.path).take k,
    isParameter s = false → ¬ wildcard.toList <:+: s.toList))

instance (c : ClientCall) (k : Nat) : Decidable (c.FilledUpTo k) :=
  decidable_of_iff
    ((∀ seg ∈ c.path.segments.take k, isVerb (spelled seg) = true → (fillers seg).length = 1) ∧
      ∀ seg ∈ c.path.segments[k]?, fillers seg ≠ [])
    ⟨fun h => ⟨h.1, h.2⟩, fun h => ⟨h.before, h.here⟩⟩

section
variable {r : ServerRoute} {c : ClientCall}

theorem keyParts_of_key_eq (hr : r.OfEntry) (hkey : r.key = c.key) :
    (Text.split '/' r.path).map (keyPart isParameter) =
      (c.path.segments.map spelled).map (keyPart isVerb) := by
  rw [ServerRoute.key, serverKey, ClientCall.key, clientKey] at hkey
  rw [← Template.split_headD_render c.path c.path.render]
  exact (joinKey_inj hr.method hr.path hkey).2

theorem length_segments_of_key_eq (hr : r.OfEntry) (hkey : r.key = c.key) :
    (Text.split '/' r.path).length = c.path.segments.length := by
  simpa using congrArg List.length (keyParts_of_key_eq hr hkey)

/-- Before segment `k` there are as many holes as parameters, by cases on whether a segment is a
parameter. -/
theorem length_holes_before (hr : r.OfEntry) (hkey : r.key = c.key) {k : Nat}
    (hplain : r.PlainBefore k) (hfilled : c.FilledUpTo k) :
    (((Text.split '/' r.path).take k).flatMap paramNames).length =
      ((c.path.segments.take k).flatMap fillers).length := by
  refine length_flatMap_take (length_segments_of_key_eq hr hkey) fun j hj s seg hs hseg => ?_
  have hpart : keyPart isParameter s = keyPart isVerb (spelled seg) := by
    simpa [hs, hseg] using congrArg (·[j]?) (keyParts_of_key_eq hr hkey)
  have hs' : s ∈ (Text.split '/' r.path).take k :=
    List.mem_of_getElem? ((List.getElem?_take_of_lt hj).trans hs)
  have hseg' : seg ∈ c.path.segments.take k :=
    List.mem_of_getElem? ((List.getElem?_take_of_lt hj).trans hseg)
  cases hparam : isParameter s with
  | true =>
    rw [hfilled.before seg hseg' (isVerb_of_keyPart_eq hparam hpart), paramNames, if_pos hparam]
    rfl
  | false =>
    rw [fillers_of_keyPart_eq hparam (hplain s hs' hparam) hpart, paramNames, hparam]
    rfl

/-- The hole that is compared with a parameter is the first one of its segment. -/
theorem getElem?_placedHoles (hr : r.OfEntry) (hkey : r.key = c.key) {i k : Nat} {name : String}
    (hparam : r.placedParams[i]? = some (k, name)) (hplain : r.PlainBefore k)
    (hfilled : c.FilledUpTo k) : ∃ filler, c.placedHoles[i]? = some (k, filler) := by
  obtain ⟨m, s, j, hm, hs, hname, rfl⟩ := of_getElem?_placedFrom hparam
  obtain rfl : k = m := by omega
  obtain rfl : j = 0 := by
    obtain ⟨hj, -⟩ := List.getElem?_eq_some_iff.1 hname
    unfold paramNames at hj
    split at hj <;> simp at hj
    exact hj
  obtain ⟨hk, -⟩ := List.getElem?_eq_some_iff.1 hs
  obtain ⟨seg, hseg⟩ : ∃ seg, c.path.segments[k]? = some seg :=
    ⟨_, List.getElem?_eq_getElem (length_segments_of_key_eq hr hkey ▸ hk)⟩
  obtain ⟨filler, rest, hcons⟩ := List.exists_cons_of_ne_nil (hfilled.here seg hseg)
  have hfiller : (fillers seg)[0]? = some filler := by rw [hcons]; rfl
  refine ⟨filler, ?_⟩
  have hplaced := getElem?_placedFrom (k := 0) hseg hfiller
  rw [Nat.zero_add] at hplaced
  rw [length_holes_before hr hkey hplain hfilled, ClientCall.placedHoles, hplaced]

end

theorem mem_comparePath {t : Typer} {r : ServerRoute} {c : ClientCall} {ps : List PathParam}
    {args : List (Option Node)} {i : Nat} {p : PathParam} {arg : Option Node} {d : Diagnostic}
    (hp : ps[i]? = some p) (harg : args[i]? = some arg) (hd : d ∈ compareSlot t arg p) :
    d ∈ comparePath t r c ps args := by
  induction ps generalizing args i with
  | nil => simp at hp
  | cons q ps ih =>
    cases args with
    | nil => simp at harg
    | cons b args =>
      cases i with
      | zero =>
        obtain rfl : q = p := by simpa using hp
        obtain rfl : b = arg := by simpa using harg
        exact List.mem_append_left _ hd
      | succ i => exact List.mem_append_right _ (ih (by simpa using hp) (by simpa using harg))

/-- The i-th slot of a call, which is compared with the i-th parameter of the route of its key, is a
hole in the segment of that parameter, if no segment before spells a wildcard without being a
parameter and each wildcard up to there has its hole. -/
theorem hole_fills_param {routeIndex callIndex : Index} {routeFiles callFiles : List SourceFile}
    {routeConfig callConfig : Config} {r : ServerRoute} {c : ClientCall}
    (hr : r ∈ (extractRoutes routeIndex routeFiles routeConfig).2.table.routes)
    (hc : c ∈ (extractCalls callIndex callFiles callConfig).2) (hkey : r.key = c.key) {i : Nat}
    (hi : i < r.pathParams.length) (hi' : i < c.pathParams.length) :
    (∀ index, ∀ d ∈ compareSlot (.enclosing index c.file c.node) c.pathParams[i] r.pathParams[i],
      d ∈ compareCall index r c) ∧
    ∃ k, r.placedParams[i]? = some (k, r.pathParams[i].name) ∧
      (r.PlainBefore k → c.FilledUpTo k → c.placedHoles[i]? = some (k, c.pathParams[i])) := by
  have hentry := ofEntry_of_mem_routes hr
  constructor
  · intro index d hd
    have hpath := mem_comparePath (r := r) (c := c) (List.getElem?_eq_getElem hi)
      (List.getElem?_eq_getElem hi') hd
    exact List.mem_append_left _ (List.mem_append_right _ hpath)
  · have hname : (r.placedParams.map (·.2))[i]? = some r.pathParams[i].name := by
      rw [← hentry.params, List.getElem?_map, List.getElem?_eq_getElem hi]
      rfl
    rw [List.getElem?_map] at hname
    obtain ⟨⟨k, name⟩, hparam, rfl⟩ := Option.map_eq_some_iff.1 hname
    refine ⟨k, hparam, fun hplain hfilled => ?_⟩
    obtain ⟨filler, hfiller⟩ := getElem?_placedHoles hentry hkey hparam hplain hfilled
    have hslot : c.pathParams[i]? = some filler := by
      rw [← map_snd_placedHoles hc, List.getElem?_map, hfiller]
      rfl
    rw [hfiller, (List.getElem?_eq_some_iff.1 hslot).2]

/-- A route and a call to it with a query behind its path. -/
def tagged : SourceFile := .sample ["var routes = map[string]jape.Handler\x7b",
  "\"DELETE /items/:id/tags/:tag\": func(jc jape.Context) \x7b\x7d\x7d",
  "func drop(c *jape.Client, id, tag string) \x7b",
  "c.DELETE(\"/items/\" + id + \"/tags/\" + tag + \"?n=\" + id) \x7d"]

theorem run_tagged :
    (extractRoutes (.build ⟨[tagged]⟩) [tagged] {}).2.table.routes.map (fun r =>
      (r.key, r.pathParams.length, r.placedParams, decide (r.PlainBefore 4))) =
        [("DELETE /items/%s/tags/%s", 2, [(2, "id"), (4, "tag")], true)] ∧
    (extractCalls (.build ⟨[tagged]⟩) [tagged] {}).2.map (fun c =>
      (c.key, c.pathParams.length, decide (c.FilledUpTo 4))) =
        [("DELETE /items/%s/tags/%s", 2, true)] := by
  simp only [tagged, SourceFile.sample_eq, SourceFile.chars, String.reduceToList]
  decide +kernel

/-- The second hole of the call fills the second parameter, in the fifth segment. -/
theorem hole_fills_param_tag :
    ∃ r ∈ (extractRoutes (.build ⟨[tagged]⟩) [tagged] {}).2.table.routes,
      ∃ c ∈ (extractCalls (.build ⟨[tagged]⟩) [tagged] {}).2, r.key = c.key ∧
        ∃ (_ : 1 < r.pathParams.length) (_ : 1 < c.pathParams.length),
          r.placedParams[1]? = some (4, "tag") ∧ r.PlainBefore 4 ∧ c.FilledUpTo 4 ∧
            c.placedHoles[1]? = some (4, c.pathParams[1]) := by
  obtain ⟨hroutes, hcalls⟩ := run_tagged
  obtain ⟨r, hr, hroute⟩ := List.mem_map.1 (hroutes ▸ List.mem_singleton_self _)
  obtain ⟨c, hc, hcall⟩ := List.mem_map.1 (hcalls ▸ List.mem_singleton_self _)
  simp only [Prod.mk.injEq, decide_eq_true_eq] at hroute hcall
  obtain ⟨hrkey, hparams, hplaced, hplain⟩ := hroute
  obtain ⟨hckey, hslots, hfilled⟩ := hcall
  have hkey : r.key = c.key := hrkey.trans hckey.symm
  have hi : 1 < r.pathParams.length := by omega
  have hi' : 1 < c.pathParams.length := by omega
  obtain ⟨-, k, hparam, hhole⟩ := hole_fills_param hr hc hkey hi hi'
  have htag : r.placedParams[1]? = some (4, "tag") := by rw [hplaced]; rfl
  obtain rfl : k = 4 := by
    rw [htag] at hparam
    exact (Prod.mk.inj (Option.some.inj hparam)).1.symm
  exact ⟨r, hr, c, hc, hkey, hi, hi', htag, hplain, hfilled, hhole hplain hfilled⟩

/-! ## Where they do not go together -/

/-- Route and call have one key, but for some `i` the i-th slot of the call is in another segment
than the i-th parameter. -/
def Crossed (r : ServerRoute) (c : ClientCall) : Prop :=
  r.key = c.key ∧ ∃ i, i < r.pathParams.length ∧ i < c.pathParams.length ∧
    (r.placedParams[i]?).map (·.1) ≠ (c.placedHoles[i]?).map (·.1)

/-- A call in the file crosses the route that is declared as `label` in it. -/
def SourceFile.Crosses (file : SourceFile) (label : String) : Prop :=
  ∃ r ∈ (extractRoutes (.build ⟨[file]⟩) [file] {}).2.table.routes, r.label = label ∧
    ∃ c ∈ (extractCalls (.build ⟨[file]⟩) [file] {}).2, Crossed r c

/-- Three routes with a call each: one that spells a verb for the first parameter, one with two
holes in the segment of the first parameter, and one to a route with an open part in front of its
parameter. -/
def crossing : SourceFile := .sample ["func routes(part string) map[string]jape.Handler \x7b",
  "return map[string]jape.Handler\x7b",
  "\"DELETE /a/:kind/:id\": func(jc jape.Context) \x7b\x7d,",
  "\"DELETE /b/:kind/:id\": func(jc jape.Context) \x7b\x7d,",
  "\"DELETE /c/\" + part + \"/:id\":", "func(jc jape.Context) \x7b\x7d\x7d \x7d",
  "func drop(c *jape.Client, x string) \x7b", "c.DELETE(\"/a/%v/\" + x)",
  "c.DELETE(\"/b/\" + x + x + \"/\" + x)", "c.DELETE(\"/c/\" + x + \"/\" + x) \x7d"]

theorem run_crossing :
    (extractRoutes (.build ⟨[crossing]⟩) [crossing] {}).2.table.routes.map (fun r =>
      (r.label, r.key, r.pathParams.length, r.placedParams.map (·.1))) =
        [("DELETE /a/:kind/:id", "DELETE /a/%s/%s", 2, [2, 3]),
          ("DELETE /b/:kind/:id", "DELETE /b/%s/%s", 2, [2, 3]),
          ("DELETE /c/%s/:id", "DELETE /c/%s/%s", 1, [3])] ∧
    (extractCalls (.build ⟨[crossing]⟩) [crossing] {}).2.map (fun c =>
      (c.key, c.pathParams.length, c.placedHoles.map (·.1))) =
        [("DELETE /a/%s/%s", 1, [3]), ("DELETE /b/%s/%s", 3, [2, 2, 3]),
          ("DELETE /c/%s/%s", 2, [2, 3])] := by
  simp only [crossing, SourceFile.sample_eq, SourceFile.chars, String.reduceToList]
  decide +kernel

/-- Each route is crossed by its call: the only slot of the first call is one segment too far, the
second slot of the second call and the first of the third are one segment short. -/
theorem crossed_by_key : crossing.Crosses "DELETE /a/:kind/:id" ∧
    crossing.Crosses "DELETE /b/:kind/:id" ∧ crossing.Crosses "DELETE /c/%s/:id" := by
  obtain ⟨hroutes, hcalls⟩ := run_crossing
  have hpair {label key : String} {n n' : Nat} {ks ks' : List Nat} (i : Nat)
      (hr : (label, key, n, ks) ∈
        (extractRoutes (.build ⟨[crossing]⟩) [crossing] {}).2.table.routes.map (fun r =>
          (r.label, r.key, r.pathParams.length, r.placedParams.map (·.1))))
      (hc : (key, n', ks') ∈ (extractCalls (.build ⟨[crossing]⟩) [crossing] {}).2.map (fun c =>
        (c.key, c.pathParams.length, c.placedHoles.map (·.1))))
      (hi : i < n ∧ i < n' ∧ ks[i]? ≠ ks'[i]?) : crossing.Crosses label := by
    obtain ⟨r, hmem, hroute⟩ := List.mem_map.1 hr
    obtain ⟨c, hmem', hcall⟩ := List.mem_map.1 hc
    simp only [Prod.mk.injEq] at hroute hcall
    obtain ⟨hlabel, rfl, rfl, rfl⟩ := hroute
    obtain ⟨hkey, rfl, rfl⟩ := hcall
    rw [List.getElem?_map, List.getElem?_map] at hi
    exact ⟨r, hmem, hlabel, c, hmem', hkey.symm, i, hi⟩
  rw [hroutes, hcalls] at hpair
  refine ⟨?_, ?_, ?_⟩
  · exact hpair 0 (.head _) (.head _) (by decide)
  · exact hpair 1 (.tail _ (.head _)) (.tail _ (.head _)) (by decide)
  · exact hpair 0 (.tail _ (.tail _ (.head _))) (.tail _ (.tail _ (.head _))) (by decide)

end RouteCheck
