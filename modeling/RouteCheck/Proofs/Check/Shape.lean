import RouteCheck.Proofs.Check.Routes
import RouteCheck.Proofs.Program.Sample

/-!
What the route of a handler can hold, by its method.

A handler may call its context in any order, and each call may be refused, give the route up or
overwrite what was recorded before. Whatever it does, a method that reads nothing never gets a
request and one that writes nothing never gets a response, so that at the end only what is
missing has to be looked for. `ServerRoute.Admissible` is that invariant, of the route that a
draft would finish as.

Main statements:
  1. `admissible_apply`, `admissible_applyAll`: one context call, and all of them.
  2. `shaped_replay`: a route that the replay completes obeys the rules of its method.
  3. `shaped_of_mem_routes`: so does every route of a package's table.
-/

namespace RouteCheck

/-- A handler can decode into it: it is a pointer, or nothing is known about it. -/
def Ty.IsTarget (ty : Ty) : Prop := ty = .unknown ∨ ∃ target, ty = .pointer target

def ReadsNothing (method : String) : Prop := method = "GET" ∨ method = "DELETE"

def WritesNothing (method : String) : Prop := method = "PUT" ∨ method = "DELETE"

/-- Every type of the parameters is one to decode into. -/
def TargetsOnly (ps : List PathParam) : Prop := ∀ p ∈ ps, ∀ ty, p.ty = some ty → ty.IsTarget

/-- The route holds nothing that its method or the operations of a handler rule out. -/
structure ServerRoute.Admissible (r : ServerRoute) : Prop where
  unread : ReadsNothing r.method → r.request = .untypedNil
  unwritten : WritesNothing r.method → r.response = .untypedNil
  request : r.request = .untypedNil ∨ r.request.IsTarget
  params : TargetsOnly r.pathParams

/-- The route obeys the rules on what its method reads and writes. -/
structure ServerRoute.Shaped (r : ServerRoute) : Prop where
  get : r.method = "GET" → r.request = .untypedNil ∧ r.response ≠ .untypedNil
  put : r.method = "PUT" → r.request ≠ .untypedNil ∧ r.response = .untypedNil
  delete : r.method = "DELETE" → r.request = .untypedNil ∧ r.response = .untypedNil
  request : r.request = .untypedNil ∨ r.request = .unknown ∨ ∃ target, r.request = .pointer target
  params : ∀ p ∈ r.pathParams, ∀ ty, p.ty = some ty →
    ty = .unknown ∨ ∃ target, ty = .pointer target

/-! ## Slots -/

section
variable {slot : Option Ty} {ty kept : Ty} {name : String} {ps : List PathParam}

theorem isTarget_of_not_refused (h : (!ty.isUnknown && !ty.isPointer) = false) : ty.IsTarget := by
  cases ty <;> simp_all [Ty.IsTarget, Ty.isUnknown, Ty.isPointer]

/-- What a slot holds after an offer is the offer or what it held before. -/
theorem eq_or_eq_of_record (h : Ty.record slot ty = some kept) : kept = ty ∨ slot = some kept := by
  cases slot with
  | none => exact .inl (Option.some.inj h).symm
  | some prev =>
    simp only [Ty.record] at h
    split at h
    · exact .inl (Option.some.inj h).symm
    · exact .inr h

theorem TargetsOnly.setParamIn (hps : TargetsOnly ps) (hty : ty.IsTarget) :
    TargetsOnly (ServerRoute.setParamIn name ty ps) := by
  induction ps with
  | nil => exact hps
  | cons p ps ih =>
    have hrest : TargetsOnly ps := fun q hq => hps q (List.mem_cons_of_mem _ hq)
    unfold ServerRoute.setParamIn
    split
    · intro q hq ty' hty'
      rcases List.mem_cons.1 hq with rfl | hq
      · obtain rfl := Option.some.inj hty'
        exact hty
      · exact hrest q hq ty' hty'
    · intro q hq
      rcases List.mem_cons.1 hq with rfl | hq
      · exact hps q List.mem_cons_self
      · exact ih hrest q hq

end

/-! ## Context calls -/

@[simp] theorem Replay.draft?_go (d : Draft) : (Replay.go d).draft? = some d := rfl

@[simp] theorem Replay.draft?_note (at_ : Position) (message : String) (d : Draft) :
    (Replay.note at_ message d).draft? = some d := rfl

@[simp] theorem Replay.draft?_stop (at_ : Position) (message : String) :
    (Replay.stop at_ message).draft? = none := rfl

@[simp] theorem Replay.draft?_misshapen (at_ : Position) (method rule : String) :
    (Replay.misshapen at_ method rule).draft? = none := rfl

@[simp] theorem Draft.finish_method (d : Draft) : d.finish.method = d.route.method := rfl

@[simp] theorem Draft.finish_request (d : Draft) :
    d.finish.request = d.request.getD .untypedNil := rfl

@[simp] theorem Draft.finish_response (d : Draft) :
    d.finish.response = d.response.getD .untypedNil := rfl

section
variable {t : Typer} {call : Node} {args : List Node} {d d' : Draft}

theorem Ty.isNil_iff {ty : Ty} : ty.isNil = true ↔ ty = .untypedNil := by
  simp [Ty.isNil]

/-- What `Custom` declares replaces what was recorded, and is kept only if the method allows it. -/
theorem admissible_replayCustom (hd : d.finish.Admissible)
    (h : (replayCustom t args d).draft? = some d') : d'.finish.Admissible := by
  unfold replayCustom at h
  split at h
  · next req resp _ =>
    simp only at h
    split at h
    · simp at h
    · next hfit =>
      split at h
      case h_7 hgetReads hputReads hdeleteReads hgetWrites hputWrites hdeleteWrites =>
        obtain rfl := Option.some.inj h
        refine ⟨fun hmethod => ?_, fun hmethod => ?_, ?_, hd.params⟩
        · show t.typeOf req = .untypedNil
          apply Ty.isNil_iff.1
          rcases hmethod with hmethod | hmethod
          · simpa using hgetReads hmethod
          · simpa using hdeleteReads hmethod
        · show t.typeOf resp = .untypedNil
          apply Ty.isNil_iff.1
          rcases hmethod with hmethod | hmethod
          · simpa using hputWrites hmethod
          · simpa using hdeleteWrites hmethod
        · show t.typeOf req = .untypedNil ∨ (t.typeOf req).IsTarget
          cases hnil : (t.typeOf req).isNil with
          | true => exact .inl (Ty.isNil_iff.1 hnil)
          | false => exact .inr (isTarget_of_not_refused (by simpa [hnil] using hfit))
      all_goals simp at h
  · obtain rfl := Option.some.inj h
    exact hd

theorem admissible_replayDecode (hd : d.finish.Admissible)
    (h : (replayDecode t call args d).draft? = some d') : d'.finish.Admissible := by
  unfold replayDecode at h
  split at h
  · simp at h
  · next hreads =>
    split at h
    · obtain rfl := Option.some.inj h
      exact hd
    · next arg _ =>
      simp only at h
      split at h
      · obtain rfl := Option.some.inj h
        exact hd
      · next hfit =>
        have htarget := isTarget_of_not_refused (Bool.eq_false_iff.2 hfit)
        split at h
        · obtain rfl := Option.some.inj h
          exact hd
        · obtain rfl := Option.some.inj h
          refine ⟨fun hmethod => ?_, hd.unwritten, ?_, hd.params⟩
          · exact absurd hmethod (by simpa [ReadsNothing] using hreads)
          · show (Ty.record d.request (t.typeOf arg)).getD .untypedNil = .untypedNil ∨
              ((Ty.record d.request (t.typeOf arg)).getD .untypedNil).IsTarget
            cases hkept : Ty.record d.request (t.typeOf arg) with
            | none => exact .inl rfl
            | some kept =>
              rcases eq_or_eq_of_record hkept with rfl | hprev
              · exact .inr htarget
              · simpa [hprev] using hd.request

theorem admissible_replayEncode (hd : d.finish.Admissible)
    (h : (replayEncode t call args d).draft? = some d') : d'.finish.Admissible := by
  unfold replayEncode at h
  split at h
  · simp at h
  · next hwrites =>
    split at h
    · obtain rfl := Option.some.inj h
      exact hd
    · simp only at h
      split at h
      · obtain rfl := Option.some.inj h
        exact hd
      · obtain rfl := Option.some.inj h
        refine ⟨hd.unread, fun hmethod => ?_, hd.request, hd.params⟩
        exact absurd hmethod (by simpa [WritesNothing] using hwrites)

theorem admissible_replayDecodeForm (hd : d.finish.Admissible)
    (h : (replayDecodeForm t call args d).draft? = some d') : d'.finish.Admissible := by
  unfold replayDecodeForm at h
  split at h
  · split at h
    · obtain rfl := Option.some.inj h
      exact hd
    · simp only at h
      split at h
      · obtain rfl := Option.some.inj h
        exact hd
      · split at h
        · obtain rfl := Option.some.inj h
          exact ⟨hd.unread, hd.unwritten, hd.request, hd.params⟩
        · obtain rfl := Option.some.inj h
          exact hd
  · obtain rfl := Option.some.inj h
    exact hd

/-- A type that is not refused, and only such a type, is set. -/
theorem admissible_replayParam {op : String} {nameNode conflictAt : Node} {ty : Ty}
    {fit : Option String} (hty : fit = none → ty.IsTarget) (hd : d.finish.Admissible)
    (h : (replayParam t d op nameNode conflictAt ty fit).draft? = some d') :
    d'.finish.Admissible := by
  unfold replayParam at h
  split at h
  · obtain rfl := Option.some.inj h
    exact hd
  · split at h
    · obtain rfl := Option.some.inj h
      exact hd
    · next name _ _ param hparam =>
      split at h
      · obtain rfl := Option.some.inj h
        exact hd
      · obtain rfl := Option.some.inj h
        exact hd
      · split at h
        · next kept hkept =>
          obtain rfl := Option.some.inj h
          refine ⟨hd.unread, hd.unwritten, hd.request, TargetsOnly.setParamIn hd.params ?_⟩
          rcases eq_or_eq_of_record hkept with rfl | hprev
          · exact hty rfl
          · exact hd.params param (List.mem_of_find?_eq_some hparam) kept hprev
        · obtain rfl := Option.some.inj h
          exact hd

theorem admissible_replayDecodeParam (hd : d.finish.Admissible)
    (h : (replayDecodeParam t args d).draft? = some d') : d'.finish.Admissible := by
  unfold replayDecodeParam at h
  split at h
  · next nameNode value _ =>
    refine admissible_replayParam (fun hfit => ?_) hd h
    split at hfit
    · simp at hfit
    · next hrefused => exact isTarget_of_not_refused (Bool.eq_false_iff.2 hrefused)
  · obtain rfl := Option.some.inj h
    exact hd

theorem admissible_replayPathParam (hd : d.finish.Admissible)
    (h : (replayPathParam t call args d).draft? = some d') : d'.finish.Admissible := by
  unfold replayPathParam at h
  split at h
  · exact admissible_replayParam (fun _ => .inr ⟨_, rfl⟩) hd h
  · obtain rfl := Option.some.inj h
    exact hd

/-- The step: a context call keeps the draft admissible, or gives the route up. -/
theorem admissible_apply {c : ContextCall} (hd : d.finish.Admissible)
    (h : (d.apply t c).draft? = some d') : d'.finish.Admissible := by
  unfold Draft.apply at h
  split at h
  · exact admissible_replayCustom hd h
  · exact admissible_replayDecode hd h
  · exact admissible_replayDecode hd h
  · exact admissible_replayEncode hd h
  · exact admissible_replayDecodeForm hd h
  · exact admissible_replayDecodeParam hd h
  · exact admissible_replayPathParam hd h
  all_goals
    obtain rfl := Option.some.inj h
    exact hd

/-- The run, by induction on the calls. -/
theorem admissible_applyAll {cs : List ContextCall} (hd : d.finish.Admissible)
    (h : (d.applyAll t cs).draft? = some d') : d'.finish.Admissible := by
  induction cs generalizing d with
  | nil =>
    obtain rfl := Option.some.inj h
    exact hd
  | cons c cs ih =>
    unfold Draft.applyAll at h
    split at h
    · simp at h
    · next d₁ hfirst => exact ih (admissible_apply hd (by rw [hfirst])) h

end

/-! ## Routes -/

theorem admissible_new (method path : String) (position : Position) :
    ({ route := ServerRoute.new method path position } : Draft).finish.Admissible where
  unread _ := rfl
  unwritten _ := rfl
  request := .inl rfl
  params p hp ty hty := by
    obtain ⟨s, _, rfl⟩ := List.mem_map.1 hp
    simp at hty

/-- A route that the replay completes obeys the rules of its method. -/
theorem shaped_replay {h : Handler} {index : Index} {library : String} {route r : ServerRoute}
    (hroute : ({ route } : Draft).finish.Admissible)
    (hr : (h.replay index library route).2 = some r) : r.Shaped := by
  unfold Handler.replay at hr
  simp only at hr
  split at hr
  · simp at hr
  · next d hrun =>
    have hd : d.finish.Admissible := admissible_applyAll hroute (by rw [hrun])
    split at hr
    · simp at hr
    · next hget =>
      split at hr
      · simp at hr
      · next hput =>
        obtain rfl := Option.some.inj hr
        exact
          { get := fun (hmethod : d.route.method = "GET") =>
              ⟨hd.unread (.inl hmethod), fun hnil => hget (by
                rw [Ty.isNil_iff.2 hnil]; simp [hmethod])⟩
            put := fun (hmethod : d.route.method = "PUT") =>
              ⟨fun hnil => hput (by rw [Ty.isNil_iff.2 hnil]; simp [hmethod]),
                hd.unwritten (.inl hmethod)⟩
            delete := fun hmethod => ⟨hd.unread (.inr hmethod), hd.unwritten (.inr hmethod)⟩
            request := hd.request
            params := hd.params }

theorem shaped_readEntry {t : Typer} {config : Config} {key value : Node} {r : ServerRoute}
    {h : Handler} (hr : (t.readEntry config key value).2 = .accepted r h) : r.Shaped := by
  unfold Typer.readEntry at hr
  simp only at hr
  split at hr
  · simp at hr
  · split at hr
    · simp at hr
    · split at hr
      · next r' hreplay =>
        obtain ⟨rfl, rfl⟩ := Entry.Outcome.accepted.injEq .. ▸ hr
        exact shaped_replay (admissible_new ..) (by rw [hreplay])
      · simp at hr

/-- Every route of a package's table obeys the rules of its method. -/
theorem shaped_of_mem_routes {index : Index} {files : List SourceFile} {config : Config}
    {r : ServerRoute} (h : r ∈ (extractRoutes index files config).2.table.routes) : r.Shaped := by
  obtain ⟨t, key, value, handler, _, haccepted⟩ := accepted_of_mem_routes h
  exact shaped_readEntry haccepted

/-- A handler of a `PUT` route that declares a request and then decodes another type, and that
decodes a path parameter into a value before it does so into a pointer. -/
theorem shaped_of_mem_routes_put :
    let file := SourceFile.sample ["var routes = map[string]jape.Handler\x7b",
      "\"PUT /items/:id\": func(jc jape.Context) \x7b", "var id int; var name string",
      "jc.Custom(&id, nil); jc.Decode(&name)", "jc.DecodeParam(\"id\", id)",
      "jc.DecodeParam(\"id\", &id) \x7d\x7d"]
    ∃ r ∈ (extractRoutes (.build ⟨[file]⟩) [file] {}).2.table.routes,
      r.method = "PUT" ∧ r.request = .pointer .int ∧ r.pathParams = [⟨"id", some (.pointer .int)⟩] ∧
        r.Shaped := by
  intro file
  have hrun : (extractRoutes (.build ⟨[file]⟩) [file] {}).2.table.routes.map
      (fun r => (r.method, r.request, r.pathParams)) =
        [("PUT", .pointer .int, [⟨"id", some (.pointer .int)⟩])] := by
    simp only [file, SourceFile.sample_eq, SourceFile.chars, String.reduceToList]
    decide +kernel
  obtain ⟨r, hr, heq⟩ := List.mem_map.1 (hrun ▸ List.mem_singleton_self _)
  obtain ⟨hmethod, hrequest, hparams⟩ : r.method = "PUT" ∧ r.request = .pointer .int ∧
      r.pathParams = [⟨"id", some (.pointer .int)⟩] := by simpa using heq
  exact ⟨r, hr, hmethod, hrequest, hparams, shaped_of_mem_routes hr⟩

end RouteCheck
