import RouteCheck.Check.Server

/-!
What the replay of a handler does to its route.

Whatever the handler does, the route stays the one of its table entry: method, path, names of the
parameters and position are not touched, nor is it marked. And a route is never given up in silence.

Main statements:
  1. `apply_sane`, `applyAll_sane`: one context call, and all of them.
  2. `replay_sane`: the replay as a whole.
-/

namespace RouteCheck

/-- The two routes are read off one table entry. -/
structure SameEntry (r r' : ServerRoute) : Prop where
  method : r'.method = r.method
  path : r'.path = r.path
  params : r'.pathParams.map (·.name) = r.pathParams.map (·.name)
  position : r'.position = r.position
  seen : r'.seen = r.seen

theorem SameEntry.refl (r : ServerRoute) : SameEntry r r := ⟨rfl, rfl, rfl, rfl, rfl⟩

theorem SameEntry.trans {a b c : ServerRoute} (h : SameEntry a b) (h' : SameEntry b c) :
    SameEntry a c where
  method := h'.method.trans h.method
  path := h'.path.trans h.path
  params := h'.params.trans h.params
  position := h'.position.trans h.position
  seen := h'.seen.trans h.seen

theorem SameEntry.key {r r' : ServerRoute} (h : SameEntry r r') : r'.key = r.key := by
  rw [ServerRoute.key, ServerRoute.key, h.method, h.path]

theorem map_name_setParamIn (name : String) (ty : Ty) (ps : List PathParam) :
    (ServerRoute.setParamIn name ty ps).map (·.name) = ps.map (·.name) := by
  induction ps with
  | nil => rfl
  | cons p ps ih =>
    unfold ServerRoute.setParamIn
    split
    · rfl
    · rw [List.map_cons, List.map_cons, ih]

/-- The step gives the route up with a report, or keeps its entry. -/
structure Replay.Sane (d : Draft) (r : Replay) : Prop where
  stopped : r.draft? = none → r.notes ≠ []
  kept : ∀ d', r.draft? = some d' → SameEntry d.route d'.route

section
variable {t : Typer} {call : Node} {args : List Node} {d d' : Draft} {at_ : Position}
  {message : String}

theorem sane_go (h : SameEntry d.route d'.route) : (Replay.go d').Sane d where
  stopped h := by simp [Replay.go] at h
  kept d'' h' := by
    obtain rfl : d' = d'' := by simpa [Replay.go] using h'
    exact h

theorem sane_note : (Replay.note at_ message d).Sane d where
  stopped h := by simp [Replay.note] at h
  kept d' h := by
    obtain rfl : d = d' := by simpa [Replay.note] using h
    exact .refl _

theorem sane_stop : (Replay.stop at_ message).Sane d where
  stopped _ := by simp [Replay.stop]
  kept d' h := by simp [Replay.stop] at h

theorem sane_stay : (Replay.go d).Sane d := sane_go (.refl _)

theorem replayCustom_sane : (replayCustom t args d).Sane d := by
  unfold replayCustom
  split
  · simp only
    split
    · exact sane_stop
    · split
      all_goals first
        | exact sane_stop
        | exact sane_go ⟨rfl, rfl, rfl, rfl, rfl⟩
  · exact sane_stay

theorem replayDecode_sane : (replayDecode t call args d).Sane d := by
  unfold replayDecode
  split
  · exact sane_stop
  · split
    · exact sane_stay
    · simp only
      split
      · exact sane_note
      · split
        · exact sane_note
        · exact sane_go ⟨rfl, rfl, rfl, rfl, rfl⟩

theorem replayEncode_sane : (replayEncode t call args d).Sane d := by
  unfold replayEncode
  split
  · exact sane_stop
  · split
    · exact sane_stay
    · simp only
      split
      · exact sane_note
      · exact sane_go ⟨rfl, rfl, rfl, rfl, rfl⟩

theorem replayDecodeForm_sane : (replayDecodeForm t call args d).Sane d := by
  unfold replayDecodeForm
  split
  · split
    · exact sane_stay
    · simp only
      split
      · exact sane_note
      · split
        · exact sane_go ⟨rfl, rfl, rfl, rfl, rfl⟩
        · exact sane_stay
  · exact sane_stay

theorem replayParam_sane {op : String} {nameNode conflictAt : Node} {ty : Ty}
    {fit : Option String} : (replayParam t d op nameNode conflictAt ty fit).Sane d := by
  unfold replayParam
  split
  · exact sane_stay
  · split
    · exact sane_note
    · split
      · exact sane_note
      · exact sane_note
      · split
        · exact sane_go ⟨rfl, rfl, map_name_setParamIn .., rfl, rfl⟩
        · exact sane_stay

/-- One context call. -/
theorem apply_sane (c : ContextCall) : (d.apply t c).Sane d := by
  unfold Draft.apply
  split
  · exact replayCustom_sane
  · exact replayDecode_sane
  · exact replayDecode_sane
  · exact replayEncode_sane
  · exact replayDecodeForm_sane
  · unfold replayDecodeParam
    split
    · exact replayParam_sane
    · exact sane_stay
  · unfold replayPathParam
    split
    · exact replayParam_sane
    · exact sane_stay
  · exact sane_stay
  · exact sane_stay

/-- All context calls, by induction on them. -/
theorem applyAll_sane (d : Draft) (cs : List ContextCall) : (d.applyAll t cs).Sane d := by
  induction cs generalizing d with
  | nil => exact sane_stay
  | cons c cs ih =>
    have hfirst := apply_sane (t := t) (d := d) c
    unfold Draft.applyAll
    generalize d.apply t c = r at hfirst
    obtain ⟨notes, draft?⟩ := r
    cases draft? with
    | none => exact ⟨hfirst.stopped, fun d' h => by simp at h⟩
    | some d' =>
      have hrest := ih d'
      refine ⟨fun h => ?_, fun d'' h => ?_⟩
      · exact List.append_ne_nil_of_right_ne_nil _ (hrest.stopped h)
      · exact (hfirst.kept d' rfl).trans (hrest.kept d'' h)

end

/-- A handler that gives its route up says why, and a route that it completes is the one of its
entry. -/
theorem replay_sane (h : Handler) (index : Index) (library : String) (route : ServerRoute) :
    ((h.replay index library route).2 = none → (h.replay index library route).1 ≠ []) ∧
      ∀ r, (h.replay index library route).2 = some r → SameEntry route r := by
  have hsane := applyAll_sane (t := h.typer index) { route } (h.contextCalls (h.typer index) library)
  unfold Handler.replay
  simp only
  generalize Draft.applyAll _ _ _ = result at hsane
  obtain ⟨notes, draft?⟩ := result
  cases draft? with
  | none => exact ⟨fun _ => hsane.stopped rfl, fun r hr => by simp at hr⟩
  | some d =>
    have hkept := hsane.kept d rfl
    simp only
    split
    · exact ⟨fun _ => by simp [Replay.misshapen, Replay.stop], fun r hr => by simp at hr⟩
    · split
      · exact ⟨fun _ => by simp [Replay.misshapen, Replay.stop], fun r hr => by simp at hr⟩
      · refine ⟨fun hr => by simp at hr, fun r hr => ?_⟩
        obtain rfl : d.finish = r := by simpa using hr
        exact hkept.trans ⟨rfl, rfl, rfl, rfl, rfl⟩

end RouteCheck
