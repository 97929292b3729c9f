import RouteCheck.Proofs.Check.Shape
import RouteCheck.Proofs.Text.Order

/-!
What the calls of a handler offer to the slots of its route.

A route holds a type for its request, for its response, for each path parameter and for each query
key. The calls of its handler offer types to these slots one after the other. A slot keeps the first
type that is known in every part, and as long as there is none the last one; a type that is known
and differs from the one kept is reported. `Custom` begins the offers to request and response anew,
whatever was there before.

Main statements:
  1. `record_settled`, `disputed_iff`: one more offer, in terms of the offers before it.
  2. `settles_apply`: what one call does to every slot, and what it says of the type it offers.
  3. `held_applyAll`: what all calls leave in a slot, by induction on them.
  4. `accepted_settles`: the slots of an accepted route, and the conflicts reported on the way.
-/

namespace RouteCheck

/-! ## Offers -/

/-- A place of a route that holds a type. -/
inductive Slot where
  | request
  | response
  /-- The path parameter at an index. -/
  | param (index : Nat)
  | query (key : String)
  deriving DecidableEq

/-- The type, if a handler can decode into a value of it. -/
def Ty.target? (ty : Ty) : Option Ty := if ty.isUnknown || ty.isPointer then some ty else none

theorem Ty.target?_eq (ty : Ty) :
    ty.target? = if !ty.isUnknown && !ty.isPointer then none else some ty := by
  cases hunknown : ty.isUnknown <;> cases hpointer : ty.isPointer <;> simp [target?, *]

namespace ContextCall

/-- The call begins the offers to the slot anew. -/
def restarts (c : ContextCall) : Slot → Bool
  | .request | .response => c.op = .custom && 2 ≤ c.args.length
  | .param _ | .query _ => false

section
variable (t : Typer) (params : List String) (c : ContextCall)

/-- The index of the path parameter that a node names: the first one of that name. -/
def named? (name : Node) : Option Nat := (t.constantText? name).bind fun text => params.idxOf? text

/-- The type that the call offers to a slot of a route with the path parameters `params`. -/
def offer? : Slot → Option Ty
  | .request =>
    match c.op, c.args with
    | .custom, req :: _ :: _ => some (t.typeOf req)
    | .decode, arg :: _ | .decodeLimit, arg :: _ => (t.typeOf arg).target?
    | _, _ => none
  | .response =>
    match c.op, c.args with
    | .custom, _ :: resp :: _ => some (t.typeOf resp)
    | .encode, arg :: _ => some (t.typeOf arg)
    | _, _ => none
  | .param index =>
    match c.op, c.args with
    | .decodeParam, name :: value :: _ =>
      if named? t params name = some index then (t.typeOf value).target? else none
    | .pathParam, name :: _ =>
      if named? t params name = some index then some (.pointer .string) else none
    | _, _ => none
  | .query key =>
    match c.op, c.args with
    | .decodeForm, name :: value :: _ =>
      if t.constantText? name = some key then some (t.typeOf value) else none
    | _, _ => none

/-- The offers to a slot after the call. -/
def extend (slot : Slot) (ts : List Ty) : List Ty :=
  if c.restarts slot then (c.offer? t params slot).toList
  else ts ++ (c.offer? t params slot).toList

/-- Where a conflict of the call is reported. -/
def disputedAt : Node :=
  match c.op, c.args with
  | .decode, arg :: _ | .decodeLimit, arg :: _ | .encode, arg :: _ => arg
  | .decodeParam, _ :: value :: _ => value
  | _, _ => c.call

/-- What is reported of an offer that conflicts with the type that the slot holds. -/
def conflict (slot : Slot) (ty held : Ty) : Diagnostic :=
  ⟨t.file.position c.disputedAt,
    match slot with
    | .request =>
      "Decode called on " ++ ty.render ++ ", but was previously called on " ++ held.render
    | .response =>
      "Encode called on " ++ ty.render ++ ", but was previously called on " ++ held.render
    | .param index => "param " ++ Text.quote ((params[index]?).getD "") ++ " decoded as " ++
        ty.render ++ ", but was previously decoded as " ++ held.render
    | .query key => "form value " ++ Text.quote key ++ " decoded as " ++
        ty.render ++ ", but was previously decoded as " ++ held.render⟩

end
end ContextCall

/-- The types that calls offer to a slot, from the last one on that begins the offers anew. -/
def offered (t : Typer) (params : List String) (slot : Slot) (calls : List ContextCall) : List Ty :=
  calls.foldl (fun ts c => c.extend t params slot ts) []

/-- The first type that is known in every part. -/
def firstKnown? (ts : List Ty) : Option Ty := ts.find? (!·.containsUnknown)

def settled (ts : List Ty) : Option Ty := (firstKnown? ts).or ts.getLast?

section
variable {ts : List Ty} {ty held : Ty}

theorem containsUnknown_of_firstKnown? (h : firstKnown? ts = some held) :
    held.containsUnknown = false := by
  simpa using List.find?_some h

theorem containsUnknown_of_getLast? (h : firstKnown? ts = none) (hlast : ts.getLast? = some held) :
    held.containsUnknown = true := by
  simpa using List.find?_eq_none.1 h held (List.mem_of_getLast? hlast)

/-- A slot records offers as told by the first known one and the last one. -/
theorem record_settled (ts : List Ty) (ty : Ty) :
    Ty.record (settled ts) ty = settled (ts ++ [ty]) := by
  have hlast : (ts ++ [ty]).getLast? = some ty := List.getLast?_concat
  have happend : firstKnown? (ts ++ [ty]) = (firstKnown? ts).or (firstKnown? [ty]) :=
    List.find?_append
  rw [settled, settled, hlast, happend]
  cases hknown : firstKnown? ts with
  | some held => simp [Ty.record, containsUnknown_of_firstKnown? hknown]
  | none =>
    have hnew : (firstKnown? [ty]).or (some ty) = some ty := by
      cases hty : ty.containsUnknown <;> simp [firstKnown?, hty]
    rw [Option.none_or, Option.none_or, hnew]
    cases hprev : ts.getLast? with
    | none => rfl
    | some prev => simp [Ty.record, containsUnknown_of_getLast? hknown hprev]

theorem settled_singleton (ty : Ty) : settled [ty] = some ty := (record_settled [] ty).symm

/-- A type that is conflicted with stays. -/
theorem record_of_conflicts (h : held.conflicts ty = true) :
    Ty.record (some held) ty = some held := by
  have hknown : held.containsUnknown = false := by
    simp only [Ty.conflicts, Bool.and_eq_true, Bool.not_eq_true'] at h
    exact h.1.1
  simp [Ty.record, hknown]

theorem exists_record (slot : Option Ty) (ty : Ty) : ∃ kept, Ty.record slot ty = some kept := by
  cases slot with
  | none => exact ⟨ty, rfl⟩
  | some prev =>
    simp only [Ty.record]
    split
    · exact ⟨ty, rfl⟩
    · exact ⟨prev, rfl⟩

end

/-! ## Slots of a route -/

section
variable {name key : String} {ty : Ty} {ps : List PathParam} {qs : List (String × Ty)}

theorem lookup_cons_ite : ((name, ty) :: qs).lookup key =
    if key = name then some ty else qs.lookup key := by
  by_cases hkey : key = name
  · subst hkey
    simp
  · rw [List.lookup_cons, beq_eq_false_iff_ne.2 hkey, if_neg hkey]

theorem lookup_setQueryIn : (ServerRoute.setQueryIn name ty qs).lookup key =
    if key = name then some ty else qs.lookup key := by
  induction qs with
  | nil => exact lookup_cons_ite
  | cons q qs ih =>
    obtain ⟨k, t⟩ := q
    unfold ServerRoute.setQueryIn
    split
    · exact lookup_cons_ite
    · next heq =>
      obtain rfl : name = k := Std.LawfulEqCmp.eq_of_compare heq
      rw [lookup_cons_ite, lookup_cons_ite]
      by_cases hkey : key = name <;> simp [hkey]
    · next hgt =>
      have hne : name ≠ k := by
        rintro rfl
        have heq : Text.compare name name = .eq := Std.ReflCmp.compare_self
        exact absurd (heq.symm.trans hgt) nofun
      rw [lookup_cons_ite, lookup_cons_ite, ih]
      by_cases hkey : key = k
      · simp [hkey, hne.symm]
      · simp [hkey]

theorem find?_eq_idxOf? : ps.find? (·.name == name) =
    ((ps.map (·.name)).idxOf? name).bind fun index => ps[index]? := by
  induction ps with
  | nil => rfl
  | cons p ps ih =>
    rw [List.find?_cons, List.map_cons, List.idxOf?_cons]
    by_cases hname : p.name = name
    · simp [hname]
    · rw [beq_eq_false_iff_ne.2 hname, ih]
      cases (ps.map (·.name)).idxOf? name <;> rfl

/-- Setting the type of a name sets it at the first index of the name. -/
theorem getElem?_setParamIn (index : Nat) : (ServerRoute.setParamIn name ty ps)[index]? =
    if (ps.map (·.name)).idxOf? name = some index then
      ps[index]?.map fun p => { p with ty := some ty } else ps[index]? := by
  induction ps generalizing index with
  | nil => simp [ServerRoute.setParamIn]
  | cons p ps ih =>
    unfold ServerRoute.setParamIn
    rw [List.map_cons, List.idxOf?_cons]
    by_cases hname : p.name = name
    · cases index <;> simp [hname]
    · cases index with
      | zero => simp [hname]
      | succ index => simp [hname, ih]

end

namespace Draft

def held (d : Draft) : Slot → Option Ty
  | .request => d.request
  | .response => d.response
  | .param index => (d.route.pathParams[index]?).bind (·.ty)
  | .query key => d.route.query? key

def names (d : Draft) : List String := d.route.pathParams.map (·.name)

section
variable {d : Draft} {name : String} {ty : Ty} {slot : Slot}

theorem held_setQuery : ({ d with route := d.route.setQuery name ty } : Draft).held slot =
    if slot = .query name then some ty else d.held slot := by
  cases slot with
  | query key =>
    show (d.route.setQuery name ty).query? key = _
    rw [ServerRoute.query?, ServerRoute.setQuery, lookup_setQueryIn]
    simp [held, ServerRoute.query?]
  | _ => rfl

theorem held_setParam {i : Nat} {param : PathParam} (hi : d.names.idxOf? name = some i)
    (hget : d.route.pathParams[i]? = some param) :
    ({ d with route := d.route.setParam name ty } : Draft).held slot =
      if slot = .param i then some ty else d.held slot := by
  cases slot with
  | param j =>
    show ((ServerRoute.setParamIn name ty d.route.pathParams)[j]?).bind (·.ty) = _
    rw [getElem?_setParamIn, show (d.route.pathParams.map (·.name)).idxOf? name = _ from hi]
    by_cases hj : j = i
    · simp [hj, hget]
    · simp [hj, Ne.symm hj, held]
  | _ => rfl

end
end Draft

/-! ## One call -/

/-- A step that does not give the route up does to each slot what the call offers to it, and says
nothing of the offer unless it conflicts with what the slot holds. -/
structure Replay.Settles (t : Typer) (c : ContextCall) (d : Draft) (r : Replay) : Prop where
  held : ∀ d', r.draft? = some d' → ∀ slot ts, d.held slot = settled ts →
    d'.held slot = settled (c.extend t d.names slot ts)
  said : ∀ d', r.draft? = some d' → ∀ slot ty, c.offer? t d.names slot = some ty →
    c.restarts slot = false →
      r.notes = (((d.held slot).filter (·.conflicts ty)).map (c.conflict t d.names slot ty)).toList

section
variable {t : Typer} {c : ContextCall} {d : Draft} {r : Replay} {slot₀ : Slot} {ty : Ty}
  {call : Node} {args : List Node}

theorem settles_of_stopped (h : r.draft? = none) : r.Settles t c d where
  held _ h' := nomatch h.symm.trans h'
  said _ h' := nomatch h.symm.trans h'

theorem restarts_eq_false (h : c.op ≠ .custom) (slot : Slot) : c.restarts slot = false := by
  cases slot <;> simp [ContextCall.restarts, h]

theorem settles_of_no_offer (hrestarts : ∀ slot, c.restarts slot = false)
    (hoffer : ∀ slot, c.offer? t d.names slot = none) (hdraft : r.draft? = some d) :
    r.Settles t c d where
  held d' h slot ts hts := by
    obtain rfl := Option.some.inj (hdraft.symm.trans h)
    rw [ContextCall.extend, hrestarts, hoffer]
    simpa using hts
  said d' _ slot ty hty := nomatch (hoffer slot).symm.trans hty

theorem settles_of_few {op : ContextOp}
    (hop : op = .custom ∨ op = .decodeForm ∨ op = .decodeParam)
    (hfew : ∀ first second rest, args = first :: second :: rest → False) :
    (Replay.go d).Settles t ⟨op, call, args⟩ d := by
  refine settles_of_no_offer (fun slot => ?_) (fun slot => ?_) rfl
  all_goals
    match args with
    | [] | [_] => rcases hop with rfl | rfl | rfl <;> cases slot <;> rfl
    | first :: second :: rest => exact absurd rfl (hfew first second rest)

theorem settles_of_offer (d₁ : Draft) (hrestarts : ∀ slot, c.restarts slot = false)
    (hoffer : ∀ slot, c.offer? t d.names slot = if slot = slot₀ then some ty else none)
    (hheld : ∀ slot, d₁.held slot =
      if slot = slot₀ then Ty.record (d.held slot₀) ty else d.held slot)
    (hconflict : ∀ prev, (d.held slot₀).filter (·.conflicts ty) = some prev →
      r = ⟨[c.conflict t d.names slot₀ ty prev], some d⟩)
    (hgo : (d.held slot₀).filter (·.conflicts ty) = none → r = .go d₁) : r.Settles t c d := by
  have hafter : ∀ d', r.draft? = some d' → ∀ slot, d'.held slot =
      if slot = slot₀ then Ty.record (d.held slot₀) ty else d.held slot := by
    intro d' h slot
    cases hfilter : (d.held slot₀).filter (·.conflicts ty) with
    | none =>
      rw [hgo hfilter] at h
      obtain rfl := Option.some.inj h
      exact hheld slot
    | some prev =>
      rw [hconflict prev hfilter] at h
      obtain rfl := Option.some.inj h
      obtain ⟨hprev, hconflicts⟩ := Option.filter_eq_some_iff.1 hfilter
      split
      · next heq => rw [heq, hprev, record_of_conflicts hconflicts]
      · rfl
  refine ⟨fun d' h slot ts hts => ?_, fun d' _ slot ty' hty _ => ?_⟩
  · rw [hafter d' h, ContextCall.extend, hrestarts, hoffer]
    by_cases hslot : slot = slot₀
    · subst hslot
      simp [hts, record_settled]
    · simp [hslot, hts]
  · rw [hoffer] at hty
    split at hty
    · next heq =>
      obtain rfl := Option.some.inj hty
      rw [heq]
      cases hfilter : (d.held slot₀).filter (·.conflicts ty) with
      | none => rw [hgo hfilter]; rfl
      | some prev => rw [hconflict prev hfilter]; rfl
    · exact nomatch hty

theorem settles_replayCustom : (replayCustom t args d).Settles t ⟨.custom, call, args⟩ d := by
  unfold replayCustom
  split
  · next req resp rest =>
    simp only
    split
    · exact settles_of_stopped rfl
    · split
      case h_7 =>
        refine ⟨fun d' h slot ts hts => ?_, fun d' h slot ty hty hrestarts => ?_⟩
        · obtain rfl := Option.some.inj h
          cases slot with
          | request => exact (settled_singleton (t.typeOf req)).symm
          | response => exact (settled_singleton (t.typeOf resp)).symm
          | param index => exact hts.trans (congrArg settled (List.append_nil ts).symm)
          | query key => exact hts.trans (congrArg settled (List.append_nil ts).symm)
        · cases slot with
          | request => exact nomatch hrestarts
          | response => exact nomatch hrestarts
          | param index => exact nomatch hty
          | query key => exact nomatch hty
      all_goals exact settles_of_stopped rfl
  · next hfew => exact settles_of_few (.inl rfl) hfew

theorem settles_replayDecode (hop : c.op = .decode ∨ c.op = .decodeLimit) :
    (replayDecode t c.call c.args d).Settles t c d := by
  obtain ⟨op, call, args⟩ := c
  have hrestarts : ∀ slot, ContextCall.restarts ⟨op, call, args⟩ slot = false :=
    restarts_eq_false (by rcases hop with rfl | rfl <;> simp)
  unfold replayDecode
  simp only
  split
  · exact settles_of_stopped rfl
  · split
    · refine settles_of_no_offer hrestarts (fun slot => ?_) rfl
      rcases hop with rfl | rfl <;> cases slot <;> rfl
    · next arg rest =>
      have hoffer (slot : Slot) : ContextCall.offer? t d.names ⟨op, call, arg :: rest⟩ slot =
          if slot = .request then (t.typeOf arg).target? else none := by
        rcases hop with rfl | rfl <;> cases slot <;> rfl
      rw [Ty.target?_eq] at hoffer
      split
      · next hrefused =>
        rw [if_pos hrefused] at hoffer
        exact settles_of_no_offer hrestarts (fun slot => by rw [hoffer, ite_self]) rfl
      · next hfit =>
        rw [if_neg hfit] at hoffer
        refine settles_of_offer { d with request := Ty.record d.request (t.typeOf arg) } hrestarts
          hoffer (fun slot => ?_) (fun prev hprev => ?_) fun hprev => ?_
        · cases slot <;> rfl
        · rw [show d.request.filter _ = _ from hprev]
          rcases hop with rfl | rfl <;> rfl
        · rw [show d.request.filter _ = _ from hprev]

theorem settles_replayEncode : (replayEncode t call args d).Settles t ⟨.encode, call, args⟩ d := by
  have hrestarts : ∀ slot, ContextCall.restarts ⟨.encode, call, args⟩ slot = false :=
    restarts_eq_false (by simp)
  unfold replayEncode
  split
  · exact settles_of_stopped rfl
  · split
    · exact settles_of_no_offer hrestarts (fun slot => by cases slot <;> rfl) rfl
    · next arg rest =>
      have hoffer (slot : Slot) : ContextCall.offer? t d.names ⟨.encode, call, arg :: rest⟩ slot =
          if slot = .response then some (t.typeOf arg) else none := by
        cases slot <;> rfl
      refine settles_of_offer { d with response := Ty.record d.response (t.typeOf arg) } hrestarts
        hoffer (fun slot => ?_) (fun prev hprev => ?_) fun hprev => ?_
      · cases slot <;> rfl
      · simp only [show d.response.filter _ = _ from hprev]
        rfl
      · simp only [show d.response.filter _ = _ from hprev]

theorem settles_replayDecodeForm :
    (replayDecodeForm t call args d).Settles t ⟨.decodeForm, call, args⟩ d := by
  have hrestarts : ∀ slot, ContextCall.restarts ⟨.decodeForm, call, args⟩ slot = false :=
    restarts_eq_false (by simp)
  unfold replayDecodeForm
  split
  · next nameNode value rest =>
    have hoffer (slot : Slot) :
        ContextCall.offer? t d.names ⟨.decodeForm, call, nameNode :: value :: rest⟩ slot =
          if (t.constantText? nameNode).map .query = some slot then some (t.typeOf value)
          else none := by
      cases slot <;> simp [ContextCall.offer?]
    split
    · next hname => exact settles_of_no_offer hrestarts (fun slot => by simp [hoffer, hname]) rfl
    · next name hname =>
      obtain ⟨kept, hkept⟩ := exists_record (d.route.query? name) (t.typeOf value)
      have hoffer (slot : Slot) :
          ContextCall.offer? t d.names ⟨.decodeForm, call, nameNode :: value :: rest⟩ slot =
            if slot = .query name then some (t.typeOf value) else none := by
        simp [hoffer, hname, eq_comm]
      refine settles_of_offer { d with route := d.route.setQuery name kept } hrestarts hoffer
        (fun slot => ?_) (fun prev hprev => ?_) fun hprev => ?_
      · rw [Draft.held_setQuery, ← hkept]
        rfl
      · simp only [show (d.route.query? name).filter _ = _ from hprev]
        rfl
      · simp only [show (d.route.query? name).filter _ = _ from hprev, hkept]
  · next hfew => exact settles_of_few (.inr (.inl rfl)) hfew

/-- Both operations on path parameters: `fit` is what refuses the type. -/
theorem settles_replayParam {op : String} {nameNode : Node} {fit : Option String}
    (hrestarts : ∀ slot, c.restarts slot = false)
    (hoffer : ∀ slot, c.offer? t d.names slot =
      if fit = none ∧ (ContextCall.named? t d.names nameNode).map .param = some slot then some ty
      else none) :
    (replayParam t d op nameNode c.disputedAt ty fit).Settles t c d := by
  unfold replayParam
  split
  · next hname =>
    refine settles_of_no_offer hrestarts (fun slot => ?_) rfl
    simp [hoffer, ContextCall.named?, hname]
  · next name hname =>
    have hindex : ContextCall.named? t d.names nameNode = d.names.idxOf? name := by
      simp [ContextCall.named?, hname]
    have hfind : d.route.param? name = (d.names.idxOf? name).bind (d.route.pathParams[·]?) :=
      find?_eq_idxOf?
    rw [hindex] at hoffer
    split
    · next hnone =>
      have hindex : d.names.idxOf? name = none := by
        rw [List.idxOf?_eq_none_iff]
        intro hmem
        obtain ⟨p, hp, heq⟩ := List.mem_map.1 hmem
        exact absurd (List.find?_eq_none.1 hnone p hp) (by simp [heq])
      exact settles_of_no_offer hrestarts (fun slot => by simp [hoffer, hindex]) rfl
    · next param hparam =>
      rw [hparam] at hfind
      obtain ⟨i, hi, hget⟩ := Option.bind_eq_some_iff.1 hfind.symm
      have hnamed : param.name = name := by simpa using List.find?_some hparam
      have hheld : d.held (.param i) = param.ty := by simp [Draft.held, hget]
      cases fit with
      | some refusal =>
        refine settles_of_no_offer hrestarts (fun slot => by simp [hoffer]) ?_
        cases param.ty.filter (·.conflicts ty) <;> rfl
      | none =>
        obtain ⟨kept, hkept⟩ := exists_record param.ty ty
        have hoffer (slot : Slot) :
            c.offer? t d.names slot = if slot = .param i then some ty else none := by
          simp [hoffer, hi, eq_comm]
        refine settles_of_offer { d with route := d.route.setParam name kept } hrestarts hoffer
          (fun slot => ?_) (fun prev hprev => ?_) fun hprev => ?_
        · rw [Draft.held_setParam hi hget, hheld, hkept]
        · rw [hheld] at hprev
          have htext : (d.names[i]?).getD "" = name := by simp [Draft.names, hget, hnamed]
          simp only [hprev, ContextCall.conflict, htext]
          rfl
        · rw [hheld] at hprev
          simp only [hprev, hkept]

theorem settles_replayDecodeParam :
    (replayDecodeParam t args d).Settles t ⟨.decodeParam, call, args⟩ d := by
  have hrestarts : ∀ slot, ContextCall.restarts ⟨.decodeParam, call, args⟩ slot = false :=
    restarts_eq_false (by simp)
  unfold replayDecodeParam
  split
  · next nameNode value rest =>
    refine settles_replayParam (c := ⟨.decodeParam, call, nameNode :: value :: rest⟩) hrestarts
      fun slot => ?_
    cases slot with
    | param i =>
      simp only [ContextCall.offer?, Ty.target?_eq]
      by_cases hname : ContextCall.named? t d.names nameNode = some i <;>
        cases (!(t.typeOf value).isUnknown && !(t.typeOf value).isPointer) <;> simp [hname]
    | _ => simp [ContextCall.offer?]
  · next hfew => exact settles_of_few (.inr (.inr rfl)) hfew

theorem settles_replayPathParam :
    (replayPathParam t call args d).Settles t ⟨.pathParam, call, args⟩ d := by
  have hrestarts : ∀ slot, ContextCall.restarts ⟨.pathParam, call, args⟩ slot = false :=
    restarts_eq_false (by simp)
  unfold replayPathParam
  split
  · next nameNode rest =>
    refine settles_replayParam (c := ⟨.pathParam, call, nameNode :: rest⟩) hrestarts fun slot => ?_
    cases slot <;> simp [ContextCall.offer?]
  · exact settles_of_no_offer hrestarts (fun slot => by cases slot <;> rfl) rfl

/-- One call. -/
theorem settles_apply (c : ContextCall) : (d.apply t c).Settles t c d := by
  obtain ⟨op, call, args⟩ := c
  have hsilent (h : op = .error ∨ op = .check) : (Replay.go d).Settles t ⟨op, call, args⟩ d := by
    refine settles_of_no_offer (restarts_eq_false ?_) (fun slot => ?_) rfl
    · rcases h with rfl | rfl <;> simp
    · rcases h with rfl | rfl <;> cases slot <;> rfl
  cases op with
  | custom => exact settles_replayCustom
  | decode => exact settles_replayDecode (c := ⟨.decode, call, args⟩) (.inl rfl)
  | decodeLimit => exact settles_replayDecode (c := ⟨.decodeLimit, call, args⟩) (.inr rfl)
  | encode => exact settles_replayEncode
  | decodeForm => exact settles_replayDecodeForm
  | decodeParam => exact settles_replayDecodeParam
  | pathParam => exact settles_replayPathParam
  | error => exact hsilent (.inl rfl)
  | check => exact hsilent (.inr rfl)

end

/-! ## All calls -/

section
variable {t : Typer} {c : ContextCall} {d d' : Draft} {calls more : List ContextCall} {slot : Slot}
  {ts : List Ty}

theorem names_apply (h : (d.apply t c).draft? = some d') : d'.names = d.names :=
  ((apply_sane (t := t) (d := d) c).kept d' h).params

theorem applyAll_cons (h : (d.apply t c).draft? = some d') : d.applyAll t (c :: calls) =
    ⟨(d.apply t c).notes ++ (d'.applyAll t calls).notes, (d'.applyAll t calls).draft?⟩ := by
  rw [Draft.applyAll]
  cases happly : d.apply t c with
  | mk notes draft? =>
    obtain rfl : draft? = some d' := by simpa [happly] using h
    rfl

theorem exists_apply_of_applyAll (h : (d.applyAll t (c :: calls)).draft? = some d') :
    ∃ d₁, (d.apply t c).draft? = some d₁ ∧ (d₁.applyAll t calls).draft? = some d' := by
  cases happly : (d.apply t c).draft? with
  | some d₁ =>
    rw [applyAll_cons happly] at h
    exact ⟨d₁, rfl, h⟩
  | none =>
    rw [Draft.applyAll] at h
    split at h
    · exact absurd h (Option.some_ne_none _).symm
    · next heq => simp [heq] at happly

/-- What all calls leave in a slot, by induction on them. -/
theorem held_applyAll (h : (d.applyAll t calls).draft? = some d') (hts : d.held slot = settled ts) :
    d'.held slot = settled (calls.foldl (fun ts c => c.extend t d.names slot ts) ts) := by
  induction calls generalizing d ts with
  | nil =>
    obtain rfl := Option.some.inj h
    exact hts
  | cons c calls ih =>
    obtain ⟨d₁, happly, hrest⟩ := exists_apply_of_applyAll h
    have hheld := (settles_apply c).held d₁ happly slot ts hts
    rw [List.foldl_cons, ← names_apply happly]
    rw [← names_apply happly] at hheld
    exact ih hrest hheld

end

/-! ## Routes -/

/-- The route of a table entry, before any call of its handler. -/
def ServerRoute.blank (r : ServerRoute) : ServerRoute :=
  { r with
    pathParams := r.pathParams.map fun p => { p with ty := none }
    queryParams := []
    request := .untypedNil
    response := .untypedNil }

theorem ServerRoute.blank_new (method path : String) (position : Position) :
    (ServerRoute.new method path position).blank = .new method path position := by
  simp [blank, ServerRoute.new]

theorem SameEntry.blank {r r' : ServerRoute} (h : SameEntry r r') : r'.blank = r.blank := by
  have hparams (r : ServerRoute) : r.pathParams.map (fun p => { p with ty := none }) =
      (r.pathParams.map (·.name)).map fun name => ({ name } : PathParam) := by
    rw [List.map_map]
    rfl
  simp [ServerRoute.blank, hparams, h.method, h.path, h.params, h.position, h.seen]

/-- The replay that an accepted entry ends with. -/
theorem exists_applyAll_of_accepted {t : Typer} {config : Config} {key value : Node}
    {r : ServerRoute} {h : Handler} (haccepted : (t.readEntry config key value).2 = .accepted r h) :
    ∃ d, ({ route := r.blank } : Draft).applyAll (h.typer t.index)
        (h.contextCalls (h.typer t.index) config.library) =
          ⟨(t.readEntry config key value).1, some d⟩ ∧ r = d.finish := by
  have hreplay : ∃ route : ServerRoute, route.blank = route ∧
      h.replay t.index config.library route = ((t.readEntry config key value).1, some r) := by
    unfold Typer.readEntry at haccepted ⊢
    simp only at haccepted ⊢
    split at haccepted
    · exact nomatch haccepted
    · split at haccepted
      · exact nomatch haccepted
      · split at haccepted
        · next hreplay =>
          obtain ⟨rfl, rfl⟩ := Entry.Outcome.accepted.injEq .. ▸ haccepted
          simp only [*]
          exact ⟨_, ServerRoute.blank_new .., hreplay⟩
        · exact nomatch haccepted
  obtain ⟨route, hblank, hreplay⟩ := hreplay
  have hentry := (replay_sane h t.index config.library route).2 r (by rw [hreplay])
  rw [hentry.blank, hblank]
  unfold Handler.replay at hreplay
  simp only at hreplay
  split at hreplay
  · simp at hreplay
  · next notes d hrun =>
    split at hreplay
    · simp at hreplay
    · split at hreplay
      · simp at hreplay
      · obtain ⟨hnotes, hroute⟩ := Prod.mk.inj hreplay
        exact ⟨d, hnotes ▸ hrun, (Option.some.inj hroute).symm⟩

section
variable {r : ServerRoute} {slot : Slot}

theorem names_blank : ({ route := r.blank } : Draft).names = r.pathParams.map (·.name) := by
  simp [Draft.names, ServerRoute.blank]

theorem held_blank : ({ route := r.blank } : Draft).held slot = settled [] := by
  cases slot with
  | param i => simp [Draft.held, ServerRoute.blank, settled, firstKnown?]
  | _ => rfl

theorem held_applyAll_blank {t : Typer} {calls : List ContextCall} {d : Draft}
    (h : (({ route := r.blank } : Draft).applyAll t calls).draft? = some d) :
    d.held slot = settled (offered t (r.pathParams.map (·.name)) slot calls) := by
  rw [offered, ← names_blank]
  exact held_applyAll h held_blank

end

/-- Of every accepted entry of a sample file, what the calls of its handler are to the request. -/
def SourceFile.requests (f : SourceFile) : List (List (Bool × Option Ty)) :=
  (routeEntries (.build ⟨[f]⟩) [f] "jape").filterMap fun (t, key, value) =>
    match (t.readEntry {} key value).2 with
    | .accepted r h => some <| (h.contextCalls (h.typer t.index) "jape").map fun c =>
        (c.restarts .request, c.offer? (h.typer t.index) (r.pathParams.map (·.name)) .request)
    | _ => none

end RouteCheck
