import Mathlib.Data.List.FinRange
import RouteCheck.Check.Parity

/-!
What it means that the parity of calls and routes finds nothing.

A call `Agrees` with its route when it has enough path slots, names declared query keys only, and
sends and takes the recorded types, as far as both sides are known. `checkCalls` marks routes one
after the other; what it does depends on the routes that are not yet marked (`unseenKeys`).

Main statements:
  1. `compareCall_eq_nil_iff`: comparing a call with a route finds nothing just if they agree.
  2. `checkCalls_clean_iff`: checking calls and then looking for routes without a call finds
     nothing just if the keys of the calls are those of the unmarked routes, each once, and every
     call agrees with its route. By induction on the calls; `checkCall_clean_iff` is the step.
  3. `keyBijection_iff_perm`: for a table of unmarked routes that is the same as a bijection.
-/

namespace RouteCheck

/-! ## Calls against routes -/

/-- The types are the same, or some part of one of them is unknown. -/
def Ty.Fits (got want : Ty) : Prop :=
  got = want ∨ got.containsUnknown = true ∨ want.containsUnknown = true

/-- The call is made as the route expects it. -/
structure Agrees (index : Index) (route : ServerRoute) (call : ClientCall) : Prop where
  request : ∀ n, call.request = some n →
    ((Typer.enclosing index call.file call.node).typeOf n).Fits route.request.elem
  response : ∀ n, call.response = some n →
    ((Typer.enclosing index call.file call.node).typeOf n).Fits route.response.ptrOrNil
  /-- Every path parameter has a slot. -/
  slots : route.pathParams.length ≤ call.pathParams.length
  path : ∀ (i : Nat) (p : PathParam) (n : Node) (ty : Ty), route.pathParams[i]? = some p →
    call.pathParams[i]? = some (some n) → p.ty = some ty →
    ((Typer.enclosing index call.file call.node).typeOf n).Fits ty.elem
  /-- Every query key is declared. -/
  declared : ∀ name arg, (name, arg) ∈ call.queryParams → (route.query? name).isSome
  query : ∀ name n ty, (name, some n) ∈ call.queryParams → route.query? name = some ty →
    ((Typer.enclosing index call.file call.node).typeOf n).Fits ty.elem

section
variable {t : Typer} {route : ServerRoute} {call : ClientCall}

theorem compareTypes_eq_nil_iff {n : Node} {got want : Ty} {message : String} :
    compareTypes t n got want message = [] ↔ got.Fits want := by
  unfold compareTypes Ty.Fits
  by_cases hgot : got.containsUnknown = true
  · simp [hgot]
  · by_cases hwant : want.containsUnknown = true
    · simp [hwant]
    · simp [hgot, hwant, Ty.identical]

theorem compareRequest_eq_nil_iff : compareRequest t route call = [] ↔
    ∀ n, call.request = some n → (t.typeOf n).Fits route.request.elem := by
  unfold compareRequest
  cases call.request with
  | none => simp
  | some n => simp [compareTypes_eq_nil_iff]

theorem compareResponse_eq_nil_iff : compareResponse t route call = [] ↔
    ∀ n, call.response = some n → (t.typeOf n).Fits route.response.ptrOrNil := by
  unfold compareResponse
  cases call.response with
  | none => simp
  | some n => simp [compareTypes_eq_nil_iff]

theorem compareSlot_eq_nil_iff {arg : Option Node} {p : PathParam} : compareSlot t arg p = [] ↔
    ∀ n ty, arg = some n → p.ty = some ty → (t.typeOf n).Fits ty.elem := by
  unfold compareSlot
  cases arg <;> cases p.ty <;> simp [compareTypes_eq_nil_iff]

theorem comparePath_eq_nil_iff {ps : List PathParam} {args : List (Option Node)} :
    comparePath t route call ps args = [] ↔ ps.length ≤ args.length ∧
      ∀ (i : Nat) (p : PathParam) (n : Node) (ty : Ty), ps[i]? = some p →
        args[i]? = some (some n) → p.ty = some ty → (t.typeOf n).Fits ty.elem := by
  induction ps generalizing args with
  | nil => simp [comparePath]
  | cons p ps ih =>
    cases args with
    | nil => simp [comparePath]
    | cons arg args =>
      rw [comparePath, List.append_eq_nil_iff, compareSlot_eq_nil_iff, ih]
      constructor
      · rintro ⟨hfirst, hle, hrest⟩
        refine ⟨Nat.succ_le_succ hle, fun i q n ty hq harg hty => ?_⟩
        cases i with
        | zero =>
          obtain rfl : p = q := by simpa using hq
          exact hfirst n ty (by simpa using harg) hty
        | succ i => exact hrest i q n ty (by simpa using hq) (by simpa using harg) hty
      · rintro ⟨hle, hall⟩
        refine ⟨fun n ty harg hty => hall 0 p n ty rfl (by simp [harg]) hty,
          Nat.le_of_succ_le_succ hle, fun i q n ty hq harg hty => ?_⟩
        exact hall (i + 1) q n ty (by simpa using hq) (by simpa using harg) hty

theorem compareQuery_eq_nil_iff {name : String} {arg : Option Node} :
    compareQuery t route call name arg = [] ↔ (route.query? name).isSome ∧
      ∀ n ty, arg = some n → route.query? name = some ty → (t.typeOf n).Fits ty.elem := by
  unfold compareQuery
  cases route.query? name with
  | none => simp
  | some ty => cases arg <;> simp [compareTypes_eq_nil_iff]

/-- Comparing a call with a route finds nothing just if they agree. -/
theorem compareCall_eq_nil_iff {index : Index} :
    compareCall index route call = [] ↔ Agrees index route call := by
  unfold compareCall
  simp only [List.append_eq_nil_iff, compareRequest_eq_nil_iff, compareResponse_eq_nil_iff,
    comparePath_eq_nil_iff, List.flatMap_eq_nil_iff, compareQuery_eq_nil_iff]
  constructor
  · rintro ⟨⟨⟨hrequest, hresponse⟩, hslots, hpath⟩, hquery⟩
    exact
      { request := hrequest
        response := hresponse
        slots := hslots
        path := hpath
        declared := fun name arg h => (hquery (name, arg) h).1
        query := fun name n ty h hty => (hquery (name, some n) h).2 n ty rfl hty }
  · intro h
    refine ⟨⟨⟨h.request, h.response⟩, h.slots, h.path⟩, fun ⟨name, arg⟩ hmem => ?_⟩
    refine ⟨h.declared name arg hmem, fun n ty harg hty => ?_⟩
    subst harg
    exact h.query name n ty hmem hty

end

/-! ## Marking routes -/

namespace RouteTable

/-- No two routes of the table have one key. -/
def Keyed (table : RouteTable) : Prop := (table.routes.map (·.key)).Nodup

/-- Keys of the routes that no call has been matched with. -/
def unseenKeys (table : RouteTable) : List String :=
  (table.routes.filter (!·.seen)).map (·.key)

/-- Mark the route with this key as seen. -/
def mark (table : RouteTable) (key : String) : RouteTable :=
  table.modify key fun r => { r with seen := true }

variable {table : RouteTable} {key : String} {r : ServerRoute}

theorem get?_mem (h : table.get? key = some r) : r ∈ table.routes ∧ r.key = key :=
  ⟨List.mem_of_find?_eq_some h, by simpa using List.find?_some h⟩

theorem get?_of_mem (hkeys : table.Keyed) (h : r ∈ table.routes) : table.get? r.key = some r := by
  obtain ⟨routes, rejected⟩ := table
  show routes.find? (·.key == r.key) = some r
  induction routes with
  | nil => exact absurd h List.not_mem_nil
  | cons q rest ih =>
    obtain ⟨hnot, hrest⟩ := List.nodup_cons.1 hkeys
    rcases List.mem_cons.1 h with rfl | h
    · simp
    · have hmem : r.key ∈ rest.map (·.key) := List.mem_map_of_mem h
      have hne : q.key ≠ r.key := by
        intro heq
        rw [← heq] at hmem
        exact hnot hmem
      rw [List.find?_cons_of_neg (by simpa using hne)]
      exact ih hrest h

theorem map_key_mark : (table.mark key).routes.map (·.key) = table.routes.map (·.key) := by
  simp only [mark, modify, List.map_map]
  refine List.map_congr_left fun r _ => ?_
  simp only [Function.comp_apply]
  split <;> rfl

theorem Keyed.mark (h : table.Keyed) : (table.mark key).Keyed := by
  unfold Keyed
  rw [map_key_mark]
  exact h

theorem get?_mark_of_ne {key' : String} (h : key' ≠ key) :
    (table.mark key).get? key' = table.get? key' := by
  simp only [get?, RouteTable.mark, modify]
  induction table.routes with
  | nil => rfl
  | cons q rest ih =>
    rw [List.map_cons]
    by_cases hq : q.key = key'
    · have hne : q.key ≠ key := fun heq => h (hq.symm.trans heq)
      simp [hq, h]
    · have hq' : (if (q.key == key) = true then ({ q with seen := true } : ServerRoute) else q).key
          ≠ key' := by
        split <;> exact hq
      rw [List.find?_cons_of_neg (by simpa using hq'), List.find?_cons_of_neg (by simpa using hq)]
      exact ih

theorem nodup_unseenKeys (h : table.Keyed) : table.unseenKeys.Nodup :=
  h.sublist (List.Sublist.map _ List.filter_sublist)

theorem unseenKeys_mark (hkeys : table.Keyed) (h : table.get? key = some r)
    (hseen : r.seen = false) : table.unseenKeys.Perm (key :: (table.mark key).unseenKeys) := by
  obtain ⟨routes, rejected⟩ := table
  show ((routes.filter (!·.seen)).map (·.key)).Perm (key ::
    (((routes.map fun q => if q.key == key then { q with seen := true } else q).filter
      (!·.seen)).map (·.key)))
  induction routes with
  | nil => simp [get?] at h
  | cons q rest ih =>
    obtain ⟨hnot, hrest⟩ := List.nodup_cons.1 hkeys
    by_cases hq : q.key = key
    · obtain rfl : q = r := by simpa [get?, hq] using h
      have hsame : (rest.map fun q => if q.key == key then { q with seen := true } else q) =
          rest := by
        refine (List.map_congr_left fun q' hq' => ?_).trans (List.map_id rest)
        have hne : q'.key ≠ key := fun heq => hnot (by
          show q.key ∈ rest.map (·.key)
          rw [hq, ← heq]
          exact List.mem_map_of_mem hq')
        simp [hne]
      rw [List.map_cons, hsame]
      simp [hseen, hq]
    · have ih := ih hrest (by simpa [get?, hq] using h)
      cases hs : q.seen with
      | true => simpa [hq, hs] using ih
      | false =>
        have hne : (q.key == key) = false := by simpa using hq
        simp only [List.filter_cons, hs, List.map_cons, hne, Bool.false_eq_true, if_false,
          Bool.not_false, if_true]
        exact (ih.cons q.key).trans (.swap ..)

end RouteTable

/-! ## Calls in order -/

section
variable {index : Index} {table : RouteTable}

/-- The step: checking a call finds nothing just if its key is that of an unmarked route, which it
agrees with and marks. -/
theorem checkCall_clean_iff (hrejected : table.rejected = []) {call : ClientCall} :
    (checkCall index table call).1 = [] ↔
      ∃ r, table.get? call.key = some r ∧ r.seen = false ∧ Agrees index r call := by
  have hnot : table.isRejected call.key = false := by simp [RouteTable.isRejected, hrejected]
  unfold checkCall
  simp only [hnot, Bool.false_eq_true, if_false]
  cases table.get? call.key with
  | none => simp
  | some r => cases hseen : r.seen <;> simp [hseen, compareCall_eq_nil_iff]

theorem checkCall_table (hrejected : table.rejected = []) {call : ClientCall} {r : ServerRoute}
    (hget : table.get? call.key = some r) (hseen : r.seen = false) :
    (checkCall index table call).2 = table.mark call.key := by
  have hnot : table.isRejected call.key = false := by simp [RouteTable.isRejected, hrejected]
  simp [checkCall, hnot, hget, hseen, RouteTable.mark]

theorem missingRoutes_eq_nil_iff : missingRoutes table = [] ↔ table.unseenKeys = [] := by
  simp [missingRoutes, RouteTable.unseenKeys]

/-- Checking calls, and looking for routes without one, finds nothing just if the keys of the
calls are those of the unmarked routes, each once, and every call agrees with its route. -/
theorem checkCalls_clean_iff {calls : List ClientCall} (hrejected : table.rejected = [])
    (hkeys : table.Keyed) :
    ((checkCalls index table calls).1 = [] ∧
      missingRoutes (checkCalls index table calls).2 = []) ↔
    (calls.map (·.key)).Perm table.unseenKeys ∧
      ∀ c ∈ calls, ∀ r, table.get? c.key = some r → Agrees index r c := by
  induction calls generalizing table with
  | nil =>
    simp only [checkCalls, missingRoutes_eq_nil_iff, List.map_nil, true_and, List.not_mem_nil,
      false_implies, implies_true, and_true]
    exact ⟨fun h => h ▸ .refl _, fun h => h.symm.eq_nil⟩
  | cons c cs ih =>
    have hstep : checkCalls index table (c :: cs) =
        ((checkCall index table c).1 ++ (checkCalls index (checkCall index table c).2 cs).1,
          (checkCalls index (checkCall index table c).2 cs).2) := rfl
    have hne (hnodup : ((c :: cs).map (·.key)).Nodup) : ∀ d ∈ cs, d.key ≠ c.key := by
      intro d hd heq
      have hmem : d.key ∈ cs.map (·.key) := List.mem_map_of_mem hd
      rw [heq] at hmem
      exact (List.nodup_cons.1 hnodup).1 hmem
    have ih := @ih (table.mark c.key) hrejected hkeys.mark
    rw [hstep, List.append_eq_nil_iff, checkCall_clean_iff hrejected]
    constructor
    · rintro ⟨⟨⟨r, hget, hseen, hagrees⟩, hrest⟩, hmissing⟩
      rw [checkCall_table hrejected hget hseen] at hrest hmissing
      obtain ⟨hperm, hall⟩ := ih.1 ⟨hrest, hmissing⟩
      have hperm : ((c :: cs).map (·.key)).Perm table.unseenKeys :=
        (hperm.cons c.key).trans (RouteTable.unseenKeys_mark hkeys hget hseen).symm
      have hnodup := hperm.nodup_iff.2 (RouteTable.nodup_unseenKeys hkeys)
      refine ⟨hperm, fun d hd q hq => ?_⟩
      rcases List.mem_cons.1 hd with rfl | hd
      · obtain rfl : r = q := Option.some.inj (hget.symm.trans hq)
        exact hagrees
      · -- the later calls have other keys, so marking has not changed their routes
        exact hall d hd q (by rwa [RouteTable.get?_mark_of_ne (hne hnodup d hd)])
    · rintro ⟨hperm, hall⟩
      have hmem : c.key ∈ table.unseenKeys := hperm.subset List.mem_cons_self
      obtain ⟨r, hr, hkey⟩ := List.mem_map.1 hmem
      obtain ⟨hr, hseen⟩ := List.mem_filter.1 hr
      have hseen : r.seen = false := by simpa using hseen
      have hget : table.get? c.key = some r := hkey ▸ RouteTable.get?_of_mem hkeys hr
      have hrest := hperm.trans (RouteTable.unseenKeys_mark hkeys hget hseen)
      have hnodup := hperm.nodup_iff.2 (RouteTable.nodup_unseenKeys hkeys)
      obtain ⟨hclean, hmissing⟩ := ih.2
        ⟨hrest.cons_inv, fun d hd q hq => by
          rw [RouteTable.get?_mark_of_ne (hne hnodup d hd)] at hq
          exact hall d (List.mem_cons_of_mem _ hd) q hq⟩
      rw [checkCall_table hrejected hget hseen]
      exact ⟨⟨⟨r, hget, hseen, hall c List.mem_cons_self r hget⟩, hclean⟩, hmissing⟩

end

/-! ## The bijection -/

/-- Sending each call to the route with its key is a bijection between calls and routes. -/
def KeyBijection (table : RouteTable) (calls : List ClientCall) : Prop :=
  ∃ f : Fin calls.length → Fin table.routes.length, Function.Bijective f ∧
    ∀ i, table.get? (calls.get i).key = some (table.routes.get (f i))

section
variable {table : RouteTable} {calls : List ClientCall}

theorem nodup_map_iff_get {α β : Type} (f : α → β) (l : List α) :
    (l.map f).Nodup ↔ Function.Injective fun i : Fin l.length => f (l.get i) := by
  rw [← List.ofFn_getElem_eq_map, List.nodup_ofFn]
  rfl

theorem mem_map_iff_get {α β : Type} (f : α → β) (l : List α) {b : β} :
    b ∈ l.map f ↔ ∃ i : Fin l.length, f (l.get i) = b := by
  rw [List.mem_map]
  constructor
  · rintro ⟨a, ha, rfl⟩
    obtain ⟨i, rfl⟩ := List.mem_iff_get.1 ha
    exact ⟨i, rfl⟩
  · rintro ⟨i, rfl⟩
    exact ⟨l.get i, List.get_mem l i, rfl⟩

/-- The calls have the keys of the routes, each once, just if there is such a bijection. -/
theorem keyBijection_iff_perm (hkeys : table.Keyed) :
    KeyBijection table calls ↔ (calls.map (·.key)).Perm (table.routes.map (·.key)) := by
  have hroutes := (nodup_map_iff_get ServerRoute.key table.routes).1 hkeys
  have hget (j : Fin table.routes.length) :
      table.get? (table.routes.get j).key = some (table.routes.get j) :=
    RouteTable.get?_of_mem hkeys (List.get_mem table.routes j)
  constructor
  · rintro ⟨f, ⟨hinj, hsurj⟩, hf⟩
    have hkey (i : Fin calls.length) : (table.routes.get (f i)).key = (calls.get i).key :=
      (RouteTable.get?_mem (hf i)).2
    have hcalls : (calls.map (·.key)).Nodup := by
      refine (nodup_map_iff_get ClientCall.key calls).2 fun i j hij => hinj (hroutes ?_)
      simp only [hkey]
      exact hij
    refine (List.perm_ext_iff_of_nodup hcalls hkeys).2 fun key => ?_
    rw [mem_map_iff_get, mem_map_iff_get]
    constructor
    · rintro ⟨i, rfl⟩
      exact ⟨f i, hkey i⟩
    · rintro ⟨j, rfl⟩
      obtain ⟨i, rfl⟩ := hsurj j
      exact ⟨i, (hkey i).symm⟩
  · intro hperm
    have hcalls := (nodup_map_iff_get ClientCall.key calls).1 (hperm.nodup_iff.2 hkeys)
    have hexists (i : Fin calls.length) : ∃ j : Fin table.routes.length,
        (table.routes.get j).key = (calls.get i).key :=
      (mem_map_iff_get ServerRoute.key table.routes).1
        (hperm.subset (List.mem_map_of_mem (List.get_mem calls i)))
    -- the keys differ pairwise on both sides, so that the route of a call is the only one
    choose f hf using hexists
    refine ⟨f, ⟨fun i j hij => hcalls ?_, fun j => ?_⟩, fun i => ?_⟩
    · show (calls.get i).key = (calls.get j).key
      rw [← hf i, ← hf j, hij]
    · obtain ⟨i, hi⟩ := (mem_map_iff_get ClientCall.key calls).1
        (hperm.symm.subset (List.mem_map_of_mem (List.get_mem table.routes j)))
      exact ⟨i, hroutes ((hf i).trans hi)⟩
    · rw [← hf i]
      exact hget (f i)

/-- The parity of a table of unmarked routes and of calls finds nothing just if matching by key is
a bijection and every call agrees with its route. -/
theorem checkParity_eq_nil_iff {index : Index} (hrejected : table.rejected = [])
    (hkeys : table.Keyed) (hunseen : ∀ r ∈ table.routes, r.seen = false) :
    (checkParity index table calls).1 = [] ↔
      KeyBijection table calls ∧
        ∀ c ∈ calls, ∀ r, table.get? c.key = some r → Agrees index r c := by
  have hkeysUnseen : table.unseenKeys = table.routes.map (·.key) := by
    unfold RouteTable.unseenKeys
    rw [List.filter_eq_self.2 fun r hr => by simp [hunseen r hr]]
  rw [keyBijection_iff_perm hkeys, ← hkeysUnseen, ← checkCalls_clean_iff hrejected hkeys]
  exact List.append_eq_nil_iff

end

end RouteCheck
