import RouteCheck.Proofs.Check.Parity

/-!
What becomes of each client call.

`checkCalls` threads a table through the calls and marks routes in it. `RouteTable.treatment` says
without marks what is to become of a call: it looks at the table as it was and at the calls before.
The invariant that joins the two is that the marked routes are those whose key an earlier call has
that was not passed over (`RouteTable.sought`).

Main statements:
  1. `checkCall_marking`, `checkCalls_marking`: one call, and all of them, with the marks that they
     leave.
  2. `sought_iff_compares`: a route's key is sought just if some call with it is compared.
  3. `checkParity_treats`: every call is treated in one way, a route ends as seen just if a call was
     compared with it, and each unseen route is reported once.
-/

namespace RouteCheck

/-- What becomes of a client call. -/
inductive Treatment where
  /-- Its key was refused in the route table. -/
  | passedOver
  /-- No route has its key. -/
  | undefined
  /-- An earlier call has its key. -/
  | repeated (route : ServerRoute)
  | compared (route : ServerRoute)

/-- What is reported of a call that is treated so. -/
def Treatment.notes (index : Index) (call : ClientCall) : Treatment → List Diagnostic
  | passedOver => []
  | undefined =>
    [⟨call.position, "Client references route not defined by server: " ++ call.label⟩]
  | repeated route => [⟨call.position, "Client references " ++ route.label ++ " multiple times"⟩]
  | compared route => compareCall index route call

namespace RouteTable

/-- A call that is not passed over has this key. -/
def sought (table : RouteTable) (calls : List ClientCall) (key : String) : Bool :=
  calls.any fun c => !table.isRejected c.key && c.key == key

/-- What is to become of a call that comes after the calls `before`. -/
def treatment (table : RouteTable) (before : List ClientCall) (call : ClientCall) : Treatment :=
  if table.isRejected call.key then .passedOver
  else match table.get? call.key with
    | none => .undefined
    | some route => if table.sought before call.key then .repeated route else .compared route

def Compares (table : RouteTable) (calls : List ClientCall) (key : String) : Prop :=
  ∃ (i : Nat) (c : ClientCall) (r : ServerRoute), calls[i]? = some c ∧ c.key = key ∧
    table.treatment (calls.take i) c = .compared r

/-- The table with marks on the routes of these keys, and on no others. -/
def marking (table : RouteTable) (marks : String → Bool) : RouteTable :=
  { table with routes := table.routes.map fun r => { r with seen := marks r.key } }

def unmarked (table : RouteTable) : RouteTable := table.marking fun _ => false

section
variable {table : RouteTable} {marks marks' : String → Bool} {key : String}

@[simp] theorem isRejected_marking : (table.marking marks).isRejected key = table.isRejected key :=
  rfl

theorem get?_marking : (table.marking marks).get? key =
    (table.get? key).map fun r => { r with seen := marks key } := by
  show (table.routes.map _).find? _ = (table.routes.find? _).map _
  induction table.routes with
  | nil => rfl
  | cons r rest ih =>
    have hkey : ({ r with seen := marks r.key } : ServerRoute).key = r.key := rfl
    by_cases h : r.key = key
    · rw [List.map_cons, List.find?_cons_of_pos (by simpa [hkey] using h),
        List.find?_cons_of_pos (by simpa using h), Option.map_some, h]
    · rw [List.map_cons, List.find?_cons_of_neg (by simpa [hkey] using h),
        List.find?_cons_of_neg (by simpa using h)]
      exact ih

theorem marking_congr (h : ∀ r ∈ table.routes, marks r.key = marks' r.key) :
    table.marking marks = table.marking marks' := by
  unfold marking
  congr 1
  exact List.map_congr_left fun r hr => by rw [h r hr]

/-- Marking one more key. -/
theorem modify_marking : (table.marking marks).modify key (fun r => { r with seen := true }) =
    table.marking fun k => marks k || k == key := by
  unfold marking modify
  simp only [List.map_map]
  congr 1
  refine List.map_congr_left fun r _ => ?_
  show (if r.key == key then _ else _) = _
  cases r.key == key <;> simp

theorem unmarked_marking : (table.marking marks).unmarked = table.unmarked := by
  unfold unmarked marking
  simp only [List.map_map]
  rfl

theorem unmark_of_unseen {r : ServerRoute} (h : r.seen = false) : { r with seen := false } = r := by
  obtain ⟨method, path, pathParams, queryParams, request, response, seen, position⟩ := r
  obtain rfl : seen = false := h
  rfl

theorem unmarked_of_unseen (h : ∀ r ∈ table.routes, r.seen = false) : table.unmarked = table := by
  have hroutes : (table.routes.map fun r => { r with seen := false }) = table.routes :=
    (List.map_congr_left fun r hr => unmark_of_unseen (h r hr)).trans (List.map_id table.routes)
  unfold unmarked marking
  rw [hroutes]

end

section
variable {table : RouteTable} {calls : List ClientCall} {c : ClientCall} {key : String}

theorem sought_append_singleton : table.sought (calls ++ [c]) key =
    (table.sought calls key || (!table.isRejected c.key && c.key == key)) := by
  simp [sought]

theorem sought_iff : table.sought calls key = true ↔
    ∃ c ∈ calls, table.isRejected c.key = false ∧ c.key = key := by
  simp [sought]

theorem not_sought_of_rejected (h : table.isRejected key = true) :
    table.sought calls key = false := by
  rw [Bool.eq_false_iff]
  intro hsought
  obtain ⟨c, _, hkept, rfl⟩ := sought_iff.1 hsought
  exact absurd h (by simp [hkept])

theorem treatment_eq_compared_iff {r : ServerRoute} : table.treatment calls c = .compared r ↔
    table.isRejected c.key = false ∧ table.get? c.key = some r ∧
      table.sought calls c.key = false := by
  unfold treatment
  cases table.isRejected c.key with
  | true => simp
  | false =>
    cases table.get? c.key with
    | none => simp
    | some r' => cases table.sought calls c.key <;> simp

/-- The first call that seeks a route is compared with it. -/
theorem sought_iff_compares {r : ServerRoute} (hr : r ∈ table.routes) :
    table.sought calls r.key = true ↔ table.Compares calls r.key := by
  constructor
  · intro h
    let seeks : ClientCall → Bool := fun c => !table.isRejected c.key && c.key == r.key
    have hi : calls.findIdx seeks < calls.length := List.findIdx_lt_length.2 (List.any_eq_true.1 h)
    have hseeks : seeks calls[calls.findIdx seeks] = true := List.findIdx_getElem
    have hkey : calls[calls.findIdx seeks].key = r.key := by
      simpa using (Bool.and_eq_true_iff.1 hseeks).2
    obtain ⟨r', hr'⟩ : ∃ r', table.get? r.key = some r' :=
      Option.isSome_iff_exists.1 (List.find?_isSome.2 ⟨r, hr, by simp⟩)
    refine ⟨calls.findIdx seeks, _, r', List.getElem?_eq_getElem hi, hkey,
      treatment_eq_compared_iff.2 ⟨?_, by rw [hkey, hr'], ?_⟩⟩
    · simpa using (Bool.and_eq_true_iff.1 hseeks).1
    · -- no call before it seeks the route
      rw [hkey]
      refine Bool.eq_false_iff.2 fun hsought => ?_
      obtain ⟨d, hd, hseeks⟩ := List.any_eq_true.1 hsought
      obtain ⟨j, hj, rfl⟩ := List.mem_take_iff_getElem.1 hd
      exact absurd hseeks (Bool.eq_false_iff.1
        (List.not_of_lt_findIdx (Nat.lt_of_lt_of_le hj (Nat.min_le_left _ _))))
  · rintro ⟨i, c, r', hc, hkey, htreated⟩
    obtain ⟨hkept, -, -⟩ := treatment_eq_compared_iff.1 htreated
    exact sought_iff.2 ⟨c, List.mem_of_getElem? hc, hkept, hkey⟩

/-- No two calls are compared with one route. -/
theorem compared_once {i j : Nat} {d : ClientCall} {r : ServerRoute} (hc : calls[i]? = some c)
    (hd : calls[j]? = some d) (hi : table.treatment (calls.take i) c = .compared r)
    (hj : table.treatment (calls.take j) d = .compared r) : i = j := by
  have hlater {i j : Nat} {c d : ClientCall} (hc : calls[i]? = some c)
      (hi : table.treatment (calls.take i) c = .compared r)
      (hj : table.treatment (calls.take j) d = .compared r) : ¬ i < j := by
    intro hlt
    obtain ⟨hkept, hget, -⟩ := treatment_eq_compared_iff.1 hi
    obtain ⟨-, hget', hfirst⟩ := treatment_eq_compared_iff.1 hj
    have hkey : c.key = d.key := (get?_mem hget).2.symm.trans (get?_mem hget').2
    have hmem : c ∈ calls.take j :=
      List.mem_of_getElem? (by rw [List.getElem?_take_of_lt hlt, hc])
    exact absurd (sought_iff.2 ⟨c, hmem, hkept, hkey⟩) (by simp [hfirst])
  have := hlater hc hi hj
  have := hlater hd hj hi
  omega

end

end RouteTable

/-! ## Checking calls -/

section
variable (index : Index) {table : RouteTable} (hunseen : ∀ r ∈ table.routes, r.seen = false)
include hunseen

/-- The step: with the marks of the calls before it, a call is treated as they decide, and leaves
the marks that include its own. -/
theorem checkCall_marking (before : List ClientCall) (call : ClientCall) :
    checkCall index (table.marking (table.sought before)) call =
      ((table.treatment before call).notes index call,
        table.marking (table.sought (before ++ [call]))) := by
  have hmarks (h : table.isRejected call.key = true ∨ table.get? call.key = none ∨
      table.sought before call.key = true) : table.marking (table.sought (before ++ [call])) =
        table.marking (table.sought before) := by
    refine RouteTable.marking_congr fun r hr => ?_
    rw [RouteTable.sought_append_singleton]
    rcases h with h | h | h
    · simp [h]
    · have hne : call.key ≠ r.key := fun heq =>
        List.find?_eq_none.1 h r hr (by simp [heq])
      simp [hne]
    · by_cases hkey : call.key = r.key
      · simp [← hkey, h]
      · simp [hkey]
  unfold checkCall RouteTable.treatment
  rw [RouteTable.isRejected_marking, RouteTable.get?_marking]
  cases hrejected : table.isRejected call.key with
  | true => simp [hmarks (.inl hrejected), Treatment.notes]
  | false =>
    cases hget : table.get? call.key with
    | none => simp [hmarks (.inr (.inl hget)), Treatment.notes]
    | some r =>
      cases hsought : table.sought before call.key with
      | true =>
        simp only [Option.map_some, if_true, hmarks (.inr (.inr hsought))]
        rfl
      | false =>
        have hlast : table.marking (table.sought (before ++ [call])) =
            table.marking fun k => table.sought before k || k == call.key := by
          refine RouteTable.marking_congr fun r _ => ?_
          rw [RouteTable.sought_append_singleton, hrejected, Bool.not_false, Bool.true_and,
            Bool.beq_comm]
        simp only [Option.map_some, Bool.false_eq_true, if_false]
        rw [RouteTable.modify_marking, hlast,
          RouteTable.unmark_of_unseen (hunseen r (RouteTable.get?_mem hget).1)]
        rfl

/-- The run, by induction on the calls. -/
theorem checkCalls_marking (before calls : List ClientCall) :
    checkCalls index (table.marking (table.sought before)) calls =
      (calls.zipIdx.flatMap fun (c, i) =>
          (table.treatment (before ++ calls.take i) c).notes index c,
        table.marking (table.sought (before ++ calls))) := by
  induction calls generalizing before with
  | nil => simp [checkCalls]
  | cons c cs ih =>
    unfold checkCalls
    rw [checkCall_marking index hunseen]
    simp only
    rw [ih (before ++ [c])]
    simp [List.zipIdx_succ, List.flatMap_map]

end

/-- The route as it is reported when no call was compared with it. -/
def ServerRoute.missing (r : ServerRoute) : Diagnostic :=
  ⟨r.position, "Client missing method for " ++ r.label⟩

/-- What checking the calls against a table without marks reports, and the table it leaves. -/
structure Treats (index : Index) (table : RouteTable) (calls : List ClientCall)
    (notes : List Diagnostic) (final : RouteTable) : Prop where
  /-- Every call is treated in the way that the table and the calls before it decide; then each
  unseen route is reported, once. -/
  reports : notes =
    (calls.zipIdx.flatMap fun (c, i) => (table.treatment (calls.take i) c).notes index c) ++
      (final.routes.filter (!·.seen)).map ServerRoute.missing
  /-- Nothing but the marks of the table changes. -/
  unmarked : final.unmarked = table
  seen_iff : ∀ r ∈ final.routes, r.seen = true ↔ table.Compares calls r.key
  /-- No two calls are compared with one route. -/
  once : ∀ (i j : Nat) (c d : ClientCall) (r : ServerRoute), calls[i]? = some c →
    calls[j]? = some d → table.treatment (calls.take i) c = .compared r →
    table.treatment (calls.take j) d = .compared r → i = j

section
variable (index : Index) {table : RouteTable} (hunseen : ∀ r ∈ table.routes, r.seen = false)
include hunseen

/-- The calls are treated as the table decides, and leave marks on the routes that they seek. -/
theorem checkParity_eq (calls : List ClientCall) : checkParity index table calls =
    ((calls.zipIdx.flatMap fun (c, i) => (table.treatment (calls.take i) c).notes index c) ++
      missingRoutes (table.marking (table.sought calls)), table.marking (table.sought calls)) := by
  have hrun := checkCalls_marking index hunseen [] calls
  have hempty : table.marking (table.sought []) = table := RouteTable.unmarked_of_unseen hunseen
  rw [hempty] at hrun
  unfold checkParity
  rw [hrun]
  rfl

/-- Every call is treated in one way, a route ends as seen just if a call was compared with it, and
each unseen route is reported once. -/
theorem checkParity_treats (calls : List ClientCall) :
    Treats index table calls (checkParity index table calls).1
      (checkParity index table calls).2 := by
  rw [checkParity_eq index hunseen]
  refine ⟨rfl, ?_, fun r hr => ?_, fun i j c d r => RouteTable.compared_once⟩
  · rw [RouteTable.unmarked_marking]
    exact RouteTable.unmarked_of_unseen hunseen
  · obtain ⟨r', hr', rfl⟩ := List.mem_map.1 hr
    exact RouteTable.sought_iff_compares hr'

end

/-- A call without arguments to the path of these pieces, for examples. -/
def ClientCall.sample (method : String) (pieces : List Piece) : ClientCall :=
  { (default : ClientCall) with
    method, path := ⟨pieces, none⟩, pathParams := (Template.slotsOf pieces).path }

/-- A table of two routes and a refused key, and calls of which each is treated in another way. -/
theorem checkParity_treats_each :
    let table : RouteTable :=
      { routes := [.new "GET" "/items/:id" default, .new "DELETE" "/items" default]
        rejected := ["GET /refused"] }
    let calls : List ClientCall := [.sample "GET" [.lit "/items/", .hole none],
      .sample "GET" [.lit "/items/", .hole none], .sample "DELETE" [.lit "/nothing"],
      .sample "GET" [.lit "/refused"]]
    (∀ r ∈ table.routes, r.seen = false) ∧
      (checkParity {} table calls).1.map (·.message) =
        ["Client references GET /items/:id multiple times",
          "Client references route not defined by server: DELETE /nothing",
          "Client missing method for DELETE /items"] ∧
      (checkParity {} table calls).2.routes.map (·.seen) = [true, false] ∧
      Treats {} table calls (checkParity {} table calls).1 (checkParity {} table calls).2 := by
  intro table calls
  have hunseen : ∀ r ∈ table.routes, r.seen = false := by decide
  exact ⟨hunseen, by decide +kernel, by decide +kernel, checkParity_treats {} hunseen calls⟩

end RouteCheck
