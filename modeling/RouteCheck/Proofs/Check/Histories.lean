import RouteCheck.Proofs.Check.Routes

/-!
Route tables over histories of operations.

A history is any sequence of inserts, rejects and look-ups on a table that is empty at first. What
a look-up does with the route it finds is any `Update`: a change that leaves the method and the path
alone. `firsts` reads the routes of a history off the history itself. An `IndexedTable` keeps beside
the routes the place of each by key, and carries the proof that the places are right.

Main statements:
  1. `routes_run`: the routes after a history, from any table; by induction on the history.
  2. `IndexedTable.toRouteTable_perform`: going through the places makes no difference.
  3. `consistent_after`: what holds after every history.
-/

namespace RouteCheck
namespace RouteTable

/-! ## Operations -/

/-- A change of a stored route that leaves its method and its path alone. -/
structure Update where
  apply : ServerRoute → ServerRoute
  method_apply : ∀ r, (apply r).method = r.method
  path_apply : ∀ r, (apply r).path = r.path

inductive Op where
  | insert (route : ServerRoute)
  | reject (key : String)
  | lookup (key : String) (update : Update)

namespace Op

def isInsert : Op → Bool
  | insert _ => true
  | _ => false

def isReject : Op → Bool
  | reject _ => true
  | _ => false

end Op

inductive Answer where
  | inserted
  /-- The key is taken by this route. -/
  | taken (present : ServerRoute)
  | noted
  | found (route : Option ServerRoute)

/-- What an operation answers, and the table it leaves. -/
def perform (table : RouteTable) : Op → Answer × RouteTable
  | .insert route =>
    match table.insert route with
    | .ok table => (.inserted, table)
    | .error present => (.taken present, table)
  | .reject key => (.noted, table.reject key)
  | .lookup key update => (.found (table.get? key), table.modify key update.apply)

def run (table : RouteTable) (ops : List Op) : RouteTable :=
  ops.foldl (fun table op => (table.perform op).2) table

def after (ops : List Op) : RouteTable := run {} ops

/-! ## Histories -/

/-- The route as the look-ups with its key leave it. -/
def left (r : ServerRoute) : List Op → ServerRoute
  | [] => r
  | .lookup key update :: ops => left (if r.key == key then update.apply r else r) ops
  | .insert _ :: ops => left r ops
  | .reject _ :: ops => left r ops

/-- The inserted routes that are the first with their key, in order, where some keys are taken. -/
def firsts (taken : List String) : List Op → List ServerRoute
  | [] => []
  | .insert r :: ops =>
    if r.key ∈ taken then firsts taken ops else left r ops :: firsts (taken ++ [r.key]) ops
  | .reject _ :: ops => firsts taken ops
  | .lookup .. :: ops => firsts taken ops

section
variable {table : RouteTable} {ops : List Op} {key : String} {r q : ServerRoute}

@[simp] theorem run_nil : run table [] = table := rfl

@[simp] theorem run_cons (op : Op) : run table (op :: ops) = run (table.perform op).2 ops := rfl

theorem Update.key_apply (u : Update) (r : ServerRoute) : (u.apply r).key = r.key := by
  rw [ServerRoute.key, u.method_apply, u.path_apply, ServerRoute.key]

theorem map_key_modify (u : Update) :
    (table.modify key u.apply).routes.map (·.key) = table.routes.map (·.key) := by
  simp only [modify, List.map_map]
  refine List.map_congr_left fun r _ => ?_
  simp only [Function.comp_apply]
  split
  · exact u.key_apply r
  · rfl

theorem get?_eq_none_iff : table.get? key = none ↔ key ∉ table.routes.map (·.key) := by
  rw [get?, List.find?_eq_none, List.mem_map]
  constructor
  · rintro hno ⟨r, hr, rfl⟩
    exact hno r hr (beq_self_eq_true r.key)
  · intro hno r hr hkey
    exact hno ⟨r, hr, beq_iff_eq.1 hkey⟩

theorem get?_eq_some_iff (hkeys : table.Keyed) :
    table.get? key = some q ↔ q ∈ table.routes ∧ q.key = key := by
  constructor
  · exact get?_mem
  · rintro ⟨hq, rfl⟩
    exact get?_of_mem hkeys hq

theorem modify_of_get?_none (h : table.get? key = none) (f : ServerRoute → ServerRoute) :
    table.modify key f = table := by
  have hmap : (table.routes.map fun r => if r.key == key then f r else r) = table.routes := by
    refine (List.map_congr_left fun r hr => ?_).trans (List.map_id table.routes)
    exact if_neg (List.find?_eq_none.1 h r hr)
  rw [modify, hmap]

/-! ## Steps -/

theorem perform_insert_of_get?_none (h : table.get? r.key = none) :
    table.perform (.insert r) = (.inserted, { table with routes := table.routes ++ [r] }) := by
  simp [perform, insert, h]

theorem perform_insert_of_get?_some (h : table.get? r.key = some q) :
    table.perform (.insert r) = (.taken q, table) := by
  simp [perform, insert, h]

/-- The step: no operation stores a second route of one key. -/
theorem Keyed.perform (h : table.Keyed) (op : Op) : (table.perform op).2.Keyed := by
  cases op with
  | insert r =>
    cases hget : table.get? r.key with
    | none =>
      rw [perform_insert_of_get?_none hget]
      exact keyed_append h hget
    | some q =>
      rw [perform_insert_of_get?_some hget]
      exact h
  | reject key =>
    show ((table.reject key).routes.map (·.key)).Nodup
    rw [routes_reject]
    exact h
  | lookup key update =>
    show ((table.modify key update.apply).routes.map (·.key)).Nodup
    rw [map_key_modify]
    exact h

/-- The step: a key is rejected when it was or is by this operation. -/
theorem mem_rejected_perform (op : Op) :
    key ∈ (table.perform op).2.rejected ↔ key ∈ table.rejected ∨ op = .reject key := by
  cases op with
  | insert r =>
    cases hget : table.get? r.key with
    | none => simp [perform_insert_of_get?_none hget]
    | some q => simp [perform_insert_of_get?_some hget]
  | reject key' =>
    show key ∈ (table.reject key').rejected ↔ _
    unfold reject
    split
    · next hin =>
      have hin : key' ∈ table.rejected := by simpa using hin
      constructor
      · exact .inl
      · rintro (h | h)
        · exact h
        · obtain rfl : key' = key := by simpa using h
          exact hin
    · simp [eq_comm]
  | lookup key' update => simp [perform, modify]

/-! ## Runs -/

theorem Keyed.run (h : table.Keyed) (ops : List Op) : (table.run ops).Keyed := by
  induction ops generalizing table with
  | nil => exact h
  | cons op ops ih => exact ih (h.perform op)

theorem mem_rejected_run :
    key ∈ (table.run ops).rejected ↔ key ∈ table.rejected ∨ .reject key ∈ ops := by
  induction ops generalizing table with
  | nil => simp
  | cons op ops ih => rw [run_cons, ih, mem_rejected_perform, List.mem_cons, or_assoc, eq_comm]

/-- The routes after a history: those that were there and the first ones of their keys, both as
the look-ups leave them. -/
theorem routes_run : (table.run ops).routes =
    table.routes.map (left · ops) ++ firsts (table.routes.map (·.key)) ops := by
  induction ops generalizing table with
  | nil => simp [left, firsts]
  | cons op ops ih =>
    rw [run_cons, ih]
    cases op with
    | insert r =>
      cases hget : table.get? r.key with
      | none =>
        rw [perform_insert_of_get?_none hget, firsts, if_neg (get?_eq_none_iff.1 hget)]
        simp [left]
      | some q =>
        have hin : r.key ∈ table.routes.map (·.key) :=
          (get?_mem hget).2 ▸ List.mem_map_of_mem (get?_mem hget).1
        rw [perform_insert_of_get?_some hget, firsts, if_pos hin]
        simp [left]
    | reject key =>
      show (table.reject key).routes.map _ ++ firsts ((table.reject key).routes.map _) ops = _
      rw [routes_reject]
      simp [left, firsts]
    | lookup key update =>
      show (table.modify key update.apply).routes.map _ ++
        firsts ((table.modify key update.apply).routes.map _) ops = _
      rw [map_key_modify]
      simp [left, firsts, modify]

theorem key_left : (left r ops).key = r.key := by
  fun_induction left r ops with
  | case1 => rfl
  | case2 r key update ops ih =>
    rw [ih]
    split
    · exact update.key_apply r
    · rfl
  | case3 r _ ops ih => exact ih
  | case4 r _ ops ih => exact ih

theorem exists_mem_firsts {taken : List String} (hfree : key ∉ taken) :
    (∃ q ∈ firsts taken ops, q.key = key) ↔ ∃ r, .insert r ∈ ops ∧ r.key = key := by
  fun_induction firsts taken ops with
  | case1 taken => simp
  | case2 taken r ops htaken ih =>
    have hne : r.key ≠ key := fun heq => hfree (heq ▸ htaken)
    simp [ih hfree, or_and_right, exists_or, hne]
  | case3 taken r ops hfresh ih =>
    by_cases hr : r.key = key
    · constructor
      · exact fun _ => ⟨r, List.mem_cons_self, hr⟩
      · exact fun _ => ⟨left r ops, List.mem_cons_self, key_left.trans hr⟩
    · have ih := ih (by simp [hfree, Ne.symm hr])
      simp only [List.mem_cons, or_and_right, exists_or, exists_eq_left, key_left, hr, ih,
        false_or, Op.insert.injEq]
  | case4 taken _ ops ih => simp [ih hfree]
  | case5 taken _ _ ops ih => simp [ih hfree]

/-- Answers and routes are told by the routes: the rejected keys play no part. -/
theorem perform_congr {table' : RouteTable} (h : table'.routes = table.routes) (op : Op) :
    (table'.perform op).1 = (table.perform op).1 ∧
      (table'.perform op).2.routes = (table.perform op).2.routes := by
  have hget (key : String) : table'.get? key = table.get? key := by rw [get?, h, get?]
  cases op with
  | insert r =>
    cases hr : table.get? r.key with
    | none =>
      rw [perform_insert_of_get?_none hr, perform_insert_of_get?_none ((hget _).trans hr)]
      simp [h]
    | some q =>
      rw [perform_insert_of_get?_some hr, perform_insert_of_get?_some ((hget _).trans hr)]
      simp [h]
  | reject key =>
    refine ⟨rfl, ?_⟩
    show (table'.reject key).routes = (table.reject key).routes
    rw [routes_reject, routes_reject, h]
  | lookup key update => simp [perform, modify, hget, h]

theorem routes_run_filter_reject {table' : RouteTable} (h : table'.routes = table.routes) :
    (table'.run (ops.filter (!·.isReject))).routes = (table.run ops).routes := by
  induction ops generalizing table table' with
  | nil => exact h
  | cons op ops ih =>
    cases hop : op.isReject with
    | true =>
      rw [List.filter_cons_of_neg (by simp [hop]), run_cons]
      refine ih (h.trans ?_)
      cases op with
      | reject key => exact (routes_reject key).symm
      | insert r => exact absurd hop (by simp [Op.isReject])
      | lookup key update => exact absurd hop (by simp [Op.isReject])
    | false =>
      rw [List.filter_cons_of_pos (by simp [hop]), run_cons, run_cons]
      exact ih (perform_congr h op).2

end
end RouteTable

/-! ## Tables with an index -/

/-- A route table with the place of each route by its key. -/
structure IndexedTable extends RouteTable where
  places : List (String × Nat) := []
  keyed : toRouteTable.Keyed := by exact List.nodup_nil
  lookup_places : ∀ key, places.lookup key = routes.findIdx? (·.key == key) := by simp

namespace IndexedTable
open RouteTable

section
variable {t : IndexedTable} {key : String} {r : ServerRoute} {i : Nat}

theorem getElem_of_lookup (h : t.places.lookup key = some i) :
    ∃ hi : i < t.routes.length, t.routes[i].key = key := by
  rw [t.lookup_places] at h
  obtain ⟨hi, hkey, -⟩ := List.findIdx?_eq_some_iff_getElem.1 h
  exact ⟨hi, beq_iff_eq.1 hkey⟩

theorem findIdx?_key (routes : List ServerRoute) :
    routes.findIdx? (·.key == key) = (routes.map (·.key)).findIdx? (· == key) :=
  (List.findIdx?_map (p := (· == key)) (f := ServerRoute.key)).symm

/-- The route at the place of a key. -/
def routeAt (t : IndexedTable) (h : t.places.lookup key = some i) : ServerRoute :=
  t.routes.get ⟨i, (getElem_of_lookup h).1⟩

theorem get?_of_lookup (h : t.places.lookup key = some i) : t.get? key = some (t.routeAt h) := by
  obtain ⟨hi, hkey⟩ := getElem_of_lookup h
  exact (get?_eq_some_iff t.keyed).2 ⟨List.get_mem t.routes ⟨i, hi⟩, hkey⟩

theorem get?_eq_none_of_lookup (h : t.places.lookup key = none) : t.get? key = none := by
  rw [t.lookup_places, List.findIdx?_eq_none_iff] at h
  exact List.find?_eq_none.2 fun r hr => by simp [h r hr]

/-- Changing the route at the place of a key is changing the route with that key. -/
theorem modify_routes (h : t.places.lookup key = some i) (f : ServerRoute → ServerRoute) :
    t.routes.modify i f = (t.modify key f).routes := by
  obtain ⟨hi, hkey⟩ := getElem_of_lookup h
  refine List.ext_getElem? fun j => ?_
  rw [List.getElem?_modify, RouteTable.modify, List.getElem?_map]
  cases hj : t.routes[j]? with
  | none => rfl
  | some r =>
    obtain ⟨hj, rfl⟩ := List.getElem?_eq_some_iff.1 hj
    have hiff : i = j ↔ t.routes[j].key = key := by
      constructor
      · rintro rfl
        exact hkey
      · intro hkey'
        have hkeys : (t.routes.map (·.key))[i]? = (t.routes.map (·.key))[j]? := by
          simp [hi, hj, hkey, hkey']
        exact (List.getElem?_inj (by simpa using hi) t.keyed).1 hkeys
    simp [hiff]

/-- Store a route under a key that has no place yet. -/
def push (t : IndexedTable) (r : ServerRoute) (h : t.places.lookup r.key = none) :
    IndexedTable where
  routes := t.routes ++ [r]
  rejected := t.rejected
  places := (r.key, t.routes.length) :: t.places
  keyed := keyed_append t.keyed (get?_eq_none_of_lookup h)
  lookup_places key := by
    rw [List.lookup_cons, List.findIdx?_append, ← t.lookup_places]
    cases hkey : key == r.key with
    | true =>
      obtain rfl := beq_iff_eq.1 hkey
      simp [h]
    | false =>
      have hne : (r.key == key) = false := by rw [Bool.beq_comm]; exact hkey
      simp [hne]

/-- Change the route at a place. -/
def modifyAt (t : IndexedTable) (h : t.places.lookup key = some i) (u : Update) :
    IndexedTable where
  routes := t.routes.modify i u.apply
  rejected := t.rejected
  places := t.places
  keyed := by
    show ((t.routes.modify i u.apply).map (·.key)).Nodup
    rw [modify_routes h, map_key_modify]
    exact t.keyed
  lookup_places key' := by
    rw [t.lookup_places, findIdx?_key, findIdx?_key, modify_routes h, map_key_modify]

def insert (t : IndexedTable) (r : ServerRoute) : Answer × IndexedTable :=
  match h : t.places.lookup r.key with
  | some _ => (.taken (t.routeAt h), t)
  | none => (.inserted, t.push r h)

def reject (t : IndexedTable) (key : String) : IndexedTable where
  toRouteTable := t.toRouteTable.reject key
  places := t.places
  keyed := t.keyed.perform (.reject key)
  lookup_places key' := by rw [t.lookup_places, routes_reject]

def lookup (t : IndexedTable) (key : String) (u : Update) : Answer × IndexedTable :=
  match h : t.places.lookup key with
  | some _ => (.found (some (t.routeAt h)), t.modifyAt h u)
  | none => (.found none, t)

/-- What an operation answers by way of the places, and the table it leaves. -/
def perform (t : IndexedTable) : Op → Answer × IndexedTable
  | .insert r => t.insert r
  | .reject key => (.noted, t.reject key)
  | .lookup key u => t.lookup key u

def run (t : IndexedTable) (ops : List Op) : IndexedTable :=
  ops.foldl (fun t op => (t.perform op).2) t

def after (ops : List Op) : IndexedTable := run {} ops

/-- The step: going through the places makes no difference. -/
theorem toRouteTable_perform (t : IndexedTable) (op : Op) :
    (t.perform op).1 = (t.toRouteTable.perform op).1 ∧
      (t.perform op).2.toRouteTable = (t.toRouteTable.perform op).2 := by
  cases op with
  | insert r =>
    show (t.insert r).1 = _ ∧ (t.insert r).2.toRouteTable = _
    unfold insert
    split
    · next h =>
      rw [perform_insert_of_get?_some (get?_of_lookup h)]
      exact ⟨rfl, rfl⟩
    · next h =>
      rw [perform_insert_of_get?_none (get?_eq_none_of_lookup h)]
      exact ⟨rfl, rfl⟩
  | reject key => exact ⟨rfl, rfl⟩
  | lookup key u =>
    show (t.lookup key u).1 = .found (t.get? key) ∧
      (t.lookup key u).2.toRouteTable = t.modify key u.apply
    unfold lookup
    split
    · next h =>
      refine ⟨congrArg Answer.found (get?_of_lookup h).symm, ?_⟩
      show RouteTable.mk (t.routes.modify _ u.apply) t.rejected = t.modify key u.apply
      rw [modify_routes h]
      rfl
    · next h =>
      have hnone := get?_eq_none_of_lookup h
      exact ⟨congrArg Answer.found hnone.symm, (modify_of_get?_none hnone _).symm⟩

theorem toRouteTable_run (t : IndexedTable) (ops : List Op) :
    (t.run ops).toRouteTable = t.toRouteTable.run ops := by
  induction ops generalizing t with
  | nil => rfl
  | cons op ops ih => exact (ih _).trans (by rw [(toRouteTable_perform t op).2, run_cons])

end
end IndexedTable

/-! ## Every history -/

namespace RouteTable

/-- What holds of the table that a history leaves, and of what it answers next. -/
structure Consistent (ops : List Op) : Prop where
  keyed : ((after ops).routes.map (·.key)).Nodup
  /-- The first inserted route of each key, in order, with what look-ups did to it. -/
  routes : (after ops).routes = firsts [] ops
  present : ∀ key, (∃ q ∈ (after ops).routes, q.key = key) ↔ ∃ r, .insert r ∈ ops ∧ r.key = key
  inserted : ∀ r, (∀ q ∈ (after ops).routes, q.key ≠ r.key) →
    (after ops).perform (.insert r) =
      (.inserted, { after ops with routes := (after ops).routes ++ [r] })
  /-- An insert under a key that is present fails. -/
  taken : ∀ r, ∀ q ∈ (after ops).routes, q.key = r.key →
    (after ops).perform (.insert r) = (.taken q, after ops)
  found : ∀ key u q, q ∈ (after ops).routes ∧ q.key = key ↔
    ((after ops).perform (.lookup key u)).1 = .found (some q)
  missed : ∀ key u, (∀ q ∈ (after ops).routes, q.key ≠ key) ↔
    ((after ops).perform (.lookup key u)).1 = .found none
  rejected : ∀ key, (after ops).isRejected key ↔ .reject key ∈ ops
  /-- Without its rejects, the history answers the same to inserts and look-ups. -/
  rejects_apart : ∀ op, ((after (ops.filter (!·.isReject))).perform op).1 =
    ((after ops).perform op).1
  /-- Without its inserts, the history has rejected the same keys. -/
  inserts_apart : ∀ key, (after (ops.filter (!·.isInsert))).isRejected key =
    (after ops).isRejected key
  /-- A table that finds routes by their place holds the same and answers the same. -/
  places : (IndexedTable.after ops).toRouteTable = after ops ∧
    ∀ op, ((IndexedTable.after ops).perform op).1 = ((after ops).perform op).1

theorem isRejected_after_iff {ops : List Op} {key : String} :
    (after ops).isRejected key ↔ .reject key ∈ ops := by
  rw [isRejected, List.contains_iff_mem, after, mem_rejected_run]
  simp

theorem consistent_after (ops : List Op) : Consistent ops := by
  have hempty : ({} : RouteTable).Keyed := List.nodup_nil
  have hkeyed : (after ops).Keyed := hempty.run ops
  have hroutes : (after ops).routes = firsts [] ops := by
    rw [after, routes_run]
    rfl
  have hnone (key : String) :
      (after ops).get? key = none ↔ ∀ q ∈ (after ops).routes, q.key ≠ key := by
    simp [get?_eq_none_iff]
  have hplaces : (IndexedTable.after ops).toRouteTable = after ops :=
    IndexedTable.toRouteTable_run {} ops
  exact
    { keyed := hkeyed
      routes := hroutes
      present := fun key => by
        rw [hroutes]
        exact exists_mem_firsts List.not_mem_nil
      inserted := fun r hfree => perform_insert_of_get?_none ((hnone r.key).2 hfree)
      taken := fun r q hq hkey =>
        perform_insert_of_get?_some ((get?_eq_some_iff hkeyed).2 ⟨hq, hkey⟩)
      found := fun key u q => by
        rw [← get?_eq_some_iff hkeyed]
        simp [perform]
      missed := fun key u => by
        rw [← hnone]
        simp [perform]
      rejected := fun key => isRejected_after_iff
      rejects_apart := fun op => (perform_congr (routes_run_filter_reject rfl) op).1
      inserts_apart := fun key => by
        rw [Bool.eq_iff_iff, isRejected_after_iff, isRejected_after_iff, List.mem_filter]
        simp [Op.isInsert]
      places := ⟨hplaces, fun op => by rw [(IndexedTable.toRouteTable_perform _ op).1, hplaces]⟩ }

end RouteTable
end RouteCheck
