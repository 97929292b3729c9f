import Mathlib.Data.List.Induction
import RouteCheck.Http.Mux
import RouteCheck.Proofs.Text.Order

/-!
Tables of routes, and what their validation lets through.

Validation reads the keys of a table in order and stops at the first fault. Whether a key is at
fault depends on its fields and on those of the keys before it, which are what the entries say that
were read from them.

Main statements:
  1. `exists_faulty_iff`, `Faulty.unique`: what is wrong with a key, and that one fault is told.
  2. `faulty_of_readEntry`, `faultless_of_readEntry`: the step, one key after others.
  3. `validate_eq_error_iff`, `faultless_of_validate`: a table, by induction on what is left of it.
-/

namespace RouteCheck.Http

/-! ## Methods -/

namespace Method

theorem name_inj {a b : Method} : a.name = b.name ↔ a = b := by
  cases a <;> cases b <;> decide

theorem ofName?_eq_some_iff {s : String} {m : Method} : ofName? s = some m ↔ m.name = s := by
  constructor
  · intro h
    simpa using List.find?_some h
  · rintro rfl
    cases m <;> rfl

theorem ofName?_eq_none_iff {s : String} : ofName? s = none ↔ ∀ m : Method, m.name ≠ s := by
  simp only [Option.eq_none_iff_forall_ne_some, ne_eq, ofName?_eq_some_iff]

end Method

/-! ## Faults -/

/-- The fault of a key that comes after the keys `before`. -/
inductive Faulty (before : List String) (key : String) : RouteError → Prop where
  /-- The key is not a method and a path, or the path does not begin with a slash. -/
  | invalid (h : ∀ method path, Text.fields key = [method, path] →
      Text.startsWith "/" path = false) : Faulty before key (.invalidRoute key)
  | unhandled {method path : String} (hkey : Text.fields key = [method, path])
      (hslash : Text.startsWith "/" path = true) (h : ∀ m : Method, m.name ≠ method) :
      Faulty before key (.unhandledMethod method)
  /-- An earlier key has the same method and path, however it is spaced. -/
  | duplicate {m : Method} {path : String} (hkey : Text.fields key = [m.name, path])
      (hslash : Text.startsWith "/" path = true) {k : String} (hk : k ∈ before)
      (h : Text.fields k = [m.name, path]) : Faulty before key (.duplicate key)

/-- Something is wrong with a key that comes after the keys `before`: it is not made of two fields,
or its path does not begin with a slash, or its method is not handled, or an earlier key has its
method and path. -/
def Offends (before : List String) (key : String) : Prop :=
  (∀ method path, Text.fields key ≠ [method, path]) ∨
    ∃ method path, Text.fields key = [method, path] ∧
      (Text.startsWith "/" path = false ∨ (∀ m : Method, m.name ≠ method) ∨
        ∃ k ∈ before, Text.fields k = [method, path])

/-- No key has a fault after the keys before it. -/
def Faultless (keys : List String) : Prop :=
  ∀ before key after, keys = before ++ key :: after → ∀ e, ¬ Faulty before key e

/-- The first key that has a fault has the fault `e`. -/
def FirstFault (keys : List String) (e : RouteError) : Prop :=
  ∃ before key after, keys = before ++ key :: after ∧ Faultless before ∧ Faulty before key e

section
variable {before keys : List String} {key : String} {e e' : RouteError}

/-- A key has one fault at most. -/
theorem Faulty.unique (h : Faulty before key e) (h' : Faulty before key e') : e = e' := by
  cases h <;> cases h' <;> grind

/-- A key has a fault just if something is wrong with it. -/
theorem exists_faulty_iff : (∃ e, Faulty before key e) ↔ Offends before key := by
  constructor
  · rintro ⟨e, h⟩
    cases h with
    | invalid h =>
      by_cases hkey : ∃ method path, Text.fields key = [method, path]
      · obtain ⟨method, path, hkey⟩ := hkey
        exact .inr ⟨method, path, hkey, .inl (h method path hkey)⟩
      · exact .inl fun method path hkey' => hkey ⟨method, path, hkey'⟩
    | unhandled hkey _ h => exact .inr ⟨_, _, hkey, .inr (.inl h)⟩
    | duplicate hkey _ hk h => exact .inr ⟨_, _, hkey, .inr (.inr ⟨_, hk, h⟩)⟩
  · rintro (h | ⟨method, path, hkey, h⟩)
    · exact ⟨_, .invalid fun method path hkey => absurd hkey (h method path)⟩
    · -- the checks in their order: the path, the method, the earlier keys
      cases hslash : Text.startsWith "/" path with
      | false =>
        refine ⟨_, .invalid fun method' path' hkey' => ?_⟩
        obtain ⟨-, rfl⟩ : method = method' ∧ path = path' := by simpa [hkey] using hkey'
        exact hslash
      | true =>
        by_cases hmethod : ∀ m : Method, m.name ≠ method
        · exact ⟨_, .unhandled hkey hslash hmethod⟩
        · obtain ⟨m, rfl⟩ : ∃ m : Method, m.name = method := by simpa using hmethod
          rcases h with h | h | ⟨k, hk, h⟩
          · exact absurd hslash (by simp [h])
          · exact absurd rfl (h m)
          · exact ⟨_, .duplicate hkey hslash hk h⟩

theorem faultless_nil : Faultless [] := by
  intro before key after h
  exact absurd h (by simp)

theorem append_cons_cases {α : Type} {as bs cs ds : List α} {a b : α}
    (h : as ++ a :: cs = bs ++ b :: ds) :
    (as = bs ∧ a = b) ∨ (∃ mid, bs = as ++ a :: mid) ∨ ∃ mid, as = bs ++ b :: mid := by
  rcases List.append_eq_append_iff.1 h with ⟨mid, rfl, hmid⟩ | ⟨mid, rfl, hmid⟩
  · cases mid with
    | nil => exact .inl (by simpa using (List.cons.inj hmid).1)
    | cons x mid => exact .inr (.inl ⟨mid, by rw [(List.cons.inj hmid).1]⟩)
  · cases mid with
    | nil => exact .inl (by simpa using (List.cons.inj hmid).1.symm)
    | cons x mid => exact .inr (.inr ⟨mid, by rw [(List.cons.inj hmid).1]⟩)

theorem Faultless.snoc (hkeys : Faultless keys) (hkey : ∀ e, ¬ Faulty keys key e) :
    Faultless (keys ++ [key]) := by
  intro before k after h e hfault
  rcases append_cons_cases h with ⟨rfl, rfl⟩ | ⟨mid, rfl⟩ | ⟨mid, rfl⟩
  · exact hkey e hfault
  · simp at h
  · exact hkeys before k mid rfl e hfault

theorem Faultless.of_append {after : List String} (h : Faultless (keys ++ after)) :
    Faultless keys := by
  rintro before key mid rfl
  exact h before key (mid ++ after) (by simp)

theorem Faultless.nodup_fields (h : Faultless keys) : (keys.map Text.fields).Nodup := by
  induction keys using List.reverseRecOn with
  | nil => exact List.nodup_nil
  | append_singleton keys key ih =>
    rw [List.map_append, List.nodup_append, List.map_singleton]
    refine ⟨ih h.of_append, List.pairwise_singleton .., ?_⟩
    intro fields hfields fields' hkey hsame
    obtain ⟨k, hk, rfl⟩ := List.mem_map.1 hfields
    rw [List.mem_singleton.1 hkey] at hsame
    have hoffends : Offends keys key := by
      by_cases hpair : ∃ method path, Text.fields key = [method, path]
      · obtain ⟨method, path, hpair⟩ := hpair
        exact .inr ⟨method, path, hpair, .inr (.inr ⟨k, hk, hsame.trans hpair⟩)⟩
      · exact .inl fun method path hkey => hpair ⟨method, path, hkey⟩
    obtain ⟨e, hfault⟩ := exists_faulty_iff.2 hoffends
    exact h keys key [] rfl e hfault

/-- Keys have one first fault at most. -/
theorem FirstFault.unique (h : FirstFault keys e) (h' : FirstFault keys e') : e = e' := by
  obtain ⟨before, key, after, rfl, hclean, hfault⟩ := h
  obtain ⟨before', key', after', heq, hclean', hfault'⟩ := h'
  rcases append_cons_cases heq with ⟨rfl, rfl⟩ | ⟨mid, rfl⟩ | ⟨mid, rfl⟩
  · exact hfault.unique hfault'
  · exact absurd hfault (hclean' before key mid rfl e)
  · exact absurd hfault' (hclean before' key' mid rfl e')

theorem FirstFault.not_faultless (h : FirstFault keys e) : ¬ Faultless keys := by
  obtain ⟨before, key, after, rfl, _, hfault⟩ := h
  intro hclean
  exact hclean before key after rfl e hfault

end

/-! ## The step -/

section
variable {m : Type → Type} {before : List (Entry m)} {keys : List String} {key : String}
  {handler : Handler m}

/-- The fields of the keys that an entry can be read from. -/
def Entry.fields (e : Entry m) : List String := [e.method.name, e.path]

theorem Entry.clashes_iff {a b : Entry m} : a.clashes b = true ↔ a.fields = b.fields := by
  simp [clashes, fields, Method.name_inj]

def ReadFrom (es : List (Entry m)) (keys : List String) : Prop :=
  es.map Entry.fields = keys.map Text.fields

theorem readFrom_nil : ReadFrom ([] : List (Entry m)) [] := rfl

/-- An entry clashes with earlier ones just if a key of theirs has its fields. -/
theorem any_clashes_iff (hbefore : ReadFrom before keys) {e : Entry m} :
    before.any e.clashes = true ↔ ∃ k ∈ keys, Text.fields k = e.fields := by
  calc
    before.any e.clashes = true
    _ ↔ e.fields ∈ before.map Entry.fields := by
      simp only [List.any_eq_true, Entry.clashes_iff, List.mem_map, eq_comm (a := e.fields)]
    _ ↔ e.fields ∈ keys.map Text.fields := by rw [hbefore]
    _ ↔ ∃ k ∈ keys, Text.fields k = e.fields := List.mem_map

/-- The step, if it stops: the key has the fault that is told. -/
theorem faulty_of_readEntry (hbefore : ReadFrom before keys) {fault : RouteError}
    (h : readEntry before key handler = .error fault) : Faulty keys key fault := by
  unfold readEntry at h
  split at h
  · next method path hkey =>
    split at h
    · next hslash =>
      obtain rfl := Except.error.inj h
      refine .invalid fun method' path' hkey' => ?_
      obtain ⟨-, rfl⟩ : method = method' ∧ path = path' := by simpa [hkey] using hkey'
      simpa using hslash
    · next hslash =>
      have hslash : Text.startsWith "/" path = true := by simpa using hslash
      split at h
      · next hmethod =>
        obtain rfl := Except.error.inj h
        exact .unhandled hkey hslash (Method.ofName?_eq_none_iff.1 hmethod)
      · next m hmethod =>
        obtain rfl := Method.ofName?_eq_some_iff.1 hmethod
        simp only at h
        split at h
        · next hclash =>
          obtain rfl := Except.error.inj h
          obtain ⟨k, hk, hfields⟩ := (any_clashes_iff hbefore).1 hclash
          exact .duplicate hkey hslash hk hfields
        · exact absurd h nofun
  · next hkey =>
    obtain rfl := Except.error.inj h
    exact .invalid fun method path h => absurd h (hkey method path)

/-- The step, if it goes on: the key has no fault, and the entry has its fields and the handler. -/
theorem faultless_of_readEntry (hbefore : ReadFrom before keys) {e : Entry m}
    (h : readEntry before key handler = .ok e) :
    e.fields = Text.fields key ∧ e.handler = handler ∧ ∀ fault, ¬ Faulty keys key fault := by
  unfold readEntry at h
  split at h
  · next method path hkey =>
    split at h
    · exact absurd h nofun
    · next hslash =>
      split at h
      · exact absurd h nofun
      · next m hmethod =>
        obtain rfl := Method.ofName?_eq_some_iff.1 hmethod
        simp only at h
        split at h
        · exact absurd h nofun
        · next hclash =>
          obtain rfl := Except.ok.inj h
          refine ⟨hkey.symm, rfl, fun fault hfault => ?_⟩
          cases hfault with
          | invalid h => simp [h _ _ hkey] at hslash
          | unhandled hkey' _ h =>
            obtain ⟨rfl, -⟩ : m.name = _ ∧ path = _ := by simpa [hkey] using hkey'
            exact h m rfl
          | duplicate hkey' _ hk h =>
            exact hclash ((any_clashes_iff hbefore).2 ⟨_, hk, h.trans (hkey'.symm.trans hkey)⟩)
  · exact absurd h nofun

end

/-! ## Whole tables -/

section
variable {m : Type → Type} {before : List (Entry m)} {keys : List String}
  {table : List (String × Handler m)}

theorem ReadFrom.snoc (hbefore : ReadFrom before keys) {e : Entry m} {key : String}
    (h : e.fields = Text.fields key) : ReadFrom (before ++ [e]) (keys ++ [key]) := by
  unfold ReadFrom at hbefore ⊢
  rw [List.map_append, List.map_append, hbefore, List.map_singleton, List.map_singleton, h]

/-- What is left of a table, if validation stops in it: the keys read so far had no fault, and the
next one with a fault has the fault that is told. -/
theorem firstFault_of_validateAfter (hbefore : ReadFrom before keys) (hkeys : Faultless keys)
    {fault : RouteError} (h : validateAfter before table = .error fault) :
    FirstFault (keys ++ table.map (·.1)) fault := by
  induction table generalizing before keys with
  | nil => exact absurd h nofun
  | cons row table ih =>
    obtain ⟨key, handler⟩ := row
    unfold validateAfter at h
    split at h
    · next e hread =>
      obtain rfl := Except.error.inj h
      exact ⟨keys, key, table.map (·.1), rfl, hkeys, faulty_of_readEntry hbefore hread⟩
    · next e hread =>
      obtain ⟨hfields, -, hclean⟩ := faultless_of_readEntry hbefore hread
      have hrest := ih (hbefore.snoc hfields) (hkeys.snoc hclean) h
      rwa [List.append_assoc] at hrest

/-- What is left of a table, if validation goes through it: its keys have no fault, and the entries
that are added have their fields and handlers, row by row. -/
theorem faultless_of_validateAfter (hbefore : ReadFrom before keys) (hkeys : Faultless keys)
    {es : List (Entry m)} (h : validateAfter before table = .ok es) :
    Faultless (keys ++ table.map (·.1)) ∧
      ∃ added, es = before ++ added ∧
        added.map (fun e => (e.fields, e.handler)) =
          table.map fun row => (Text.fields row.1, row.2) := by
  induction table generalizing before keys with
  | nil =>
    obtain rfl := Except.ok.inj h
    exact ⟨by simpa using hkeys, [], by simp⟩
  | cons row table ih =>
    obtain ⟨key, handler⟩ := row
    unfold validateAfter at h
    split at h
    · exact absurd h nofun
    · next e hread =>
      obtain ⟨hfields, hhandler, hclean⟩ := faultless_of_readEntry hbefore hread
      obtain ⟨hall, added, rfl, hadded⟩ := ih (hbefore.snoc hfields) (hkeys.snoc hclean) h
      refine ⟨by rwa [List.append_assoc] at hall, e :: added, by simp, ?_⟩
      rw [List.map_cons, List.map_cons, hadded, hfields, hhandler]

/-- Validation stops with a fault just if it is that of the first key with a fault. -/
theorem validate_eq_error_iff {fault : RouteError} :
    validate table = .error fault ↔ FirstFault (table.map (·.1)) fault := by
  constructor
  · intro h
    exact firstFault_of_validateAfter readFrom_nil faultless_nil h
  · intro h
    cases hvalid : validate table with
    | error fault' =>
      have h' := firstFault_of_validateAfter readFrom_nil faultless_nil hvalid
      rw [h.unique h']
    | ok es =>
      have hclean := faultless_of_validateAfter readFrom_nil faultless_nil hvalid
      exact absurd hclean.1 h.not_faultless

theorem faultless_of_validate {es : List (Entry m)} (h : validate table = .ok es) :
    Faultless (table.map (·.1)) ∧
      es.map (fun e => (e.fields, e.handler)) =
        table.map fun row => (Text.fields row.1, row.2) := by
  obtain ⟨hclean, added, rfl, hadded⟩ :=
    faultless_of_validateAfter readFrom_nil faultless_nil h
  exact ⟨hclean, hadded⟩

end

end RouteCheck.Http
