import RouteCheck.Proofs.Http.PathTree
import RouteCheck.Proofs.Http.Table

/-!
What a table of routes that passes validation registers.

The entries of the table go into endpoints path by path, and the endpoints into the tree of the
router. Each of the two steps adds what it is given to what is there, so that in the end each entry
is there once, under its own method and path.

Main statements:
  1. `Endpoint.entries_ofEntries`, `Endpoint.ascending_ofEntries`: the endpoints of a list of
     entries hold these entries, and no path has two of them.
  2. `Router.registered_of_register`: a router holds the entries of its endpoints.
  3. `mux_validates`: which tables are refused, with which fault, and what the others register.
-/

namespace RouteCheck.Http

open scoped List

variable {m : Type → Type}

/-! ## Endpoints -/

namespace Endpoint

variable {e : Entry m} {g : List (String × Endpoint m)}

def entries (g : List (String × Endpoint m)) : List (Entry m) :=
  g.flatMap fun p => p.2.map fun h => ⟨h.1, p.1, h.2⟩

@[simp] theorem entries_cons (path : String) (hs : Endpoint m) (g : List (String × Endpoint m)) :
    entries ((path, hs) :: g) = hs.map (fun h => ⟨h.1, path, h.2⟩) ++ entries g := rfl

/-- The step: an entry is added to those that are there. -/
theorem entries_group (e : Entry m) (g : List (String × Endpoint m)) :
    entries (group e g) ~ e :: entries g := by
  fun_induction group e g with
  | case1 => exact List.Perm.refl _
  | case2 => exact List.Perm.refl _
  | case3 path hs rest heq =>
    obtain rfl := Std.LawfulEqCmp.eq_of_compare heq
    rw [entries_cons, entries_cons, List.map_append]
    exact (List.perm_append_singleton ..).append_right _
  | case4 path hs rest _ ih =>
    calc
      entries ((path, hs) :: group e rest)
      _ ~ hs.map (fun h => ⟨h.1, path, h.2⟩) ++ e :: entries rest := ih.append_left _
      _ ~ e :: entries ((path, hs) :: rest) := List.perm_middle

/-- The endpoints of a list of entries hold these entries. -/
theorem entries_ofEntries (es : List (Entry m)) : entries (ofEntries es) ~ es := by
  have hfold (g : List (String × Endpoint m)) :
      entries (es.foldl (fun g e => group e g) g) ~ entries g ++ es := by
    induction es generalizing g with
    | nil => simp
    | cons e es ih =>
      calc
        entries (es.foldl (fun g e => group e g) (group e g))
        _ ~ entries (group e g) ++ es := ih (group e g)
        _ ~ e :: entries g ++ es := (entries_group e g).append_right es
        _ ~ entries g ++ e :: es := List.perm_middle.symm
  exact hfold []

/-- Paths ascend strictly, so that none has two endpoints. -/
def Ascending (g : List (String × Endpoint m)) : Prop :=
  g.Pairwise fun a b => Text.compare a.1 b.1 = .lt

theorem path_mem_group {p : String × Endpoint m} (h : p ∈ group e g) :
    p.1 = e.path ∨ ∃ q ∈ g, p.1 = q.1 := by
  fun_induction group e g with
  | case1 => exact .inl (List.mem_singleton.1 h ▸ rfl)
  | case2 path hs rest =>
    rcases List.mem_cons.1 h with rfl | h
    · exact .inl rfl
    · exact .inr ⟨p, h, rfl⟩
  | case3 path hs rest =>
    rcases List.mem_cons.1 h with rfl | h
    · exact .inr ⟨_, List.mem_cons_self, rfl⟩
    · exact .inr ⟨p, List.mem_cons_of_mem _ h, rfl⟩
  | case4 path hs rest _ ih =>
    rcases List.mem_cons.1 h with rfl | h
    · exact .inr ⟨_, List.mem_cons_self, rfl⟩
    · rcases ih h with h | ⟨q, hq, h⟩
      · exact .inl h
      · exact .inr ⟨q, List.mem_cons_of_mem _ hq, h⟩

theorem ascending_group (h : Ascending g) : Ascending (group e g) := by
  fun_induction group e g with
  | case1 => exact List.pairwise_singleton ..
  | case2 path hs rest hlt =>
    have hpath := (List.pairwise_cons.1 h).1
    refine List.pairwise_cons.2 ⟨fun p hp => ?_, h⟩
    rcases List.mem_cons.1 hp with rfl | hp
    · exact hlt
    · exact Std.TransCmp.lt_trans hlt (hpath p hp)
  | case3 path hs rest =>
    exact List.pairwise_cons.2 (List.pairwise_cons.1 h)
  | case4 path hs rest hgt ih =>
    obtain ⟨hpath, hrest⟩ := List.pairwise_cons.1 h
    refine List.pairwise_cons.2 ⟨fun p hp => ?_, ih hrest⟩
    rcases path_mem_group hp with heq | ⟨q, hq, heq⟩
    · rw [heq]
      exact Std.OrientedCmp.gt_iff_lt.1 hgt
    · rw [heq]
      exact hpath q hq

theorem ascending_ofEntries (es : List (Entry m)) : Ascending (ofEntries es) := by
  have hfold (g : List (String × Endpoint m)) (hg : Ascending g) :
      Ascending (es.foldl (fun g e => group e g) g) := by
    induction es generalizing g with
    | nil => exact hg
    | cons e es ih => exact ih _ (ascending_group hg)
  exact hfold [] List.Pairwise.nil

end Endpoint

/-! ## Routers -/

namespace Router

/-- What is registered in a tree of endpoints: patterns with methods and handlers. -/
def registered (paths : PathMap (Endpoint m)) : List (PathPattern × Method × Handler m) :=
  paths.patterns.flatMap fun p => p.2.map fun h => (p.1, h)

/-- What an entry is registered as, if its path is a pattern. -/
def registration? (e : Entry m) : Option (PathPattern × Method × Handler m) :=
  (PathPattern.ofText? e.path).map fun p => (p, e.method, e.handler)

/-- Registering endpoints adds their entries to what is registered. -/
theorem registered_of_register {paths paths' : PathMap (Endpoint m)}
    {g : List (String × Endpoint m)} (h : register paths g = .ok paths') :
    (registered paths').map some ~
      (Endpoint.entries g).map registration? ++ (registered paths).map some := by
  induction g generalizing paths with
  | nil =>
    obtain rfl := Except.ok.inj h
    exact List.Perm.refl _
  | cons p g ih =>
    obtain ⟨path, hs⟩ := p
    unfold register at h
    split at h
    · exact absurd h nofun
    · next paths₁ hinsert =>
      obtain ⟨pattern, hpattern, hperm⟩ := PathMap.patterns_insert? hinsert
      have hstep : (registered paths₁).map some ~
          (hs.map fun h => registration? ⟨h.1, path, h.2⟩) ++ (registered paths).map some := by
        refine ((hperm.flatMap_right _).map some).trans (.of_eq ?_)
        simp [registered, registration?, hpattern, Function.comp_def]
      calc
        (registered paths').map some
        _ ~ (Endpoint.entries g).map registration? ++ (registered paths₁).map some := ih h
        _ ~ (Endpoint.entries g).map registration? ++
            ((hs.map fun h => registration? ⟨h.1, path, h.2⟩) ++ (registered paths).map some) :=
          hstep.append_left _
        _ ~ (Endpoint.entries ((path, hs) :: g)).map registration? ++
            (registered paths).map some := by
          rw [Endpoint.entries_cons, List.map_append, List.map_map, ← List.append_assoc]
          exact List.perm_append_comm.append_right _

end Router

/-! ## Tables -/

section
variable {table : List (String × Handler m)} {es : List (Entry m)}

theorem mux_eq_route_iff {e : RouteError} :
    mux table = .error (.route e) ↔ validate table = .error e := by
  unfold mux
  cases validate table with
  | error fault => simp
  | ok es => cases h : Router.ofEntries es <;> simp [h, Except.mapError]

theorem mux_of_validate (h : validate table = .ok es) :
    mux table = ((Router.register {} (Endpoint.ofEntries es)).map fun paths => { paths }).mapError
      .refused := by
  unfold mux
  rw [h]
  rfl

/-- A router of a table that passes validation has its entries registered, and nothing else. -/
theorem registered_of_validate (h : validate table = .ok es) {r : Router m}
    (hr : mux table = .ok r) :
    (Router.registered r.paths).map some ~ es.map Router.registration? := by
  rw [mux_of_validate h] at hr
  cases hregister : Router.register {} (Endpoint.ofEntries es) with
  | error path => simp [hregister, Except.map, Except.mapError] at hr
  | ok paths =>
    obtain rfl : { paths } = r := by simpa [hregister, Except.map, Except.mapError] using hr
    calc
      (Router.registered paths).map some
      _ ~ (Endpoint.entries (Endpoint.ofEntries es)).map Router.registration? ++ [] :=
        Router.registered_of_register hregister
      _ ~ es.map Router.registration? := by
        rw [List.append_nil]
        exact (Endpoint.entries_ofEntries es).map _

end

/-- A table makes a router unless one of its keys offends, and then the fault of the first key that
has one is told. The router registers every entry once, under its own method and path: what goes
into the tree are the entries, which are the rows of the table, one endpoint to a path. -/
theorem mux_validates (table : List (String × Handler m)) :
    ((∃ e, mux table = .error (.route e)) ↔
      ∃ before key after, table.map (·.1) = before ++ key :: after ∧ Offends before key) ∧
    (∀ e, mux table = .error (.route e) ↔ FirstFault (table.map (·.1)) e) ∧
    ((∃ e, mux table = .error (.route e)) ∨
      ∃ (es : List (Entry m)) (g : List (String × Endpoint m)),
        es.map (fun e => (e.fields, e.handler)) =
          table.map (fun row => (Text.fields row.1, row.2)) ∧
        (es.map Entry.fields).Nodup ∧
        Endpoint.entries g ~ es ∧ Endpoint.Ascending g ∧
        mux table = ((Router.register {} g).map fun paths => { paths }).mapError .refused ∧
        ∀ r, mux table = .ok r →
          (Router.registered r.paths).map some ~ es.map Router.registration?) := by
  refine ⟨⟨?_, ?_⟩, fun e => mux_eq_route_iff.trans validate_eq_error_iff, ?_⟩
  · rintro ⟨e, h⟩
    obtain ⟨before, key, after, hkeys, -, hfault⟩ :=
      validate_eq_error_iff.1 (mux_eq_route_iff.1 h)
    exact ⟨before, key, after, hkeys, exists_faulty_iff.1 ⟨e, hfault⟩⟩
  · rintro ⟨before, key, after, hkeys, hoffends⟩
    obtain ⟨e, hfault⟩ := exists_faulty_iff.2 hoffends
    cases hvalid : validate table with
    | error fault => exact ⟨fault, mux_eq_route_iff.2 hvalid⟩
    | ok es => exact absurd hfault ((faultless_of_validate hvalid).1 before key after hkeys e)
  · cases hvalid : validate table with
    | error fault => exact .inl ⟨fault, mux_eq_route_iff.2 hvalid⟩
    | ok es =>
      obtain ⟨hclean, hrows⟩ := faultless_of_validate hvalid
      have hfields : es.map Entry.fields = (table.map (·.1)).map Text.fields := by
        simpa [Function.comp_def] using congrArg (List.map Prod.fst) hrows
      exact .inr ⟨es, Endpoint.ofEntries es, hrows, hfields ▸ hclean.nodup_fields,
        Endpoint.entries_ofEntries es, Endpoint.ascending_ofEntries es, mux_of_validate hvalid,
        fun r hr => registered_of_validate hvalid hr⟩

/-- The third key has the method and path of the first, and the last is never read. -/
example (h : Handler m) :
    mux [("GET /a", h), ("PUT /a", h), ("GET\t/a", h), ("get /a", h)] =
      .error (.route (.duplicate "GET\t/a")) := by
  rfl

end RouteCheck.Http
