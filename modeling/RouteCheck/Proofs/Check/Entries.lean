import RouteCheck.Proofs.Check.Routes
import RouteCheck.Proofs.Program.Sample

/-!
No entry of a route table is lost in silence.

An entry is read at one place of the run over all entries of a package. `Grown` says that a run only
appends: to the reports, to the routes and to the rejected keys. So what an entry leaves behind when
it is read is still there at the end.

Main statements:
  1. `readEntry_cases`: the four ways in which an entry ends, each with its reports.
  2. `accounted_read`: the step, what reading one entry leaves behind; `grown_reached`: the run.
  3. `entry_accounted`: every entry of every route table of a package reports something or adds the
     route of its place, and its key is rejected if its handler is not found or gives the route up.
-/

namespace RouteCheck

/-! ## Entries -/

/-- `key` and `value` are what a keyed element of the body of `table` is made of. -/
def Node.HasEntry (table key value : Node) : Prop :=
  ∃ body, table.field? .body = some body ∧ ∃ element ∈ body.named,
    element.literalContent.kind = .keyedElement ∧
      element.literalContent.named.map Node.literalContent = [key, value]

theorem mem_tableEntries_iff {table key value : Node} :
    (key, value) ∈ tableEntries table ↔ table.HasEntry key value := by
  unfold tableEntries Node.HasEntry
  cases table.field? .body with
  | none => simp
  | some body =>
    simp only [List.mem_filterMap, Option.some.injEq, exists_eq_left']
    refine exists_congr fun element => and_congr_right fun _ => ?_
    split
    · next hkind =>
      rw [and_iff_right hkind]
      split
      · next key' value' hparts => simp [hparts, Prod.ext_iff]
      · next hparts =>
        constructor
        · exact fun h => absurd h (by simp)
        · exact fun h => absurd h (hparts key value)
    · next hkind =>
      constructor
      · exact fun h => absurd h (by simp)
      · exact fun h => absurd h.1 hkind

variable {index : Index} {files : List SourceFile} {config : Config} {t : Typer}
  {key value : Node}

theorem mem_routeEntries {file : SourceFile} {table : Node} (hfile : file ∈ files)
    (htable : table ∈ file.tree.descendants) (hroute : isRouteTable file config.library table = true)
    (hentry : table.HasEntry key value) :
    (Typer.enclosing index file table, key, value) ∈ routeEntries index files config.library := by
  refine List.mem_flatMap.2 ⟨file, hfile, List.mem_flatMap.2 ⟨table, ?_, ?_⟩⟩
  · exact List.mem_filter.2 ⟨htable, hroute⟩
  · exact List.mem_map.2 ⟨(key, value), mem_tableEntries_iff.2 hentry, rfl⟩

/-! ## How an entry ends -/

/-- The route that an entry starts with: no types yet, at the place of its key. -/
def Typer.entryRoute (t : Typer) (config : Config) (key : Node) (method full : String) :
    ServerRoute :=
  .new method ((Text.dropLead? config.serverPrefix full).getD full) (t.file.position key)

/-- The handler of an entry is not found, or gives its route up. -/
def Typer.Unserved (t : Typer) (config : Config) (key value : Node) (method full : String) : Prop :=
  ∀ handler, t.handler? value = some handler →
    (handler.replay t.index config.library (t.entryRoute config key method full)).2 = none

/-- The four ways in which an entry ends. Its key has not two words, or no handler is found, or the
handler gives the route up: then something is reported. Or the route is accepted, at the place of the
key. -/
theorem readEntry_cases (t : Typer) (config : Config) (key value : Node) :
    (splitRouteKey? (t.fold key).render = none ∧
      ∃ notes, notes ≠ [] ∧ t.readEntry config key value = (notes, .invalid)) ∨
    ∃ method full, splitRouteKey? (t.fold key).render = some (method, full) ∧
      ((t.Unserved config key value method full ∧ ∃ notes handler?, notes ≠ [] ∧
          t.readEntry config key value =
            (notes, .rejected (t.entryRoute config key method full).key handler?)) ∨
        (¬ t.Unserved config key value method full ∧ ∃ notes route handler,
          route.position = t.file.position key ∧
            t.readEntry config key value = (notes, .accepted route handler))) := by
  unfold Typer.readEntry
  simp only
  cases hsplit : splitRouteKey? (t.fold key).render with
  | none => exact .inl ⟨rfl, _, List.cons_ne_nil _ _, rfl⟩
  | some words =>
    obtain ⟨method, full⟩ := words
    refine .inr ⟨method, full, rfl, ?_⟩
    cases hhandler : t.handler? value with
    | none =>
      refine .inl ⟨fun handler h => absurd h (by simp [hhandler]), ?_⟩
      exact ⟨_, none, List.cons_ne_nil _ _, rfl⟩
    | some handler =>
      obtain ⟨hstopped, hkept⟩ := replay_sane handler t.index config.library
        (t.entryRoute config key method full)
      cases hreplay : handler.replay t.index config.library
        (t.entryRoute config key method full) with
      | mk notes route? =>
        rw [hreplay] at hstopped hkept
        unfold Typer.entryRoute at hreplay
        cases route? with
        | none =>
          refine .inl ⟨fun h hh => ?_, notes, some handler, hstopped rfl, ?_⟩
          · obtain rfl : handler = h := Option.some.inj (hhandler.symm.trans hh)
            exact congrArg Prod.snd hreplay
          · simp only [hreplay]
            rfl
        | some route =>
          refine .inr ⟨fun h => ?_, notes, route, handler, (hkept route rfl).position, ?_⟩
          · have := h handler hhandler
            rw [Typer.entryRoute, hreplay] at this
            simp at this
          · simp only [hreplay]

/-! ## A run only appends -/

/-- What is found so far: reports, and routes. -/
abbrev Found := List Diagnostic × ServerRoutes

/-- `b` has all that `a` has, in the same order, and what came after it. -/
structure Grown (a b : Found) : Prop where
  notes : a.1 <+: b.1
  routes : a.2.table.routes <+: b.2.table.routes
  rejected : a.2.table.rejected <+: b.2.table.rejected

namespace Grown

variable {a b c : Found}

theorem refl (a : Found) : Grown a a :=
  ⟨List.prefix_refl _, List.prefix_refl _, List.prefix_refl _⟩

theorem trans (h : Grown a b) (h' : Grown b c) : Grown a c where
  notes := h.notes.trans h'.notes
  routes := h.routes.trans h'.routes
  rejected := h.rejected.trans h'.rejected

theorem isRejected (h : Grown a b) {key : String} (hkey : a.2.table.isRejected key = true) :
    b.2.table.isRejected key = true := by
  unfold RouteTable.isRejected at *
  exact List.contains_iff_mem.2 (h.rejected.subset (List.contains_iff_mem.1 hkey))

end Grown

theorem RouteTable.isRejected_reject (table : RouteTable) (key : String) :
    (table.reject key).isRejected key = true := by
  unfold reject isRejected
  split
  · assumption
  · simp

theorem RouteTable.rejected_prefix_reject (table : RouteTable) (key : String) :
    table.rejected <+: (table.reject key).rejected := by
  unfold reject
  split
  · exact List.prefix_refl _
  · exact List.prefix_append _ _

/-- The outcome of an entry only adds to the routes and the rejected keys. -/
theorem grown_add (s : ServerRoutes) (notes found : List Diagnostic) (o : Entry.Outcome) :
    Grown (notes, s) (notes ++ found ++ (s.add o).1, (s.add o).2) := by
  have hnotes : notes <+: notes ++ found ++ (s.add o).1 := by
    rw [List.append_assoc]
    exact List.prefix_append _ _
  cases o with
  | accepted route handler =>
    refine ⟨hnotes, ?_, ?_⟩
    all_goals
      unfold ServerRoutes.add
      simp only
      split
    · next table htable =>
      obtain ⟨-, rfl⟩ := RouteTable.insert_eq_ok_iff.1 htable
      exact List.prefix_append _ _
    · exact List.prefix_refl _
    · next table htable =>
      obtain ⟨-, rfl⟩ := RouteTable.insert_eq_ok_iff.1 htable
      exact List.prefix_refl _
    · exact List.prefix_refl _
  | rejected key handler? =>
    refine ⟨hnotes, ?_, RouteTable.rejected_prefix_reject _ _⟩
    have hroutes := s.table.routes_reject key
    exact hroutes ▸ List.prefix_refl s.table.routes
  | invalid => exact ⟨hnotes, List.prefix_refl _, List.prefix_refl _⟩

theorem grown_read (acc : Found) (entry : Typer × Node × Node) :
    Grown acc (ServerRoutes.read config acc entry) :=
  grown_add acc.2 acc.1 _ _

/-- What is found once `entries` are read, of a package with so many route tables. -/
def reached (config : Config) (tables : Nat) (entries : List (Typer × Node × Node)) : Found :=
  entries.foldl (ServerRoutes.read config) ([], ({ tables } : ServerRoutes))

/-- The run: reading more entries takes nothing away, by induction on them. -/
theorem grown_reached (tables : Nat) (before after : List (Typer × Node × Node)) :
    Grown (reached config tables before) (reached config tables (before ++ after)) := by
  unfold reached
  rw [List.foldl_append]
  generalize before.foldl _ _ = acc
  induction after generalizing acc with
  | nil => exact .refl acc
  | cons entry after ih => exact (grown_read acc entry).trans (ih _)

/-! ## What an entry leaves behind -/

/-- Between `a` and `b` something is reported, or one route is added, which has this position. -/
def Told (position : Position) (a b : Found) : Prop :=
  (∃ found, found ≠ [] ∧ b.1 = a.1 ++ found) ∨
    ∃ route, route.position = position ∧ b.2.table.routes = a.2.table.routes ++ [route]

/-- A route that is added is stored, or its key is taken and that is reported. -/
theorem told_accepted (s : ServerRoutes) (notes found : List Diagnostic) (route : ServerRoute)
    (handler : Handler) :
    Told route.position (notes, s) (notes ++ found ++ (s.add (.accepted route handler)).1,
      (s.add (.accepted route handler)).2) := by
  unfold ServerRoutes.add
  simp only
  split
  · next table htable =>
    obtain ⟨-, rfl⟩ := RouteTable.insert_eq_ok_iff.1 htable
    exact .inr ⟨route, rfl, rfl⟩
  · exact .inl ⟨found ++ [_], by simp, List.append_assoc _ _ _⟩

/-- The step: reading an entry is told, and rejects the key of a route that is not served. -/
theorem accounted_read (acc : Found) :
    Told (t.file.position key) acc (ServerRoutes.read config acc (t, key, value)) ∧
      ∀ method full, splitRouteKey? (t.fold key).render = some (method, full) →
        t.Unserved config key value method full →
          (ServerRoutes.read config acc (t, key, value)).2.table.isRejected
            (t.entryRoute config key method full).key = true := by
  unfold ServerRoutes.read
  simp only
  rcases readEntry_cases t config key value with ⟨hsplit, notes, hnotes, heq⟩ |
    ⟨method, full, hsplit, ⟨-, notes, handler?, hnotes, heq⟩ |
      ⟨hserved, notes, route, handler, hposition, heq⟩⟩
  · rw [heq]
    refine ⟨.inl ⟨notes, hnotes, List.append_nil _⟩, fun method full h => ?_⟩
    exact absurd h (by simp [hsplit])
  · rw [heq]
    refine ⟨.inl ⟨notes, hnotes, List.append_nil _⟩, fun method' full' h _ => ?_⟩
    obtain ⟨rfl, rfl⟩ : method = method' ∧ full = full' := by simpa [hsplit] using h
    exact RouteTable.isRejected_reject _ _
  · rw [heq]
    refine ⟨hposition ▸ told_accepted _ _ _ _ _, fun method' full' h hunserved => ?_⟩
    obtain ⟨rfl, rfl⟩ : method = method' ∧ full = full' := by simpa [hsplit] using h
    exact absurd hunserved hserved

/-- Every entry of every route table of a package is read. Whenever it is, something is reported, or
a route at the place of its key is added, and either is still there at the end of the run. If its key
has two words, but its handler is not found or gives the route up, then its key is rejected. -/
theorem entry_accounted (index : Index) (files : List SourceFile) (config : Config)
    {file : SourceFile} {table key value : Node} (hfile : file ∈ files)
    (htable : table ∈ file.tree.descendants) (hroute : isRouteTable file config.library table = true)
    (hentry : table.HasEntry key value) :
    let t := Typer.enclosing index file table
    let tables := (files.flatMap fun f => routeTables f config.library).length
    let result := extractRoutes index files config
    (t, key, value) ∈ routeEntries index files config.library ∧
      (∀ before after, routeEntries index files config.library = before ++ (t, key, value) :: after →
        let acc := reached config tables before
        let acc' := reached config tables (before ++ [(t, key, value)])
        Told (file.position key) acc acc' ∧ Grown acc' result) ∧
      ∀ method full, splitRouteKey? (t.fold key).render = some (method, full) →
        t.Unserved config key value method full → result.2.table.isRejected (serverKey method
          ((Text.dropLead? config.serverPrefix full).getD full)) = true := by
  intro t tables result
  have hmem : (t, key, value) ∈ routeEntries index files config.library :=
    mem_routeEntries hfile htable hroute hentry
  have hplace : t.file.position key = file.position key := by
    rw [show t.file = file from Typer.enclosing_file ..]
  have hlast (before : List (Typer × Node × Node)) :
      reached config tables (before ++ [(t, key, value)]) =
        ServerRoutes.read config (reached config tables before) (t, key, value) := by
    unfold reached
    rw [List.foldl_append, List.foldl_cons, List.foldl_nil]
  have hgrown {before after : List (Typer × Node × Node)}
      (hsplit : routeEntries index files config.library = before ++ (t, key, value) :: after) :
      Grown (reached config tables (before ++ [(t, key, value)])) result := by
    show Grown _ (reached config tables (routeEntries index files config.library))
    rw [hsplit, List.append_cons before _ after]
    exact grown_reached tables _ after
  refine ⟨hmem, fun before after hsplit => ⟨?_, hgrown hsplit⟩, fun method full hkey hunserved => ?_⟩
  · rw [hlast, ← hplace]
    exact (accounted_read _).1
  · obtain ⟨before, after, hsplit⟩ := List.append_of_mem hmem
    refine (hgrown hsplit).isRejected ?_
    rw [hlast]
    exact (accounted_read _).2 method full hkey hunserved

/-- A table within a function, whose only handler is the result of a call. -/
theorem entry_accounted_called :
    let file := SourceFile.sample ["func serve() http.Handler \x7b",
      "return jape.Mux(map[string]jape.Handler\x7b\"PUT /items/:id\": timed(put)\x7d) \x7d"]
    let result := extractRoutes (.build ⟨[file]⟩) [file] {}
    ∃ table ∈ file.tree.descendants, isRouteTable file "jape" table = true ∧ ∃ key value,
      table.HasEntry key value ∧ value.text = "timed(put)" ∧
        Told (file.position key) ([], { tables := 1 }) result ∧
          result.2.table.isRejected "PUT /items/%s" = true := by
  intro file result
  have hentries : (routeTables file "jape").map (fun table =>
      let t := Typer.enclosing (.build ⟨[file]⟩) file table
      (tableEntries table).map fun e =>
        (e.2.text, splitRouteKey? (t.fold e.1).render, (t.handler? e.2).isNone)) =
      [[("timed(put)", some ("PUT", "/items/:id"), true)]] := by
    simp only [file, SourceFile.sample_eq, SourceFile.chars, String.reduceToList]
    decide +kernel
  obtain ⟨table, htables, hlist⟩ := List.map_eq_singleton_iff.1 hentries
  obtain ⟨⟨key, value⟩, htable, heq⟩ := List.map_eq_singleton_iff.1 hlist
  simp only [Prod.mk.injEq, Option.isNone_iff_eq_none] at heq
  obtain ⟨htext, hsplit, hnone⟩ := heq
  obtain ⟨hin, hroute⟩ := List.mem_filter.1 (htables ▸ List.mem_singleton_self table)
  have hentry : table.HasEntry key value :=
    mem_tableEntries_iff.1 (htable ▸ List.mem_singleton_self (key, value))
  obtain ⟨-, htold, hrejected⟩ :=
    entry_accounted (.build ⟨[file]⟩) [file] {} List.mem_cons_self hin hroute hentry
  have honly : routeEntries (.build ⟨[file]⟩) [file] "jape" =
      [] ++ [(.enclosing (.build ⟨[file]⟩) file table, key, value)] := by
    simp [routeEntries, htables, htable]
  refine ⟨table, hin, hroute, key, value, hentry, htext, ?_, ?_⟩
  · have hfirst := (htold [] [] honly).1
    rw [← honly] at hfirst
    rw [show (1 : Nat) = ([file].flatMap fun f => routeTables f "jape").length by simp [htables]]
    exact hfirst
  · refine hrejected _ _ hsplit fun handler hhandler => ?_
    exact absurd (hnone.symm.trans hhandler) (by simp)

end RouteCheck
