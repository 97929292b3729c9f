import RouteCheck.Check.Check
import RouteCheck.Proofs.Check.Parity
import RouteCheck.Proofs.Check.Replay
import RouteCheck.Proofs.Program.Located
import RouteCheck.Proofs.Types.Collect

/-!
What extracting the routes of a package leaves behind.

`ServerRoutes.Sound` is the invariant of reading table entries: no two routes have one key, no
route is marked yet, no key is refused in silence, and every handler is a function of the program.

Main statements:
  1. `sound_read`, `sound_extractRoutes`: each entry preserves the invariant, so it holds of the
     routes of every package.
  2. `tables_extractRoutes_eq_zero_iff`: a package without a route table is recognized.
  3. `accepted_of_mem_routes`: every route of a package is that of an accepted entry.
  4. `mem_distinctHandlers_iff`: telling handlers apart by number loses none of them.
-/

namespace RouteCheck

/-! ## Handlers as functions of a program -/

/-- The handler is a function of the program, with the body it has there. -/
structure Handler.In (h : Handler) (p : Program) : Prop where
  file : h.file ∈ p.files
  node : h.node ∈ h.file.tree.all
  body : h.node.field? .body = some h.body

section
variable {p : Program} {t : Typer} {h : Handler}

theorem Decl.In.ofFunction? {d : Decl} (hd : d.In p)
    (h' : Handler.ofFunction? d.file d.node = some h) : h.In p := by
  unfold Handler.ofFunction? at h'
  obtain ⟨body, hbody, rfl⟩ := Option.map_eq_some_iff.1 h'
  exact ⟨hd.file, hd.node, hbody⟩

theorem in_of_selectedHandler? (hindex : t.index.Located p) {operand : Node} {name : String}
    {d : Decl} (h : t.selectedHandler? operand name = some d) : d.In p := by
  unfold Typer.selectedHandler? at h
  split at h
  · exact hindex.function? h
  · rcases Option.or_eq_some_iff.1 h with h | ⟨_, h⟩
    · split at h
      · exact hindex.method? h
      · exact absurd h (by simp)
    · exact hindex.uniqueMethod? h

/-- The handler that an expression denotes is a function of the program: the literal itself or a
declaration. -/
theorem in_of_handler? (hindex : t.index.Located p) (hfile : t.file ∈ p.files) {value : Node}
    (hvalue : value ∈ t.file.tree.all) (h' : t.handler? value = some h) : h.In p := by
  unfold Typer.handler? at h'
  simp only at h'
  split at h'
  · have hliteral : (⟨t.file, value.unparen⟩ : Decl).In p :=
      ⟨hfile, Node.mem_all_trans (Node.unparen_mem_all value) hvalue⟩
    exact hliteral.ofFunction? h'
  · obtain ⟨d, hd, h'⟩ := Option.bind_eq_some_iff.1 h'
    exact (hindex.function? hd).ofFunction? h'
  · obtain ⟨operand, _, h'⟩ := Option.bind_eq_some_iff.1 h'
    obtain ⟨name, _, h'⟩ := Option.bind_eq_some_iff.1 h'
    obtain ⟨d, hd, h'⟩ := Option.bind_eq_some_iff.1 h'
    exact (in_of_selectedHandler? hindex hd).ofFunction? h'
  · exact absurd h' (by simp)

theorem Handler.eq_of_same (hp : p.Numbered) {a b : Handler} (ha : a.In p) (hb : b.In p)
    (h : a.same b = true) : a = b := by
  obtain ⟨hfile, hnode⟩ : a.file.index = b.file.index ∧ a.node.id = b.node.id := by
    simpa [Handler.same] using h
  obtain ⟨file, node, body⟩ := a
  obtain rfl : file = b.file := hp.files _ ha.file _ hb.file hfile
  obtain rfl : node = b.node := hp.eq_of_id_eq ha.file ha.node hb.node hnode
  obtain rfl : body = b.body := Option.some.inj (ha.body.symm.trans hb.body)
  rfl

theorem mem_addHandler_iff (hp : p.Numbered) {seen : List Handler} (hseen : ∀ a ∈ seen, a.In p)
    (hh : h.In p) {a : Handler} : a ∈ addHandler seen h ↔ a ∈ seen ∨ a = h := by
  unfold addHandler
  split
  · next hany =>
    obtain ⟨b, hb, hsame⟩ := List.any_eq_true.1 hany
    obtain rfl := Handler.eq_of_same hp hh (hseen b hb) hsame
    constructor
    · exact .inl
    · rintro (ha | rfl)
      · exact ha
      · exact hb
  · rw [List.mem_append, List.mem_singleton]

/-- Each function is kept once, and none is lost. -/
theorem mem_distinctHandlers_iff (hp : p.Numbered) {hs : List Handler} (hhs : ∀ a ∈ hs, a.In p)
    {a : Handler} : a ∈ distinctHandlers hs ↔ a ∈ hs := by
  have hfold (hs seen : List Handler) (hhs : ∀ a ∈ hs, a.In p) (hseen : ∀ a ∈ seen, a.In p) :
      a ∈ hs.foldl addHandler seen ↔ a ∈ seen ∨ a ∈ hs := by
    induction hs generalizing seen with
    | nil => simp
    | cons h hs ih =>
      have hh := hhs h List.mem_cons_self
      have hadd (b : Handler) := mem_addHandler_iff hp hseen hh (a := b)
      rw [List.foldl_cons, ih _ (fun b hb => hhs b (List.mem_cons_of_mem _ hb)), hadd,
        List.mem_cons, or_assoc]
      intro b hb
      rcases (hadd b).1 hb with hb | rfl
      · exact hseen b hb
      · exact hh
  unfold distinctHandlers
  rw [hfold hs [] hhs (by simp)]
  simp

end

/-! ## Entries of route tables -/

/-- The outcome of an entry, with what was reported on the way: only a report can leave a route
out, an accepted route is not marked, and a handler is a function of the program. -/
def Entry.Outcome.Sound (p : Program) (notes : List Diagnostic) : Entry.Outcome → Prop
  | .accepted route handler => route.seen = false ∧ handler.In p
  | .rejected _ handler? => notes ≠ [] ∧ ∀ h, handler? = some h → h.In p
  | .invalid => notes ≠ []

theorem sound_readEntry {p : Program} {t : Typer} (hindex : t.index.Located p)
    (hfile : t.file ∈ p.files) {key value : Node} (hvalue : value ∈ t.file.tree.all)
    (config : Config) :
    (t.readEntry config key value).2.Sound p (t.readEntry config key value).1 := by
  unfold Typer.readEntry
  simp only
  split
  · exact List.cons_ne_nil _ _
  · next method full _ =>
    split
    · exact ⟨List.cons_ne_nil _ _, fun h hh => absurd hh (by simp)⟩
    · next handler hhandler =>
      have hin := in_of_handler? hindex hfile hvalue hhandler
      generalize hroute : ServerRoute.new _ _ _ = route
      obtain ⟨hstopped, hkept⟩ := replay_sane handler t.index config.library route
      split
      · next notes r hreplay =>
        have hsame := hkept r (by rw [hreplay])
        refine ⟨hsame.seen.trans ?_, hin⟩
        rw [← hroute]
        rfl
      · next notes hreplay =>
        refine ⟨?_, fun h hh => Option.some.inj hh ▸ hin⟩
        have := hstopped (by rw [hreplay])
        rwa [hreplay] at this

/-- What the routes found so far and the reports made so far have in common. -/
structure ServerRoutes.Sound (p : Program) (notes : List Diagnostic) (s : ServerRoutes) :
    Prop where
  keyed : s.table.Keyed
  unseen : ∀ r ∈ s.table.routes, r.seen = false
  /-- A key is refused with a report only. -/
  told : notes = [] → s.table.rejected = []
  handlers : ∀ h ∈ s.handlers, h.In p

namespace RouteTable

variable {table table' : RouteTable} {r : ServerRoute}

theorem insert_eq_ok_iff : table.insert r = .ok table' ↔
    table.get? r.key = none ∧ table' = { table with routes := table.routes ++ [r] } := by
  unfold insert
  cases table.get? r.key <;> simp [eq_comm]

theorem keyed_append (h : table.Keyed) (hnone : table.get? r.key = none) :
    ({ table with routes := table.routes ++ [r] } : RouteTable).Keyed := by
  have hnot : r.key ∉ table.routes.map (·.key) := by
    intro hmem
    obtain ⟨q, hq, hkey⟩ := List.mem_map.1 hmem
    have := List.find?_eq_none.1 hnone q hq
    simp [hkey] at this
  show ((table.routes ++ [r]).map (·.key)).Nodup
  rw [List.map_append]
  refine List.nodup_append.2 ⟨h, List.nodup_singleton _, ?_⟩
  rintro _ hk _ hk' rfl
  obtain rfl := List.mem_singleton.1 hk'
  exact hnot hk

theorem routes_reject (key : String) : (table.reject key).routes = table.routes := by
  unfold reject
  split <;> rfl

end RouteTable

section
variable {p : Program} {notes found : List Diagnostic} {s : ServerRoutes}

/-- Adding the outcome of an entry preserves the invariant. -/
theorem ServerRoutes.Sound.add (hs : s.Sound p notes) {o : Entry.Outcome} (ho : o.Sound p found) :
    (s.add o).2.Sound p (notes ++ found ++ (s.add o).1) := by
  cases o with
  | accepted route handler =>
    obtain ⟨hseen, hin⟩ := ho
    have hhandlers : ∀ h ∈ s.handlers ++ [handler], h.In p := by
      intro h hh
      rcases List.mem_append.1 hh with hh | hh
      · exact hs.handlers h hh
      · exact List.mem_singleton.1 hh ▸ hin
    unfold ServerRoutes.add
    simp only
    split
    · next table htable =>
      obtain ⟨hnone, rfl⟩ := RouteTable.insert_eq_ok_iff.1 htable
      refine ⟨RouteTable.keyed_append hs.keyed hnone, fun r hr => ?_, fun h => ?_, hhandlers⟩
      · rcases List.mem_append.1 hr with hr | hr
        · exact hs.unseen r hr
        · exact List.mem_singleton.1 hr ▸ hseen
      · exact hs.told (by simpa using h : notes = [] ∧ found = []).1
    · refine ⟨hs.keyed, hs.unseen, fun h => ?_, hhandlers⟩
      exact absurd h (by simp)
  | rejected key handler? =>
    obtain ⟨htold, hin⟩ := ho
    refine ⟨?_, fun r hr => ?_, fun h => ?_, fun h hh => ?_⟩
    · show ((s.table.reject key).routes.map (·.key)).Nodup
      rw [RouteTable.routes_reject]
      exact hs.keyed
    · refine hs.unseen r ?_
      rwa [← RouteTable.routes_reject key]
    · exact absurd h (by simp [ServerRoutes.add, htold])
    · rcases List.mem_append.1 hh with hh | hh
      · exact hs.handlers h hh
      · exact hin h (Option.mem_toList.1 hh)
  | invalid =>
    refine ⟨hs.keyed, hs.unseen, fun h => hs.told ?_, hs.handlers⟩
    exact (List.append_eq_nil_iff.1 (List.append_eq_nil_iff.1 h).1).1

/-- The step: reading an entry of the program preserves the invariant. -/
theorem sound_read {t : Typer} (hindex : t.index.Located p) (hfile : t.file ∈ p.files)
    {key value : Node} (hvalue : value ∈ t.file.tree.all) (config : Config)
    (hs : s.Sound p notes) :
    (ServerRoutes.read config (notes, s) (t, key, value)).2.Sound p
      (ServerRoutes.read config (notes, s) (t, key, value)).1 :=
  hs.add (sound_readEntry hindex hfile hvalue config)

theorem tables_add (s : ServerRoutes) (o : Entry.Outcome) : (s.add o).2.tables = s.tables := by
  cases o with
  | accepted route handler =>
    unfold ServerRoutes.add
    simp only
    split <;> rfl
  | rejected key handler? => rfl
  | invalid => rfl

/-! ## Packages -/

theorem literalContent_mem_all (n : Node) : n.literalContent ∈ n.all := by
  unfold Node.literalContent
  split
  · cases hhead : n.named.head? with
    | none => exact Node.self_mem_all n
    | some c => exact Node.mem_all_of_mem_named (List.mem_of_head? hhead)
  · exact Node.self_mem_all n

theorem mem_all_of_mem_tableEntries {table key value : Node}
    (h : (key, value) ∈ tableEntries table) : value ∈ table.all := by
  unfold tableEntries at h
  split at h
  · exact absurd h List.not_mem_nil
  · next body hbody =>
    obtain ⟨element, helement, h⟩ := List.mem_filterMap.1 h
    simp only at h
    split at h
    · split at h
      · next key' value' hparts =>
        obtain ⟨rfl, rfl⟩ : key' = key ∧ value' = value := by simpa using h
        have hmem : value' ∈ element.literalContent.named.map Node.literalContent := by
          rw [hparts]
          exact List.mem_cons_of_mem _ List.mem_cons_self
        obtain ⟨c, hc, rfl⟩ := List.mem_map.1 hmem
        have hc := Node.mem_all_trans (literalContent_mem_all c) (Node.mem_all_of_mem_named hc)
        have helement := Node.mem_all_trans (Node.mem_all_of_mem_named helement)
          (Node.mem_all_of_field? hbody)
        exact Node.mem_all_trans hc (Node.mem_all_trans (literalContent_mem_all element) helement)
      · exact absurd h (by simp)
    · exact absurd h (by simp)

variable {index : Index} {files : List SourceFile}

theorem place_of_mem_routeEntries {library : String} {t : Typer} {key value : Node}
    (h : (t, key, value) ∈ routeEntries index files library) :
    t.index = index ∧ t.file ∈ files ∧ value ∈ t.file.tree.all := by
  obtain ⟨file, hfile, h⟩ := List.mem_flatMap.1 h
  obtain ⟨table, htable, h⟩ := List.mem_flatMap.1 h
  obtain ⟨⟨_, _⟩, hentry, heq⟩ := List.mem_map.1 h
  obtain ⟨rfl, rfl, rfl⟩ := Prod.mk.injEq .. ▸ heq
  refine ⟨(Typer.sameGround_enclosing index file table).1, ?_, ?_⟩
  · rwa [Typer.enclosing_file]
  · rw [Typer.enclosing_file]
    exact Node.mem_all_trans (mem_all_of_mem_tableEntries hentry)
      (Node.mem_all_of_mem_walk (List.mem_filter.1 htable).1)

/-- The invariant holds of the routes of every package, by induction on its entries. -/
theorem sound_extractRoutes (hindex : index.Located p) (hfiles : ∀ f ∈ files, f ∈ p.files)
    (config : Config) :
    (extractRoutes index files config).2.Sound p (extractRoutes index files config).1 := by
  have hfold (entries : List (Typer × Node × Node))
      (hentries : ∀ e ∈ entries, e ∈ routeEntries index files config.library)
      (acc : List Diagnostic × ServerRoutes) (hacc : acc.2.Sound p acc.1) :
      (entries.foldl (ServerRoutes.read config) acc).2.Sound p
        (entries.foldl (ServerRoutes.read config) acc).1 := by
    induction entries generalizing acc with
    | nil => exact hacc
    | cons e entries ih =>
      obtain ⟨notes, s⟩ := acc
      obtain ⟨t, key, value⟩ := e
      obtain ⟨rfl, hfile, hvalue⟩ := place_of_mem_routeEntries (hentries _ List.mem_cons_self)
      exact ih (fun e he => hentries e (List.mem_cons_of_mem _ he)) _
        (sound_read hindex (hfiles _ hfile) hvalue config hacc)
  exact hfold _ (fun _ he => he) _ ⟨List.nodup_nil, by simp, fun _ => rfl, by simp⟩

/-- The count of route tables is zero just if no file has one. -/
theorem tables_extractRoutes_eq_zero_iff (config : Config) :
    (extractRoutes index files config).2.tables = 0 ↔
      ∀ f ∈ files, routeTables f config.library = [] := by
  have hfold (entries : List (Typer × Node × Node)) (acc : List Diagnostic × ServerRoutes) :
      (entries.foldl (ServerRoutes.read config) acc).2.tables = acc.2.tables := by
    induction entries generalizing acc with
    | nil => rfl
    | cons e entries ih =>
      rw [List.foldl_cons, ih]
      exact tables_add acc.2 _
  unfold extractRoutes
  rw [hfold, List.length_eq_zero_iff, List.flatMap_eq_nil_iff]

/-! ## Where routes come from -/

variable {config : Config} {r : ServerRoute}

theorem mem_routes_add {o : Entry.Outcome} (h : r ∈ (s.add o).2.table.routes) :
    r ∈ s.table.routes ∨ ∃ handler, o = .accepted r handler := by
  cases o with
  | accepted route handler =>
    unfold ServerRoutes.add at h
    simp only at h
    split at h
    · next table htable =>
      obtain ⟨-, rfl⟩ := RouteTable.insert_eq_ok_iff.1 htable
      rcases List.mem_append.1 h with h | h
      · exact .inl h
      · obtain rfl := List.mem_singleton.1 h
        exact .inr ⟨handler, rfl⟩
    · exact .inl h
  | rejected key handler? =>
    have h : r ∈ (s.table.reject key).routes := h
    rw [RouteTable.routes_reject] at h
    exact .inl h
  | invalid => exact .inl h

/-- Every route of a package is that of an entry that was accepted. -/
theorem accepted_of_mem_routes (h : r ∈ (extractRoutes index files config).2.table.routes) :
    ∃ t key value handler, (t, key, value) ∈ routeEntries index files config.library ∧
      (t.readEntry config key value).2 = .accepted r handler := by
  have hfold (entries : List (Typer × Node × Node)) (acc : List Diagnostic × ServerRoutes)
      (h : r ∈ (entries.foldl (ServerRoutes.read config) acc).2.table.routes) :
      r ∈ acc.2.table.routes ∨ ∃ t key value handler, (t, key, value) ∈ entries ∧
        (t.readEntry config key value).2 = .accepted r handler := by
    induction entries generalizing acc with
    | nil => exact .inl h
    | cons e entries ih =>
      obtain ⟨t, key, value⟩ := e
      rcases ih _ h with h | ⟨t', key', value', handler, hmem, haccepted⟩
      · rcases mem_routes_add h with h | ⟨handler, haccepted⟩
        · exact .inl h
        · exact .inr ⟨t, key, value, handler, List.mem_cons_self, haccepted⟩
      · exact .inr ⟨t', key', value', handler, List.mem_cons_of_mem _ hmem, haccepted⟩
  rcases hfold _ _ h with h | h
  · exact absurd h List.not_mem_nil
  · exact h

end

end RouteCheck
