import RouteCheck.Proofs.Http.Insertion
import RouteCheck.Proofs.Http.Registration

/-!
Which tables make no router although none of their keys offends.

Validation looks at the fields of the keys only. The endpoints of a table that passes it are then
registered path by path, in ascending order, and the first path that the tree refuses stops that.
What is refused can be told from the paths alone: one of them is no pattern, two of them clash, or
one has a wildcard for everything in the middle of a segment and no smaller path leads up to it.

Main statements:
  1. `formed_ofText?`: patterns that are read are well formed.
  2. `PathMap.insert?_eq_none_iff`, `PathMap.sound_insert?`: the step, one path more.
  3. `Router.register_eq_error_iff`: a list of endpoints, by induction on what is left of it.
  4. `mux_refuses_iff`: tables.
-/

namespace RouteCheck.Http

open PathTree

/-! ## Patterns by their text -/

namespace PathPattern

theorem eq_slash_of_afterName {cs after : List Char} {c : Char} (h : afterName cs = c :: after) :
    c = '/' := by
  have hhead := List.head?_dropWhile_not (· != '/') cs
  rw [show cs.dropWhile (· != '/') = c :: after from h] at hhead
  simpa using hhead

theorem formed_ofChars? {cs : List Char} {p : PathPattern} (h : ofChars? cs = some p) :
    Formed p.parts := by
  induction cs using ofChars?.induct generalizing p with
  | case1 =>
    rw [ofChars?] at h
    obtain rfl := Option.some.inj h
    trivial
  | case2 cs ih =>
    rw [ofChars?, if_pos rfl] at h
    obtain ⟨name, -, h⟩ := Option.bind_eq_some_iff.1 h
    obtain ⟨more, hmore, h⟩ := Option.bind_eq_some_iff.1 h
    obtain rfl := Option.some.inj h
    refine ⟨?_, ih hmore⟩
    cases hafter : afterName cs with
    | nil =>
      rw [hafter, ofChars?] at hmore
      obtain rfl := Option.some.inj hmore
      simp
    | cons c after =>
      obtain rfl := eq_slash_of_afterName hafter
      rw [hafter, ofChars?, if_neg (by decide), if_neg (by decide)] at hmore
      obtain ⟨more, -, hmore⟩ := Option.bind_eq_some_iff.1 hmore
      obtain rfl := Option.some.inj hmore
      simp
  | case3 cs hne =>
    rw [ofChars?, if_neg hne, if_pos rfl] at h
    obtain ⟨name, -, h⟩ := Option.bind_eq_some_iff.1 h
    split at h
    · obtain rfl := Option.some.inj h
      exact rfl
    · cases h
  | case4 c cs hparam hrest ih =>
    rw [ofChars?, if_neg hparam, if_neg hrest] at h
    obtain ⟨more, hmore, h⟩ := Option.bind_eq_some_iff.1 h
    obtain rfl := Option.some.inj h
    show Formed more.parts
    exact ih hmore

theorem formed_ofText? {s : String} {p : PathPattern} (h : ofText? s = some p) :
    Formed p.parts :=
  formed_ofChars? (Option.filter_eq_some_iff.1 h).1

end PathPattern

/-! ## One path more -/

namespace PathMap

variable {α : Type} {m m' : PathMap α} {path : String} {v : α}

/-- The tree, if there is one, is sound. -/
def Sound (m : PathMap α) : Prop := ∀ t ∈ m.tree?, t.Sound

/-- The parts of the patterns that were added. -/
def shapes (m : PathMap α) : List (List PathPart) := m.patterns.map (·.1.parts)

theorem shapes_some (t : PathTree (α × List String)) :
    (⟨some t⟩ : PathMap α).shapes = t.shapes := by
  simp [shapes, patterns, PathTree.shapes]

/-- A path is refused just if it is no pattern or the patterns that are there refuse it. -/
theorem insert?_eq_none_iff (hm : m.Sound) :
    m.insert? path v = none ↔
      ∀ p, PathPattern.ofText? path = some p → Refuses m.shapes p.parts := by
  unfold insert?
  cases hp : PathPattern.ofText? path with
  | none => simp
  | some p =>
    have hformed := PathPattern.formed_ofText? hp
    obtain ⟨t?⟩ := m
    cases t? with
    | none =>
      have hsingle := single_eq_none_iff (v := (v, p.names)) hformed (Nat.le_refl _)
      rw [Option.eq_none_iff_forall_ne_some] at hsingle
      simpa [shapes, patterns] using hsingle
    | some t =>
      have hinsert := insert_eq_none_iff (v := (v, p.names)) (hm t rfl) hformed
      rw [Option.eq_none_iff_forall_ne_some] at hinsert
      simpa [shapes_some] using hinsert

theorem sound_insert? (hm : m.Sound) (h : m.insert? path v = some m') : m'.Sound := by
  unfold insert? at h
  obtain ⟨p, hp, h⟩ := Option.bind_eq_some_iff.1 h
  have hformed := PathPattern.formed_ofText? hp
  obtain ⟨t?⟩ := m
  cases t? with
  | none =>
    obtain ⟨t, ht, hm'⟩ := Option.bind_eq_some_iff.1 h
    obtain rfl := Option.some.inj hm'
    simpa [Sound] using (sound_single hformed ht).1
  | some t =>
    obtain ⟨t', ht, hm'⟩ := Option.bind_eq_some_iff.1 h
    obtain rfl := Option.some.inj hm'
    simpa [Sound] using sound_insert (hm t rfl) hformed ht

end PathMap

/-! ## Endpoints -/

/-- The parts of those paths of a list that are patterns. -/
def shapesOf (paths : List String) : List (List PathPart) :=
  paths.filterMap fun path => (PathPattern.ofText? path).map (·.parts)

/-- A path cannot be registered after the paths `before`. -/
def Unfit (before : List String) (path : String) : Prop :=
  ∀ p, PathPattern.ofText? path = some p → Refuses (shapesOf before) p.parts

theorem mem_shapesOf {paths : List String} {parts : List PathPart} :
    parts ∈ shapesOf paths ↔
      ∃ path ∈ paths, ∃ p, PathPattern.ofText? path = some p ∧ p.parts = parts := by
  simp [shapesOf]

section
variable {m : Type → Type} {paths : PathMap (Endpoint m)}

/-- Registration stops in a list of endpoints just if one of the paths cannot be registered after
those before it. -/
theorem Router.register_eq_error_iff (hsound : paths.Sound) (before : List String)
    (hheld : ∀ parts, parts ∈ paths.shapes ↔ parts ∈ shapesOf before)
    (g : List (String × Endpoint m)) :
    (∃ path, register paths g = .error path) ↔
      ∃ smaller path larger, g.map (·.1) = smaller ++ path :: larger ∧
        Unfit (before ++ smaller) path := by
  induction g generalizing paths before with
  | nil => simp [register]
  | cons endpoint g ih =>
    obtain ⟨path, e⟩ := endpoint
    have hunfit : paths.insert? path e = none ↔ Unfit before path := by
      rw [PathMap.insert?_eq_none_iff hsound]
      exact forall₂_congr fun p _ => refuses_congr fun parts _ => hheld parts
    unfold register
    cases hinsert : paths.insert? path e with
    | none =>
      refine iff_of_true ⟨path, rfl⟩ ⟨[], path, g.map (·.1), rfl, ?_⟩
      rw [List.append_nil]
      exact hunfit.1 hinsert
    | some paths' =>
      have hfit : ¬ Unfit before path := fun h => absurd (hunfit.2 h) (by simp [hinsert])
      have hheld' : ∀ parts, parts ∈ paths'.shapes ↔ parts ∈ shapesOf (before ++ [path]) := by
        obtain ⟨p, hp, hperm⟩ := PathMap.patterns_insert? hinsert
        intro parts
        calc
          parts ∈ paths'.shapes
          _ ↔ parts ∈ p.parts :: paths.shapes := (hperm.map (·.1.parts)).mem_iff
          _ ↔ parts = p.parts ∨ parts ∈ shapesOf before := by rw [List.mem_cons, hheld]
          _ ↔ parts ∈ shapesOf (before ++ [path]) := by
            simp [shapesOf, hp, or_comm]
      refine (ih (PathMap.sound_insert? hsound hinsert) _ hheld').trans ⟨?_, ?_⟩
      · rintro ⟨smaller, path', larger, hg, h⟩
        exact ⟨path :: smaller, path', larger, congrArg (path :: ·) hg, by simpa using h⟩
      · rintro ⟨smaller, path', larger, hg, h⟩
        cases smaller with
        | nil =>
          obtain ⟨rfl, -⟩ := List.cons.inj hg
          exact absurd (by simpa using h) hfit
        | cons first smaller =>
          obtain ⟨rfl, hrest⟩ := List.cons.inj hg
          exact ⟨smaller, path', larger, hrest, by simpa using h⟩

end

/-! ## Tables -/

/-- Paths of which no router can be made. -/
inductive Unregistrable (paths : List String) : Prop
  /-- A path is no pattern: a wildcard has no name or one with a sigil in it, something follows a
  wildcard for everything, or there are too many wildcards. -/
  | malformed {path : String} (hpath : path ∈ paths) (h : PathPattern.ofText? path = none)
  /-- Two paths clash, such as two that differ only in the name of a wildcard. -/
  | clash {path path' : String} (hpath : path ∈ paths) (hpath' : path' ∈ paths) (hne : path ≠ path')
      {p p' : PathPattern} (hp : PathPattern.ofText? path = some p)
      (hp' : PathPattern.ofText? path' = some p') (h : PathTree.clash p.parts p'.parts = true)
  /-- A path has a wildcard for everything in the middle of a segment, and no smaller path begins
  with what comes before it. -/
  | midSegment {path : String} (hpath : path ∈ paths) {p : PathPattern}
      (hp : PathPattern.ofText? path = some p) {stem : List PathPart}
      (hmid : MidSegment stem p.parts)
      (h : ∀ path' ∈ paths, Text.compare path' path = .lt →
        ∀ p', PathPattern.ofText? path' = some p' → ¬ stem <+: p'.parts)

section
variable {paths smaller larger : List String} {path : String}

/-- In ascending order, the paths before a path are those that are smaller. -/
theorem mem_smaller_iff (hascending : paths.Pairwise fun a b => Text.compare a b = .lt)
    (hpaths : paths = smaller ++ path :: larger) {a : String} :
    a ∈ smaller ↔ a ∈ paths ∧ Text.compare a path = .lt := by
  subst hpaths
  obtain ⟨-, hlarger, hsmaller⟩ := List.pairwise_append.1 hascending
  constructor
  · exact fun ha => ⟨List.mem_append_left _ ha, hsmaller a ha path List.mem_cons_self⟩
  · rintro ⟨ha, hlt⟩
    rcases List.mem_append.1 ha with ha | ha
    · exact ha
    · rcases List.mem_cons.1 ha with rfl | ha
      · exact absurd hlt (by simp [Std.ReflCmp.compare_self])
      · have hgt := Std.OrientedCmp.gt_of_lt ((List.pairwise_cons.1 hlarger).1 a ha)
        rw [hlt] at hgt
        exact absurd hgt nofun

theorem unfit_of_clash {path' : String} {p p' : PathPattern} (hmem : path ∈ smaller)
    (hp : PathPattern.ofText? path = some p) (hp' : PathPattern.ofText? path' = some p')
    (h : PathTree.clash p.parts p'.parts = true) : Unfit smaller path' := by
  intro q hq
  obtain rfl := Option.some.inj (hp'.symm.trans hq)
  exact .inl ⟨p.parts, mem_shapesOf.2 ⟨path, hmem, p, hp, rfl⟩, h⟩

/-- The paths that stop registration, told without their order where that does not matter. -/
theorem exists_unfit_iff (hascending : paths.Pairwise fun a b => Text.compare a b = .lt) :
    (∃ smaller path larger, paths = smaller ++ path :: larger ∧ Unfit smaller path) ↔
      Unregistrable paths := by
  constructor
  · rintro ⟨smaller, path, larger, hpaths, hunfit⟩
    have hbefore (a : String) := mem_smaller_iff hascending hpaths (a := a)
    have hmem : path ∈ paths := by simp [hpaths]
    cases hp : PathPattern.ofText? path with
    | none => exact .malformed hmem hp
    | some p =>
      rcases hunfit p hp with ⟨parts, hheld, hclash⟩ | ⟨stem, hmid, hnone⟩
      · obtain ⟨path', hpath', p', hp', rfl⟩ := mem_shapesOf.1 hheld
        obtain ⟨hmem', hlt⟩ := (hbefore path').1 hpath'
        refine .clash hmem' hmem ?_ hp' hp hclash
        rintro rfl
        exact absurd hlt (by simp [Std.ReflCmp.compare_self])
      · refine .midSegment hmem hp hmid fun path' hpath' hlt p' hp' => ?_
        exact hnone _ (mem_shapesOf.2 ⟨path', (hbefore path').2 ⟨hpath', hlt⟩, p', hp', rfl⟩)
  · rintro (⟨hpath, hnone⟩ | @⟨path, path', hpath, hpath', hne, p, p', hp, hp', hclash⟩ |
      ⟨hpath, hp, hmid, hnone⟩)
    · obtain ⟨smaller, larger, hpaths⟩ := List.append_of_mem hpath
      exact ⟨smaller, _, larger, hpaths, by simp [Unfit, hnone]⟩
    · -- the one of the two that comes later is refused
      obtain ⟨smaller, larger, rfl⟩ := List.append_of_mem hpath
      rcases List.mem_append.1 hpath' with hbefore | hafter
      · rw [clash_comm] at hclash
        exact ⟨smaller, path, larger, rfl, unfit_of_clash hbefore hp' hp hclash⟩
      · obtain hafter := (List.mem_cons.1 hafter).resolve_left hne.symm
        obtain ⟨between, larger, rfl⟩ := List.append_of_mem hafter
        exact ⟨smaller ++ path :: between, path', larger, by simp,
          unfit_of_clash (by simp) hp hp' hclash⟩
    · obtain ⟨smaller, larger, hpaths⟩ := List.append_of_mem hpath
      refine ⟨smaller, _, larger, hpaths, fun q hq => ?_⟩
      obtain rfl := Option.some.inj (hp.symm.trans hq)
      refine .inr ⟨_, hmid, fun parts hheld => ?_⟩
      obtain ⟨path', hpath', p', hp', rfl⟩ := mem_shapesOf.1 hheld
      obtain ⟨hmem', hlt⟩ := (mem_smaller_iff hascending hpaths).1 hpath'
      exact hnone path' hmem' hlt p' hp'

end

def tablePaths (keys : List String) : List String := keys.filterMap fun key => (Text.fields key)[1]?

section
variable {m : Type → Type} {table : List (String × Handler m)} {es : List (Entry m)}

theorem Unregistrable.mono {paths paths' : List String} (h : Unregistrable paths)
    (hsame : ∀ path, path ∈ paths ↔ path ∈ paths') : Unregistrable paths' := by
  obtain ⟨hpath, hnone⟩ | ⟨hpath, hpath', hne, hp, hp', hclash⟩ | ⟨hpath, hp, hmid, hnone⟩ := h
  · exact .malformed ((hsame _).1 hpath) hnone
  · exact .clash ((hsame _).1 hpath) ((hsame _).1 hpath') hne hp hp' hclash
  · exact .midSegment ((hsame _).1 hpath) hp hmid fun path' h => hnone path' ((hsame _).2 h)

theorem mem_paths_group {e : Entry m} {g : List (String × Endpoint m)} {path : String} :
    path ∈ (Endpoint.group e g).map (·.1) ↔ path = e.path ∨ path ∈ g.map (·.1) := by
  fun_induction Endpoint.group e g with
  | case1 => simp
  | case2 => simp
  | case3 path' hs rest heq =>
    obtain rfl := Std.LawfulEqCmp.eq_of_compare heq
    simp
  | case4 path' hs rest _ ih =>
    rw [List.map_cons, List.mem_cons, ih, List.map_cons, List.mem_cons]
    exact or_left_comm

theorem mem_paths_ofEntries {path : String} :
    path ∈ (Endpoint.ofEntries es).map (·.1) ↔ path ∈ es.map (·.path) := by
  have hfold (g : List (String × Endpoint m)) :
      path ∈ (es.foldl (fun g e => Endpoint.group e g) g).map (·.1) ↔
        path ∈ es.map (·.path) ∨ path ∈ g.map (·.1) := by
    induction es generalizing g with
    | nil => simp
    | cons e es ih =>
      rw [List.foldl_cons, ih, mem_paths_group, List.map_cons, List.mem_cons]
      exact or_left_comm.trans or_assoc.symm
  exact (hfold []).trans (or_iff_left List.not_mem_nil)

theorem tablePaths_of_validate (h : validate table = .ok es) :
    tablePaths (table.map (·.1)) = es.map (·.path) := by
  have hfields : es.map Entry.fields = (table.map (·.1)).map Text.fields := by
    simpa [Function.comp_def] using congrArg (List.map Prod.fst) (faultless_of_validate h).2
  calc
    tablePaths (table.map (·.1))
    _ = ((table.map (·.1)).map Text.fields).filterMap (·[1]?) := by
      rw [List.filterMap_map]
      rfl
    _ = (es.map Entry.fields).filterMap (·[1]?) := by rw [hfields]
    _ = es.map (·.path) := by
      rw [List.filterMap_map]
      show es.filterMap (some ∘ Entry.path) = _
      rw [List.filterMap_eq_map]

/-- The router of a table that passes validation fails just if its paths cannot be registered. -/
theorem register_ofEntries_eq_error_iff (h : validate table = .ok es) :
    (∃ path, Router.register {} (Endpoint.ofEntries es) = .error path) ↔
      Unregistrable (tablePaths (table.map (·.1))) := by
  have hsame (path : String) :
      path ∈ (Endpoint.ofEntries es).map (·.1) ↔ path ∈ tablePaths (table.map (·.1)) := by
    rw [tablePaths_of_validate h, mem_paths_ofEntries]
  have hsound : PathMap.Sound ({} : PathMap (Endpoint m)) := nofun
  calc
    (∃ path, Router.register {} (Endpoint.ofEntries es) = .error path)
    _ ↔ ∃ smaller path larger, (Endpoint.ofEntries es).map (·.1) = smaller ++ path :: larger ∧
          Unfit smaller path :=
      Router.register_eq_error_iff hsound [] (fun _ => Iff.rfl) _
    _ ↔ Unregistrable ((Endpoint.ofEntries es).map (·.1)) :=
      exists_unfit_iff (List.pairwise_map.2 (Endpoint.ascending_ofEntries es))
    _ ↔ Unregistrable (tablePaths (table.map (·.1))) :=
      ⟨fun h => h.mono hsame, fun h => h.mono fun path => (hsame path).symm⟩

end

/-- A table makes a router, or the fault of a key is told, unless none of its keys has a fault and
its paths cannot be registered with each other: then, and only then, a path is refused. -/
theorem mux_refuses_iff {m : Type → Type} (table : List (String × Handler m)) :
    ((∃ r, mux table = .ok r) ∨ (∃ e, mux table = .error (.route e)) ↔
      ¬ (Faultless (table.map (·.1)) ∧ Unregistrable (tablePaths (table.map (·.1))))) ∧
    ((∃ path, mux table = .error (.refused path)) ↔
      Faultless (table.map (·.1)) ∧ Unregistrable (tablePaths (table.map (·.1)))) := by
  have hrefused : (∃ path, mux table = .error (.refused path)) ↔
      Faultless (table.map (·.1)) ∧ Unregistrable (tablePaths (table.map (·.1))) := by
    cases hvalid : validate table with
    | error e =>
      have hfault := (validate_eq_error_iff.1 hvalid).not_faultless
      simp [mux_eq_route_iff.2 hvalid, hfault]
    | ok es =>
      rw [and_iff_right (faultless_of_validate hvalid).1, ← register_ofEntries_eq_error_iff hvalid,
        mux_of_validate hvalid]
      cases Router.register {} (Endpoint.ofEntries es) <;> simp [Except.map, Except.mapError]
  refine ⟨?_, hrefused⟩
  rw [← hrefused]
  cases mux table with
  | ok r => simp
  | error e => cases e <;> simp

def idle : Handler Id := fun _ => .empty 204

/-- Tables without a fault of which no router can be made: a wildcard without a name, one for
everything that is not last, and two names for one segment. -/
theorem refused_tables :
    mux [("GET /a/:", idle)] = .error (.refused "/a/:") ∧
    mux [("GET /*a/b", idle)] = .error (.refused "/*a/b") ∧
    mux [("GET /:id", idle), ("PUT /:to", idle)] = .error (.refused "/:to") := by
  refine ⟨?_, ?_, ?_⟩
  · cbv
  · cbv
  · cbv

end RouteCheck.Http
