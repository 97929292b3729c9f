import RouteCheck.Proofs.Check.Routes
import RouteCheck.Proofs.Program.Sample

/-!
What a clean report means.

A package is clean when extracting its routes and calls and checking its handlers reports nothing,
matching calls with routes by key is a bijection, and every call agrees with its route.

Main statements:
  1. `settle_eq_nil_iff`: sorting diagnostics and dropping repeats hides none of them.
  2. `checkPackage_eq_ok`, `filterMap_reports`: what is reported on a package, and on all of them.
  3. `checkPackage_clean_iff`: one package with a route table.
  4. `isClean_iff`: a whole program; its report is clean just if every package with a route table
     is.
-/

namespace RouteCheck

namespace Diagnostic

theorem dropRepeats_eq_nil_iff {ds : List Diagnostic} : dropRepeats ds = [] ↔ ds = [] := by
  fun_induction dropRepeats ds with
  | case1 => simp
  | case2 => simp
  | case3 a b rest _ ih => simpa using ih
  | case4 => simp

theorem settle_eq_nil_iff {ds : List Diagnostic} : settle ds = [] ↔ ds = [] := by
  unfold settle
  rw [dropRepeats_eq_nil_iff]
  constructor
  · intro h
    exact (h ▸ List.mergeSort_perm ds _).symm.eq_nil
  · rintro rfl
    exact List.mergeSort_nil

end Diagnostic

/-- Nothing is wrong with the routes and calls of the package. -/
structure Package.Clean (index : Index) (config : Config) (q : Package) : Prop where
  routes : (extractRoutes index q.files config).1 = []
  calls : (extractCalls index q.files config).1 = []
  handlers : ∀ h ∈ (extractRoutes index q.files config).2.handlers,
    checkHandler index config.library h = []
  matched : KeyBijection (extractRoutes index q.files config).2.table
    (extractCalls index q.files config).2
  agrees : ∀ c ∈ (extractCalls index q.files config).2, ∀ r,
    (extractRoutes index q.files config).2.table.get? c.key = some r → Agrees index r c

def Package.HasTable (config : Config) (q : Package) : Prop :=
  ∃ f ∈ q.files, routeTables f config.library ≠ []

instance (config : Config) (q : Package) : Decidable (q.HasTable config) :=
  inferInstanceAs (Decidable (∃ f ∈ q.files, routeTables f config.library ≠ []))

/-- What is found in a package with a route table. -/
def Package.notes (index : Index) (config : Config) (q : Package) : List Diagnostic :=
  (extractRoutes index q.files config).1 ++ (extractCalls index q.files config).1 ++
    (distinctHandlers (extractRoutes index q.files config).2.handlers).flatMap
      (checkHandler index config.library) ++
    (checkParity index (extractRoutes index q.files config).2.table
      (extractCalls index q.files config).2).1

/-- The report on a package with a route table. -/
def Package.report (index : Index) (config : Config) (q : Package) : PackageReport :=
  ⟨(extractRoutes index q.files config).2.table.routes.length,
    (extractCalls index q.files config).2.length, q.notes index config⟩

theorem length_routes_checkCall (index : Index) (table : RouteTable) (call : ClientCall) :
    (checkCall index table call).2.routes.length = table.routes.length := by
  unfold checkCall
  split
  · rfl
  · split
    · rfl
    · split
      · rfl
      · exact List.length_map _

theorem length_routes_checkParity (index : Index) (table : RouteTable) (calls : List ClientCall) :
    (checkParity index table calls).2.routes.length = table.routes.length := by
  show (checkCalls index table calls).2.routes.length = _
  induction calls generalizing table with
  | nil => rfl
  | cons c cs ih => exact (ih _).trans (length_routes_checkCall index table c)

section
variable {p : Program} {index : Index} {config : Config} {q : Package}

theorem tables_ne_zero_iff (index : Index) :
    (extractRoutes index q.files config).2.tables ≠ 0 ↔ q.HasTable config := by
  rw [ne_eq, tables_extractRoutes_eq_zero_iff]
  simp [Package.HasTable]

/-- A package that is checked has a report if it has a route table. -/
theorem checkPackage_eq_ok {report? : Option PackageReport}
    (h : checkPackage index config q = .ok report?) :
    report? = if q.HasTable config then some (q.report index config) else none := by
  unfold checkPackage at h
  simp only at h
  split at h
  · next hzero =>
    have hno : ¬ q.HasTable config := fun htable => (tables_ne_zero_iff index).2 htable hzero
    rw [if_neg hno]
    exact (Except.ok.inj h).symm
  · next hzero =>
    have htable : q.HasTable config := (tables_ne_zero_iff index).1 hzero
    split at h
    · exact absurd h nofun
    · rw [if_pos htable, ← Except.ok.inj h, length_routes_checkParity]
      rfl

/-- The package reports of a check that nothing stops. -/
theorem filterMap_reports {qs : List Package} {reports : List (Option PackageReport)}
    (h : qs.mapM (checkPackage index config) = .ok reports) :
    reports.filterMap id =
      (qs.filter fun q => q.HasTable config).map (Package.report index config) := by
  induction qs generalizing reports with
  | nil =>
    obtain rfl : [] = reports := by simpa [pure, Except.pure] using h
    rfl
  | cons q qs ih =>
    rw [List.mapM_cons] at h
    cases hq : checkPackage index config q with
    | error e => simp [hq, bind, Except.bind] at h
    | ok report? =>
      cases hqs : qs.mapM (checkPackage index config) with
      | error e => simp [hq, hqs, bind, Except.bind] at h
      | ok rest =>
        obtain rfl : report? :: rest = reports := by
          simpa [hq, hqs, bind, Except.bind, pure, Except.pure] using h
        rw [List.filterMap_cons, ih hqs, checkPackage_eq_ok hq, List.filter_cons]
        by_cases htable : q.HasTable config <;> simp [htable]

theorem notes_eq_nil_iff (hp : p.Numbered) (hq : q ∈ p.packages) :
    q.notes (.build p) config = [] ↔ q.Clean (.build p) config := by
  have hsound := sound_extractRoutes (Index.located_build p)
    (fun f hf => Program.mem_files_of_mem_packages hq hf) config
  have hhandlers : (distinctHandlers (extractRoutes (.build p) q.files config).2.handlers).flatMap
      (checkHandler (.build p) config.library) = [] ↔
      ∀ h ∈ (extractRoutes (.build p) q.files config).2.handlers,
        checkHandler (.build p) config.library h = [] := by
    simp only [List.flatMap_eq_nil_iff, mem_distinctHandlers_iff hp hsound.handlers]
  simp only [Package.notes, List.append_eq_nil_iff, hhandlers]
  constructor
  -- with nothing reported no key is refused, so that parity alone decides about the calls
  · rintro ⟨⟨⟨hroutes, hcalls⟩, hhandlers⟩, hparity⟩
    obtain ⟨hmatched, hagrees⟩ :=
      (checkParity_eq_nil_iff (hsound.told hroutes) hsound.keyed hsound.unseen).1 hparity
    exact ⟨hroutes, hcalls, hhandlers, hmatched, hagrees⟩
  · intro h
    refine ⟨⟨⟨h.routes, h.calls⟩, h.handlers⟩, ?_⟩
    exact (checkParity_eq_nil_iff (hsound.told h.routes) hsound.keyed hsound.unseen).2
      ⟨h.matched, h.agrees⟩

/-- The report on a package is empty just if it has no route table or is clean. -/
theorem checkPackage_clean_iff (hp : p.Numbered) (hq : q ∈ p.packages)
    {report? : Option PackageReport} (h : checkPackage (.build p) config q = .ok report?) :
    (∀ r, report? = some r → r.diagnostics = []) ↔
      (q.HasTable config → q.Clean (.build p) config) := by
  rw [← notes_eq_nil_iff hp hq, checkPackage_eq_ok h]
  by_cases htable : q.HasTable config <;> simp [htable, Package.report]

/-- The report on a program is clean just if every package with a route table is. -/
theorem isClean_iff (hp : p.Numbered) {report : Report}
    (h : checkProgram p config = .ok report) :
    report.isClean = true ↔
      ∀ q ∈ p.packages, q.HasTable config → q.Clean (.build p) config := by
  unfold checkProgram at h
  simp only at h
  cases hreports : p.packages.mapM (checkPackage (.build p) config) with
  | error e => simp [hreports, bind, Except.bind] at h
  | ok reports =>
    obtain rfl : .ofPackages (reports.filterMap id) = report := by
      simpa [hreports, bind, Except.bind, pure, Except.pure] using h
    obtain ⟨hfrom, hto⟩ := ok_of_mapM_eq_ok hreports
    have hclean : (Report.ofPackages (reports.filterMap id)).isClean = true ↔
        ∀ report? ∈ reports, ∀ r, report? = some r → r.diagnostics = [] := by
      simp only [Report.isClean, Report.ofPackages, List.isEmpty_iff, Diagnostic.settle_eq_nil_iff,
        List.flatMap_eq_nil_iff, List.mem_filterMap, id_eq]
      exact ⟨fun h report? hmem r hr => h r ⟨report?, hmem, hr⟩,
        fun h r ⟨report?, hmem, hr⟩ => h report? hmem r hr⟩
    rw [hclean]
    constructor
    · intro h q hq
      obtain ⟨report?, hmem, hok⟩ := hfrom q hq
      exact (checkPackage_clean_iff hp hq hok).1 (h report? hmem)
    · intro h report? hmem
      obtain ⟨q, hq, hok⟩ := hto report? hmem
      exact (checkPackage_clean_iff hp hq hok).2 (h q hq)

end

/-- A package with one route, which decodes a path parameter, and one call of it. -/
def samplePackage : List (Path × String) :=
  [(⟨"api/api.go"⟩, "\n".intercalate ["package api",
    "import (\"fmt\"; \"go.sia.tech/jape\")",
    "var routes = map[string]jape.Handler\x7b\"GET /items/:id\": func(jc jape.Context) \x7b",
    "var id int; if jc.DecodeParam(\"id\", &id) != nil \x7b return \x7d; jc.Encode(id) \x7d\x7d",
    "func item(c *jape.Client, id int) \x7b",
    "var n int; c.GET(fmt.Sprintf(\"/items/%v\", id), &n) \x7d"])]

/-- The sample package is checked, with its route and its call, and clean. -/
theorem isClean_iff_sample :
    ∃ p report, Program.ofSources samplePackage = .ok p ∧ checkProgram p {} = .ok report ∧
      report.packages = 1 ∧ report.routes = 1 ∧ report.calls = 1 ∧ report.isClean = true ∧
      ∀ q ∈ p.packages, q.HasTable {} → q.Clean (.build p) {} := by
  have hrun : ((Program.ofSources samplePackage).bind (checkProgram · {})).toOption.map
      (fun r => (r.packages, r.routes, r.calls, r.isClean)) = some (1, 1, 1, true) := by
    have hp : Program.ofSources samplePackage = _ := Program.ofSources_sample _
    simp only [hp, SourceFile.sample_eq, SourceFile.chars, String.reduceToList]
    decide +kernel
  cases hp : Program.ofSources samplePackage with
  | error e =>
    rw [hp] at hrun
    simp [Except.bind, Except.toOption] at hrun
  | ok p =>
    rw [hp] at hrun
    cases hreport : checkProgram p {} with
    | error e =>
      simp [Except.bind, Except.toOption, hreport] at hrun
    | ok report =>
      simp only [Except.bind, hreport, Except.toOption, Option.map_some, Option.some.injEq,
        Prod.mk.injEq] at hrun
      obtain ⟨hpackages, hroutes, hcalls, hclean⟩ := hrun
      exact ⟨p, report, rfl, hreport, hpackages, hroutes, hcalls, hclean,
        (isClean_iff (Program.numbered_ofSources hp) hreport).1 hclean⟩

end RouteCheck
