import Mathlib.Algebra.GroupWithZero.Nat
import RouteCheck.Proofs.Check.Missing
import RouteCheck.Proofs.Text.Order

/-!
Inventories beside checks.

A check passes over the packages without a route table; an inventory lists every package in which
it finds routes or calls. For the packages with a route table both extract the same routes and
calls, so that the counts of a report can be added up from the inventory. The diagnostics of a
report are settled, and of those that are the same only one is kept.

Main statements:
  1. `exists_same_mem_settle`: settling keeps one of each.
  2. `inventory_fst`: the entries of an inventory, in the order of the packages.
  3. `report_eq_inventory`: counts and diagnostics of a check, by the inventory.
-/

namespace RouteCheck

/-! ## Settled diagnostics -/

namespace Diagnostic

section
variable {ds : List Diagnostic} {d : Diagnostic}

theorem exists_same_mem_dropRepeats (h : d ∈ ds) : ∃ kept ∈ dropRepeats ds, kept.same d = true := by
  fun_induction dropRepeats ds generalizing d with
  | case1 => exact absurd h List.not_mem_nil
  | case2 a => exact ⟨d, h, same_refl d⟩
  | case3 a b rest hsame ih =>
    -- `b` is dropped for `a`, and what stays for `a` stays for `b`
    have hcase : d = b ∨ d ∈ a :: rest := by grind
    rcases hcase with rfl | h
    · obtain ⟨kept, hkept, hsame'⟩ := ih List.mem_cons_self
      exact ⟨kept, hkept, same_trans hsame' hsame⟩
    · exact ih h
  | case4 a b rest _ ih =>
    rcases List.mem_cons.1 h with rfl | h
    · exact ⟨d, List.mem_cons_self, same_refl d⟩
    · obtain ⟨kept, hkept, hsame⟩ := ih h
      exact ⟨kept, List.mem_cons_of_mem _ hkept, hsame⟩

/-- Of every diagnostic settling keeps one that is the same. -/
theorem exists_same_mem_settle (h : d ∈ ds) : ∃ kept ∈ settle ds, kept.same d = true :=
  exists_same_mem_dropRepeats ((List.mergeSort_perm ds _).mem_iff.2 h)

end

end Diagnostic

/-! ## Package by package -/

section
variable (index : Index) (config : Config)

/-- The inventory entry of a package, listed or not. -/
def Package.entry (q : Package) : PackageRoutes :=
  ⟨q, (extractRoutes index q.files config).2.table.routes, (extractCalls index q.files config).2⟩

def Package.listed (q : Package) : Bool :=
  !((q.entry index config).routes.isEmpty && (q.entry index config).calls.isEmpty)

variable {index config}

theorem inventoryPackage_eq (q : Package) : inventoryPackage index config q =
    ((extractRoutes index q.files config).1 ++ (extractCalls index q.files config).1,
      if q.listed index config then some (q.entry index config) else none) := by
  unfold inventoryPackage Package.listed
  simp only [Package.entry]
  split
  · next hempty => simp [hempty]
  · next hempty => simp [hempty]

end

section
variable {p : Program} {config : Config} {report : Report}

/-- An inventory has an entry for every package with routes or calls. -/
theorem inventory_fst : (inventory p config).1 =
    (p.packages.filter (Package.listed (.build p) config)).map (Package.entry (.build p) config) := by
  show (p.packages.map (inventoryPackage (.build p) config)).filterMap (·.2) = _
  induction p.packages with
  | nil => rfl
  | cons q qs ih =>
    rw [List.map_cons, List.filterMap_cons, inventoryPackage_eq, ih]
    cases hlisted : q.listed (.build p) config <;> simp [hlisted]

/-- What is counted in the packages with a route table can be counted in their entries, if there is
none of it in a package without one. -/
theorem sum_entries {count : PackageRoutes → Nat}
    (hcount : ∀ q : Package, q.listed (.build p) config = false →
      count (q.entry (.build p) config) = 0) :
    (((inventory p config).1.filter fun e => e.package.HasTable config).map count).sum =
      ((p.packages.filter fun q => q.HasTable config).map fun q =>
        count (q.entry (.build p) config)).sum := by
  rw [inventory_fst]
  induction p.packages with
  | nil => rfl
  | cons q qs ih =>
    have hpackage : (q.entry (.build p) config).package = q := rfl
    cases hlisted : q.listed (.build p) config with
    | false =>
      by_cases htable : q.HasTable config <;> simp [hlisted, htable, ih, hcount q hlisted]
    | true =>
      by_cases htable : q.HasTable config <;> simp [hlisted, htable, ih, hpackage]

/-- For the packages with a route table the counts of a report are those of the inventory, and what
an inventory finds while it extracts them is reported. -/
theorem report_eq_inventory (h : checkProgram p config = .ok report) :
    report.packages = (p.packages.filter fun q => q.HasTable config).length ∧
    report.routes = (((inventory p config).1.filter fun e => e.package.HasTable config).map
      (·.routes.length)).sum ∧
    report.calls = (((inventory p config).1.filter fun e => e.package.HasTable config).map
      (·.calls.length)).sum ∧
    ∀ q ∈ p.packages, q.HasTable config → ∀ d ∈ (inventoryPackage (.build p) config q).1,
      ∃ kept ∈ report.diagnostics, kept.same d = true := by
  have hdiagnostics := diagnostics_of_checkProgram h
  unfold checkProgram at h
  simp only at h
  cases hreports : p.packages.mapM (checkPackage (.build p) config) with
  | error e => simp [hreports, bind, Except.bind] at h
  | ok reports =>
    obtain rfl : .ofPackages (reports.filterMap id) = report := by
      simpa [hreports, bind, Except.bind, pure, Except.pure] using h
    have hempty {q : Package} (hlisted : q.listed (.build p) config = false) :
        (q.entry (.build p) config).routes = [] ∧ (q.entry (.build p) config).calls = [] := by
      simpa [Package.listed] using hlisted
    refine ⟨?_, ?_, ?_, ?_⟩
    · show (reports.filterMap id).length = _
      rw [filterMap_reports hreports, List.length_map]
    · rw [sum_entries fun q hq => by rw [(hempty hq).1]; rfl]
      show (reports.filterMap id).foldl _ 0 = _
      rw [filterMap_reports hreports, List.foldl_map, List.sum_eq_foldl, List.foldl_map]
      rfl
    · rw [sum_entries fun q hq => by rw [(hempty hq).2]; rfl]
      show (reports.filterMap id).foldl _ 0 = _
      rw [filterMap_reports hreports, List.foldl_map, List.sum_eq_foldl, List.foldl_map]
      rfl
    · intro q hq htable d hd
      obtain ⟨found, hfound, hmem⟩ := hdiagnostics
      rw [hfound]
      apply Diagnostic.exists_same_mem_settle
      rw [inventoryPackage_eq] at hd
      have hnotes : d ∈ q.notes (.build p) config :=
        List.mem_append_left _ (List.mem_append_left _ hd)
      exact (hmem d).2 ⟨q, hq, htable, hnotes⟩

end

/-- The one package of the program has a route table with two routes, and one call. -/
theorem report_eq_inventory_refusedTwin : ∃ report, checkProgram refusedTwin {} = .ok report ∧
    report.packages = 1 ∧ report.routes = 2 ∧ report.calls = 1 ∧
      ∀ q ∈ refusedTwin.packages, q.HasTable {} →
        ∀ d ∈ (inventoryPackage (.build refusedTwin) {} q).1,
          ∃ kept ∈ report.diagnostics, kept.same d = true := by
  obtain ⟨report, hok⟩ := checkProgram_refusedTwin
  obtain ⟨q, hq, htable, _, _, hroutes, hcalls⟩ := refusedTwin_package
  obtain ⟨hpackages, hroutesum, hcallsum, hfound⟩ := report_eq_inventory hok
  have hroutes := congrArg List.length hroutes
  have hcalls := congrArg List.length hcalls
  rw [List.length_map] at hroutes hcalls
  have hlisted : q.listed (.build refusedTwin) {} = true := by
    have hne : (q.entry (.build refusedTwin) {}).routes ≠ [] := by
      intro hnil
      exact absurd ((congrArg List.length hnil).symm.trans hroutes) (by decide)
    simp [Package.listed, hne]
  have hentries : (inventory refusedTwin {}).1 = [q.entry (.build refusedTwin) {}] := by
    rw [inventory_fst, hq]
    simp [hlisted]
  have hkept : [q.entry (.build refusedTwin) {}].filter (fun e => e.package.HasTable {}) =
      [q.entry (.build refusedTwin) {}] :=
    List.filter_eq_self.2 fun e he => by
      obtain rfl := List.mem_singleton.1 he
      exact decide_eq_true htable
  refine ⟨report, hok, ?_, ?_, ?_, hfound⟩
  · simpa [hq, htable] using hpackages
  · rw [hroutesum, hentries, hkept]
    exact hroutes
  · rw [hcallsum, hentries, hkept]
    exact hcalls

end RouteCheck
