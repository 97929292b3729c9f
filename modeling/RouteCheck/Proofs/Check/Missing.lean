import RouteCheck.Proofs.Check.Clean
import RouteCheck.Proofs.Check.Messages
import RouteCheck.Proofs.Check.Treatment
import RouteCheck.Proofs.Program.Sample
import RouteCheck.Proofs.Text.Order

/-!
Routes that are reported to have no client method.

Of the checks of a package only parity speaks of missing methods, and it does so for the routes that
no call seeks. Such a route has no call, unless another entry of its key was refused: calls to a
refused key are passed over before the table is asked, also when it has a route of that key.

Main statements:
  1. `diagnostics_of_checkProgram`: what is reported is what was found in the packages with a route
     table, settled; `mem_of_mem_settle` and `message_mem_settle` say what that does to it, and
     `mem_notes_iff` what is found in a package.
  2. `checkProgram_eq_ok`: the check succeeds if every package with a route table has a client.
  3. `missing_mem_notes_iff`, `message_missing_mem_report`: the routes that are reported as missing
     are those that no call seeks.
  4. `unmatched_of_missing`: no call has the key of a route that is reported as missing, if that key
     was not refused as well; `missing_despite_call` is a program where it was.
-/

namespace RouteCheck

/-! ## Where diagnostics come from -/

theorem Diagnostic.message_eq_of_same {a b : Diagnostic} (h : a.same b = true) :
    a.message = b.message := by
  have h : a.compare b = .eq := by simpa [same] using h
  exact Std.LawfulEqCmp.eq_of_compare (Ordering.then_eq_eq.1 h).2

theorem Diagnostic.mem_of_mem_dropRepeats {ds : List Diagnostic} {d : Diagnostic}
    (h : d ∈ dropRepeats ds) : d ∈ ds := by
  fun_induction dropRepeats ds with
  | case1 => exact h
  | case2 => exact h
  | case3 a b rest _ ih =>
    rcases List.mem_cons.1 (ih h) with rfl | h
    · exact List.mem_cons_self
    · exact List.mem_cons_of_mem _ (List.mem_cons_of_mem _ h)
  | case4 a b rest _ ih =>
    rcases List.mem_cons.1 h with rfl | h
    · exact List.mem_cons_self
    · exact List.mem_cons_of_mem _ (ih h)

theorem Diagnostic.message_mem_dropRepeats {ds : List Diagnostic} {d : Diagnostic} (h : d ∈ ds) :
    d.message ∈ (dropRepeats ds).map (·.message) := by
  fun_induction dropRepeats ds generalizing d with
  | case1 => simp at h
  | case2 => exact List.mem_map_of_mem h
  | case3 a b rest hsame ih =>
    rcases List.mem_cons.1 h with rfl | h
    · exact ih List.mem_cons_self
    · rcases List.mem_cons.1 h with rfl | h
      · rw [← message_eq_of_same hsame]
        exact ih List.mem_cons_self
      · exact ih (List.mem_cons_of_mem _ h)
  | case4 a b rest _ ih =>
    rw [List.map_cons]
    rcases List.mem_cons.1 h with rfl | h
    · exact List.mem_cons_self
    · exact List.mem_cons_of_mem _ (ih h)

theorem Diagnostic.mem_of_mem_settle {ds : List Diagnostic} {d : Diagnostic} (h : d ∈ settle ds) :
    d ∈ ds :=
  (List.mergeSort_perm ds _).mem_iff.1 (mem_of_mem_dropRepeats h)

theorem Diagnostic.message_mem_settle {ds : List Diagnostic} {d : Diagnostic} (h : d ∈ ds) :
    d.message ∈ (settle ds).map (·.message) :=
  message_mem_dropRepeats ((List.mergeSort_perm ds _).mem_iff.2 h)

/-- What is found while calls are checked, and of routes that no call seeks. -/
theorem mem_checkParity_iff {index : Index} {table : RouteTable}
    (hunseen : ∀ r ∈ table.routes, r.seen = false) {calls : List ClientCall} {d : Diagnostic} :
    d ∈ (checkParity index table calls).1 ↔
      (∃ i call, calls[i]? = some call ∧
        d ∈ (table.treatment (calls.take i) call).notes index call) ∨
      ∃ r ∈ table.routes, table.sought calls r.key = false ∧ d = r.missing := by
  have hmissing : d ∈ missingRoutes (table.marking (table.sought calls)) ↔
      ∃ r ∈ table.routes, table.sought calls r.key = false ∧ d = r.missing := by
    simp only [missingRoutes, RouteTable.marking, List.mem_map, List.mem_filter]
    constructor
    · rintro ⟨_, ⟨⟨r, hr, rfl⟩, hsought⟩, rfl⟩
      exact ⟨r, hr, by simpa using hsought, rfl⟩
    · rintro ⟨r, hr, hsought, rfl⟩
      exact ⟨_, ⟨⟨r, hr, rfl⟩, by simpa using hsought⟩, rfl⟩
  rw [checkParity_eq _ hunseen, List.mem_append, hmissing]
  simp only [List.mem_flatMap, Prod.exists, List.mem_zipIdx_iff_getElem?]
  rw [exists_comm]

/-- What is found in a package is found in its entries, in the arguments of its calls, in its
handlers, in the treatment of its calls, or in a route that no call seeks. -/
theorem mem_notes_iff {p : Program} {config : Config} {q : Package} (hq : q ∈ p.packages)
    {d : Diagnostic} : d ∈ q.notes (.build p) config ↔
      d ∈ (extractRoutes (.build p) q.files config).1 ∨
      d ∈ (extractCalls (.build p) q.files config).1 ∨
      (∃ h ∈ distinctHandlers (extractRoutes (.build p) q.files config).2.handlers,
        d ∈ checkHandler (.build p) config.library h) ∨
      (∃ i call, (extractCalls (.build p) q.files config).2[i]? = some call ∧
        d ∈ ((extractRoutes (.build p) q.files config).2.table.treatment
          ((extractCalls (.build p) q.files config).2.take i) call).notes (.build p) call) ∨
      ∃ r ∈ (extractRoutes (.build p) q.files config).2.table.routes,
        (extractRoutes (.build p) q.files config).2.table.sought
          (extractCalls (.build p) q.files config).2 r.key = false ∧ d = r.missing := by
  have hunseen := (sound_extractRoutes (Index.located_build p)
    (fun f hf => Program.mem_files_of_mem_packages hq hf) config).unseen
  rw [Package.notes, List.mem_append, List.mem_append, List.mem_append, List.mem_flatMap,
    mem_checkParity_iff hunseen, or_assoc, or_assoc]

section
variable {p : Program} {config : Config} {report : Report} {d : Diagnostic}

/-- The diagnostics of a report are those of the packages with a route table, settled. -/
theorem diagnostics_of_checkProgram (h : checkProgram p config = .ok report) :
    ∃ found : List Diagnostic, report.diagnostics = Diagnostic.settle found ∧
      ∀ d, d ∈ found ↔ ∃ q ∈ p.packages, q.HasTable config ∧ d ∈ q.notes (.build p) config := by
  unfold checkProgram at h
  simp only at h
  cases hreports : p.packages.mapM (checkPackage (.build p) config) with
  | error e => simp [hreports, bind, Except.bind] at h
  | ok reports =>
    obtain rfl : .ofPackages (reports.filterMap id) = report := by
      simpa [hreports, bind, Except.bind, pure, Except.pure] using h
    refine ⟨_, rfl, fun d => ?_⟩
    simp only [filterMap_reports hreports, List.mem_flatMap, List.mem_map, List.mem_filter,
      decide_eq_true_eq]
    constructor
    · rintro ⟨_, ⟨q, ⟨hq, htable⟩, rfl⟩, hd⟩
      exact ⟨q, hq, htable, hd⟩
    · rintro ⟨q, hq, htable, hd⟩
      exact ⟨_, ⟨q, ⟨hq, htable⟩, rfl⟩, hd⟩

/-- If every package with a route table makes a client call, then the check succeeds. -/
theorem checkProgram_eq_ok (h : ∀ q ∈ p.packages, q.HasTable config →
    definesClient (.build p) q.files config.library = true) :
    ∃ report, checkProgram p config = .ok report := by
  have hpackage (q : Package) (hq : q ∈ p.packages) :
      ∃ report?, checkPackage (.build p) config q = .ok report? := by
    unfold checkPackage
    simp only
    split
    · exact ⟨_, rfl⟩
    · next hzero =>
      rw [h q hq ((tables_ne_zero_iff _).1 hzero)]
      exact ⟨_, rfl⟩
  have hall (qs : List Package) (hqs : ∀ q ∈ qs, q ∈ p.packages) :
      ∃ reports, qs.mapM (checkPackage (.build p) config) = .ok reports := by
    induction qs with
    | nil => exact ⟨[], rfl⟩
    | cons q qs ih =>
      obtain ⟨report?, hq⟩ := hpackage q (hqs q List.mem_cons_self)
      obtain ⟨reports, hqs⟩ := ih fun q hq => hqs q (List.mem_cons_of_mem _ hq)
      exact ⟨report? :: reports, by rw [List.mapM_cons, hq, hqs]; rfl⟩
  obtain ⟨reports, hreports⟩ := hall p.packages fun _ hq => hq
  exact ⟨.ofPackages (reports.filterMap id), by
    simp [checkProgram, hreports, bind, Except.bind, pure, Except.pure]⟩

end

/-! ## Missing methods -/

theorem Treatment.led_notes (index : Index) (call : ClientCall) (treatment : Treatment) :
    Led matchLeads (treatment.notes index call) := by
  cases treatment with
  | passedOver => exact led_nil
  | undefined => exact led_singleton (.append (by decide) _)
  | repeated route => exact led_singleton (.append (.append (by decide) _) _)
  | compared route => exact led_compareCall index

/-- The diagnostic says that a route has no client method. -/
def Diagnostic.IsMissing (d : Diagnostic) : Prop :=
  Text.startsWith "Client missing method for " d.message = true

theorem not_missing_of_led {leads : List String} {notes : List Diagnostic} {d : Diagnostic}
    (hclash : ∀ a ∈ leads, ∀ b ∈ ["Client missing method for "],
      Text.clash a.toList b.toList = true) (h : Led leads notes) (hd : d ∈ notes) :
    ¬ d.IsMissing := fun hmissing =>
  Text.begins_disjoint hclash (h d hd) ⟨_, List.mem_singleton_self _, hmissing⟩

section
variable {p : Program} {config : Config} {report : Report} {d : Diagnostic}

theorem isMissing_missing (r : ServerRoute) : r.missing.IsMissing := by
  unfold Diagnostic.IsMissing ServerRoute.missing
  obtain ⟨lead, hlead, h⟩ := (show Text.Begins ["Client missing method for "]
    "Client missing method for " by decide).append r.label
  exact List.mem_singleton.1 hlead ▸ h

/-- Only parity speaks of missing methods, and it does so of the routes that no call seeks. -/
theorem missing_mem_notes_iff {q : Package} (hq : q ∈ p.packages) :
    (d ∈ q.notes (.build p) config ∧ d.IsMissing) ↔
      ∃ r ∈ (extractRoutes (.build p) q.files config).2.table.routes, d = r.missing ∧
        (extractRoutes (.build p) q.files config).2.table.sought
          (extractCalls (.build p) q.files config).2 r.key = false := by
  rw [mem_notes_iff hq]
  constructor
  · rintro ⟨hd | hd | ⟨h, -, hd⟩ | ⟨i, call, -, hd⟩ | ⟨r, hr, hsought, rfl⟩, hmissing⟩
    · exact absurd hmissing (not_missing_of_led (by decide) (led_extractRoutes _ _ _) hd)
    · exact absurd hmissing (not_missing_of_led (by decide) (led_extractCalls _ _ _) hd)
    · exact absurd hmissing (not_missing_of_led (by decide) (led_checkHandler _ _ h) hd)
    · exact absurd hmissing (not_missing_of_led (by decide) (Treatment.led_notes _ _ _) hd)
    · exact ⟨r, hr, rfl, hsought⟩
  · rintro ⟨r, hr, rfl, hsought⟩
    exact ⟨.inr (.inr (.inr (.inr ⟨r, hr, hsought, rfl⟩))), isMissing_missing r⟩

/-- Every route that no call seeks is reported. -/
theorem message_missing_mem_report (h : checkProgram p config = .ok report) {q : Package}
    (hq : q ∈ p.packages) (htable : q.HasTable config) {r : ServerRoute}
    (hr : r ∈ (extractRoutes (.build p) q.files config).2.table.routes)
    (hsought : (extractRoutes (.build p) q.files config).2.table.sought
      (extractCalls (.build p) q.files config).2 r.key = false) :
    r.missing.message ∈ report.diagnostics.map (·.message) := by
  obtain ⟨found, hfound, hmem⟩ := diagnostics_of_checkProgram h
  have hnotes := ((missing_mem_notes_iff hq).2 ⟨r, hr, rfl, hsought⟩).1
  rw [hfound]
  exact Diagnostic.message_mem_settle ((hmem r.missing).2 ⟨q, hq, htable, hnotes⟩)

/-- If a route is reported as missing, then no call of its package has its key, unless that key was
refused as well. -/
theorem unmatched_of_missing (h : checkProgram p config = .ok report) (hd : d ∈ report.diagnostics)
    (hmissing : d.IsMissing) :
    ∃ q ∈ p.packages, q.HasTable config ∧
      ∃ r ∈ (extractRoutes (.build p) q.files config).2.table.routes, d = r.missing ∧
        ((extractRoutes (.build p) q.files config).2.table.isRejected r.key = false →
          ∀ c ∈ (extractCalls (.build p) q.files config).2, c.key ≠ r.key) := by
  obtain ⟨found, hfound, hmem⟩ := diagnostics_of_checkProgram h
  obtain ⟨q, hq, htable, hd⟩ := (hmem d).1 (Diagnostic.mem_of_mem_settle (hfound ▸ hd))
  obtain ⟨r, hr, hdr, hsought⟩ := (missing_mem_notes_iff hq).1 ⟨hd, hmissing⟩
  refine ⟨q, hq, htable, r, hr, hdr, fun hkept c hc hkey => ?_⟩
  have : (extractRoutes (.build p) q.files config).2.table.sought
      (extractCalls (.build p) q.files config).2 r.key = true :=
    RouteTable.sought_iff.2 ⟨c, hc, hkey ▸ hkept, hkey⟩
  exact absurd this (by simp [hsought])

end

/-! ## A key that is both kept and refused -/

/-- A package in which two entries have one key, the first with a handler of the right shape and
the second with one that writes a response, and in which a route of another key has no call. -/
def refusedTwin : Program :=
  ⟨[SourceFile.sample ["var routes = map[string]jape.Handler\x7b",
    "\"DELETE /items/:id\": func(jc jape.Context) \x7b\x7d,",
    "\"DELETE /items/:name\": func(jc jape.Context) \x7b",
    "jc.Encode(1) \x7d,", "\"DELETE /old\": func(jc jape.Context) \x7b\x7d\x7d",
    "func drop(c *jape.Client, id string) \x7b", "c.DELETE(\"/items/\" + id) \x7d"]]⟩

/-- Number of route tables and presence of a client, refused keys, labels and keys of the routes,
and keys of the calls. -/
def Package.summary (index : Index) (q : Package) :
    (Nat × Bool) × List String × List (String × String) × List String :=
  let server := (extractRoutes index q.files {}).2
  ((server.tables, definesClient index q.files "jape"), server.table.rejected,
    server.table.routes.map (fun r => (r.label, r.key)),
    (extractCalls index q.files {}).2.map (·.key))

theorem summary_refusedTwin : refusedTwin.packages.map (·.summary (.build refusedTwin)) =
    [((1, true), ["DELETE /items/%s"],
      [("DELETE /items/:id", "DELETE /items/%s"), ("DELETE /old", "DELETE /old")],
      ["DELETE /items/%s"])] := by
  simp only [refusedTwin, SourceFile.sample_eq, SourceFile.chars, String.reduceToList]
  decide +kernel

theorem refusedTwin_package : ∃ q, refusedTwin.packages = [q] ∧ q.HasTable {} ∧
    definesClient (.build refusedTwin) q.files "jape" = true ∧
    (extractRoutes (.build refusedTwin) q.files {}).2.table.rejected = ["DELETE /items/%s"] ∧
    (extractRoutes (.build refusedTwin) q.files {}).2.table.routes.map (fun r => (r.label, r.key)) =
      [("DELETE /items/:id", "DELETE /items/%s"), ("DELETE /old", "DELETE /old")] ∧
    (extractCalls (.build refusedTwin) q.files {}).2.map (·.key) = ["DELETE /items/%s"] := by
  obtain ⟨q, hq, hsummary⟩ := List.map_eq_singleton_iff.1 summary_refusedTwin
  simp only [Package.summary, Prod.mk.injEq] at hsummary
  obtain ⟨⟨htables, hclient⟩, hrejected, hroutes, hcalls⟩ := hsummary
  have htable : q.HasTable {} := (tables_ne_zero_iff (.build refusedTwin)).1 (by simp [htables])
  exact ⟨q, hq, htable, hclient, hrejected, hroutes, hcalls⟩

theorem checkProgram_refusedTwin : ∃ report, checkProgram refusedTwin {} = .ok report := by
  obtain ⟨q, hq, _, hclient, _⟩ := refusedTwin_package
  refine checkProgram_eq_ok fun q' hq' _ => ?_
  obtain rfl : q' = q := by simpa [hq] using hq'
  exact hclient

/-- The route without a call is reported, and its key is neither refused nor that of a call. -/
theorem unmatched_of_missing_old : ∃ report, checkProgram refusedTwin {} = .ok report ∧
    ∃ d ∈ report.diagnostics, d.message = "Client missing method for DELETE /old" ∧ d.IsMissing ∧
      ∃ q ∈ refusedTwin.packages, q.HasTable {} ∧
        ∃ r ∈ (extractRoutes (.build refusedTwin) q.files {}).2.table.routes, d = r.missing ∧
          ∀ c ∈ (extractCalls (.build refusedTwin) q.files {}).2, c.key ≠ r.key := by
  obtain ⟨report, hok⟩ := checkProgram_refusedTwin
  obtain ⟨q, hq, htable, _, hrejected, hroutes, hcalls⟩ := refusedTwin_package
  have hmem : q ∈ refusedTwin.packages := by simp [hq]
  have hcall (c : ClientCall) (hc : c ∈ (extractCalls (.build refusedTwin) q.files {}).2) :
      c.key = "DELETE /items/%s" := by
    simpa [hcalls] using List.mem_map_of_mem (f := ClientCall.key) hc
  obtain ⟨r, hr, heq⟩ := List.mem_map.1 (hroutes ▸ List.mem_cons_of_mem _ List.mem_cons_self)
  obtain ⟨hlabel, hkey⟩ := Prod.mk.inj heq
  have hsought : (extractRoutes (.build refusedTwin) q.files {}).2.table.sought
      (extractCalls (.build refusedTwin) q.files {}).2 r.key = false := by
    rw [Bool.eq_false_iff, ne_eq, RouteTable.sought_iff]
    rintro ⟨c, hc, _, hrkey⟩
    rw [hcall c hc, hkey] at hrkey
    exact absurd hrkey (by decide)
  obtain ⟨d, hd, hmessage⟩ :=
    List.mem_map.1 (message_missing_mem_report hok hmem htable hr hsought)
  have hmissing : d.IsMissing := by
    rw [Diagnostic.IsMissing, hmessage]
    exact isMissing_missing r
  obtain ⟨q', hq', htable', r', hr', hdr, hunmatched⟩ := unmatched_of_missing hok hd hmissing
  obtain rfl : q' = q := by simpa [hq] using hq'
  have hlabel' : r'.label = "DELETE /old" :=
    (String.append_right_inj _).1 (hdr ▸ hmessage) |>.trans hlabel
  have hkey' : r'.key = "DELETE /old" := by
    have := List.mem_map_of_mem (f := fun r : ServerRoute => (r.label, r.key)) hr'
    simpa [hroutes, hlabel'] using this
  have hkept : (extractRoutes (.build refusedTwin) q'.files {}).2.table.isRejected r'.key =
      false := by
    rw [RouteTable.isRejected, hrejected, hkey']
    decide
  have htext : r.missing.message = "Client missing method for DELETE /old" := by
    rw [ServerRoute.missing, hlabel]
    rfl
  exact ⟨report, hok, d, hd, hmessage.trans htext, hmissing, q', hmem, htable, r', hr', hdr,
    hunmatched hkept⟩

/-- A route is reported as missing although a call of its package has its key: another entry of the
key was refused, and calls to it are passed over. -/
theorem missing_despite_call : ∃ report, checkProgram refusedTwin {} = .ok report ∧
    "Client missing method for DELETE /items/:id" ∈ report.diagnostics.map (·.message) ∧
      ∃ q ∈ refusedTwin.packages,
        ∃ r ∈ (extractRoutes (.build refusedTwin) q.files {}).2.table.routes,
          r.label = "DELETE /items/:id" ∧
            ∃ c ∈ (extractCalls (.build refusedTwin) q.files {}).2, c.key = r.key := by
  obtain ⟨report, hok⟩ := checkProgram_refusedTwin
  obtain ⟨q, hq, htable, _, hrejected, hroutes, hcalls⟩ := refusedTwin_package
  have hmem : q ∈ refusedTwin.packages := by simp [hq]
  obtain ⟨r, hr, hlabel⟩ := List.mem_map.1 (hroutes ▸ List.mem_cons_self)
  obtain ⟨c, hc, hkey⟩ := List.mem_map.1 (hcalls ▸ List.mem_singleton_self _)
  obtain ⟨hlabel, hrkey⟩ := Prod.mk.inj hlabel
  have hsought : (extractRoutes (.build refusedTwin) q.files {}).2.table.sought
      (extractCalls (.build refusedTwin) q.files {}).2 r.key = false := by
    apply RouteTable.not_sought_of_rejected
    rw [RouteTable.isRejected, hrejected, hrkey]
    decide
  have hreported := message_missing_mem_report hok hmem htable hr hsought
  rw [ServerRoute.missing, hlabel] at hreported
  exact ⟨report, hok, hreported, q, hmem, r, hr, hlabel, c, hc, hkey.trans hrkey.symm⟩

end RouteCheck
