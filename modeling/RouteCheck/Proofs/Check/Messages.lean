import RouteCheck.Proofs.Check.Calls
import RouteCheck.Proofs.Check.Entries
import RouteCheck.Proofs.Check.Offers
import RouteCheck.Proofs.Text.Split

/-!
Which check a diagnostic comes from can be told from the words it begins with.

Every message is a fixed text followed by names and types of the source, so that it begins with one
of a few leads whatever the source is. The lists of leads of different checks clash: no text begins
with a lead of two of them.

Main statements:
  1. `begins_disjoint`: leads that clash begin different texts.
  2. `report_apply`, `report_extractRoutes`, `report_extractCalls`, `report_checkHandler`: all that
     each check reports.
  3. `led_extractRoutes`, `led_extractCalls`, `led_checkHandler`, `led_compareCall`: the leads of
     each check.
-/

namespace RouteCheck

namespace Text

/-- The two differ at some place that both have. -/
def clash : List Char → List Char → Bool
  | a :: as, b :: bs => a != b || clash as bs
  | _, _ => false

/-- The text begins with one of the leads. -/
def Begins (leads : List String) (s : String) : Prop := ∃ lead ∈ leads, startsWith lead s = true

instance (leads : List String) (s : String) : Decidable (Begins leads s) :=
  inferInstanceAs (Decidable (∃ lead ∈ leads, startsWith lead s = true))

theorem not_clash_of_isPrefix {lead other cs : List Char} (h : lead <+: cs) (h' : other <+: cs) :
    clash lead other = false := by
  induction lead generalizing other cs with
  | nil => rfl
  | cons p ps ih =>
    cases other with
    | nil => rfl
    | cons q qs =>
      cases cs with
      | nil => simp at h
      | cons c cs =>
        obtain ⟨rfl, hps⟩ := List.cons_prefix_cons.1 h
        obtain ⟨rfl, hqs⟩ := List.cons_prefix_cons.1 h'
        simp [clash, ih hps hqs]

theorem Begins.append {leads : List String} {s : String} (h : Begins leads s) (rest : String) :
    Begins leads (s ++ rest) := by
  obtain ⟨lead, hlead, hs⟩ := h
  refine ⟨lead, hlead, startsWith_iff.2 ?_⟩
  rw [String.toList_append]
  exact (startsWith_iff.1 hs).trans (List.prefix_append _ _)

/-- Leads that clash begin different texts. -/
theorem begins_disjoint {leads others : List String} {s : String}
    (hclash : ∀ a ∈ leads, ∀ b ∈ others, clash a.toList b.toList = true)
    (h : Begins leads s) : ¬ Begins others s := by
  rintro ⟨b, hb, hs'⟩
  obtain ⟨a, ha, hs⟩ := h
  have := not_clash_of_isPrefix (startsWith_iff.1 hs) (startsWith_iff.1 hs')
  exact absurd (hclash a ha b hb) (by simp [this])

end Text

/-- Every message begins with one of the leads. -/
def Led (leads : List String) (notes : List Diagnostic) : Prop :=
  ∀ d ∈ notes, Text.Begins leads d.message

/-- Leads of what is reported while routes are extracted. -/
def routeLeads : List String :=
  ["Server defines ", "Could not locate ", "request type ", "Decode", "Encode called ",
   "form value ", "param ", "PathParam called ", "GET routes ", "PUT routes ", "DELETE routes "]

/-- Leads of what is reported while client calls are extracted. -/
def callLeads : List String := ["route contains "]

/-- Leads of what is reported of the response writes of handlers. -/
def writeLeads : List String := ["handler writes ", "weird condition"]

/-- Leads of what is reported of calls that were checked against routes. -/
def matchLeads : List String := ["Client references ", "Client has "]

section
variable {leads : List String} {notes more : List Diagnostic} {at_ : Position} {message : String}

theorem led_nil : Led leads [] := by simp [Led]

theorem led_singleton (h : Text.Begins leads message) : Led leads [⟨at_, message⟩] := by
  simpa [Led] using h

theorem Led.append (h : Led leads notes) (h' : Led leads more) : Led leads (notes ++ more) := by
  intro d hd
  rcases List.mem_append.1 hd with hd | hd
  · exact h d hd
  · exact h' d hd

theorem led_flatMap {α : Type} {as : List α} {f : α → List Diagnostic}
    (h : ∀ a ∈ as, Led leads (f a)) : Led leads (as.flatMap f) := by
  intro d hd
  obtain ⟨a, ha, hd⟩ := List.mem_flatMap.1 hd
  exact h a ha d hd

end

/-! ## Context calls -/

/-- The rules on what a route reads and writes. -/
def shapeRules : List String := [mustNotRead, mustRead, mustNotWrite, mustWrite]

def ruledMethods : List String := ["GET", "PUT", "DELETE"]

/-- What is said of an argument that should be a pointer. -/
def pointerRefusals : List String :=
  ["request type must be a pointer", "Decode called on non-pointer value",
    "DecodeParam called on non-pointer value"]

namespace ContextCall

/-- What can be reported of a call on the context of a handler, given what is recorded of its route
so far. -/
inductive Report (t : Typer) (d : Draft) (c : ContextCall) : Diagnostic → Prop
  | misshapen (n : Node) {method rule : String} (hmethod : method ∈ ruledMethods)
      (hrule : rule ∈ shapeRules) : Report t d c ⟨t.file.position n, method ++ " routes " ++ rule⟩
  | unpointed (n : Node) {message : String} (hmessage : message ∈ pointerRefusals) :
      Report t d c ⟨t.file.position n, message⟩
  | absent (n : Node) (name : String) {op : String} (hop : op ∈ ["DecodeParam", "PathParam"]) :
      Report t d c ⟨t.file.position n,
        op ++ " called on param (" ++ Text.quote name ++ ") not present in route definition"⟩
  | conflict {slot : Slot} {ty held : Ty}
      (hty : ty = .pointer .string ∨ ∃ a ∈ c.args, ty = t.typeOf a)
      (hheld : d.held slot = some held) : Report t d c (c.conflict t d.names slot ty held)

end ContextCall

section
variable {t : Typer} {c : ContextCall} {call : Node} {args : List Node} {d : Draft}

theorem report_misshapen (n : Node) {method rule : String} (hmethod : method ∈ ruledMethods)
    (hrule : rule ∈ shapeRules) :
    ∀ m ∈ (Replay.misshapen (t.file.position n) method rule).notes, c.Report t d m :=
  List.forall_mem_singleton.2 (.misshapen n hmethod hrule)

theorem report_conflict (slot : Slot) {arg : Node} {held : Ty} (harg : arg ∈ c.args)
    (hheld : (d.held slot).filter (·.conflicts (t.typeOf arg)) = some held) :
    ∀ m ∈ [c.conflict t d.names slot (t.typeOf arg) held], c.Report t d m :=
  List.forall_mem_singleton.2
    (.conflict (.inr ⟨arg, harg, rfl⟩) (Option.filter_eq_some_iff.1 hheld).1)

theorem report_replayCustom : ∀ m ∈ (replayCustom t args d).notes, c.Report t d m := by
  unfold replayCustom
  split
  · next req _ _ =>
    simp only
    split
    · exact List.forall_mem_singleton.2 (.unpointed req (by simp [pointerRefusals]))
    · split
      case h_7 => exact nofun
      all_goals exact report_misshapen _ (by simp [ruledMethods]) (by simp [shapeRules])
  · exact nofun

theorem report_replayDecode (hop : c.op = .decode ∨ c.op = .decodeLimit) :
    ∀ m ∈ (replayDecode t c.call c.args d).notes, c.Report t d m := by
  obtain ⟨op, call, args⟩ := c
  unfold replayDecode
  simp only
  split
  · next h =>
    have hmethod : d.route.method = "GET" ∨ d.route.method = "DELETE" := by simpa using h
    refine report_misshapen call ?_ (by simp [shapeRules])
    rcases hmethod with h | h <;> simp [h, ruledMethods]
  · split
    · exact List.forall_mem_nil _
    · next arg rest =>
      split
      · exact List.forall_mem_singleton.2 (.unpointed arg (by simp [pointerRefusals]))
      · split
        · next held hheld =>
          rcases hop with rfl | rfl
          · exact report_conflict (c := ⟨.decode, call, _⟩) .request List.mem_cons_self hheld
          · exact report_conflict (c := ⟨.decodeLimit, call, _⟩) .request List.mem_cons_self hheld
        · exact List.forall_mem_nil _

theorem report_replayEncode :
    ∀ m ∈ (replayEncode t call args d).notes, ContextCall.Report t d ⟨.encode, call, args⟩ m := by
  unfold replayEncode
  split
  · next h =>
    have hmethod : d.route.method = "PUT" ∨ d.route.method = "DELETE" := by simpa using h
    refine report_misshapen call ?_ (by simp [shapeRules])
    rcases hmethod with h | h <;> simp [h, ruledMethods]
  · split
    · exact List.forall_mem_nil _
    · simp only
      split
      · next held hheld =>
        exact report_conflict (c := ⟨.encode, call, _⟩) .response List.mem_cons_self hheld
      · exact List.forall_mem_nil _

theorem report_replayDecodeForm : ∀ m ∈ (replayDecodeForm t call args d).notes,
    ContextCall.Report t d ⟨.decodeForm, call, args⟩ m := by
  unfold replayDecodeForm
  split
  · split
    · exact nofun
    · next name _ =>
      simp only
      split
      · next held hheld =>
        exact report_conflict (c := ⟨.decodeForm, call, _⟩) (.query name) (by simp) hheld
      · split
        · exact nofun
        · exact nofun
  · exact nofun

theorem report_replayParam {op : String} {nameNode : Node} {ty : Ty} {fit : Option String}
    (hop : op ∈ ["DecodeParam", "PathParam"])
    (hty : ty = .pointer .string ∨ ∃ a ∈ c.args, ty = t.typeOf a)
    (hfit : ∀ refusal ∈ fit, refusal ∈ pointerRefusals) :
    ∀ m ∈ (replayParam t d op nameNode c.disputedAt ty fit).notes, c.Report t d m := by
  unfold replayParam
  split
  · exact List.forall_mem_nil _
  · next name _ =>
    split
    · exact List.forall_mem_singleton.2 (.absent nameNode name hop)
    · next param hparam =>
      split
      · next _ _ held hheld =>
        obtain ⟨i, hi, hget⟩ := Option.bind_eq_some_iff.1 (find?_eq_idxOf?.symm.trans hparam)
        have hnamed : param.name = name := by simpa using List.find?_some hparam
        have htext : (d.names[i]?).getD "" = name := by simp [Draft.names, hget, hnamed]
        have hslot : d.held (.param i) = some held := by
          rw [Draft.held, hget]
          exact (Option.filter_eq_some_iff.1 hheld).1
        have hreport := ContextCall.Report.conflict hty hslot
        rw [ContextCall.conflict, htext] at hreport
        exact List.forall_mem_singleton.2 hreport
      · exact List.forall_mem_singleton.2 (.unpointed _ (hfit _ rfl))
      · split
        · exact List.forall_mem_nil _
        · exact List.forall_mem_nil _

/-- What is reported of one call. -/
theorem report_apply (c : ContextCall) : ∀ m ∈ (d.apply t c).notes, c.Report t d m := by
  obtain ⟨op, call, args⟩ := c
  cases op with
  | custom => exact report_replayCustom
  | decode => exact report_replayDecode (.inl rfl)
  | decodeLimit => exact report_replayDecode (.inr rfl)
  | encode => exact report_replayEncode
  | decodeForm => exact report_replayDecodeForm
  | decodeParam =>
    show ∀ m ∈ (replayDecodeParam t args d).notes, _
    unfold replayDecodeParam
    split
    · next nameNode value rest =>
      refine report_replayParam (c := ⟨.decodeParam, call, nameNode :: value :: rest⟩) (by simp)
        (.inr ⟨value, by simp, rfl⟩) fun refusal h => ?_
      split at h
      · obtain rfl := Option.some.inj h
        simp [pointerRefusals]
      · exact nomatch h
    · exact nofun
  | pathParam =>
    show ∀ m ∈ (replayPathParam t call args d).notes, _
    unfold replayPathParam
    split
    · next nameNode rest =>
      exact report_replayParam (c := ⟨.pathParam, call, nameNode :: rest⟩) (by simp) (.inl rfl)
        nofun
    · exact nofun
  | error | check => exact nofun

/-- What is reported of some calls is reported of one of them, given what the ones before it
leave. -/
theorem exists_report_of_mem_applyAll {calls : List ContextCall} {m : Diagnostic}
    (h : m ∈ (d.applyAll t calls).notes) : ∃ before c after d', calls = before ++ c :: after ∧
      (d.applyAll t before).draft? = some d' ∧ c.Report t d' m := by
  induction calls generalizing d with
  | nil => exact absurd h List.not_mem_nil
  | cons c calls ih =>
    cases happly : (d.apply t c).draft? with
    | none =>
      have hnotes : (d.applyAll t (c :: calls)).notes = (d.apply t c).notes := by
        rw [Draft.applyAll]
        split
        · next heq => rw [heq]
        · next heq => simp [heq] at happly
      exact ⟨[], c, calls, d, rfl, rfl, report_apply c m (hnotes ▸ h)⟩
    | some d₁ =>
      rw [applyAll_cons happly] at h
      rcases List.mem_append.1 h with h | h
      · exact ⟨[], c, calls, d, rfl, rfl, report_apply c m h⟩
      · obtain ⟨before, c', after, d', rfl, hdraft, hreport⟩ := ih h
        exact ⟨c :: before, c', after, d', rfl, by rw [applyAll_cons happly, hdraft], hreport⟩

end

/-! ## Routes -/

/-- What can be reported of a handler that is replayed on a route: of one of its calls, or of all
that it reads and writes. -/
inductive Handler.Report (h : Handler) (index : Index) (library : String) (route : ServerRoute) :
    Diagnostic → Prop
  | call {before after : List ContextCall} {c : ContextCall} {d : Draft} {m : Diagnostic}
      (hcalls : h.contextCalls (h.typer index) library = before ++ c :: after)
      (hdraft : (({ route } : Draft).applyAll (h.typer index) before).draft? = some d)
      (hreport : c.Report (h.typer index) d m) : Report h index library route m
  | misshapen {method rule : String} (hmethod : method ∈ ruledMethods) (hrule : rule ∈ shapeRules) :
      Report h index library route ⟨h.file.position h.body, method ++ " routes " ++ rule⟩

theorem report_replay (h : Handler) (index : Index) (library : String) (route : ServerRoute) :
    ∀ m ∈ (h.replay index library route).1, h.Report index library route m := by
  have hcalls (m : Diagnostic) (hm : m ∈ (({ route } : Draft).applyAll (h.typer index)
      (h.contextCalls (h.typer index) library)).notes) : h.Report index library route m := by
    obtain ⟨before, c, after, d, hsplit, hdraft, hreport⟩ := exists_report_of_mem_applyAll hm
    exact .call hsplit hdraft hreport
  have hshape {method rule : String} (hmethod : method ∈ ruledMethods) (hrule : rule ∈ shapeRules) :
      ∀ m ∈ (Replay.misshapen (h.file.position h.body) method rule).notes,
        h.Report index library route m :=
    List.forall_mem_singleton.2 (.misshapen hmethod hrule)
  unfold Handler.replay
  simp only
  generalize Draft.applyAll _ _ _ = result at hcalls
  obtain ⟨notes, draft?⟩ := result
  cases draft? with
  | none => exact hcalls
  | some d =>
    simp only
    split
    · exact List.forall_mem_append.2
        ⟨hcalls, hshape (by simp [ruledMethods]) (by simp [shapeRules])⟩
    · split
      · exact List.forall_mem_append.2
          ⟨hcalls, hshape (by simp [ruledMethods]) (by simp [shapeRules])⟩
      · exact hcalls

/-- What can be reported of an entry of a route table. -/
inductive Typer.EntryReport (t : Typer) (config : Config) (key value : Node) : Diagnostic → Prop
  | invalid (words : List String) : EntryReport t config key value
      ⟨t.file.position key, "Server defines invalid route: " ++ Text.quoteList words⟩
  | unlocated : EntryReport t config key value
      ⟨t.file.position key, "Could not locate handler definition"⟩
  | replayed {h : Handler} {method full : String} {m : Diagnostic}
      (hhandler : t.handler? value = some h)
      (hreport : h.Report t.index config.library (t.entryRoute config key method full) m) :
      EntryReport t config key value m
  | repeated {route : ServerRoute} {h : Handler}
      (haccepted : (t.readEntry config key value).2 = .accepted route h) :
      EntryReport t config key value
        ⟨route.position, "Server defines route " ++ route.label ++ " multiple times"⟩

section
variable {t : Typer} {config : Config} {key value : Node}

theorem report_readEntry :
    ∀ m ∈ (t.readEntry config key value).1, t.EntryReport config key value m := by
  unfold Typer.readEntry
  simp only
  split
  · exact List.forall_mem_singleton.2 (.invalid _)
  · next method full _ =>
    split
    · exact List.forall_mem_singleton.2 .unlocated
    · next h hhandler =>
      have hreplay := report_replay h t.index config.library (t.entryRoute config key method full)
      unfold Typer.entryRoute at hreplay
      split
      all_goals
        next heq =>
          rw [heq] at hreplay
          exact fun m hm => .replayed hhandler (hreplay m hm)

theorem report_add (s : ServerRoutes) :
    ∀ m ∈ (s.add (t.readEntry config key value).2).1, t.EntryReport config key value m := by
  cases houtcome : (t.readEntry config key value).2 with
  | accepted route handler =>
    unfold ServerRoutes.add
    simp only
    split
    · exact nofun
    · exact List.forall_mem_singleton.2 (.repeated houtcome)
  | rejected | invalid => exact nofun

/-- What is reported while the routes of a package are extracted is reported of one of their
entries, by induction on the entries. -/
theorem report_extractRoutes {index : Index} {files : List SourceFile} :
    ∀ m ∈ (extractRoutes index files config).1, ∃ t key value,
      (t, key, value) ∈ routeEntries index files config.library ∧
        t.EntryReport config key value m := by
  have hfold (entries : List (Typer × Node × Node)) (acc : List Diagnostic × ServerRoutes)
      (m : Diagnostic) (hm : m ∈ (entries.foldl (ServerRoutes.read config) acc).1) :
      m ∈ acc.1 ∨ ∃ t key value, (t, key, value) ∈ entries ∧ t.EntryReport config key value m := by
    induction entries generalizing acc with
    | nil => exact .inl hm
    | cons e entries ih =>
      obtain ⟨t, key, value⟩ := e
      rcases ih _ hm with hm | ⟨t', key', value', hmem, hreport⟩
      · rcases List.mem_append.1 hm with hm | hm
        · rcases List.mem_append.1 hm with hm | hm
          · exact .inl hm
          · exact .inr ⟨t, key, value, List.mem_cons_self, report_readEntry m hm⟩
        · exact .inr ⟨t, key, value, List.mem_cons_self, report_add acc.2 m hm⟩
      · exact .inr ⟨t', key', value', List.mem_cons_of_mem _ hmem, hreport⟩
  intro m hm
  exact (hfold _ _ m hm).resolve_left List.not_mem_nil

end

section
variable {t : Typer} {m : Diagnostic}

theorem begins_misshapen {method : String} (hmethod : method ∈ ruledMethods) (rule : String) :
    Text.Begins routeLeads (method ++ " routes " ++ rule) := by
  have hlead : ∀ method ∈ ruledMethods, Text.Begins routeLeads (method ++ " routes ") := by decide
  exact (hlead method hmethod).append rule

theorem ContextCall.begins_conflict (t : Typer) (params : List String) (slot : Slot)
    (c : ContextCall) (ty held : Ty) :
    Text.Begins routeLeads (c.conflict t params slot ty held).message := by
  cases slot with
  | request | response => exact .append (.append (.append (by decide) _) _) _
  | param | query => exact .append (.append (.append (.append (.append (by decide) _) _) _) _) _

theorem ContextCall.Report.begins {c : ContextCall} {d : Draft} (h : c.Report t d m) :
    Text.Begins routeLeads m.message := by
  cases h with
  | misshapen n hmethod => exact begins_misshapen hmethod _
  | unpointed n hmessage =>
    have hrefusal : ∀ message ∈ pointerRefusals, Text.Begins routeLeads message := by decide
    exact hrefusal _ hmessage
  | absent n name hop =>
    have hlead : ∀ op ∈ ["DecodeParam", "PathParam"],
        Text.Begins routeLeads (op ++ " called on param (") := by decide
    exact ((hlead _ hop).append _).append _
  | conflict => exact begins_conflict ..

theorem Typer.EntryReport.begins {config : Config} {key value : Node}
    (h : t.EntryReport config key value m) : Text.Begins routeLeads m.message := by
  cases h with
  | invalid words => exact .append (by decide) _
  | unlocated =>
    show Text.Begins routeLeads "Could not locate handler definition"
    decide
  | replayed _ hreport =>
    cases hreport with
    | call _ _ hreport => exact hreport.begins
    | misshapen hmethod => exact begins_misshapen hmethod _
  | repeated => exact .append (.append (by decide) _) _

/-- What is reported while the routes of a package are extracted. -/
theorem led_extractRoutes (index : Index) (files : List SourceFile) (config : Config) :
    Led routeLeads (extractRoutes index files config).1 := by
  intro m hm
  obtain ⟨t, key, value, -, hreport⟩ := report_extractRoutes m hm
  exact hreport.begins

end

/-! ## Client calls -/

theorem report_readCall {t : Typer} {config : Config} {op : ClientOp} {call : Node} :
    ∀ m ∈ (t.readCall config op call).1, ∃ n holes supplied,
      m = ⟨t.file.position n, mismatchMessage holes supplied⟩ := by
  unfold Typer.readCall
  split
  · exact nofun
  · simp only
    split
    · exact List.forall_mem_singleton.2 ⟨_, _, _, rfl⟩
    · exact nofun

/-- What is reported while the client calls of a package are extracted. -/
theorem report_extractCalls {index : Index} {files : List SourceFile} {config : Config} :
    ∀ m ∈ (extractCalls index files config).1, ∃ file ∈ files, ∃ n holes supplied,
      m = ⟨file.position n, mismatchMessage holes supplied⟩ := by
  intro m hm
  obtain ⟨_, hread, hm⟩ := List.mem_flatMap.1 hm
  obtain ⟨⟨t, op, call⟩, hcall, rfl⟩ := List.mem_map.1 hread
  obtain ⟨file, hfile, hcall⟩ := List.mem_flatMap.1 hcall
  obtain ⟨decl, -, rfl, -, -⟩ := mem_clientCallsIn_iff.1 hcall
  obtain ⟨n, holes, supplied, rfl⟩ := report_readCall m hm
  exact ⟨file, hfile, n, holes, supplied, by rw [Typer.enclosing_file]⟩

theorem led_extractCalls (index : Index) (files : List SourceFile) (config : Config) :
    Led callLeads (extractCalls index files config).1 := by
  intro m hm
  obtain ⟨file, -, n, holes, supplied, rfl⟩ := report_extractCalls m hm
  unfold mismatchMessage
  exact .append (.append (.append (.append (.append (.append (.append (.append (by decide)
    _) _) _) _) _) _) _) _

/-! ## Response writes -/

namespace WriteCheck

variable {w : WriteCheck} {s : FlowState}

/-- What can be reported of response writes: one after another, or a condition on their results. -/
inductive Report (w : WriteCheck) : Diagnostic → Prop
  | repeated (call : Node) (previous : Site) :
    Report w ⟨w.typer.file.position call, "handler writes multiple responses (previous write at " ++
      toString previous.1 ++ ":" ++ toString previous.2 ++ ")"⟩
  | weird (cond : Node) : Report w ⟨w.typer.file.position cond,
      "weird condition; stick to a single conjunction/disjunction form"⟩

theorem report_repeated (call : Node) : ∀ d ∈ w.repeated call s, w.Report d := by
  unfold repeated
  split
  · exact nofun
  · next line column _ => exact List.forall_mem_singleton.2 (.repeated call (line, column))

theorem report_record (calls : List Node) : ∀ d ∈ (w.record calls s).1, w.Report d := by
  induction calls generalizing s with
  | nil => exact nofun
  | cons c calls ih => exact List.forall_mem_append.2 ⟨report_repeated c, ih⟩

theorem report_item (n : Node) : ∀ d ∈ (w.item n s).1, w.Report d := by
  unfold item
  split
  · split
    · unfold assign
      simp only
      split
      · exact report_repeated _
      · exact report_record _
    · exact List.forall_mem_nil _
  · exact report_record _

theorem report_items (ns : List Node) : ∀ d ∈ (w.items ns s).1, w.Report d := by
  induction ns generalizing s with
  | nil => exact nofun
  | cons n ns ih => exact List.forall_mem_append.2 ⟨report_item n, ih⟩

theorem report_leaves (parts : List Node) : ∀ d ∈ (w.leaves parts s).notes, w.Report d := by
  induction parts generalizing s with
  | nil => exact nofun
  | cons leaf parts ih =>
    unfold leaves
    split
    · refine List.forall_mem_append.2 ⟨?_, ih⟩
      unfold nilCheckNotes
      split
      · split
        · exact report_repeated _
        · exact nofun
      · exact nofun
    · exact List.forall_mem_append.2 ⟨report_record _, ih⟩

theorem report_branch (cond : Node) : ∀ d ∈ (w.branch cond s).1, w.Report d := by
  have hleaves := report_leaves (w := w) (s := s) (flatten cond).2
  unfold branch
  simp only
  split
  · exact hleaves
  · split
    · exact hleaves
    · split
      · exact hleaves
      · exact List.forall_mem_append.2 ⟨hleaves, List.forall_mem_singleton.2 (.weird cond)⟩

theorem report_notes (g : Graph Node) (p : Point) : ∀ d ∈ w.notes g p, w.Report d := by
  unfold notes
  split
  · unfold block
    simp only
    split
    · exact report_items _
    · exact List.forall_mem_append.2 ⟨report_items _, report_branch _⟩
  · exact List.forall_mem_nil _

end WriteCheck

/-- What is reported of the response writes of a handler. -/
theorem report_checkHandler {index : Index} {library : String} {h : Handler} {d : Diagnostic}
    (hd : d ∈ checkHandler index library h) : WriteCheck.Report ⟨h.typer index, library⟩ d := by
  obtain ⟨p, -, hd⟩ := List.mem_flatMap.1 hd
  exact WriteCheck.report_notes h.graph p d hd

theorem led_checkHandler (index : Index) (library : String) (h : Handler) :
    Led writeLeads (checkHandler index library h) := by
  intro d hd
  cases report_checkHandler hd with
  | repeated call previous => exact .append (.append (.append (.append (by decide) _) _) _) _
  | weird cond => exact (by decide : Text.Begins writeLeads
      "weird condition; stick to a single conjunction/disjunction form")

/-! ## Parity -/

section
variable {t : Typer} {route : ServerRoute} {call : ClientCall}

theorem led_compareTypes {n : Node} {got want : Ty} {message : String}
    (h : Text.Begins matchLeads message) : Led matchLeads (compareTypes t n got want message) := by
  unfold compareTypes
  split
  · exact led_nil
  · exact led_singleton h

theorem led_comparePath (ps : List PathParam) (args : List (Option Node)) :
    Led matchLeads (comparePath t route call ps args) := by
  induction ps generalizing args with
  | nil => exact led_nil
  | cons p ps ih =>
    cases args with
    | nil => exact led_singleton (.append (by decide) _)
    | cons arg args =>
      refine Led.append ?_ (ih args)
      unfold compareSlot
      split
      · exact led_compareTypes (.append (.append (.append (by decide) _) _) _)
      · exact led_nil

theorem led_compareQuery (name : String) (arg : Option Node) :
    Led matchLeads (compareQuery t route call name arg) := by
  unfold compareQuery
  split
  · exact led_singleton (.append (by decide) _)
  · exact led_nil
  · exact led_compareTypes (.append (.append (.append (by decide) _) _) _)

theorem led_compareCall (index : Index) : Led matchLeads (compareCall index route call) := by
  unfold compareCall
  simp only
  refine Led.append (Led.append (Led.append ?_ ?_) (led_comparePath _ _))
    (led_flatMap fun _ _ => led_compareQuery _ _)
  · unfold compareRequest
    split
    · exact led_nil
    · exact led_compareTypes (.append (.append (.append (by decide) _) _) _)
  · unfold compareResponse
    split
    · exact led_nil
    · exact led_compareTypes (.append (.append (.append (by decide) _) _) _)

end

end RouteCheck
