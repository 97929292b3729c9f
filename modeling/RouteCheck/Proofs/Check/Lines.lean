import RouteCheck.Proofs.Check.Carried
import RouteCheck.Proofs.Check.Keys
import RouteCheck.Proofs.Check.WrongTypes
import RouteCheck.Proofs.Text.Lines

/-!
Diagnostics as text, one line for each.

The text format ends every diagnostic with a line break and escapes nothing. Names and texts that a
message quotes are escaped, and the label of a route is made of words, which have no white space.
That leaves two things. The method and the path of a client call are folded and may be any text, and
a call that no route is for is reported with its label. And a message on two types that differ has
both in it (`Diagnostic.Contrasts`): the length of an array or the name of a package that is
imported may have a line break.

Main statements:
  1. `Ty.oneLine_render_iff`: the texts of types.
  2. `Typer.EntryReport.lined`, `WriteCheck.Report.oneLine`, `lined_treatment`: what is reported of
     entries, of response writes, and of calls as they are treated.
  3. `oneLine_of_mem_report_iff`: when all diagnostics of a program are on one line.
  4. `text_lines_iff`: when the text of a report has one line for each diagnostic;
     `text_lines_broken`: programs of which it has more.
-/

namespace RouteCheck
open Text (OneLine oneLine_append oneLine_quote oneLine_toString)

/-! ## Types -/

/-- Nothing that is named in the type, and no length of an array, has a line break. -/
def Ty.Unbroken : Ty → Prop
  | named none n => OneLine n
  | named (some p) n => OneLine p ∧ OneLine n
  | pointer t | slice t | chan t => t.Unbroken
  | array l t => OneLine l ∧ t.Unbroken
  | map k v => k.Unbroken ∧ v.Unbroken
  | _ => True

theorem Ty.oneLine_render_iff {t : Ty} : OneLine t.render ↔ t.Unbroken := by
  have hmarks : OneLine "." ∧ OneLine "*" ∧ OneLine "[]" ∧ OneLine "chan " ∧ OneLine "[" ∧
    OneLine "]" ∧ OneLine "map[" := by decide
  induction t with
  | func | interface | struct | untypedNil | unknown => exact iff_of_true (by decide) trivial
  | named p n => cases p <;> simp [render, Unbroken, hmarks]
  | pointer t ih | slice t ih | chan t ih => simp [render, Unbroken, hmarks, ih]
  | array l t ih => simp [render, Unbroken, hmarks, ih]
  | map k v ihk ihv => simp [render, Unbroken, hmarks, ihk, ihv]

/-- Names of packages and lengths of arrays without line breaks. -/
def Script.oneLine : Script where
  package := OneLine
  length := OneLine
  word := Ty.not_mem_of_isWord (by decide)
  empty := by decide

/-- Any names of packages and lengths of arrays. -/
def Script.any : Script where
  package _ := True
  length _ := True
  word _ := trivial
  empty := trivial

theorem Program.writtenIn_any (p : Program) : p.WrittenIn .any :=
  ⟨fun _ _ _ _ => trivial, fun _ _ _ _ _ _ _ => trivial⟩

theorem Ty.SpelledIn.unbroken {t : Ty} (h : t.SpelledIn .oneLine) : t.Unbroken := by
  induction t with
  | func | interface | struct | untypedNil | unknown => trivial
  | named p n =>
    cases p with
    | none =>
      have hnames : ∀ n ∈ builtinNames, OneLine n := by decide
      exact hnames n (by simpa [SpelledIn, isBuiltinName] using h)
    | some p => exact ⟨h.1, not_mem_of_isWord (by decide) h.2⟩
  | pointer t ih | slice t ih | chan t ih => exact ih h
  | array l t ih => exact ⟨h.1, ih h.2⟩
  | map k v ihk ihv => exact ⟨ihk h.1, ihv h.2⟩

/-! ## Reports -/

def Diagnostic.OneLine (d : Diagnostic) : Prop := Text.OneLine d.render

theorem Diagnostic.oneLine_iff {d : Diagnostic} :
    d.OneLine ↔ Text.OneLine d.position.file.text ∧ Text.OneLine d.message := by
  have hmarks : Text.OneLine ":" ∧ Text.OneLine ": " := by decide
  simp only [OneLine, render, Position.render, oneLine_append, oneLine_toString, hmarks,
    and_true]

theorem Diagnostic.OneLine.of {at_ : Position} {message : String}
    (hat : Text.OneLine at_.file.text) (hmessage : Text.OneLine message) :
    (⟨at_, message⟩ : Diagnostic).OneLine :=
  oneLine_iff.2 ⟨hat, hmessage⟩

/-- The message is on two types that differ: what is offered to a slot and what the slot holds, or
what an argument has and what is wanted of it. -/
inductive Diagnostic.Contrasts (d : Diagnostic) (a b : Ty) : Prop
  | offered (t : Typer) (c : ContextCall) (params : List String) (slot : Slot)
      (h : d = c.conflict t params slot a b)
  | wrong (route : ServerRoute) (part : CallPart)
      (h : d.message = part.lead route ++ " (got " ++ a.render ++ ", should be " ++ b.render ++ ")")

namespace Diagnostic.Contrasts
variable {d : Diagnostic} {a b : Ty}

theorem unbroken (h : d.Contrasts a b) (hd : d.OneLine) : a.Unbroken ∧ b.Unbroken := by
  rw [← Ty.oneLine_render_iff, ← Ty.oneLine_render_iff]
  have hmessage := (oneLine_iff.1 hd).2
  cases h with
  | offered t c params slot h =>
    subst h
    cases slot <;> simp_all [ContextCall.conflict]
  | wrong route part h => simp_all

theorem begins (h : d.Contrasts a b) :
    Text.Begins ("Client has wrong " :: routeLeads) d.message := by
  cases h with
  | offered t c params slot h =>
    subst h
    obtain ⟨lead, hlead, hbegins⟩ := ContextCall.begins_conflict t params slot c a b
    exact ⟨lead, List.mem_cons_of_mem _ hlead, hbegins⟩
  | wrong route part h =>
    have hlead : Text.Begins ("Client has wrong " :: routeLeads) (part.lead route) := by
      cases part <;> exact .append (by decide) _
    rw [h]
    exact ((((hlead.append _).append _).append _).append _).append _

end Diagnostic.Contrasts

/-- The diagnostic is on one line, as far as two types that it is on are. These are written in the
script. -/
def Diagnostic.Lined (S : Script) (m : Diagnostic) : Prop :=
  m.OneLine ∨ ∃ a b, m.Contrasts a b ∧ (a.Unbroken → b.Unbroken → m.OneLine) ∧ a.SpelledIn S ∧
    b.SpelledIn S

variable {S : Script}

theorem Diagnostic.Lined.of {at_ : Position} {message : String}
    (hat : Text.OneLine at_.file.text) (hmessage : Text.OneLine message) :
    (⟨at_, message⟩ : Diagnostic).Lined S := .inl (.of hat hmessage)

theorem oneLine_of_not_blank {s : String} (h : ∀ c ∈ s.toList, Text.isBlank c = false) :
    OneLine s :=
  fun hmem => absurd (h _ hmem) (by decide)

/-- What is said of a type and one before it. -/
theorem oneLine_conflict {lead link : String} {ty held : Ty} (hlead : OneLine lead)
    (hty : ty.Unbroken) (hlink : OneLine link) (hheld : held.Unbroken) :
    OneLine (lead ++ ty.render ++ link ++ held.render) :=
  .append (.append (.append hlead (Ty.oneLine_render_iff.2 hty)) hlink)
    (Ty.oneLine_render_iff.2 hheld)

theorem oneLine_misshapen {method rule : String} (hmethod : method ∈ ruledMethods)
    (hrule : rule ∈ shapeRules) : OneLine (method ++ " routes " ++ rule) := by
  have hmethods : ∀ method ∈ ruledMethods, OneLine method := by decide
  have hrules : ∀ rule ∈ shapeRules, OneLine rule := by decide
  exact .append (.append (hmethods _ hmethod) (by decide)) (hrules _ hrule)

theorem ContextCall.Report.lined {t : Typer} {c : ContextCall} {d : Draft} {m : Diagnostic}
    (h : c.Report t d m) (hfile : OneLine t.file.path.text) (ht : t.SpelledIn S)
    (hargs : ∀ a ∈ c.args, a.BelowIn S) (hheld : ∀ slot, ∀ ty ∈ d.held slot, ty.SpelledIn S) :
    m.Lined S := by
  cases h with
  | misshapen n hmethod hrule => exact .of hfile (oneLine_misshapen hmethod hrule)
  | unpointed n hmessage =>
    have hrefusals : ∀ message ∈ pointerRefusals, OneLine message := by decide
    exact .of hfile (hrefusals _ hmessage)
  | absent n name hop =>
    have hops : ∀ op ∈ ["DecodeParam", "PathParam"], OneLine op := by decide
    exact .of hfile
      (.append (.append (.append (hops _ hop) (by decide)) (oneLine_quote name)) (by decide))
  | @conflict slot ty held hty hslot =>
    have hspelled : ty.SpelledIn S := by
      rcases hty with rfl | ⟨a, ha, rfl⟩
      · exact (Ty.spelledIn_string : Ty.string.SpelledIn S)
      · exact ht.typeOf (hargs a ha)
    refine .inr ⟨ty, held, .offered t c d.names slot rfl, fun hty hheld => .of hfile ?_, hspelled,
      hheld slot held hslot⟩
    cases slot with
    | request | response => exact oneLine_conflict (by decide) hty (by decide) hheld
    | param | query =>
      exact oneLine_conflict (.append (.append (by decide) (oneLine_quote _)) (by decide)) hty
        (by decide) hheld

theorem oneLine_lead {route : ServerRoute} (hlabel : OneLine route.label) (part : CallPart) :
    OneLine (part.lead route) := by
  cases part with
  | request | response => exact .append (by decide) hlabel
  | pathParam name | queryParam name => exact .append (by decide) (oneLine_quote name)

theorem Wanted.spelledIn {route : ServerRoute} {call : ClientCall} {part : CallPart}
    {n : Node} {want : Ty} (h : Wanted route call part n want) (hroute : route.SpelledIn S)
    (hcall : call.SpelledIn S) : n.BelowIn S ∧ want.SpelledIn S := by
  cases h with
  | request hn => exact ⟨hcall.request n hn, hroute.request.elem⟩
  | response hn => exact ⟨hcall.response n hn, hroute.response.ptrOrNil⟩
  | pathParam hp hn hty =>
    exact ⟨hcall.path n (List.mem_of_getElem? hn),
      (hroute.params _ (List.mem_of_getElem? hp) _ hty).elem⟩
  | queryParam hn hty => exact ⟨hcall.query _ n hn, (hroute.queries _ _ hty).elem⟩

theorem CompareReport.lined {t : Typer} {route : ServerRoute} {call : ClientCall} {m : Diagnostic}
    (h : CompareReport t route call m) (hfile : OneLine t.file.path.text)
    (hplace : OneLine call.position.file.text) (hlabel : OneLine route.label)
    (ht : t.SpelledIn S) (hroute : route.SpelledIn S) (hcall : call.SpelledIn S) : m.Lined S := by
  cases h with
  | few => exact .of hplace (.append (by decide) hlabel)
  | undefined name arg =>
    refine .of ?_ (.append (by decide) (oneLine_quote name))
    cases arg with
    | none => exact hplace
    | some n => exact hfile
  | @differs m part n want hdiffers =>
    obtain ⟨hn, hwant⟩ := hdiffers.wanted.spelledIn hroute hcall
    have hnamed {ty : Ty} (hty : ty.SpelledIn S) : (part.named ty).SpelledIn S := by
      cases part with
      | response => exact hty.elem
      | _ => exact hty
    rw [hdiffers.eq, CallPart.message_eq]
    refine .inr ⟨_, _, .wrong route part rfl, fun hgot hwant => ?_, hnamed (ht.typeOf hn),
      hnamed hwant⟩
    exact .of hfile (.append
      (oneLine_conflict (.append (oneLine_lead hlabel part) (by decide)) hgot (by decide) hwant)
      (by decide))

theorem oneLine_mismatchMessage (holes : Nat × Nat) (supplied : Nat) :
    OneLine (mismatchMessage holes supplied) := by
  have hcounts : OneLine ("route contains (" ++ toString holes.1 ++ " path + " ++
      toString holes.2) :=
    .append (.append (.append (by decide) (oneLine_toString _)) (by decide)) (oneLine_toString _)
  exact .append (.append (.append (.append (.append hcounts (by decide)) (oneLine_toString _))
    (by decide)) (oneLine_toString _)) (by decide)

theorem WriteCheck.Report.oneLine {index : Index} {library : String} {h : Handler} {m : Diagnostic}
    (hreport : WriteCheck.Report ⟨h.typer index, library⟩ m) (hfile : OneLine h.file.path.text) :
    m.OneLine := by
  have htyper : OneLine (h.typer index).file.path.text := by
    rw [Handler.typer, Typer.enclosing_file]
    exact hfile
  cases hreport with
  | repeated call previous =>
    have hwords : OneLine "handler writes multiple responses (previous write at " ∧ OneLine ":" ∧
      OneLine ")" := by decide
    refine .of htyper ?_
    simp only [oneLine_append, oneLine_toString, hwords, and_true]
  | weird cond => exact .of htyper (by decide)

/-! ## Packages -/

namespace RouteTable

/-- No route is for the call, nor was one with its key refused. -/
def Lacks (table : RouteTable) (call : ClientCall) : Prop :=
  call.key ∉ table.rejected ∧ ∀ r ∈ table.routes, r.key ≠ call.key

variable {table : RouteTable} {before : List ClientCall} {call : ClientCall}

theorem treatment_eq_undefined_iff :
    table.treatment before call = .undefined ↔ table.Lacks call := by
  have hrejected : table.isRejected call.key = false ↔ call.key ∉ table.rejected := by
    simp [isRejected]
  have hget : table.get? call.key = none ↔ ∀ r ∈ table.routes, r.key ≠ call.key := by
    simp [get?]
  rw [Lacks, ← hrejected, ← hget]
  unfold treatment
  cases table.isRejected call.key with
  | true => simp
  | false =>
    cases table.get? call.key with
    | none => simp
    | some route => cases table.sought before call.key <;> simp

theorem mem_of_treatment {route : ServerRoute} (h : table.treatment before call = .repeated route ∨
    table.treatment before call = .compared route) : route ∈ table.routes := by
  unfold treatment at h
  split at h
  · simp at h
  · split at h
    · simp at h
    · next hget =>
      split at h
      all_goals
        simp only [Treatment.repeated.injEq, Treatment.compared.injEq, reduceCtorEq, or_false,
          false_or] at h
        exact h ▸ (get?_mem hget).1

end RouteTable

/-- What is reported of a call that no route is for. -/
def ClientCall.stray (call : ClientCall) : Diagnostic :=
  ⟨call.position, "Client references route not defined by server: " ++ call.label⟩

/-- The types that the diagnostics are on have no line breaks. -/
def Report.UnbrokenTypes (r : Report) : Prop :=
  ∀ d ∈ r.diagnostics, ∀ a b, d.Contrasts a b → a.Unbroken ∧ b.Unbroken

/-- The label of each call of the package that no route is for has no line break. -/
def Package.Legible (p : Program) (config : Config) (q : Package) : Prop :=
  ∀ call ∈ (extractCalls (.build p) q.files config).2,
    (extractRoutes (.build p) q.files config).2.table.Lacks call → OneLine call.label

/-- This holds of every package of the program that has a route table. -/
def Program.Legible (p : Program) (config : Config) : Prop :=
  ∀ q ∈ p.packages, q.HasTable config → q.Legible p config

section
variable {index : Index} {files : List SourceFile} {config : Config} {call : ClientCall}

theorem place_of_readCall {t : Typer} {op : ClientOp} {n : Node}
    (h : (t.readCall config op n).2 = some call) :
    call.file = t.file ∧ call.position = t.file.position call.node := by
  unfold Typer.readCall at h
  split at h
  · exact nomatch h
  · dsimp only at h
    split at h
    · exact nomatch h
    · obtain rfl := Option.some.inj h
      exact ⟨rfl, rfl⟩

theorem place_of_mem_calls (h : call ∈ (extractCalls index files config).2) :
    call.file ∈ files ∧ call.position = call.file.position call.node := by
  obtain ⟨_, hread, h⟩ := List.mem_filterMap.1 h
  obtain ⟨⟨t, op, n⟩, hmem, rfl⟩ := List.mem_map.1 hread
  obtain ⟨f, hf, hmem⟩ := List.mem_flatMap.1 hmem
  obtain ⟨decl, -, rfl, -, -⟩ := mem_clientCallsIn_iff.1 hmem
  obtain ⟨hfile, hplace⟩ := place_of_readCall h
  have hfile := hfile.trans (Typer.enclosing_file index f decl)
  exact ⟨hfile ▸ hf, by rw [hplace, hfile, Typer.enclosing_file]⟩

end

section
variable {p : Program} {config : Config} {q : Package} {m : Diagnostic} (hp : p.Parsed)
  (hpaths : ∀ f ∈ p.files, OneLine f.path.text) (hwritten : p.WrittenIn S)

section
variable {t : Typer} {key value : Node} {r : ServerRoute} {h : Handler}
  (hentry : (t, key, value) ∈ routeEntries (.build p) q.files config.library)

/-- The route of an accepted entry stands at the key, and its label is made of the words of the
key. -/
theorem exists_sameEntry_of_accepted
    (haccepted : (t.readEntry config key value).2 = .accepted r h) :
    ∃ method full, splitRouteKey? (t.fold key).render = some (method, full) ∧
      SameEntry (t.entryRoute config key method full) r := by
  unfold Typer.readEntry at haccepted
  simp only at haccepted
  split at haccepted
  · exact nomatch haccepted
  · next method full hsplit =>
    split at haccepted
    · exact nomatch haccepted
    · next handler _ =>
      have hkept := (replay_sane handler t.index config.library
        (t.entryRoute config key method full)).2
      unfold Typer.entryRoute at hkept
      split at haccepted
      · next heq =>
        obtain ⟨rfl, rfl⟩ := Entry.Outcome.accepted.injEq .. ▸ haccepted
        exact ⟨method, full, hsplit, hkept _ (congrArg Prod.snd heq)⟩
      · exact nomatch haccepted

theorem oneLine_of_accepted (haccepted : (t.readEntry config key value).2 = .accepted r h) :
    r.position.file = t.file.path ∧ OneLine r.label := by
  obtain ⟨method, full, hsplit, hsame⟩ := exists_sameEntry_of_accepted haccepted
  obtain ⟨hmethod, hpath⟩ := not_blank_of_splitRouteKey? hsplit config.serverPrefix
  refine ⟨congrArg Position.file hsame.position, ?_⟩
  rw [ServerRoute.label, hsame.method, hsame.path]
  exact .append (.append (oneLine_of_not_blank hmethod) (by decide)) (oneLine_of_not_blank hpath)

end

include hp hpaths hwritten

theorem Typer.EntryReport.lined {t : Typer} {key value : Node} (hq : q ∈ p.packages)
    (hentry : (t, key, value) ∈ routeEntries (.build p) q.files config.library)
    (h : t.EntryReport config key value m) : m.Lined S := by
  obtain ⟨hindex, hfile, hvalue⟩ := place_of_mem_routeEntries hentry
  have hfile := Program.mem_files_of_mem_packages hq hfile
  have hpath := hpaths _ hfile
  cases h with
  | invalid words => exact .of hpath (.append (by decide) (Text.oneLine_quoteList words))
  | unlocated => exact .of hpath (by decide)
  | repeated haccepted =>
    obtain ⟨hplace, hlabel⟩ := oneLine_of_accepted haccepted
    exact .of (hplace ▸ hpath) (.append (.append (by decide) hlabel) (by decide))
  | @replayed handler method full _ hhandler hreport =>
    have hin := in_of_handler? (hindex ▸ Index.located_build p) hfile hvalue hhandler
    have hpath := hpaths _ hin.file
    have hhandler := Program.spelledIn_of_mem_files hp hwritten hin.file
    cases hreport with
    | misshapen hmethod hrule => exact .of hpath (oneLine_misshapen hmethod hrule)
    | call hcalls hdraft hreport =>
      have htyper : (handler.typer t.index).SpelledIn S := by
        rw [hindex]
        exact Typer.spelledIn_enclosing (Program.spelledIn_index hp hwritten) hhandler handler.node
      have hargs : ∀ c ∈ handler.contextCalls (handler.typer t.index) config.library,
          ∀ a ∈ c.args, a.BelowIn S :=
        fun c hc => belowIn_of_mem_contextCalls hhandler hin hc
      rw [hcalls] at hargs
      obtain ⟨hbefore, hrest⟩ := List.forall_mem_append.1 hargs
      have hblank : (t.entryRoute config key method full).blank =
          t.entryRoute config key method full := ServerRoute.blank_new ..
      rw [← hblank] at hdraft
      refine hreport.lined ?_ htyper (List.forall_mem_cons.1 hrest).1
        (spelledIn_held htyper hbefore hdraft)
      rw [Handler.typer, Typer.enclosing_file]
      exact hpath

theorem oneLine_of_mem_routes {r : ServerRoute} (hq : q ∈ p.packages)
    (hr : r ∈ (extractRoutes (.build p) q.files config).2.table.routes) :
    OneLine r.position.file.text ∧ OneLine r.label ∧ r.SpelledIn S := by
  obtain ⟨t, key, value, h, hentry, haccepted⟩ := accepted_of_mem_routes hr
  obtain ⟨-, hfile, -⟩ := place_of_mem_routeEntries hentry
  obtain ⟨hplace, hlabel⟩ := oneLine_of_accepted haccepted
  have hpath := hpaths _ (Program.mem_files_of_mem_packages hq hfile)
  exact ⟨hplace ▸ hpath, hlabel, spelledIn_of_mem_routes hp hwritten hq hr⟩

theorem oneLine_of_mem_calls {call : ClientCall} (hq : q ∈ p.packages)
    (hcall : call ∈ (extractCalls (.build p) q.files config).2) :
    OneLine call.file.path.text ∧ OneLine call.position.file.text ∧ call.SpelledIn S := by
  obtain ⟨hfile, hplace⟩ := place_of_mem_calls hcall
  have hpath := hpaths _ (Program.mem_files_of_mem_packages hq hfile)
  refine ⟨hpath, ?_, spelledIn_of_mem_calls hp hwritten hq hcall⟩
  rw [hplace]
  exact hpath

/-- What is reported of a call, unless no route is for it. -/
theorem lined_treatment {before : List ClientCall} {call : ClientCall} (hq : q ∈ p.packages)
    (hcall : call ∈ (extractCalls (.build p) q.files config).2)
    (hm : m ∈ ((extractRoutes (.build p) q.files config).2.table.treatment before call).notes
      (.build p) call) :
    m.Lined S ∨ (extractRoutes (.build p) q.files config).2.table.Lacks call ∧ m = call.stray := by
  obtain ⟨hpath, hplace, hspelled⟩ := oneLine_of_mem_calls hp hpaths hwritten hq hcall
  cases htreated : RouteTable.treatment _ before call with
  | passedOver =>
    rw [htreated] at hm
    exact absurd hm List.not_mem_nil
  | undefined =>
    rw [htreated] at hm
    exact .inr ⟨RouteTable.treatment_eq_undefined_iff.1 htreated, List.mem_singleton.1 hm⟩
  | repeated route =>
    obtain ⟨-, hlabel, -⟩ := oneLine_of_mem_routes hp hpaths hwritten hq
      (RouteTable.mem_of_treatment (.inl htreated))
    rw [htreated] at hm
    rw [List.mem_singleton.1 hm]
    exact .inl (.of hplace (.append (.append (by decide) hlabel) (by decide)))
  | compared route =>
    obtain ⟨-, hlabel, hroute⟩ := oneLine_of_mem_routes hp hpaths hwritten hq
      (RouteTable.mem_of_treatment (.inr htreated))
    have htyper := Typer.spelledIn_enclosing (Program.spelledIn_index hp hwritten) hspelled.file
      call.node
    rw [htreated] at hm
    refine .inl ((report_compareCall m hm).lined ?_ hplace hlabel htyper hroute hspelled)
    rw [Typer.enclosing_file]
    exact hpath

theorem lined_of_mem_notes (hq : q ∈ p.packages) (hm : m ∈ q.notes (.build p) config) :
    m.Lined S ∨ ∃ call ∈ (extractCalls (.build p) q.files config).2,
      (extractRoutes (.build p) q.files config).2.table.Lacks call ∧ m = call.stray := by
  have hfile {f : SourceFile} (hf : f ∈ q.files) : OneLine f.path.text :=
    hpaths f (Program.mem_files_of_mem_packages hq hf)
  rcases (mem_notes_iff hq).1 hm with
    hm | hm | ⟨h, hh, hm⟩ | ⟨i, call, hcall, hm⟩ | ⟨r, hr, -, rfl⟩
  · obtain ⟨t, key, value, hentry, hreport⟩ := report_extractRoutes m hm
    exact .inl (hreport.lined hp hpaths hwritten hq hentry)
  · obtain ⟨f, hf, n, holes, supplied, rfl⟩ := report_extractCalls m hm
    exact .inl (.of (hfile hf) (oneLine_mismatchMessage holes supplied))
  · have hsound := sound_extractRoutes (Index.located_build p)
      (fun f hf => Program.mem_files_of_mem_packages hq hf) config
    rw [mem_distinctHandlers_iff hp.numbered hsound.handlers] at hh
    exact .inl (.inl ((report_checkHandler hm).oneLine (hpaths _ (hsound.handlers h hh).file)))
  · have hcall := List.mem_of_getElem? hcall
    exact (lined_treatment hp hpaths hwritten hq hcall hm).imp_right fun h => ⟨call, hcall, h⟩
  · obtain ⟨hplace, hlabel, -⟩ := oneLine_of_mem_routes hp hpaths hwritten hq hr
    exact .inl (.of hplace (.append (by decide) hlabel))

theorem lined_of_mem_report {report : Report} (h : checkProgram p config = .ok report)
    (hm : m ∈ report.diagnostics) :
    m.Lined S ∨ ∃ q ∈ p.packages, q.HasTable config ∧
      ∃ call ∈ (extractCalls (.build p) q.files config).2,
        (extractRoutes (.build p) q.files config).2.table.Lacks call ∧ m = call.stray := by
  obtain ⟨found, hfound, hmem⟩ := diagnostics_of_checkProgram h
  obtain ⟨q, hq, htable, hm⟩ := (hmem m).1 (Diagnostic.mem_of_mem_settle (hfound ▸ hm))
  exact (lined_of_mem_notes hp hpaths hwritten hq hm).imp_right fun h => ⟨q, hq, htable, h⟩

omit hwritten

/-- All reports are on one line just if those on calls that no route is for are, and the types that
reports are on. -/
theorem oneLine_of_mem_report_iff {report : Report} (h : checkProgram p config = .ok report) :
    (∀ m ∈ report.diagnostics, m.OneLine) ↔ p.Legible config ∧ report.UnbrokenTypes := by
  obtain ⟨found, hfound, hmem⟩ := diagnostics_of_checkProgram h
  constructor
  · intro honeLine
    refine ⟨fun q hq htable call hcall hlacks => ?_,
      fun m hm a b hcontrasts => hcontrasts.unbroken (honeLine m hm)⟩
    obtain ⟨i, hi⟩ := List.getElem?_of_mem hcall
    have hnote : call.stray ∈ q.notes (.build p) config := by
      refine (mem_notes_iff hq).2 (.inr (.inr (.inr (.inl ⟨i, call, hi, ?_⟩))))
      rw [RouteTable.treatment_eq_undefined_iff.2 hlacks]
      exact List.mem_singleton_self _
    have hmessage := Diagnostic.message_mem_settle ((hmem _).2 ⟨q, hq, htable, hnote⟩)
    rw [← hfound] at hmessage
    obtain ⟨m, hm, hmessage⟩ := List.mem_map.1 hmessage
    have hline := (Diagnostic.oneLine_iff.1 (honeLine m hm)).2
    rw [hmessage, ClientCall.stray, oneLine_append] at hline
    exact hline.2
  · rintro ⟨hlegible, htypes⟩ m hm
    rcases lined_of_mem_report hp hpaths p.writtenIn_any h hm with
      (hline | ⟨a, b, hcontrasts, hline, -⟩) | ⟨q, hq, htable, call, hcall, hlacks, rfl⟩
    · exact hline
    · obtain ⟨ha, hb⟩ := htypes m hm a b hcontrasts
      exact hline ha hb
    · obtain ⟨-, hplace, -⟩ := oneLine_of_mem_calls hp hpaths p.writtenIn_any hq hcall
      exact .of hplace (.append (by decide) (hlegible q hq htable call hcall hlacks))

/-- Types have line breaks only where the imports or the array types of the program do. -/
theorem unbrokenTypes_of_writtenIn {report : Report} (h : checkProgram p config = .ok report)
    (hwritten : p.WrittenIn .oneLine) : report.UnbrokenTypes := by
  intro m hm a b hcontrasts
  rcases lined_of_mem_report hp hpaths hwritten h hm with
    (hline | ⟨c, d, -, hline, hc, hd⟩) | ⟨q, -, -, call, -, -, rfl⟩
  · exact hcontrasts.unbroken hline
  · exact hcontrasts.unbroken (hline hc.unbroken hd.unbroken)
  · have hstray : Text.Begins ["Client references "] call.stray.message := .append (by decide) _
    exact (Text.begins_disjoint (by decide) hstray hcontrasts.begins).elim

end

/-! ## Texts -/

/-- The text of a report has one line for each diagnostic just if the label of each call that no
route is for, its method and its path, has no line break, and neither has a type that a diagnostic
is on. The types have none where the names of the packages that the program imports and the lengths
of its array types have none. -/
theorem text_lines_iff {p : Program} {config : Config} {report : Report} (hp : p.Parsed)
    (hpaths : ∀ f ∈ p.files, OneLine f.path.text) (h : checkProgram p config = .ok report) :
    (Text.split '\n' (Format.text.render report.diagnostics) =
        report.diagnostics.map Diagnostic.render ++ [""] ↔
      p.Legible config ∧ report.UnbrokenTypes) ∧
    ((Text.split '\n' (Format.text.render report.diagnostics)).length =
        report.diagnostics.length + 1 ↔ p.Legible config ∧ report.UnbrokenTypes) ∧
    (p.WrittenIn .oneLine → report.UnbrokenTypes) := by
  have hrender : Format.text.render report.diagnostics =
      String.join ((report.diagnostics.map Diagnostic.render).map (· ++ "\n")) := by
    rw [List.map_map]
    rfl
  have honeLine : (∀ s ∈ report.diagnostics.map Diagnostic.render, OneLine s) ↔
      p.Legible config ∧ report.UnbrokenTypes := by
    rw [List.forall_mem_map]
    exact oneLine_of_mem_report_iff hp hpaths h
  refine ⟨?_, ?_, unbrokenTypes_of_writtenIn hp hpaths h⟩
  · rw [← honeLine, ← Text.split_lines_eq_iff, ← hrender]
  · rw [← honeLine, ← Text.length_split_lines_eq_iff, ← hrender, List.length_map]

instance (p : Program) : Decidable (p.WrittenIn .oneLine) :=
  decidable_of_iff ((∀ f ∈ p.files, ∀ i ∈ f.imports, OneLine i.2) ∧
    ∀ f ∈ p.files, ∀ m ∈ f.tree.all, m.kind = .arrayType → ∀ l ∈ m.field? .length, OneLine l.text)
    ⟨fun h => ⟨h.1, h.2⟩, fun h => ⟨h.imports, h.lengths⟩⟩

/-- What is reported of a sample file: the texts of the diagnostics, and the lines of all of it. -/
def SourceFile.reported? (f : SourceFile) : Option (List String × List String) :=
  (checkProgram ⟨[f]⟩ {}).toOption.map fun r =>
    (r.diagnostics.map Diagnostic.render, Text.split '\n' (Format.text.render r.diagnostics))

theorem exists_of_reported? {f : SourceFile} {reported : List String × List String}
    (h : f.reported? = some reported) :
    ∃ report, checkProgram ⟨[f]⟩ {} = .ok report ∧
      report.diagnostics.map Diagnostic.render = reported.1 ∧
      Text.split '\n' (Format.text.render report.diagnostics) = reported.2 := by
  obtain ⟨report, hreport, rfl⟩ := Option.map_eq_some_iff.1 h
  cases hcheck : checkProgram ⟨[f]⟩ {} with
  | error e => simp [hcheck, Except.toOption] at hreport
  | ok r =>
    obtain rfl : r = report := by simpa [hcheck, Except.toOption] using hreport
    exact ⟨r, rfl, rfl, rfl⟩

/-- A route, and calls of it and of one that there is not. -/
def strayCall : List String :=
  ["var routes = map[string]jape.Handler\x7b",
    "\"DELETE /foo\": func(jc jape.Context) \x7b\x7d\x7d",
    "func drop(c *jape.Client) \x7b c.DELETE(\"/foo\"); c.DELETE(\"/bar\") \x7d"]

theorem reported_strayCall : OneLine (SourceFile.sample strayCall).path.text ∧
    (Program.mk [.sample strayCall]).WrittenIn .oneLine ∧
    (∀ q ∈ (Program.mk [.sample strayCall]).packages,
      ∀ call ∈ (extractCalls (.build ⟨[.sample strayCall]⟩) q.files {}).2, OneLine call.label) ∧
    ((SourceFile.sample strayCall).reported?.map (·.1)) =
      some ["api/api.go:5:47: Client references route not defined by server: DELETE /bar"] := by
  simp only [strayCall, SourceFile.sample_eq, SourceFile.chars, String.reduceToList]
  decide +kernel

/-- The report on the call has one line. -/
theorem text_lines_iff_stray : ∃ sources p report, Program.ofSources sources = .ok p ∧
    (∀ f ∈ p.files, OneLine f.path.text) ∧ checkProgram p {} = .ok report ∧
      p.Legible {} ∧ report.UnbrokenTypes ∧
        Text.split '\n' (Format.text.render report.diagnostics) =
          ["api/api.go:5:47: Client references route not defined by server: DELETE /bar", ""] := by
  obtain ⟨hpath, hwritten, hlabels, hreported⟩ := reported_strayCall
  obtain ⟨reported, hreported, htexts⟩ := Option.map_eq_some_iff.1 hreported
  obtain ⟨report, hreport, hdiagnostics, -⟩ := exists_of_reported? hreported
  have hp := Program.ofSources_sample strayCall
  have hpaths : ∀ f ∈ (Program.mk [.sample strayCall]).files, OneLine f.path.text :=
    List.forall_mem_singleton.2 hpath
  have hlegible : (Program.mk [.sample strayCall]).Legible {} :=
    fun q hq _ call hcall _ => hlabels q hq call hcall
  obtain ⟨hlines, -, htypes⟩ := text_lines_iff (Program.parsed_ofSources hp) hpaths hreport
  refine ⟨_, _, report, hp, hpaths, hreport, hlegible, htypes hwritten, ?_⟩
  rw [hlines.2 ⟨hlegible, htypes hwritten⟩, hdiagnostics, htexts]
  rfl

/-- A call of a path with a line break. -/
def brokenPath : List String :=
  ["var routes = map[string]jape.Handler\x7b",
    "\"DELETE /foo\": func(jc jape.Context) \x7b\x7d\x7d",
    "func drop(c *jape.Client) \x7b c.DELETE(\"/foo\\n\"); c.DELETE(\"/foo\") \x7d"]

/-- A call with an array whose length stands on two lines, of a route that decodes a type of a
package that has a line break in its name. -/
def brokenTypes : List String :=
  ["import x \"a/b\\nc\"", "var routes = map[string]jape.Handler\x7b",
    "\"PUT /foo\": func(jc jape.Context) \x7b var y x.Y; jc.Decode(&y) \x7d\x7d",
    "func put(c *jape.Client) \x7b c.PUT(\"/foo\", [1 +", "1]int\x7b\x7d) \x7d"]

theorem exists_of_broken {lines texts : List String}
    (h : (SourceFile.sample lines).reported?.map (fun r => (r.1.length, r.2)) = some (1, texts)) :
    ∃ sources p report, Program.ofSources sources = .ok p ∧
      (∀ source ∈ sources, OneLine source.1.text) ∧ checkProgram p {} = .ok report ∧
        report.diagnostics.length = 1 ∧
          Text.split '\n' (Format.text.render report.diagnostics) = texts := by
  obtain ⟨reported, hreported, heq⟩ := Option.map_eq_some_iff.1 h
  obtain ⟨hone, hlines⟩ := Prod.mk.inj heq
  obtain ⟨report, hreport, hdiagnostics, htext⟩ := exists_of_reported? hreported
  have hlength : report.diagnostics.length = 1 := by
    rw [← hone, ← hdiagnostics, List.length_map]
  exact ⟨_, _, report, Program.ofSources_sample lines,
    List.forall_mem_singleton.2 (show OneLine "api/api.go" by decide), hreport, hlength,
    htext.trans hlines⟩

theorem reported_brokenPath :
    (SourceFile.sample brokenPath).reported?.map (fun r => (r.1.length, r.2)) = some (1,
      ["api/api.go:5:29: Client references route not defined by server: DELETE /foo", "", ""]) := by
  simp only [brokenPath, SourceFile.sample_eq, SourceFile.chars, String.reduceToList]
  decide +kernel

theorem reported_brokenTypes :
    (SourceFile.sample brokenTypes).reported?.map (fun r => (r.1.length, r.2)) = some (1,
      ["api/api.go:6:42: Client has wrong request type for PUT /foo (got [1 +",
        "1]int, should be b", "c.Y)", ""]) := by
  simp only [brokenTypes, SourceFile.sample_eq, SourceFile.chars, String.reduceToList]
  decide +kernel

/-- One diagnostic can have two lines in the text and more, although no path of a file has a line
break. -/
theorem text_lines_broken :
    (∃ sources p report, Program.ofSources sources = .ok p ∧
      (∀ source ∈ sources, OneLine source.1.text) ∧ checkProgram p {} = .ok report ∧
        report.diagnostics.length = 1 ∧ Text.split '\n' (Format.text.render report.diagnostics) =
          ["api/api.go:5:29: Client references route not defined by server: DELETE /foo", "",
            ""]) ∧
    ∃ sources p report, Program.ofSources sources = .ok p ∧
      (∀ source ∈ sources, OneLine source.1.text) ∧ checkProgram p {} = .ok report ∧
        report.diagnostics.length = 1 ∧ Text.split '\n' (Format.text.render report.diagnostics) =
          ["api/api.go:6:42: Client has wrong request type for PUT /foo (got [1 +",
            "1]int, should be b", "c.Y)", ""] :=
  ⟨exists_of_broken reported_brokenPath, exists_of_broken reported_brokenTypes⟩

end RouteCheck
