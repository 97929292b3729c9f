import RouteCheck.Proofs.Check.Carried
import RouteCheck.Proofs.Check.Missing
import RouteCheck.Proofs.Types.Written

/-!
Whether a message on a wrong type shows the difference.

An argument of a call is compared with the type that a route holds, and where the two are known and
differ the message prints both. The message on a response names what the two types point to, not the
types themselves, so that a pointer and what it points to look alike; every other message names the
types that were compared, and different types have different texts (`Ty.render_inj`).

Main statements:
  1. `spelled_of_mem_routes`, `spelled_of_mem_calls`: the types of routes and calls are spelled as a
     source spells them.
  2. `report_compareCall`: all that is reported of a call that is compared with a route;
     `mem_compareCall_of_isWrongType`: where a message on a wrong type comes from.
  3. `named_eq_iff`: the types that a message names are the same only for a response.
  4. `wrong_type_texts`: which messages print one text twice.
-/

namespace RouteCheck

/-! ## Types of routes and arguments of calls -/

/-- The types that the route holds are spelled as a source spells them. -/
structure ServerRoute.Spelled (r : ServerRoute) : Prop where
  request : r.request.Spelled
  response : r.response.Spelled
  params : ∀ p ∈ r.pathParams, ∀ ty ∈ p.ty, ty.Spelled
  queries : ∀ key, ∀ ty ∈ r.query? key, ty.Spelled

/-- The arguments that a call is read with stand in the tree of its file. -/
structure ClientCall.Spelled (c : ClientCall) : Prop where
  file : c.file.Spelled
  request : ∀ n ∈ c.request, n.Below
  response : ∀ n ∈ c.response, n.Below
  path : ∀ n, some n ∈ c.pathParams → n.Below
  query : ∀ key n, (key, some n) ∈ c.queryParams → n.Below

section
variable {p : Program} {config : Config} {q : Package} (hp : p.Parsed)
  (himports : p.PlainImports) (hq : q ∈ p.packages)
include hp himports hq

theorem spelled_of_mem_routes {r : ServerRoute}
    (hr : r ∈ (extractRoutes (.build p) q.files config).2.table.routes) : r.Spelled := by
  have h := spelledIn_of_mem_routes hp (Program.writtenIn_plain hp himports) hq hr
  exact ⟨Ty.spelledIn_plain.1 h.request, Ty.spelledIn_plain.1 h.response,
    fun param hparam ty hty => Ty.spelledIn_plain.1 (h.params param hparam ty hty),
    fun key ty hty => Ty.spelledIn_plain.1 (h.queries key ty hty)⟩

theorem spelled_of_mem_calls {c : ClientCall}
    (hc : c ∈ (extractCalls (.build p) q.files config).2) : c.Spelled := by
  have h := spelledIn_of_mem_calls hp (Program.writtenIn_plain hp himports) hq hc
  exact ⟨SourceFile.spelledIn_plain.1 h.file, fun n hn => (h.request n hn).below,
    fun n hn => (h.response n hn).below, fun n hn => (h.path n hn).below,
    fun key n hn => (h.query key n hn).below⟩

end

/-! ## Messages -/

/-- The diagnostic says that an argument of a call has a wrong type. -/
def Diagnostic.IsWrongType (d : Diagnostic) : Prop := Text.Begins ["Client has wrong "] d.message

/-- What of a call may have a wrong type. -/
inductive CallPart where
  | request
  | response
  | pathParam (name : String)
  | queryParam (name : String)
  deriving DecidableEq

namespace CallPart

/-- What a message on the part begins with. -/
def lead (route : ServerRoute) : CallPart → String
  | request => "Client has wrong request type for " ++ route.label
  | response => "Client has wrong response type for " ++ route.label
  | pathParam name => "Client has wrong type for path parameter " ++ Text.quote name
  | queryParam name => "Client has wrong type for query parameter " ++ Text.quote name

/-- The type that a message on the part names: of a response, what its type points to. -/
def named : CallPart → Ty → Ty
  | response, ty => ty.elem
  | _, ty => ty

/-- What is said of a part that has one type where another is wanted. -/
def message (route : ServerRoute) (part : CallPart) (got want : Ty) : String :=
  part.lead route ++ " " ++ gotWant (part.named got) (part.named want)

theorem message_eq (route : ServerRoute) (part : CallPart) (got want : Ty) :
    part.message route got want = part.lead route ++ " (got " ++ (part.named got).render ++
      ", should be " ++ (part.named want).render ++ ")" := by
  have hopen : " (got " = " " ++ "(got " := by decide
  rw [message, gotWant, hopen]
  simp only [String.append_assoc]

end CallPart

/-- The argument of a call for a part, and the type that the route wants of it. -/
inductive Wanted (route : ServerRoute) (call : ClientCall) : CallPart → Node → Ty → Prop
  | request {n : Node} (hn : call.request = some n) :
    Wanted route call .request n route.request.elem
  | response {n : Node} (hn : call.response = some n) :
    Wanted route call .response n route.response.ptrOrNil
  | pathParam {i : Nat} {p : PathParam} {n : Node} {ty : Ty} (hp : route.pathParams[i]? = some p)
    (hn : call.pathParams[i]? = some (some n)) (hty : p.ty = some ty) :
    Wanted route call (.pathParam p.name) n ty.elem
  | queryParam {name : String} {n : Node} {ty : Ty} (hn : (name, some n) ∈ call.queryParams)
    (hty : route.query? name = some ty) : Wanted route call (.queryParam name) n ty.elem

/-- The diagnostic is on an argument whose type is known and not the one that is wanted. -/
structure Differs (t : Typer) (route : ServerRoute) (call : ClientCall) (d : Diagnostic)
    (part : CallPart) (n : Node) (want : Ty) : Prop where
  wanted : Wanted route call part n want
  ne : t.typeOf n ≠ want
  eq : d = ⟨t.file.position n, part.message route (t.typeOf n) want⟩

/-- What can be reported of a call that is compared with a route. -/
inductive CompareReport (t : Typer) (route : ServerRoute) (call : ClientCall) : Diagnostic → Prop
  | few : CompareReport t route call
      ⟨call.position, "Client has too few path parameters for " ++ route.label⟩
  | undefined (name : String) (arg : Option Node) : CompareReport t route call
      ⟨arg.elim call.position t.file.position,
        "Client references undefined query parameter " ++ Text.quote name⟩
  | differs {d : Diagnostic} {part : CallPart} {n : Node} {want : Ty}
      (h : Differs t route call d part n want) : CompareReport t route call d

section
variable {t : Typer} {route : ServerRoute} {call : ClientCall} {d : Diagnostic} {part : CallPart}
  {n : Node} {want : Ty}

theorem report_compareTypes {message : String} (hwanted : Wanted route call part n want)
    (hmessage : message = part.message route (t.typeOf n) want) :
    ∀ d ∈ compareTypes t n (t.typeOf n) want message, CompareReport t route call d := by
  unfold compareTypes
  split
  · exact nofun
  · next hdiffers =>
    simp only [Bool.or_eq_true, not_or, Bool.not_eq_true] at hdiffers
    obtain ⟨⟨hgot, -⟩, hne⟩ := hdiffers
    have hne : t.typeOf n ≠ want := fun heq =>
      absurd (Ty.identical_iff.2 ⟨hgot, heq⟩) (by simp [hne])
    rw [hmessage]
    exact List.forall_mem_singleton.2 (.differs ⟨hwanted, hne, rfl⟩)

theorem report_compareSlot {i : Nat} {p : PathParam} {arg : Option Node}
    (hp : route.pathParams[i]? = some p) (harg : call.pathParams[i]? = some arg) :
    ∀ d ∈ compareSlot t arg p, CompareReport t route call d := by
  unfold compareSlot
  split
  · next hty => exact report_compareTypes (.pathParam hp harg hty) rfl
  · exact List.forall_mem_nil _

/-- What is said of the path is said of one of its slots, or that there are too few; by induction on
the parameters from the `i`-th on. -/
theorem report_comparePath {i : Nat} {ps : List PathParam} {args : List (Option Node)}
    (hps : route.pathParams.drop i = ps) (hargs : call.pathParams.drop i = args) :
    ∀ d ∈ comparePath t route call ps args, CompareReport t route call d := by
  induction ps generalizing i args with
  | nil => exact nofun
  | cons p ps ih =>
    cases args with
    | nil => exact List.forall_mem_singleton.2 .few
    | cons arg args =>
      have hhead {α : Type} {as bs : List α} {a : α} (h : as.drop i = a :: bs) :
          as[i]? = some a := by
        rw [← List.head?_drop, h, List.head?_cons]
      have htail {α : Type} {as bs : List α} {a : α} (h : as.drop i = a :: bs) :
          as.drop (i + 1) = bs := by
        rw [← List.tail_drop, h, List.tail_cons]
      exact List.forall_mem_append.2
        ⟨report_compareSlot (hhead hps) (hhead hargs), ih (htail hps) (htail hargs)⟩

theorem report_compareQuery {name : String} {arg : Option Node}
    (hmem : (name, arg) ∈ call.queryParams) :
    ∀ d ∈ compareQuery t route call name arg, CompareReport t route call d := by
  unfold compareQuery
  split
  · exact List.forall_mem_singleton.2 (.undefined name _)
  · exact nofun
  · next hty => exact report_compareTypes (.queryParam hmem hty) rfl

/-- All that is reported of a call that is compared with a route. -/
theorem report_compareCall {index : Index} : ∀ d ∈ compareCall index route call,
    CompareReport (.enclosing index call.file call.node) route call d := by
  refine List.forall_mem_append.2 ⟨List.forall_mem_append.2 ⟨List.forall_mem_append.2 ⟨?_, ?_⟩,
    report_comparePath (i := 0) rfl rfl⟩, fun d hd => ?_⟩
  · unfold compareRequest
    split
    · exact List.forall_mem_nil _
    · next hn => exact report_compareTypes (.request hn) rfl
  · unfold compareResponse
    split
    · exact List.forall_mem_nil _
    · next hn => exact report_compareTypes (.response hn) rfl
  · obtain ⟨⟨name, arg⟩, hmem, hd⟩ := List.mem_flatMap.1 hd
    exact report_compareQuery hmem d hd

/-- A message on a wrong type comes from an argument that has another type than is wanted. -/
theorem mem_compareCall_of_isWrongType {index : Index} (hd : d ∈ compareCall index route call)
    (hwrong : d.IsWrongType) :
    ∃ part n want, Differs (.enclosing index call.file call.node) route call d part n want := by
  cases report_compareCall d hd with
  | few =>
    have hfew : Text.Begins ["Client has too "] "Client has too few path parameters for " := by
      decide
    exact absurd hwrong (Text.begins_disjoint (by decide) (hfew.append _))
  | undefined name arg =>
    have hundefined : Text.Begins ["Client references "]
      "Client references undefined query parameter " := by decide
    exact absurd hwrong (Text.begins_disjoint (by decide) (hundefined.append _))
  | differs h => exact ⟨_, _, _, h⟩

theorem Ty.elem_eq_elem_ptrOrNil_iff {got ty : Ty} (hne : got ≠ ty.ptrOrNil) :
    got.elem = ty.ptrOrNil.elem ↔
      got.isPointer = false ∧ got = ty ∨ ty = .untypedNil ∧ got = .pointer .untypedNil := by
  by_cases hnil : ty = .untypedNil
  · subst hnil
    cases got with
    | pointer got => simp [elem, ptrOrNil, isPointer]
    | _ => simp_all [elem, ptrOrNil, isPointer]
  · have hpointer : ty.ptrOrNil = .pointer ty := by cases ty <;> simp_all [ptrOrNil]
    rw [hpointer] at hne ⊢
    cases got with
    | pointer got =>
      have hne : got ≠ ty := fun heq => hne (congrArg pointer heq)
      simp [elem, isPointer, hnil, hne]
    | _ => simp [elem, isPointer, hnil]

/-- What the message names is the same only for a response: a value of the type that is to be
pointed to, or a pointer to nil where there is no response. -/
theorem named_eq_iff (h : Differs t route call d part n want) :
    part.named (t.typeOf n) = part.named want ↔ part = .response ∧
      ((t.typeOf n).isPointer = false ∧ t.typeOf n = route.response ∨
        route.response = .untypedNil ∧ t.typeOf n = .pointer .untypedNil) := by
  obtain ⟨hwanted, hne, -⟩ := h
  cases hwanted with
  | request | pathParam | queryParam => exact ⟨fun heq => absurd heq hne, fun h => nomatch h.1⟩
  | response hn =>
    rw [and_iff_right rfl]
    exact Ty.elem_eq_elem_ptrOrNil_iff hne

/-- Types that are spelled as a source spells them have one text only if they are one type. -/
theorem render_named_eq_iff (ht : t.Spelled) (hroute : route.Spelled) (hcall : call.Spelled)
    (hwanted : Wanted route call part n want) :
    (part.named (t.typeOf n)).render = (part.named want).render ↔
      part.named (t.typeOf n) = part.named want := by
  have hnamed {ty : Ty} (hty : ty.Spelled) : (part.named ty).Spelled := by
    cases part with
    | response => exact hty.elem
    | _ => exact hty
  have hboth : n.Below ∧ want.Spelled := by
    cases hwanted with
    | request hn => exact ⟨hcall.request n hn, hroute.request.elem⟩
    | response hn => exact ⟨hcall.response n hn, hroute.response.ptrOrNil⟩
    | pathParam hp hn hty =>
      exact ⟨hcall.path n (List.mem_of_getElem? hn),
        (hroute.params _ (List.mem_of_getElem? hp) _ hty).elem⟩
    | queryParam hn hty => exact ⟨hcall.query _ n hn, (hroute.queries _ _ hty).elem⟩
  exact ⟨Ty.render_inj (hnamed (ht.typeOf hboth.1)) (hnamed hboth.2), fun heq => by rw [heq]⟩

end

section
variable {p : Program} {config : Config} {report : Report} {q : Package} {d : Diagnostic}

/-- Only comparing a call with the route that has its key speaks of wrong types. -/
theorem exists_compareCall_of_isWrongType (hq : q ∈ p.packages)
    (hd : d ∈ q.notes (.build p) config) (hwrong : d.IsWrongType) :
    ∃ call ∈ (extractCalls (.build p) q.files config).2,
      ∃ route ∈ (extractRoutes (.build p) q.files config).2.table.routes,
        route.key = call.key ∧ d ∈ compareCall (.build p) route call := by
  have hother {leads : List String} {notes : List Diagnostic} (hled : Led leads notes)
      (hclash : ∀ a ∈ leads, ∀ b ∈ ["Client has wrong "], Text.clash a.toList b.toList = true)
      (hd : d ∈ notes) : False := Text.begins_disjoint hclash (hled d hd) hwrong
  rcases (mem_notes_iff hq).1 hd with
    hd | hd | ⟨h, -, hd⟩ | ⟨i, call, hcall, hd⟩ | ⟨r, -, -, rfl⟩
  · exact (hother (led_extractRoutes _ _ _) (by decide) hd).elim
  · exact (hother (led_extractCalls _ _ _) (by decide) hd).elim
  · exact (hother (led_checkHandler _ _ h) (by decide) hd).elim
  · have hcall := List.mem_of_getElem? hcall
    generalize htreated : RouteTable.treatment _ _ call = treatment at hd
    cases treatment with
    | passedOver => exact absurd hd List.not_mem_nil
    | undefined =>
      obtain rfl := List.mem_singleton.1 hd
      have hreferences : Text.Begins ["Client references "]
        "Client references route not defined by server: " := by decide
      exact absurd hwrong (Text.begins_disjoint (by decide) (hreferences.append _))
    | repeated route =>
      obtain rfl := List.mem_singleton.1 hd
      have hreferences : Text.Begins ["Client references "] "Client references " := by decide
      exact absurd hwrong
        (Text.begins_disjoint (by decide) ((hreferences.append _).append _))
    | compared route =>
      obtain ⟨-, hroute, -⟩ := RouteTable.treatment_eq_compared_iff.1 htreated
      obtain ⟨hmem, hkey⟩ := RouteTable.get?_mem hroute
      exact ⟨call, hcall, route, hmem, hkey, hd⟩
  · have hmissing : Text.Begins ["Client missing "] "Client missing method for " := by decide
    exact absurd hwrong (Text.begins_disjoint (by decide) (hmissing.append _))

/-- Where the packages that a program imports have names of packages, a message on a wrong type of a
request, a path parameter or a query parameter prints two different texts. So does one of a
response, unless the argument is a value of the type that it should point to, or a pointer to nil
where there is no response. -/
theorem wrong_type_texts (hp : p.Parsed) (himports : p.PlainImports)
    (h : checkProgram p config = .ok report) (hd : d ∈ report.diagnostics)
    (hwrong : d.IsWrongType) :
    ∃ q ∈ p.packages, ∃ call ∈ (extractCalls (.build p) q.files config).2,
      ∃ route ∈ (extractRoutes (.build p) q.files config).2.table.routes, route.key = call.key ∧
        ∃ part n want, Wanted route call part n want ∧
          let got := (Typer.enclosing (.build p) call.file call.node).typeOf n
          d = ⟨call.file.position n, part.lead route ++ " (got " ++ (part.named got).render ++
            ", should be " ++ (part.named want).render ++ ")"⟩ ∧
          ((part.named got).render = (part.named want).render ↔ part = .response ∧
            (got.isPointer = false ∧ got = route.response ∨
              route.response = .untypedNil ∧ got = .pointer .untypedNil)) := by
  obtain ⟨found, hfound, hmem⟩ := diagnostics_of_checkProgram h
  obtain ⟨q, hq, -, hd⟩ := (hmem d).1 (Diagnostic.mem_of_mem_settle (hfound ▸ hd))
  obtain ⟨call, hcall, route, hroute, hkey, hd⟩ := exists_compareCall_of_isWrongType hq hd hwrong
  obtain ⟨part, n, want, hdiffers⟩ := mem_compareCall_of_isWrongType hd hwrong
  refine ⟨q, hq, call, hcall, route, hroute, hkey, part, n, want, hdiffers.wanted, ?_, ?_⟩
  · rw [hdiffers.eq, Typer.enclosing_file, CallPart.message_eq]
  · have hcall := spelled_of_mem_calls hp himports hq hcall
    have htyper := Typer.spelled_enclosing (Program.spelled_index hp himports) hcall.file call.node
    rw [render_named_eq_iff htyper (spelled_of_mem_routes hp himports hq hroute) hcall
      hdiffers.wanted]
    exact named_eq_iff hdiffers

end

/-- What is reported of a sample file, and whether it imports packages with names of packages. -/
def SourceFile.checked? (f : SourceFile) : Option (List String × Bool) :=
  (checkProgram ⟨[f]⟩ {}).toOption.map fun r =>
    (r.diagnostics.map (·.message), Program.PlainImports ⟨[f]⟩)

theorem exists_of_checked? {lines messages : List String} {plain : Bool}
    (h : (SourceFile.sample lines).checked? = some (messages, plain)) :
    ∃ sources p report, Program.ofSources sources = .ok p ∧ checkProgram p {} = .ok report ∧
      report.diagnostics.map (·.message) = messages ∧ (p.PlainImports ↔ plain = true) := by
  cases hreport : checkProgram ⟨[.sample lines]⟩ {} with
  | error e => simp [SourceFile.checked?, hreport, Except.toOption] at h
  | ok report =>
    obtain ⟨hmessages, hplain⟩ : report.diagnostics.map (·.message) = messages ∧
        decide (Program.PlainImports ⟨[.sample lines]⟩) = plain := by
      simpa [SourceFile.checked?, hreport, Except.toOption] using h
    exact ⟨_, _, report, Program.ofSources_sample lines, hreport, hmessages, by simp [← hplain]⟩

/-- A route that decodes a name, and a call that sends a number. -/
def mistyped : List String :=
  ["var routes = map[string]jape.Handler\x7b",
    "\"PUT /name\": func(jc jape.Context) \x7b var name string; jc.Decode(&name) \x7d\x7d",
    "func rename(c *jape.Client, n int) \x7b c.PUT(\"/name\", n) \x7d"]

theorem checked_mistyped : (SourceFile.sample mistyped).checked? =
    some (["Client has wrong request type for PUT /name (got int, should be string)"], true) := by
  simp only [mistyped, SourceFile.sample_eq, SourceFile.chars, String.reduceToList]
  decide +kernel

/-- The message on the number prints two different texts. -/
theorem wrong_type_texts_mistyped : ∃ sources p report, Program.ofSources sources = .ok p ∧
    p.PlainImports ∧ checkProgram p {} = .ok report ∧ ∃ d ∈ report.diagnostics, d.IsWrongType ∧
      d.message = "Client has wrong request type for PUT /name (got int, should be string)" ∧
      ∃ q ∈ p.packages, ∃ call ∈ (extractCalls (.build p) q.files {}).2,
        ∃ route ∈ (extractRoutes (.build p) q.files {}).2.table.routes, route.key = call.key ∧
          ∃ part n want, Wanted route call part n want ∧
            let got := (Typer.enclosing (.build p) call.file call.node).typeOf n
            d = ⟨call.file.position n, part.lead route ++ " (got " ++ (part.named got).render ++
              ", should be " ++ (part.named want).render ++ ")"⟩ ∧
            (part.named got).render ≠ (part.named want).render := by
  obtain ⟨sources, p, report, hsources, hreport, hmessages, hplain⟩ :=
    exists_of_checked? checked_mistyped
  have himports := hplain.2 rfl
  obtain ⟨d, hd, hmessage⟩ := List.mem_map.1 (hmessages ▸ List.mem_singleton_self _)
  have hwrong : d.IsWrongType := by
    rw [Diagnostic.IsWrongType, hmessage]
    decide
  obtain ⟨q, hq, call, hcall, route, hroute, hkey, part, n, want, hwanted, htext, hsame⟩ :=
    wrong_type_texts (Program.parsed_ofSources hsources) himports hreport hd hwrong
  refine ⟨sources, p, report, hsources, himports, hreport, d, hd, hwrong, hmessage, q, hq, call,
    hcall, route, hroute, hkey, part, n, want, hwanted, htext, fun heq => ?_⟩
  obtain ⟨rfl, -⟩ := hsame.1 heq
  have hlead : Text.Begins ["Client has wrong response "] d.message := by
    rw [htext]
    exact (((((Text.Begins.append (by decide) _).append _).append _).append _).append _).append _
  rw [hmessage] at hlead
  exact absurd hlead (by decide)

/-- A call that gives a value where the response is to be stored. -/
def unpointed : List String :=
  ["var routes = map[string]jape.Handler\x7b",
    "\"GET /foo\": func(jc jape.Context) \x7b var foo Foo; jc.Encode(foo) \x7d\x7d",
    "func get(c *jape.Client, foo Foo) \x7b c.GET(\"/foo\", foo) \x7d"]

theorem checked_unpointed : (SourceFile.sample unpointed).checked? =
    some (["Client has wrong response type for GET /foo (got api.Foo, should be api.Foo)"],
      true) := by
  simp only [unpointed, SourceFile.sample_eq, SourceFile.chars, String.reduceToList]
  decide +kernel

/-- A route that decodes a type of a package with a star in its name, and a call that sends a
pointer to a type of this one. -/
def starred : List String :=
  ["import x \"*api\"", "var routes = map[string]jape.Handler\x7b",
    "\"PUT /foo\": func(jc jape.Context) \x7b var foo x.Foo; jc.Decode(&foo) \x7d\x7d",
    "func put(c *jape.Client, foo Foo) \x7b c.PUT(\"/foo\", &foo) \x7d"]

theorem checked_starred : (SourceFile.sample starred).checked? =
    some (["Client has wrong request type for PUT /foo (got *api.Foo, should be *api.Foo)"],
      false) := by
  simp only [starred, SourceFile.sample_eq, SourceFile.chars, String.reduceToList]
  decide +kernel

/-- A message on a response names what its types point to, and so can print one text twice. One on a
request can where the name of a package that is imported has a star. -/
theorem wrong_type_texts_alike :
    (∃ sources p report, Program.ofSources sources = .ok p ∧ checkProgram p {} = .ok report ∧
      report.diagnostics.map (·.message) =
        ["Client has wrong response type for GET /foo (got api.Foo, should be api.Foo)"] ∧
      p.PlainImports) ∧
    ∃ sources p report, Program.ofSources sources = .ok p ∧ checkProgram p {} = .ok report ∧
      report.diagnostics.map (·.message) =
        ["Client has wrong request type for PUT /foo (got *api.Foo, should be *api.Foo)"] ∧
      ¬ p.PlainImports := by
  obtain ⟨sources, p, report, hsources, hreport, hmessages, hplain⟩ :=
    exists_of_checked? checked_unpointed
  obtain ⟨sources', p', report', hsources', hreport', hmessages', hplain'⟩ :=
    exists_of_checked? checked_starred
  exact ⟨⟨sources, p, report, hsources, hreport, hmessages, hplain.2 rfl⟩,
    sources', p', report', hsources', hreport', hmessages', fun h => nomatch hplain'.1 h⟩

end RouteCheck
