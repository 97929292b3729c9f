import RouteCheck.Proofs.Check.Calls
import RouteCheck.Proofs.Check.Offers
import RouteCheck.Proofs.Types.Fillers
import RouteCheck.Proofs.Types.Scripts

/-!
The types of routes and the arguments of calls, as far as a program is written in a script.

A route holds types that the calls of its handler offer, and these are types of expressions of the
program. A client call is read with arguments that stand in the tree of its file.

Main statements:
  1. `spelledIn_offered`, `spelledIn_held`: what calls offer to a slot, and what it holds after
     them.
  2. `spelledIn_of_mem_routes`: the types that a route holds.
  3. `spelledIn_of_mem_calls`: the arguments of a client call.
-/

namespace RouteCheck

/-! ## Types of routes -/

variable {S : Script}

theorem mem_of_settled {ts : List Ty} {ty : Ty} (h : settled ts = some ty) : ty ∈ ts := by
  rcases Option.or_eq_some_iff.1 h with h | ⟨-, h⟩
  · exact List.mem_of_find?_eq_some h
  · exact List.mem_of_getLast? h

theorem Ty.eq_of_target? {ty ty' : Ty} (h : ty.target? = some ty') : ty = ty' := by
  unfold target? at h
  split at h
  · exact Option.some.inj h
  · exact nomatch h

section
variable {t : Typer} {params : List String} {slot : Slot} {c : ContextCall}

theorem ContextCall.spelledIn_offer? (ht : t.SpelledIn S) (hargs : ∀ a ∈ c.args, a.BelowIn S) :
    ∀ ty ∈ c.offer? t params slot, ty.SpelledIn S := by
  obtain ⟨op, call, args⟩ := c
  have htarget {a : Node} (ha : a.BelowIn S) : ∀ ty ∈ (t.typeOf a).target?, ty.SpelledIn S :=
    fun ty hty => Ty.eq_of_target? hty ▸ ht.typeOf ha
  have hchoice {p : Prop} [Decidable p] {o : Option Ty} (ho : ∀ ty ∈ o, ty.SpelledIn S) :
      ∀ ty ∈ (if p then o else none), ty.SpelledIn S := by
    split
    · exact ho
    · exact Ty.spelledIn_none
  have htype {a : Node} (ha : a.BelowIn S) : ∀ ty ∈ some (t.typeOf a), ty.SpelledIn S :=
    fun ty hty => Option.mem_some.1 hty ▸ ht.typeOf ha
  unfold offer?
  cases slot with
  | request =>
    dsimp only
    split
    · exact htype (hargs _ (by simp))
    · exact htarget (hargs _ (by simp))
    · exact htarget (hargs _ (by simp))
    · exact Ty.spelledIn_none
  | response =>
    dsimp only
    split
    · exact htype (hargs _ (by simp))
    · exact htype (hargs _ (by simp))
    · exact Ty.spelledIn_none
  | param index =>
    dsimp only
    split
    · exact hchoice (htarget (hargs _ (by simp)))
    · refine hchoice fun ty hty => ?_
      obtain rfl := Option.mem_some.1 hty
      exact (Ty.spelledIn_string : Ty.string.SpelledIn S)
    · exact Ty.spelledIn_none
  | query key =>
    dsimp only
    split
    · exact hchoice (htype (hargs _ (by simp)))
    · exact Ty.spelledIn_none

/-- The step: what is offered up to a call and by it. -/
theorem ContextCall.spelledIn_extend (ht : t.SpelledIn S) (hargs : ∀ a ∈ c.args, a.BelowIn S)
    {ts : List Ty} (hts : ∀ ty ∈ ts, ty.SpelledIn S) :
    ∀ ty ∈ c.extend t params slot ts, ty.SpelledIn S := by
  have hoffer : ∀ ty ∈ (c.offer? t params slot).toList, ty.SpelledIn S := fun ty hty =>
    spelledIn_offer? ht hargs ty (Option.mem_toList.1 hty)
  unfold extend
  split
  · exact hoffer
  · exact List.forall_mem_append.2 ⟨hts, hoffer⟩

/-- All that is offered, by induction on the calls. -/
theorem spelledIn_offered (ht : t.SpelledIn S) {calls : List ContextCall}
    (hcalls : ∀ c ∈ calls, ∀ a ∈ c.args, a.BelowIn S) :
    ∀ ty ∈ offered t params slot calls, ty.SpelledIn S :=
  List.foldlRecOn calls _ (motive := fun ts : List Ty => ∀ ty ∈ ts, ty.SpelledIn S)
    (List.forall_mem_nil _) fun _ hts c hc => c.spelledIn_extend ht (hcalls c hc) hts

/-- What the slots of a route hold after some calls. -/
theorem spelledIn_held (ht : t.SpelledIn S) {r : ServerRoute} {calls : List ContextCall} {d : Draft}
    (hcalls : ∀ c ∈ calls, ∀ a ∈ c.args, a.BelowIn S)
    (h : (({ route := r.blank } : Draft).applyAll t calls).draft? = some d) (slot : Slot) :
    ∀ ty ∈ d.held slot, ty.SpelledIn S := by
  intro ty hty
  rw [held_applyAll_blank h] at hty
  exact spelledIn_offered ht hcalls ty (mem_of_settled hty)

end

/-- The types that the route holds are written in the script. -/
structure ServerRoute.SpelledIn (S : Script) (r : ServerRoute) : Prop where
  request : r.request.SpelledIn S
  response : r.response.SpelledIn S
  params : ∀ p ∈ r.pathParams, ∀ ty ∈ p.ty, ty.SpelledIn S
  queries : ∀ key, ∀ ty ∈ r.query? key, ty.SpelledIn S

section
variable {p : Program} {config : Config} {q : Package}

theorem belowIn_of_mem_contextCalls {t : Typer} {h : Handler} (hfile : h.file.SpelledIn S)
    (hin : h.In p) {c : ContextCall} (hc : c ∈ h.contextCalls t config.library) :
    ∀ a ∈ c.args, a.BelowIn S := by
  obtain ⟨call, hcall, hc⟩ := List.mem_filterMap.1 hc
  have hmem : call ∈ h.file.tree.all :=
    Node.mem_all_trans (Node.mem_all_trans (Node.mem_all_of_mem_walk hcall)
      (Node.mem_all_of_field? hin.body)) hin.node
  intro a ha
  unfold Typer.contextCall? at hc
  obtain ⟨_, _, hc⟩ := Option.bind_eq_some_iff.1 hc
  obtain ⟨op, _, hc⟩ := Option.bind_eq_some_iff.1 hc
  split at hc
  · obtain rfl := Option.some.inj hc
    exact hfile.tree.mem_all (Node.mem_all_trans (Node.mem_all_of_mem_callArguments ha) hmem)
  · exact nomatch hc

variable (hp : p.Parsed) (hwritten : p.WrittenIn S) (hq : q ∈ p.packages)
include hp hwritten hq

/-- The slots of a route hold what the calls of its handler offer. -/
theorem spelledIn_of_mem_routes {r : ServerRoute}
    (hr : r ∈ (extractRoutes (.build p) q.files config).2.table.routes) : r.SpelledIn S := by
  obtain ⟨t, key, value, h, hentry, haccepted⟩ := accepted_of_mem_routes hr
  obtain ⟨hindex, hfile, hvalue⟩ := place_of_mem_routeEntries hentry
  have hlocated : t.index.Located p := hindex ▸ Index.located_build p
  have hsound : (t.readEntry config key value).2.Sound p (t.readEntry config key value).1 :=
    sound_readEntry hlocated (Program.mem_files_of_mem_packages hq hfile) hvalue config
  rw [haccepted] at hsound
  have hhandler := Program.spelledIn_of_mem_files hp hwritten hsound.2.file
  have htyper : (h.typer t.index).SpelledIn S := by
    rw [hindex]
    exact Typer.spelledIn_enclosing (Program.spelledIn_index hp hwritten) hhandler h.node
  obtain ⟨d, hrun, rfl⟩ := exists_applyAll_of_accepted haccepted
  have hheld (slot : Slot) : ∀ ty ∈ d.held slot, ty.SpelledIn S :=
    spelledIn_held htyper (fun c hc => belowIn_of_mem_contextCalls hhandler hsound.2 hc)
      (by rw [hrun]) slot
  have hslot (o : Option Ty) (ho : ∀ ty ∈ o, ty.SpelledIn S) :
      (o.getD .untypedNil).SpelledIn S := by
    cases o with
    | none => trivial
    | some ty => exact ho ty rfl
  refine ⟨hslot _ (hheld .request), hslot _ (hheld .response), fun param hparam ty hty => ?_,
    fun key => hheld (.query key)⟩
  obtain ⟨i, hi⟩ := List.getElem?_of_mem hparam
  refine hheld (.param i) ty ?_
  show (d.route.pathParams[i]?).bind (·.ty) = some ty
  rw [show d.route.pathParams[i]? = some param from hi]
  exact hty

end

/-! ## Arguments of calls -/

/-- The arguments that a call is read with stand in the tree of its file, which is written in the
script. -/
structure ClientCall.SpelledIn (S : Script) (c : ClientCall) : Prop where
  file : c.file.SpelledIn S
  request : ∀ n ∈ c.request, n.BelowIn S
  response : ∀ n ∈ c.response, n.BelowIn S
  path : ∀ n, some n ∈ c.pathParams → n.BelowIn S
  query : ∀ key n, (key, some n) ∈ c.queryParams → n.BelowIn S

section
variable {t : Typer} {op : ClientOp} {call : Node}

theorem mem_callArguments_of_mem_ownArguments {a : Node} (h : a ∈ ownArguments op call) :
    a ∈ call.callArguments := by
  unfold ownArguments at h
  dsimp only at h
  split at h
  · exact List.mem_of_mem_drop h
  · exact h

theorem mem_callArguments_of_callParts? {parts : CallParts}
    (h : t.callParts? op call = some parts) :
    parts.path ∈ call.callArguments ∧ (∀ n ∈ parts.request, n ∈ call.callArguments) ∧
      ∀ n ∈ parts.response, n ∈ call.callArguments := by
  have hown {args : List Node} (hargs : ownArguments op call = args) :
      ∀ a ∈ args, a ∈ call.callArguments :=
    fun a ha => mem_callArguments_of_mem_ownArguments (hargs ▸ ha)
  have hsome {args : List Node} (hargs : ownArguments op call = args) {n : Node} (hn : n ∈ args) :
      ∀ m ∈ some n, m ∈ call.callArguments := fun m hm => Option.mem_some.1 hm ▸ hown hargs n hn
  unfold Typer.callParts? at h
  split at h
  case h_1 hargs =>
    dsimp only at h
    split at h
    · exact nomatch h
    · obtain rfl := Option.some.inj h
      exact ⟨hown hargs _ (by simp), hsome hargs (by simp), hsome hargs (by simp)⟩
  case h_2 hargs =>
    obtain rfl := Option.some.inj h
    exact ⟨hown hargs _ (by simp), nofun, hsome hargs (by simp)⟩
  case h_3 hargs | h_4 hargs =>
    obtain rfl := Option.some.inj h
    exact ⟨hown hargs _ (by simp), hsome hargs (by simp), hsome hargs (by simp)⟩
  case h_5 hargs =>
    obtain rfl := Option.some.inj h
    exact ⟨hown hargs _ (by simp), hsome hargs (by simp), nofun⟩
  case h_6 hargs =>
    obtain rfl := Option.some.inj h
    exact ⟨hown hargs _ (by simp), nofun, nofun⟩
  case h_7 => exact nomatch h

theorem spelledIn_readCall {config : Config} {c : ClientCall} (hfile : t.file.SpelledIn S)
    (hcall : call ∈ t.file.tree.all) (h : (t.readCall config op call).2 = some c) :
    c.SpelledIn S := by
  have hbelow {n : Node} (hn : n ∈ call.all) : n.BelowIn S :=
    hfile.tree.mem_all (Node.mem_all_trans hn hcall)
  unfold Typer.readCall at h
  split at h
  · exact nomatch h
  · next parts hparts =>
    obtain ⟨hpath, hrequest, hresponse⟩ := mem_callArguments_of_callParts? hparts
    have hhole {n : Node}
        (hn : .hole (some n) ∈ ((t.fold parts.path).trimLead config.clientPrefix).pieces) :
        n.BelowIn S := by
      have hn := Typer.mem_all_of_hole_foldWithin (Template.hole_mem_trimLead hn)
      exact hbelow (Node.mem_all_trans hn (Node.mem_all_of_mem_callArguments hpath))
    dsimp only at h
    split at h
    · exact nomatch h
    · obtain rfl := Option.some.inj h
      exact
        { file := hfile
          request := fun n hn => hbelow (Node.mem_all_of_mem_callArguments (hrequest n hn))
          response := fun n hn => hbelow (Node.mem_all_of_mem_callArguments (hresponse n hn))
          path := fun n hn => hhole (Template.hole_of_mem_path hn)
          query := fun key n hn => hhole (Template.hole_of_mem_query hn) }

theorem spelledIn_of_mem_calls {p : Program} {config : Config} {q : Package} (hp : p.Parsed)
    (hwritten : p.WrittenIn S) (hq : q ∈ p.packages) {c : ClientCall}
    (hc : c ∈ (extractCalls (.build p) q.files config).2) : c.SpelledIn S := by
  obtain ⟨_, hread, hc⟩ := List.mem_filterMap.1 hc
  obtain ⟨⟨t, op, call⟩, hmem, rfl⟩ := List.mem_map.1 hread
  obtain ⟨f, hf, hmem⟩ := List.mem_flatMap.1 hmem
  obtain ⟨decl, hdecl, rfl, hcall, -⟩ := mem_clientCallsIn_iff.1 hmem
  have hspelled :=
    Program.spelledIn_of_mem_files hp hwritten (Program.mem_files_of_mem_packages hq hf)
  have hcall : call ∈ f.tree.all :=
    Node.mem_all_trans (Node.mem_all_of_mem_walk hcall) (Node.mem_all_of_mem_named hdecl)
  rw [← Typer.enclosing_file (.build p) f decl] at hspelled hcall
  exact spelledIn_readCall hspelled hcall hc

end

end RouteCheck
