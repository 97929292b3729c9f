import RouteCheck.Check.Client
import RouteCheck.Proofs.Types.Formatted

/-!
What is reported of a route whose format and arguments differ in number.

A client call is reported where the first `fmt.Sprintf` of its path has not as many arguments as
verbs. The number of arguments in the message is that of this call; the number of parameters is that
of the holes of the whole path, so that it counts the verbs of the other calls and every other hole
along with the verbs of this one.

Main statements:
  1. `Template.total_countHoles`: both kinds of holes together are all.
  2. `readCall_miscounted`: what is reported, and when the number of parameters is right.
  3. `miscounted_beside_hole`: a report that gives the same number twice.
-/

namespace RouteCheck

/-- Holes before and after the query begins are all there are. -/
theorem Template.total_countHoles (t : Template) :
    t.countHoles.1 + t.countHoles.2 = t.holes := by
  obtain ⟨pieces, _⟩ := t
  show (countHolesOf pieces).1 + (countHolesOf pieces).2 = pieces.countP Piece.isHole
  induction pieces with
  | nil => rfl
  | cons p rest ih =>
    cases p with
    | hole f =>
      rw [countHolesOf, List.countP_cons_of_pos rfl, ← ih]
      exact Nat.add_right_comm ..
    | lit s =>
      rw [countHolesOf, List.countP_cons_of_neg Bool.false_ne_true]
      split
      · exact Nat.zero_add _
      · exact ih

section
variable {t : Typer} {config : Config} {op : ClientOp} {call : Node} {d : Diagnostic}

theorem exists_mismatch_of_mem_readCall (hd : d ∈ (t.readCall config op call).1) :
    ∃ parts m, t.callParts? op call = some parts ∧ (t.fold parts.path).mismatch = some m ∧
      d = ⟨t.file.position m.call,
        mismatchMessage (t.fold parts.path).countHoles m.supplied⟩ := by
  unfold Typer.readCall at hd
  split at hd
  · exact absurd hd List.not_mem_nil
  · next parts hparts =>
    simp only at hd
    split at hd
    · next m hm => exact ⟨parts, m, hparts, hm, List.mem_singleton.1 hd⟩
    · exact absurd hd List.not_mem_nil

/-- A report gives the arguments of the first call whose format and arguments differ in number. As
parameters it gives the verbs of all calls and the holes of the other operands; these are the verbs
of that call just where there are no others. -/
theorem readCall_miscounted (hd : d ∈ (t.readCall config op call).1) :
    ∃ parts, t.callParts? op call = some parts ∧
    ∃ before c after, t.sprintfs parts.path = before ++ c :: after ∧
      (∀ b ∈ before, b.verbs = b.args.length) ∧ c.verbs ≠ c.args.length ∧
      c.call.callArguments = c.format :: c.args ∧
      let holes := (t.fold parts.path).countHoles
      d = ⟨t.file.position c.call, mismatchMessage holes c.args.length⟩ ∧
      holes.1 + holes.2 = c.verbs + ((before ++ after).map Typer.Sprintf.verbs).sum +
        ((t.operands parts.path).map Template.holes).sum ∧
      (holes.1 + holes.2 = c.verbs ↔
        (∀ b ∈ before ++ after, b.verbs = 0) ∧ ∀ o ∈ t.operands parts.path, o.holes = 0) := by
  obtain ⟨parts, m, hparts, hm, rfl⟩ := exists_mismatch_of_mem_readCall hd
  obtain ⟨before, c, after, hsplit, hbefore, hdiffers, rfl⟩ :=
    Typer.mismatch_fold_eq_some_iff.1 hm
  have hc : c ∈ t.sprintfs parts.path := hsplit ▸ List.mem_append_right before List.mem_cons_self
  have htotal : (t.fold parts.path).countHoles.1 + (t.fold parts.path).countHoles.2 =
      c.verbs + ((before ++ after).map Typer.Sprintf.verbs).sum +
        ((t.operands parts.path).map Template.holes).sum := by
    rw [Template.total_countHoles, Typer.fold, Typer.holes_foldWithin]
    show ((t.sprintfs parts.path).map Typer.Sprintf.verbs).sum + _ = _
    rw [hsplit]
    simp only [List.map_append, List.map_cons, List.sum_append, List.sum_cons, Typer.operands]
    omega
  refine ⟨parts, hparts, before, c, after, hsplit, hbefore, hdiffers,
    (Typer.call_of_mem_sprintfsWithin hc).2, rfl, htotal, ?_⟩
  have hothers : (∀ b ∈ before ++ after, b.verbs = 0) ↔
      ((before ++ after).map Typer.Sprintf.verbs).sum = 0 := by
    rw [List.sum_eq_zero_iff_forall_eq_nat, List.forall_mem_map]
  have hoperands : (∀ o ∈ t.operands parts.path, o.holes = 0) ↔
      ((t.operands parts.path).map Template.holes).sum = 0 := by
    rw [List.sum_eq_zero_iff_forall_eq_nat, List.forall_mem_map]
  rw [htotal, hothers, hoperands]
  omega

end

/-! ## A hole beside the call -/

/-- A route with a hole beside the call that has an argument too many, and one without. -/
def besideHole : List String :=
  ["func drop(c *jape.Client, id, kind, mode string) \x7b",
    "c.DELETE(\"/items/\" + id + fmt.Sprintf(\"/%v\", kind, mode))",
    "c.DELETE(fmt.Sprintf(\"/items/%v?kind=%v\", id)) \x7d"]

/-- What is reported of a client call, and of its path the calls of `fmt.Sprintf`, with their
positions, verbs and arguments, and the holes of the other operands. -/
structure Miscount where
  reported : List Diagnostic
  calls : List (Position × Nat × Nat)
  holes : List Nat
  deriving DecidableEq

/-- The client calls of a sample file. -/
def SourceFile.miscounts (f : SourceFile) : List Miscount :=
  (clientCallsIn (.build ⟨[f]⟩) f "jape").filterMap fun (t, op, call) =>
    (t.callParts? op call).map fun parts =>
      { reported := (t.readCall {} op call).1
        calls := (t.sprintfs parts.path).map fun c =>
          (t.file.position c.call, c.verbs, c.args.length)
        holes := (t.operands parts.path).map Template.holes }

theorem miscounts_besideHole : (SourceFile.sample besideHole).miscounts =
    [⟨[⟨⟨⟨"api/api.go"⟩, 4, 27⟩, mismatchMessage (2, 0) 2⟩],
        [(⟨⟨"api/api.go"⟩, 4, 27⟩, 1, 2)], [0, 1, 0]⟩,
      ⟨[⟨⟨⟨"api/api.go"⟩, 5, 10⟩, mismatchMessage (1, 1) 1⟩],
        [(⟨⟨"api/api.go"⟩, 5, 10⟩, 2, 1)], [0]⟩] := by
  simp only [besideHole, SourceFile.sample_eq, SourceFile.chars, String.reduceToList]
  decide +kernel

theorem exists_of_mem_miscounts {f : SourceFile} {ds : List Diagnostic} {at_ : Position}
    {verbs supplied : Nat} {holes : List Nat}
    (h : ⟨ds, [(at_, verbs, supplied)], holes⟩ ∈ f.miscounts) :
    ∃ t op call, (t, op, call) ∈ clientCallsIn (.build ⟨[f]⟩) f "jape" ∧
      (t.readCall {} op call).1 = ds ∧ ∃ parts c, t.callParts? op call = some parts ∧
        t.sprintfs parts.path = [c] ∧ (t.operands parts.path).map Template.holes = holes ∧
          t.file.position c.call = at_ ∧ c.verbs = verbs ∧ c.args.length = supplied := by
  obtain ⟨⟨t, op, call⟩, hcall, hrow⟩ := List.mem_filterMap.1 h
  obtain ⟨parts, hparts, hrow⟩ := Option.map_eq_some_iff.1 hrow
  obtain ⟨hds, hcalls, hholes⟩ := Miscount.mk.inj hrow
  obtain ⟨c, hsprintfs, hc⟩ := List.map_eq_singleton_iff.1 hcalls
  simp only [Prod.mk.injEq] at hc
  exact ⟨t, op, call, hcall, hds, parts, c, hparts, hsprintfs, hholes, hc⟩

/-- A call of `fmt.Sprintf` with one verb and two arguments is reported as a route with two
parameters and two arguments. -/
theorem miscounted_beside_hole : ∃ sources p, Program.ofSources sources = .ok p ∧
    ∃ f ∈ p.files, ∃ t op call, (t, op, call) ∈ clientCallsIn (.build p) f "jape" ∧
      ∃ parts c, t.callParts? op call = some parts ∧ t.sprintfs parts.path = [c] ∧
        (t.readCall {} op call).1 = [⟨t.file.position c.call,
          "route contains (2 path + 0 form) = 2 parameters, but only 2 arguments are supplied"⟩] ∧
        c.verbs = 1 ∧ c.args.length = 2 := by
  have hp := Program.ofSources_sample besideHole
  obtain ⟨t, op, call, hcall, hread, parts, c, hparts, hsprintfs, _, hat, hverbs, hsupplied⟩ :=
    exists_of_mem_miscounts (miscounts_besideHole ▸ List.mem_cons_self)
  refine ⟨_, _, hp, _, List.mem_singleton_self _, t, op, call, hcall, parts, c, hparts, hsprintfs,
    ?_, hverbs, hsupplied⟩
  rw [hread, hat]
  decide

/-- Where the call has the only holes, the number of parameters is that of its verbs. -/
theorem readCall_miscounted_alone : ∃ (t : Typer) (op : ClientOp) (call : Node) (d : Diagnostic),
    d ∈ (t.readCall {} op call).1 ∧ ∃ (c : Typer.Sprintf) (holes : Nat × Nat),
      d = ⟨t.file.position c.call, mismatchMessage holes c.args.length⟩ ∧
        holes.1 + holes.2 = c.verbs ∧ c.verbs = 2 ∧ c.args.length = 1 := by
  obtain ⟨t, op, call, _, hread, parts, c, hparts, hsprintfs, hholes, _, hverbs, hsupplied⟩ :=
    exists_of_mem_miscounts (miscounts_besideHole ▸ List.mem_cons_of_mem _ List.mem_cons_self)
  have hd : _ ∈ (t.readCall {} op call).1 := hread ▸ List.mem_singleton_self _
  obtain ⟨parts', hparts', before, c', after, hsplit, _, _, _, hmessage, htotal, _⟩ :=
    readCall_miscounted hd
  obtain rfl := Option.some.inj (hparts.symm.trans hparts')
  obtain ⟨rfl, rfl, rfl⟩ : before = [] ∧ c = c' ∧ after = [] := by
    rw [hsprintfs] at hsplit
    cases before with
    | nil =>
      obtain ⟨hc, hafter⟩ := List.cons.inj hsplit
      exact ⟨rfl, hc, hafter.symm⟩
    | cons b before => simp at hsplit
  rw [hholes] at htotal
  exact ⟨t, op, call, _, hd, c, _, hmessage, htotal, hverbs, hsupplied⟩

end RouteCheck
