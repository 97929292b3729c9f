import RouteCheck.Proofs.Flow.Conditions
import RouteCheck.Proofs.Tree.Paths

/-!
Two ways to bind the result of a write.

`v := c` keeps the result: the write is pending until a condition compares `v` with nil, and then
counts on the side where it is not nil. `var v = c` is executed like any other item: all its writes
count at once, and what is pending stays so. So from a `var` on every side of every condition has a
last write, and a write behind it is reported.

Main statements:
  1. `writes_eq`: the writes of a node are those of its parts, after itself.
  2. `item_of_shortBinds`, `item_of_varBinds`: what either form does to any state.
  3. `branch_of_testsError`, `wrote_branch_of_wrote`: what a comparison with nil makes of it.
  4. `var_binding_counts`: both forms side by side, for any write and state and on any walk.
-/

namespace RouteCheck

/-! ## Bindings -/

/-- `n` is the short declaration `v := c`. -/
structure ShortBinds (n : Node) (v : String) (c : Node) : Prop where
  kind : n.kind = .shortVarDeclaration
  name : ∃ left x, n.field? .left = some left ∧ left.expressions = [x] ∧ x.kind = .identifier ∧
    x.text = v
  value : ∃ right, n.field? .right = some right ∧ right.expressions = [c]

/-- `n` is the declaration `var v = c`. -/
structure VarBinds (n : Node) (v : String) (c : Node) : Prop where
  kind : n.kind = .varDeclaration
  spec : ∃ spec x values, n.named = [spec] ∧ spec.kind = .varSpec ∧ spec.named = [x, values] ∧
    x.kind = .identifier ∧ x.text = v ∧ x.named = [] ∧
    values.kind = .expressionList ∧ values.named = [c]

/-- The condition is `v != nil`, operands in either order, parentheses aside. -/
def TestsError (cond : Node) (v : String) : Prop :=
  ∃ x other, Compares cond.unparen "!=" x other ∧ other.kind = .nilLiteral ∧
    x.kind = .identifier ∧ x.text = v

theorem Node.unparen_of_kind_ne {n : Node} (h : n.kind ≠ .parenthesizedExpression) :
    n.unparen = n := by
  rw [Node.unparen, if_neg h]

namespace WriteCheck

variable {w : WriteCheck} {s : FlowState} {n c d cond : Node} {v : String}

/-! ## Writes of a node -/

theorem isWrite_eq_false (h : n.kind ≠ .callExpression) : w.isWrite n = false := by
  by_contra hwrite
  exact h (kind_of_isWrite (by simpa using hwrite))

/-- A node that is no function literal makes its own write, if it is one, and those of its parts. -/
theorem writes_eq (h : n.kind ≠ .funcLiteral) :
    w.writes n = (if w.isWrite n then [n] else []) ++ n.named.flatMap w.writes := by
  have henter : (n.kind != .funcLiteral) = true := bne_iff_ne.2 h
  have hparts : n.walk (·.kind != .funcLiteral) =
      n :: n.named.flatMap fun m => m.walk (·.kind != .funcLiteral) := by
    rw [Node.walk, Node.walkFrom, if_pos henter, List.append_nil, Node.walkFrom_eq_flatMap]
  rw [writes, hparts, List.filter_cons, List.filter_flatMap]
  split <;> rfl

/-- Writes within the operand and the arguments of a call. -/
def nested (w : WriteCheck) (c : Node) : List Node := c.named.flatMap w.writes

theorem writes_of_isWrite (hc : w.isWrite c = true) : w.writes c = c :: w.nested c := by
  rw [writes_eq (by simp [kind_of_isWrite hc]), if_pos hc]
  rfl

/-! ## Items -/

/-- The result of `v := c` is pending, and no write counts yet. -/
theorem item_of_shortBinds (hc : w.isWrite c = true) (hv : v ≠ "_") (h : ShortBinds n v c) :
    w.item n s = (w.repeated c s, { s with pending := some (v, c.site) }) := by
  obtain ⟨left, x, hleft, hx, hkind, rfl⟩ := h.name
  obtain ⟨right, hright, hvalue⟩ := h.value
  have hself : c.unparen = c := Node.unparen_of_kind_ne (by simp [kind_of_isWrite hc])
  have hkept : w.keptWrite? left.expressions right.expressions = some (x.text, c) := by
    simp [keptWrite?, hx, hvalue, hkind, hv, hself, hc]
  simp [item, h.kind, hleft, hright, assign, hkept]

theorem writes_of_varBinds (hc : w.isWrite c = true) (h : VarBinds n v c) :
    w.writes n = c :: w.nested c := by
  obtain ⟨spec, x, values, hspec, hkind, hparts, hx, -, hleaf, hvalues, hvalue⟩ := h.spec
  have hname : w.writes x = [] := by
    rw [writes_eq (by simp [hx]), isWrite_eq_false (by simp [hx]), hleaf]
    rfl
  have hlist : w.writes values = c :: w.nested c := by
    rw [writes_eq (by simp [hvalues]), isWrite_eq_false (by simp [hvalues]), hvalue]
    simp [writes_of_isWrite hc]
  rw [writes_eq (by simp [h.kind]), isWrite_eq_false (by simp [h.kind]), hspec]
  simp only [Bool.false_eq_true, if_false, List.nil_append, List.flatMap_singleton]
  rw [writes_eq (by simp [hkind]), isWrite_eq_false (by simp [hkind]), hparts]
  simp [hname, hlist]

/-- The writes of `var v = c` count at once, and what is pending stays so. -/
theorem item_of_varBinds (hc : w.isWrite c = true) (h : VarBinds n v c) :
    w.item n s = w.record (c :: w.nested c) s := by
  simp [item, h.kind, writes_of_varBinds hc h]

theorem wrote_record_cons (calls : List Node) (s : FlowState) :
    (w.record (c :: calls) s).2.wrote.isSome := by
  rw [record_state]
  simp

/-! ## Conditions -/

theorem ofNode_of_testsError (h : TestsError cond v) :
    Condition.ofNode cond = .leaf cond.unparen := by
  obtain ⟨x, other, hcompares, -⟩ := h
  have hnone : connective? cond.unparen = none := by
    rw [connective?, if_pos hcompares.kind, hcompares.operator]
    rfl
  rw [Condition.ofNode]
  split
  · next hop _ _ => exact absurd (hnone.symm.trans hop) (by simp)
  · rfl

/-- On the side where `v` is not nil the pending write counts, on the other side it does not. -/
theorem branch_of_testsError {site : Site} (h : TestsError cond v)
    (hs : s.pending = some (v, site)) :
    (w.branch cond s).2 = ({ wrote := some site }, { s with pending := none }) := by
  have hleaf := ofNode_of_testsError h
  obtain ⟨x, other, hcompares, hnil, hkind, rfl⟩ := h
  have hcheck : w.IsCheck s cond.unparen ⟨false, site⟩ :=
    ⟨x, other, hcompares, hnil, .pending hkind hs⟩
  have hform : w.InForm s .or (Condition.ofNode cond) := by
    rw [hleaf]
    refine ⟨fun c hc => absurd hc List.not_mem_nil, fun leaf hmem => ⟨site, ?_⟩⟩
    obtain rfl := List.mem_singleton.1 hmem
    exact hcheck
  have hfirst : w.FirstCheck s (Condition.ofNode cond).leaves ⟨false, site⟩ := by
    rw [hleaf]
    exact ⟨[], cond.unparen, [], rfl, hcheck, fun l hl => absurd hl List.not_mem_nil⟩
  obtain ⟨hyes, hno⟩ := branch_of_inForm hform hfirst
  exact Prod.ext hyes hno

/-- Once a write counts, it counts on both sides of every condition. -/
theorem wrote_branch_of_wrote (cond : Node) (hs : s.wrote.isSome) :
    (w.branch cond s).2.1.wrote.isSome ∧ (w.branch cond s).2.2.wrote.isSome :=
  wrote_branch ((counts_leaves (w := w) (flatten cond).2 s).keeps hs)

end WriteCheck

/-! ## Both forms side by side -/

/-- What the two ways to bind the result of a write do, for writes `c` and `c'`. `v := c` reports as
the write does and leaves its result pending; behind `v != nil` there is a write on the one side
only, so that on the other a further write is reported just if one had been before `c`. `var v = c'`
reports the same and then the writes within `c'`; it leaves a last write and the pending result
alone, so that on both sides of any condition a further write is reported. And so is every write
after it on every walk of a handler. -/
theorem var_binding_counts (index : Index) (library : String) (h : Handler)
    {short decl c c' : Node} {v : String}
    (hc : WriteCheck.isWrite ⟨h.typer index, library⟩ c = true)
    (hc' : WriteCheck.isWrite ⟨h.typer index, library⟩ c' = true)
    (hv : v ≠ "_") (hshort : ShortBinds short v c) (hdecl : VarBinds decl v c') :
    let w : WriteCheck := ⟨h.typer index, library⟩
    (∀ s : FlowState,
      w.item short s = (w.repeated c s, { s with pending := some (v, c.site) }) ∧
      (w.item decl s).1 = w.repeated c' s ++
        (w.record (w.nested c') { s with wrote := some c'.site }).1 ∧
      (w.item decl s).2 = { s with wrote := some ((w.nested c').getLast?.getD c').site }) ∧
    (∀ (s : FlowState) (cond d : Node),
      (TestsError cond v →
        (w.branch cond (w.item short s).2).2 = ({ wrote := some c.site }, { wrote := s.wrote }) ∧
        w.repeated d (w.branch cond (w.item short s).2).2.2 = w.repeated d s) ∧
      w.Reports d (w.repeated d (w.branch cond (w.item decl s).2).2.1) ∧
      w.Reports d (w.repeated d (w.branch cond (w.item decl s).2).2.2)) ∧
    ∀ before after b d use, h.graph.Trace (before ++ .piece decl :: after) b →
      (d, use) ∈ after.flatMap w.calls →
        ∃ line column : Nat, ⟨h.file.position d,
          "handler writes multiple responses (previous write at " ++ toString line ++ ":" ++
            toString column ++ ")"⟩ ∈ checkHandler index library h := by
  intro w
  have hkeeps (s : FlowState) := WriteCheck.item_of_shortBinds (s := s) hc hv hshort
  have hcounts (s : FlowState) := WriteCheck.item_of_varBinds (s := s) hc' hdecl
  refine ⟨fun s => ⟨hkeeps s, ?_, ?_⟩, fun s cond d => ⟨fun hcond => ?_, ?_⟩, ?_⟩
  · rw [hcounts]
    rfl
  · rw [hcounts, WriteCheck.record_state, List.getLast?_cons]
    rfl
  · rw [hkeeps, WriteCheck.branch_of_testsError hcond rfl]
    exact ⟨rfl, rfl⟩
  · have hwrote : (w.item decl s).2.wrote.isSome := by
      rw [hcounts]
      exact WriteCheck.wrote_record_cons _ _
    obtain ⟨hyes, hno⟩ := WriteCheck.wrote_branch_of_wrote (w := w) cond hwrote
    exact ⟨WriteCheck.reports_repeated hyes, WriteCheck.reports_repeated hno⟩
  · intro before after b d use htrace hd
    have hcalls : (c', Use.plain) ∈ w.calls (.piece decl) := by
      show _ ∈ w.itemCalls decl
      simp only [WriteCheck.itemCalls, hdecl.kind]
      refine List.mem_map_of_mem ?_
      rw [WriteCheck.writes_of_varBinds hc' hdecl]
      exact List.mem_cons_self
    have hafter : [(c', Use.plain), (d, use)].Sublist
        ((before ++ .piece decl :: after).flatMap w.calls) := by
      rw [List.flatMap_append, List.flatMap_cons]
      exact ((List.singleton_sublist.2 hcalls).append (List.singleton_sublist.2 hd)).trans
        (List.sublist_append_right _ _)
    exact repeated_write_reported index library h htrace hafter

theorem exists_shortBinds {α : Type} {n : Node} {v : String} {f : Node → α} {y : α}
    (hkind : n.kind = .shortVarDeclaration)
    (hleft : (n.field? .left).map (fun l => l.expressions.map fun x => (x.kind, x.text)) =
      some [(.identifier, v)])
    (hright : (n.field? .right).map (fun r => r.expressions.map f) = some [y]) :
    ∃ c, ShortBinds n v c ∧ f c = y := by
  obtain ⟨left, hleft, hnames⟩ := Option.map_eq_some_iff.1 hleft
  obtain ⟨x, hx, hname⟩ := List.map_eq_singleton_iff.1 hnames
  obtain ⟨hidentifier, htext⟩ := Prod.mk.inj hname
  obtain ⟨right, hright, hvalues⟩ := Option.map_eq_some_iff.1 hright
  obtain ⟨c, hc, hy⟩ := List.map_eq_singleton_iff.1 hvalues
  exact ⟨c, ⟨hkind, ⟨left, x, hleft, hx, hidentifier, htext⟩, right, hright, hc⟩, hy⟩

theorem exists_varBinds {α : Type} {n : Node} {v text : String} {f : Node → α} {y : α}
    (hkind : n.kind = .varDeclaration) (hspec : n.named.map (·.kind) = [.varSpec])
    (hparts : (n.named.flatMap Node.named).map (fun m => (m.kind, m.text, m.named.map f)) =
      [(.identifier, v, []), (.expressionList, text, [y])]) :
    ∃ c, VarBinds n v c ∧ f c = y := by
  obtain ⟨spec, hspec, hspecKind⟩ := List.map_eq_singleton_iff.1 hspec
  rw [hspec, List.flatMap_singleton] at hparts
  obtain ⟨x, values, hpair⟩ : ∃ x values, spec.named = [x, values] :=
    List.length_eq_two.1 (by simpa using congrArg List.length hparts)
  rw [hpair] at hparts
  simp only [List.map_cons, List.map_nil, List.cons.injEq, Prod.mk.injEq, and_true,
    List.map_eq_nil_iff] at hparts
  obtain ⟨⟨hx, htext, hleaf⟩, hvalues, -, hvalue⟩ := hparts
  obtain ⟨c, hc, hy⟩ := List.map_eq_singleton_iff.1 hvalue
  exact ⟨c, ⟨hkind, spec, x, values, hspec, hspecKind, hpair, hx, htext, hleaf, hvalues, hc⟩, hy⟩

/-- Both forms in a handler, which answers after the second. -/
theorem var_binding_counts_decode :
    let lines := ["var n int", "err := jc.Check(\"failed\", nil)", "\x7b var err = jc.Decode(&n)",
      "jc.Encode(n) \x7d"]
    let h := Handler.sample lines
    let w := WriteCheck.sample lines
    ∃ short ∈ h.graph.items Graph.entry, ∃ decl ∈ h.graph.items Graph.entry, ∃ c c' answer,
      w.isWrite c = true ∧ w.isWrite c' = true ∧ ShortBinds short "err" c ∧
      VarBinds decl "err" c' ∧ answer.site = (7, 1) ∧
      (w.item short {}).2 = { pending := some ("err", (5, 8)) } ∧
      (w.item decl {}).2.wrote = some ((w.nested c').getLast?.getD c').site ∧
      ∃ line column : Nat, ⟨h.file.position answer,
        "handler writes multiple responses (previous write at " ++ toString line ++ ":" ++
          toString column ++ ")"⟩ ∈ checkHandler (.build ⟨[Handler.sampleFile lines]⟩) "jape" h := by
  intro lines h w
  have hkinds : (h.graph.cond Graph.entry).isNone ∧ (h.graph.items Graph.entry).map (·.kind) =
      [.varDeclaration, .shortVarDeclaration, .varDeclaration, .expressionStatement] := by
    decide +kernel
  have hnames : (h.graph.items Graph.entry).map (fun n => (n.field? .left).map fun l =>
      l.expressions.map fun x => (x.kind, x.text)) =
        [none, some [(.identifier, "err")], none, none] := by decide +kernel
  have hkept : (h.graph.items Graph.entry).map (fun n => (n.field? .right).map fun r =>
      r.expressions.map fun c => (w.isWrite c, c.site)) =
        [none, some [(true, (5, 8))], none, none] := by decide +kernel
  have hspecs : (h.graph.items Graph.entry).map (fun n => n.named.map (·.kind)) =
      [[.varSpec], [.expressionList, .expressionList], [.varSpec], [.callExpression]] := by
    decide +kernel
  have hparts : ((h.graph.items Graph.entry).drop 2).map (fun n => (n.named.flatMap Node.named).map
      fun m => (m.kind, m.text, m.named.map w.isWrite)) =
        [[(.identifier, "err", []), (.expressionList, "jc.Decode(&n)", [true])],
          [(.selectorExpression, "jc.Encode", [false, false]), (.argumentList, "(n)", [false])]] := by
    decide +kernel
  have hcalls : (h.graph.items Graph.entry).map (fun n => (w.itemCalls n).map (·.1.site)) =
      [[], [(5, 8)], [(6, 13)], [(7, 1)]] := by decide +kernel
  obtain ⟨hcond, hkinds⟩ := hkinds
  obtain ⟨first, short, decl, last, hitems⟩ : ∃ first short decl last,
      h.graph.items Graph.entry = [first, short, decl, last] := by
    have hlength := congrArg List.length hkinds
    match h.graph.items Graph.entry, hlength with
    | [first, short, decl, last], _ => exact ⟨first, short, decl, last, rfl⟩
  have htrace : h.graph.Trace ([.piece first, .piece short] ++ .piece decl :: [.piece last])
      Graph.entry := by
    have htrace := trace_entry hcond
    rw [hitems] at htrace
    exact htrace
  simp only [hitems, List.map_cons, List.map_nil, List.cons.injEq, List.drop_succ_cons,
    List.drop_zero, and_true] at hkinds hnames hkept hspecs hparts hcalls
  obtain ⟨c, hshort, hc⟩ := exists_shortBinds hkinds.2.1 hnames.2.1 hkept.2.1
  obtain ⟨c', hdecl, hc'⟩ := exists_varBinds hkinds.2.2.1 hspecs.2.2.1 hparts.1
  obtain ⟨hwrite, hsite⟩ := Prod.mk.inj hc
  obtain ⟨⟨answer, use⟩, hlast, hanswer⟩ := List.map_eq_singleton_iff.1 hcalls.2.2.2
  obtain ⟨hitem, -, hreported⟩ := var_binding_counts (.build ⟨[Handler.sampleFile lines]⟩) "jape" h
    hwrite hc' (by decide) hshort hdecl
  obtain ⟨hpending, -, hwrote⟩ := hitem {}
  refine ⟨short, by simp [hitems], decl, by simp [hitems], c, c', answer, hwrite, hc', hshort, hdecl,
    hanswer, ?_, congrArg FlowState.wrote hwrote, hreported _ _ _ answer use htrace ?_⟩
  · rw [← hsite]
    exact congrArg Prod.snd hpending
  · rw [List.flatMap_singleton]
    show _ ∈ w.itemCalls last
    rw [hlast]
    exact List.mem_singleton_self _

/-- A handler that returns where `bound` has bound an error, and answers otherwise. -/
def answering (bound : String) : List String :=
  ["var n int", bound, "if err != nil \x7b", "return", "\x7d", "jc.Encode(n)"]

/-- With `:=` nothing is reported; with `var` the answer is, as a second response. -/
theorem var_binding_reported :
    let check := fun bound => checkHandler (.build ⟨[Handler.sampleFile (answering bound)]⟩) "jape"
      (Handler.sample (answering bound))
    check "err := jc.Decode(&n)" = [] ∧ check "var err = jc.Decode(&n)" =
      [⟨⟨⟨"api/server.go"⟩, 9, 1⟩,
        "handler writes multiple responses (previous write at 5:11)"⟩] := by
  decide +kernel

end RouteCheck
