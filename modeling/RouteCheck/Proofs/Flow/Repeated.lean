import RouteCheck.Proofs.Flow.Reports
import RouteCheck.Proofs.Types.Collect

/-!
A second write on a walk is reported.

`calls` lists the writes that an event executes, each with the use that is made of its result.
A write whose result is kept in a variable counts only once a condition has compared the variable
with nil, and one whose result is compared where it stands counts on one side only; every other
write is `plain`. From a plain write on, the state of every walk has a last write (`wrote`), so
the next write is reported, however its own result is used.

Main statements:
  1. `Counts.append`, `counts_item`, `counts_test`: what one event writes and reports.
  2. `counts_run`: what the events of a walk write and report.
  3. `repeated_write_reported`: on every walk, the writes after a plain one are reported.
-/

namespace RouteCheck

open Event

/-- What becomes of the result of a write. -/
inductive Use where
  /-- Nothing that the check follows. -/
  | plain
  /-- It is kept in a variable. -/
  | kept
  /-- It is compared with nil in the condition that makes the write. -/
  | compared
  deriving DecidableEq, Repr

namespace WriteCheck

variable (w : WriteCheck)

/-- Writes in source order, none of whose results is followed. -/
def plainCalls (n : Node) : List (Node × Use) := (w.writes n).map (·, .plain)

/-- Writes of an assignment. Those on its left and those in the arguments of a kept write are left
out. -/
def assignCalls (left right : Node) : List (Node × Use) :=
  match w.keptWrite? left.expressions right.expressions with
  | some (_, call) => [(call, .kept)]
  | none => w.plainCalls right

def itemCalls (n : Node) : List (Node × Use) :=
  if n.kind = .shortVarDeclaration || n.kind = .assignmentStatement then
    match n.field? .left, n.field? .right with
    | some left, some right => w.assignCalls left right
    | _, _ => []
  else w.plainCalls n

/-- Writes of a leaf of a condition. Those in the arguments of a write that is compared with nil
are left out. -/
def leafCalls (leaf : Node) : List (Node × Use) :=
  match nilSubject? leaf with
  | some (_, subject) =>
    if w.isWrite subject then [(subject, .compared)]
    else if subject.kind = .identifier then []
    else w.plainCalls leaf
  | none => w.plainCalls leaf

/-- Writes that an event executes, in order. -/
def calls : Event Node → List (Node × Use)
  | .piece n => w.itemCalls n
  | .test c _ => (flatten c).2.flatMap w.leafCalls

/-- The report of a repeated write at `call`, for some earlier write. -/
def Reports (call : Node) (notes : List Diagnostic) : Prop :=
  ∃ line column : Nat, ⟨w.typer.file.position call,
    "handler writes multiple responses (previous write at " ++ toString line ++ ":" ++
      toString column ++ ")"⟩ ∈ notes

variable {w} {call : Node} {s : FlowState}

theorem Reports.left {notes : List Diagnostic} (h : w.Reports call notes)
    (more : List Diagnostic) : w.Reports call (notes ++ more) := by
  obtain ⟨line, column, h⟩ := h
  exact ⟨line, column, List.mem_append_left _ h⟩

theorem Reports.right {notes : List Diagnostic} (h : w.Reports call notes)
    (before : List Diagnostic) : w.Reports call (before ++ notes) := by
  obtain ⟨line, column, h⟩ := h
  exact ⟨line, column, List.mem_append_right _ h⟩

theorem reports_repeated (hs : s.wrote.isSome) : w.Reports call (w.repeated call s) := by
  obtain ⟨⟨line, column⟩, hsite⟩ := Option.isSome_iff_exists.1 hs
  refine ⟨line, column, ?_⟩
  rw [repeated, hsite]
  exact List.mem_singleton_self _

/-- What evaluating code that makes the writes `calls` does to a state: a last write stays one,
a plain write leaves one, and a write after either is reported. -/
structure Counts (w : WriteCheck) (calls : List (Node × Use)) (s : FlowState)
    (notes : List Diagnostic) (s' : FlowState) : Prop where
  keeps : s.wrote.isSome → s'.wrote.isSome
  leaves : ∀ c ∈ calls, c.2 = .plain → s'.wrote.isSome
  follows : s.wrote.isSome → ∀ c ∈ calls, w.Reports c.1 notes
  repeats : ∀ first second, first.2 = .plain → [first, second].Sublist calls →
    w.Reports second.1 notes

section
variable {calls calls₁ calls₂ : List (Node × Use)} {notes notes₁ notes₂ : List Diagnostic}
  {s' s₁ s₂ : FlowState}

theorem Counts.nil (h : s.wrote.isSome → s'.wrote.isSome) : w.Counts [] s notes s' where
  keeps := h
  leaves := by simp
  follows := by simp
  repeats := by simp

/-- Evaluating one piece of code after another. -/
theorem Counts.append (h₁ : w.Counts calls₁ s notes₁ s₁) (h₂ : w.Counts calls₂ s₁ notes₂ s₂) :
    w.Counts (calls₁ ++ calls₂) s (notes₁ ++ notes₂) s₂ where
  keeps hs := h₂.keeps (h₁.keeps hs)
  leaves c hc hplain := by
    rcases List.mem_append.1 hc with hc | hc
    · exact h₂.keeps (h₁.leaves c hc hplain)
    · exact h₂.leaves c hc hplain
  follows hs c hc := by
    rcases List.mem_append.1 hc with hc | hc
    · exact (h₁.follows hs c hc).left _
    · exact (h₂.follows (h₁.keeps hs) c hc).right _
  repeats first second hplain h := by
    obtain ⟨l₁, l₂, hl, hl₁, hl₂⟩ := List.sublist_append_iff.1 h
    match l₁, hl with
    | [], hl => exact (h₂.repeats first second hplain (hl ▸ hl₂)).right _
    | [x], hl =>
      obtain ⟨rfl, rfl⟩ : first = x ∧ [second] = l₂ := by simpa using hl
      have hs := h₁.leaves first (List.singleton_sublist.1 hl₁) hplain
      exact (h₂.follows hs second (List.singleton_sublist.1 hl₂)).right _
    | x :: y :: l₁, hl =>
      obtain ⟨rfl, rfl, rfl, rfl⟩ : first = x ∧ second = y ∧ l₁ = [] ∧ l₂ = [] := by
        simpa using hl
      exact (h₁.repeats first second hplain hl₁).left _

theorem Counts.single {use : Use} (hkeeps : s.wrote.isSome → s'.wrote.isSome)
    (hplain : use = .plain → s'.wrote.isSome) : w.Counts [(call, use)] s (w.repeated call s) s' where
  keeps := hkeeps
  leaves c hc h := by
    obtain rfl := List.mem_singleton.1 hc
    exact hplain h
  follows hs c hc := by
    obtain rfl := List.mem_singleton.1 hc
    exact reports_repeated hs
  repeats first second _ h := absurd h.length_le (by simp)

end

/-! ## Pieces and conditions -/

theorem counts_record (ns : List Node) (s : FlowState) :
    w.Counts (ns.map (·, .plain)) s (w.record ns s).1 (w.record ns s).2 := by
  induction ns generalizing s with
  | nil => exact .nil id
  | cons n ns ih =>
    have hfirst : w.Counts [(n, .plain)] s (w.repeated n s) { s with wrote := some n.site } :=
      .single (fun _ => rfl) fun _ => rfl
    exact hfirst.append (ih _)

theorem counts_assign (left right : Node) (s : FlowState) :
    w.Counts (w.assignCalls left right) s (w.assign left right s).1 (w.assign left right s).2 := by
  cases hkept : w.keptWrite? left.expressions right.expressions with
  | some kept =>
    -- the result is pending: no last write yet, but an earlier one stays
    simp only [assignCalls, assign, hkept]
    exact .single id nofun
  | none =>
    have h := counts_record (w := w) (w.writes right) s
    simp only [assignCalls, assign, hkept]
    split
    · exact ⟨h.keeps, h.leaves, h.follows, h.repeats⟩
    · exact h

theorem counts_item (n : Node) (s : FlowState) :
    w.Counts (w.itemCalls n) s (w.item n s).1 (w.item n s).2 := by
  unfold itemCalls item
  split
  · cases n.field? .left with
    | none => exact .nil id
    | some left =>
      cases n.field? .right with
      | none => exact .nil id
      | some right => exact counts_assign left right s
  · exact counts_record _ s

/-- A leaf is a nil check of a write that it makes, or makes no write, or records its writes. -/
theorem leafCalls_cases (leaf : Node) (s : FlowState) :
    (∃ check subject, w.nilCheck? leaf s = some check ∧ w.leafCalls leaf = [(subject, .compared)] ∧
      w.nilCheckNotes leaf s = w.repeated subject s) ∨
    w.leafCalls leaf = [] ∨
    (w.nilCheck? leaf s = none ∧ w.leafCalls leaf = w.plainCalls leaf) := by
  cases hsubject : nilSubject? leaf with
  | none => exact .inr (.inr ⟨by simp [nilCheck?, hsubject], by simp [leafCalls, hsubject]⟩)
  | some p =>
    obtain ⟨equal, subject⟩ := p
    by_cases hwrite : w.isWrite subject = true
    · exact .inl ⟨⟨equal, subject.site⟩, subject, by simp [nilCheck?, hsubject, hwrite],
        by simp [leafCalls, hsubject, hwrite], by simp [nilCheckNotes, hsubject, hwrite]⟩
    · by_cases hkind : subject.kind = .identifier
      · exact .inr (.inl (by simp [leafCalls, hsubject, hwrite, hkind]))
      · refine .inr (.inr ⟨?_, by simp [leafCalls, hsubject, hwrite, hkind]⟩)
        cases hp : s.pending <;> simp [nilCheck?, hsubject, hwrite, hkind, hp]

theorem counts_leaves (ls : List Node) (s : FlowState) :
    w.Counts (ls.flatMap w.leafCalls) s (w.leaves ls s).notes (w.leaves ls s).state := by
  induction ls generalizing s with
  | nil => exact .nil id
  | cons leaf rest ih =>
    simp only [List.flatMap_cons, WriteCheck.leaves]
    rcases leafCalls_cases (w := w) leaf s with ⟨check, subject, hcheck, hcalls, hnotes⟩ | hcalls |
      ⟨hcheck, hcalls⟩
    · have hsingle : w.Counts [(subject, .compared)] s (w.repeated subject s) s :=
        .single id fun h => absurd h (by simp)
      rw [hcalls]
      simp only [hcheck, hnotes]
      exact hsingle.append (ih s)
    · rw [hcalls]
      split
      · exact (Counts.nil id).append (ih s)
      · exact (Counts.nil (counts_record (w.writes leaf) s).keeps).append (ih _)
    · rw [hcalls]
      simp only [hcheck]
      exact (counts_record (w.writes leaf) s).append (ih _)

/-- On either side of a condition the state has a last write if it has one after the leaves. -/
theorem wrote_branch {c : Node} (h : (w.leaves (flatten c).2 s).state.wrote.isSome) :
    (w.branch c s).2.1.wrote.isSome ∧ (w.branch c s).2.2.wrote.isSome := by
  simp only [branch]
  split
  · exact ⟨h, h⟩
  · split
    · exact ⟨h, rfl⟩
    · split
      · exact ⟨rfl, h⟩
      · exact ⟨h, h⟩

theorem reports_branch {c : Node} (h : w.Reports call (w.leaves (flatten c).2 s).notes) :
    w.Reports call (w.branch c s).1 := by
  simp only [branch]
  split
  · exact h
  · split
    · exact h
    · split
      · exact h
      · exact h.left _

theorem counts_test {c : Node} {side : Branch} (hside : side ≠ .always) (s : FlowState) :
    w.Counts (w.calls (.test c side)) s (w.react (.test c side) s).1
      (w.react (.test c side) s).2 := by
  have h := counts_leaves (w := w) (flatten c).2 s
  have hwrote (hs : (w.leaves (flatten c).2 s).state.wrote.isSome) :
      (w.react (.test c side) s).2.wrote.isSome := by
    cases side with
    | always => exact absurd rfl hside
    | yes => exact (wrote_branch hs).1
    | no => exact (wrote_branch hs).2
  exact
    { keeps := fun hs => hwrote (h.keeps hs)
      leaves := fun c hc hplain => hwrote (h.leaves c hc hplain)
      follows := fun hs c hc => reports_branch (h.follows hs c hc)
      repeats := fun first second hplain hsub => reports_branch (h.repeats first second hplain hsub) }

/-! ## Walks -/

/-- Every condition is left on one of its sides. -/
def Decided (es : List (Event Node)) : Prop := ∀ c, Event.test c .always ∉ es

theorem counts_run {es : List (Event Node)} (hes : Decided es) (s : FlowState) :
    w.Counts (es.flatMap w.calls) s (w.run es s).1 (w.run es s).2 := by
  induction es generalizing s with
  | nil => exact .nil id
  | cons e es ih =>
    have hrest := ih fun c hc => hes c (List.mem_cons_of_mem _ hc)
    have hfirst : w.Counts (w.calls e) s (w.react e s).1 (w.react e s).2 := by
      cases e with
      | piece n => exact counts_item n s
      | test c side =>
        refine counts_test (fun hside => ?_) s
        subst hside
        exact hes c List.mem_cons_self
    exact hfirst.append (hrest _)

/-- The conditions of a walk are left on one of their sides. -/
theorem decided_of_walk {g : Graph Node} (hg : g.Sound) {a b : Nat} {es : List (Event Node)}
    (h : g.Walk a es b) : Decided es := by
  induction h with
  | here => exact fun c hc => absurd hc List.not_mem_nil
  | @step a b es e he _ ih =>
    intro c hc
    rcases List.mem_append.1 hc with hc | hc
    · obtain ⟨hcond, hside⟩ : c ∈ g.cond a ∧ e.branch = .always := by
        simpa [Graph.events, Graph.eventsFrom, evals] using hc
      exact hg.sides a (by simp [Option.mem_def.1 hcond]) e he hside
    · exact ih c hc

theorem decided_events (g : Graph Node) (b : Nat) : Decided (g.events b .yes) := by
  intro c hc
  simp [Graph.events, Graph.eventsFrom, evals] at hc

/-- The side on which the last block of a walk is left changes neither writes nor reports. -/
theorem calls_events (g : Graph Node) (b : Nat) (side side' : Branch) :
    (g.events b side).flatMap w.calls = (g.events b side').flatMap w.calls := by
  simp only [Graph.events, Graph.eventsFrom, List.flatMap_append, List.flatMap_map]
  rfl

/-- Writes on a walk after a plain one are reported. -/
theorem reports_of_trace {g : Graph Node} (hg : g.Sound) {es : List (Event Node)} {b : Nat}
    (h : g.Trace es b) {first second : Node × Use} (hplain : first.2 = .plain)
    (hcalls : [first, second].Sublist (es.flatMap w.calls)) :
    w.Reports second.1 (w.run es {}).1 := by
  obtain ⟨before, side, hwalk, rfl⟩ := h
  have hdecided : Decided (before ++ g.events b .yes) := by
    intro c hc
    rcases List.mem_append.1 hc with hc | hc
    · exact decided_of_walk hg hwalk c hc
    · exact decided_events g b c hc
  have hrun : (w.run (before ++ g.events b side) {}).1 =
      (w.run (before ++ g.events b .yes) {}).1 := by
    rw [run_append, run_append, ← notes_eq, ← notes_eq]
  rw [List.flatMap_append, calls_events g b side .yes, ← List.flatMap_append] at hcalls
  rw [hrun]
  exact (counts_run hdecided {}).repeats first second hplain hcalls

end WriteCheck

/-! ## Handlers for examples -/

/-- The file `api/server.go` whose only function, over a context `jc`, has these lines. -/
def Handler.sampleFile (lines : List String) : SourceFile :=
  (SourceFile.read? ⟨"api/server.go"⟩
    (String.join (["package api\n", "import \"go.sia.tech/jape\"\n",
      "func handler(jc jape.Context) \x7b\n"] ++ lines.map (· ++ "\n") ++ ["\x7d\n"]))).getD default

def Handler.sample (lines : List String) : Handler :=
  ((((sampleFile lines).tree.named.find? (·.kind == .functionDeclaration)).bind
    (Handler.ofFunction? (sampleFile lines))).getD default)

/-- The check of that function in a program of this file alone. -/
def WriteCheck.sample (lines : List String) : WriteCheck :=
  ⟨(Handler.sample lines).typer (.build ⟨[Handler.sampleFile lines]⟩), "jape"⟩

theorem trace_first (g : Graph Node) (side : Branch) :
    g.Trace (g.events Graph.entry side) Graph.entry :=
  ⟨[], side, .here _, rfl⟩

theorem trace_entry {g : Graph Node} (h : (g.cond Graph.entry).isNone) :
    g.Trace (evals (g.items Graph.entry)) Graph.entry := by
  have hevents : g.events Graph.entry .always = evals (g.items Graph.entry) := by
    simp [Graph.events, Graph.eventsFrom, Option.isNone_iff_eq_none.1 h]
  exact hevents ▸ trace_first g .always

theorem exists_pair_of_sites {calls : List (Node × Use)} {x y : Site} {u v : Use}
    (h : calls.map (fun c => (c.1.site, c.2)) = [(x, u), (y, v)]) :
    ∃ first second, calls = [(first, u), (second, v)] ∧ second.site = y := by
  match calls, h with
  | [(first, _), (second, _)], h =>
    simp only [List.map_cons, List.map_nil, List.cons.injEq, Prod.mk.injEq, and_true] at h
    obtain ⟨⟨-, rfl⟩, hsecond, rfl⟩ := h
    exact ⟨first, second, rfl, hsecond⟩

/-! ## Repeated writes -/

/-- On every walk through a handler, a write that comes after a plain one is reported. The walk
may end anywhere, and other writes and conditions may lie between the two. -/
theorem repeated_write_reported (index : Index) (library : String) (h : Handler)
    {es : List (Event Node)} {b : Nat} (htrace : h.graph.Trace es b) {first second : Node}
    {use : Use} (hcalls : [(first, .plain), (second, use)].Sublist
      (es.flatMap (WriteCheck.calls ⟨h.typer index, library⟩))) :
    ∃ line column : Nat, ⟨h.file.position second,
      "handler writes multiple responses (previous write at " ++ toString line ++ ":" ++
        toString column ++ ")"⟩ ∈ checkHandler index library h := by
  have hnotes := WriteCheck.reports_of_trace (Graph.sound_ofBody _) htrace rfl hcalls
  obtain ⟨line, column, hmem⟩ := hnotes
  rw [show (WriteCheck.typer ⟨h.typer index, library⟩).file = h.file from Typer.enclosing_file ..]
    at hmem
  exact ⟨line, column, mem_checkHandler_iff.2 ⟨es, b, htrace, hmem⟩⟩

/-- A handler that encodes twice is reported at the second call, in line 5. -/
theorem repeated_write_reported_encode :
    let lines := ["jc.Encode(1)", "jc.Encode(2)"]
    let h := Handler.sample lines
    let index := Index.build ⟨[Handler.sampleFile lines]⟩
    ∃ es b first second, h.graph.Trace es b ∧
      [(first, .plain), (second, .plain)].Sublist
        (es.flatMap (WriteCheck.calls ⟨h.typer index, "jape"⟩)) ∧
      second.site = (5, 1) ∧
      ∃ line column : Nat, ⟨h.file.position second,
        "handler writes multiple responses (previous write at " ++ toString line ++ ":" ++
          toString column ++ ")"⟩ ∈ checkHandler index "jape" h := by
  intro lines h index
  let es := evals (h.graph.items Graph.entry)
  have heval : (h.graph.cond Graph.entry).isNone ∧
      (es.flatMap (WriteCheck.calls ⟨h.typer index, "jape"⟩)).map (fun c => (c.1.site, c.2)) =
        [((4, 1), .plain), ((5, 1), .plain)] := by decide +kernel
  have htrace : h.graph.Trace es Graph.entry := trace_entry heval.1
  obtain ⟨first, second, hcalls, hsecond⟩ := exists_pair_of_sites heval.2
  have hsub : [(first, Use.plain), (second, .plain)].Sublist
      (es.flatMap (WriteCheck.calls ⟨h.typer index, "jape"⟩)) := hcalls ▸ .refl _
  exact ⟨es, Graph.entry, first, second, htrace, hsub, hsecond,
    repeated_write_reported index "jape" h htrace hsub⟩

/-- Handlers that execute two writes one after the other, with no condition between, and are not
reported: the first result is kept and not looked at; a write stands in the arguments of a kept
one; a write stands on the left of an assignment. In the next one the call that is executed last
is the outer one, and the inner one is reported. In the last one a condition makes two writes and
compares the outer one alone with nil. -/
theorem unreported_writes :
    (∀ lines ∈ [["var n int", "err := jc.Decode(&n)", "jc.Encode(n)"],
        ["var n int", "err := jc.Check(\"failed\", jc.Decode(&n))"],
        ["var n int", "m := map[error]int\x7b\x7d", "jc.Encode(n)", "m[jc.Decode(&n)] = 1"]],
      let h := Handler.sample lines
      let index := Index.build ⟨[Handler.sampleFile lines]⟩
      ∃ ns, h.graph.Trace (evals ns) Graph.entry ∧
        (ns.flatMap (WriteCheck.writes ⟨h.typer index, "jape"⟩)).length = 2 ∧
        checkHandler index "jape" h = []) ∧
    (let lines := ["var n int", "jc.Check(\"failed\", jc.Decode(&n))"]
      let h := Handler.sample lines
      let index := Index.build ⟨[Handler.sampleFile lines]⟩
      ∃ ns, h.graph.Trace (evals ns) Graph.entry ∧
        (ns.flatMap (WriteCheck.writes ⟨h.typer index, "jape"⟩)).map Node.site =
          [(5, 1), (5, 20)] ∧
        (checkHandler index "jape" h).map (·.position) = [⟨⟨"api/server.go"⟩, 5, 20⟩]) ∧
    let lines := ["var n int", "if jc.Check(\"failed\", jc.Decode(&n)) != nil \x7b", "\x7d"]
    let h := Handler.sample lines
    let index := Index.build ⟨[Handler.sampleFile lines]⟩
    ∃ es, h.graph.Trace es Graph.entry ∧
      (es.flatMap fun e => WriteCheck.writes ⟨h.typer index, "jape"⟩ e.subject).map Node.site =
        [(5, 4), (5, 23)] ∧
      checkHandler index "jape" h = [] := by
  have hunreported : (∀ lines ∈ [["var n int", "err := jc.Decode(&n)", "jc.Encode(n)"],
        ["var n int", "err := jc.Check(\"failed\", jc.Decode(&n))"],
        ["var n int", "m := map[error]int\x7b\x7d", "jc.Encode(n)", "m[jc.Decode(&n)] = 1"]],
      let h := Handler.sample lines
      let index := Index.build ⟨[Handler.sampleFile lines]⟩
      (h.graph.cond Graph.entry).isNone ∧
        ((h.graph.items Graph.entry).flatMap
          (WriteCheck.writes ⟨h.typer index, "jape"⟩)).length = 2 ∧
        checkHandler index "jape" h = []) := by decide +kernel
  have hnested :
      let lines := ["var n int", "jc.Check(\"failed\", jc.Decode(&n))"]
      let h := Handler.sample lines
      let index := Index.build ⟨[Handler.sampleFile lines]⟩
      (h.graph.cond Graph.entry).isNone ∧
        ((h.graph.items Graph.entry).flatMap
          (WriteCheck.writes ⟨h.typer index, "jape"⟩)).map Node.site = [(5, 1), (5, 20)] ∧
        (checkHandler index "jape" h).map (·.position) = [⟨⟨"api/server.go"⟩, 5, 20⟩] := by
    decide +kernel
  refine ⟨fun lines hlines => ?_, ?_, ?_⟩
  · obtain ⟨hcond, hwrites, hnotes⟩ := hunreported lines hlines
    exact ⟨_, trace_entry hcond, hwrites, hnotes⟩
  · obtain ⟨hcond, hwrites, hnotes⟩ := hnested
    exact ⟨_, trace_entry hcond, hwrites, hnotes⟩
  · intro lines h index
    have hcompared : ((h.graph.events Graph.entry .yes).flatMap fun e =>
        WriteCheck.writes ⟨h.typer index, "jape"⟩ e.subject).map Node.site = [(5, 4), (5, 23)] ∧
        checkHandler index "jape" h = [] := by decide +kernel
    exact ⟨_, trace_first _ .yes, hcompared⟩

end RouteCheck
