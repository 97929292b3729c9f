import RouteCheck.Proofs.Flow.Reading

/-!
What it means that a statement is laid out in a graph, and why its runs are then the paths
through that part of the graph.

A point is a block with a number of its items already evaluated. `Laid G ts s p q` says of the
finished graph `G` that statement `s` occupies it from point `p` on, and that what follows `s`
begins at point `q`; `ts` are the targets of jumps. It speaks of `G` alone, not of how it was
built.

Main statements:
  1. `path_of_runs`: a run of a laid-out statement, continued by a path from where the run ends,
     is a path from `p`.
  2. `runs_of_path`: every path from `p` splits into a run of the statement and a path from
     where it ends, over no more edges.
Both are inductions on the statement; loops need an inner one, on the rounds and on the number
of edges.
-/

namespace RouteCheck

open Event

/-- A block and how many of its items are already evaluated. -/
abbrev CodePoint := Nat × Nat

namespace Graph

variable {α : Type}

def always (b : Nat) (ts : List Nat) : List Edge := ts.map fun t => ⟨b, t, .always⟩

/-- From point `p` on its block holds `as`, then the condition `c`, and it has just these edges. -/
structure Tail (G : Graph α) (p : CodePoint) (as : List α) (c : Option α) (edges : List Edge) :
    Prop where
  ne_exit : p.1 ≠ exit
  items : (G.items p.1).drop p.2 = as
  cond : G.cond p.1 = c
  out : G.out p.1 = edges

/-- Where a choice leads: into each clause, and past it if no clause need be taken. -/
def choiceTargets (waits : Bool) (clauses : List (Clause α)) (starts : List Nat) (after : Nat) :
    List Nat :=
  starts ++ if !clauses.any Clause.isDefault && !waits then [after] else []

mutual
/-- The statement lies in `G` from point `p` on, and what follows it begins at `q`. -/
def Laid (G : Graph α) (ts : List Target) : Stmt α → CodePoint → CodePoint → Prop
  | .skip, p, q => q = p
  | .piece a, p, q => q = (p.1, p.2 + 1) ∧ ∃ more, (G.items p.1).drop p.2 = [a] ++ more
  | .block body, p, q => LaidAll G ts body p q
  | .branch init cond yes none, p, q =>
    ∃ start last, G.Tail p init.toList (some cond) [⟨p.1, start, .yes⟩, ⟨p.1, q.1, .no⟩] ∧
      Laid G ts yes (start, 0) last ∧ G.Tail last [] none (always last.1 [q.1]) ∧ q.2 = 0
  | .branch init cond yes (some no), p, q =>
    ∃ start last start' last',
      G.Tail p init.toList (some cond) [⟨p.1, start, .yes⟩, ⟨p.1, start', .no⟩] ∧
      Laid G ts yes (start, 0) last ∧ G.Tail last [] none (always last.1 [q.1]) ∧
      Laid G ts no (start', 0) last' ∧ G.Tail last' [] none (always last'.1 [q.1]) ∧ q.2 = 0
  | .loop label before head bounded update body, p, q =>
    ∃ header next start last, G.Tail p before none (always p.1 [header]) ∧
      G.Tail (header, 0) head none
        (always header ((if bounded then [q.1] else []) ++ [start])) ∧
      Laid G (⟨label, q.1, some next⟩ :: ts) body (start, 0) last ∧
      G.Tail last [] none (always last.1 [next]) ∧
      G.Tail (next, 0) update.toList none (always next [header]) ∧ q.2 = 0
  | .choice label head waits clauses, p, q =>
    ∃ starts, G.Tail p head none (always p.1 (choiceTargets waits clauses starts q.1)) ∧
      LaidClauses G (⟨label, q.1, none⟩ :: ts) q.1 clauses starts ∧ q.2 = 0
  | .stop last, p, _ => G.Tail p last.toList none (always p.1 [exit])
  | .jump isBreak label, p, _ => G.Tail p [] none (always p.1 (jumpTo? ts isBreak label).toList)

def LaidAll (G : Graph α) (ts : List Target) : List (Stmt α) → CodePoint → CodePoint → Prop
  | [], p, q => q = p
  | s :: rest, p, q => ∃ r, Laid G ts s p r ∧ LaidAll G ts rest r q

/-- The clauses lie in blocks that begin at `starts`. -/
def LaidClauses (G : Graph α) (ts : List Target) (after : Nat) :
    List (Clause α) → List Nat → Prop
  | [], starts => starts = []
  | .mk _ head body falls :: rest, starts =>
    ∃ start others last, starts = start :: others ∧ (∃ more, G.items start = head ++ more) ∧
      LaidAll G ts body (start, head.length) last ∧
      G.Tail last [] none (always last.1 (if falls then others.head?.toList else [after])) ∧
      LaidClauses G ts after rest others
end

/-! ## Paths through parts of a block -/

theorem eventsFrom_append {G : Graph α} {b i : Nat} {as more : List α} {side : Branch}
    (h : (G.items b).drop i = as ++ more) :
    G.eventsFrom b i side = evals as ++ G.eventsFrom b (i + as.length) side := by
  have hdrop : (G.items b).drop (i + as.length) = more := by
    rw [← List.drop_drop, h, List.drop_left]
  simp only [eventsFrom, h, hdrop, evals_append, List.append_assoc]

/-- A path may be cut after the next items of its block. -/
theorem path_items_iff {G : Graph α} {n b i : Nat} {as more : List α} {es : List (Event α)}
    (h : (G.items b).drop i = as ++ more) :
    G.Path n b i es ↔ ∃ rest, es = evals as ++ rest ∧ G.Path n b (i + as.length) rest := by
  constructor
  · intro hp
    cases hp with
    | last _ side => exact ⟨_, eventsFrom_append h, .last _ side⟩
    | step he hp =>
      rw [eventsFrom_append h, List.append_assoc]
      exact ⟨_, rfl, .step he hp⟩
  · rintro ⟨rest, rfl, hp⟩
    cases hp with
    | last _ side =>
      rw [← eventsFrom_append h]
      exact .last i side
    | step he hp =>
      rw [← List.append_assoc, ← eventsFrom_append h]
      exact .step he hp

theorem Tail.eventsFrom {G : Graph α} {p : CodePoint} {as : List α} {c : Option α}
    {edges : List Edge} (h : G.Tail p as c edges) (side : Branch) :
    G.eventsFrom p.1 p.2 side = evals as ++ c.toList.map (.test · side) := by
  rw [Graph.eventsFrom, h.items, h.cond]

theorem Tail.path_iff {G : Graph α} {p : CodePoint} {as : List α} {c : Option α}
    {edges : List Edge} (h : G.Tail p as c edges) {n : Nat} {es : List (Event α)} :
    G.Path n p.1 p.2 es ↔ ∃ e ∈ edges, ∃ m rest, n = m + 1 ∧ G.Path m e.target 0 rest ∧
      es = evals as ++ c.toList.map (.test · e.branch) ++ rest := by
  obtain ⟨b, i⟩ := p
  constructor
  · intro hp
    cases hp with
    | last => exact absurd rfl h.ne_exit
    | @step m _ _ rest e he hp =>
      exact ⟨e, h.out ▸ he, m, rest, rfl, hp, by rw [← h.eventsFrom]⟩
  · rintro ⟨e, he, m, rest, rfl, hp, rfl⟩
    rw [← h.eventsFrom]
    exact .step (h.out ▸ he) hp

theorem Tail.path_always_iff {G : Graph α} {p : CodePoint} {as : List α} {ts : List Nat}
    (h : G.Tail p as none (always p.1 ts)) {n : Nat} {es : List (Event α)} :
    G.Path n p.1 p.2 es ↔
      ∃ t ∈ ts, ∃ m rest, n = m + 1 ∧ G.Path m t 0 rest ∧ es = evals as ++ rest := by
  rw [h.path_iff]
  simp only [always, List.mem_map, Option.toList_none, List.map_nil, List.append_nil]
  constructor
  · rintro ⟨_, ⟨t, ht, rfl⟩, h⟩
    exact ⟨t, ht, h⟩
  · rintro ⟨t, ht, h⟩
    exact ⟨_, ⟨t, ht, rfl⟩, h⟩

theorem Tail.path_jump_iff {G : Graph α} {p : CodePoint} {as : List α} {t : Nat}
    (h : G.Tail p as none (always p.1 [t])) {n : Nat} {es : List (Event α)} :
    G.Path n p.1 p.2 es ↔ ∃ m rest, n = m + 1 ∧ G.Path m t 0 rest ∧ es = evals as ++ rest := by
  rw [h.path_always_iff]
  simp only [List.mem_singleton, exists_eq_left]

/-! ## Where a run goes on -/

/-- The point where the run of a statement with this end goes on: behind the statement, at the
exit, or at the target of a jump. -/
def land (ts : List Target) (q : CodePoint) : Ending → Option CodePoint
  | .done => some q
  | .stop => some (exit, 0)
  | .jump isBreak label => (jumpTo? ts isBreak label).map (·, 0)

section
variable {ts : List Target} {label named : Option String} {after next : Nat} {o : Ending}

theorem jumpTo?_break (after : Nat) (continueTo : Option Nat) (h : Ending.Aims label named) :
    jumpTo? (⟨label, after, continueTo⟩ :: ts) true named = some after := by
  rcases h with rfl | rfl
  · simp [jumpTo?]
  · cases named <;> simp [jumpTo?]

theorem jumpTo?_continue (after next : Nat) (h : Ending.Aims label named) :
    jumpTo? (⟨label, after, some next⟩ :: ts) false named = some next := by
  rcases h with rfl | rfl
  · simp [jumpTo?]
  · cases named <;> simp [jumpTo?]

theorem jumpTo?_not_aims {t : Target} {isBreak : Bool} (h : ¬Ending.Aims t.label named) :
    jumpTo? (t :: ts) isBreak named = jumpTo? ts isBreak named := by
  cases named with
  | none => exact absurd (.inl rfl) h
  | some x =>
    have hx : ¬t.label = some x := fun hx => h (.inr hx.symm)
    simp [jumpTo?, hx]

theorem jumpTo?_choice_continue :
    jumpTo? (⟨label, after, none⟩ :: ts) false none = jumpTo? ts false none := by
  simp [jumpTo?]

theorem land_breaks (q : CodePoint) (continueTo : Option Nat) (h : o.Breaks label) :
    land (⟨label, after, continueTo⟩ :: ts) q o = some (after, 0) := by
  obtain ⟨named, rfl, hn⟩ := h
  rw [land, jumpTo?_break after continueTo hn]
  rfl

theorem land_continues (q : CodePoint) (h : Ending.Aims label named) :
    land (⟨label, after, some next⟩ :: ts) q (.jump false named) = some (next, 0) := by
  rw [land, jumpTo?_continue after next h]
  rfl

theorem land_goesOn {q r : CodePoint} (h : o.GoesOn label)
    (hr : land (⟨label, after, some next⟩ :: ts) q o = some r) :
    (o = .done ∧ r = q) ∨ r = (next, 0) := by
  rcases h with rfl | ⟨named, rfl, hn⟩
  · exact .inl ⟨rfl, by simpa [land] using hr.symm⟩
  · rw [land_continues q hn] at hr
    exact .inr (by simpa using hr.symm)

theorem land_passesLoop {t : Target} (q q' : CodePoint) (h : o.PassesLoop t.label) :
    land (t :: ts) q o = land ts q' o := by
  rcases h with rfl | ⟨isBreak, named, rfl, hn⟩
  · rfl
  · simp only [land, jumpTo?_not_aims hn]

theorem land_passesChoice (q q' : CodePoint) (h : o.PassesChoice label) :
    land (⟨label, after, none⟩ :: ts) q o = land ts q' o := by
  rcases h with h | rfl
  · exact land_passesLoop q q' h
  · simp only [land, jumpTo?_choice_continue]

theorem land_congr {q q' : CodePoint} (h : o ≠ .done) : land ts q o = land ts q' o := by
  cases o with
  | done => exact absurd rfl h
  | stop => rfl
  | jump => rfl

/-- Every end of a clause that leads anywhere settles the choice, and leads to the same place. -/
theorem settles_of_land {r : CodePoint}
    (hr : land (⟨label, after, none⟩ :: ts) (after, 0) o = some r) :
    ∃ o', o.Settles label o' ∧ land ts (after, 0) o' = some r := by
  have hpass (h : o.PassesChoice label) : land ts (after, 0) o = some r := by
    rw [← hr, land_passesChoice _ _ h]
  rcases Ending.loop_cases label o with (rfl | ⟨named, rfl, hn⟩) | hb | hp
  · exact ⟨.done, .inl ⟨rfl, .inl rfl⟩, hr⟩
  · rcases hn with rfl | rfl
    · exact ⟨_, .inr ⟨rfl, .inr rfl⟩, hpass (.inr rfl)⟩
    · cases named with
      | none => exact ⟨_, .inr ⟨rfl, .inr rfl⟩, hpass (.inr rfl)⟩
      | some x => simp [land, jumpTo?] at hr
  · rw [land_breaks _ _ hb] at hr
    exact ⟨.done, .inl ⟨rfl, .inr hb⟩, hr⟩
  · exact ⟨o, .inr ⟨rfl, .inl hp⟩, hpass (.inl hp)⟩

theorem land_of_settles {o' : Ending} {r : CodePoint} (h : o.Settles label o')
    (hr : land ts (after, 0) o' = some r) :
    land (⟨label, after, none⟩ :: ts) (after, 0) o = some r := by
  rcases h with ⟨rfl, rfl | hb⟩ | ⟨rfl, hp⟩
  · exact hr
  · rw [land_breaks _ _ hb]
    exact hr
  · rw [← hr, land_passesChoice _ _ hp]

end

/-! ## Runs are paths -/

/-- The rounds of a laid-out loop are paths from its header. -/
theorem path_of_rounds {G : Graph α} {ts : List Target} {label : Option String} {head : List α}
    {bounded : Bool} {update : Option α} {body : List (Event α) → Ending → Prop}
    {header next start after : Nat} {last : CodePoint}
    (hheader : G.Tail (header, 0) head none
      (always header ((if bounded then [after] else []) ++ [start])))
    (hlast : G.Tail last [] none (always last.1 [next]))
    (hnext : G.Tail (next, 0) update.toList none (always next [header]))
    (hbody : ∀ {es o r m rest}, body es o →
      land (⟨label, after, some next⟩ :: ts) last o = some r → G.Path m r.1 r.2 rest →
      ∃ n, G.Path n start 0 (es ++ rest))
    {es : List (Event α)} {o : Ending} (h : Rounds label head bounded update body es o)
    {r : CodePoint} {m : Nat} {rest : List (Event α)} (hr : land ts (after, 0) o = some r)
    (hp : G.Path m r.1 r.2 rest) : ∃ n, G.Path n header 0 (es ++ rest) := by
  have henter : ∀ {n es}, G.Path n start 0 es → G.Path (n + 1) header 0 (evals head ++ es) :=
    fun hp => hheader.path_always_iff.2 ⟨start, by simp, _, _, rfl, hp, rfl⟩
  induction h with
  | leave hb =>
    obtain rfl : (after, 0) = r := by simpa [land] using hr
    exact ⟨_, hheader.path_always_iff.2 ⟨after, by simp [hb], _, _, rfl, hp, rfl⟩⟩
  | @round es₁ es₂ inner _ h₁ hgo _ ih =>
    obtain ⟨n, hn⟩ := ih hr
    have hback : G.Path (n + 1) next 0 (evals update.toList ++ (es₂ ++ rest)) :=
      hnext.path_jump_iff.2 ⟨_, _, rfl, hn, rfl⟩
    -- whether the body falls off its end or goes on with the next round, the update comes next
    have hland : ∃ k, G.Path k start 0 (es₁ ++ (evals update.toList ++ (es₂ ++ rest))) := by
      rcases hgo with rfl | ⟨named, rfl, hnamed⟩
      · refine hbody h₁ rfl (m := n + 2) ?_
        exact hlast.path_jump_iff.2 ⟨_, _, rfl, hback, rfl⟩
      · exact hbody h₁ (land_continues last hnamed) hback
    obtain ⟨k, hk⟩ := hland
    exact ⟨k + 1, by simpa only [List.append_assoc] using henter hk⟩
  | breakLoop h₁ hb =>
    obtain rfl : (after, 0) = r := by simpa [land] using hr
    obtain ⟨k, hk⟩ := hbody h₁ (land_breaks _ _ hb) hp
    exact ⟨k + 1, by simpa only [List.append_assoc] using henter hk⟩
  | passLoop h₁ hpass =>
    obtain ⟨k, hk⟩ := hbody h₁ ((land_passesLoop last _ hpass).trans hr) hp
    exact ⟨k + 1, by simpa only [List.append_assoc] using henter hk⟩

/-- Code that ends before an edge to `q` may as well end at `q`. -/
theorem path_of_join {G : Graph α} {ts : List Target} {last q r : CodePoint} {o : Ending}
    {m : Nat} {rest : List (Event α)} (hlast : G.Tail last [] none (always last.1 [q.1]))
    (hq : q.2 = 0) (hr : land ts q o = some r) (hp : G.Path m r.1 r.2 rest) :
    ∃ r' m', land ts last o = some r' ∧ G.Path m' r'.1 r'.2 rest := by
  by_cases ho : o = .done
  · subst ho
    obtain rfl : q = r := by simpa [land] using hr
    exact ⟨last, m + 1, rfl, hlast.path_jump_iff.2 ⟨m, _, rfl, hq ▸ hp, rfl⟩⟩
  · exact ⟨r, m, (land_congr ho).trans hr, hp⟩

mutual
/-- A run of a laid-out statement, continued from where it ends, is a path. -/
theorem path_of_runs {G : Graph α} : ∀ (s : Stmt α) {ts : List Target} {p q r : CodePoint}
    {es rest : List (Event α)} {o : Ending} {m : Nat}, s.Runs es o → G.Laid ts s p q →
    land ts q o = some r → G.Path m r.1 r.2 rest → ∃ n, G.Path n p.1 p.2 (es ++ rest)
  | .skip, _, p, q, r, _, _, _, m, ⟨hes, ho⟩, hl, hr, hp => by
    subst hes ho
    obtain rfl : q = p := hl
    obtain rfl : q = r := by simpa [land] using hr
    exact ⟨m, hp⟩
  | .piece a, _, p, q, r, _, _, _, m, ⟨hes, ho⟩, ⟨hq, more, hitems⟩, hr, hp => by
    subst hes ho hq
    obtain rfl : (p.1, p.2 + 1) = r := by simpa [land] using hr
    exact ⟨m, (path_items_iff hitems).2 ⟨_, rfl, hp⟩⟩
  | .block body, _, _, _, _, _, _, _, _, h, hl, hr, hp => pathAll_of_runs body h hl hr hp
  | .branch init cond yes none, _, p, q, r, _, _, _, m, h, hl, hr, hp => by
    obtain ⟨start, last, hhead, hyes, hlast, hq⟩ := hl
    rcases h with ⟨es, rfl, h⟩ | ⟨rfl, rfl⟩
    · obtain ⟨r', m', hr', hp'⟩ := path_of_join hlast hq hr hp
      obtain ⟨k, hk⟩ := path_of_runs yes h hyes hr' hp'
      exact ⟨k + 1, hhead.path_iff.2 ⟨⟨p.1, start, .yes⟩, by simp, _, _, rfl, hk, by simp⟩⟩
    · obtain rfl : q = r := by simpa [land] using hr
      rw [hq] at hp
      refine ⟨m + 1, hhead.path_iff.2 ⟨⟨p.1, q.1, .no⟩, by simp, _, _, rfl, hp, by simp⟩⟩
  | .branch init cond yes (some no), _, p, q, r, _, _, _, m, h, hl, hr, hp => by
    obtain ⟨start, last, start', last', hhead, hyes, hlast, hno, hlast', hq⟩ := hl
    rcases h with ⟨es, rfl, h⟩ | ⟨es, rfl, h⟩
    · obtain ⟨r', m', hr', hp'⟩ := path_of_join hlast hq hr hp
      obtain ⟨k, hk⟩ := path_of_runs yes h hyes hr' hp'
      exact ⟨k + 1, hhead.path_iff.2 ⟨⟨p.1, start, .yes⟩, by simp, _, _, rfl, hk, by simp⟩⟩
    · obtain ⟨r', m', hr', hp'⟩ := path_of_join hlast' hq hr hp
      obtain ⟨k, hk⟩ := path_of_runs no h hno hr' hp'
      exact ⟨k + 1, hhead.path_iff.2 ⟨⟨p.1, start', .no⟩, by simp, _, _, rfl, hk, by simp⟩⟩
  | .loop label before head bounded update body, ts, p, q, r, _, _, _, m, h, hl, hr, hp => by
    obtain ⟨header, next, start, last, hbefore, hheader, hbody, hlast, hnext, hq⟩ := hl
    obtain ⟨es, rfl, h⟩ := h
    obtain ⟨k, hk⟩ := path_of_rounds hheader hlast hnext
      (fun h hr hp => path_of_runs body h hbody hr hp) h (by rwa [← hq]) hp
    exact ⟨k + 1, hbefore.path_jump_iff.2 ⟨_, _, rfl, hk, by simp⟩⟩
  | .choice label head waits clauses, ts, p, q, r, _, _, _, m, h, hl, hr, hp => by
    obtain ⟨starts, hhead, hclauses, hq⟩ := hl
    obtain ⟨after, _⟩ := q
    obtain rfl := hq
    rcases h with ⟨es, inner, rfl, h, hset⟩ | ⟨hw, hd, rfl, rfl⟩
    · -- the clause that is taken is one of the targets of the head
      obtain ⟨t, k, ht, hk⟩ := pathClauses_of_runs clauses h hclauses (land_of_settles hset hr) hp
      refine ⟨k + 1, hhead.path_always_iff.2 ⟨t, ?_, _, _, rfl, hk, by simp⟩⟩
      exact List.mem_append_left _ ht
    · obtain rfl : (after, 0) = r := by simpa [land] using hr
      exact ⟨m + 1, hhead.path_always_iff.2
        ⟨after, by simp [choiceTargets, hd, hw], _, _, rfl, hp, rfl⟩⟩
  | .stop last, _, p, _, r, _, _, _, m, ⟨hes, ho⟩, hl, hr, hp => by
    subst hes ho
    obtain rfl : (exit, 0) = r := by simpa [land] using hr
    exact ⟨m + 1, (Tail.path_jump_iff hl).2 ⟨_, _, rfl, hp, rfl⟩⟩
  | .jump isBreak label, _, p, _, r, _, _, _, m, ⟨hes, ho⟩, hl, hr, hp => by
    subst hes ho
    obtain ⟨t, ht, rfl⟩ := Option.map_eq_some_iff.1 hr
    exact ⟨m + 1, (Tail.path_always_iff hl).2 ⟨t, by simp [ht], _, _, rfl, hp, rfl⟩⟩

theorem pathAll_of_runs {G : Graph α} : ∀ (ss : List (Stmt α)) {ts : List Target}
    {p q r : CodePoint} {es rest : List (Event α)} {o : Ending} {m : Nat},
    Stmt.RunsAll ss es o → G.LaidAll ts ss p q → land ts q o = some r → G.Path m r.1 r.2 rest →
    ∃ n, G.Path n p.1 p.2 (es ++ rest)
  | [], _, p, q, r, _, _, _, m, ⟨hes, ho⟩, hl, hr, hp => by
    subst hes ho
    obtain rfl : q = p := hl
    obtain rfl : q = r := by simpa [land] using hr
    exact ⟨m, hp⟩
  | s :: ss, _, _, _, _, _, _, _, _, h, ⟨mid, hs, hss⟩, hr, hp => by
    rcases h with ⟨es₁, es₂, rfl, h₁, h₂⟩ | ⟨h₁, ho⟩
    · obtain ⟨k, hk⟩ := pathAll_of_runs ss h₂ hss hr hp
      rw [List.append_assoc]
      exact path_of_runs s h₁ hs rfl hk
    · exact path_of_runs s h₁ hs ((land_congr ho).trans hr) hp

theorem pathClauses_of_runs {G : Graph α} : ∀ (cs : List (Clause α)) {entered : Bool}
    {ts : List Target} {after : Nat} {starts : List Nat} {r : CodePoint}
    {es rest : List (Event α)} {o : Ending} {m : Nat}, Clause.Runs entered cs es o →
    G.LaidClauses ts after cs starts → land ts (after, 0) o = some r → G.Path m r.1 r.2 rest →
    ∃ t n, t ∈ (if entered then starts.head?.toList else starts) ∧ G.Path n t 0 (es ++ rest)
  | [], _, _, _, _, _, _, _, _, _, h, _, _, _ => h.elim
  | .mk _ head body falls :: cs, entered, ts, after, _, r, _, rest, o, m, h, hl, hr, hp => by
    obtain ⟨start, others, last, rfl, ⟨more, hhead⟩, hbody, hlast, hcs⟩ := hl
    have hstart : start ∈ if entered then (start :: others).head?.toList else start :: others := by
      cases entered <;> simp
    have henter : ∀ {k es}, G.Path k start head.length es → G.Path k start 0 (evals head ++ es) :=
      fun hp => (path_items_iff (i := 0) hhead).2 ⟨_, rfl, by simpa using hp⟩
    rcases h with ⟨es, rfl, h, hf⟩ | ⟨es₁, es₂, rfl, h₁, rfl, h₂⟩ | ⟨rfl, h⟩
    · have hland : ∃ r' m', land ts last o = some r' ∧ G.Path m' r'.1 r'.2 rest := by
        by_cases ho : o = .done
        · rw [hf ho] at hlast
          exact path_of_join (q := (after, 0)) hlast rfl hr hp
        · exact ⟨r, m, (land_congr ho).trans hr, hp⟩
      obtain ⟨r', m', hr', hp'⟩ := hland
      obtain ⟨k, hk⟩ := pathAll_of_runs body h hbody hr' hp'
      exact ⟨start, k, hstart, by simpa only [List.append_assoc] using henter hk⟩
    · obtain ⟨t, k, ht, hk⟩ := pathClauses_of_runs cs h₂ hcs hr hp
      obtain ⟨k', hk'⟩ := pathAll_of_runs body h₁ hbody rfl (m := k + 1)
        (hlast.path_always_iff.2 ⟨t, by simpa using ht, _, _, rfl, hk, rfl⟩)
      exact ⟨start, k', hstart, by simpa using henter hk'⟩
    · obtain ⟨t, k, ht, hk⟩ := pathClauses_of_runs cs h hcs hr hp
      exact ⟨t, k, List.mem_cons_of_mem _ (by simpa using ht), hk⟩
end

/-! ## Paths are runs -/

/-- What is evaluated on a path of `n` edges begins with a run, and a path over no more edges
goes on from where the run ends. -/
def Splits (G : Graph α) (run : List (Event α) → Ending → Prop) (ts : List Target)
    (q : CodePoint) (n : Nat) (es : List (Event α)) : Prop :=
  ∃ es₁ rest o r m, es = es₁ ++ rest ∧ run es₁ o ∧ land ts q o = some r ∧ m ≤ n ∧
    G.Path m r.1 r.2 rest

/-- A run that leads nowhere but to `last`, where an edge leads to `q`, may as well end at `q`. -/
theorem Splits.join {G : Graph α} {run : List (Event α) → Ending → Prop} {ts : List Target}
    {last q : CodePoint} {n : Nat} {es : List (Event α)}
    (hlast : G.Tail last [] none (always last.1 [q.1])) (hq : q.2 = 0)
    (h : G.Splits run ts last n es) : G.Splits run ts q n es := by
  obtain ⟨es₁, rest, o, r, m, rfl, hrun, hr, hm, hp⟩ := h
  by_cases ho : o = .done
  · subst ho
    obtain rfl : last = r := by simpa [land] using hr
    obtain ⟨m', rest', rfl, hp', rfl⟩ := hlast.path_jump_iff.1 hp
    exact ⟨es₁, _, .done, q, m', rfl, hrun, rfl, by omega, hq ▸ hp'⟩
  · exact ⟨es₁, rest, o, r, m, rfl, hrun, (land_congr ho).symm.trans hr, hm, hp⟩

theorem Splits.prepend {G : Graph α} {run run' : List (Event α) → Ending → Prop}
    {ts : List Target} {q : CodePoint} {n k : Nat} {es before : List (Event α)}
    (h : G.Splits run ts q n es) (hk : n ≤ k) (hrun : ∀ es o, run es o → run' (before ++ es) o) :
    G.Splits run' ts q k (before ++ es) := by
  obtain ⟨es₁, rest, o, r, m, rfl, h, hr, hm, hp⟩ := h
  exact ⟨before ++ es₁, rest, o, r, m, (List.append_assoc ..).symm, hrun _ _ h, hr,
    Nat.le_trans hm hk, hp⟩

/-- A path from the header of a laid-out loop begins with rounds of the loop. -/
theorem rounds_of_path {G : Graph α} {ts : List Target} {label : Option String} {head : List α}
    {bounded : Bool} {update : Option α} {body : List (Event α) → Ending → Prop}
    {header next start after : Nat} {last : CodePoint}
    (hheader : G.Tail (header, 0) head none
      (always header ((if bounded then [after] else []) ++ [start])))
    (hlast : G.Tail last [] none (always last.1 [next]))
    (hnext : G.Tail (next, 0) update.toList none (always next [header]))
    (hbody : ∀ {n es}, G.Path n start 0 es →
      G.Splits body (⟨label, after, some next⟩ :: ts) last n es)
    (n : Nat) : ∀ es, G.Path n header 0 es →
      G.Splits (Rounds label head bounded update body) ts (after, 0) n es := by
  -- by induction on the edges that are left, since a round takes at least one
  induction n using Nat.strongRecOn with
  | ind n ih =>
    intro es hp
    obtain ⟨t, ht, m, rest, rfl, hp₁, rfl⟩ := hheader.path_always_iff.1 hp
    rcases List.mem_append.1 ht with ht | ht
    · obtain ⟨hb, rfl⟩ : bounded = true ∧ t = after := by
        cases bounded <;> simp at ht ⊢
        exact ht
      exact ⟨_, rest, .done, _, m, rfl, .leave hb, rfl, by omega, hp₁⟩
    · obtain rfl : t = start := by simpa using ht
      obtain ⟨es₁, rest, o, r, k, rfl, hrun, hr, hk, hp₂⟩ := hbody hp₁
      rcases Ending.loop_cases label o with hgo | hb | hpass
      · -- the body goes on with the update, over no more edges than are left
        have hupdate : ∃ k' ≤ k, G.Path k' next 0 rest := by
          rcases land_goesOn hgo hr with ⟨rfl, rfl⟩ | rfl
          · obtain ⟨k', _, rfl, hp₃, rfl⟩ := hlast.path_jump_iff.1 hp₂
            exact ⟨k', by omega, hp₃⟩
          · exact ⟨k, Nat.le_refl k, hp₂⟩
        obtain ⟨k', hk', hp₃⟩ := hupdate
        obtain ⟨j, rest', rfl, hp₄, rfl⟩ := hnext.path_jump_iff.1 hp₃
        have hrest : G.Splits (Rounds label head bounded update body) ts (after, 0) (m + 1)
            ((evals head ++ (es₁ ++ evals update.toList)) ++ rest') :=
          (ih j (by omega) rest' hp₄).prepend (by omega) fun es o h => by
            simpa using Rounds.round hrun hgo h
        simpa using hrest
      · rw [land_breaks _ _ hb] at hr
        obtain rfl : (after, 0) = r := by simpa using hr
        exact ⟨evals head ++ es₁, rest, .done, _, k, by simp, .breakLoop hrun hb, rfl,
          by omega, hp₂⟩
      · rw [land_passesLoop _ (after, 0) hpass] at hr
        exact ⟨evals head ++ es₁, rest, o, r, k, by simp, .passLoop hrun hpass, hr,
          by omega, hp₂⟩

mutual
/-- A path from the start of a laid-out statement begins with a run of it. -/
theorem runs_of_path {G : Graph α} : ∀ (s : Stmt α) {ts : List Target} {p q : CodePoint}
    {n : Nat} {es : List (Event α)}, G.Laid ts s p q → G.Path n p.1 p.2 es →
    G.Splits (fun es o => s.Runs es o) ts q n es
  | .skip, _, p, q, n, es, hl, hp => by
    obtain rfl : q = p := hl
    exact ⟨[], es, .done, q, n, rfl, ⟨rfl, rfl⟩, rfl, Nat.le_refl n, hp⟩
  | .piece a, _, p, q, n, es, ⟨hq, more, hitems⟩, hp => by
    obtain ⟨rest, rfl, hp₁⟩ := (path_items_iff hitems).1 hp
    exact ⟨[.piece a], rest, .done, q, n, rfl, ⟨rfl, rfl⟩, rfl, Nat.le_refl n, hq ▸ hp₁⟩
  | .block body, _, _, _, _, _, hl, hp => runsAll_of_path body hl hp
  | .branch init cond yes none, _, p, q, n, es, hl, hp => by
    obtain ⟨start, last, hhead, hyes, hlast, hq⟩ := hl
    obtain ⟨e, he, m, rest, rfl, hp₁, rfl⟩ := hhead.path_iff.1 hp
    rcases List.mem_cons.1 he with rfl | he
    · exact ((runs_of_path yes hyes hp₁).join hlast hq).prepend (by omega) fun es o h =>
        .inl ⟨es, by simp, h⟩
    · obtain rfl := List.mem_singleton.1 he
      exact ⟨_, rest, .done, q, m, rfl, .inr ⟨by simp, rfl⟩, rfl, by omega, hq ▸ hp₁⟩
  | .branch init cond yes (some no), _, p, q, n, es, hl, hp => by
    obtain ⟨start, last, start', last', hhead, hyes, hlast, hno, hlast', hq⟩ := hl
    obtain ⟨e, he, m, rest, rfl, hp₁, rfl⟩ := hhead.path_iff.1 hp
    rcases List.mem_cons.1 he with rfl | he
    · exact ((runs_of_path yes hyes hp₁).join hlast hq).prepend (by omega) fun es o h =>
        .inl ⟨es, by simp, h⟩
    · obtain rfl := List.mem_singleton.1 he
      exact ((runs_of_path no hno hp₁).join hlast' hq).prepend (by omega) fun es o h =>
        .inr ⟨es, by simp, h⟩
  | .loop label before head bounded update body, ts, p, q, n, es, hl, hp => by
    obtain ⟨header, next, start, last, hbefore, hheader, hbody, hlast, hnext, hq⟩ := hl
    obtain ⟨after, _⟩ := q
    obtain rfl := hq
    obtain ⟨m, rest, rfl, hp₁, rfl⟩ := hbefore.path_jump_iff.1 hp
    exact (rounds_of_path hheader hlast hnext (fun hp => runs_of_path body hbody hp) m rest
      hp₁).prepend (by omega) fun es o h => ⟨es, rfl, h⟩
  | .choice label head waits clauses, ts, p, q, n, es, hl, hp => by
    obtain ⟨starts, hhead, hclauses, hq⟩ := hl
    obtain ⟨after, _⟩ := q
    obtain rfl := hq
    obtain ⟨t, ht, m, rest, rfl, hp₁, rfl⟩ := hhead.path_always_iff.1 hp
    rcases List.mem_append.1 ht with ht | ht
    · obtain ⟨es₁, rest, o, r, k, rfl, hrun, hr, hk, hp₂⟩ :=
        runsClauses_of_path clauses false hclauses ht hp₁
      obtain ⟨o', hset, hr'⟩ := settles_of_land hr
      exact ⟨evals head ++ es₁, rest, o', r, k, by simp, .inl ⟨es₁, o, rfl, hrun, hset⟩, hr',
        by omega, hp₂⟩
    · have hskip : (clauses.any Clause.isDefault = false ∧ waits = false) ∧ t = after := by
        simpa using ht
      obtain ⟨⟨hd, hw⟩, rfl⟩ := hskip
      exact ⟨evals head, rest, .done, _, m, rfl, .inr ⟨hw, hd, rfl, rfl⟩, rfl, by omega, hp₁⟩
  | .stop last, _, p, q, n, es, hl, hp => by
    obtain ⟨m, rest, rfl, hp₁, rfl⟩ := (Tail.path_jump_iff hl).1 hp
    exact ⟨evals last.toList, rest, .stop, _, m, rfl, ⟨rfl, rfl⟩, rfl, by omega, hp₁⟩
  | .jump isBreak label, ts, p, q, n, es, hl, hp => by
    obtain ⟨t, ht, m, _, rfl, hp₁, rfl⟩ := (Tail.path_always_iff hl).1 hp
    have ht : jumpTo? ts isBreak label = some t := by simpa using ht
    exact ⟨[], es, .jump isBreak label, _, m, rfl, ⟨rfl, rfl⟩, by simp only [land, ht]; rfl,
      by omega, hp₁⟩

theorem runsAll_of_path {G : Graph α} : ∀ (ss : List (Stmt α)) {ts : List Target}
    {p q : CodePoint} {n : Nat} {es : List (Event α)}, G.LaidAll ts ss p q →
    G.Path n p.1 p.2 es → G.Splits (fun es o => Stmt.RunsAll ss es o) ts q n es
  | [], _, p, q, n, es, hl, hp => by
    obtain rfl : q = p := hl
    exact ⟨[], es, .done, q, n, rfl, ⟨rfl, rfl⟩, rfl, Nat.le_refl n, hp⟩
  | s :: ss, _, p, q, n, es, ⟨mid, hs, hss⟩, hp => by
    obtain ⟨es₁, rest, o, r, m, rfl, hrun, hr, hm, hp₁⟩ := runs_of_path s hs hp
    by_cases ho : o = .done
    · subst ho
      obtain rfl : mid = r := by simpa [land] using hr
      exact (runsAll_of_path ss hss hp₁).prepend hm fun es o h => .inl ⟨es₁, es, rfl, hrun, h⟩
    · exact ⟨es₁, rest, o, r, m, rfl, .inr ⟨hrun, ho⟩, (land_congr ho).symm.trans hr, hm, hp₁⟩

theorem runsClauses_of_path {G : Graph α} : ∀ (cs : List (Clause α)) (entered : Bool)
    {ts : List Target} {after : Nat} {starts : List Nat} {t n : Nat} {es : List (Event α)},
    G.LaidClauses ts after cs starts → t ∈ (if entered then starts.head?.toList else starts) →
    G.Path n t 0 es → G.Splits (fun es o => Clause.Runs entered cs es o) ts (after, 0) n es
  | [], entered, _, _, starts, _, _, _, hl, ht, _ => by
    obtain rfl : starts = [] := hl
    cases entered <;> simp at ht
  | .mk isDefault head body falls :: cs, entered, ts, after, starts, t, n, es, hl, ht, hp => by
    obtain ⟨start, others, last, rfl, ⟨more, hhead⟩, hbody, hlast, hcs⟩ := hl
    by_cases hstart : t = start
    · subst hstart
      obtain ⟨es, rfl, hp₁⟩ := (path_items_iff (i := 0) hhead).1 hp
      have hsplit := runsAll_of_path body hbody (by simpa using hp₁)
      cases falls with
      | false =>
        exact (hsplit.join (q := (after, 0)) hlast rfl).prepend (Nat.le_refl n) fun es o h =>
          .inl ⟨es, rfl, h, fun _ => rfl⟩
      | true =>
        obtain ⟨es₁, rest, o, r, m, rfl, hrun, hr, hm, hp₂⟩ := hsplit
        by_cases ho : o = .done
        · subst ho
          obtain rfl : last = r := by simpa [land] using hr
          obtain ⟨t', ht', k, _, rfl, hp₃, rfl⟩ := hlast.path_always_iff.1 hp₂
          have hfall : G.Splits
              (fun es o => Clause.Runs entered (.mk isDefault head body true :: cs) es o)
              ts (after, 0) n ((evals head ++ es₁) ++ rest) :=
            (runsClauses_of_path cs true hcs (by simpa using ht') hp₃).prepend (by omega)
              fun es o h => .inr (.inl ⟨es₁, es, by simp, hrun, rfl, h⟩)
          simpa using hfall
        · exact ⟨evals head ++ es₁, rest, o, r, m, by simp,
            .inl ⟨es₁, rfl, hrun, fun h => absurd h ho⟩, (land_congr ho).symm.trans hr, hm, hp₂⟩
    · have hfalse : entered = false ∧ t ∈ others := by
        cases entered <;> simp [hstart] at ht ⊢
        exact ht
      obtain ⟨rfl, hmem⟩ := hfalse
      obtain ⟨es₁, rest, o, r, m, rfl, hrun, h⟩ := runsClauses_of_path cs false hcs hmem hp
      exact ⟨es₁, rest, o, r, m, rfl, .inr (.inr ⟨rfl, hrun⟩), h⟩
end

end Graph
end RouteCheck
