import RouteCheck.Proofs.Types.Initializers

/-!
Names that a clause declares for itself.

The name in front of the guard of a type switch is declared anew in every clause of the switch, and
those in front of a receive in the clause that receives. Collecting declarations comes to these
names as it comes to any other expression, and records nothing. So a use of such a name in the
clause is resolved as if the clause declared nothing by itself.

Main statements:
  1. `Stage.Opens.mirrored`, `Stage.Reaches.mirrored`: where collecting begins with a node, names
     resolve to the same all through the node.
  2. `Stage.Reaches.nameAt_ne`: no binding is that of a name that collecting comes to.
  3. `Stage.Reaches.resolve?_cases`: a use in a node refers to what is declared in the node, or to
     what its name refers to where the node begins.
  4. `clause_name_unrecorded`: the names of clauses and their uses.
  5. `clause_name_missed`: uses that refer to a parameter of the function.
-/

namespace RouteCheck
open Lexical

/-! ## Where collecting begins with a node -/

section
variable {bs : List Binding} {env : Env} {scope : Extent} {pos use : Nat}

/-- A binding covers the uses in the rest of its scope, or none of them. -/
theorem Mirrors.covers_eq (h : Mirrors bs env scope pos) (huse : pos ≤ use)
    (hstop : use < scope.stop) {b : Binding} (hb : b ∈ bs) : b.covers use = b.covers pos := by
  rw [Bool.eq_iff_iff, Binding.covers_iff, Binding.covers_iff]
  rcases h.settled b hb with hlive | hended
  · have := hlive.start
    have := hlive.nameAt
    have := hlive.stop
    have := hlive.visible
    omega
  · omega

theorem Mirrors.resolve?_eq (h : Mirrors bs env scope pos) (huse : pos ≤ use)
    (hstop : use < scope.stop) (name : String) :
    Binding.resolve? bs name use = Binding.resolve? bs name pos := by
  unfold Binding.resolve?
  congr 1
  refine List.filter_congr fun b hb => ?_
  rw [h.covers_eq huse hstop hb]

end

namespace Stage

open Typer Binding

/-- The bindings are those of some environment at the node, and the node is in the scope. -/
structure Mirrored (s : Stage) : Prop where
  scope : s.node.stop ≤ s.scope.stop
  mirrors : ∃ env, Mirrors s.typer.locals env s.scope s.node.start

section
variable {s s' : Stage}

theorem Mirrored.opened (h : s.Mirrored) (hplaced : s.node.Placed) {part : Node}
    (hpart : s.node.entered = some part) : Mirrored ⟨s.opened, s.inner, part⟩ := by
  obtain ⟨f, hf, hfield⟩ := Lexical.field?_of_entered hpart
  obtain ⟨hstart, hstop, _⟩ := hplaced.child (Node.mem_children_of_field? hfield)
  obtain ⟨env, hmirrors⟩ := h.mirrors
  have hopens := Kind.opensScope_eq_isFunction (k := s.node.kind) (by rw [hf]; rfl)
  by_cases hfunction : s.node.kind.isFunction = true
  · have hinner := mirrors_bindSignature hplaced hfunction hmirrors (Nat.le_refl _) h.scope
    rw [hpart] at hinner
    constructor
    · simpa [inner, hopens, hfunction, Node.extent] using hstop
    · exact ⟨_, by simpa [Stage.opened, inner, hopens, hfunction] using hinner⟩
  · constructor
    · simpa [inner, hopens, hfunction] using Nat.le_trans hstop h.scope
    · exact ⟨env, by simpa [Stage.opened, inner, hopens, hfunction] using hmirrors.mono hstart⟩

theorem Mirrored.inner (h : s.Mirrored) : s.node.stop ≤ s.inner.stop ∧
    ∃ env, Mirrors s.typer.locals env s.inner s.node.start := by
  obtain ⟨env, hmirrors⟩ := h.mirrors
  unfold Stage.inner
  split
  · exact ⟨Nat.le_refl _, _, hmirrors.push (Nat.le_refl _) h.scope⟩
  · exact ⟨h.scope, env, hmirrors⟩

/-- One step: bindings that are recorded before a part are those of an environment at the part. -/
theorem Opens.mirrored (h : s.Opens s') (hplaced : s.node.Placed) (hs : s.Mirrored) :
    s'.Mirrored := by
  cases h with
  | entered hpart => exact hs.opened hplaced hpart
  | @named before c rest _ hnamed =>
    obtain ⟨hscope, env, hmirrors⟩ := hs.inner
    have hparts := hplaced.named
    rw [hnamed] at hparts
    obtain ⟨hbefore, hc, _⟩ := hparts.split
    obtain ⟨hstart, hstop, _⟩ := hparts.place (List.mem_append_right _ List.mem_cons_self)
    have hstops : c.start ≤ s.inner.stop := by
      have := hc.nonempty
      omega
    have hfollows := follows_collectAll (fun d hd => followed_of_placed (hbefore.place hd).2.2)
      hmirrors (Nat.le_refl _) hstart hstops hbefore
    exact ⟨Nat.le_trans hstop hscope, _, hfollows.mirrors⟩

theorem Reaches.mirrored (h : s.Reaches s') (hplaced : s.node.Placed) (hs : s.Mirrored) :
    s'.Mirrored := by
  induction h with
  | refl => exact hs
  | tail hreaches hopens ih => exact hopens.mirrored (hplaced.within (mem_all hreaches)).2.2 ih

/-! ## What a use in a node refers to -/

/-- What is recorded in all: before the node, in the node, and after it. -/
theorem Reaches.locals_after (h : s.Reaches s') (hplaced : s.node.Placed) :
    ∃ own later, s.after.locals = s'.typer.locals ++ own ++ later ∧
      (∀ b ∈ own, s'.node.start ≤ b.nameAt ∧ b.nameAt < s'.node.stop) ∧
      ∀ b ∈ later, b.Misses s'.node := by
  obtain ⟨own, hown, hwithin⟩ :=
    spreads_collect (hplaced.within h.mem_all).2.2 s'.typer s'.scope
  obtain ⟨later, hlater, hmisses⟩ := h.later hplaced
  exact ⟨own, later, by rw [hlater, after, hown], fun b hb => (hwithin b hb).1, hmisses⟩

/-- Of a node without parts that collecting comes to nothing is recorded. -/
theorem Reaches.nameAt_ne (h : s.Reaches s') (hplaced : s.node.Placed)
    (hbefore : ∀ b ∈ s.typer.locals, b.nameAt < s.node.start)
    (hkind : s'.node.kind.entered? = none) (hnone : s'.node.children = []) :
    ∀ b ∈ s.after.locals, b.nameAt ≠ s'.node.start := by
  intro b hb
  obtain ⟨later, hlater, hmisses⟩ := h.later hplaced
  have hnonempty := (hplaced.within h.mem_all).2.2.nonempty
  have hafter : s'.after = s'.typer := by
    rw [after, collect_other _ _ hkind, Node.named, hnone, List.filter_nil, collectAll]
  rw [hlater, hafter] at hb
  rcases List.mem_append.1 hb with hb | hb
  · exact Nat.ne_of_lt (h.before hplaced hbefore b hb)
  · have := hmisses b hb
    rw [Misses] at this
    omega

/-- A use in a node refers to what is declared in the node, or to what its name refers to where the
node begins. -/
theorem Reaches.resolve?_cases (h : s.Reaches s') (hplaced : s.node.Placed) (hs : s.Mirrored)
    {use : Nat} (hlo : s'.node.start ≤ use) (hhi : use < s'.node.stop) (name : String) :
    (∃ b ∈ s.after.locals, b.name = name ∧ b.covers use = true ∧
      s'.node.extent.contains b.nameAt = true) ∨
    resolve? s.after.locals name use = resolve? s'.typer.locals name s'.node.start := by
  obtain ⟨own, later, hlocals, hown, hlater⟩ := h.locals_after hplaced
  by_cases hdeclared : ∃ b ∈ own, b.name = name ∧ b.covers use = true
  · obtain ⟨b, hb, hname, hcovers⟩ := hdeclared
    have hmem : b ∈ s.after.locals := by
      rw [hlocals]
      exact List.mem_append_left _ (List.mem_append_right _ hb)
    obtain ⟨hstart, hstop⟩ := hown b hb
    have hin : s'.node.extent.contains b.nameAt = true :=
      Bool.and_eq_true_iff.2 ⟨decide_eq_true hstart, decide_eq_true hstop⟩
    exact .inl ⟨b, hmem, hname, hcovers, hin⟩
  · obtain ⟨hscope, env, hmirrors⟩ := h.mirrored hplaced hs
    refine .inr ?_
    rw [hlocals, resolve?_append, resolve?_append,
      hmirrors.resolve?_eq hlo (Nat.lt_of_lt_of_le hhi hscope)]
    · intro b hb hname
      exact Bool.eq_false_iff.2 fun hcovers => hdeclared ⟨b, hb, hname, hcovers⟩
    · intro b hb _
      have := hlater b hb
      rw [Misses] at this
      rw [Bool.eq_false_iff, ne_eq, covers_iff]
      omega

/-- What is declared before a node is what is recorded as collecting begins with it, as far as names
at the node see it. -/
theorem Reaches.resolve?_before (h : s.Reaches s') (hplaced : s.node.Placed)
    (hbefore : ∀ b ∈ s.typer.locals, b.nameAt < s.node.start) (name : String) :
    resolve? (s.after.locals.filter (·.nameAt < s'.node.start)) name s'.node.start =
      resolve? s'.typer.locals name s'.node.start := by
  obtain ⟨own, later, hlocals, hown, hlater⟩ := h.locals_after hplaced
  have hnonempty := (hplaced.within h.mem_all).2.2.nonempty
  have hkept : s'.typer.locals.filter (·.nameAt < s'.node.start) = s'.typer.locals := by
    rw [List.filter_eq_self]
    exact fun b hb => decide_eq_true (h.before hplaced hbefore b hb)
  have hdropped : own.filter (·.nameAt < s'.node.start) = [] := by
    rw [List.filter_eq_nil_iff]
    intro b hb
    have := hown b hb
    simp only [decide_eq_true_eq]
    omega
  rw [hlocals, List.filter_append, List.filter_append, hkept, hdropped, List.append_nil]
  refine resolve?_append fun b hb _ => ?_
  obtain ⟨hb, hlt⟩ := List.mem_filter.1 hb
  have := hlater b hb
  rw [Misses] at this
  rw [Bool.eq_false_iff, ne_eq, covers_iff]
  have := of_decide_eq_true hlt
  omega

end
end Stage

theorem Typer.typeOf_identifier {t : Typer} {u : Node} (hkind : u.kind = .identifier) :
    t.typeOf u =
      ((t.local? u).map (·.ty)).getD (valueType maxJumps t t.file.package u.text) := by
  rw [typeOf, typeWith, hkind]
  dsimp only
  cases t.local? u <;> rfl

/-! ## Names of clauses -/

namespace Node

def isWord (n : Node) : Bool := n.kind = .identifier && n.children.isEmpty

/-- The identifiers of an expression list in a field. -/
def words (n : Node) (f : Field) : List Node :=
  (((n.field? f).map expressions).getD []).filter isWord

/-- The clauses of a type switch with the name before its guard, and a clause that receives with
what it receives into. -/
def ownNames (n : Node) : List (Node × Node) :=
  match n.kind with
  | .typeSwitchStatement =>
    (n.named.filter fun c => c.kind = .typeCase || c.kind = .defaultCase).flatMap fun clause =>
      (n.words .alias).map fun d => (clause, d)
  | .communicationCase =>
    match n.field? .communication with
    | some r => if r.kind = .receiveStatement then (r.words .left).map fun d => (n, d) else []
    | none => []
  | _ => []

end Node

namespace Stage

section
variable {s : Stage}

theorem reaches_of_mem_named (hkind : s.node.kind.entered? = none) {c : Node}
    (hc : c ∈ s.node.named) : ∃ s', s.Reaches s' ∧ s'.node = c := by
  obtain ⟨before, rest, hnamed⟩ := List.append_of_mem hc
  exact ⟨_, .single (.named hkind hnamed), rfl⟩

theorem reaches_of_mem_words (hkind : s.node.kind.entered? = none) {f : Field} {d : Node}
    (hd : d ∈ s.node.words f) : ∃ s', s.Reaches s' ∧ s'.node = d := by
  obtain ⟨hd, hword⟩ := List.mem_filter.1 hd
  cases hlist : s.node.field? f with
  | none => simp [hlist] at hd
  | some list =>
    rw [hlist] at hd
    have hmem := Node.mem_children_of_field? hlist
    have hdkind : d.kind = .identifier := by simpa using (Bool.and_eq_true_iff.1 hword).1
    simp only [Option.map_some, Option.getD_some, Node.expressions] at hd
    split at hd
    · next hexpressions =>
      have hnamed : list ∈ s.node.named :=
        List.mem_filter.2 ⟨hmem, by rw [hexpressions]; rfl⟩
      obtain ⟨s₁, hreaches, rfl⟩ := reaches_of_mem_named hkind hnamed
      obtain ⟨s₂, hreaches', rfl⟩ := reaches_of_mem_named (s := s₁) (by rw [hexpressions]; rfl) hd
      exact ⟨s₂, hreaches.trans hreaches', rfl⟩
    · obtain rfl := List.mem_singleton.1 hd
      exact reaches_of_mem_named hkind (List.mem_filter.2 ⟨hmem, by rw [hdkind]; rfl⟩)

/-- Collecting from a node comes to the clauses in it that have names of their own, and to these
names. -/
theorem reaches_of_mem_ownNames {clause d : Node} (h : (clause, d) ∈ s.node.ownNames) :
    d.isWord = true ∧ (∃ s', s.Reaches s' ∧ s'.node = clause) ∧
      ∃ s', s.Reaches s' ∧ s'.node = d := by
  unfold Node.ownNames at h
  split at h
  · next hkind =>
    obtain ⟨c, hc, h⟩ := List.mem_flatMap.1 h
    obtain ⟨d', hd, heq⟩ := List.mem_map.1 h
    obtain ⟨rfl, rfl⟩ := Prod.mk.inj heq
    have hentered : s.node.kind.entered? = none := by rw [hkind]; rfl
    exact ⟨(List.mem_filter.1 hd).2, reaches_of_mem_named hentered (List.mem_filter.1 hc).1,
      reaches_of_mem_words hentered hd⟩
  · next hkind =>
    split at h
    · next r hr =>
      split at h
      · next hreceive =>
        obtain ⟨d', hd, heq⟩ := List.mem_map.1 h
        obtain ⟨rfl, rfl⟩ := Prod.mk.inj heq
        have hnamed : r ∈ s.node.named := List.mem_filter.2
          ⟨Node.mem_children_of_field? hr, by rw [hreceive]; rfl⟩
        obtain ⟨s₁, hreaches, rfl⟩ := reaches_of_mem_named (by rw [hkind]; rfl) hnamed
        obtain ⟨s₂, hreaches', rfl⟩ := reaches_of_mem_words (s := s₁) (by rw [hreceive]; rfl) hd
        exact ⟨(List.mem_filter.1 hd).2, ⟨s, .refl, rfl⟩, s₂, hreaches.trans hreaches', rfl⟩
      · exact absurd h List.not_mem_nil
    · exact absurd h List.not_mem_nil
  · exact absurd h List.not_mem_nil

end
end Stage

/-- Names that clauses declare for themselves are not recorded. A use of such a name in the clause,
unless the name is declared again further inside, refers to what the name refers to where the clause
begins, and has its type: that of a local declaration before the clause, or that of the value of the
package. -/
theorem clause_name_unrecorded {p : Program} {f : SourceFile} {n func : Node} (hp : p.Parsed)
    (hf : f ∈ p.files) (houter : f.outermostFunction? n = some func) :
    let finished := Typer.enclosing (.build p) f n
    ∀ m ∈ func.descendants, ∀ clause d, (clause, d) ∈ m.ownNames → func.SetsAside m ∨
      (∀ b ∈ finished.locals, b.nameAt ≠ d.start) ∧
      ∀ u ∈ clause.all, u.kind = .identifier → u.text = d.text →
        (∃ b ∈ finished.locals, b.name = d.text ∧ b.covers u.start = true ∧
          clause.extent.contains b.nameAt = true) ∨
        let outside := Binding.resolve? (finished.locals.filter (·.nameAt < clause.start)) d.text
          clause.start
        finished.local? u = outside ∧
          finished.typeOf u = (outside.map (·.ty)).getD
            (Typer.valueType Typer.maxJumps { index := .build p, file := f } f.package d.text) := by
  intro finished m hm clause d hown
  have hplaced := placed_of_outermostFunction? (hp.trees f hf) houter
  let start : Stage := ⟨{ index := .build p, file := f }, func.extent, func⟩
  have hfinished : finished = start.after := by
    simp only [finished, Typer.enclosing, houter]
    rfl
  have hmirrored : start.Mirrored := ⟨Nat.le_refl _, _, Typer.mirrors_nil func.extent⟩
  have hbefore : ∀ b ∈ start.typer.locals, b.nameAt < start.node.start := List.forall_mem_nil _
  rcases Stage.exists_reaches hplaced start.typer start.scope hm with ⟨s, hs, rfl⟩ | haside
  · obtain ⟨hword, ⟨s₁, hclause, rfl⟩, s₂, hname, rfl⟩ := Stage.reaches_of_mem_ownNames hown
    simp only [Node.isWord, Bool.and_eq_true, decide_eq_true_eq, List.isEmpty_iff] at hword
    refine .inr ⟨?_, fun u hu hkind htext => ?_⟩
    · have hreaches : start.Reaches s₂ := hs.trans hname
      rw [hfinished]
      exact hreaches.nameAt_ne hplaced hbefore (by rw [hword.1]; rfl) hword.2
    · have hreaches : start.Reaches s₁ := hs.trans hclause
      obtain ⟨hlo, hhi, hplacedU⟩ := (hplaced.within hreaches.mem_all).2.2.within hu
      have := hplacedU.nonempty
      rw [hfinished, ← htext]
      refine (hreaches.resolve?_cases hplaced hmirrored hlo (by omega) u.text).imp_right ?_
      intro hlocal
      rw [← hreaches.resolve?_before hplaced hbefore] at hlocal
      have hground : Typer.SameGround start.typer start.after := Typer.sameGround_collect ..
      refine ⟨hlocal, ?_⟩
      rw [Typer.typeOf_identifier hkind, hground.valueType, hground.2, ← hlocal]
      rfl
  · exact .inl haside

/-- Of every use of a name that a clause of a function declares for itself: the kind of node,
whether the use refers to a name before the node, the type of the use, and whether the name is
declared again in the clause or the node may be set aside. -/
def SourceFile.ownUses (f : SourceFile) (func : Node) : List (Kind × Bool × Ty × Bool) :=
  let t := Typer.enclosing (.build ⟨[f]⟩) f func
  func.descendants.flatMap fun m => m.ownNames.flatMap fun (clause, d) =>
    (clause.all.filter fun u => u.kind = .identifier && u.text == d.text && d.start < u.start).map
      fun u => (m.kind, (t.local? u).any (·.nameAt < m.start), t.typeOf u,
        func.holdsApart m || (clause.all.any fun k => k.declared.any (·.text == d.text)) ||
          t.locals.any fun b => b.name == d.text && clause.extent.contains b.nameAt)

/-- A use of a name that a clause of a function declares for itself, and does not declare again. -/
structure SourceFile.OwnUse (f : SourceFile) (func m clause d u : Node) : Prop where
  node : m ∈ func.descendants
  apart : ¬ func.SetsAside m
  name : (clause, d) ∈ m.ownNames
  use : u ∈ clause.all
  kind : u.kind = .identifier
  text : u.text = d.text
  behind : d.start < u.start
  once : ¬ clause.Declares d.text
  unbound : ∀ b ∈ (Typer.enclosing (.build ⟨[f]⟩) f func).locals, b.name = d.text →
    clause.extent.contains b.nameAt = false

theorem exists_of_mem_ownUses {f : SourceFile} {func : Node} {kind : Kind} {ty : Ty}
    (h : (kind, true, ty, false) ∈ f.ownUses func) :
    ∃ m clause d u, f.OwnUse func m clause d u ∧ m.kind = kind ∧
      let t := Typer.enclosing (.build ⟨[f]⟩) f func
      (∃ b, t.local? u = some b ∧ b.nameAt < m.start) ∧ t.typeOf u = ty := by
  obtain ⟨m, hm, h⟩ := List.mem_flatMap.1 h
  obtain ⟨⟨clause, d⟩, hown, h⟩ := List.mem_flatMap.1 h
  obtain ⟨u, hu, hrow⟩ := List.mem_map.1 h
  obtain ⟨hmem, hu⟩ := List.mem_filter.1 hu
  simp only [Prod.mk.injEq, Bool.or_eq_false_iff, Bool.and_eq_true, decide_eq_true_eq,
    beq_iff_eq] at hrow hu
  obtain ⟨hkind, hlocal, htype, ⟨hapart, honce⟩, hunbound⟩ := hrow
  have hlocal : ∃ b, (Typer.enclosing (.build ⟨[f]⟩) f func).local? u = some b ∧
      b.nameAt < m.start := by
    simpa only [Option.any_eq_true, decide_eq_true_eq] using hlocal
  refine ⟨m, clause, d, u, ?_, hkind, hlocal, htype⟩
  refine ⟨hm, fun haside => ?_, hown, hmem, hu.1.1, hu.1.2, hu.2, ?_, fun b hb hname => ?_⟩
  · exact absurd (Node.holdsApart_of_setsAside haside) (by simp [hapart])
  · rintro ⟨k, hk, e, he, htext⟩
    exact List.any_eq_false.1 honce k hk (List.any_eq_true.2 ⟨e, he, beq_iff_eq.2 htext⟩)
  · simpa [hname] using List.any_eq_false.1 hunbound b hb

/-- A parameter whose name two clauses declare again. -/
def clausing : List String :=
  ["func pick(v int, x any, ch chan string) \x7b",
    "switch v := x.(type) \x7b case string: use(v) \x7d",
    "select \x7b case v := <-ch: use(v) \x7d \x7d"]

theorem ownUses_clausing :
    let f := SourceFile.sample clausing
    f.functions.map f.ownUses = [[(.typeSwitchStatement, true, .int, false),
      (.communicationCase, true, .int, false)]] := by
  simp only [clausing, SourceFile.sample_eq, SourceFile.chars, String.reduceToList]
  decide +kernel

theorem exists_ownUse_clausing : ∃ func,
    (SourceFile.sample clausing).outermostFunction? func = some func ∧
      ∀ kind ∈ [Kind.typeSwitchStatement, .communicationCase], ∃ m clause d u,
        (SourceFile.sample clausing).OwnUse func m clause d u ∧ m.kind = kind ∧
          let t := Typer.enclosing (.build ⟨[.sample clausing]⟩) (.sample clausing) func
          (∃ b, t.local? u = some b ∧ b.nameAt < m.start) ∧ t.typeOf u = .int := by
  obtain ⟨func, hfunc, hrows⟩ := List.map_eq_singleton_iff.1 ownUses_clausing
  have hmem : func ∈ (SourceFile.sample clausing).functions := hfunc ▸ List.mem_singleton_self func
  have htree := (Program.parsed_sample clausing).trees _ (List.mem_singleton_self _)
  refine ⟨func, outermostFunction?_of_mem_functions htree hmem, fun kind hkind => ?_⟩
  refine exists_of_mem_ownUses ?_
  rw [hrows]
  rcases List.mem_cons.1 hkind with rfl | hkind
  · exact List.mem_cons_self
  · rw [List.mem_singleton.1 hkind]
    exact List.mem_cons_of_mem _ (List.mem_singleton_self _)

/-- The own names of the clauses are not recorded, and the uses in the clauses refer to what the
names refer to before. -/
theorem clause_name_unrecorded_clausing : ∃ sources p, Program.ofSources sources = .ok p ∧
    ∃ f ∈ p.files, ∃ func, f.outermostFunction? func = some func ∧
      let finished := Typer.enclosing (.build p) f func
      ∀ kind ∈ [Kind.typeSwitchStatement, .communicationCase], ∃ (m clause d u : Node),
        m.kind = kind ∧ (clause, d) ∈ m.ownNames ∧ u ∈ clause.all ∧ u.text = d.text ∧
          (∀ b ∈ finished.locals, b.nameAt ≠ d.start) ∧
          finished.local? u = Binding.resolve? (finished.locals.filter (·.nameAt < clause.start))
            d.text clause.start := by
  have hp := Program.ofSources_sample clausing
  have hf : SourceFile.sample clausing ∈ (Program.mk [.sample clausing]).files :=
    List.mem_singleton_self _
  obtain ⟨func, houter, huses⟩ := exists_ownUse_clausing
  refine ⟨_, _, hp, _, hf, func, houter, fun kind hkind => ?_⟩
  obtain ⟨m, clause, d, u, huse, hkind, _⟩ := huses kind hkind
  have hunrecorded := clause_name_unrecorded (Program.parsed_ofSources hp) hf houter
  obtain ⟨hname, hresolved⟩ :=
    (hunrecorded m huse.node clause d huse.name).resolve_left huse.apart
  have hfound := (hresolved u huse.use huse.kind huse.text).resolve_left
    fun ⟨b, hb, hname, _, hin⟩ => absurd hin (by simp [huse.unbound b hb hname])
  exact ⟨m, clause, d, u, hkind, huse.name, huse.use, huse.text, hname, hfound.1⟩

/-- In a clause of a type switch and in one that receives, a use of the own name of the clause
refers to a parameter of the function, and has its type. -/
theorem clause_name_missed : ∃ sources p, Program.ofSources sources = .ok p ∧ ∃ f ∈ p.files,
    ∃ func, f.outermostFunction? func = some func ∧
      let finished := Typer.enclosing (.build p) f func
      ∀ kind ∈ [Kind.typeSwitchStatement, .communicationCase], ∃ m ∈ func.descendants,
        m.kind = kind ∧ ∃ clause d, (clause, d) ∈ m.ownNames ∧ ¬ clause.Declares d.text ∧
          ∃ u ∈ clause.all, u.text = d.text ∧ d.start < u.start ∧
            (∃ b, finished.local? u = some b ∧ b.nameAt < m.start) ∧ finished.typeOf u = .int := by
  obtain ⟨func, houter, huses⟩ := exists_ownUse_clausing
  refine ⟨_, _, Program.ofSources_sample clausing, _, List.mem_singleton_self _, func, houter,
    fun kind hkind => ?_⟩
  obtain ⟨m, clause, d, u, huse, hkind, hlocal, htype⟩ := huses kind hkind
  exact ⟨m, huse.node, hkind, clause, d, huse.name, huse.once, u, huse.use, huse.text, huse.behind,
    hlocal, htype⟩

end RouteCheck
