import RouteCheck.Proofs.Types.Collect
import RouteCheck.Proofs.Types.Lexical

/-!
Local declarations as a lexical environment.

`Typer.collect` keeps declarations in one flat list, each with the stretch of text of its scope and
the byte where it becomes visible; `Lexical.visit` walks with a stack of frames. `Mirrors` is the
invariant between them: as far as the current scope goes on, a name resolves among the bindings to
what the environment has for it.

Main statements:
  1. `Adds`, `adds_collect`: the bindings that a clause adds.
  2. `Mirrors.declare`, `Mirrors.push`, `Mirrors.leave`: what keeps the invariant.
  3. `Typer.followed_of_placed`: collecting from a node goes along with visiting it.
-/

namespace RouteCheck
open Lexical

/-! ## Bindings of a clause -/

namespace Binding

def place (b : Binding) : String × Nat × Extent × Nat := (b.name, b.nameAt, b.scope, b.visibleFrom)

/-- The bindings of some names, all of one scope and visible from one byte on. -/
def MadeOf (scope : Extent) (visibleFrom : Nat) (names : List Node) (bs : List Binding) : Prop :=
  bs.map place = (Env.binding names).map fun d => (d.text, d.start, scope, visibleFrom)

section
variable {scope : Extent} {visibleFrom : Nat} {names more : List Node} {bs cs : List Binding}

theorem MadeOf.nil : MadeOf scope visibleFrom [] [] := rfl

theorem MadeOf.append (hbs : MadeOf scope visibleFrom names bs)
    (hcs : MadeOf scope visibleFrom more cs) :
    MadeOf scope visibleFrom (names ++ more) (bs ++ cs) := by
  rw [MadeOf, Env.binding, List.filter_append, List.map_append, List.map_append, hbs, hcs]
  rfl

theorem MadeOf.exists_name (h : MadeOf scope visibleFrom names bs) {b : Binding} (hb : b ∈ bs) :
    ∃ d ∈ names, b.name = d.text ∧ b.nameAt = d.start ∧ b.scope = scope ∧
      b.visibleFrom = visibleFrom := by
  have hmem : b.place ∈ bs.map place := List.mem_map_of_mem hb
  rw [h] at hmem
  obtain ⟨d, hd, heq⟩ := List.mem_map.1 hmem
  simp only [place, Prod.mk.injEq] at heq
  exact ⟨d, (List.mem_filter.1 hd).1, heq.1.symm, heq.2.1.symm, heq.2.2.1.symm, heq.2.2.2.symm⟩

theorem MadeOf.head?_filter (h : MadeOf scope visibleFrom names bs) (name : String) :
    ((bs.filter (·.name == name)).head?).map (·.nameAt) =
      ((Env.binding names).find? (·.text == name)).map Node.start := by
  have hplace : (bs.find? (·.name == name)).map place = (bs.map place).find? (·.1 == name) := by
    rw [List.find?_map]
    rfl
  rw [h, List.find?_map] at hplace
  rw [List.head?_filter]
  calc (bs.find? (·.name == name)).map (·.nameAt)
      = ((bs.find? (·.name == name)).map place).map (·.2.1) := by rw [Option.map_map]; rfl
    _ = ((Env.binding names).find? (·.text == name)).map Node.start := by
        rw [hplace, Option.map_map]; rfl

end
end Binding

namespace Typer

/-- The second typer has the bindings of some more names. -/
def Adds (t t' : Typer) (scope : Extent) (visibleFrom : Nat) (names : List Node) : Prop :=
  ∃ new, t'.locals = t.locals ++ new ∧ Binding.MadeOf scope visibleFrom names new

section
variable {t t' t'' : Typer} {scope : Extent} {visibleFrom : Nat} {names more : List Node}

theorem Adds.refl (t : Typer) : Adds t t scope visibleFrom [] :=
  ⟨[], (List.append_nil _).symm, .nil⟩

theorem Adds.trans (h : Adds t t' scope visibleFrom names)
    (h' : Adds t' t'' scope visibleFrom more) :
    Adds t t'' scope visibleFrom (names ++ more) := by
  obtain ⟨new, hnew, hmade⟩ := h
  obtain ⟨new', hnew', hmade'⟩ := h'
  exact ⟨new ++ new', by rw [hnew', hnew, List.append_assoc], hmade.append hmade'⟩

theorem adds_foldl {β : Type} {f : Typer → β → Typer} {g : β → List Node}
    (h : ∀ t b, Adds t (f t b) scope visibleFrom (g b)) (bs : List β) (t : Typer) :
    Adds t (bs.foldl f t) scope visibleFrom (bs.flatMap g) := by
  induction bs generalizing t with
  | nil => exact .refl t
  | cons b bs ih => exact (h t b).trans (ih (f t b))

theorem adds_bind (t : Typer) (name : Node) (ty : Ty) :
    Adds t (t.bind scope visibleFrom name ty) scope visibleFrom [name] := by
  unfold bind
  split
  · next hblank =>
    refine ⟨[], (List.append_nil _).symm, ?_⟩
    simp [Binding.MadeOf, Env.binding, hblank]
  · next hblank =>
    refine ⟨_, rfl, ?_⟩
    simp [Binding.MadeOf, Env.binding, Binding.place, hblank]

theorem adds_bindAll (t : Typer) {names : List Node} {types : List Ty} :
    Adds t (t.bindAll scope visibleFrom names types) scope visibleFrom
      (names.take types.length) := by
  induction names generalizing t types with
  | nil =>
    rw [List.take_nil]
    exact .refl t
  | cons n ns ih =>
    cases types with
    | nil => exact .refl t
    | cons ty tys => exact (adds_bind t n ty).trans (ih _)

theorem adds_bindAll_of_length (t : Typer) {names : List Node} {types : List Ty}
    (h : types.length = names.length) :
    Adds t (t.bindAll scope visibleFrom names types) scope visibleFrom names := by
  have hadds : Adds t (t.bindAll scope visibleFrom names types) scope visibleFrom
      (names.take types.length) := adds_bindAll t
  rwa [h, List.take_length] at hadds

theorem adds_bindSignature (t : Typer) (func : Node) :
    Adds t (t.bindSignature func) func.extent func.start func.parameterNames := by
  refine adds_foldl (fun t f => ?_) _ t
  cases func.field? f with
  | none => exact .refl t
  | some list =>
    simp only
    split
    · refine adds_foldl (fun t param => ?_) _ t
      cases param.field? .type with
      | none => exact .refl t
      | some node => exact adds_bindAll_of_length t (List.length_map _)
    · exact .refl t

theorem length_assignedTypes (t : Typer) (values : List Node) (count : Nat) :
    (t.assignedTypes values count).length = count := by
  unfold assignedTypes
  split
  · next h => rw [List.length_map, h]
  · simp

theorem length_rangeTypes (ranged : Ty) : (rangeTypes ranged).length = 2 := by
  unfold rangeTypes
  split
  case h_5 => split <;> rfl
  all_goals rfl

theorem adds_bindValues (t : Typer) (decl : Node) (names : List Node) (declared : Option Ty)
    (values : List Node) :
    Adds t (t.bindValues scope decl names declared values) scope decl.stop names := by
  refine adds_bindAll_of_length t ?_
  cases declared with
  | some ty => exact List.length_map _
  | none => exact length_assignedTypes t values _

end

/-! ## Collecting by parts -/

/-- Collect from the part of a declaring node that is entered. -/
def collectEntered (t : Typer) (scope : Extent) (n : Node) : Typer :=
  match n.entered with
  | some part => t.collect scope part
  | none => t

section
variable (t : Typer) (scope : Extent) {n : Node}

theorem collect_function (h : n.kind.isFunction) :
    t.collect scope n = (t.bindSignature n).collectEntered n.extent n := by
  have hcases : n.kind = .functionDeclaration ∨ n.kind = .methodDeclaration ∨
      n.kind = .funcLiteral := by
    cases hkind : n.kind <;> simp_all [Kind.isFunction]
  have hentered : n.entered = n.field? .body := by
    rcases hcases with hkind | hkind | hkind <;> simp [Node.entered, hkind, Kind.entered?]
  rw [collect, if_pos (Kind.opensScope_of_isFunction _ h), collectEntered, hentered]
  rcases hcases with hkind | hkind | hkind <;> simp only [hkind] <;> split <;> simp [*]

theorem adds_collect_shortVar (hkind : n.kind = .shortVarDeclaration) :
    Adds (t.collectEntered scope n) (t.collect scope n) scope n.stop n.binds := by
  have hentered : n.entered = if (n.field? .left).isNone then none else n.field? .right := by
    simp [Node.entered, hkind, Kind.entered?]
  have hbinds : n.binds =
      if n.entered.isSome then ((n.field? .left).map Node.expressions).getD [] else [] := by
    simp [Node.binds, hkind]
  rw [collect]
  simp only [hkind]
  split
  · next left right hleft hright =>
    rw [hbinds, collectEntered, hentered, hleft, hright]
    exact adds_bindValues ..
  · next hno =>
    rw [hbinds, collectEntered, hentered]
    cases hleft : n.field? .left with
    | none => exact .refl t
    | some left =>
      cases hright : n.field? .right with
      | none => exact .refl t
      | some right => exact absurd hright (hno left right hleft)

theorem adds_collect_spec (hkind : n.kind = .varSpec ∨ n.kind = .constSpec) :
    Adds (t.collectEntered scope n) (t.collect scope n) scope n.stop n.binds := by
  have hentered : n.entered = n.field? .value := by
    rcases hkind with hkind | hkind <;> simp [Node.entered, hkind, Kind.entered?]
  have hbinds : n.binds = n.fields .name := by
    rcases hkind with hkind | hkind <;> simp [Node.binds, hkind]
  rw [collect]
  rcases hkind with hkind | hkind <;> simp only [hkind] <;> split <;>
    next hvalue =>
      rw [hbinds, collectEntered, hentered, hvalue]
      exact adds_bindValues ..

theorem adds_collect_range (hkind : n.kind = .rangeClause) :
    Adds (t.collectEntered scope n) (t.collect scope n) scope n.stop n.binds := by
  have hentered : n.entered = n.field? .right := by
    simp [Node.entered, hkind, Kind.entered?]
  have hbinds : n.binds = if n.entered.isSome && n.children.any (·.text == ":=") then
      (((n.field? .left).map Node.expressions).getD []).take 2 else [] := by
    simp [Node.binds, hkind]
  rw [collect]
  simp only [hkind]
  split
  · next hright =>
    rw [hbinds, collectEntered, hentered, hright]
    exact .refl t
  · next right hright =>
    rw [hbinds, collectEntered, hentered, hright]
    cases n.field? .left with
    | none => cases n.children.any (·.text == ":=") <;> exact .refl _
    | some left =>
      cases n.children.any (·.text == ":=") with
      | false => exact .refl _
      | true =>
        have hadds : Adds (t.collect scope right) ((t.collect scope right).bindAll scope n.stop
            left.expressions (rangeTypes ((t.collect scope right).typeOf right))) scope n.stop
            (left.expressions.take (rangeTypes ((t.collect scope right).typeOf right)).length) :=
          adds_bindAll _
        rwa [length_rangeTypes] at hadds

/-- A clause adds its names to what is collected from the entered part. -/
theorem adds_collect (h : n.kind.entered?.isSome) (hfunction : ¬ n.kind.isFunction) :
    Adds (t.collectEntered scope n) (t.collect scope n) scope n.stop n.binds := by
  have hcases : n.kind = .shortVarDeclaration ∨ (n.kind = .varSpec ∨ n.kind = .constSpec) ∨
      n.kind = .rangeClause := by
    cases hkind : n.kind <;> simp_all [Kind.isFunction, Kind.entered?]
  rcases hcases with hkind | hkind | hkind
  · exact adds_collect_shortVar t scope hkind
  · exact adds_collect_spec t scope hkind
  · exact adds_collect_range t scope hkind

theorem collect_other (h : n.kind.entered? = none) :
    t.collect scope n = t.collectAll (if n.kind.opensScope then n.extent else scope) n.named := by
  rw [collect]
  split
  case h_8 => rfl
  all_goals
    next hkind =>
      rw [hkind] at h
      exact absurd h (by decide)

end
end Typer

/-! ## Which binding a use refers to -/

namespace Binding

section
variable {b c : Binding} {bs new : List Binding} {name : String} {use : Nat}

theorem innermost_eq_none_iff : innermost bs = none ↔ bs = [] := by
  cases bs with
  | nil => simp [innermost]
  | cons b bs =>
    rw [innermost]
    split
    · simp
    · split <;> simp

theorem mem_of_innermost (h : innermost bs = some c) : c ∈ bs := by
  induction bs with
  | nil => exact absurd h nofun
  | cons b bs ih =>
    rw [innermost] at h
    split at h
    · exact Option.some.inj h ▸ List.mem_cons_self
    · next d hd =>
      split at h
      · exact List.mem_cons_of_mem _ (ih (hd.trans h))
      · exact Option.some.inj h ▸ List.mem_cons_self

/-- Bindings that hide all before them decide among themselves. -/
theorem innermost_append_of_hides (hne : new ≠ [])
    (h : ∀ a ∈ new, ∀ b ∈ bs, a.hides b = true) : innermost (bs ++ new) = innermost new := by
  induction bs with
  | nil => rfl
  | cons b bs ih =>
    have ih := ih fun a ha b hb => h a ha b (List.mem_cons_of_mem _ hb)
    rw [List.cons_append, innermost, ih]
    cases hnew : innermost new with
    | none => exact absurd (innermost_eq_none_iff.1 hnew) hne
    | some c => exact if_pos (h c (mem_of_innermost hnew) b List.mem_cons_self)

theorem innermost_eq_head? (h : ∀ a ∈ bs, ∀ b ∈ bs, a.hides b = false) :
    innermost bs = bs.head? := by
  cases bs with
  | nil => rfl
  | cons b bs =>
    rw [innermost]
    split
    · rfl
    · next c hc =>
      have hno := h c (List.mem_cons_of_mem _ (mem_of_innermost hc)) b List.mem_cons_self
      rw [if_neg (by simp [hno])]
      rfl

/-- Bindings of other names and such as do not cover a use make no difference to it. -/
theorem resolve?_append (h : ∀ b ∈ new, b.name = name → b.covers use = false) :
    resolve? (bs ++ new) name use = resolve? bs name use := by
  have hnew : (new.filter fun b => b.name == name && b.covers use) = [] := by
    refine List.filter_eq_nil_iff.2 fun b hb => ?_
    by_cases hname : b.name = name <;> simp [hname, h b hb]
  rw [resolve?, List.filter_append, hnew, List.append_nil, resolve?]

theorem covers_iff : b.covers use = true ↔
    (b.scope.start ≤ use ∧ use < b.scope.stop) ∧ (use = b.nameAt ∨ b.visibleFrom ≤ use) := by
  simp [covers, Extent.contains]

theorem not_covers_of_lt {lo : Nat} (hname : lo ≤ b.nameAt) (hvisible : lo ≤ b.visibleFrom)
    (h : use < lo) : b.covers use = false := by
  rw [Bool.eq_false_iff, ne_eq, covers_iff]
  omega

/-- Of a list and the bindings of a clause after it: a name of the clause refers to the first of that
name, and every other one to what it referred to, if the bindings of the clause hide those before
them that cover the use. -/
theorem MadeOf.resolve?_append {scope : Extent} {visibleFrom : Nat} {names : List Node}
    (hmade : MadeOf scope visibleFrom names new) (hscope : scope.start ≤ use ∧ use < scope.stop)
    (hvisible : visibleFrom ≤ use)
    (hhides : ∀ b ∈ bs, b.covers use = true → scope.length < b.scope.length ∨
      scope.length = b.scope.length ∧ b.visibleFrom < visibleFrom) :
    (resolve? (bs ++ new) name use).map (·.nameAt) =
      (((Env.binding names).find? (·.text == name)).map Node.start).or
        ((resolve? bs name use).map (·.nameAt)) := by
  have hplace : ∀ a ∈ new, a.scope = scope ∧ a.visibleFrom = visibleFrom := by
    intro a ha
    obtain ⟨_, _, _, _, hplace⟩ := hmade.exists_name ha
    exact hplace
  have hnew : (new.filter fun b => b.name == name && b.covers use) =
      new.filter (·.name == name) := by
    refine List.filter_congr fun b hb => ?_
    obtain ⟨hscope', hfrom⟩ := hplace b hb
    have hcovers : b.covers use = true :=
      covers_iff.2 ⟨hscope' ▸ hscope, .inr (hfrom ▸ hvisible)⟩
    rw [hcovers, Bool.and_true]
  have hfirst := hmade.head?_filter name
  rw [resolve?, List.filter_append, hnew, ← hfirst]
  cases hnamed : new.filter (·.name == name) with
  | nil => simp [resolve?]
  | cons c cs =>
    have hmem : ∀ a ∈ c :: cs, a ∈ new := fun a ha => (List.mem_filter.1 (hnamed ▸ ha)).1
    rw [innermost_append_of_hides (List.cons_ne_nil c cs), innermost_eq_head?]
    · rfl
    · intro a ha b hb
      obtain ⟨hscope, hfrom⟩ := hplace a (hmem a ha)
      obtain ⟨hscope', hfrom'⟩ := hplace b (hmem b hb)
      simp [hides, hscope, hscope', hfrom, hfrom']
    · intro a ha b hb
      obtain ⟨hscope, hfrom⟩ := hplace a (hmem a ha)
      obtain ⟨hb, hcovers⟩ := List.mem_filter.1 hb
      rw [Bool.and_eq_true] at hcovers
      simpa [hides, hscope, hfrom] using hhides b hb hcovers.2

/-- The scope of the binding goes on as long as `scope` does, and uses from `pos` on see it. -/
structure Live (b : Binding) (scope : Extent) (pos : Nat) : Prop where
  start : b.scope.start ≤ b.nameAt
  nameAt : b.nameAt < pos
  outer : b.scope.start ≤ scope.start
  stop : scope.stop ≤ b.scope.stop
  visible : b.visibleFrom ≤ pos

end
end Binding

open Binding

/-! ## The invariant -/

/-- From the byte `pos` to the end of the scope, names resolve to what the environment has. -/
structure Mirrors (bs : List Binding) (env : Env) (scope : Extent) (pos : Nat) : Prop where
  start : scope.start ≤ pos
  settled : ∀ b ∈ bs, b.Live scope pos ∨ b.scope.stop ≤ pos
  agree : ∀ name use, pos ≤ use → use < scope.stop →
    (resolve? bs name use).map (·.nameAt) = (env.find? name).map Node.start

section
variable {bs new : List Binding} {env : Env} {scope inner : Extent} {pos pos' : Nat}

theorem Mirrors.mono (h : Mirrors bs env scope pos) (hpos : pos ≤ pos') :
    Mirrors bs env scope pos' where
  start := Nat.le_trans h.start hpos
  settled b hb := by
    rcases h.settled b hb with hlive | hended
    · exact .inl ⟨hlive.start, Nat.lt_of_lt_of_le hlive.nameAt hpos, hlive.outer, hlive.stop,
        Nat.le_trans hlive.visible hpos⟩
    · exact .inr (Nat.le_trans hended hpos)
  agree name use huse := h.agree name use (Nat.le_trans hpos huse)

/-- At the start of an inner scope. -/
theorem Mirrors.push (h : Mirrors bs env scope pos) (hlo : pos ≤ inner.start)
    (hhi : inner.stop ≤ scope.stop) : Mirrors bs ([] :: env) inner inner.start where
  start := Nat.le_refl _
  settled b hb := by
    rcases h.settled b hb with hlive | hended
    · have := hlive.start
      have := hlive.nameAt
      exact .inl ⟨hlive.start, by omega, by omega, Nat.le_trans hhi hlive.stop,
        Nat.le_trans hlive.visible hlo⟩
    · exact .inr (Nat.le_trans hended hlo)
  agree name use huse hstop :=
    h.agree name use (Nat.le_trans hlo huse) (Nat.lt_of_lt_of_le hstop hhi)

/-- After scopes that have ended. -/
theorem Mirrors.leave (h : Mirrors bs env scope pos) (hpos : pos ≤ pos')
    (hended : ∀ b ∈ new, b.scope.stop ≤ pos') : Mirrors (bs ++ new) env scope pos' where
  start := (h.mono hpos).start
  settled b hb := by
    rcases List.mem_append.1 hb with hb | hb
    · exact (h.mono hpos).settled b hb
    · exact .inr (hended b hb)
  agree name use huse hstop := by
    rw [resolve?_append]
    · exact (h.mono hpos).agree name use huse hstop
    · intro b hb _
      have := hended b hb
      rw [Bool.eq_false_iff, ne_eq, covers_iff]
      omega

/-- After a clause whose bindings hide those that can be seen. -/
theorem Mirrors.declare (h : Mirrors bs env scope pos) {visibleFrom : Nat} {names : List Node}
    (hmade : MadeOf scope visibleFrom names new) (hpos : pos ≤ pos') (hvisible : visibleFrom ≤ pos')
    (hnames : ∀ d ∈ names, scope.start ≤ d.start ∧ d.start < pos')
    (hhides : ∀ b ∈ bs, ∀ use, pos' ≤ use → use < scope.stop → b.covers use = true →
      b.scope.start < scope.start ∨ b.visibleFrom < visibleFrom) :
    Mirrors (bs ++ new) (env.declare names) scope pos' where
  start := (h.mono hpos).start
  settled b hb := by
    rcases List.mem_append.1 hb with hb | hb
    · exact (h.mono hpos).settled b hb
    · obtain ⟨d, hd, _, hname, hscope, hfrom⟩ := hmade.exists_name hb
      obtain ⟨hlo, hhi⟩ := hnames d hd
      rw [← hname] at hlo hhi
      exact .inl ⟨by simpa [hscope] using hlo, hhi, by simp [hscope], by simp [hscope],
        by simpa [hfrom] using hvisible⟩
  agree name use huse hstop := by
    have hstart := (h.mono hpos).start
    rw [Env.find?_declare, hmade.resolve?_append ⟨by omega, hstop⟩ (Nat.le_trans hvisible huse),
      Option.map_or, (h.mono hpos).agree name use huse hstop]
    intro b hb hcovers
    -- `b` covers the use, so that it is live: its scope is larger, or it is seen from earlier on
    have hcover := covers_iff.1 hcovers
    have hhide := hhides b hb use huse hstop hcovers
    rcases (h.mono hpos).settled b hb with hlive | hended
    · have := hlive.outer
      have := hlive.stop
      simp only [Extent.length]
      omega
    · omega

end

/-! ## Collecting and visiting -/

/-- What collecting from a stretch of text does to the bindings, along with what visiting it does
to the environment and what the visit comes to. -/
structure Follows (bs bs' : List Binding) (scope : Extent) (env' : Env) (lo hi : Nat)
    (uses : List (Node × Option Node)) (hidden : Node → Prop) (closed : Prop) : Prop where
  /-- Later bindings do not matter to what comes before, nor do those of scopes that have ended to
  what follows. -/
  new : ∃ new, bs' = bs ++ new ∧ ∀ b ∈ new, lo ≤ b.nameAt ∧ lo ≤ b.visibleFrom ∧
    (b.scope = scope ∨ b.scope.stop ≤ hi) ∧ (closed → b.scope.stop ≤ hi)
  mirrors : Mirrors bs' env' scope hi
  agree : ∀ u d?, (u, d?) ∈ uses → ¬ hidden u →
    (resolve? bs' u.text u.start).map (·.nameAt) = d?.map Node.start

namespace Typer

/-- Collecting from the node goes along with visiting it. -/
def Followed (n : Node) : Prop :=
  ∀ ⦃t : Typer⦄ ⦃scope : Extent⦄ ⦃env : Env⦄ ⦃pos : Nat⦄, Mirrors t.locals env scope pos →
    pos ≤ n.start → n.stop ≤ scope.stop → Follows t.locals (t.collect scope n).locals scope
      (visit env n).2 n.start n.stop (visit env n).1 n.Hides n.Closed

section
variable {t : Typer} {scope : Extent} {env : Env} {pos lo hi : Nat} {n u : Node} {ns : List Node}

theorem place_of_mem_visit {d? : Option Node} (hplaced : n.Placed)
    (h : (u, d?) ∈ (visit env n).1) : n.start ≤ u.start ∧ u.start < n.stop := by
  obtain ⟨hlo, hhi, hu⟩ := hplaced.within (mem_all_of_mem_visit h)
  have := hu.nonempty
  omega

theorem follows_collectAll (hns : ∀ c ∈ ns, Followed c) (h : Mirrors t.locals env scope pos)
    (hlo : pos ≤ lo) (hle : lo ≤ hi) (hhi : hi ≤ scope.stop) (hplaced : Node.PlacedIn ns lo hi) :
    Follows t.locals (t.collectAll scope ns).locals scope (visitAll env ns).2 lo hi
      (visitAll env ns).1 (fun u => ∃ c ∈ ns, c.Hides u) (∀ c ∈ ns, c.Closed) := by
  induction ns generalizing t env pos lo with
  | nil =>
    rw [collectAll, visitAll]
    exact ⟨⟨[], (List.append_nil _).symm, by simp⟩, h.mono (Nat.le_trans hlo hle), by simp⟩
  | cons n rest ih =>
    obtain ⟨hn, hplaced, hstop, hrest⟩ := hplaced
    have hnonempty := hplaced.nonempty
    have hfirst := hns n List.mem_cons_self h (Nat.le_trans hlo hn) (Nat.le_trans hstop hhi)
    have hmore := ih (fun c hc => hns c (List.mem_cons_of_mem _ hc)) hfirst.mirrors
      (Nat.le_refl _) hstop hrest
    obtain ⟨new, hnew, hfacts⟩ := hfirst.new
    obtain ⟨more, hmoreEq, hmoreFacts⟩ := hmore.new
    rw [collectAll, visitAll]
    refine ⟨⟨new ++ more, ?_, fun b hb => ?_⟩, hmore.mirrors, fun u d? hu hhidden => ?_⟩
    · rw [hmoreEq, hnew, List.append_assoc]
    · rcases List.mem_append.1 hb with hb | hb
      · obtain ⟨hname, hvisible, hscope, hclosed⟩ := hfacts b hb
        refine ⟨Nat.le_trans hn hname, Nat.le_trans hn hvisible, ?_, fun hcs =>
          Nat.le_trans (hclosed (hcs n List.mem_cons_self)) hstop⟩
        exact hscope.imp_right fun hended => Nat.le_trans hended hstop
      · obtain ⟨hname, hvisible, hscope, hclosed⟩ := hmoreFacts b hb
        exact ⟨by omega, by omega, hscope, fun hcs =>
          hclosed fun c hc => hcs c (List.mem_cons_of_mem _ hc)⟩
    · rcases List.mem_append.1 hu with hu | hu
      · -- what is bound after the node does not cover a use in it
        have hbefore := (place_of_mem_visit hplaced hu).2
        rw [hmoreEq, resolve?_append fun b hb _ =>
          not_covers_of_lt (hmoreFacts b hb).1 (hmoreFacts b hb).2.1 hbefore]
        exact hfirst.agree u d? hu fun hhides => hhidden ⟨n, List.mem_cons_self, hhides⟩
      · refine hmore.agree u d? hu ?_
        rintro ⟨c, hc, hhides⟩
        exact hhidden ⟨c, List.mem_cons_of_mem _ hc, hhides⟩

theorem followed_other (hplaced : n.Placed) (hkind : n.kind.entered? = none)
    (hnamed : ∀ c ∈ n.named, Followed c) : Followed n := by
  intro t scope env pos h hlo hhi
  have hnonempty := hplaced.nonempty
  have hall : Follows t.locals (t.collect scope n).locals
      (if n.kind.opensScope then n.extent else scope)
      (visitAll (if n.kind.opensScope then [] :: env else env) n.named).2 n.start n.stop
      (visitAll (if n.kind.opensScope then [] :: env else env) n.named).1
      (fun u => ∃ c ∈ n.named, c.Hides u) (∀ c ∈ n.named, c.Closed) := by
    have hchildren := hplaced.named
    rw [collect_other t scope hkind]
    split
    · exact follows_collectAll hnamed (h.push hlo hhi) (Nat.le_refl _) (Nat.le_of_lt hnonempty)
        (Nat.le_refl _) hchildren
    · exact follows_collectAll hnamed h hlo (Nat.le_of_lt hnonempty) hhi hchildren
  obtain ⟨new, hnew, hfacts⟩ := hall.new
  have hended (hscope : n.kind.opensScope = true) : ∀ b ∈ new, b.scope.stop ≤ n.stop := by
    intro b hb
    rcases (hfacts b hb).2.2.1 with heq | hle
    · rw [if_pos hscope] at heq
      exact heq ▸ Nat.le_refl _
    · exact hle
  refine ⟨⟨new, hnew, fun b hb => ?_⟩, ?_, fun u d? hu hhidden => ?_⟩
  · obtain ⟨hname, hvisible, hscope, hclosed⟩ := hfacts b hb
    refine ⟨hname, hvisible, ?_, fun hcl => ?_⟩
    · by_cases hopens : n.kind.opensScope = true
      · exact .inr (hended hopens b hb)
      · rwa [if_neg hopens] at hscope
    · rcases Node.closed_iff.1 hcl with hopens | ⟨_, hcs⟩
      · exact hended hopens b hb
      · exact hclosed fun c hc => hcs c (Node.mem_children_of_mem_named hc)
  · rw [env_visit hkind]
    by_cases hopens : n.kind.opensScope = true
    · rw [if_pos hopens, hnew]
      exact h.leave (by omega) (hended hopens)
    · have hmirrors := hall.mirrors
      rw [if_neg hopens] at hmirrors ⊢
      rwa [if_neg hopens] at hmirrors
  · rcases (mem_visit hkind).1 hu with ⟨huse, rfl, rfl⟩ | hu
    · -- a use of a name has no parts to collect from
      have hnone : u.named = [] := by
        simp only [Node.isUse, Bool.and_eq_true, List.isEmpty_iff] at huse
        rw [Node.named, huse.1.2, List.filter_nil]
      rw [collect_other t scope hkind, hnone, collectAll]
      exact h.agree u.text u.start hlo (by omega)
    · refine hall.agree u d? hu ?_
      rintro ⟨c, hc, hhides⟩
      exact hhidden (.part (Node.mem_children_of_mem_named hc) hhides)

/-! ## Declaring nodes -/

/-- Asides come before the entered part. -/
theorem stop_le_of_mem_asides (hplaced : n.Placed) {c m : Node} (hm : n.entered = some m)
    (hc : c ∈ n.asides) : c.stop ≤ m.start := by
  obtain ⟨f, hf, hfield⟩ := field?_of_entered hm
  have hchildren := hplaced.children
  rw [hplaced.eq_dropLast_append hf hfield] at hchildren
  refine hchildren.stop_le ?_ (List.mem_singleton_self m)
  rw [Node.asides, hf, hm] at hc
  exact (List.mem_filter.1 hc).1

/-- A use in an aside refers to what was there before the node, unless its name is declared in the
aside or bound by what covers it. -/
theorem agree_of_aside {bs new : List Binding} {c : Node} {d? : Option Node}
    (h : Mirrors bs env scope pos) (hlo : pos ≤ n.start) (hhi : n.stop ≤ scope.stop)
    (hplaced : n.Placed) (hc : c ∈ n.children) (hu : (u, d?) ∈ (visit env c).1)
    (hdeclares : ¬ c.Declares u.text)
    (hnew : ∀ b ∈ new, b.name = u.text → b.covers u.start = false) :
    (resolve? (bs ++ new) u.text u.start).map (·.nameAt) = d?.map Node.start := by
  obtain ⟨hstart, hstop, hplaced'⟩ := hplaced.child hc
  obtain ⟨hbefore, hafter⟩ := place_of_mem_visit hplaced' hu
  rw [resolve?_append hnew, find?_of_mem_visit hdeclares hu]
  exact h.agree u.text u.start (by omega) (by omega)

theorem not_declares_of_not_hides {c : Node} {d? : Option Node} (hc : c ∈ n.asides)
    (hu : (u, d?) ∈ (visit env c).1) (hhidden : ¬ n.Hides u) : ¬ c.Declares u.text :=
  fun hdeclares => hhidden (.aside hc (mem_all_of_mem_visit hu) (.inl hdeclares))

theorem start_le_entered (hplaced : n.Placed) :
    n.start ≤ (n.entered.map Node.start).getD n.stop := by
  cases hm : n.entered with
  | none => exact Nat.le_of_lt hplaced.nonempty
  | some m =>
    obtain ⟨f, _, hfield⟩ := field?_of_entered hm
    exact (hplaced.child (Node.mem_children_of_field? hfield)).1

/-- What collecting from the entered part of a declaring node does to the bindings, along with what
visiting it does to the environment and comes to. -/
structure Enters (t : Typer) (scope : Extent) (env : Env) (n : Node) (new : List Binding) :
    Prop where
  locals : (t.collectEntered scope n).locals = t.locals ++ new
  place : ∀ b ∈ new, n.start ≤ b.nameAt ∧ n.start ≤ b.visibleFrom
  asides : ∀ c ∈ n.asides, ∀ b ∈ new, c.stop ≤ b.nameAt ∧ c.stop ≤ b.visibleFrom
  ended : ∀ b ∈ new, b.scope = scope ∨ b.scope.stop ≤ n.stop
  closed : (∀ m, n.entered = some m → m.Closed) → ∀ b ∈ new, b.scope.stop ≤ n.stop
  mirrors : Mirrors (t.locals ++ new) ((n.entered.map fun m => (visit env m).2).getD env) scope
    n.stop
  agree : ∀ m, n.entered = some m → ∀ u d?, (u, d?) ∈ (visit env m).1 → ¬ m.Hides u →
    (resolve? (t.locals ++ new) u.text u.start).map (·.nameAt) = d?.map Node.start

theorem exists_enters (hplaced : n.Placed) (hentered : ∀ m, n.entered = some m → Followed m)
    (h : Mirrors t.locals env scope pos) (hpos : pos ≤ (n.entered.map Node.start).getD n.stop)
    (hhi : n.stop ≤ scope.stop) : ∃ new, Enters t scope env n new := by
  cases hm : n.entered with
  | none =>
    rw [hm] at hpos
    exact ⟨[], by simp [collectEntered, hm], nofun, nofun, nofun, nofun,
      by simpa [hm] using h.mono hpos, by simp [hm]⟩
  | some m =>
    rw [hm] at hpos
    obtain ⟨f, _, hfield⟩ := field?_of_entered hm
    obtain ⟨hstart, hstop, _⟩ := hplaced.child (Node.mem_children_of_field? hfield)
    have hfollows := hentered m hm h hpos (Nat.le_trans hstop hhi)
    obtain ⟨new, hnew, hfacts⟩ := hfollows.new
    have hmirrors := hfollows.mirrors
    have hagree := hfollows.agree
    rw [hnew] at hmirrors hagree
    refine ⟨new, by simpa [collectEntered, hm] using hnew, fun b hb => ?_, fun c hc b hb => ?_,
      fun b hb => ?_, fun hclosed b hb => ?_, by simpa [hm] using hmirrors.mono hstop,
      fun m' hm' => ?_⟩
    · obtain ⟨hname, hvisible, _⟩ := hfacts b hb
      exact ⟨Nat.le_trans hstart hname, Nat.le_trans hstart hvisible⟩
    · obtain ⟨hname, hvisible, _⟩ := hfacts b hb
      have hbefore := stop_le_of_mem_asides hplaced hm hc
      exact ⟨Nat.le_trans hbefore hname, Nat.le_trans hbefore hvisible⟩
    · obtain ⟨_, _, hscope, _⟩ := hfacts b hb
      exact hscope.imp_right fun hended => Nat.le_trans hended hstop
    · obtain ⟨_, _, _, hended⟩ := hfacts b hb
      exact Nat.le_trans (hended (hclosed m hm)) hstop
    · obtain rfl := Option.some.inj (hm.symm.trans hm')
      exact hagree

theorem place_of_mem_parameterNames (hplaced : n.Placed) (hfunction : n.kind.isFunction = true)
    {d : Node} (hd : d ∈ n.parameterNames) :
    n.start ≤ d.start ∧ d.start < (n.entered.map Node.start).getD n.stop := by
  obtain ⟨f, list, hf, hlist, hd⟩ := Node.field?_of_mem_parameterNames hd
  have hmem := Node.mem_children_of_field? hlist
  obtain ⟨hstart, hstop, hplaced'⟩ := hplaced.child hmem
  obtain ⟨hlo, hhi, hplacedD⟩ := hplaced'.within hd
  have hnonempty := hplacedD.nonempty
  refine ⟨by omega, ?_⟩
  cases hm : n.entered with
  | none =>
    show d.start < n.stop
    omega
  | some m =>
    show d.start < m.start
    obtain ⟨f', hf', hfield⟩ := field?_of_entered hm
    have hbody : f' = .body := by
      cases hkind : n.kind <;> simp_all [Kind.isFunction, Kind.entered?]
    have hne : list ≠ m := by
      rintro rfl
      have h := List.find?_some hlist
      have h' := List.find?_some hfield
      simp only [beq_iff_eq] at h h'
      exact hf (Option.some.inj (h.symm.trans (h'.trans (congrArg some hbody))))
    have hchildren := hplaced.children
    rw [hplaced.eq_dropLast_append hf' hfield] at hchildren hmem
    rcases List.mem_append.1 hmem with hmem | hmem
    · have := hchildren.stop_le hmem (List.mem_singleton_self m)
      omega
    · exact absurd (List.mem_singleton.1 hmem) hne

/-- Where the body of a function is entered, the names of its signature hide what is bound
outside. -/
theorem mirrors_bindSignature (hplaced : n.Placed) (hfunction : n.kind.isFunction = true)
    (h : Mirrors t.locals env scope pos) (hlo : pos ≤ n.start) (hhi : n.stop ≤ scope.stop) :
    Mirrors (t.bindSignature n).locals (innerEnv env n) n.extent
      ((n.entered.map Node.start).getD n.stop) := by
  obtain ⟨params, hparams, hmade⟩ := adds_bindSignature t n
  have hpush : Mirrors t.locals ([] :: env) n.extent n.start := h.push hlo hhi
  have hnames := fun d hd => place_of_mem_parameterNames (d := d) hplaced hfunction hd
  have hfirst := start_le_entered hplaced
  rw [hparams, innerEnv, if_pos hfunction]
  refine hpush.declare hmade hfirst hfirst hnames fun b hb use huse _ hcovers => ?_
  have hcover := covers_iff.1 hcovers
  rcases h.settled b hb with hlive | hended
  · have := hlive.start
    have := hlive.nameAt
    exact .inl (by show b.scope.start < n.start; omega)
  · omega

/-- A function: parameters and results are seen in its body only. -/
theorem followed_function (hplaced : n.Placed) (hfunction : n.kind.isFunction = true)
    (hentered : ∀ m, n.entered = some m → Followed m) : Followed n := by
  intro t scope env pos h hlo hhi
  have hkind : n.kind.entered?.isSome = true := by
    cases hkind : n.kind <;> simp_all [Kind.isFunction, Kind.entered?]
  have hnonempty := hplaced.nonempty
  obtain ⟨params, hparams, hmade⟩ := adds_bindSignature t n
  have hnames := fun d hd => place_of_mem_parameterNames (d := d) hplaced hfunction hd
  have hinner := mirrors_bindSignature hplaced hfunction h hlo hhi
  obtain ⟨more, hbody⟩ := exists_enters hplaced hentered hinner (Nat.le_refl _) (Nat.le_refl _)
  have hmore : (t.collect scope n).locals = t.locals ++ (params ++ more) := by
    rw [collect_function t scope hfunction, hbody.locals, hparams, List.append_assoc]
  have hended : ∀ b ∈ params ++ more, b.scope.stop ≤ n.stop := by
    intro b hb
    rcases List.mem_append.1 hb with hb | hb
    · obtain ⟨d, _, _, _, hscope, _⟩ := hmade.exists_name hb
      exact hscope ▸ Nat.le_refl _
    · rcases hbody.ended b hb with heq | hle
      · exact heq ▸ Nat.le_refl _
      · exact hle
  refine ⟨⟨params ++ more, hmore, fun b hb => ?_⟩, ?_, fun u d? hu hhidden => ?_⟩
  · have hstop := hended b hb
    rcases List.mem_append.1 hb with hb | hb
    · obtain ⟨d, hd, _, hname, _, hfrom⟩ := hmade.exists_name hb
      have := (hnames d hd).1
      exact ⟨by omega, by omega, .inr hstop, fun _ => hstop⟩
    · obtain ⟨hname, hvisible⟩ := hbody.place b hb
      exact ⟨hname, hvisible, .inr hstop, fun _ => hstop⟩
  · rw [env_visit_of_entered? hkind, if_pos hfunction, hmore]
    exact h.leave (by omega) hended
  · rcases (mem_visit_of_entered? hkind).1 hu with hu | ⟨m, hm, hu⟩
    · obtain ⟨c, hc, hu⟩ := mem_visitAsides.1 hu
      have hmem := (asides_sublist n).subset hc
      rw [hmore]
      refine agree_of_aside h hlo hhi hplaced hmem hu (not_declares_of_not_hides hc hu hhidden)
        fun b hb hname => ?_
      rcases List.mem_append.1 hb with hb | hb
      · obtain ⟨d, hd, hdname, _⟩ := hmade.exists_name hb
        exact absurd (.aside hc (mem_all_of_mem_visit hu)
          (.inr ⟨hfunction, d, hd, hdname.symm.trans hname⟩)) hhidden
      · have hafter := (place_of_mem_visit (hplaced.child hmem).2.2 hu).2
        obtain ⟨hnameAt, hvisible⟩ := hbody.asides c hc b hb
        exact not_covers_of_lt hnameAt hvisible hafter
    · obtain ⟨f, _, hfield⟩ := field?_of_entered hm
      rw [hmore, ← List.append_assoc, ← hparams]
      exact hbody.agree m hm u d? hu fun hhides =>
        hhidden (.part (Node.mem_children_of_field? hfield) hhides)

/-- The names of a clause do not cover what its other parts use. -/
theorem not_covers_of_naming {names : List Binding} {c : Node} (hplaced : n.Placed)
    (hmade : MadeOf scope n.stop n.binds names) (hc : c ∈ n.children)
    (hnaming : n.isNaming c = false) (hu : c.start ≤ u.start ∧ u.start < c.stop) :
    ∀ b ∈ names, b.covers u.start = false := by
  intro b hb
  obtain ⟨d, hd, _, hname, _, hfrom⟩ := hmade.exists_name hb
  obtain ⟨part, hpart, hnaming', hd⟩ := Node.isNaming_of_mem_binds hd
  obtain ⟨_, _, hplacedPart⟩ := hplaced.child hpart
  obtain ⟨hlo, hhi, hplacedD⟩ := hplacedPart.within hd
  have hnonempty := hplacedD.nonempty
  have hne : part ≠ c := by
    rintro rfl
    exact absurd hnaming' (by simp [hnaming])
  have hapart := hplaced.children.apart hpart hc hne
  have hstop := (hplaced.child hc).2.1
  rw [Bool.eq_false_iff, ne_eq, covers_iff]
  omega

/-- A clause: its names are seen once it is over. -/
theorem followed_clause (hplaced : n.Placed) (hkind : n.kind.entered?.isSome = true)
    (hfunction : ¬ n.kind.isFunction = true) (hentered : ∀ m, n.entered = some m → Followed m) :
    Followed n := by
  intro t scope env pos h hlo hhi
  have hnonempty := hplaced.nonempty
  have hstart := h.start
  obtain ⟨names, hnames, hmade⟩ := adds_collect t scope hkind hfunction
  have hinner : innerEnv env n = env := if_neg hfunction
  obtain ⟨more, henters⟩ := exists_enters hplaced hentered h
    (Nat.le_trans hlo (start_le_entered hplaced)) hhi
  have hmore : (t.collect scope n).locals = t.locals ++ more ++ names := by
    rw [hnames, henters.locals]
  have hended : ∀ b ∈ more, b.scope.stop ≤ n.stop := by
    refine henters.closed fun m hm => ?_
    obtain ⟨f, hf, hfield⟩ := field?_of_entered hm
    exact hplaced.regular.closed f hf (by simpa using hfunction) m
      (Node.mem_children_of_field? hfield) (by simpa using List.find?_some hfield)
  have hplaces : ∀ d ∈ n.binds, n.start ≤ d.start ∧ d.start < n.stop := by
    intro d hd
    obtain ⟨part, hpart, _, hd⟩ := Node.isNaming_of_mem_binds hd
    obtain ⟨hlo, hhi, hplacedD⟩ := hplaced.within (Node.mem_all_of_child hpart hd)
    have := hplacedD.nonempty
    omega
  -- what is entered ends with the node, but the names of the clause are seen from its end on
  refine ⟨⟨more ++ names, by rw [hmore, List.append_assoc], fun b hb => ?_⟩, ?_,
    fun u d? hu hhidden => ?_⟩
  · rcases List.mem_append.1 hb with hb | hb
    · obtain ⟨hname, hvisible⟩ := henters.place b hb
      have hstop := hended b hb
      exact ⟨hname, hvisible, .inr hstop, fun _ => hstop⟩
    · obtain ⟨d, hd, _, hname, hscope, hfrom⟩ := hmade.exists_name hb
      have := hplaces d hd
      refine ⟨by omega, by omega, .inl hscope, fun hclosed => ?_⟩
      rcases Node.closed_iff.1 hclosed with hopens | ⟨hnone, _⟩
      · exact absurd (Kind.opensScope_eq_isFunction hkind ▸ hopens) hfunction
      · exact absurd hkind (by simp [hnone])
  · rw [env_visit_of_entered? hkind, if_neg hfunction, hinner, hmore]
    refine henters.mirrors.declare hmade (Nat.le_refl _) (Nat.le_refl _)
      (fun d hd => ⟨by have := hplaces d hd; omega, (hplaces d hd).2⟩)
      fun b hb use huse _ hcovers => ?_
    have hcover := covers_iff.1 hcovers
    rcases List.mem_append.1 hb with hb | hb
    · rcases h.settled b hb with hlive | hended
      · have := hlive.visible
        exact .inr (by omega)
      · omega
    · have := hended b hb
      omega
  · rcases (mem_visit_of_entered? hkind).1 hu with hu | ⟨m, hm, hu⟩
    · obtain ⟨c, hc, hu⟩ := mem_visitAsides.1 hu
      have hmem := (asides_sublist n).subset hc
      have hplace := place_of_mem_visit (hplaced.child hmem).2.2 hu
      rw [hmore, List.append_assoc]
      refine agree_of_aside h hlo hhi hplaced hmem hu (not_declares_of_not_hides hc hu hhidden)
        fun b hb _ => ?_
      rcases List.mem_append.1 hb with hb | hb
      · obtain ⟨hname, hvisible⟩ := henters.asides c hc b hb
        exact not_covers_of_lt hname hvisible hplace.2
      · exact not_covers_of_naming hplaced hmade hmem (isNamed_of_mem_asides hc).2 hplace b hb
    · obtain ⟨f, _, hfield⟩ := field?_of_entered hm
      have hmem := Node.mem_children_of_field? hfield
      have hplace := place_of_mem_visit (hplaced.child hmem).2.2 hu
      rw [hmore, resolve?_append fun b hb _ =>
        not_covers_of_naming hplaced hmade hmem (isNaming_of_entered hm) hplace b hb]
      exact henters.agree m hm u d? (hinner ▸ hu) fun hhides => hhidden (.part hmem hhides)

end

/-- Collecting from a placed node goes along with visiting it. -/
theorem followed_of_placed {n : Node} (hplaced : n.Placed) : Followed n := by
  have hentered : ∀ m, n.entered = some m → Followed m := by
    intro m hm
    have := size_lt_of_entered hm
    obtain ⟨f, _, hfield⟩ := field?_of_entered hm
    exact followed_of_placed (hplaced.child (Node.mem_children_of_field? hfield)).2.2
  by_cases hkind : n.kind.entered?.isSome = true
  · by_cases hfunction : n.kind.isFunction = true
    · exact followed_function hplaced hfunction hentered
    · exact followed_clause hplaced hkind hfunction hentered
  · refine followed_other hplaced (by simpa using hkind) fun c hc => ?_
    have := Node.size_lt_of_mem_named hc
    exact followed_of_placed (hplaced.child (Node.mem_children_of_mem_named hc)).2.2
termination_by n.size

end Typer
end RouteCheck
