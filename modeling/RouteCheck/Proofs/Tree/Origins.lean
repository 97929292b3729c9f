import RouteCheck.Proofs.Tree.SourceReads
import RouteCheck.Proofs.Tree.SourceTree

/-!
Where the nodes of a tree come from.

A node that was read from tokens begins where one of them does. A conditional statement that was
read has a condition, a loop has at most one part before its body, and a specification has a list of
names. `Keeps` is a triple for readers: as long as the tokens that are left are among the given ones,
so they stay, and what is said of the answer holds.

Main statements:
  1. `Keeps.bind`, `Keeps.orElse`, `Keeps.peek`, `Keeps.within`: the rules of the triple.
  2. `keeps_node`, `keeps_nodeFrom`, `keeps_leaf`: the nodes that are made of what was read.
  3. `keeps_many`, `keeps_sepBy`, `keeps_listUntil`, `keeps_lines`: lists of what was read.
  4. `From.readAs`: an expression that is read as a type.
-/

namespace RouteCheck

/-- Something is known of the parts of nodes of this kind. -/
def Kind.hasForm (k : Kind) : Bool :=
  k == .ifStatement || k == .forStatement || k == .varSpec || k == .constSpec

namespace Node

/-- What begins where one of the tokens does. -/
def Begins (ts : List Token) (span : Span) : Prop :=
  ∃ t ∈ ts, span = { t.span with stop := span.stop }

/-- The nodes of the tree begin where tokens do, and are formed. -/
def From (ts : List Token) (n : Node) : Prop := ∀ m ∈ n.all, Begins ts m.span ∧ m.Formed

def AllFrom (ts : List Token) (ns : List Node) : Prop := ∀ n ∈ ns, n.From ts

section
variable {ts : List Token} {n : Node} {cs ds : List Node} {k : Kind} {f : Field} {h : Head}

theorem formed_of_formless (hk : n.kind.hasForm = false) : n.Formed where
  condition hif := absurd hk (by simp [hif, Kind.hasForm])
  header hfor := absurd hk (by simp [hfor, Kind.hasForm])
  names hspec := absurd hk (by rcases hspec with hspec | hspec <;> simp [hspec, Kind.hasForm])

theorem from_iff : n.From ts ↔ Begins ts n.span ∧ n.Formed ∧ AllFrom ts n.children := by
  constructor
  · intro h
    obtain ⟨hbegins, hformed⟩ := h n (self_mem_all n)
    exact ⟨hbegins, hformed, fun c hc m hm => h m (mem_all_of_child hc hm)⟩
  · rintro ⟨hbegins, hformed, hchildren⟩ m hm
    rw [all_eq] at hm
    rcases List.mem_cons.1 hm with rfl | hm
    · exact ⟨hbegins, hformed⟩
    · obtain ⟨c, hc, hm⟩ := mem_allOf.1 hm
      exact hchildren c hc m hm

theorem from_mk (hk : h.kind.hasForm = false) :
    (mk h cs).From ts ↔ Begins ts h.span ∧ AllFrom ts cs := by
  rw [from_iff]
  exact ⟨fun ⟨hbegins, _, hcs⟩ => ⟨hbegins, hcs⟩,
    fun ⟨hbegins, hcs⟩ => ⟨hbegins, formed_of_formless hk, hcs⟩⟩

theorem From.begins (hn : n.From ts) : Begins ts n.span := (from_iff.1 hn).1

theorem From.children (hn : n.From ts) : AllFrom ts n.children := (from_iff.1 hn).2.2

theorem begins_token {t : Token} (ht : t ∈ ts) : Begins ts t.span := ⟨t, ht, rfl⟩

theorem Begins.stop {span : Span} (hspan : Begins ts span) (stop : Nat) :
    Begins ts { span with stop } := by
  obtain ⟨t, ht, hspan⟩ := hspan
  exact ⟨t, ht, by rw [hspan]⟩

@[simp] theorem allFrom_nil : AllFrom ts [] := List.forall_mem_nil _

@[simp] theorem allFrom_cons : AllFrom ts (n :: cs) ↔ n.From ts ∧ AllFrom ts cs :=
  List.forall_mem_cons

@[simp] theorem allFrom_append : AllFrom ts (cs ++ ds) ↔ AllFrom ts cs ∧ AllFrom ts ds :=
  List.forall_mem_append

@[simp] theorem allFrom_flatten {nss : List (List Node)} :
    AllFrom ts nss.flatten ↔ ∀ ns ∈ nss, AllFrom ts ns := by
  induction nss with
  | nil => simp
  | cons ns nss ih => rw [List.flatten_cons, allFrom_append, ih, List.forall_mem_cons]

@[simp] theorem from_under : (n.under f).From ts ↔ n.From ts := by
  have hformed : (n.under f).Formed ↔ n.Formed := by
    cases n
    exact ⟨fun h => ⟨h.condition, h.header, h.names⟩, fun h => ⟨h.condition, h.header, h.names⟩⟩
  have hspan : (n.under f).span = n.span := by cases n; rfl
  rw [from_iff, from_iff, hformed, hspan, children_under]

@[simp] theorem allFrom_map_under : AllFrom ts (cs.map (·.under f)) ↔ AllFrom ts cs := by
  induction cs with
  | nil => rfl
  | cons c cs ih => simp [ih]

theorem From.as (hn : n.From ts) (hk : k.hasForm = false) : (n.as k).From ts := by
  cases n
  exact (from_mk hk).2 ⟨hn.begins, hn.children⟩

theorem From.rekind (hn : (mk h cs).From ts) (hk : k.hasForm = false) (hds : AllFrom ts ds) :
    (mk { h with kind := k } ds).From ts := (from_mk hk).2 ⟨hn.begins, hds⟩

/-- An expression that is read as a type begins where it did, and so do its parts. -/
theorem From.readAs {n t : Node} (hn : n.From ts) (h : ReadAs n t) : t.From ts := by
  have hpart {h : Head} {cs : List Node} (hn : (mk h cs).From ts) {c : Node} (hc : c ∈ cs) :
      c.From ts := hn.children c hc
  induction h with
  | name => exact hn.as rfl
  | qualified =>
    have hp := (hpart hn List.mem_cons_self).as (k := .packageIdentifier) rfl
    have hf := (hpart hn (List.mem_cons_of_mem _ List.mem_cons_self)).as (k := .typeIdentifier) rfl
    exact hn.rekind rfl (by simpa using ⟨hp, hf⟩)
  | parenthesized _ _ ih => exact hn.rekind rfl (by simpa using ih (hpart hn (by simp)))
  | pointer _ _ ih =>
    have hc := from_iff.1 (ih (hpart hn (by simp)))
    refine hn.rekind rfl (List.forall_mem_singleton.2 (from_iff.2 ⟨hc.1, ?_, hc.2.2⟩))
    exact ⟨hc.2.1.condition, hc.2.1.header, hc.2.1.names⟩
  | union _ _ _ ihl ihr =>
    exact hn.rekind rfl (by simpa using ⟨ihl (hpart hn (by simp)), ihr (hpart hn (by simp))⟩)
  | generic _ _ _ iht iha =>
    exact hn.rekind rfl (by simpa using ⟨iht (hpart hn (by simp)), iha (hpart hn (by simp))⟩)
  | instantiation => exact hn.as rfl
  | typeOnly => exact hn

theorem From.asType? {n t : Node} (hn : n.From ts) (h : n.asType? = some t) : t.From ts :=
  hn.readAs (readAs_of_asType? h)

end
end Node

namespace Reader
open Node

/-! ## The triple -/

/-- Started on tokens that are all among `ts`, the reader leaves such tokens, and of what it answers
`P` holds. -/
def Keeps {α : Type} (ts : List Token) (r : Read α) (P : α → Prop) : Prop :=
  ∀ s a s', s.tokens ⊆ ts → r.run s = some (a, s') → s'.tokens ⊆ ts ∧ P a

section
variable {α β : Type} {ts : List Token} {r r' : Read α} {k : α → Read β} {a : α} {w : String}
  {P P' : α → Prop} {Q : β → Prop} {p : Token → Bool}

namespace Keeps

theorem mono (h : Keeps ts r P) (hP : ∀ a, P a → P' a) : Keeps ts r P' := by
  intro s a s' hs hrun
  obtain ⟨hs', ha⟩ := h s a s' hs hrun
  exact ⟨hs', hP a ha⟩

theorem pure (h : P a) : Keeps ts (pure a) P := by
  intro s a' s' hs hrun
  obtain ⟨rfl, rfl⟩ := Prod.mk.inj (Option.some.inj hrun)
  exact ⟨hs, h⟩

theorem failure : Keeps ts (failure : Read α) P := fun _ _ _ _ hrun => nomatch hrun

theorem bind (hr : Keeps ts r P) (hk : ∀ a, P a → Keeps ts (k a) Q) : Keeps ts (r >>= k) Q := by
  intro s b s'' hs hrun
  obtain ⟨a, s', ha, hrest⟩ := run_bind_eq_some hrun
  obtain ⟨hs', hP⟩ := hr s a s' hs ha
  exact hk a hP s' b s'' hs' hrest

theorem orElse (hr : Keeps ts r P) (hr' : Keeps ts r' P) : Keeps ts (r <|> r') P := by
  intro s a s' hs hrun
  have hrun : (r.run s <|> r'.run s) = some (a, s') := hrun
  cases hx : r.run s with
  | none =>
    rw [hx] at hrun
    exact hr' s a s' hs hrun
  | some x =>
    rw [hx] at hrun
    exact hr s a s' hs (hx.trans hrun)

theorem ite {c : Prop} [Decidable c] (hr : c → Keeps ts r P) (hr' : ¬ c → Keeps ts r' P) :
    Keeps ts (if c then r else r') P := by
  split
  · next hc => exact hr hc
  · next hc => exact hr' hc

theorem let_pure (h : Keeps ts (k a) Q) : Keeps ts (Pure.pure a >>= k) Q := by
  rwa [pure_bind]

theorem peeks (hr : Peeks r) (hk : ∀ a, Keeps ts (k a) Q) : Keeps ts (r >>= k) Q := by
  intro s b s' hs hrun
  obtain ⟨a, s₁, ha, hrest⟩ := run_bind_eq_some hrun
  exact hk a s b s' hs (hr s a s₁ ha ▸ hrest)

/-- Look at the next token. -/
theorem peek {k : Option Token → Read β} (hsome : ∀ t ∈ ts, Keeps ts (k (some t)) Q)
    (hnone : Keeps ts (k none) Q) : Keeps ts (Reader.peek >>= k) Q := by
  intro s b s' hs hrun
  obtain ⟨t?, s₁, ht, hrest⟩ := run_bind_eq_some hrun
  obtain rfl : s₁ = s := peeks_peek s t? s₁ ht
  obtain rfl : t? = s₁.tokens.head? := (Prod.mk.inj (Option.some.inj ht)).1.symm
  cases htokens : s₁.tokens with
  | nil =>
    rw [htokens] at hrest
    exact hnone s₁ b s' hs hrest
  | cons t rest =>
    rw [htokens] at hrest
    exact hsome t (hs (htokens ▸ List.mem_cons_self)) s₁ b s' hs hrest

theorem get {f : State → α} (h : ∀ s, P (f s)) :
    Keeps ts (MonadState.get >>= fun s => Pure.pure (f s)) P :=
  .peeks .get fun s => .pure (h s)

theorem get_bind {f : State → α} {g : α → β} (h : ∀ s, Q (g (f s))) :
    Keeps ts ((MonadState.get >>= fun s => Pure.pure (f s)) >>= fun a => Pure.pure (g a)) Q := by
  rw [bind_assoc]
  exact .get h

theorem within {breaks braces : Bool} (h : Keeps ts r P) :
    Keeps ts (within breaks braces r) P := by
  intro s a s' hs hrun
  obtain ⟨t, hx, rfl⟩ := run_within_eq_some hrun
  exact h { s with breaks, braces } a t hs hx

end Keeps

/-! ## Elementary readers -/

theorem keeps_accept? : Keeps ts (accept? p) fun t? => ∀ t ∈ t?, t ∈ ts := by
  intro s t? s' hs hrun
  obtain ⟨rfl, rfl⟩ | ⟨t, rest, rfl, -, htokens, rfl⟩ := run_accept?_eq_some hrun
  · exact ⟨hs, nofun⟩
  · obtain ⟨ht, hrest⟩ := List.cons_subset.1 (htokens ▸ hs)
    exact ⟨hrest, fun _ h => Option.some.inj h ▸ ht⟩

theorem keeps_require : Keeps ts (require p) (· ∈ ts) := by
  refine .bind keeps_accept? fun t? ht => ?_
  cases t? with
  | none => exact .failure
  | some t => exact .pure (ht t rfl)

theorem Keeps.skip {k : Bool → Read α} (htrue : Keeps ts (k true) P)
    (hfalse : Keeps ts (k false) P) : Keeps ts (skip? w >>= k) P := by
  rw [skip?, bind_assoc]
  refine .bind keeps_accept? fun t? _ => .let_pure ?_
  cases t? with
  | none => exact hfalse
  | some t => exact htrue

theorem keeps_skip : Keeps ts (skip? w) fun _ => True :=
  .bind keeps_accept? fun _ _ => .pure trivial

theorem Keeps.discardSkip {k : PUnit → Read α} (h : Keeps ts (k ⟨⟩) P) :
    Keeps ts (discard (skip? w) >>= k) P := by
  have hdiscard : discard (skip? w) = skip? w >>= fun _ => Pure.pure ⟨⟩ := rfl
  rw [hdiscard, bind_assoc]
  exact .skip h h

theorem Keeps.expect {k : Unit → Read α} (h : Keeps ts (k ()) P) :
    Keeps ts (Reader.expect w >>= k) P := by
  have hexpect : Reader.expect w = Reader.require (·.is w) >>= fun _ => Pure.pure () := rfl
  rw [hexpect, bind_assoc]
  exact .bind keeps_require fun _ _ => h

end

/-! ## Nodes -/

section
variable {ts : List Token} {kind : Kind} {first : Node} {children : List Node}

theorem keeps_node_of {r : Read (List Node)} {P : List Node → Prop}
    (h : Keeps ts r fun ns => AllFrom ts ns ∧ P ns)
    (hformed : ∀ n : Node, n.kind = kind → P n.children → n.Formed) :
    Keeps ts (node kind r) (From ts) :=
  .peek (fun _ ht => h.bind fun _ hns => .get fun s =>
    from_iff.2 ⟨(begins_token ht).stop s.last, hformed _ rfl hns.2, hns.1⟩) .failure

theorem keeps_node {r : Read (List Node)} (hkind : kind.hasForm = false)
    (h : Keeps ts r (AllFrom ts)) : Keeps ts (node kind r) (From ts) :=
  keeps_node_of (P := fun _ => True) (h.mono fun _ hns => ⟨hns, trivial⟩)
    fun _ hn _ => formed_of_formless (hn ▸ hkind)

theorem keeps_nodeFrom (hkind : kind.hasForm = false) (hfirst : first.From ts)
    (h : AllFrom ts children) : Keeps ts (nodeFrom first kind children) (From ts) :=
  .get fun s => (from_mk hkind).2 ⟨hfirst.begins.stop s.last, h⟩

theorem keeps_leaf {p : Token → Bool} (hkind : kind.hasForm = false) :
    Keeps ts (leaf kind p) (From ts) :=
  .bind keeps_require fun _ ht => .pure ((from_mk hkind).2 ⟨begins_token ht, allFrom_nil⟩)

theorem keeps_kind_leaf {p : Token → Bool} (hkind : kind.hasForm = false) :
    Keeps ts (leaf kind p) fun n => n.From ts ∧ n.kind = kind :=
  .bind keeps_require fun _ ht => .pure ⟨(from_mk hkind).2 ⟨begins_token ht, allFrom_nil⟩, rfl⟩

end

/-! ## Lists -/

section
variable {α : Type} {ts : List Token} {r : Read α} {P : α → Prop} {fuel : Nat}

theorem keeps_many {more : Read Bool} (hmore : Keeps ts more fun _ => True) (hr : Keeps ts r P) :
    Keeps ts (many more r fuel) fun as => ∀ a ∈ as, P a := by
  induction fuel with
  | zero => exact .failure
  | succ fuel ih =>
    refine hmore.bind fun _ _ => .ite (fun _ => ?_) fun _ => .pure (List.forall_mem_nil _)
    exact hr.bind fun a ha => ih.bind fun as has => .pure (List.forall_mem_cons.2 ⟨ha, has⟩)

theorem keeps_peeks {r : Read Bool} (h : Peeks r) : Keeps ts r fun _ => True := by
  rw [← bind_pure r]
  exact .peeks h fun _ => .pure trivial

theorem keeps_sepBy {sep : String} (hr : Keeps ts r P) :
    Keeps ts (sepBy fuel sep r) fun as => ∀ a ∈ as, P a := by
  refine hr.bind fun a ha => (keeps_many ?_ hr).bind fun as has =>
    .pure (List.forall_mem_cons.2 ⟨ha, has⟩)
  exact .peeks peeks_continues fun _ => .ite (fun _ => keeps_skip) fun _ => .pure trivial

theorem keeps_listUntil {close : String} (hr : Keeps ts r P) :
    Keeps ts (listUntil fuel close r) fun as => ∀ a ∈ as, P a := by
  refine keeps_many (keeps_peeks (.bind peeks_nextIs fun _ => .pure _)) (hr.bind fun a ha => ?_)
  exact .skip (.peeks peeks_nextIs fun _ => .ite (fun _ => .failure) fun _ => .pure ha)
    (.peeks peeks_nextIs fun _ => .ite (fun _ => .failure) fun _ => .pure ha)

theorem keeps_lines {close : List String} (hr : Keeps ts r P) :
    Keeps ts (lines fuel close r) fun as => ∀ a ∈ as, P a := by
  have hclosed {f : Option Token → Read Bool} (h : ∀ t?, Peeks (f t?)) : Peeks (peek >>= f) :=
    .bind peeks_peek h
  refine keeps_many (keeps_peeks (.bind (hclosed fun t? => ?_) fun _ => .pure _))
    (hr.bind fun a ha => ?_)
  · cases t? <;> exact .pure _
  refine .peeks peeks_broken fun _ => .ite (fun _ => .pure ha) fun _ => .skip (.pure ha) ?_
  refine .peeks (hclosed fun t? => ?_) fun _ => .ite (fun _ => .pure ha) fun _ => .failure
  cases t? <;> exact .pure _

end
end Reader
end RouteCheck
