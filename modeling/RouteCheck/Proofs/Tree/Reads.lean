import RouteCheck.Proofs.Tree.Placed
import RouteCheck.Tree.Read

/-!
What readers read lies in order.

Tokens lie one after the other, and so do the nodes that are read from them. `Reads` is a triple for
readers: started after some nodes that lie in order from a byte on, a reader goes on from there, and
of what it answers holds what is said. `Yields` is the triple of a reader on its own, and `bind`
puts what the next reader yields behind the nodes read so far.

Main statements:
  1. `Yields.bind`, `Reads.bind`, `Reads.pure`, `Reads.orElse`: the rules of the triple.
  2. `yields_node`, `Reads.nodeFrom`: the node made of what was read is placed.
  3. `yields_many`, `yields_sepBy`, `yields_listUntil`, `yields_lines`: lists of what was read.
-/

namespace RouteCheck

/-! ## Kinds that demand nothing of their parts -/

namespace Kind

/-- Nodes of this kind declare nothing, and are no selectors and no bare tokens. -/
def isLoose (k : Kind) : Bool := k.entered?.isNone && k != .selectorExpression && k != .token

/-- Moreover they open no scope. -/
def isPlain (k : Kind) : Bool := k.isLoose && !k.opensScope

theorem entered?_of_isLoose {k : Kind} (h : k.isLoose = true) : k.entered? = none := by
  simp only [isLoose, Bool.and_eq_true, Option.isNone_iff_eq_none] at h
  exact h.1.1

theorem isLoose_of_isPlain {k : Kind} (h : k.isPlain = true) : k.isLoose = true :=
  (Bool.and_eq_true_iff.1 h).1

theorem opensScope_of_isPlain {k : Kind} (h : k.isPlain = true) : k.opensScope = false := by
  simpa using (Bool.and_eq_true_iff.1 h).2

end Kind

/-! ## Places of nodes in other fields and of other kinds -/

namespace Node

section
variable {m n : Node} {cs ds : List Node} {f : Field} {k : Kind} {lo hi : Nat}

@[simp] theorem start_under : (n.under f).start = n.start := by cases n; rfl
@[simp] theorem stop_under : (n.under f).stop = n.stop := by cases n; rfl
@[simp] theorem kind_under : (n.under f).kind = n.kind := by cases n; rfl
@[simp] theorem children_under : (n.under f).children = n.children := by cases n; rfl
@[simp] theorem inField_under : (n.under f).inField = some f := by cases n; rfl

@[simp] theorem start_as : (n.as k).start = n.start := by cases n; rfl
@[simp] theorem stop_as : (n.as k).stop = n.stop := by cases n; rfl
@[simp] theorem kind_as : (n.as k).kind = k := by cases n; rfl
@[simp] theorem children_as : (n.as k).children = n.children := by cases n; rfl

theorem placed_iff : n.Placed ↔
    n.start < n.stop ∧ n.Regular ∧ PlacedIn n.children n.start n.stop := by
  cases n
  rfl

theorem regular_of_isLoose (h : n.kind.isLoose = true) : n.Regular where
  last f hf := absurd hf (by simp [Kind.entered?_of_isLoose h])
  closed f hf := absurd hf (by simp [Kind.entered?_of_isLoose h])
  dot hkind := absurd h (by simp [hkind, Kind.isLoose])
  token hkind := absurd h (by simp [hkind, Kind.isLoose])

theorem regular_of_childless (h : n.kind.entered? = none) (hnil : n.children = []) : n.Regular where
  last f hf := absurd hf (by simp [h])
  closed f hf := absurd hf (by simp [h])
  dot _ := by simp [hnil]
  token _ := hnil

/-- A declaring node with at most one part in the field that is entered, which comes last. -/
theorem regular_of_append {vs : List Node} (hf : n.kind.entered? = some f)
    (hn : n.children = cs ++ vs) (hcs : ∀ c ∈ cs, c.inField ≠ some f) (hvs : vs.length ≤ 1)
    (hclosed : n.kind.isFunction = false → ∀ v ∈ vs, v.Closed) : n.Regular where
  last f' hf' c hc := by
    obtain rfl := Option.some.inj (hf.symm.trans hf')
    refine hcs c ?_
    rw [hn] at hc
    match vs, hvs with
    | [], _ => exact List.dropLast_subset cs (by simpa using hc)
    | [v], _ => simpa using hc
  closed f' hf' hfunction c hc hfield := by
    obtain rfl := Option.some.inj (hf.symm.trans hf')
    rcases List.mem_append.1 (hn ▸ hc) with hc | hc
    · exact absurd hfield (hcs c hc)
    · exact hclosed hfunction c hc
  dot hkind := absurd hf (by simp [hkind, Kind.entered?])
  token hkind := absurd hf (by simp [hkind, Kind.entered?])

@[simp] theorem closed_under : (n.under f).Closed ↔ n.Closed := by
  rw [closed_iff, closed_iff, kind_under, children_under]

@[simp] theorem placed_under : (n.under f).Placed ↔ n.Placed := by
  have hregular : (n.under f).Regular ↔ n.Regular := by
    constructor <;> intro ⟨hlast, hclosed, hdot, htoken⟩ <;>
      exact ⟨by simpa using hlast, by simpa using hclosed, by simpa using hdot,
        by simpa using htoken⟩
  rw [placed_iff, placed_iff, hregular]
  simp

theorem Placed.as (h : n.Placed) (hk : k.isLoose = true) : (n.as k).Placed := by
  rw [placed_iff, start_as, stop_as, children_as]
  exact ⟨h.nonempty, regular_of_isLoose (by rwa [kind_as]), h.children⟩

/-- Declares nothing, and opens no scope. -/
structure Plain (n : Node) : Prop where
  closed : n.Closed
  plain : n.kind.opensScope = false

theorem Plain.children_closed (h : n.Plain) : ∀ c ∈ n.children, c.Closed := by
  have hclosed := closed_iff.1 h.closed
  rw [h.plain] at hclosed
  exact hclosed.elim nofun (·.2)

theorem plain_of_isPlain (hk : n.kind.isPlain = true) (h : ∀ c ∈ n.children, c.Closed) :
    n.Plain where
  closed := closed_iff.2 (.inr ⟨Kind.entered?_of_isLoose (Kind.isLoose_of_isPlain hk), h⟩)
  plain := Kind.opensScope_of_isPlain hk

theorem plain_mk {h : Head} (hk : h.kind.isPlain = true) (hcs : ∀ c ∈ cs, c.Closed) :
    (mk h cs).Plain := plain_of_isPlain hk hcs

@[simp] theorem placedIn_map_under : PlacedIn (cs.map (·.under f)) lo hi ↔ PlacedIn cs lo hi := by
  induction cs generalizing lo with
  | nil => rfl
  | cons c cs ih => simp [PlacedIn, ih]

/-- Where the last node of a list ends, or the byte the list would begin at. -/
def ending : List Node → Nat → Nat
  | [], lo => lo
  | c :: cs, _ => ending cs c.stop

@[simp] theorem ending_map_under : ending (cs.map (·.under f)) lo = ending cs lo := by
  induction cs generalizing lo with
  | nil => rfl
  | cons c cs ih => simp [ending, ih]

@[simp] theorem ending_append {c : Node} : ending (cs ++ [c]) lo = c.stop := by
  induction cs generalizing lo with
  | nil => rfl
  | cons d cs ih => exact ih

theorem placedIn_append_iff : PlacedIn (cs ++ ds) lo hi ↔
    PlacedIn cs lo hi ∧ PlacedIn ds (ending cs lo) hi := by
  induction cs generalizing lo with
  | nil => simp [PlacedIn, ending]
  | cons c cs ih => simp [PlacedIn, ending, ih, and_assoc]

end
end Node

namespace Reader
open Node

/-! ## States -/

/-- The tokens are not empty, and lie one after the other from the byte `lo` on. -/
def InOrder (lo : Nat) : List Token → Prop
  | [] => True
  | t :: ts => lo ≤ t.span.start ∧ t.span.start < t.span.stop ∧ InOrder t.span.stop ts

theorem InOrder.mono {lo lo' : Nat} {ts : List Token} (h : InOrder lo ts) (hlo : lo' ≤ lo) :
    InOrder lo' ts := by
  cases ts with
  | nil => trivial
  | cons t ts => exact ⟨Nat.le_trans hlo h.1, h.2⟩

namespace State

/-- What is left lies behind what was consumed. -/
def Ready (s : State) : Prop := InOrder s.last s.tokens

/-- Where the next token begins, or the last one ended when none is left. -/
def here (s : State) : Nat :=
  match s.tokens with
  | [] => s.last
  | t :: _ => t.span.start

/-- The second state is the same or comes later. -/
structure Before (s s' : State) : Prop where
  ready : s'.Ready
  last : s.last ≤ s'.last
  here : s.here ≤ s'.here

section
variable {s s' s'' : State}

theorem Ready.last_le_here (h : s.Ready) : s.last ≤ s.here := by
  unfold here
  unfold Ready at h
  split <;> simp_all [InOrder]

theorem Ready.before (h : s.Ready) : s.Before s := ⟨h, Nat.le_refl _, Nat.le_refl _⟩

theorem Before.trans (h : s.Before s') (h' : s'.Before s'') : s.Before s'' :=
  ⟨h'.ready, Nat.le_trans h.last h'.last, Nat.le_trans h.here h'.here⟩

end
end State

/-! ## Triples -/

/-- The nodes lie between two bytes, and between them is some text if `b`. -/
def Laid (b : Bool) (cs : List Node) (lo hi : Nat) : Prop :=
  (b = true → lo < hi) ∧ PlacedIn cs lo hi

/-- Started after the nodes `pre`, which begin at a byte `lo`, the reader goes on, and of what it
answers, of `lo` and of the end of what was read `post` holds. -/
def Reads {α : Type} (b : Bool) (pre : List Node) (r : Read α) (post : α → Nat → Nat → Prop) :
    Prop :=
  ∀ lo s a s', s.Ready → lo ≤ s.here → Laid b pre lo s.last → r.run s = some (a, s') →
    s.Before s' ∧ post a lo s'.last

/-- There are nodes that lie between the two bytes and of which `Q` holds. -/
def Gives {α : Type} (c : Bool) (Q : α → List Node → Prop) (a : α) (lo hi : Nat) : Prop :=
  ∃ cs, Laid c cs lo hi ∧ Q a cs

/-- The reader reads nodes of which, with its answer, `Q` holds; if `c`, it consumes a token. -/
def Yields {α : Type} (c : Bool) (r : Read α) (Q : α → List Node → Prop) : Prop :=
  Reads false [] r (Gives c Q)

def Peeks {α : Type} (r : Read α) : Prop := ∀ s a s', r.run s = some (a, s') → s' = s

/-- The answer is the one node that was read. -/
def One (P : Node → Prop) (n : Node) (cs : List Node) : Prop := cs = [n] ∧ P n

/-- The answer is the nodes that were read. -/
def All (P : Node → Prop) (ns cs : List Node) : Prop := cs = ns ∧ ∀ n ∈ ns, P n

section
variable {α β : Type} {b c d : Bool} {pre : List Node} {r r' : Read α} {k : α → Read β} {a : α}
  {post post' : α → Nat → Nat → Prop} {Q Q' : α → List Node → Prop} {then_ : β → Nat → Nat → Prop}

theorem Laid.weaken {cs : List Node} {lo hi : Nat} (h : Laid b cs lo hi)
    (hb : d = true → b = true) :
    Laid d cs lo hi := ⟨fun hd => h.1 (hb hd), h.2⟩

theorem run_bind_eq_some {s s'' : State} {b : β} (h : (r >>= k).run s = some (b, s'')) :
    ∃ a s', r.run s = some (a, s') ∧ (k a).run s' = some (b, s'') := by
  rw [StateT.run_bind] at h
  obtain ⟨⟨a, s'⟩, hr, hk⟩ := Option.bind_eq_some_iff.1 h
  exact ⟨a, s', hr, hk⟩

/-- A reader that runs with other flags takes what it takes, and the flags are as before. -/
theorem run_within_eq_some {breaks braces : Bool} {s s' : State}
    (h : (Reader.within breaks braces r).run s = some (a, s')) :
    ∃ t, r.run { s with breaks, braces } = some (a, t) ∧
      s' = { t with breaks := s.breaks, braces := s.braces } := by
  unfold Reader.within at h
  obtain ⟨_, _, hget, h⟩ := run_bind_eq_some h
  obtain ⟨rfl, rfl⟩ := Prod.mk.inj (Option.some.inj hget)
  obtain ⟨_, _, hset, h⟩ := run_bind_eq_some h
  obtain ⟨rfl, rfl⟩ := Prod.mk.inj (Option.some.inj hset)
  obtain ⟨x, t, hx, h⟩ := run_bind_eq_some h
  obtain ⟨_, _, hmodify, h⟩ := run_bind_eq_some h
  obtain ⟨rfl, rfl⟩ := Prod.mk.inj (Option.some.inj hmodify)
  obtain ⟨rfl, rfl⟩ := Prod.mk.inj (Option.some.inj h)
  exact ⟨t, hx, rfl⟩

theorem run_accept?_eq_some {p : Token → Bool} {t? : Option Token} {s s' : State}
    (h : (Reader.accept? p).run s = some (t?, s')) :
    t? = none ∧ s' = s ∨ ∃ t ts, t? = some t ∧ p t = true ∧ s.tokens = t :: ts ∧
      s' = { s with tokens := ts, last := t.span.stop } := by
  obtain ⟨_, _, hget, h⟩ := run_bind_eq_some h
  obtain ⟨rfl, rfl⟩ := Prod.mk.inj (Option.some.inj hget)
  obtain ⟨tokens, last, breaks, braces⟩ := s
  cases tokens with
  | nil =>
    obtain ⟨rfl, rfl⟩ := Prod.mk.inj (Option.some.inj h)
    exact .inl ⟨rfl, rfl⟩
  | cons t ts =>
    by_cases hp : p t = true
    · simp only [hp, if_true] at h
      obtain ⟨rfl, rfl⟩ := Prod.mk.inj (Option.some.inj h)
      exact .inr ⟨t, ts, rfl, hp, rfl, rfl⟩
    · simp only [hp] at h
      obtain ⟨rfl, rfl⟩ := Prod.mk.inj (Option.some.inj h)
      exact .inl ⟨rfl, rfl⟩

namespace Reads

theorem mono (h : Reads b pre r post) (hpost : ∀ a lo hi, post a lo hi → post' a lo hi) :
    Reads b pre r post' := by
  intro lo s a s' hs hlo hpre hrun
  obtain ⟨hbefore, ha⟩ := h lo s a s' hs hlo hpre hrun
  exact ⟨hbefore, hpost _ _ _ ha⟩

theorem weaken (h : Reads d pre r post) (hb : d = true → b = true) : Reads b pre r post :=
  fun lo s a s' hs hlo hpre => h lo s a s' hs hlo (hpre.weaken hb)

theorem pure (h : ∀ lo hi, Laid b pre lo hi → post a lo hi) : Reads b pre (pure a) post := by
  intro lo s a' s' hs _ hpre hrun
  obtain ⟨rfl, rfl⟩ := Prod.mk.inj (Option.some.inj hrun)
  exact ⟨hs.before, h lo s.last hpre⟩

theorem failure : Reads b pre (failure : Read α) post := fun _ _ _ _ _ _ _ hrun => nomatch hrun

theorem orElse (hr : Reads b pre r post) (hr' : Reads b pre r' post) :
    Reads b pre (r <|> r') post := by
  intro lo s a s' hs hlo hpre hrun
  have hrun : (r.run s <|> r'.run s) = some (a, s') := hrun
  cases hx : r.run s with
  | none =>
    rw [hx] at hrun
    exact hr' lo s a s' hs hlo hpre hrun
  | some x =>
    rw [hx] at hrun
    exact hr lo s a s' hs hlo hpre (hx.trans hrun)

theorem ite {p : Prop} [Decidable p] (hr : p → Reads b pre r post)
    (hr' : ¬ p → Reads b pre r' post) :
    Reads b pre (if p then r else r') post := by
  split
  · next hp => exact hr hp
  · next hp => exact hr' hp

theorem replace (pre' : List Node) (hpre : ∀ lo hi, PlacedIn pre lo hi → PlacedIn pre' lo hi)
    (h : Reads b pre' r post) : Reads b pre r post :=
  fun lo s a s' hs hlo hlaid => h lo s a s' hs hlo ⟨hlaid.1, hpre _ _ hlaid.2⟩

theorem let_pure (h : Reads b pre (k a) then_) : Reads b pre (Pure.pure a >>= k) then_ := by
  rwa [pure_bind]

theorem assume (h : (∀ c ∈ pre, c.Placed) → Reads b pre r post) : Reads b pre r post :=
  fun lo s a s' hs hlo hpre => h (fun _ hc => (hpre.2.place hc).2.2) lo s a s' hs hlo hpre

/-- Read on from the nodes that a first reader has left. -/
theorem bind (hr : Reads b pre r (Gives c Q)) (hk : ∀ a cs, Q a cs → Reads c cs (k a) then_) :
    Reads b pre (r >>= k) then_ := by
  intro lo s a s'' hs hlo hpre hrun
  obtain ⟨x, s', hx, hrun⟩ := run_bind_eq_some hrun
  obtain ⟨hbefore, cs, hcs, hq⟩ := hr lo s x s' hs hlo hpre hx
  obtain ⟨hbefore', ha⟩ :=
    hk x cs hq lo s' a s'' hbefore.ready (Nat.le_trans hlo hbefore.here) hcs hrun
  exact ⟨hbefore.trans hbefore', ha⟩

theorem take {nodes : α → List Node} {P : α → Prop}
    (hr : Reads b pre r (Gives c fun a cs => cs = nodes a ∧ P a))
    (hk : ∀ a, P a → Reads c (nodes a) (k a) then_) : Reads b pre (r >>= k) then_ :=
  hr.bind fun a _ hq => hq.1 ▸ hk a hq.2

theorem peeks (hr : Peeks r) (hk : ∀ a, Reads b pre (k a) then_) : Reads b pre (r >>= k) then_ := by
  intro lo s a s' hs hlo hpre hrun
  obtain ⟨x, s₁, hx, hrun⟩ := run_bind_eq_some hrun
  exact hk x lo s a s' hs hlo hpre (hr s x s₁ hx ▸ hrun)

theorem get {f : State → α} (h : ∀ s lo, Laid b pre lo s.last → post (f s) lo s.last) :
    Reads b pre (get >>= fun s => Pure.pure (f s)) post := by
  intro lo s a s' hs _ hpre hrun
  obtain ⟨rfl, rfl⟩ := Prod.mk.inj (Option.some.inj hrun)
  exact ⟨hs.before, h s lo hpre⟩

theorem get_bind {f : State → α} {g : α → β}
    (h : ∀ s lo, Laid b pre lo s.last → then_ (g (f s)) lo s.last) :
    Reads b pre ((MonadState.get >>= fun s => Pure.pure (f s)) >>= fun a => Pure.pure (g a))
      then_ := by
  rw [bind_assoc]
  exact .get h

theorem get_ite {p : Prop} [Decidable p] {x y : State → Read α}
    (hx : p → Reads b pre (MonadState.get >>= x) post)
    (hy : ¬ p → Reads b pre (MonadState.get >>= y) post) :
    Reads b pre (MonadState.get >>= fun s => if p then x s else y s) post := by
  by_cases hp : p
  · simpa only [if_pos hp] using hx hp
  · simpa only [if_neg hp] using hy hp

theorem within {breaks braces : Bool} (h : Reads b pre r post) :
    Reads b pre (within breaks braces r) post := by
  intro lo s a s' hs hlo hpre hrun
  obtain ⟨t, hx, rfl⟩ := run_within_eq_some hrun
  obtain ⟨⟨hready, hlast, hhere⟩, ha⟩ := h lo { s with breaks, braces } a t hs hlo hpre hx
  exact ⟨⟨hready, hlast, hhere⟩, ha⟩

end Reads

namespace Yields

theorem mono (h : Yields c r Q) (hQ : ∀ a cs, Q a cs → Q' a cs) : Yields c r Q' :=
  Reads.mono h fun a _ _ ⟨cs, hcs, hq⟩ => ⟨cs, hcs, hQ a cs hq⟩

theorem behind (h : Yields c r Q) :
    Reads b pre r (Gives (b || c) fun a cs => ∃ ds, cs = pre ++ ds ∧ Q a ds) := by
  intro lo s a s' hs hlo hpre hrun
  obtain ⟨hbefore, ds, hds, hq⟩ := h s.here s a s' hs (Nat.le_refl _) ⟨nofun, trivial⟩ hrun
  have := hs.last_le_here
  have := hbefore.last
  refine ⟨hbefore, pre ++ ds, ⟨fun hbc => ?_, ?_⟩, ds, rfl, hq⟩
  · rcases Bool.or_eq_true_iff.1 hbc with hb | hc
    · exact Nat.lt_of_lt_of_le (hpre.1 hb) hbefore.last
    · exact Nat.lt_of_le_of_lt hlo (hds.1 hc)
  · exact placedIn_append hpre.2 hds.2 hlo (by omega) hbefore.last

theorem reads (h : Yields c r Q) : Reads b [] r (Gives (b || c) Q) :=
  h.behind.mono fun _ _ _ ⟨cs, hcs, ds, heq, hq⟩ => ⟨cs, hcs, (show cs = ds from heq) ▸ hq⟩

/-- Put what the reader yields behind what was read so far. -/
theorem bind (hr : Yields c r Q)
    (hk : ∀ a cs, Q a cs → Reads (b || c) (pre ++ cs) (k a) then_) : Reads b pre (r >>= k) then_ :=
  Reads.bind hr.behind fun a _ ⟨cs, heq, hq⟩ => heq ▸ hk a cs hq

theorem take {nodes : α → List Node} {P : α → Prop}
    (hr : Yields c r fun a cs => cs = nodes a ∧ P a)
    (hk : ∀ a, P a → Reads (b || c) (pre ++ nodes a) (k a) then_) : Reads b pre (r >>= k) then_ :=
  hr.bind fun a _ hq => hq.1 ▸ hk a hq.2

end Yields
end

/-! ## Elementary readers -/

section
variable {α β : Type} {b c : Bool} {pre : List Node} {r : Read α} {w : String}
  {post : α → Nat → Nat → Prop} {p : Token → Bool} {s s' : State} {t : Token}

namespace Peeks

theorem pure (a : α) : Peeks (pure a : Read α) := fun _ _ _ h =>
  (Prod.mk.inj (Option.some.inj h)).2.symm

theorem bind {k : α → Read β} (hr : Peeks r) (hk : ∀ a, Peeks (k a)) : Peeks (r >>= k) := by
  intro s b s'' hrun
  obtain ⟨a, s', hx, hrest⟩ := run_bind_eq_some hrun
  obtain rfl := hr s a s' hx
  exact hk a s' b s'' hrest

theorem get : Peeks (MonadState.get : Read State) := fun _ _ _ h =>
  (Prod.mk.inj (Option.some.inj h)).2.symm

end Peeks

theorem peeks_peek : Peeks peek := .bind .get fun _ => .pure _

theorem peeks_peekSecond : Peeks peekSecond := .bind .get fun _ => .pure _

theorem peeks_nextIs : Peeks (nextIs w) := .bind peeks_peek fun _ => .pure _

theorem peeks_broken : Peeks broken := .bind .get fun _ => .pure _

theorem peeks_continues : Peeks (continues w) := by
  refine .bind peeks_broken fun broken => ?_
  cases broken with
  | true => exact .pure false
  | false => exact peeks_nextIs

theorem peeks_ended : Peeks ended := by
  refine .bind peeks_broken fun broken => ?_
  cases broken with
  | true => exact .pure true
  | false => exact .bind peeks_nextIs fun _ => .bind peeks_nextIs fun _ => .pure _

theorem accept?_some (hs : s.Ready) (h : (accept? p).run s = some (some t, s')) :
    s.Before s' ∧ s.here = t.span.start ∧ t.span.start < t.span.stop ∧ s'.last = t.span.stop := by
  obtain ⟨ht, -⟩ | ⟨_, ts, ht, -, htokens, rfl⟩ := run_accept?_eq_some h
  · exact absurd ht nofun
  · obtain rfl := Option.some.inj ht
    obtain ⟨tokens, last, breaks, braces⟩ := s
    obtain rfl : tokens = t :: ts := htokens
    obtain ⟨hlast, hlt, hrest⟩ := hs
    have hready : State.Ready ⟨ts, t.span.stop, breaks, braces⟩ := hrest
    have hhere := hready.last_le_here
    exact ⟨⟨hready, Nat.le_trans hlast (Nat.le_of_lt hlt),
      Nat.le_trans (Nat.le_of_lt hlt) hhere⟩, rfl, hlt, rfl⟩

theorem accept?_none (h : (accept? p).run s = some (none, s')) : s' = s := by
  obtain ⟨-, rfl⟩ | ⟨t, ts, ht, -⟩ := run_accept?_eq_some h
  · rfl
  · exact absurd ht nofun

theorem Reads.accept? {k : Option Token → Read α} (hsome : ∀ t, Reads true pre (k (some t)) post)
    (hnone : Reads b pre (k none) post) : Reads b pre (Reader.accept? p >>= k) post := by
  intro lo s a s'' hs hlo hpre hrun
  obtain ⟨t?, s', ht, hrest⟩ := run_bind_eq_some hrun
  cases t? with
  | none =>
    obtain rfl := accept?_none ht
    exact hnone lo s' a s'' hs hlo hpre hrest
  | some t =>
    obtain ⟨hbefore, hhere, hlt, hlast⟩ := accept?_some hs ht
    obtain ⟨hbefore', ha⟩ := hsome t lo s' a s'' hbefore.ready (Nat.le_trans hlo hbefore.here)
      ⟨fun _ => by omega, hpre.2.mono (Nat.le_refl _) hbefore.last⟩ hrest
    exact ⟨hbefore.trans hbefore', ha⟩

theorem Reads.skip {k : Bool → Read α} (htrue : Reads true pre (k true) post)
    (hfalse : Reads b pre (k false) post) : Reads b pre (skip? w >>= k) post := by
  rw [skip?, bind_assoc]
  refine .accept? (fun t => ?_) ?_
  · rw [pure_bind]
    exact htrue
  · rw [pure_bind]
    exact hfalse

/-- What follows a token that may be there makes no difference. -/
theorem Reads.discardSkip {k : PUnit → Read α} (htrue : Reads true pre (k ⟨⟩) post)
    (hfalse : Reads b pre (k ⟨⟩) post) : Reads b pre (discard (skip? w) >>= k) post := by
  have hdiscard : discard (skip? w) = skip? w >>= fun _ => Pure.pure ⟨⟩ := rfl
  rw [hdiscard, bind_assoc]
  exact .skip htrue hfalse

theorem Reads.require {k : Token → Read α} (h : ∀ t, Reads true pre (k t) post) :
    Reads b pre (Reader.require p >>= k) post := by
  rw [Reader.require, bind_assoc]
  refine .accept? (fun t => ?_) ?_
  · rw [pure_bind]
    exact h t
  · exact fun _ _ _ _ _ _ _ hrun => nomatch hrun

theorem Reads.expect {k : Unit → Read α} (h : Reads true pre (k ()) post) :
    Reads b pre (Reader.expect w >>= k) post := by
  have hexpect : Reader.expect w = Reader.require (·.is w) >>= fun _ => Pure.pure () := rfl
  rw [hexpect, bind_assoc]
  exact .require fun _ => h

end

/-! ## Nodes -/

section
variable {α : Type} {b c : Bool} {pre cs rest : List Node} {first n : Node} {kind : Kind}
  {lo hi : Nat} {P : Node → Prop} {Q : α → List Node → Prop}

theorem gives_all {ns : List Node} (h : Laid b pre lo hi) (hb : c = true → b = true)
    (hplaced : PlacedIn pre lo hi → PlacedIn ns lo hi) (hP : ∀ n ∈ ns, P n) :
    Gives c (All P) ns lo hi :=
  ⟨ns, ⟨fun hc => h.1 (hb hc), hplaced h.2⟩, rfl, hP⟩

theorem gives_one (hstart : n.start = lo) (hstop : n.stop = hi) (h : Laid true n.children lo hi)
    (hregular : n.Regular) (hP : P n) : Gives c (One P) n lo hi := by
  subst hstart hstop
  have hlt := h.1 rfl
  exact ⟨[n], ⟨fun _ => hlt, Nat.le_refl _, placed_iff.2 ⟨hlt, hregular, h.2⟩, Nat.le_refl _,
    trivial⟩, rfl, hP⟩

theorem gives_mk {h : Head} (hk : h.kind.isPlain = true) (hstart : h.span.start = lo)
    (hstop : h.span.stop = hi) (hlaid : Laid true cs lo hi) (hcs : ∀ c ∈ cs, c.Closed) :
    Gives c (One Plain) (mk h cs) lo hi :=
  gives_one hstart hstop hlaid (regular_of_isLoose (Kind.isLoose_of_isPlain hk)) (plain_mk hk hcs)

theorem Yields.peek {k : Option Token → Read α}
    (hsome : ∀ t, Reads false [] (k (some t)) fun a lo hi => t.span.start = lo → Gives c Q a lo hi)
    (hnone : Yields c (k none) Q) : Yields c (Reader.peek >>= k) Q := by
  intro lo s a s' hs hlo hpre hrun
  obtain ⟨t?, s₁, ht, hrest⟩ := run_bind_eq_some hrun
  obtain rfl : s₁ = s := peeks_peek s t? s₁ ht
  obtain rfl : t? = s₁.tokens.head? := (Prod.mk.inj (Option.some.inj ht)).1.symm
  cases htokens : s₁.tokens with
  | nil =>
    rw [htokens] at hrest
    exact hnone lo s₁ a s' hs hlo hpre hrest
  | cons t ts =>
    have hhere : s₁.here = t.span.start := by rw [State.here, htokens]
    rw [htokens] at hrest
    obtain ⟨hbefore, hgives⟩ :=
      hsome t s₁.here s₁ a s' hs (Nat.le_refl _) ⟨nofun, trivial⟩ hrest
    obtain ⟨cs, ⟨hlt, hcs⟩, hq⟩ := hgives hhere.symm
    exact ⟨hbefore, cs,
      ⟨fun hc => Nat.lt_of_le_of_lt hlo (hlt hc), hcs.mono hlo (Nat.le_refl _)⟩, hq⟩

theorem yields_node_of {r : Read (List Node)} {P : List Node → Prop}
    (h : Yields true r fun ns cs => cs = ns ∧ P ns)
    (hregular : ∀ n : Node, n.kind = kind → P n.children → n.Regular) :
    Yields true (node kind r) (One fun n => n.kind = kind ∧ P n.children) := by
  refine .peek (fun t => ?_) .failure
  intro lo s a s' hs hlo hpre hrun
  obtain ⟨children, s₁, hread, hrest⟩ := run_bind_eq_some hrun
  obtain ⟨hbefore, _, hlaid, rfl, hP⟩ := h lo s children s₁ hs hlo hpre hread
  obtain ⟨rfl, rfl⟩ := Prod.mk.inj (Option.some.inj hrest)
  exact ⟨hbefore, fun hstart => gives_one hstart rfl hlaid (hregular _ rfl hP) ⟨rfl, hP⟩⟩

/-- The node made of what was read, of a kind that declares nothing. -/
theorem yields_node {r : Read (List Node)} (hkind : kind.isLoose = true)
    (h : Yields true r (All P)) :
    Yields true (node kind r) (One fun n => n.kind = kind ∧ ∀ c ∈ n.children, P c) :=
  yields_node_of (P := fun ns => ∀ n ∈ ns, P n) h fun _ hn _ => regular_of_isLoose (hn ▸ hkind)

theorem yields_plain {r : Read (List Node)} (hkind : kind.isPlain = true)
    (h : Yields true r (All Closed)) : Yields true (node kind r) (One Plain) :=
  (yields_node (Kind.isLoose_of_isPlain hkind) h).mono fun _ _ ⟨hcs, hn, hclosed⟩ =>
    ⟨hcs, plain_of_isPlain (hn ▸ hkind) hclosed⟩

theorem yields_leaf_of {p : Token → Bool} (hkind : kind.entered? = none)
    (hP : ∀ t : Token, P (.mk { kind, span := t.span, text := t.text } [])) :
    Yields true (leaf kind p) (One P) := by
  intro lo s a s' hs hlo _ hrun
  unfold leaf Reader.require at hrun
  rw [bind_assoc] at hrun
  obtain ⟨t?, s₁, ht, hrest⟩ := run_bind_eq_some hrun
  cases t? with
  | none => exact nomatch hrest
  | some t =>
    obtain ⟨hbefore, hhere, hlt, hlast⟩ := accept?_some hs ht
    obtain ⟨rfl, rfl⟩ := Prod.mk.inj (Option.some.inj hrest)
    refine ⟨hbefore, ?_⟩
    have hgives : Gives true (One P) (.mk { kind, span := t.span, text := t.text } [])
        t.span.start t.span.stop :=
      gives_one rfl rfl ⟨fun _ => hlt, trivial⟩ (regular_of_childless hkind rfl) (hP t)
    obtain ⟨cs, ⟨hlt', hcs⟩, hone⟩ := hgives
    exact ⟨cs, ⟨fun _ => by omega, hcs.mono (by omega) (by omega)⟩, hone⟩

theorem yields_leaf {p : Token → Bool} (hkind : kind.entered? = none)
    (hscope : kind.opensScope = false) : Yields true (leaf kind p) (One Plain) :=
  yields_leaf_of hkind fun _ => ⟨closed_iff.2 (.inr ⟨hkind, nofun⟩), hscope⟩

theorem Reads.nodeFrom_of {children : List Node}
    (hfirst : pre.head?.map Node.start = some first.start)
    (h : ∀ lo hi, PlacedIn pre lo hi → PlacedIn children lo hi)
    (hregular : ∀ n : Node, n.kind = kind → n.children = children → n.Regular)
    (hP : ∀ n : Node, n.kind = kind → n.children = children → P n) :
    Reads b pre (nodeFrom first kind children) (Gives true (One P)) := by
  obtain ⟨c, hc, hstart⟩ := Option.map_eq_some_iff.1 hfirst
  obtain ⟨rest, rfl⟩ := List.head?_eq_some_iff.1 hc
  refine .get fun s lo hlaid => ?_
  obtain ⟨hlo, hplaced, hhi, hrest⟩ := hlaid.2
  have hlt := hplaced.nonempty
  have hchildren := h c.start s.last ⟨Nat.le_refl _, hplaced, hhi, hrest⟩
  obtain ⟨cs, ⟨hlt', hcs⟩, hone⟩ := gives_one (P := P) (c := true)
    (n := .mk { kind, span := { first.span with stop := s.last } } children) hstart.symm rfl
    ⟨fun _ => Nat.lt_of_lt_of_le hlt hhi, hchildren⟩ (hregular _ rfl rfl) (hP _ rfl rfl)
  exact ⟨cs, ⟨fun h => Nat.lt_of_le_of_lt hlo (hlt' h), hcs.mono hlo (Nat.le_refl _)⟩, hone⟩

theorem Reads.nodeFrom {children : List Node} (hkind : kind.isPlain = true)
    (hfirst : pre.head?.map Node.start = some first.start)
    (h : ∀ lo hi, PlacedIn pre lo hi → PlacedIn children lo hi)
    (hclosed : ∀ c ∈ children, c.Closed) :
    Reads b pre (nodeFrom first kind children) (Gives true (One Plain)) :=
  .nodeFrom_of hfirst h (fun _ hn _ => regular_of_isLoose (hn ▸ Kind.isLoose_of_isPlain hkind))
    fun _ hn hchildren => plain_of_isPlain (hn ▸ hkind) (hchildren ▸ hclosed)

end

/-! ## Lists -/

section
variable {α : Type} {c : Bool} {r : Read α} {nodes : α → List Node} {P : α → Prop} {fuel : Nat}

def Made (nodes : α → List Node) (P : α → Prop) (a : α) (cs : List Node) : Prop :=
  cs = nodes a ∧ P a

/-- The answers were read from these nodes, one after the other. -/
def MadeAll (nodes : α → List Node) (P : α → Prop) (as : List α) (cs : List Node) : Prop :=
  cs = as.flatMap nodes ∧ ∀ a ∈ as, P a

def NoNodes {α : Type} (_ : α) (cs : List Node) : Prop := cs = []

theorem Yields.all {r : Read (List Node)} {P : Node → Prop}
    (h : Yields c r (MadeAll (fun n => [n]) P)) : Yields c r (All P) :=
  h.mono fun _ _ ⟨hcs, hP⟩ => ⟨by simpa using hcs, hP⟩

theorem yields_peeks (h : Peeks r) : Yields false r NoNodes := by
  rw [← bind_pure r]
  exact .peeks h fun _ => .pure fun _ _ h => ⟨[], h, rfl⟩

theorem yields_skip {w : String} : Yields false (skip? w) NoNodes := by
  rw [← bind_pure (skip? w)]
  exact .skip (.pure fun _ _ h => ⟨[], h.weaken nofun, rfl⟩) (.pure fun _ _ h => ⟨[], h, rfl⟩)

theorem yields_many {more : Read Bool} (hmore : Yields false more NoNodes)
    (hr : Yields c r (Made nodes P)) : Yields false (many more r fuel) (MadeAll nodes P) := by
  induction fuel with
  | zero => exact .failure
  | succ fuel ih =>
    rw [many]
    refine hmore.bind fun more cs hcs => ?_
    obtain rfl : cs = [] := hcs
    refine .ite (fun _ => ?_) fun _ => .pure fun lo hi h => ⟨[], h, rfl, nofun⟩
    exact hr.take fun a ha => ih.take fun as has => .pure fun lo hi h =>
      ⟨_, h.weaken nofun, rfl, List.forall_mem_cons.2 ⟨ha, has⟩⟩

theorem yields_sepBy {sep : String} (hr : Yields c r (Made nodes P)) :
    Yields c (sepBy fuel sep r) (MadeAll nodes P) := by
  refine hr.take fun a ha => (yields_many ?_ hr).take fun as has => .pure fun lo hi h =>
    ⟨_, h.weaken (by simp), rfl, List.forall_mem_cons.2 ⟨ha, has⟩⟩
  exact .peeks peeks_continues fun _ => .ite (fun _ => yields_skip)
    fun _ => .pure fun _ _ h => ⟨[], h, rfl⟩

theorem yields_listUntil {close : String} (hr : Yields c r (Made nodes P)) :
    Yields false (listUntil fuel close r) (MadeAll nodes P) := by
  refine yields_many (c := c) (yields_peeks (.bind peeks_nextIs fun _ => .pure _))
    (hr.bind fun a cs ha => ?_)
  have hdone {b : Bool} (hb : c = true → b = true) :
      Reads b ([] ++ cs) (pure a) (Gives c (Made nodes P)) :=
    .pure fun _ _ h => ⟨cs, h.weaken hb, ha⟩
  refine .skip (.peeks peeks_nextIs fun _ => .ite nofun fun _ => hdone fun _ => rfl) ?_
  exact .peeks peeks_nextIs fun _ => .ite (fun _ => .failure) fun _ => hdone (by simp)

theorem yields_lines {close : List String} (hr : Yields c r (Made nodes P)) :
    Yields false (lines fuel close r) (MadeAll nodes P) := by
  have hclosed {f : Option Token → Read Bool} (h : ∀ t?, Peeks (f t?)) : Peeks (peek >>= f) :=
    .bind peeks_peek h
  refine yields_many (c := c) (yields_peeks (.bind (hclosed fun t? => ?_) fun _ => .pure _))
    (hr.bind fun a cs ha => ?_)
  · cases t? <;> exact .pure _
  have hdone {b : Bool} (hb : c = true → b = true) :
      Reads b ([] ++ cs) (pure a) (Gives c (Made nodes P)) :=
    .pure fun _ _ h => ⟨cs, h.weaken hb, ha⟩
  refine .peeks peeks_broken fun _ => .ite (fun _ => hdone (by simp)) fun _ => ?_
  refine .skip (hdone fun _ => rfl) ?_
  refine .peeks (hclosed fun t? => ?_) fun _ => .ite (fun _ => hdone (by simp)) fun _ => .failure
  cases t? <;> exact .pure _

end
end Reader
end RouteCheck
