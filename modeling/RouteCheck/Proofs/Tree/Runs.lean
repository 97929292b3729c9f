import RouteCheck.Proofs.Tree.Legible

/-!
What readers take.

A reader takes a run of tokens from the front. Brackets match in what the readers of the grammar take,
and the node that is made of it covers it from its first token to its last. `Takes` is a triple for
readers that tells the tokens taken: started inside of some brackets, after the tokens `pre`, a reader
goes on to the end of a run that leads to another depth, and of the tokens taken and of the answer
holds what is said. `Gets` is the triple of a reader on its own.

Main statements:
  1. `Takes.bind`, `Takes.take`, `Takes.expect`, `Takes.within`: the rules of the triple.
  2. `gets_node`, `takes_nodeFrom`, `gets_leaf`: the nodes that are made of what was taken.
  3. `gets_many`, `gets_sepBy`, `gets_listUntil`, `gets_lines`: lists of what was taken.
-/

namespace RouteCheck.Reader
open Node Token

/-! ## The triple -/

/-- Started inside of `b` brackets, after the tokens `pre` of `ts`, the reader takes tokens up to the
depth `e`, and of all that were taken and of what it answers `P` holds. -/
def Takes {α : Type} (ts : List Token) (b e : Nat) (pre : List Token) (r : Read α)
    (P : List Token → α → Prop) : Prop :=
  (∀ t ∈ ts, t.Plain) → ∀ s a s', pre ++ s.tokens <:+ ts → (∃ l, s.last = lastStop l pre) →
    r.run s = some (a, s') → ∃ used, s.tokens = used ++ s'.tokens ∧ depth b used = some e ∧
      s'.last = lastStop s.last used ∧ P (pre ++ used) a

/-- What a reader takes on its own. -/
def Gets {α : Type} (ts : List Token) (r : Read α) (P : List Token → α → Prop) : Prop :=
  Takes ts 0 0 [] r P

def Whole (ts : List Token) (used : List Token) (n : Node) : Prop :=
  Covers used n.span ∧ n.Legible ts

def Parts (ts : List Token) (used : List Token) (ns : List Node) : Prop :=
  used ≠ [] ∧ AllLegible ts ns

def isPlainMark (w : String) : Bool := w != "[" && w != "]"

section
variable {α β : Type} {ts pre : List Token} {b c e : Nat} {r r' : Read α} {k : α → Read β} {a : α}
  {w : String} {P P' : List Token → α → Prop} {Q : List Token → β → Prop} {p : Token → Bool}
  {t : Token}

theorem deepen_of_is {d : Nat} (hw : isPlainMark w = true) (h : t.is w = true) :
    deepen d t = some d := by
  obtain ⟨hopen, hclose⟩ := Bool.and_eq_true_iff.1 hw
  have htext := text_of_is h
  exact deepen_of_text ⟨by simpa [htext] using hopen, by simpa [htext] using hclose⟩

theorem deepen_of_isIdentifier {d : Nat} (ht : t.Plain) (h : t.isIdentifier = true) :
    deepen d t = some d :=
  deepen_of_text (ht (by simpa using (Bool.and_eq_true_iff.1 h).1))

namespace Takes

theorem mono (h : Takes ts b e pre r P) (hP : ∀ used a, P used a → P' used a) :
    Takes ts b e pre r P' := by
  intro hts s a s' hs hlast hrun
  obtain ⟨used, hused, hdepth, hstop, ha⟩ := h hts s a s' hs hlast hrun
  exact ⟨used, hused, hdepth, hstop, hP _ a ha⟩

theorem pure (h : pre <:+: ts → P pre a) : Takes ts b b pre (pure a) P := by
  intro _ s a' s' hs _ hrun
  obtain ⟨rfl, rfl⟩ := Prod.mk.inj (Option.some.inj hrun)
  refine ⟨[], rfl, rfl, rfl, ?_⟩
  rw [List.append_nil]
  exact h ((List.prefix_append pre s.tokens).isInfix.trans hs.isInfix)

theorem failure : Takes ts b e pre (failure : Read α) P := fun _ _ _ _ _ _ hrun => nomatch hrun

theorem bind (hr : Takes ts b c pre r P)
    (hk : ∀ a used, P used a → Takes ts c e used (k a) Q) : Takes ts b e pre (r >>= k) Q := by
  intro hts s x s'' hs ⟨l, hl⟩ hrun
  obtain ⟨a, s', ha, hrest⟩ := run_bind_eq_some hrun
  obtain ⟨used, hused, hdepth, hlast, hP⟩ := hr hts s a s' hs ⟨l, hl⟩ ha
  have hs' : (pre ++ used) ++ s'.tokens <:+ ts := by rwa [List.append_assoc, ← hused]
  have hlast' : s'.last = lastStop l (pre ++ used) := by rw [lastStop_append, ← hl, hlast]
  obtain ⟨more, hmore, hdepth', hstop, hQ⟩ := hk a _ hP hts s' x s'' hs' ⟨l, hlast'⟩ hrest
  refine ⟨used ++ more, by rw [hused, hmore, List.append_assoc], ?_, ?_, ?_⟩
  · rwa [depth_append hdepth]
  · rw [lastStop_append, ← hlast, hstop]
  · rwa [← List.append_assoc]

theorem orElse (hr : Takes ts b e pre r P) (hr' : Takes ts b e pre r' P) :
    Takes ts b e pre (r <|> r') P := by
  intro hts s a s' hs hlast hrun
  have hrun : (r.run s <|> r'.run s) = some (a, s') := hrun
  cases hx : r.run s with
  | none =>
    rw [hx] at hrun
    exact hr' hts s a s' hs hlast hrun
  | some x =>
    rw [hx] at hrun
    exact hr hts s a s' hs hlast (hx.trans hrun)

theorem ite {q : Prop} [Decidable q] (hr : q → Takes ts b e pre r P)
    (hr' : ¬ q → Takes ts b e pre r' P) : Takes ts b e pre (if q then r else r') P := by
  split
  · next hq => exact hr hq
  · next hq => exact hr' hq

theorem let_pure (h : Takes ts b e pre (k a) Q) : Takes ts b e pre (Pure.pure a >>= k) Q := by
  rwa [pure_bind]

theorem peeks (hr : Peeks r) (hk : ∀ a, Takes ts b e pre (k a) Q) :
    Takes ts b e pre (r >>= k) Q := by
  intro hts s x s' hs hlast hrun
  obtain ⟨a, s₁, ha, hrest⟩ := run_bind_eq_some hrun
  obtain rfl := hr s a s₁ ha
  exact hk a hts s₁ x s' hs hlast hrest

theorem get {k : State → Read α} (h : ∀ s l, s.last = lastStop l pre → Takes ts b e pre (k s) P) :
    Takes ts b e pre (MonadState.get >>= k) P := by
  intro hts s a s' hs ⟨l, hl⟩ hrun
  obtain ⟨_, _, hget, hrest⟩ := run_bind_eq_some hrun
  obtain ⟨rfl, rfl⟩ := Prod.mk.inj (Option.some.inj hget)
  exact h s l hl hts s a s' hs ⟨l, hl⟩ hrest

theorem within {breaks braces : Bool} (h : Takes ts b e pre r P) :
    Takes ts b e pre (within breaks braces r) P := by
  intro hts s a s' hs hlast hrun
  obtain ⟨t, hx, rfl⟩ := run_within_eq_some hrun
  exact h hts { s with breaks, braces } a t hs hlast hx

/-- A reader that is started inside of brackets, after other tokens, takes what it takes on its own. -/
theorem take (hr : Gets ts r P) (hk : ∀ a u, P u a → Takes ts b e (pre ++ u) (k a) Q) :
    Takes ts b e pre (r >>= k) Q := by
  refine bind (P := fun used a => ∃ u, used = pre ++ u ∧ P u a) ?_ fun a _ ⟨u, hused, ha⟩ =>
    hused ▸ hk a u ha
  intro hts s a s' hs _ hrun
  have hs' : [] ++ s.tokens <:+ ts := (List.suffix_append pre s.tokens).trans hs
  obtain ⟨used, hused, hdepth, hstop, ha⟩ := hr hts s a s' hs' ⟨s.last, rfl⟩ hrun
  exact ⟨used, hused, by simpa using depth_add (k := b) hdepth, hstop, used, rfl, ha⟩

end Takes

theorem Takes.grows (h : Takes ts b e pre r P) :
    Takes ts b e pre r fun used a => (∃ u, used = pre ++ u) ∧ P used a := by
  intro hts s a s' hs hlast hrun
  obtain ⟨used, hused, hdepth, hstop, ha⟩ := h hts s a s' hs hlast hrun
  exact ⟨used, hused, hdepth, hstop, ⟨used, rfl⟩, ha⟩

theorem Gets.after (hr : Gets ts r P) (h : ∀ u a, P u a → P' (pre ++ u) a) :
    Takes ts b b pre r P' := by
  rw [← bind_pure r]
  exact .take hr fun a u ha => .pure fun _ => h u a ha

theorem Gets.balanced (h : Gets ts r P) : Gets ts r fun used a => Balanced used ∧ P used a := by
  intro hts s a s' hs hlast hrun
  obtain ⟨used, hused, hdepth, hstop, ha⟩ := h hts s a s' hs hlast hrun
  exact ⟨used, hused, hdepth, hstop, hdepth, ha⟩

/-! ## Elementary readers -/

theorem Takes.accept? {k : Option Token → Read α}
    (hp : ∀ t : Token, t.Plain → p t = true → deepen b t = some c)
    (hsome : ∀ t ∈ ts, p t = true → Takes ts c e (pre ++ [t]) (k (some t)) P)
    (hnone : Takes ts b e pre (k none) P) : Takes ts b e pre (Reader.accept? p >>= k) P := by
  intro hts s a s'' hs ⟨l, hl⟩ hrun
  obtain ⟨t?, s', ht, hrest⟩ := run_bind_eq_some hrun
  obtain ⟨rfl, rfl⟩ | ⟨t, rest, rfl, hpt, htokens, rfl⟩ := run_accept?_eq_some ht
  · exact hnone hts s' a s'' hs ⟨l, hl⟩ hrest
  · rw [htokens] at hs ⊢
    have hs : pre ++ [t] ++ rest <:+ ts := by simpa using hs
    have hmem : t ∈ ts := hs.subset (by simp)
    have hlast : t.span.stop = lastStop l (pre ++ [t]) := by simp [lastStop]
    obtain ⟨used, hused, hdepth, hstop, ha⟩ :=
      hsome t hmem hpt hts _ a s'' hs ⟨l, hlast⟩ hrest
    refine ⟨t :: used, congrArg (t :: ·) hused, ?_, ?_, by simpa using ha⟩
    · rw [depth_cons, hp t (hts t hmem) hpt]
      exact hdepth
    · exact hstop.trans lastStop_cons.symm

theorem Takes.require {k : Token → Read α}
    (hp : ∀ t : Token, t.Plain → p t = true → deepen b t = some c)
    (h : ∀ t ∈ ts, p t = true → Takes ts c e (pre ++ [t]) (k t) P) :
    Takes ts b e pre (Reader.require p >>= k) P := by
  rw [Reader.require, bind_assoc]
  exact .accept? hp (fun t ht hpt => by rw [pure_bind]; exact h t ht hpt) .failure

theorem Takes.expect_of {k : Unit → Read α}
    (hw : ∀ t : Token, t.is w = true → deepen b t = some c)
    (h : ∀ t, t.is w = true → Takes ts c e (pre ++ [t]) (k ()) P) :
    Takes ts b e pre (Reader.expect w >>= k) P := by
  have hexpect : Reader.expect w = Reader.require (·.is w) >>= fun _ => Pure.pure () := rfl
  rw [hexpect, bind_assoc]
  exact .require (fun t _ => hw t) fun t _ => h t

/-- A mark that is no bracket. -/
theorem Takes.expect {k : Unit → Read α} (hw : isPlainMark w = true)
    (h : ∀ t, Takes ts b e (pre ++ [t]) (k ()) P) : Takes ts b e pre (Reader.expect w >>= k) P :=
  .expect_of (fun _ => deepen_of_is hw) fun t _ => h t

theorem Takes.open {k : Unit → Read α} (h : ∀ t, Takes ts (b + 1) e (pre ++ [t]) (k ()) P) :
    Takes ts b e pre (Reader.expect "[" >>= k) P :=
  .expect_of (fun _ => deepen_open) fun t _ => h t

theorem Takes.close {k : Unit → Read α}
    (h : ∀ t, t.is "]" = true → Takes ts b e (pre ++ [t]) (k ()) P) :
    Takes ts (b + 1) e pre (Reader.expect "]" >>= k) P :=
  .expect_of (fun _ => deepen_close) h

theorem Takes.skip_of {k : Bool → Read α}
    (hw : ∀ t : Token, t.is w = true → deepen b t = some c)
    (htrue : ∀ t, Takes ts c e (pre ++ [t]) (k true) P) (hfalse : Takes ts b e pre (k false) P) :
    Takes ts b e pre (skip? w >>= k) P := by
  rw [skip?, bind_assoc]
  exact .accept? (fun t _ => hw t) (fun t _ _ => .let_pure (htrue t)) (.let_pure hfalse)

theorem Takes.skip {k : Bool → Read α} (hw : isPlainMark w = true)
    (htrue : ∀ t, Takes ts b e (pre ++ [t]) (k true) P) (hfalse : Takes ts b e pre (k false) P) :
    Takes ts b e pre (skip? w >>= k) P :=
  .skip_of (fun _ => deepen_of_is hw) htrue hfalse

theorem Takes.skipClose {k : Bool → Read α} (htrue : ∀ t, Takes ts b e (pre ++ [t]) (k true) P)
    (hfalse : Takes ts (b + 1) e pre (k false) P) :
    Takes ts (b + 1) e pre (skip? "]" >>= k) P :=
  .skip_of (fun _ => deepen_close) htrue hfalse

theorem Takes.discardSkip {k : PUnit → Read α} (hw : isPlainMark w = true)
    (htrue : ∀ t, Takes ts b e (pre ++ [t]) (k ⟨⟩) P) (hfalse : Takes ts b e pre (k ⟨⟩) P) :
    Takes ts b e pre (discard (skip? w) >>= k) P := by
  have hdiscard : discard (skip? w) = skip? w >>= fun _ => Pure.pure ⟨⟩ := rfl
  rw [hdiscard, bind_assoc]
  exact .skip hw htrue hfalse

theorem Takes.peek {k : Option Token → Read α} (hsome : ∀ t, Takes ts b e pre (k (some t)) P)
    (hnone : Takes ts b e pre (k none) P) : Takes ts b e pre (Reader.peek >>= k) P :=
  .peeks peeks_peek fun t? => by cases t? with
    | none => exact hnone
    | some t => exact hsome t

/-- The reader, where `t` is the next token. -/
def onNext (t : Token) (r : Read α) : Read α :=
  fun s => if s.tokens.head? = some t then r s else none

theorem run_onNext {s s' : State} (h : (onNext t r).run s = some (a, s')) :
    s.tokens.head? = some t ∧ r.run s = some (a, s') := by
  have h : (if s.tokens.head? = some t then r.run s else none) = some (a, s') := h
  split at h
  · next hhead => exact ⟨hhead, h⟩
  · exact absurd h nofun

theorem Takes.peekNext {k : Option Token → Read α}
    (hsome : ∀ t, Takes ts b e pre (onNext t (k (some t))) P)
    (hnone : Takes ts b e pre (k none) P) : Takes ts b e pre (Reader.peek >>= k) P := by
  intro hts s a s' hs hlast hrun
  obtain ⟨t?, s₁, ht, hrest⟩ := run_bind_eq_some hrun
  obtain rfl : s₁ = s := peeks_peek s t? s₁ ht
  obtain rfl : t? = s₁.tokens.head? := (Prod.mk.inj (Option.some.inj ht)).1.symm
  cases hhead : s₁.tokens.head? with
  | none =>
    rw [hhead] at hrest
    exact hnone hts s₁ a s' hs hlast hrest
  | some t =>
    rw [hhead] at hrest
    refine hsome t hts s₁ a s' hs hlast ?_
    show (if s₁.tokens.head? = some t then (k (some t)).run s₁ else none) = some (a, s')
    rwa [if_pos hhead]

/-- What is taken where a token is next begins with it. -/
theorem Gets.onNext (h : Gets ts r fun used a => used ≠ [] ∧ (used.head? = some t → P used a)) :
    Gets ts (onNext t r) P := by
  intro hts s a s' hs hlast hrun
  obtain ⟨hhead, hrun⟩ := run_onNext hrun
  obtain ⟨used, hused, hdepth, hstop, hne, ha⟩ := h hts s a s' hs hlast hrun
  refine ⟨used, hused, hdepth, hstop, ha ?_⟩
  obtain ⟨u, used, rfl⟩ := List.exists_cons_of_ne_nil hne
  rw [hused] at hhead
  exact hhead

theorem Takes.next (h : Takes ts b e pre r P) : Takes ts b e pre (onNext t r) P :=
  fun hts s a s' hs hlast hrun => h hts s a s' hs hlast (run_onNext hrun).2

theorem Gets.first {k : Option Token → Read α}
    (hsome : ∀ t, Gets ts (k (some t)) fun used a => used ≠ [] ∧ (used.head? = some t → P used a))
    (hnone : Gets ts (k none) P) : Gets ts (Reader.peek >>= k) P :=
  .peekNext (fun t => (hsome t).onNext) hnone

end

/-! ## Nodes -/

section
variable {ts pre : List Token} {b : Nat} {kind : Kind} {first : Node} {children : List Node}

theorem covers_of_head? {t : Token} {l stop : Nat} (hhead : pre.head? = some t)
    (hstop : stop = lastStop l pre) : Covers pre { t.span with stop } := by
  have hheads : Heads pre t.span := ⟨t, hhead, rfl⟩
  subst hstop
  exact hheads.covers

theorem gets_node_of {r : Read (List Node)} (h : Gets ts r fun used ns => used ≠ [] ∧
    ∀ hd : Head, hd.kind = kind → (mk hd ns).Legible ts) :
    Gets ts (node kind r) fun used n => Whole ts used n ∧ n.kind = kind := by
  refine .first (fun t => .bind h fun ns used ⟨hne, hns⟩ => .get fun s l hlast => .pure fun _ =>
    ⟨hne, fun hhead => ⟨⟨covers_of_head? hhead hlast, hns _ rfl⟩, rfl⟩⟩) .failure

theorem gets_node_kind {r : Read (List Node)} (hkind : kind.hasText = false)
    (h : Gets ts r (Parts ts)) : Gets ts (node kind r) fun used n => Whole ts used n ∧ n.kind = kind :=
  gets_node_of (h.mono fun _ _ ⟨hne, hns⟩ => ⟨hne, fun _ hk => legible_mk (hk ▸ hkind) hns⟩)

theorem gets_node {r : Read (List Node)} (hkind : kind.hasText = false)
    (h : Gets ts r (Parts ts)) : Gets ts (node kind r) (Whole ts) :=
  (gets_node_kind hkind h).mono fun _ _ hn => hn.1

theorem takes_nodeFrom_of (hfirst : Heads pre first.span)
    (h : ∀ hd : Head, hd.kind = kind → (mk hd children).Legible ts) :
    Takes ts b b pre (nodeFrom first kind children) (Whole ts) := by
  refine .get fun s l hlast => .pure fun _ => ⟨?_, h _ rfl⟩
  show Covers pre { first.span with stop := s.last }
  rw [hlast]
  exact hfirst.covers

theorem takes_nodeFrom (hkind : kind.hasText = false) (hfirst : Heads pre first.span)
    (h : AllLegible ts children) : Takes ts b b pre (nodeFrom first kind children) (Whole ts) :=
  takes_nodeFrom_of hfirst fun _ hk => legible_mk (hk ▸ hkind) h

theorem covers_token {t : Token} : Covers [t] t.span := ⟨t, t, rfl, rfl, rfl⟩

/-- The node of a single token. -/
theorem gets_leaf {p : Token → Bool} (hkind : kind.hasText = false)
    (hp : ∀ t : Token, t.Plain → p t = true → deepen 0 t = some 0) :
    Gets ts (leaf kind p) (Whole ts) :=
  .require hp fun _ _ _ => .pure fun _ => ⟨covers_token, legible_mk hkind allLegible_nil⟩

theorem gets_next_leaf {t : Token} (hkind : kind.hasText = false)
    (ht : deepen 0 t = some 0) : Gets ts (onNext t (leaf kind fun _ => true)) (Whole ts) := by
  have hleaf : Gets ts (leaf kind (· == t)) (Whole ts) :=
    gets_leaf hkind fun u _ hu => by rw [eq_of_beq hu, ht]
  intro hts s a s' hs hlast hrun
  obtain ⟨hhead, hrun⟩ := run_onNext hrun
  refine hleaf hts s a s' hs hlast ?_
  obtain ⟨tokens, last, breaks, braces⟩ := s
  obtain ⟨rest, rfl⟩ := List.head?_eq_some_iff.1 hhead
  have haccept : (accept? (· == t)).run ⟨t :: rest, last, breaks, braces⟩ =
      (accept? fun _ => true).run ⟨t :: rest, last, breaks, braces⟩ := by
    simp [accept?]
  unfold leaf require at hrun ⊢
  rw [bind_assoc, StateT.run_bind] at hrun ⊢
  rwa [haccept]

theorem gets_name (hkind : kind.isName = true) :
    Gets ts (leaf kind (·.isIdentifier)) fun used n => Whole ts used n ∧ n.kind = kind :=
  .require (fun _ => deepen_of_isIdentifier) fun t ht hword => .pure fun _ =>
    ⟨⟨covers_token, legible_mk_lax (Kind.isLax_of_isName hkind) (fun _ => ⟨t, ht, hword, rfl⟩)
      (List.forall_mem_nil _) (List.forall_mem_nil _)⟩, rfl⟩

theorem Gets.legible {r : Read Node} (h : Gets ts r (Whole ts)) :
    Gets ts r fun _ n => n.Legible ts := h.mono fun _ _ h => h.2

theorem gets_none : Gets ts (pure [] : Read (List Node)) fun _ ns => AllLegible ts ns :=
  .pure fun _ => allLegible_nil

theorem takes_only {x : Read Node} (hx : Gets ts x (Whole ts)) :
    Takes ts b b pre (do return [← x]) (Parts ts) :=
  .take hx fun n u hn => .pure fun _ =>
    ⟨by simp [hn.1.ne_nil], List.forall_mem_singleton.2 hn.2⟩

theorem takes_under {x : Read Node} {f : Field} (hx : Gets ts x (Whole ts)) :
    Takes ts b b pre (do return [(← x).under f]) (Parts ts) :=
  .take hx fun n u hn => .pure fun _ => ⟨by simp [hn.1.ne_nil], by simpa using hn.2⟩

end

/-! ## Lists -/

section
variable {α : Type} {ts : List Token} {r : Read α} {P : α → Prop} {fuel : Nat}

theorem gets_many {more : Read Bool} (hmore : Gets ts more fun used go => go = false → used = [])
    (hr : Gets ts r fun _ a => P a) :
    Gets ts (many more r fuel) fun used as => (as = [] → used = []) ∧ ∀ a ∈ as, P a := by
  induction fuel with
  | zero => exact .failure
  | succ fuel ih =>
    refine .bind hmore fun go used hgo => .ite (fun _ => ?_) fun hfalse => .pure fun _ =>
      ⟨fun _ => hgo (by simpa using hfalse), List.forall_mem_nil _⟩
    exact .take hr fun a _ ha => .take ih fun as _ has => .pure fun _ =>
      ⟨nofun, List.forall_mem_cons.2 ⟨ha, has.2⟩⟩

theorem gets_peeks {r : Read α} (h : Peeks r) : Gets ts r fun used _ => used = [] := by
  rw [← bind_pure r]
  exact .peeks h fun _ => .pure fun _ => rfl

theorem gets_skip {w : String} (hw : isPlainMark w = true) :
    Gets ts (skip? w) fun used go => go = false → used = [] := by
  rw [← bind_pure (skip? w)]
  exact .skip hw (fun _ => .pure fun _ => nofun) (.pure fun _ _ => rfl)

theorem gets_separator {sep : String} (hsep : isPlainMark sep = true) :
    Gets ts (do if ← continues sep then skip? sep else return false) fun used go =>
      go = false → used = [] :=
  .peeks peeks_continues fun _ => .ite (fun _ => gets_skip hsep) fun _ => .pure fun _ _ => rfl

theorem gets_sepBy {sep : String} (hsep : isPlainMark sep = true)
    (hr : Gets ts r fun used a => used ≠ [] ∧ P a) :
    Gets ts (sepBy fuel sep r) fun used as => used ≠ [] ∧ ∀ a ∈ as, P a :=
  .bind hr fun a u ha => .take (gets_many (gets_separator hsep) (hr.mono fun _ _ h => h.2))
    fun as _ has => .pure fun _ => ⟨by simp [ha.1], List.forall_mem_cons.2 ⟨ha.2, has.2⟩⟩

theorem gets_listUntil {close : String} (hr : Gets ts r fun _ a => P a) :
    Gets ts (listUntil fuel close r) fun _ as => ∀ a ∈ as, P a := by
  refine (gets_many ((gets_peeks (.bind peeks_nextIs fun _ => .pure _)).mono fun _ _ h _ => h)
    (.bind hr fun a u ha => ?_)).mono fun _ _ h => h.2
  exact .skip rfl
    (fun _ => .peeks peeks_nextIs fun _ => .ite (fun _ => .failure) fun _ => .pure fun _ => ha)
    (.peeks peeks_nextIs fun _ => .ite (fun _ => .failure) fun _ => .pure fun _ => ha)

theorem gets_lines {close : List String} (hr : Gets ts r fun _ a => P a) :
    Gets ts (lines fuel close r) fun _ as => ∀ a ∈ as, P a := by
  have hclosed {f : Option Token → Read Bool} (h : ∀ t?, Peeks (f t?)) : Peeks (peek >>= f) :=
    .bind peeks_peek h
  refine (gets_many ((gets_peeks (.bind (hclosed fun t? => ?_) fun _ => .pure _)).mono
    fun _ _ h _ => h) (.bind hr fun a u ha => ?_)).mono fun _ _ h => h.2
  · cases t? <;> exact .pure _
  refine .peeks peeks_broken fun _ => .ite (fun _ => .pure fun _ => ha) fun _ =>
    .skip rfl (fun _ => .pure fun _ => ha) ?_
  refine .peeks (hclosed fun t? => ?_) fun _ => .ite (fun _ => .pure fun _ => ha) fun _ => .failure
  cases t? <;> exact .pure _

end
end RouteCheck.Reader
