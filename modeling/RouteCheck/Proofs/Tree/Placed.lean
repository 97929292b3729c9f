import RouteCheck.Proofs.Tree.Nodes

/-!
Where the nodes of a tree lie.

In a placed tree every node covers some text, and its children cover parts of that text one after
the other. The part of a declaring node that declarations are collected from is its last child:
the body of a function, the values of a specification or short declaration, what a loop ranges over.
Nothing that is declared in such a part is seen outside of it: values are expressions, and only the
bodies of function literals declare something in an expression.

Main statements:
  1. `PlacedIn.place`, `PlacedIn.apart`: where the nodes of a list lie.
  2. `Placed.within`: what is below a placed node lies in it.
  3. `Placed.eq_dropLast_append`: every other child comes before the entered part.
-/

namespace RouteCheck

/-- The part of a declaring node that declarations are collected from. -/
def Kind.entered? : Kind → Option Field
  | functionDeclaration | methodDeclaration | funcLiteral => some .body
  | shortVarDeclaration | rangeClause => some .right
  | varSpec | constSpec => some .value
  | _ => none

/-- Of the declaring nodes, functions open a scope. -/
theorem Kind.opensScope_eq_isFunction {k : Kind} (h : k.entered?.isSome = true) :
    k.opensScope = k.isFunction := by
  cases k <;> simp_all [entered?, opensScope, isFunction]

namespace Node

mutual
/-- What is declared in the node is not seen outside of it. -/
def Closed : Node → Prop
  | mk h cs => h.kind.opensScope = true ∨ h.kind.entered? = none ∧ ClosedAll cs
def ClosedAll : List Node → Prop
  | [] => True
  | c :: cs => Closed c ∧ ClosedAll cs
end

/-- The entered part of a declaring node comes last, that of a clause keeps what it declares to
itself, what follows a dot opens no scope, and a bare token has no parts. -/
structure Regular (n : Node) : Prop where
  last : ∀ f, n.kind.entered? = some f → ∀ c ∈ n.children.dropLast, c.inField ≠ some f
  closed : ∀ f, n.kind.entered? = some f → n.kind.isFunction = false →
    ∀ c ∈ n.children, c.inField = some f → c.Closed
  dot : n.kind = .selectorExpression → ∀ c ∈ n.children.tail, c.kind.opensScope = false
  token : n.kind = .token → n.children = []

mutual
/-- The node covers some text, and everything below it lies in order. -/
def Placed : Node → Prop
  | mk h cs =>
    h.span.start < h.span.stop ∧ Regular (mk h cs) ∧ PlacedIn cs h.span.start h.span.stop
/-- The nodes are placed, and lie one after the other between two bytes. -/
def PlacedIn : List Node → Nat → Nat → Prop
  | [], _, _ => True
  | c :: cs, lo, hi => lo ≤ c.start ∧ Placed c ∧ c.stop ≤ hi ∧ PlacedIn cs c.stop hi
end

section
variable {c m n : Node} {cs ds : List Node} {lo hi lo' hi' mid : Nat}

theorem Placed.nonempty (h : n.Placed) : n.start < n.stop := by
  cases n
  exact h.1

theorem Placed.children (h : n.Placed) : PlacedIn n.children n.start n.stop := by
  cases n
  exact h.2.2

theorem Placed.regular (h : n.Placed) : n.Regular := by
  cases n
  exact h.2.1

theorem closedAll_iff : ClosedAll cs ↔ ∀ c ∈ cs, c.Closed := by
  induction cs with
  | nil => simp [ClosedAll]
  | cons c cs ih => simp [ClosedAll, ih]

theorem closed_iff : n.Closed ↔ n.kind.opensScope = true ∨
    n.kind.entered? = none ∧ ∀ c ∈ n.children, c.Closed := by
  obtain ⟨h, cs⟩ := n
  rw [Closed, closedAll_iff]
  rfl

theorem PlacedIn.mono (h : PlacedIn cs lo hi) (hlo : lo' ≤ lo) (hhi : hi ≤ hi') :
    PlacedIn cs lo' hi' := by
  induction cs generalizing lo lo' with
  | nil => trivial
  | cons c cs ih =>
    obtain ⟨hc, hplaced, hstop, hrest⟩ := h
    exact ⟨Nat.le_trans hlo hc, hplaced, Nat.le_trans hstop hhi, ih hrest (Nat.le_refl _)⟩

/-- Each node of the list is placed between the two bytes. -/
theorem PlacedIn.place (h : PlacedIn cs lo hi) (hc : c ∈ cs) :
    lo ≤ c.start ∧ c.stop ≤ hi ∧ c.Placed := by
  induction cs generalizing lo with
  | nil => exact absurd hc List.not_mem_nil
  | cons d cs ih =>
    obtain ⟨hd, hplaced, hstop, hrest⟩ := h
    rcases List.mem_cons.1 hc with rfl | hc
    · exact ⟨hd, hstop, hplaced⟩
    · obtain ⟨hlo, hhi⟩ := ih hrest hc
      have := hplaced.nonempty
      exact ⟨by omega, hhi⟩

theorem PlacedIn.pairwise (h : PlacedIn cs lo hi) : cs.Pairwise fun c d => c.stop ≤ d.start := by
  induction cs generalizing lo with
  | nil => exact .nil
  | cons c cs ih =>
    obtain ⟨_, _, _, hrest⟩ := h
    exact .cons (fun d hd => (hrest.place hd).1) (ih hrest)

theorem PlacedIn.sublist (h : PlacedIn cs lo hi) (hds : ds.Sublist cs) : PlacedIn ds lo hi := by
  induction hds generalizing lo with
  | slnil => trivial
  | @cons ds cs c _ ih =>
    obtain ⟨hc, hplaced, hstop, hrest⟩ := h
    have := hplaced.nonempty
    exact (ih hrest).mono (by omega) (Nat.le_refl _)
  | cons_cons c _ ih =>
    obtain ⟨hc, hplaced, hstop, hrest⟩ := h
    exact ⟨hc, hplaced, hstop, ih hrest⟩

theorem placedIn_append (hcs : PlacedIn cs lo mid) (hds : PlacedIn ds lo' hi) (hlo : lo ≤ lo')
    (hmid : mid ≤ lo') (hhi : mid ≤ hi) : PlacedIn (cs ++ ds) lo hi := by
  induction cs generalizing lo with
  | nil => exact hds.mono hlo (Nat.le_refl _)
  | cons c cs ih =>
    obtain ⟨hc, hplaced, hstop, hrest⟩ := hcs
    exact ⟨hc, hplaced, Nat.le_trans hstop hhi, ih hrest (Nat.le_trans hstop hmid)⟩

theorem PlacedIn.stop_le (h : PlacedIn (cs ++ ds) lo hi) (hc : c ∈ cs) (hm : m ∈ ds) :
    c.stop ≤ m.start := by
  induction cs generalizing lo with
  | nil => exact absurd hc List.not_mem_nil
  | cons d cs ih =>
    obtain ⟨_, _, _, hrest⟩ := h
    rcases List.mem_cons.1 hc with rfl | hc
    · exact (hrest.place (List.mem_append_right cs hm)).1
    · exact ih hrest hc

/-- Different nodes of a list do not overlap. -/
theorem PlacedIn.apart (h : PlacedIn cs lo hi) (hc : c ∈ cs) (hm : m ∈ cs) (hne : c ≠ m) :
    c.stop ≤ m.start ∨ m.stop ≤ c.start := by
  obtain ⟨before, after, rfl⟩ := List.append_of_mem hc
  rcases List.mem_append.1 hm with hm | hm
  · exact .inr (h.stop_le hm List.mem_cons_self)
  · rcases List.mem_cons.1 hm with rfl | hm
    · exact absurd rfl hne
    · rw [← List.singleton_append, ← List.append_assoc] at h
      exact .inl (h.stop_le (List.mem_append_right before (List.mem_singleton_self c)) hm)

theorem PlacedIn.upTo (h : PlacedIn (cs ++ [c]) lo hi) : PlacedIn (cs ++ [c]) lo c.stop := by
  induction cs generalizing lo with
  | nil => exact ⟨h.1, h.2.1, Nat.le_refl _, trivial⟩
  | cons d cs ih =>
    obtain ⟨hlo, hplaced, _, hrest⟩ := h
    obtain ⟨hle, _, hlast⟩ := hrest.place (List.mem_append_right cs (List.mem_singleton_self c))
    exact ⟨hlo, hplaced, Nat.le_trans hle (Nat.le_of_lt hlast.nonempty), ih hrest⟩

theorem PlacedIn.lt (h : PlacedIn cs lo hi) (hcs : cs ≠ []) : lo < hi := by
  obtain ⟨c, hc⟩ := List.exists_mem_of_ne_nil cs hcs
  obtain ⟨hlo, hhi, hplaced⟩ := h.place hc
  exact Nat.lt_of_le_of_lt hlo (Nat.lt_of_lt_of_le hplaced.nonempty hhi)

theorem PlacedIn.opened (h : PlacedIn (c :: cs) lo hi) : PlacedIn (c.children ++ cs) lo hi := by
  obtain ⟨hlo, hplaced, hhi, hrest⟩ := h
  have hlt := hplaced.nonempty
  exact placedIn_append (hplaced.children.mono hlo (Nat.le_refl _)) hrest (by omega) (Nat.le_refl _)
    hhi

theorem Placed.child (h : n.Placed) (hc : c ∈ n.children) :
    n.start ≤ c.start ∧ c.stop ≤ n.stop ∧ c.Placed := h.children.place hc

theorem Placed.named (h : n.Placed) : PlacedIn n.named n.start n.stop :=
  h.children.sublist List.filter_sublist

/-- What is below a placed node lies in it. -/
theorem Placed.within {m n : Node} (h : n.Placed) (hm : m ∈ n.all) :
    n.start ≤ m.start ∧ m.stop ≤ n.stop ∧ m.Placed := by
  rw [all_eq] at hm
  rcases List.mem_cons.1 hm with rfl | hm
  · exact ⟨Nat.le_refl _, Nat.le_refl _, h⟩
  · obtain ⟨c, hc, hm⟩ := mem_allOf.1 hm
    have := size_lt_of_mem hc
    obtain ⟨hlo, hhi, hplaced⟩ := h.child hc
    obtain ⟨hlo', hhi', hplaced'⟩ := hplaced.within hm
    exact ⟨Nat.le_trans hlo hlo', Nat.le_trans hhi' hhi, hplaced'⟩
termination_by n.size

/-- The entered part of a placed node is its last child. -/
theorem Placed.eq_dropLast_append (h : n.Placed) {f : Field} (hf : n.kind.entered? = some f)
    (hm : n.field? f = some m) : n.children = n.children.dropLast ++ [m] := by
  have hmem := mem_children_of_field? hm
  have hfield : m.inField = some f := by simpa using List.find?_some hm
  have hsplit := List.dropLast_concat_getLast (List.ne_nil_of_mem hmem)
  rw [← hsplit] at hmem
  rcases List.mem_append.1 hmem with hmem | hmem
  · exact absurd hfield (h.regular.last f hf m hmem)
  · rw [List.mem_singleton.1 hmem]
    exact hsplit.symm

end
end Node
end RouteCheck
