import RouteCheck.Tree.Kind

/-!
Syntax trees and the ways they are walked.

A node carries its kind, its field in the parent, the stretch of text it covers and its
children. Comments are not part of the tree. `Node.id` numbers the nodes of a file in
pre-order, so it tells apart nodes that cover the same text.

The selectors (`arguments`, `unparen`, `statements`, …) name the few shapes that analyses
ask for. Every selector answers with proper descendants, which the `size` lemmas record:
they are what makes recursion over the tree well-founded.

A visitor with a state is served by a loop over a stack of pending trees: the tree on top is
taken, and unless the visitor declines, its named children are put in its place, the first of
them on top.
-/

namespace RouteCheck

/-- A stretch of a source file: byte offsets, and the line and column (1-based, in bytes)
of its first byte. -/
structure Span where
  start : Nat
  stop : Nat
  line : Nat
  column : Nat
  deriving DecidableEq, Repr, Inhabited

/-- What a node is, apart from its children. -/
structure Node.Head where
  id : Nat := 0
  kind : Kind
  field : Option Field := none
  span : Span
  /-- The exact source text the node covers. -/
  text : String := ""
  deriving DecidableEq, Repr, Inhabited

/-- A syntax tree. -/
inductive Node where
  | mk (head : Node.Head) (children : List Node)
  deriving Repr, Inhabited

namespace Node

def head : Node → Head
  | mk h _ => h

def children : Node → List Node
  | mk _ cs => cs

def id (n : Node) : Nat := n.head.id
def kind (n : Node) : Kind := n.head.kind
def inField (n : Node) : Option Field := n.head.field
def span (n : Node) : Span := n.head.span
def text (n : Node) : String := n.head.text
def start (n : Node) : Nat := n.span.start
def stop (n : Node) : Nat := n.span.stop

def site (n : Node) : Nat × Nat := (n.span.line, n.span.column)

def named (n : Node) : List Node := n.children.filter (·.kind.isNamed)

def fields (n : Node) (f : Field) : List Node := n.children.filter (·.inField == some f)

def field? (n : Node) (f : Field) : Option Node := n.children.find? (·.inField == some f)

/-! ## Size -/

mutual
/-- Number of nodes of a tree. -/
def size : Node → Nat
  | mk _ cs => sizes cs + 1
def sizes : List Node → Nat
  | [] => 0
  | c :: cs => size c + sizes cs
end

theorem size_pos (n : Node) : 0 < n.size := by
  cases n; simp [size]

theorem size_eq (n : Node) : n.size = sizes n.children + 1 := by
  cases n; simp [size, children]

theorem sizes_append (xs ys : List Node) : sizes (xs ++ ys) = sizes xs + sizes ys := by
  induction xs with
  | nil => simp [sizes]
  | cons x xs ih => simp [sizes, ih, Nat.add_assoc]

theorem size_le_sizes {c : Node} {cs : List Node} (h : c ∈ cs) : c.size ≤ sizes cs := by
  induction cs with
  | nil => simp at h
  | cons x xs ih =>
    rcases List.mem_cons.1 h with rfl | h
    · simp [sizes]
    · have := ih h
      simp only [sizes]
      omega

theorem sizes_filter_le (p : Node → Bool) (cs : List Node) : sizes (cs.filter p) ≤ sizes cs := by
  induction cs with
  | nil => simp
  | cons x xs ih =>
    rw [List.filter_cons]
    split <;> simp only [sizes] <;> omega

theorem size_lt_of_mem {c n : Node} (h : c ∈ n.children) : c.size < n.size := by
  rw [size_eq n]
  exact Nat.lt_succ_of_le (size_le_sizes h)

theorem mem_children_of_mem_named {c n : Node} (h : c ∈ n.named) : c ∈ n.children :=
  (List.mem_filter.1 h).1

theorem mem_children_of_mem_fields {c n : Node} {f : Field} (h : c ∈ n.fields f) :
    c ∈ n.children :=
  (List.mem_filter.1 h).1

theorem mem_children_of_field? {c n : Node} {f : Field} (h : n.field? f = some c) :
    c ∈ n.children :=
  List.mem_of_find?_eq_some h

theorem size_lt_of_mem_named {c n : Node} (h : c ∈ n.named) : c.size < n.size :=
  size_lt_of_mem (mem_children_of_mem_named h)

theorem size_lt_of_field? {c n : Node} {f : Field} (h : n.field? f = some c) : c.size < n.size :=
  size_lt_of_mem (mem_children_of_field? h)

theorem sizes_named_lt (n : Node) : sizes n.named < n.size := by
  have := sizes_filter_le (·.kind.isNamed) n.children
  rw [size_eq n]
  simp only [named]
  omega

/-! ## Walks -/

/-- Pre-order walk of a list of pending trees, leftmost first; the children of a node for
which `enter` is false are skipped. The nodes met are listed in order. -/
def walkFrom (enter : Node → Bool) : List Node → List Node
  | [] => []
  | n :: rest =>
    if enter n then n :: walkFrom enter (n.named ++ rest) else n :: walkFrom enter rest
termination_by pending => sizes pending
decreasing_by
  · have := sizes_named_lt n
    simp only [sizes_append, sizes]
    omega
  · have := size_pos n
    simp only [sizes]
    omega

/-- The node and its named descendants in source order, without looking below nodes for
which `enter` is false. -/
def walk (enter : Node → Bool) (n : Node) : List Node := walkFrom enter [n]

/-- The node and all its named descendants in source order. -/
def descendants (n : Node) : List Node := n.walk fun _ => true

mutual
/-- Nodes from `n` down to the node numbered `target`, outermost first. -/
def pathTo (target : Nat) : Node → Option (List Node)
  | mk h cs => if h.id = target then some [mk h cs] else (pathsTo target cs).map (mk h cs :: ·)
def pathsTo (target : Nat) : List Node → Option (List Node)
  | [] => none
  | c :: cs => (pathTo target c).or (pathsTo target cs)
end

/-! ## Selectors -/

/-- Statements of a block or clause: the list that holds them is flattened. -/
def statements (n : Node) : List Node :=
  n.named.flatMap fun c => if c.kind = .statementList then c.named else [c]

/-- The expressions of an expression list, or the node itself. -/
def expressions (n : Node) : List Node :=
  if n.kind = .expressionList then n.named else [n]

def callArguments (call : Node) : List Node :=
  ((call.field? .arguments).map named).getD []

/-- Strip the parentheses around an expression. -/
def unparen (n : Node) : Node :=
  if n.kind = .parenthesizedExpression then
    match _h : n.named.head? with
    | some inner => inner.unparen
    | none => n
  else n
termination_by n.size
decreasing_by exact size_lt_of_mem_named (List.mem_of_mem_head? (by simpa using _h))

/-- Strip the wrapper around an element of a composite literal. -/
def literalContent (n : Node) : Node :=
  if n.kind = .literalElement then n.named.head?.getD n else n

theorem size_unparen_le (n : Node) : n.unparen.size ≤ n.size := by
  fun_induction unparen n with
  | case1 n _ inner h ih =>
    have := size_lt_of_mem_named (List.mem_of_mem_head? (by simpa using h) : inner ∈ n.named)
    omega
  | case2 => omega
  | case3 => omega

theorem size_lt_of_mem_callArguments {a call : Node} (h : a ∈ call.callArguments) :
    a.size < call.size := by
  unfold callArguments at h
  cases hf : call.field? .arguments with
  | none => simp [hf] at h
  | some args =>
    simp only [hf, Option.map_some, Option.getD_some] at h
    have := size_lt_of_mem_named h
    have := size_lt_of_field? hf
    omega

end Node

/-! ## Visits -/

section
universe u
variable {σ : Type u}

namespace Node

/-- The children that a visitor enters after the node. -/
def opened (visit : Node → σ → Bool × σ) (n : Node) (s : σ) : List Node :=
  if (visit n s).1 then n.named else []

theorem sizes_opened_lt (visit : Node → σ → Bool × σ) (n : Node) (s : σ) (ns : List Node) :
    sizes (opened visit n s ++ ns) < sizes (n :: ns) := by
  have hsize := n.size_pos
  have hnamed := n.sizes_named_lt
  rw [sizes_append, sizes, opened]
  split
  · omega
  · rw [sizes]
    omega

end Node

/-- A visit that is under way: the pending trees, the next one last, and the visitor's state. -/
structure Inspection (σ : Type u) where
  stack : Array Node
  state : σ

namespace Inspection

def pending (i : Inspection σ) : List Node := i.stack.toList.reverse

/-- Take the last tree of the stack and visit it. Unless the visitor declines, push the named
children in reverse. -/
def turn (visit : Node → σ → Bool × σ) (i : Inspection σ) : Option (Inspection σ) :=
  i.stack.back?.map fun n =>
    let (enter, state) := visit n i.state
    ⟨if enter then i.stack.pop ++ n.named.toArray.reverse else i.stack.pop, state⟩

section
variable {visit : Node → σ → Bool × σ} {i j : Inspection σ}

/-- A turn visits the first of the pending trees; the children come before the others. -/
theorem pending_of_turn (h : i.turn visit = some j) : ∃ n rest, i.pending = n :: rest ∧
    j.pending = Node.opened visit n i.state ++ rest ∧ j.state = (visit n i.state).2 := by
  obtain ⟨n, hback, rfl⟩ := Option.map_eq_some_iff.1 h
  refine ⟨n, i.stack.pop.toList.reverse, ?_, ?_, rfl⟩
  · obtain ⟨stack, hstack⟩ := Array.back?_eq_some_iff.1 hback
    simp [pending, hstack]
  · cases henter : (visit n i.state).1 <;> simp [pending, Node.opened, henter]

theorem size_lt_of_turn (h : i.turn visit = some j) :
    Node.sizes j.pending < Node.sizes i.pending := by
  obtain ⟨n, rest, hi, hj, -⟩ := pending_of_turn h
  rw [hi, hj]
  exact Node.sizes_opened_lt ..

end

/-- Turns are taken until the stack is empty. -/
def finish (visit : Node → σ → Bool × σ) (i : Inspection σ) : σ :=
  match _h : i.turn visit with
  | none => i.state
  | some j => j.finish visit
termination_by Node.sizes i.pending
decreasing_by exact size_lt_of_turn _h

end Inspection

/-- Visit the node and what is below it, beginning with the state `s`. -/
def Node.inspect (visit : Node → σ → Bool × σ) (n : Node) (s : σ) : σ :=
  Inspection.finish visit ⟨#[n], s⟩

end
end RouteCheck
