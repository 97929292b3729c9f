import RouteCheck.Proofs.Tree.Brackets
import RouteCheck.Proofs.Tree.Placed

/-!
The trees of source files.

What is proved of a program asks of its trees only that they are `Node.SourceTree`s: nodes are
numbered and lie in order, statements and specifications have the parts that their kinds call for,
and what is a name by its kind is a word.

Main statements:
  1. `Spelled.isWord`, `Below.bracketed`: names are words, and lengths of arrays close where their
     brackets do.
  2. `Below.field?`, `Below.named`: the parts of a node.
  3. `SourceTree.placed_of_mem`: where the nodes of a source tree lie.
-/

namespace RouteCheck

namespace Kind

def isName (k : Kind) : Bool :=
  k == .identifier || k == .typeIdentifier || k == .fieldIdentifier || k == .packageIdentifier

def isParameter (k : Kind) : Bool :=
  k == .parameterDeclaration || k == .variadicParameterDeclaration

/-- Nodes of this kind may have parts in field `name` that are no identifiers. -/
def isLax (k : Kind) : Bool := k.isName || k.isParameter

end Kind

namespace Node
open Token (IsWord Bracketed)

/-! ## Parts -/

/-- A list of names, told by whether each node is named: a name, and others that each have a comma
before them if the commas are listed too. -/
def IsNameList (commas : Bool) (named : List Bool) : Prop :=
  ∃ others, named = true :: (List.replicate others (if commas then [false, true] else [true])).flatten

/-- A conditional statement has a condition, a loop has at most one part before its body, and the
names of a specification are a list, with commas for constants. -/
structure Formed (n : Node) : Prop where
  condition : n.kind = .ifStatement → ∃ c, n.field? .condition = some c
  header : n.kind = .forStatement → (n.named.filter (·.inField != some .body)).length ≤ 1
  names : n.kind = .varSpec ∨ n.kind = .constSpec →
    IsNameList (n.kind == .constSpec) ((n.fields .name).map (·.kind.isNamed))

/-- If the node is a name, then its text is a word. -/
def IsWorded (n : Node) : Prop := n.kind.isName = true → IsWord n.text

/-- Names in the node are words, and the length of an array closes where its bracket does. A type
that stands among the names of parameters is taken for a name, whatever it is. -/
structure SpelledAt (n : Node) : Prop where
  parts : ∀ c ∈ n.children, (n.kind.isLax = true → c.inField ≠ some .name) → c.IsWorded
  names : n.kind = .qualifiedType ∨ n.kind = .packageClause →
    ∀ c ∈ n.children, c.kind.isName = true
  selected : n.kind = .selectorExpression →
    ∀ c, n.field? .selected = some c → c.kind = .fieldIdentifier
  arguments : n.kind = .callExpression →
    ∀ c, n.field? .arguments = some c → c.kind = .argumentList
  length : n.kind = .arrayType →
    ∀ c, n.field? .length = some c → Bracketed c.text.toList ∧ c.text ≠ ""

def Below (n : Node) : Prop := ∀ m ∈ n.all, m.SpelledAt

/-- The parts of the node and of every node in it are spelled so, and the node itself is a word if it
is a name. -/
def Spelled (n : Node) : Prop := n.IsWorded ∧ n.Below

/-- The tree of a source file. -/
structure SourceTree (n : Node) : Prop where
  kind : n.kind = .sourceFile
  ids : (n.all.map id).Nodup
  placed : ∃ stop, PlacedIn n.children 0 stop
  /-- Nodes at one line and column begin at one byte. -/
  sites : ∀ m ∈ allOf n.children, ∀ m' ∈ allOf n.children, m.site = m'.site → m.start = m'.start
  formed : ∀ m ∈ n.all, m.Formed
  below : n.Below

section
variable {m c n : Node} {f : Field}

theorem Spelled.below (h : n.Spelled) : n.Below := h.2

theorem Below.mem_all (h : n.Below) (hm : m ∈ n.all) : m.Below :=
  fun c hc => h c (mem_all_trans hc hm)

/-- A name is a word. -/
theorem Spelled.isWord (h : n.Spelled) (hname : n.kind.isName = true) : IsWord n.text := h.1 hname

/-- The part of a node, unless it stands among the names of parameters. -/
theorem Below.child (h : n.Below) (hc : c ∈ n.children)
    (hfield : n.kind.isLax = true → c.inField ≠ some .name) : c.Spelled :=
  ⟨(h n (self_mem_all n)).parts c hc hfield, h.mem_all (mem_all_of_child hc (self_mem_all c))⟩

theorem Below.field? (h : n.Below) (hc : n.field? f = some c) (hf : f ≠ .name) : c.Spelled := by
  refine h.child (mem_children_of_field? hc) fun _ hname => hf ?_
  have hfield : c.inField = some f := by simpa using List.find?_some hc
  exact Option.some.inj (hfield.symm.trans hname)

theorem Below.named (h : n.Below) (hk : n.kind.isLax = false) (hc : c ∈ n.named) : c.Spelled :=
  h.child (mem_children_of_mem_named hc) fun hlax => absurd (hk.symm.trans hlax) nofun

/-- The length of an array. -/
theorem Below.bracketed (h : n.Below) (hk : n.kind = .arrayType)
    (hc : n.field? .length = some c) : Bracketed c.text.toList ∧ c.text ≠ "" :=
  (h n (self_mem_all n)).length hk c hc

theorem Below.isWord_part (h : n.Below) (hk : n.kind = .qualifiedType ∨ n.kind = .packageClause)
    (hc : c ∈ n.children) : IsWord c.text := by
  have hlax : n.kind.isLax = false := by rcases hk with hk | hk <;> rw [hk] <;> rfl
  have hspelled := h.child hc fun hlax' => absurd (hlax.symm.trans hlax') nofun
  exact hspelled.isWord ((h n (self_mem_all n)).names hk c hc)

theorem Below.selected (h : n.Below) (hk : n.kind = .selectorExpression)
    (hc : n.field? .selected = some c) : IsWord c.text := by
  refine (h.field? hc nofun).isWord ?_
  rw [(h n (self_mem_all n)).selected hk c hc]
  rfl

theorem Below.callArguments (h : n.Below) (hk : n.kind = .callExpression)
    (hc : c ∈ n.callArguments) : c.Spelled := by
  unfold Node.callArguments at hc
  cases hargs : n.field? .arguments with
  | none => simp [hargs] at hc
  | some args =>
    rw [hargs] at hc
    refine (h.field? hargs nofun).below.named ?_ hc
    rw [(h n (self_mem_all n)).arguments hk args hargs]
    rfl

theorem Spelled.expressions (h : n.Spelled) (hc : c ∈ n.expressions) : c.Spelled := by
  unfold Node.expressions at hc
  split at hc
  · next hk => exact h.below.named (by rw [hk]; rfl) hc
  · rwa [List.mem_singleton.1 hc]

theorem Spelled.unparen (h : n.Spelled) : n.unparen.Spelled := by
  fun_induction Node.unparen n with
  | case1 n hk inner hinner ih =>
    exact ih (h.below.named (by rw [hk]; rfl) (List.mem_of_mem_head? (by simpa using hinner)))
  | case2 => exact h
  | case3 => exact h

end

/-! ## Places -/

namespace SourceTree
variable {tree n c : Node}

/-- Whatever is below the whole file covers some text. -/
theorem placed_of_mem (h : tree.SourceTree) (hn : n ∈ allOf tree.children) : n.Placed := by
  obtain ⟨stop, hplaced⟩ := h.placed
  obtain ⟨d, hd, hn⟩ := mem_allOf.1 hn
  exact ((hplaced.place hd).2.2.within hn).2.2

theorem placed_of_mem_children (h : tree.SourceTree) (hn : n ∈ tree.all) (hc : c ∈ n.children) :
    c.Placed := by
  refine h.placed_of_mem ?_
  rw [all_eq] at hn
  rcases List.mem_cons.1 hn with rfl | hn
  · exact mem_allOf.2 ⟨c, hc, self_mem_all c⟩
  · obtain ⟨d, hd, hn⟩ := mem_allOf.1 hn
    exact mem_allOf.2 ⟨d, hd, mem_all_trans (mem_all_of_child hc (self_mem_all c)) hn⟩

/-- The whole file is no function. -/
theorem placed_of_isFunction (h : tree.SourceTree) (hn : n ∈ tree.all)
    (hfunction : n.kind.isFunction = true) : n.Placed := by
  rw [all_eq] at hn
  rcases List.mem_cons.1 hn with rfl | hn
  · rw [h.kind] at hfunction
    exact absurd hfunction (by decide)
  · exact h.placed_of_mem hn

end SourceTree
end Node
end RouteCheck
