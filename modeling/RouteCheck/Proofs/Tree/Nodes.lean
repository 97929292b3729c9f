import RouteCheck.Tree.Node

/-!
The nodes of a tree.

`Node.all` lists a node with everything below it, tokens included, in pre-order. There are
`size` many. Whatever the selectors of a node answer is among them, and so is whatever a walk
meets.
-/

namespace RouteCheck
namespace Node

mutual
/-- The node and everything below it. -/
def all : Node → List Node
  | mk h cs => mk h cs :: allOf cs
def allOf : List Node → List Node
  | [] => []
  | c :: cs => all c ++ allOf cs
end

theorem all_eq (n : Node) : n.all = n :: allOf n.children := by
  cases n
  rw [all, children]

mutual
theorem length_all : ∀ n : Node, n.all.length = n.size
  | mk h cs => by rw [all, size, List.length_cons, length_allOf cs]
theorem length_allOf : ∀ ns : List Node, (allOf ns).length = sizes ns
  | [] => rfl
  | c :: cs => by rw [allOf, sizes, List.length_append, length_all c, length_allOf cs]
end

theorem mem_allOf {m : Node} {ns : List Node} : m ∈ allOf ns ↔ ∃ n ∈ ns, m ∈ n.all := by
  induction ns with
  | nil => simp [allOf]
  | cons c cs ih => simp [allOf, ih]

theorem self_mem_all (n : Node) : n ∈ n.all := by
  rw [all_eq]
  exact List.mem_cons_self

theorem mem_all_of_child {m c n : Node} (hc : c ∈ n.children) (hm : m ∈ c.all) : m ∈ n.all := by
  rw [all_eq]
  exact List.mem_cons_of_mem _ (mem_allOf.2 ⟨c, hc, hm⟩)

theorem mem_all_trans {a b c : Node} (ha : a ∈ b.all) (hb : b ∈ c.all) : a ∈ c.all := by
  rw [all_eq] at hb
  rcases List.mem_cons.1 hb with rfl | hb
  · exact ha
  · obtain ⟨d, hd, hb⟩ := mem_allOf.1 hb
    have := size_lt_of_mem hd
    exact mem_all_of_child hd (mem_all_trans ha hb)
termination_by c.size

/-! ## Selectors -/

section
variable {c n : Node} {f : Field}

theorem mem_all_of_mem_named (h : c ∈ n.named) : c ∈ n.all :=
  mem_all_of_child (mem_children_of_mem_named h) (self_mem_all c)

theorem mem_all_of_field? (h : n.field? f = some c) : c ∈ n.all :=
  mem_all_of_child (mem_children_of_field? h) (self_mem_all c)

theorem mem_all_of_mem_expressions (h : c ∈ n.expressions) : c ∈ n.all := by
  unfold expressions at h
  split at h
  · exact mem_all_of_mem_named h
  · obtain rfl := List.mem_singleton.1 h
    exact self_mem_all c

theorem unparen_mem_all (n : Node) : n.unparen ∈ n.all := by
  fun_induction unparen n with
  | case1 n _ inner h ih =>
    exact mem_all_trans ih (mem_all_of_mem_named (List.mem_of_mem_head? (by simpa using h)))
  | case2 n => exact self_mem_all n
  | case3 n => exact self_mem_all n

end

/-! ## Walks -/

theorem mem_allOf_of_mem_walkFrom {enter : Node → Bool} {m : Node} {ns : List Node}
    (h : m ∈ walkFrom enter ns) : m ∈ allOf ns := by
  fun_induction walkFrom enter ns with
  | case1 => exact h
  | case2 n rest _ ih =>
    refine mem_allOf.2 ?_
    rcases List.mem_cons.1 h with rfl | h
    · exact ⟨m, List.mem_cons_self, self_mem_all m⟩
    · obtain ⟨c, hc, hm⟩ := mem_allOf.1 (ih h)
      rcases List.mem_append.1 hc with hc | hc
      · exact ⟨n, List.mem_cons_self, mem_all_of_child (mem_children_of_mem_named hc) hm⟩
      · exact ⟨c, List.mem_cons_of_mem _ hc, hm⟩
  | case3 n rest _ ih =>
    refine mem_allOf.2 ?_
    rcases List.mem_cons.1 h with rfl | h
    · exact ⟨m, List.mem_cons_self, self_mem_all m⟩
    · obtain ⟨c, hc, hm⟩ := mem_allOf.1 (ih h)
      exact ⟨c, List.mem_cons_of_mem _ hc, hm⟩

theorem mem_all_of_mem_walk {enter : Node → Bool} {m n : Node} (h : m ∈ n.walk enter) :
    m ∈ n.all := by
  obtain ⟨c, hc, hm⟩ := mem_allOf.1 (mem_allOf_of_mem_walkFrom h)
  obtain rfl := List.mem_singleton.1 hc
  exact hm

end Node
end RouteCheck
