import RouteCheck.Proofs.Program.Located
import RouteCheck.Proofs.Program.Sample
import RouteCheck.Proofs.Tree.Paths

/-!
Visits of a tree.

`Node.inspect` serves a visitor by a loop over a stack of pending trees. The visitor sees the nodes
of a tree one after the other and keeps a state, in which it decides whether what is below a node is
visited.

Main statements:
  1. `Inspection.rest_of_turn`: what is left to visit is a pre-order walk of the pending trees, and
     a turn of the loop makes its first step.
  2. `Inspection.finish_eq`, `Inspection.turns_length_rest`: so the loop makes the whole walk, in as
     many turns as there are nodes in it.
  3. `Node.inspect_eq_preorder`: the loop visits what the recursive pre-order walk of the tree
     visits, in the same order and no node twice; `Node.walk` lists these nodes where the visitor
     decides without its state.
-/

namespace RouteCheck

universe u

variable {σ : Type u}

/-! ## The loop -/

namespace Inspection

/-- What `k` turns lead to, if there are as many. -/
def turns (visit : Node → σ → Bool × σ) : Nat → Inspection σ → Option (Inspection σ)
  | 0, i => some i
  | k + 1, i => (i.turn visit).bind (turns visit k)

theorem turn_eq_none_iff {visit : Node → σ → Bool × σ} {i : Inspection σ} :
    i.turn visit = none ↔ i.stack = #[] := by
  rw [turn, Option.map_eq_none_iff, Array.back?_eq_none_iff]

end Inspection

namespace Node

theorem opened_sublist (visit : Node → σ → Bool × σ) (n : Node) (s : σ) :
    (opened visit n s).Sublist n.children := by
  rw [opened]
  split
  · exact List.filter_sublist
  · exact List.nil_sublist _

/-! ## The recursive walk -/

mutual
/-- Visit the node, and then its named children one after the other unless the visitor declines.
Answers the nodes visited, in order, and the state after. -/
def preorder (visit : Node → σ → Bool × σ) : Node → σ → List Node × σ
  | mk h cs, s =>
    let (enter, s) := visit (mk h cs) s
    if enter then
      let (below, s) := preorderBelow visit cs s
      (mk h cs :: below, s)
    else ([mk h cs], s)
def preorderBelow (visit : Node → σ → Bool × σ) : List Node → σ → List Node × σ
  | [], s => ([], s)
  | c :: cs, s =>
    if c.kind.isNamed then
      let (first, s) := preorder visit c s
      let (others, s) := preorderBelow visit cs s
      (first ++ others, s)
    else preorderBelow visit cs s
end

/-- Several trees are visited one after the other. -/
def preorders (visit : Node → σ → Bool × σ) : List Node → σ → List Node × σ
  | [], s => ([], s)
  | n :: ns, s =>
    let (first, s) := preorder visit n s
    let (others, s) := preorders visit ns s
    (first ++ others, s)

section
variable {visit : Node → σ → Bool × σ}

theorem preorderBelow_eq (cs : List Node) (s : σ) :
    preorderBelow visit cs s = preorders visit (cs.filter (·.kind.isNamed)) s := by
  induction cs generalizing s with
  | nil => rfl
  | cons c cs ih =>
    rw [preorderBelow, List.filter_cons]
    split
    · simp only [preorders, ih]
    · exact ih s

theorem preorder_eq (n : Node) (s : σ) :
    preorder visit n s =
      (n :: (preorders visit (opened visit n s) (visit n s).2).1,
        (preorders visit (opened visit n s) (visit n s).2).2) := by
  obtain ⟨h, cs⟩ := n
  cases henter : (visit (mk h cs) s).1 with
  | false => simp [preorder, preorders, opened, henter]
  | true => simp [preorder, preorderBelow_eq, opened, henter, named, children]

theorem preorders_append (ns ms : List Node) (s : σ) :
    preorders visit (ns ++ ms) s =
      ((preorders visit ns s).1 ++ (preorders visit ms (preorders visit ns s).2).1,
        (preorders visit ms (preorders visit ns s).2).2) := by
  induction ns generalizing s with
  | nil => rfl
  | cons n ns ih => simp [preorders, ih]

theorem preorders_cons (n : Node) (ns : List Node) (s : σ) :
    preorders visit (n :: ns) s =
      (n :: (preorders visit (opened visit n s ++ ns) (visit n s).2).1,
        (preorders visit (opened visit n s ++ ns) (visit n s).2).2) := by
  rw [preorders, preorder_eq, preorders_append]
  rfl

theorem preorders_singleton (n : Node) (s : σ) : preorders visit [n] s = preorder visit n s := by
  simp [preorders]

/-- Induction along a walk: what is said of pending trees is said of those after a turn. -/
theorem preorders_induction (visit : Node → σ → Bool × σ) {motive : List Node → σ → Prop}
    (nil : ∀ s, motive [] s)
    (cons : ∀ n ns s, motive (opened visit n s ++ ns) (visit n s).2 → motive (n :: ns) s) :
    ∀ ns s, motive ns s
  | [], s => nil s
  | n :: ns, s => cons n ns s (preorders_induction visit nil cons _ _)
termination_by ns => sizes ns
decreasing_by exact sizes_opened_lt ..

/-! ## The nodes that are visited -/

theorem allOf_append (ns ms : List Node) : allOf (ns ++ ms) = allOf ns ++ allOf ms := by
  induction ns with
  | nil => rfl
  | cons n ns ih => rw [List.cons_append, allOf, allOf, ih, List.append_assoc]

theorem allOf_sublist {ns ms : List Node} (h : ns.Sublist ms) : (allOf ns).Sublist (allOf ms) := by
  induction h with
  | slnil => exact .refl _
  | cons m _ ih => exact ih.trans (List.sublist_append_right ..)
  | cons_cons m _ ih => exact (List.Sublist.refl _).append ih

/-- Every node of the pending trees is visited once at most, and in their order. -/
theorem sublist_preorders (visit : Node → σ → Bool × σ) (ns : List Node) (s : σ) :
    (preorders visit ns s).1.Sublist (allOf ns) := by
  induction ns, s using preorders_induction visit with
  | nil s => exact .slnil
  | cons n ns s ih =>
    have hbelow := allOf_sublist ((opened_sublist visit n s).append_right ns)
    rw [allOf_append n.children] at hbelow
    rw [preorders_cons, allOf, all_eq, List.cons_append]
    exact (ih.trans hbelow).cons_cons n

/-- Where the visitor decides without its state, the nodes visited are those of a walk. -/
theorem walkFrom_eq_preorders {enter : Node → Bool} (henter : ∀ m s, (visit m s).1 = enter m)
    (ns : List Node) (s : σ) : walkFrom enter ns = (preorders visit ns s).1 := by
  induction ns, s using preorders_induction visit with
  | nil s => rw [walkFrom, preorders]
  | cons n ns s ih =>
    rw [opened, henter] at ih
    rw [walkFrom, preorders_cons, opened, henter, ← ih]
    split <;> rfl

/-- The visitor's state has seen the nodes visited, one after the other. -/
theorem preorders_state (visit : Node → σ → Bool × σ) (ns : List Node) (s : σ) :
    (preorders visit ns s).2 = (preorders visit ns s).1.foldl (fun s m => (visit m s).2) s := by
  induction ns, s using preorders_induction visit with
  | nil s => rfl
  | cons n ns s ih => rw [preorders_cons, List.foldl_cons, ← ih]

/-- The visitor that notes the nodes it sees, and otherwise does the same. -/
def noting (visit : Node → σ → Bool × σ) (n : Node) : List Node × σ → Bool × (List Node × σ)
  | (seen, s) =>
    let (enter, s) := visit n s
    (enter, (seen ++ [n], s))

theorem preorders_noting (visit : Node → σ → Bool × σ) (ns seen : List Node) (s : σ) :
    (preorders (noting visit) ns (seen, s)).2 =
      (seen ++ (preorders visit ns s).1, (preorders visit ns s).2) := by
  induction ns, s using preorders_induction visit generalizing seen with
  | nil s => rw [preorders, preorders, List.append_nil]
  | cons n ns s ih =>
    rw [preorders_cons, preorders_cons]
    show (preorders (noting visit) _ (seen ++ [n], (visit n s).2)).2 = _
    exact (ih (seen ++ [n])).trans (by rw [List.append_assoc, List.singleton_append])

end
end Node

/-! ## What the loop visits -/

namespace Inspection

/-- What is left to visit: the nodes, in order, and the state after. -/
def rest (visit : Node → σ → Bool × σ) (i : Inspection σ) : List Node × σ :=
  Node.preorders visit i.pending i.state

section
variable {visit : Node → σ → Bool × σ} {i j : Inspection σ}

theorem rest_of_turn_eq_none (h : i.turn visit = none) : i.rest visit = ([], i.state) := by
  rw [rest, pending, turn_eq_none_iff.1 h]
  rfl

/-- A turn visits the first node of what is left to visit. -/
theorem rest_of_turn (h : i.turn visit = some j) :
    ∃ n, i.rest visit = (n :: (j.rest visit).1, (j.rest visit).2) := by
  obtain ⟨n, others, hi, hj, hstate⟩ := pending_of_turn h
  refine ⟨n, ?_⟩
  rw [rest, rest, hi, hj, hstate, Node.preorders_cons]

theorem finish_eq (visit : Node → σ → Bool × σ) (i : Inspection σ) :
    i.finish visit = (i.rest visit).2 := by
  fun_induction finish visit i with
  | case1 i h => rw [rest_of_turn_eq_none h]
  | case2 i j h ih =>
    obtain ⟨n, hrest⟩ := rest_of_turn h
    rw [ih, hrest]

/-- There are as many turns as nodes to visit, and nothing is pending after them. -/
theorem turns_length_rest (visit : Node → σ → Bool × σ) (i : Inspection σ) :
    i.turns visit (i.rest visit).1.length = some ⟨#[], (i.rest visit).2⟩ := by
  fun_induction finish visit i with
  | case1 i h =>
    rw [rest_of_turn_eq_none h, ← turn_eq_none_iff.1 h]
    rfl
  | case2 i j h ih =>
    obtain ⟨n, hrest⟩ := rest_of_turn h
    rw [hrest, List.length_cons, turns, h]
    exact ih

end
end Inspection

namespace Node

theorem rest_start (visit : Node → σ → Bool × σ) (n : Node) (s : σ) :
    Inspection.rest visit ⟨#[n], s⟩ = preorder visit n s := preorders_singleton n s

/-- The loop visits what the pre-order walk of the tree visits, in the same order, and leaves the
same state. It ends after one turn for every node visited, and no node of the tree is visited twice.
Where the visitor decides without its state, it sees the nodes of `walk` one after the other. -/
theorem inspect_eq_preorder (visit : Node → σ → Bool × σ) (n : Node) (s : σ) :
    inspect (noting visit) n ([], s) = preorder visit n s ∧
    inspect visit n s = (preorder visit n s).2 ∧
    Inspection.turns visit (preorder visit n s).1.length ⟨#[n], s⟩ =
      some ⟨#[], inspect visit n s⟩ ∧
    (preorder visit n s).1.Sublist n.all ∧
    ((n.all.map id).Nodup → ((preorder visit n s).1.map id).Nodup) ∧
    ∀ enter, (∀ m s, (visit m s).1 = enter m) → n.walk enter = (preorder visit n s).1 ∧
      inspect visit n s = (n.walk enter).foldl (fun s m => (visit m s).2) s := by
  have hstate : inspect visit n s = (preorder visit n s).2 := by
    rw [inspect, Inspection.finish_eq, rest_start]
  have hsublist : (preorder visit n s).1.Sublist n.all := by
    have h := sublist_preorders visit [n] s
    rwa [preorders_singleton, allOf, allOf, List.append_nil] at h
  refine ⟨?_, hstate, ?_, hsublist, fun hids => hids.sublist (hsublist.map id), ?_⟩
  · have h := preorders_noting visit [n] [] s
    rw [preorders_singleton, preorders_singleton, List.nil_append] at h
    rw [inspect, Inspection.finish_eq, rest_start, h]
  · have h := Inspection.turns_length_rest visit ⟨#[n], s⟩
    rwa [rest_start, ← hstate] at h
  · intro enter henter
    have hwalk : n.walk enter = (preorder visit n s).1 := by
      rw [walk, walkFrom_eq_preorders henter [n] s, preorders_singleton]
    have h := preorders_state visit [n] s
    rw [preorders_singleton] at h
    exact ⟨hwalk, by rw [hstate, hwalk, h]⟩

/-- What is called is added to the calls so far. -/
def noteCall (n : Node) (calls : List String) : List String :=
  if n.kind = .callExpression then calls ++ ((n.field? .function).map text).toList else calls

/-- A visitor that collects calls outside function literals. -/
def outerCalls (n : Node) (calls : List String) : Bool × List String :=
  (n.kind != .funcLiteral, n.noteCall calls)

/-- A visitor that enters function literals as well, until there are two calls. -/
def earlyCalls (n : Node) (calls : List String) : Bool × List String :=
  (n.kind != .funcLiteral || calls.length < 2, n.noteCall calls)

end Node

/-- Two calls, each with a call in a function literal. -/
def callbacks : List String :=
  ["func f() \x7b", "g(func() \x7b a() \x7d)", "h(func() \x7b k() \x7d) \x7d"]

theorem calls_callbacks :
    ((SourceFile.sample callbacks).tree.preorder Node.outerCalls []).2 = ["g", "h"] ∧
    ((SourceFile.sample callbacks).tree.preorder Node.earlyCalls []).2 = ["g", "a", "h"] := by
  simp only [callbacks, SourceFile.sample_eq, SourceFile.chars, String.reduceToList]
  decide +kernel

/-- The second function literal is skipped because of the calls in the first. -/
theorem inspect_eq_preorder_callbacks :
    let tree := (SourceFile.sample callbacks).tree
    (tree.all.map Node.id).Nodup ∧
    tree.inspect Node.earlyCalls [] = ["g", "a", "h"] ∧
    ((tree.preorder Node.earlyCalls []).1.map Node.id).Nodup ∧
    (∀ m calls, (Node.outerCalls m calls).1 = (m.kind != .funcLiteral)) ∧
    tree.inspect Node.outerCalls [] = ["g", "h"] ∧
    (tree.walk (·.kind != .funcLiteral)).foldl (fun calls m => m.noteCall calls) [] =
      ["g", "h"] := by
  have hids : ((SourceFile.sample callbacks).tree.all.map Node.id).Nodup :=
    (Program.numbered_ofSources (Program.ofSources_sample callbacks)).nodes _ List.mem_cons_self
  obtain ⟨houter, hearly⟩ := calls_callbacks
  obtain ⟨-, hfinal, -, -, hnodup, -⟩ :=
    Node.inspect_eq_preorder Node.earlyCalls (SourceFile.sample callbacks).tree []
  obtain ⟨-, hfinal', -, -, -, hwalk⟩ :=
    Node.inspect_eq_preorder Node.outerCalls (SourceFile.sample callbacks).tree []
  have hwalked := (hwalk (·.kind != .funcLiteral) fun _ _ => rfl).2
  exact ⟨hids, hfinal.trans hearly, hnodup hids, fun _ _ => rfl, hfinal'.trans houter,
    hwalked.symm.trans (hfinal'.trans houter)⟩

end RouteCheck
