import RouteCheck.Proofs.Tree.Placed

/-!
Lexical environments.

An environment is a stack of frames of declared names. One walk over a function pushes a frame at
every node that opens a scope and drops it at the node's end, and adds names to the current frame
once the clause that declares them is over: parameters and results with the signature, the names of
a specification, a short declaration or a range clause with its last byte. What a use of a name
refers to is looked up as the walk comes to it.

A declaring node has one part whose declarations stay in the current frame, `Node.entered`; what is
declared in its other parts, `Node.asides`, is not seen outside of them.

Main statements:
  1. `exists_mem_visit`, `uses_of_mem_visit`: the walk comes to every use of a name, and to nothing
     else.
  2. `find?_of_mem_visit`: where a name is not declared on the way it refers to what it did before.
-/

namespace RouteCheck

namespace Node

/-- Names of receiver, parameters and results of a function. -/
def parameterNames (func : Node) : List Node :=
  [Field.receiver, .parameters, .result].flatMap fun f =>
    match func.field? f with
    | some list =>
      if list.kind = .parameterList then
        list.named.flatMap fun param =>
          if (param.field? .type).isSome then param.fields .name else []
      else []
    | none => []

/-- The part of a declaring node whose declarations stay in the current frame. -/
def entered (n : Node) : Option Node :=
  if n.kind = .shortVarDeclaration && (n.field? .left).isNone then none
  else n.kind.entered?.bind n.field?

/-- Names that a clause adds to the current frame. -/
def binds (n : Node) : List Node :=
  match n.kind with
  | .shortVarDeclaration =>
    if n.entered.isSome then ((n.field? .left).map expressions).getD [] else []
  | .varSpec | .constSpec => n.fields .name
  | .rangeClause =>
    if n.entered.isSome && n.children.any (·.text == ":=") then
      (((n.field? .left).map expressions).getD []).take 2
    else []
  | _ => []

/-- Names that the node declares, not counting what is below it. -/
def declared (n : Node) : List Node := if n.kind.isFunction then n.parameterNames else n.binds

/-- The part of `n` holds names that `n` declares. -/
def isNaming (n part : Node) : Bool :=
  match n.kind with
  | .shortVarDeclaration => part.inField == some .left
  | .rangeClause => part.inField == some .left && n.children.any (·.text == ":=")
  | .varSpec | .constSpec => part.inField == some .name
  | _ => false

/-- Parts of a declaring node other than its names and the part that is entered. -/
def asides (n : Node) : List Node :=
  if n.kind.entered?.isSome then
    (if n.entered.isSome then n.children.dropLast else n.children).filter fun part =>
      part.kind.isNamed && !n.isNaming part
  else []

/-- A single token that is an identifier, and does not stand where a name is given. -/
def isUse (n : Node) : Bool :=
  n.kind = .identifier && n.children.isEmpty && n.inField != some .name

/-- The second node is an identifier in the first one that uses a name. -/
inductive Uses : Node → Node → Prop
  | here {n} (h : n.isUse = true) : Uses n n
  | part {n part u} (hpart : part ∈ n.named) (hnaming : n.isNaming part = false)
    (h : Uses part u) : Uses n u

/-- A name is declared somewhere in the node. -/
def Declares (n : Node) (name : String) : Prop := ∃ m ∈ n.all, ∃ d ∈ m.declared, d.text = name

/-- The second node lies in an aside of a declaring node in the first one, and its name is declared
in that aside or in the signature that the aside belongs to. -/
inductive Hides : Node → Node → Prop
  | aside {n part u} (hpart : part ∈ n.asides) (hu : u ∈ part.all)
    (h : part.Declares u.text ∨
      n.kind.isFunction = true ∧ ∃ d ∈ n.parameterNames, d.text = u.text) :
    Hides n u
  | part {n part u} (hpart : part ∈ n.children) (h : Hides part u) : Hides n u

theorem field?_of_mem_parameterNames {n d : Node} (h : d ∈ n.parameterNames) :
    ∃ f list, f ≠ Field.body ∧ n.field? f = some list ∧ d ∈ list.all := by
  obtain ⟨f, hf, h⟩ := List.mem_flatMap.1 h
  have hbody : f ≠ .body := by
    rintro rfl
    exact absurd hf (by decide)
  cases hlist : n.field? f with
  | none => simp [hlist] at h
  | some list =>
    simp only [hlist] at h
    split at h
    · obtain ⟨param, hparam, h⟩ := List.mem_flatMap.1 h
      split at h
      · exact ⟨f, list, hbody, hlist, mem_all_trans
          (mem_all_of_child (mem_children_of_mem_fields h) (self_mem_all d))
          (mem_all_of_mem_named hparam)⟩
      · exact absurd h List.not_mem_nil
    · exact absurd h List.not_mem_nil

theorem isNaming_of_mem_binds {n d : Node} (h : d ∈ n.binds) :
    ∃ part ∈ n.children, n.isNaming part = true ∧ d ∈ part.all := by
  have hleft {d : Node} (h : d ∈ ((n.field? .left).map expressions).getD []) :
      ∃ part ∈ n.children, part.inField = some .left ∧ d ∈ part.all := by
    cases hleft : n.field? .left with
    | none => simp [hleft] at h
    | some left =>
      rw [hleft] at h
      exact ⟨left, mem_children_of_field? hleft, by simpa using List.find?_some hleft,
        mem_all_of_mem_expressions h⟩
  unfold binds at h
  split at h
  · next hkind =>
    split at h
    · obtain ⟨part, hpart, hfield, hd⟩ := hleft h
      exact ⟨part, hpart, by simp [isNaming, hkind, hfield], hd⟩
    · exact absurd h List.not_mem_nil
  · next hkind =>
    obtain ⟨hmem, hfield⟩ := List.mem_filter.1 h
    exact ⟨d, hmem, by simpa [isNaming, hkind] using hfield, self_mem_all d⟩
  · next hkind =>
    obtain ⟨hmem, hfield⟩ := List.mem_filter.1 h
    exact ⟨d, hmem, by simpa [isNaming, hkind] using hfield, self_mem_all d⟩
  · next hkind =>
    split at h
    · next hany =>
      obtain ⟨part, hpart, hfield, hd⟩ := hleft (List.mem_of_mem_take h)
      exact ⟨part, hpart,
        by simpa [isNaming, hkind, hfield] using (Bool.and_eq_true_iff.1 hany).2, hd⟩
    · exact absurd h List.not_mem_nil
  · exact absurd h List.not_mem_nil

end Node

namespace Lexical

/-- Frames, innermost first; in a frame the names declared last come first. -/
abbrev Env := List (List Node)

namespace Env

def binding (names : List Node) : List Node := names.filter (·.text != "_")

/-- Add the names of one clause to the innermost frame. -/
def declare (names : List Node) : Env → Env
  | [] => [binding names]
  | frame :: rest => (binding names ++ frame) :: rest

def find? (env : Env) (name : String) : Option Node :=
  env.findSome? fun frame => frame.find? (·.text == name)

section
variable {env : Env} {names : List Node} {name : String}

theorem find?_declare : (env.declare names).find? name =
    ((binding names).find? (·.text == name)).or (env.find? name) := by
  cases env with
  | nil =>
    rw [declare, find?, find?, List.findSome?_cons]
    cases (binding names).find? (·.text == name) <;> rfl
  | cons frame rest =>
    rw [declare, find?, find?, List.findSome?_cons, List.findSome?_cons, List.find?_append]
    cases (binding names).find? (·.text == name) <;> rfl

theorem find?_declare_of_not_mem (h : ∀ d ∈ names, d.text ≠ name) :
    (env.declare names).find? name = env.find? name := by
  rw [find?_declare, List.find?_eq_none.2, Option.none_or]
  intro d hd
  simpa using h d (List.mem_filter.1 hd).1

end
end Env

open Node

theorem sizes_le_of_sublist {cs ds : List Node} (h : cs.Sublist ds) : sizes cs ≤ sizes ds := by
  induction h with
  | slnil => exact Nat.le_refl _
  | cons c _ ih => exact Nat.le_trans ih (Nat.le_add_left ..)
  | cons_cons c _ ih => exact Nat.add_le_add_left ih _

theorem asides_sublist (n : Node) : n.asides.Sublist n.children := by
  unfold asides
  split
  · refine List.filter_sublist.trans ?_
    split
    · exact List.dropLast_sublist _
    · exact List.Sublist.refl _
  · exact List.nil_sublist _

theorem sizes_asides_lt (n : Node) : sizes n.asides < n.size := by
  have := sizes_le_of_sublist (asides_sublist n)
  rw [size_eq n]
  omega

theorem field?_of_entered {n m : Node} (h : n.entered = some m) :
    ∃ f, n.kind.entered? = some f ∧ n.field? f = some m := by
  unfold entered at h
  split at h
  · exact absurd h nofun
  · exact Option.bind_eq_some_iff.1 h

theorem size_lt_of_entered {n m : Node} (h : n.entered = some m) : m.size < n.size := by
  obtain ⟨f, _, hm⟩ := field?_of_entered h
  exact size_lt_of_field? hm

theorem isNaming_of_entered {n m : Node} (hm : n.entered = some m) : n.isNaming m = false := by
  obtain ⟨f, hf, hfield⟩ := field?_of_entered hm
  have hin : m.inField = some f := by simpa using List.find?_some hfield
  cases hkind : n.kind <;> simp_all [Kind.entered?, isNaming] <;> subst hf <;> simp

theorem isNamed_of_mem_asides {n c : Node} (hc : c ∈ n.asides) :
    c.kind.isNamed = true ∧ n.isNaming c = false := by
  unfold asides at hc
  split at hc
  · simpa using (List.mem_filter.1 hc).2
  · exact absurd hc List.not_mem_nil

/-- The environment where the entered part of a node is visited. -/
def innerEnv (env : Env) (n : Node) : Env :=
  if n.kind.isFunction then Env.declare n.parameterNames ([] :: env) else env

mutual
/-- The uses in a node with what they refer to, and the environment after it. -/
def visit (env : Env) (n : Node) : List (Node × Option Node) × Env :=
  if n.kind.entered?.isSome then
    let (uses, after) := match _h : n.entered with
      | some part => visit (innerEnv env n) part
      | none => ([], innerEnv env n)
    (visitAsides env n.asides ++ uses,
      if n.kind.isFunction then env else after.declare n.binds)
  else
    let own := if n.isUse then [(n, env.find? n.text)] else []
    let (uses, after) := visitAll (if n.kind.opensScope then [] :: env else env) n.named
    (own ++ uses, if n.kind.opensScope then env else after)
termination_by 2 * n.size
decreasing_by
  · have := size_lt_of_entered _h
    omega
  · have := sizes_asides_lt n
    omega
  · have := sizes_named_lt n
    omega

/-- Nodes one after the other. -/
def visitAll (env : Env) (ns : List Node) : List (Node × Option Node) × Env :=
  match ns with
  | [] => ([], env)
  | n :: rest =>
    let (uses, after) := visit env n
    let (more, after) := visitAll after rest
    (uses ++ more, after)
termination_by 2 * sizes ns + 1
decreasing_by
  · simp only [sizes]
    omega
  · have := n.size_pos
    simp only [sizes]
    omega

/-- Nodes whose declarations are not seen outside of them. -/
def visitAsides (env : Env) (ns : List Node) : List (Node × Option Node) :=
  match ns with
  | [] => []
  | n :: rest => (visit env n).1 ++ visitAsides env rest
termination_by 2 * sizes ns + 1
decreasing_by
  · simp only [sizes]
    omega
  · have := n.size_pos
    simp only [sizes]
    omega
end

section
variable {env : Env} {n u : Node} {d? : Option Node} {ns : List Node}

/-- What a declaring node is visited for. -/
theorem mem_visit_of_entered? (h : n.kind.entered?.isSome) : (u, d?) ∈ (visit env n).1 ↔
    (u, d?) ∈ visitAsides env n.asides ∨ ∃ m, n.entered = some m ∧
      (u, d?) ∈ (visit (innerEnv env n) m).1 := by
  rw [visit, if_pos h]
  simp only [List.mem_append]
  split
  · next m hm => simp [hm]
  · next hm => simp [hm]

theorem mem_visit (h : n.kind.entered? = none) : (u, d?) ∈ (visit env n).1 ↔
    (n.isUse = true ∧ u = n ∧ d? = env.find? n.text) ∨
      (u, d?) ∈ (visitAll (if n.kind.opensScope then [] :: env else env) n.named).1 := by
  rw [visit, if_neg (by simp [h])]
  simp only [List.mem_append]
  cases n.isUse <;> simp

theorem mem_visitAsides : (u, d?) ∈ visitAsides env ns ↔ ∃ c ∈ ns, (u, d?) ∈ (visit env c).1 := by
  induction ns with
  | nil => simp [visitAsides]
  | cons c ns ih => simp [visitAsides, ih]

theorem mem_visitAll (h : (u, d?) ∈ (visitAll env ns).1) :
    ∃ c ∈ ns, ∃ env', (u, d?) ∈ (visit env' c).1 := by
  induction ns generalizing env with
  | nil => simp [visitAll] at h
  | cons c ns ih =>
    rw [visitAll] at h
    rcases List.mem_append.1 h with h | h
    · exact ⟨c, List.mem_cons_self, env, h⟩
    · obtain ⟨c', hc', henv⟩ := ih h
      exact ⟨c', List.mem_cons_of_mem _ hc', henv⟩

theorem exists_mem_visitAll {c : Node} (hc : c ∈ ns)
    (h : ∀ env, ∃ d?, (u, d?) ∈ (visit env c).1) : ∃ d?, (u, d?) ∈ (visitAll env ns).1 := by
  induction ns generalizing env with
  | nil => exact absurd hc List.not_mem_nil
  | cons c' ns ih =>
    rw [visitAll]
    rcases List.mem_cons.1 hc with rfl | hc
    · obtain ⟨d?, hd⟩ := h env
      exact ⟨d?, List.mem_append_left _ hd⟩
    · obtain ⟨d?, hd⟩ : ∃ d?, (u, d?) ∈ (visitAll (visit env c').2 ns).1 := ih hc
      exact ⟨d?, List.mem_append_right _ hd⟩

/-- The parts of a declaring node are its asides, the names it declares and the entered part. -/
theorem mem_asides_or_entered (hplaced : n.Placed) (h : n.kind.entered?.isSome) {part : Node}
    (hpart : part ∈ n.named) (hnaming : n.isNaming part = false) :
    part ∈ n.asides ∨ n.entered = some part := by
  obtain ⟨hmem, hnamed⟩ := List.mem_filter.1 hpart
  rw [asides, if_pos h, List.mem_filter, hnamed, hnaming]
  cases hm : n.entered with
  | none => exact .inl ⟨hmem, rfl⟩
  | some m =>
    obtain ⟨f, hf, hfield⟩ := field?_of_entered hm
    rw [hplaced.eq_dropLast_append hf hfield] at hmem
    rcases List.mem_append.1 hmem with hmem | hmem
    · exact .inl ⟨hmem, rfl⟩
    · exact .inr (congrArg some (List.mem_singleton.1 hmem).symm)

/-- The walk comes to every use of a name. -/
theorem exists_mem_visit (env : Env) (hplaced : n.Placed) (h : n.Uses u) :
    ∃ d?, (u, d?) ∈ (visit env n).1 := by
  induction h generalizing env with
  | @here n huse =>
    have hkind : n.kind = .identifier := by
      simp only [isUse, Bool.and_eq_true, decide_eq_true_eq] at huse
      exact huse.1.1
    exact ⟨_, (mem_visit (by rw [hkind]; rfl)).2 (.inl ⟨huse, rfl, rfl⟩)⟩
  | @part n part u hpart hnaming _ ih =>
    have hplaced' := (hplaced.child (mem_children_of_mem_named hpart)).2.2
    by_cases hdeclares : n.kind.entered?.isSome
    · rcases mem_asides_or_entered hplaced hdeclares hpart hnaming with haside | hentered
      · obtain ⟨d?, hd⟩ := ih env hplaced'
        exact ⟨d?, (mem_visit_of_entered? hdeclares).2
          (.inl (mem_visitAsides.2 ⟨part, haside, hd⟩))⟩
      · obtain ⟨d?, hd⟩ := ih (innerEnv env n) hplaced'
        exact ⟨d?, (mem_visit_of_entered? hdeclares).2 (.inr ⟨part, hentered, hd⟩)⟩
    · obtain ⟨d?, hd⟩ := exists_mem_visitAll hpart fun env => ih env hplaced'
      exact ⟨d?, (mem_visit (by simpa using hdeclares)).2 (.inr hd)⟩

end

theorem mem_all_of_mem_visit {env : Env} {n u : Node} {d? : Option Node}
    (h : (u, d?) ∈ (visit env n).1) : u ∈ n.all := by
  by_cases hdeclares : n.kind.entered?.isSome
  · rcases (mem_visit_of_entered? hdeclares).1 h with h | ⟨m, hm, h⟩
    · obtain ⟨c, hc, h⟩ := mem_visitAsides.1 h
      have hc := (asides_sublist n).subset hc
      have := size_lt_of_mem hc
      exact mem_all_of_child hc (mem_all_of_mem_visit h)
    · obtain ⟨f, _, hfield⟩ := field?_of_entered hm
      have := size_lt_of_entered hm
      exact mem_all_trans (mem_all_of_mem_visit h) (mem_all_of_field? hfield)
  · rcases (mem_visit (by simpa using hdeclares)).1 h with ⟨_, rfl, _⟩ | h
    · exact self_mem_all u
    · obtain ⟨c, hc, env', h⟩ := mem_visitAll h
      have := size_lt_of_mem_named hc
      exact mem_all_trans (mem_all_of_mem_visit h) (mem_all_of_mem_named hc)
termination_by n.size

theorem visit_of_token {env : Env} {n : Node} (hkind : n.kind = .token) (h : n.children = []) :
    (visit env n).1 = [] := by
  have hnamed : n.named = [] := by rw [named, h, List.filter_nil]
  rw [visit, if_neg (by simp [hkind, Kind.entered?]), hnamed, visitAll]
  simp [isUse, hkind]

/-- The walk comes to uses of names only. -/
theorem uses_of_mem_visit {env : Env} {n u : Node} {d? : Option Node} (hplaced : n.Placed)
    (h : (u, d?) ∈ (visit env n).1) : n.Uses u := by
  by_cases hdeclares : n.kind.entered?.isSome
  · rcases (mem_visit_of_entered? hdeclares).1 h with h | ⟨m, hm, h⟩
    · obtain ⟨c, hc, h⟩ := mem_visitAsides.1 h
      have hmem := (asides_sublist n).subset hc
      have := size_lt_of_mem hmem
      obtain ⟨hnamed, hnaming⟩ := isNamed_of_mem_asides hc
      exact .part (List.mem_filter.2 ⟨hmem, hnamed⟩) hnaming
        (uses_of_mem_visit (hplaced.child hmem).2.2 h)
    · obtain ⟨f, _, hfield⟩ := field?_of_entered hm
      have hmem := mem_children_of_field? hfield
      have hplaced' := (hplaced.child hmem).2.2
      have := size_lt_of_entered hm
      have hnamed : m.kind.isNamed = true := by
        refine bne_iff_ne.2 fun hkind => ?_
        rw [visit_of_token hkind (hplaced'.regular.token hkind)] at h
        exact absurd h List.not_mem_nil
      exact .part (List.mem_filter.2 ⟨hmem, hnamed⟩) (isNaming_of_entered hm)
        (uses_of_mem_visit hplaced' h)
  · rcases (mem_visit (by simpa using hdeclares)).1 h with ⟨huse, rfl, _⟩ | h
    · exact .here huse
    · obtain ⟨c, hc, env', h⟩ := mem_visitAll h
      have := size_lt_of_mem_named hc
      refine .part hc ?_ (uses_of_mem_visit (hplaced.child (mem_children_of_mem_named hc)).2.2 h)
      cases hkind : n.kind <;> simp_all [Kind.entered?, isNaming]
termination_by n.size

/-! ## Names that are not declared -/

theorem not_declares_of_mem_all {n m : Node} {name : String} (h : ¬ n.Declares name)
    (hm : m ∈ n.all) : ¬ m.Declares name := by
  rintro ⟨c, hc, hd⟩
  exact h ⟨c, mem_all_trans hc hm, hd⟩

theorem ne_of_not_declares {n : Node} {name : String} (h : ¬ n.Declares name) :
    ∀ d ∈ n.declared, d.text ≠ name := fun d hd heq => h ⟨n, self_mem_all n, d, hd, heq⟩

theorem find?_innerEnv {env : Env} {n : Node} {name : String}
    (h : ∀ d ∈ n.declared, d.text ≠ name) : (innerEnv env n).find? name = env.find? name := by
  unfold innerEnv
  split
  · next hfunction =>
    rw [declared, if_pos hfunction] at h
    exact Env.find?_declare_of_not_mem h
  · rfl

theorem env_visit_of_entered? {env : Env} {n : Node} (h : n.kind.entered?.isSome) :
    (visit env n).2 = if n.kind.isFunction then env else
      ((n.entered.map fun m => (visit (innerEnv env n) m).2).getD (innerEnv env n)).declare
        n.binds := by
  rw [visit, if_pos h]
  split
  next uses after heq =>
    split at heq
    · next m hm => simp [hm, heq]
    · next hm => simp [hm, ← (Prod.mk.inj heq).2]

theorem env_visit {env : Env} {n : Node} (h : n.kind.entered? = none) :
    (visit env n).2 = if n.kind.opensScope then env else (visitAll env n.named).2 := by
  rw [visit, if_neg (by simp [h])]
  cases n.kind.opensScope <;> rfl

mutual
/-- A name that a node does not declare refers to the same after it as before. -/
theorem find?_visit {env : Env} {n : Node} {name : String} (h : ¬ n.Declares name) :
    (visit env n).2.find? name = env.find? name := by
  have hdeclared := ne_of_not_declares h
  by_cases hdeclares : n.kind.entered?.isSome
  · rw [env_visit_of_entered? hdeclares]
    split
    · rfl
    · next hfunction =>
      have hinner : (innerEnv env n).find? name = env.find? name := find?_innerEnv hdeclared
      rw [declared, if_neg hfunction] at hdeclared
      rw [Env.find?_declare_of_not_mem hdeclared]
      cases hm : n.entered with
      | none => exact hinner
      | some m =>
        have := size_lt_of_entered hm
        obtain ⟨f, _, hfield⟩ := field?_of_entered hm
        exact (find?_visit (not_declares_of_mem_all h (mem_all_of_field? hfield))).trans hinner
  · rw [env_visit (by simpa using hdeclares)]
    split
    · rfl
    · have := sizes_named_lt n
      exact find?_visitAll fun c hc => not_declares_of_mem_all h (mem_all_of_mem_named hc)
termination_by 2 * n.size
theorem find?_visitAll {env : Env} {ns : List Node} {name : String}
    (h : ∀ n ∈ ns, ¬ n.Declares name) : (visitAll env ns).2.find? name = env.find? name := by
  match ns with
  | [] => rw [visitAll]
  | n :: rest =>
    rw [visitAll]
    exact (find?_visitAll fun c hc => h c (List.mem_cons_of_mem _ hc)).trans
      (find?_visit (h n List.mem_cons_self))
termination_by 2 * sizes ns + 1
decreasing_by
  · have := n.size_pos
    simp only [sizes]
    omega
  · simp only [sizes]
    omega
end

mutual
/-- What the walk comes to refers to what it did before, if the name is not declared there. -/
theorem find?_of_mem_visit {env : Env} {n u : Node} {d? : Option Node}
    (h : ¬ n.Declares u.text) (hmem : (u, d?) ∈ (visit env n).1) : d? = env.find? u.text := by
  by_cases hdeclares : n.kind.entered?.isSome
  · rcases (mem_visit_of_entered? hdeclares).1 hmem with hmem | ⟨m, hm, hmem⟩
    · obtain ⟨c, hc, hmem⟩ := mem_visitAsides.1 hmem
      have hc := (asides_sublist n).subset hc
      have := size_lt_of_mem hc
      have hall := mem_all_of_child hc (self_mem_all c)
      exact find?_of_mem_visit (not_declares_of_mem_all h hall) hmem
    · have := size_lt_of_entered hm
      obtain ⟨f, _, hfield⟩ := field?_of_entered hm
      have hall := mem_all_of_field? hfield
      exact (find?_of_mem_visit (not_declares_of_mem_all h hall) hmem).trans
        (find?_innerEnv (ne_of_not_declares h))
  · rcases (mem_visit (by simpa using hdeclares)).1 hmem with ⟨_, rfl, rfl⟩ | hmem
    · rfl
    · have := sizes_named_lt n
      have hfind := find?_of_mem_visitAll
        (fun c hc => not_declares_of_mem_all h (mem_all_of_mem_named hc)) hmem
      rw [hfind]
      split <;> rfl
termination_by 2 * n.size
theorem find?_of_mem_visitAll {env : Env} {ns : List Node} {u : Node} {d? : Option Node}
    (h : ∀ n ∈ ns, ¬ n.Declares u.text) (hmem : (u, d?) ∈ (visitAll env ns).1) :
    d? = env.find? u.text := by
  match ns with
  | [] => exact absurd hmem (by simp [visitAll])
  | n :: rest =>
    rw [visitAll] at hmem
    rcases List.mem_append.1 hmem with hmem | hmem
    · exact find?_of_mem_visit (h n List.mem_cons_self) hmem
    · exact (find?_of_mem_visitAll (fun c hc => h c (List.mem_cons_of_mem _ hc)) hmem).trans
        (find?_visit (h n List.mem_cons_self))
termination_by 2 * sizes ns + 1
decreasing_by
  · simp only [sizes]
    omega
  · have := n.size_pos
    simp only [sizes]
    omega
end

end Lexical
end RouteCheck
