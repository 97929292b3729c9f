import RouteCheck.Proofs.Program.Lookup
import RouteCheck.Proofs.Program.Parsed
import RouteCheck.Proofs.Tree.Paths
import RouteCheck.Proofs.Types.Collect
import RouteCheck.Check.Client

/-!
The typer of a client call.

`clientCallsIn` looks at all calls of a top-level declaration with one typer, that of the
declaration, while the arguments of a call are compared with the typer of the call itself. Both
hold the locals of the outermost function around where they start. They are the same where that
function, if there is one, is the declaration; a function literal in the declaration of a variable
is outermost around its calls but not around the declaration.

Main statements:
  1. `enclosing_eq`: where the typer of a node is that of its top-level declaration.
  2. `foldedBy_readCall`: what is recorded of a call is what its typer folds.
  3. `clientCalls_enclosing`: there, the calls that are visited are those that their own typer
     recognizes, and what is recorded of them is what their own typer folds.
  4. `unvisited_in_literal`: a call in the function literal of a variable is not visited, although
     its own typer recognizes it.
-/

namespace RouteCheck

/-! ## The typer of a node and of its declaration -/

section
variable {f : SourceFile} {decl n : Node} (index : Index)

/-- The typer of a node is that of its top-level declaration if the outermost function around the
node, where there is one, is a top-level declaration. -/
theorem enclosing_eq (hids : (f.tree.all.map Node.id).Nodup)
    (hroot : f.tree.kind.isFunction = false) (hdecl : decl ∈ f.tree.children) (hn : n ∈ decl.all)
    (houter : ∀ g, f.outermostFunction? n = some g → g ∈ f.tree.children) :
    Typer.enclosing index f n = Typer.enclosing index f decl := by
  have hsame : f.outermostFunction? n = f.outermostFunction? decl := by
    have hfound := SourceFile.outermostFunction?_of_child hids hroot hdecl hn
    have hself := SourceFile.outermostFunction?_of_child hids hroot hdecl (Node.self_mem_all decl)
    split at hfound
    · next hfunction =>
      rw [if_pos hfunction] at hself
      rw [hfound, hself]
    · next hfunction =>
      obtain ⟨hnone, hbelow⟩ := hfound
      rw [hnone]
      refine Option.eq_none_iff_forall_ne_some.2 fun g hg => hfunction ?_
      -- a function that is both below the declaration and a declaration is the declaration
      obtain rfl : g = decl := Node.child_unique (Node.nodup_ids_children hids) (houter g hg) hdecl
        (Node.self_mem_all g) (hbelow g hg)
      exact SourceFile.isFunction_of_outermostFunction? hg
  unfold Typer.enclosing
  rw [hsame]

end

/-! ## What is recorded of a call -/

/-- The argument of a client call that is its path. -/
def pathArgument? (op : ClientOp) (call : Node) : Option Node :=
  (ownArguments op call)[if op = .custom then 1 else 0]?

/-- The method of a client call: that of its name, or else its first argument folded. -/
def Typer.methodOf? (t : Typer) (op : ClientOp) (call : Node) : Option String :=
  op.method?.or ((ownArguments op call).head?.map fun m => (t.fold m).render)

/-- The call is a client call by the typer, and method and path are what the typer folds. -/
def ClientCall.FoldedBy (c : ClientCall) (t : Typer) (config : Config) : Prop :=
  ∃ op, t.clientOp? config.library c.node = some op ∧ t.methodOf? op c.node = some c.method ∧
    (pathArgument? op c.node).map (fun path => (t.fold path).trimLead config.clientPrefix) =
      some c.path

section
variable {t : Typer} {op : ClientOp} {call : Node} {config : Config}

theorem parts_of_callParts? {parts : CallParts} (h : t.callParts? op call = some parts) :
    t.methodOf? op call = some parts.method ∧ pathArgument? op call = some parts.path := by
  unfold Typer.callParts? at h
  unfold Typer.methodOf? pathArgument?
  split at h
  case h_1 m path req resp hargs =>
    simp only at h
    split at h
    · exact absurd h (by simp)
    · obtain rfl := Option.some.inj h
      simp [hargs, ClientOp.method?]
  case h_7 => exact absurd h (by simp)
  all_goals
    next hargs =>
      obtain rfl := Option.some.inj h
      simp [hargs, ClientOp.method?]

/-- What is recorded of a call is what the typer folds. -/
theorem foldedBy_readCall {c : ClientCall} (hop : t.clientOp? config.library call = some op)
    (h : (t.readCall config op call).2 = some c) :
    c.file = t.file ∧ c.node = call ∧ c.FoldedBy t config := by
  unfold Typer.readCall at h
  split at h
  · exact absurd h (by simp)
  · next parts hparts =>
    obtain ⟨hmethod, hpath⟩ := parts_of_callParts? hparts
    simp only at h
    split at h
    · exact absurd h (by simp)
    · obtain rfl := Option.some.inj h
      refine ⟨rfl, rfl, op, hop, hmethod, ?_⟩
      rw [hpath]
      rfl

end

/-! ## Visited calls -/

section
variable {index : Index} {f : SourceFile} {library : String} {n : Node}

theorem mem_clientCallsIn_iff {v : Typer × ClientOp × Node} : v ∈ clientCallsIn index f library ↔
    ∃ decl ∈ f.tree.named, v.1 = .enclosing index f decl ∧ v.2.2 ∈ decl.descendants ∧
      v.1.clientOp? library v.2.2 = some v.2.1 := by
  obtain ⟨t, op, call⟩ := v
  simp only [clientCallsIn, List.mem_flatMap, List.mem_filterMap, Option.map_eq_some_iff,
    Prod.mk.injEq]
  constructor
  · rintro ⟨decl, hdecl, m, hm, op', hop, rfl, rfl, rfl⟩
    exact ⟨decl, hdecl, rfl, hm, hop⟩
  · rintro ⟨decl, hdecl, rfl, hcall, hop⟩
    exact ⟨decl, hdecl, call, hcall, op, hop, rfl, rfl, rfl⟩

theorem mem_all_of_mem_descendants {m n : Node} (h : m ∈ n.descendants) : m ∈ n.all :=
  Node.mem_all_of_mem_walk h

theorem kind_of_clientOp? {t : Typer} {op : ClientOp} (h : t.clientOp? library n = some op) :
    n.kind = .callExpression := by
  unfold Typer.clientOp? at h
  obtain ⟨m, hm, -⟩ := Option.bind_eq_some_iff.1 h
  unfold methodCalled? at hm
  split at hm
  · next hkind => exact hkind
  · exact absurd hm (by simp)

/-- Where the outermost function around a call, if any, is a top-level declaration: the call is
visited just if it is recognized by its own typer, and what is recorded of it is what its own typer
folds. -/
theorem clientCalls_enclosing {p : Program} (hp : p.Parsed) (hf : f ∈ p.files)
    (hn : n ∈ f.tree.descendants)
    (houter : ∀ g, f.outermostFunction? n = some g → g ∈ f.tree.children) (config : Config) :
    ((∃ v ∈ clientCallsIn (.build p) f config.library, v.2.2 = n) ↔
      ∃ op, (Typer.enclosing (.build p) f n).clientOp? config.library n = some op) ∧
    ∀ files, ∀ c ∈ (extractCalls (.build p) files config).2, c.file = f → c.node = n →
      c.FoldedBy (.enclosing (.build p) f n) config := by
  have hids := (hp.trees f hf).ids
  have hkind := (hp.trees f hf).kind
  have hroot : f.tree.kind.isFunction = false := by rw [hkind]; rfl
  have htyper {decl : Node} (hdecl : decl ∈ f.tree.named) (hn : n ∈ decl.descendants) :
      Typer.enclosing (.build p) f n = .enclosing (.build p) f decl :=
    enclosing_eq _ hids hroot (Node.mem_children_of_mem_named hdecl)
      (mem_all_of_mem_descendants hn) houter
  refine ⟨⟨?_, ?_⟩, ?_⟩
  · rintro ⟨⟨t, op, call⟩, hv, rfl⟩
    obtain ⟨decl, hdecl, rfl, hcall, hop⟩ := mem_clientCallsIn_iff.1 hv
    exact ⟨op, by rw [htyper hdecl hcall]; exact hop⟩
  · rintro ⟨op, hop⟩
    rcases Node.mem_descendants_iff.1 hn with rfl | ⟨decl, hdecl, hcall⟩
    · -- the root is not a call
      exact absurd (hkind.symm.trans (kind_of_clientOp? hop)) (by decide)
    · rw [htyper hdecl hcall] at hop
      exact ⟨(_, op, n), mem_clientCallsIn_iff.2 ⟨decl, hdecl, rfl, hcall, hop⟩, rfl⟩
  · rintro files c hc rfl rfl
    obtain ⟨read, hread, hsome⟩ := List.mem_filterMap.1 hc
    obtain ⟨⟨t, op, call⟩, hv, rfl⟩ := List.mem_map.1 hread
    obtain ⟨g, -, hv⟩ := List.mem_flatMap.1 hv
    obtain ⟨decl, hdecl, rfl, hcall, hop⟩ := mem_clientCallsIn_iff.1 hv
    obtain ⟨hfile, hnode, hfolded⟩ := foldedBy_readCall hop hsome
    obtain rfl : c.file = g := hfile.trans (Typer.enclosing_file _ _ _)
    subst hnode
    rw [htyper hdecl hcall]
    exact hfolded

end

/-! ## Values without a declaration -/

theorem Typer.typeOf_identifier_of_absent {p : Program} {f : SourceFile} {n : Node}
    (hkind : n.kind = .identifier)
    (h : p.declarations.filterMap (Declaration.valueOf? (f.package, n.text)) = []) :
    typeOf { index := .build p, file := f } n = .unknown := by
  have hvalue : (Index.build p).value? f f.package n.text = none := Index.value?_build_eq_none f h
  rw [typeOf, typeWith, hkind]
  show valueType maxJumps _ f.package n.text = _
  rw [maxJumps, valueType, hvalue]

theorem clientOp?_of_absent {p : Program} {f : SourceFile} {decl n operand field : Node}
    {library : String} (houter : f.outermostFunction? decl = none)
    (hmethod : methodCalled? n = some (operand, field)) (hkind : operand.kind = .identifier)
    (h : p.declarations.filterMap (Declaration.valueOf? (f.package, operand.text)) = []) :
    (Typer.enclosing (.build p) f decl).clientOp? library n = none := by
  have htype := Typer.typeOf_identifier_of_absent hkind h
  simp [Typer.clientOp?, Typer.enclosing, houter, hmethod, htype, Ty.isNamedThroughPtr]

/-! ## A function and the function literal of a variable -/

/-- A client call in a function, and one in the function literal of a variable. -/
def drops : List String :=
  ["var drop = func(c *jape.Client) \x7b c.DELETE(\"/items\") \x7d",
    "func old(c *jape.Client, id string) \x7b c.DELETE(\"/old/\" + id) \x7d"]

/-- Of every declaration: whether it is a function and whether it lies in one, and the operands of
the calls in it that their own typers recognize. -/
def SourceFile.recognized (f : SourceFile) : List (Bool × Bool × List (Option (Kind × String))) :=
  f.tree.named.map fun decl => (decl.kind.isFunction, (f.outermostFunction? decl).isSome,
    (decl.descendants.filter fun n =>
      ((Typer.enclosing (.build ⟨[f]⟩) f n).clientOp? "jape" n).isSome).map fun n =>
        (methodCalled? n).map fun (operand, _) => (operand.kind, operand.text))

theorem recognized_drops :
    let f := SourceFile.sample drops
    f.recognized = [(false, false, []), (false, false, []),
      (false, false, [some (.identifier, "c")]), (true, true, [some (.identifier, "c")])] ∧
    ((Program.mk [f]).declarations.filterMap
      (Declaration.valueOf? (f.package, "c"))).isEmpty = true := by
  simp only [drops, SourceFile.sample_eq, SourceFile.chars, String.reduceToList]
  decide +kernel

theorem exists_recognized {f : SourceFile} {b b' : Bool} {k : Kind} {name : String}
    (h : (b, b', [some (k, name)]) ∈ f.recognized) :
    ∃ decl ∈ f.tree.named, decl.kind.isFunction = b ∧ (f.outermostFunction? decl).isSome = b' ∧
      ∃ n ∈ decl.descendants,
        (∃ op, (Typer.enclosing (.build ⟨[f]⟩) f n).clientOp? "jape" n = some op) ∧
        ∃ operand field, methodCalled? n = some (operand, field) ∧ operand.kind = k ∧
          operand.text = name := by
  obtain ⟨decl, hdecl, heq⟩ := List.mem_map.1 h
  obtain ⟨hfunction, hrest⟩ := Prod.mk.inj heq
  obtain ⟨houter, hcalls⟩ := Prod.mk.inj hrest
  obtain ⟨n, hn, hcall⟩ := List.map_eq_singleton_iff.1 hcalls
  obtain ⟨hmem, hop⟩ := List.mem_filter.1 (hn ▸ List.mem_singleton_self n)
  obtain ⟨⟨operand, field⟩, hmethod, hoperand⟩ := Option.map_eq_some_iff.1 hcall
  obtain ⟨hkind, htext⟩ := Prod.mk.inj hoperand
  exact ⟨decl, hdecl, hfunction, houter, n, hmem, Option.isSome_iff_exists.1 hop, operand, field,
    hmethod, hkind, htext⟩

/-- The call in the function is visited and its own typer recognizes it, and what is recorded of it
is what that typer folds. -/
theorem clientCalls_enclosing_old : ∃ sources p, Program.ofSources sources = .ok p ∧
    ∃ f ∈ p.files, ∃ n ∈ f.tree.descendants,
      (∀ g, f.outermostFunction? n = some g → g ∈ f.tree.children) ∧
        (∃ op, (Typer.enclosing (.build p) f n).clientOp? "jape" n = some op) ∧
          (∃ v ∈ clientCallsIn (.build p) f "jape", v.2.2 = n) ∧
            ∀ c ∈ (extractCalls (.build p) p.files {}).2, c.file = f → c.node = n →
              c.FoldedBy (.enclosing (.build p) f n) {} := by
  have hp := Program.ofSources_sample drops
  have hf : SourceFile.sample drops ∈ (Program.mk [.sample drops]).files :=
    List.mem_singleton_self _
  have htree := (Program.parsed_ofSources hp).trees _ hf
  have hroot : (SourceFile.sample drops).tree.kind.isFunction = false := by
    rw [htree.kind]
    rfl
  obtain ⟨decl, hdecl, hfunction, _, n, hn, hop, _⟩ := exists_recognized
    (recognized_drops.1 ▸ .tail _ (.tail _ (.tail _ (.head _))) :
      (true, true, [some (.identifier, "c")]) ∈ (SourceFile.sample drops).recognized)
  have hn' : n ∈ (SourceFile.sample drops).tree.descendants :=
    Node.mem_descendants_iff.2 (.inr ⟨decl, hdecl, hn⟩)
  have hmem := Node.mem_children_of_mem_named hdecl
  have houter : ∀ g, (SourceFile.sample drops).outermostFunction? n = some g →
      g ∈ (SourceFile.sample drops).tree.children := by
    have hfound := SourceFile.outermostFunction?_of_child htree.ids hroot hmem
      (mem_all_of_mem_descendants hn)
    rw [if_pos hfunction] at hfound
    intro g hg
    obtain rfl : decl = g := Option.some.inj (hfound.symm.trans hg)
    exact hmem
  obtain ⟨hvisited, hfolded⟩ := clientCalls_enclosing (Program.parsed_ofSources hp) hf hn' houter {}
  exact ⟨_, _, hp, _, hf, n, hn', houter, hop, hvisited.2 hop, hfolded _⟩

/-- A call that its own typer recognizes is not visited if it is made on a name that the package
does not declare, in a declaration that is not in a function. -/
theorem exists_unvisited {f : SourceFile} (htree : f.tree.SourceTree) {b : Bool} {name : String}
    (h : (b, false, [some (.identifier, name)]) ∈ f.recognized)
    (habsent : (Program.mk [f]).declarations.filterMap
      (Declaration.valueOf? (f.package, name)) = []) :
    ∃ n ∈ f.tree.descendants,
      (∃ op, (Typer.enclosing (.build ⟨[f]⟩) f n).clientOp? "jape" n = some op) ∧
        ¬ ∃ v ∈ clientCallsIn (.build ⟨[f]⟩) f "jape", v.2.2 = n := by
  obtain ⟨decl, hdecl, _, houter, n, hn, hop, operand, field, hmethod, hkind, rfl⟩ :=
    exists_recognized h
  refine ⟨n, Node.mem_descendants_iff.2 (.inr ⟨decl, hdecl, hn⟩), hop, ?_⟩
  rintro ⟨⟨t, op, call⟩, hv, rfl⟩
  obtain ⟨decl', hdecl', rfl, hn', hop⟩ := mem_clientCallsIn_iff.1 hv
  obtain rfl : decl' = decl := Node.child_unique (Node.nodup_ids_children htree.ids)
    (Node.mem_children_of_mem_named hdecl') (Node.mem_children_of_mem_named hdecl)
    (mem_all_of_mem_descendants hn') (mem_all_of_mem_descendants hn)
  have hnone : f.outermostFunction? decl' = none := by simpa using houter
  exact absurd ((clientOp?_of_absent hnone hmethod hkind habsent).symm.trans hop) nofun

/-- The call in the function literal of a variable is not visited, although its own typer
recognizes it. -/
theorem unvisited_in_literal : ∃ sources p, Program.ofSources sources = .ok p ∧
    ∃ f ∈ p.files, ∃ n ∈ f.tree.descendants,
      (∃ op, (Typer.enclosing (.build p) f n).clientOp? "jape" n = some op) ∧
        ¬ ∃ v ∈ clientCallsIn (.build p) f "jape", v.2.2 = n := by
  have hp := Program.ofSources_sample drops
  obtain ⟨hrecognized, habsent⟩ := recognized_drops
  have hmem : (false, false, [some (Kind.identifier, "c")]) ∈
      (SourceFile.sample drops).recognized := by
    rw [hrecognized]
    exact .tail _ (.tail _ (.head _))
  exact ⟨_, _, hp, _, List.mem_singleton_self _,
    exists_unvisited ((Program.parsed_ofSources hp).trees _ (List.mem_singleton_self _)) hmem
      (List.isEmpty_iff.1 habsent)⟩

end RouteCheck
