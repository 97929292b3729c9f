import RouteCheck.Proofs.Program.Lookup
import RouteCheck.Proofs.Program.Sample
import RouteCheck.Proofs.Types.Dependence
import RouteCheck.Check.Handler
import RouteCheck.Types.Template

/-!
Local names and the declarations of the package that they hide.

Folding, typing and reading an expression as a type look at the locals first, so that no declaration
of the package plays a part where an identifier is local. The function of a call and the handler of
a route are looked up among the functions and types of the package, and for these two a local name
does not hide what the package declares.

Main statements:
  1. `Typer.foldWithin_of_isLocal`, `Typer.typeDenoted?_of_isLocal`: folding, and reading as a type.
  2. `Typer.local_hides_declarations`: what a local name hides, calls of it and handlers included
     where the package has no function and no type of the name.
  3. `call_of_local_uses_function`: otherwise a call of it and a handler come to the function.
-/

namespace RouteCheck

namespace Node

theorem unparen_eq_self {n : Node} (h : n.kind ≠ .parenthesizedExpression) : n.unparen = n := by
  rw [unparen, if_neg h]

theorem kind_of_unparen_ne {n : Node} (h : n.unparen ≠ n) : n.kind = .parenthesizedExpression := by
  apply Decidable.byContradiction
  intro hkind
  exact h (unparen_eq_self hkind)

end Node

namespace Typer

section
variable {t : Typer} {n : Node}

/-! ## Identifiers -/

theorem import?_of_isLocal (hlocal : t.isLocal n = true) : t.import? n = none := by
  simp [import?, hlocal]

/-- A local identifier is a hole, however deep it is folded. -/
theorem foldWithin_of_isLocal (hkind : n.kind = .identifier) (hlocal : t.isLocal n = true)
    (depth : Nat) : foldWithin depth t n = .ofHole (some n) := by
  cases depth with
  | zero => rfl
  | succ depth =>
    unfold foldWithin
    rw [hkind]
    exact if_pos hlocal

/-- A local identifier denotes no type, parentheses or not. -/
theorem typeDenoted?_of_isLocal (hkind : n.kind = .identifier) (hlocal : t.isLocal n = true)
    {f : Node} (hf : f.unparen = n) : t.typeDenoted? false f = none := by
  unfold typeDenoted?
  rw [hf, hkind]
  simp [hlocal]

/-! ## Calls and handlers -/

/-- The function of a call, if it is a local identifier, is looked up in the package as if it were
not local. -/
theorem callResults_of_isLocal (hkind : n.kind = .identifier) (hlocal : t.isLocal n = true)
    {call : Node} (hcall : call.field? .function = some n) :
    t.callResults call = (t.declaredCall? t.file.package n.text).getD [] := by
  unfold callResults callWith
  split
  · next hnone => exact absurd (hcall.symm.trans hnone) (Option.some_ne_none n)
  · next func hfunc =>
    obtain rfl : n = func := Option.some.inj (hcall.symm.trans hfunc)
    rw [hkind]
    simp [hlocal]

/-- In parentheses it is read as a type, and it denotes none. -/
theorem callResults_of_parenthesized (hkind : n.kind = .identifier) (hlocal : t.isLocal n = true)
    {call f : Node} (hcall : call.field? .function = some f) (hf : f.unparen = n) (hne : f ≠ n) :
    t.callResults call = [] := by
  have hparen : f.kind = .parenthesizedExpression :=
    Node.kind_of_unparen_ne fun hself => hne (hself.symm.trans hf)
  unfold callResults callWith
  split
  · rfl
  · next func hfunc =>
    obtain rfl : f = func := Option.some.inj (hcall.symm.trans hfunc)
    rw [hparen]
    exact congrArg Option.toList (typeDenoted?_of_isLocal hkind hlocal hf)

theorem typeOf_call {call : Node} (hkind : call.kind = .callExpression) :
    t.typeOf call = (t.callResults call).headD .unknown := by
  rw [typeOf, typeWith, hkind]
  rfl

theorem handler?_of_identifier {v : Node} (hv : v.unparen = n) (hkind : n.kind = .identifier) :
    t.handler? v = (t.index.function? t.file t.file.package n.text).bind fun d =>
      Handler.ofFunction? d.file d.node := by
  unfold handler?
  simp only [hv, hkind]
  rfl

/-- What the package declares under the name of a local identifier has no part in folding it, in its
type, in the package it may name or in the type it may denote, whatever it is. It has none in a call
of the identifier, if it is no function and no type or the identifier stands in parentheses, and none
in a handler that the identifier gives, if it is no function. -/
theorem local_hides_declarations {p : Program} (hindex : t.index = .build p)
    (hkind : n.kind = .identifier) (hlocal : t.isLocal n = true) :
    (∀ depth, foldWithin depth t n = .ofHole (some n)) ∧
    (∃ b ∈ t.locals, t.local? n = some b ∧ t.typeOf n = b.ty) ∧
    t.import? n = none ∧
    (∀ f, f.unparen = n → t.typeDenoted? false f = none) ∧
    (∀ call f, call.field? .function = some f → f.unparen = n →
      (f = n →
        p.declarations.filterMap (Declaration.functionOf? (t.file.package, n.text)) = [] ∧
        p.declarations.filterMap (Declaration.typeOf? (t.file.package, n.text)) = []) →
      t.callResults call = [] ∧ (call.kind = .callExpression → t.typeOf call = .unknown)) ∧
    (∀ v, v.unparen = n →
      p.declarations.filterMap (Declaration.functionOf? (t.file.package, n.text)) = [] →
      t.handler? v = none) := by
  refine ⟨foldWithin_of_isLocal hkind hlocal, ?_, import?_of_isLocal hlocal,
    fun f hf => typeDenoted?_of_isLocal hkind hlocal hf, ?_, ?_⟩
  · obtain ⟨b, hb⟩ := Option.isSome_iff_exists.1 hlocal
    exact ⟨b, mem_of_local? hb, hb, typeOf_of_local? hkind hb⟩
  · intro call f hcall hf habsent
    have hresults : t.callResults call = [] := by
      by_cases hself : f = n
      · subst hself
        obtain ⟨hfunctions, htypes⟩ := habsent rfl
        rw [callResults_of_isLocal hkind hlocal hcall, declaredCall?, hindex,
          Index.isType_build_eq_false _ htypes, Index.function?_build_eq_none _ hfunctions]
        rfl
      · exact callResults_of_parenthesized hkind hlocal hcall hf hself
    refine ⟨hresults, fun hkind => ?_⟩
    rw [typeOf_call hkind, hresults]
    rfl
  · intro v hv habsent
    rw [handler?_of_identifier hv hkind, hindex, Index.function?_build_eq_none _ habsent]
    rfl

end

end Typer

/-! ## A local name, and a value or a function of the package -/

/-- The local identifiers that are called in a file. -/
def SourceFile.localCalls (f : SourceFile) : List String :=
  f.tree.all.filterMap fun call =>
    (call.field? .function).bind fun n =>
      if n.kind = .identifier && (Typer.enclosing (.build ⟨[f]⟩) f call).isLocal n then some n.text
      else none

theorem exists_of_mem_localCalls {f : SourceFile} {name : String} (h : name ∈ f.localCalls) :
    ∃ call ∈ f.tree.all, ∃ n, call.field? .function = some n ∧ n.kind = .identifier ∧
      n.text = name ∧ (Typer.enclosing (.build ⟨[f]⟩) f call).isLocal n = true := by
  obtain ⟨call, hcall, h⟩ := List.mem_filterMap.1 h
  obtain ⟨n, hn, h⟩ := Option.bind_eq_some_iff.1 h
  split at h
  · next hlocal =>
    obtain ⟨hkind, hlocal⟩ : n.kind = .identifier ∧ _ = true := by simpa using hlocal
    exact ⟨call, hcall, n, hn, hkind, Option.some.inj h, hlocal⟩
  · exact absurd h nofun

/-- A parameter of the name of a constant. -/
def hiddenConstant : List String :=
  ["const run = \"x\"", "func start(run func() int) int \x7b return run() \x7d"]

theorem localCalls_hiddenConstant :
    let f := SourceFile.sample hiddenConstant
    let cs := (Program.mk [f]).declarations
    f.localCalls = ["run"] ∧
      (cs.filterMap (Declaration.valueOf? (f.package, "run"))).length = 1 ∧
      (cs.filterMap (Declaration.functionOf? (f.package, "run"))).length = 0 ∧
      (cs.filterMap (Declaration.typeOf? (f.package, "run"))).length = 0 := by
  simp only [hiddenConstant, SourceFile.sample_eq, SourceFile.chars, String.reduceToList]
  decide +kernel

/-- The call of the parameter has no results, and the parameter is a hole and no handler. -/
theorem local_hides_declarations_constant : ∃ sources p, Program.ofSources sources = .ok p ∧
    ∃ f ∈ p.files, ∃ call n, call.field? .function = some n ∧ n.kind = .identifier ∧
      (Typer.enclosing (.build p) f call).isLocal n = true ∧
      p.declarations.filterMap (Declaration.valueOf? (f.package, n.text)) ≠ [] ∧
      (Typer.enclosing (.build p) f call).fold n = .ofHole (some n) ∧
      (Typer.enclosing (.build p) f call).callResults call = [] ∧
      (Typer.enclosing (.build p) f call).handler? n = none := by
  obtain ⟨hcalls, hvalues, hfunctions, htypes⟩ := localCalls_hiddenConstant
  obtain ⟨call, _, n, hcall, hkind, htext, hlocal⟩ :=
    exists_of_mem_localCalls (hcalls ▸ List.mem_singleton_self "run")
  have hp := Program.ofSources_sample hiddenConstant
  have hfile := Typer.enclosing_file (.build ⟨[.sample hiddenConstant]⟩)
    (.sample hiddenConstant) call
  have hself : n.unparen = n := Node.unparen_eq_self (by simp [hkind])
  obtain ⟨hfold, _, _, _, hresults, hhandler⟩ :=
    Typer.local_hides_declarations (Typer.enclosing_index _ _ call) hkind hlocal
  rw [← htext] at hvalues hfunctions htypes
  have hfunctions := List.eq_nil_of_length_eq_zero hfunctions
  have htypes := List.eq_nil_of_length_eq_zero htypes
  rw [hfile] at hresults hhandler
  exact ⟨_, _, hp, _, List.mem_singleton_self _, call, n, hcall, hkind, hlocal,
    List.ne_nil_of_length_pos (by omega), hfold _,
    (hresults call n hcall hself fun _ => ⟨hfunctions, htypes⟩).1, hhandler n hself hfunctions⟩

/-- A parameter of the name of a function. -/
def hiddenFunction : List String :=
  ["func size() int \x7b return 0 \x7d",
    "func pick(size func() string) string \x7b return size() \x7d"]

theorem localCalls_hiddenFunction :
    let f := SourceFile.sample hiddenFunction
    let cs := (Program.mk [f]).declarations
    f.localCalls = ["size"] ∧
      (cs.filterMap (Declaration.functionOf? (f.package, "size"))).map (fun d =>
        (resultTypes d.file d.node, (Handler.ofFunction? d.file d.node).isSome)) =
          [([.int], true)] ∧
      (cs.filterMap (Declaration.typeOf? (f.package, "size"))).length = 0 := by
  simp only [hiddenFunction, SourceFile.sample_eq, SourceFile.chars, String.reduceToList]
  decide +kernel

/-- The call of the parameter, which gives a text, has the result of the function, and the parameter
is a handler by the function. -/
theorem call_of_local_uses_function : ∃ sources p, Program.ofSources sources = .ok p ∧
    ∃ f ∈ p.files, ∃ call n d, call.field? .function = some n ∧ n.kind = .identifier ∧
      (Typer.enclosing (.build p) f call).isLocal n = true ∧
      p.declarations.filterMap (Declaration.functionOf? (f.package, n.text)) = [d] ∧
      (Typer.enclosing (.build p) f call).callResults call = [.int] ∧
      resultTypes d.file d.node = [.int] ∧
      ∃ h, (Typer.enclosing (.build p) f call).handler? n = some h ∧ h.node = d.node := by
  obtain ⟨hcalls, hfunctions, htypes⟩ := localCalls_hiddenFunction
  obtain ⟨call, _, n, hcall, hkind, htext, hlocal⟩ :=
    exists_of_mem_localCalls (hcalls ▸ List.mem_singleton_self "size")
  have hp := Program.ofSources_sample hiddenFunction
  have hself : n.unparen = n := Node.unparen_eq_self (by simp [hkind])
  obtain ⟨d, hd, hresult⟩ := List.map_eq_singleton_iff.1 hfunctions
  obtain ⟨hresult, hbody⟩ := Prod.mk.inj hresult
  obtain ⟨h, hh⟩ := Option.isSome_iff_exists.1 hbody
  have hnode : h.node = d.node := by
    obtain ⟨body, _, rfl⟩ := Option.map_eq_some_iff.1 hh
    rfl
  rw [← htext] at hd htypes
  have hfound := Index.function?_build_eq_some (.sample hiddenFunction) hd
  have htype := Index.isType_build_eq_false (.sample hiddenFunction)
    (List.eq_nil_of_length_eq_zero htypes)
  refine ⟨_, _, hp, _, List.mem_singleton_self _, call, n, d, hcall, hkind, hlocal, hd, ?_, hresult,
    h, ?_, hnode⟩
  · rw [Typer.callResults_of_isLocal hkind hlocal hcall, Typer.declaredCall?, Typer.enclosing_index,
      Typer.enclosing_file, htype, hfound]
    exact hresult
  · rw [Typer.handler?_of_identifier hself hkind, Typer.enclosing_index, Typer.enclosing_file, hfound]
    exact hh

end RouteCheck
