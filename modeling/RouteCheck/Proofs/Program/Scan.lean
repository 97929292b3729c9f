import RouteCheck.Proofs.Program.Lookup
import RouteCheck.Proofs.Program.Parsed

/-!
The look-ups of an index as scans of the program.

A scan goes over everything at top level, by the paths of the files and in each file by where it
stands, and knows neither declarations nor groups of them. The index that is built of a program
answers what the scan answers: a group lists what fits its key, in the order of the scan
(`Index.filterMap_declarations`), and taking the first of a group that is near is taking the first
that fits and is near (`Index.pick_filter`).

Main statements:
  1. `Program.pairwise_listing`: what is scanned is in path and source order.
  2. `Index.scans_build`: the index of a program answers what the scan answers.
  3. `Index.agreeNear_of_around`: where the directory of a file declares a name, other directories
     make no difference.
-/

namespace RouteCheck

/-! ## What is scanned -/

def Node.declared? (n : Node) : Option String := (n.field? .name).map Node.text

namespace Decl

/-- A top-level node of a file, as it is. -/
def topLevel (f : SourceFile) (n : Node) : List Decl := [⟨f, n⟩]

def typeParts (f : SourceFile) (n : Node) : List Decl :=
  if n.kind = .typeDeclaration then n.named.map fun s => ⟨f, s⟩ else []

def isFunction (package name : String) (d : Decl) : Bool :=
  d.file.package == package && d.node.kind == .functionDeclaration && d.node.declared? == some name

def isMethod (package name : String) (d : Decl) : Bool :=
  d.file.package == package && d.node.kind == .methodDeclaration &&
    d.node.declared? == some name && (Declaration.receiverName? d.node).isSome

def isMethodOn (package receiver name : String) (d : Decl) : Bool :=
  d.isMethod package name && Declaration.receiverName? d.node == some receiver

def isType (package name : String) (d : Decl) : Bool :=
  d.file.package == package && (d.node.kind == .typeSpec || d.node.kind == .typeAlias) &&
    d.node.declared? == some name

end Decl

namespace ValueDecl

/-- The names of the values that a top-level node declares. -/
def names (f : SourceFile) (n : Node) : List ValueDecl :=
  if n.kind = .varDeclaration ∨ n.kind = .constDeclaration then
    (Declaration.valueSpecs n).flatMap fun spec =>
      (spec.fields .name).mapIdx fun i _ => ⟨f, spec, i, n.kind == .constDeclaration⟩
  else []

def nameNode (v : ValueDecl) : Node := ((v.spec.fields .name)[v.index]?).getD v.spec

def isValue (package name : String) (v : ValueDecl) : Bool :=
  v.file.package == package && v.nameNode.text == name

end ValueDecl

/-- The file, whatever its place in a program. -/
def SourceFile.unnumbered (f : SourceFile) : SourceFile := { f with index := 0 }

def Decl.unnumbered (d : Decl) : Decl := { d with file := d.file.unnumbered }

def ValueDecl.unnumbered (v : ValueDecl) : ValueDecl := { v with file := v.file.unnumbered }

section
variable (package receiver name : String) (d : Decl)

theorem Decl.isFunction_unnumbered :
    d.unnumbered.isFunction package name = d.isFunction package name := rfl

theorem Decl.isMethod_unnumbered :
    d.unnumbered.isMethod package name = d.isMethod package name := rfl

theorem Decl.isMethodOn_unnumbered :
    d.unnumbered.isMethodOn package receiver name = d.isMethodOn package receiver name := rfl

theorem Decl.isType_unnumbered : d.unnumbered.isType package name = d.isType package name := rfl

theorem ValueDecl.isValue_unnumbered (v : ValueDecl) :
    v.unnumbered.isValue package name = v.isValue package name := rfl

end

/-- The files in the directory of `here`, in the order of the program. -/
def Program.around (p : Program) (here : SourceFile) : List SourceFile :=
  (p.files.filter (Index.sameDir here)).map SourceFile.unnumbered

/-- What the top-level nodes of a program contribute, by file, then source order. -/
def Program.listing {α : Type} (p : Program) (items : SourceFile → Node → List α) : List α :=
  p.files.flatMap fun f => f.tree.named.flatMap (items f)

/-- The file of `a` has a path that is no greater, and if both are in one file, `a` ends before `b`
begins. -/
def Before {α : Type} (fileOf : α → SourceFile) (nodeOf : α → Node) (a b : α) : Prop :=
  ((fileOf a).path.compare (fileOf b).path).isLE = true ∧
    (fileOf a = fileOf b → (nodeOf a).stop ≤ (nodeOf b).start)

/-- All that is scanned is in path and source order. -/
structure Program.InOrder (p : Program) : Prop where
  topLevel : (p.listing Decl.topLevel).Pairwise (Before Decl.file Decl.node)
  types : (p.listing Decl.typeParts).Pairwise (Before Decl.file Decl.node)
  values : (p.listing ValueDecl.names).Pairwise (Before ValueDecl.file ValueDecl.nameNode)

namespace Index

/-! ## Scans -/

section
variable {α : Type} (here : SourceFile) (fileOf : α → SourceFile) (fits : α → Bool) (all : List α)

/-- The first that fits in the directory of `here` if there is one, else the first that fits. -/
def scan? : Option α :=
  (all.find? fun a => fits a && sameDir here (fileOf a)).or (all.find? fits)

def near : List α := all.filter fun a => fits a && sameDir here (fileOf a)

/-- The element of a list that has no other. -/
def only? : List α → Option α
  | [a] => some a
  | _ => none

/-- The only one that fits in the directory of `here`, or, if none does there, the only one that
fits. -/
def scanOnly? : Option α :=
  if (near here fileOf fits all).isEmpty then only? (all.filter fits)
  else only? (near here fileOf fits all)

variable {here fileOf fits all}

theorem filter_filter_eq_near :
    (all.filter fits).filter (fun a => sameDir here (fileOf a)) = near here fileOf fits all := by
  rw [List.filter_filter, near]
  simp only [Bool.and_comm]

theorem scan?_eq :
    scan? here fileOf fits all = (near here fileOf fits all).head?.or (all.filter fits).head? := by
  rw [scan?, near, List.head?_filter, List.head?_filter]

theorem pick_filter : pick here fileOf (all.filter fits) = scan? here fileOf fits all := by
  rw [pick, scan?_eq, ← List.head?_filter, filter_filter_eq_near]

theorem map_only? {β : Type} (g : α → β) : ∀ xs : List α, (only? xs).map g = only? (xs.map g)
  | [] => rfl
  | [_] => rfl
  | _ :: _ :: _ => rfl

theorem scan?_of_near (h : near here fileOf fits all ≠ []) :
    scan? here fileOf fits all = (near here fileOf fits all).head? := by
  rw [scan?_eq]
  cases hnear : near here fileOf fits all with
  | nil => exact absurd hnear h
  | cons a rest => rfl

theorem scanOnly?_of_near (h : near here fileOf fits all ≠ []) :
    scanOnly? here fileOf fits all = only? (near here fileOf fits all) := by
  rw [scanOnly?, if_neg (by simpa using h)]

end

/-- Every look-up of the index is a scan. -/
structure Scans (ix : Index) (p : Program) : Prop where
  function : ∀ here package name, ix.function? here package name =
    scan? here Decl.file (Decl.isFunction package name) (p.listing Decl.topLevel)
  method : ∀ here package receiver name, ix.method? here package receiver name =
    scan? here Decl.file (Decl.isMethodOn package receiver name) (p.listing Decl.topLevel)
  uniqueMethod : ∀ here package name, ix.uniqueMethod? here package name =
    scanOnly? here Decl.file (Decl.isMethod package name) (p.listing Decl.topLevel)
  type : ∀ here package name, ix.type? here package name =
    scan? here Decl.file (Decl.isType package name) (p.listing Decl.typeParts)
  value : ∀ here package name, ix.value? here package name =
    scan? here ValueDecl.file (ValueDecl.isValue package name) (p.listing ValueDecl.names)

/-- Wherever the program declares a name in the directory of `here`, both indices answer the same
from there. -/
structure AgreeNear (ix ix' : Index) (p : Program) (here : SourceFile) : Prop where
  function : ∀ package name,
    near here Decl.file (Decl.isFunction package name) (p.listing Decl.topLevel) ≠ [] →
      (ix'.function? here package name).map Decl.unnumbered =
        (ix.function? here package name).map Decl.unnumbered
  method : ∀ package receiver name,
    near here Decl.file (Decl.isMethodOn package receiver name) (p.listing Decl.topLevel) ≠ [] →
      (ix'.method? here package receiver name).map Decl.unnumbered =
        (ix.method? here package receiver name).map Decl.unnumbered
  uniqueMethod : ∀ package name,
    near here Decl.file (Decl.isMethod package name) (p.listing Decl.topLevel) ≠ [] →
      (ix'.uniqueMethod? here package name).map Decl.unnumbered =
        (ix.uniqueMethod? here package name).map Decl.unnumbered
  type : ∀ package name,
    near here Decl.file (Decl.isType package name) (p.listing Decl.typeParts) ≠ [] →
      (ix'.type? here package name).map Decl.unnumbered =
        (ix.type? here package name).map Decl.unnumbered
  value : ∀ package name,
    near here ValueDecl.file (ValueDecl.isValue package name) (p.listing ValueDecl.names) ≠ [] →
      (ix'.value? here package name).map ValueDecl.unnumbered =
        (ix.value? here package name).map ValueDecl.unnumbered

end Index

/-! ## Groups list what fits their keys -/

namespace Declaration

/-- The kinds of top-level nodes that make such a declaration. -/
def madeBy : Declaration → List Kind
  | function .. => [.functionDeclaration]
  | method .. => [.methodDeclaration]
  | type .. => [.typeDeclaration]
  | value .. => [.varDeclaration, .constDeclaration]

theorem kind_mem_madeBy {f : SourceFile} {n : Node} {c : Declaration} (hc : c ∈ ofNode f n) :
    n.kind ∈ c.madeBy := by
  unfold ofNode at hc
  split at hc
  · next hkind =>
    obtain ⟨m, _, rfl⟩ := Option.map_eq_some_iff.1 (Option.mem_toList.1 hc)
    exact List.mem_singleton.2 hkind
  · next hkind =>
    split at hc
    · obtain rfl := List.mem_singleton.1 hc
      exact List.mem_singleton.2 hkind
    · exact absurd hc List.not_mem_nil
  · next hkind =>
    obtain ⟨s, _, hs⟩ := List.mem_filterMap.1 hc
    obtain ⟨m, _, rfl⟩ := Option.map_eq_some_iff.1 hs
    exact List.mem_singleton.2 hkind
  · next hkind =>
    obtain ⟨spec, _, hspec⟩ := List.mem_flatMap.1 hc
    obtain ⟨i, hi, rfl⟩ := List.mem_mapIdx.1 hspec
    simp [madeBy, hkind]
  · next hkind =>
    obtain ⟨spec, _, hspec⟩ := List.mem_flatMap.1 hc
    obtain ⟨i, hi, rfl⟩ := List.mem_mapIdx.1 hspec
    simp [madeBy, hkind]
  · exact absurd hc List.not_mem_nil

theorem filterMap_ofNode_eq_nil {α : Type} {declared? : Declaration → Option α} {f : SourceFile}
    {n : Node} (h : ∀ c, n.kind ∈ c.madeBy → declared? c = none) :
    (ofNode f n).filterMap declared? = [] := by
  rw [List.filterMap_eq_nil_iff]
  intro c hc
  exact h c (kind_mem_madeBy hc)

end Declaration

namespace Index

section
variable {α β : Type} {declared? : Declaration → Option β} {items : SourceFile → Node → List α}
  {held? : α → Option β}

/-- If the declarations of every node are the entries of its items, those of a program are the
entries of its listing. -/
theorem filterMap_declarations
    (h : ∀ f n, (Declaration.ofNode f n).filterMap declared? = (items f n).filterMap held?)
    (p : Program) : p.declarations.filterMap declared? = (p.listing items).filterMap held? := by
  simp only [Program.declarations, Program.listing, List.filterMap_flatMap, h]

end

section
variable (package receiver name : String) (f : SourceFile) (n : Node)

theorem functions_ofNode : (Declaration.ofNode f n).filterMap
    (Declaration.functionOf? (package, name)) =
      (Decl.topLevel f n).filterMap (Option.guard (Decl.isFunction package name)) := by
  by_cases hkind : n.kind = .functionDeclaration
  · simp only [Declaration.ofNode, hkind, Decl.topLevel]
    cases hname : n.field? .name with
    | none => simp [Decl.isFunction, Node.declared?, hname, Option.guard]
    | some m =>
      simp [List.filterMap_cons, Decl.isFunction, Node.declared?, hname, hkind,
        Declaration.functionOf?, Option.guard]
  · rw [Declaration.filterMap_ofNode_eq_nil]
    · simp [Decl.topLevel, Decl.isFunction, hkind, Option.guard]
    · rintro (_ | _ | _ | _) hc
      · exact absurd (List.mem_singleton.1 hc) hkind
      all_goals rfl

/-- A method of this name, with its receiver type. -/
def withReceiver? (d : Decl) : Option (String × Decl) :=
  if d.isMethod package name then (Declaration.receiverName? d.node).map (·, d) else none

theorem methods_ofNode : (Declaration.ofNode f n).filterMap
    (Declaration.methodOf? (package, name)) =
      (Decl.topLevel f n).filterMap (withReceiver? package name) := by
  by_cases hkind : n.kind = .methodDeclaration
  · simp only [Declaration.ofNode, hkind, Decl.topLevel]
    cases hname : n.field? .name <;> cases hreceiver : Declaration.receiverName? n <;>
      simp [List.filterMap_cons, withReceiver?, Decl.isMethod, Node.declared?, hname, hreceiver,
        hkind, Declaration.methodOf?]
  · rw [Declaration.filterMap_ofNode_eq_nil]
    · simp [Decl.topLevel, withReceiver?, Decl.isMethod, hkind]
    · rintro (_ | _ | _ | _) hc
      · rfl
      · exact absurd (List.mem_singleton.1 hc) hkind
      all_goals rfl

theorem types_ofNode : (Declaration.ofNode f n).filterMap
    (Declaration.typeOf? (package, name)) =
      (Decl.typeParts f n).filterMap (Option.guard (Decl.isType package name)) := by
  by_cases hkind : n.kind = .typeDeclaration
  · simp only [Declaration.ofNode, hkind, Decl.typeParts, if_true]
    rw [List.filterMap_filterMap, List.filterMap_filter, List.filterMap_map]
    congr 1
    funext s
    by_cases hspec : s.kind = .typeSpec ∨ s.kind = .typeAlias <;>
      cases hname : s.field? .name <;>
      simp [Decl.isType, Node.declared?, hspec, hname, Declaration.typeOf?, Option.guard]
  · rw [Declaration.filterMap_ofNode_eq_nil]
    · simp [Decl.typeParts, hkind]
    · rintro (_ | _ | _ | _) hc
      · rfl
      · rfl
      · exact absurd (List.mem_singleton.1 hc) hkind
      · rfl

theorem names_spec (spec : Node) (isConst : Bool) :
    ((spec.fields .name).mapIdx fun i m =>
      Declaration.value m.text ⟨f, spec, i, isConst⟩).filterMap
        (Declaration.valueOf? (package, name)) =
    ((spec.fields .name).mapIdx fun i _ => ValueDecl.mk f spec i isConst).filterMap
      (Option.guard (ValueDecl.isValue package name)) := by
  rw [List.mapIdx_eq_zipIdx_map, List.mapIdx_eq_zipIdx_map, List.filterMap_map, List.filterMap_map]
  apply List.filterMap_congr
  rintro ⟨m, i⟩ hm
  have hm : (spec.fields .name)[i]? = some m := List.mk_mem_zipIdx_iff_getElem?.1 hm
  have hname : (ValueDecl.mk f spec i isConst).nameNode = m := by
    rw [ValueDecl.nameNode, hm, Option.getD_some]
  simp [ValueDecl.isValue, hname, Declaration.valueOf?, Option.guard]

theorem values_ofNode : (Declaration.ofNode f n).filterMap
    (Declaration.valueOf? (package, name)) =
      (ValueDecl.names f n).filterMap (Option.guard (ValueDecl.isValue package name)) := by
  by_cases hkind : n.kind = .varDeclaration ∨ n.kind = .constDeclaration
  · have hmade : Declaration.ofNode f n = (Declaration.valueSpecs n).flatMap fun spec =>
        (spec.fields .name).mapIdx fun i m =>
          Declaration.value m.text ⟨f, spec, i, n.kind == .constDeclaration⟩ := by
      rcases hkind with hkind | hkind <;> rw [Declaration.ofNode] <;> simp only [hkind]
    rw [hmade, ValueDecl.names, if_pos hkind, List.filterMap_flatMap, List.filterMap_flatMap]
    congr 1
    funext spec
    exact names_spec ..
  · rw [Declaration.filterMap_ofNode_eq_nil]
    · simp [ValueDecl.names, hkind]
    · rintro (_ | _ | _ | _) hc
      · rfl
      · rfl
      · rfl
      · exact absurd (by simpa [Declaration.madeBy] using hc) hkind

end

section
variable (package receiver name : String) (d : Decl)

theorem map_withReceiver? :
    (withReceiver? package name d).map (·.2) = Option.guard (Decl.isMethod package name) d := by
  unfold withReceiver? Option.guard
  split
  · next h =>
    simp only [Decl.isMethod, Bool.and_eq_true, Option.isSome_iff_exists] at h
    obtain ⟨_, r, hr⟩ := h
    rw [hr]
    rfl
  · rfl

theorem map_filter_withReceiver? :
    ((withReceiver? package name d).filter (·.1 == receiver)).map (·.2) =
      Option.guard (Decl.isMethodOn package receiver name) d := by
  unfold withReceiver? Option.guard Decl.isMethodOn
  cases hr : Declaration.receiverName? d.node with
  | none => simp
  | some r =>
    by_cases hmethod : d.isMethod package name <;> by_cases hreceiver : r = receiver <;>
      simp [hmethod, hreceiver]

end

/-- Every look-up of the index of a program is a scan. -/
theorem scans_build (p : Program) : (build p).Scans p where
  function here package name := by
    rw [function?, (lists_build p _).functions,
      filterMap_declarations (functions_ofNode package name), List.filterMap_eq_filter, pick_filter]
  method here package receiver name := by
    rw [method?, (lists_build p _).methods, filterMap_declarations (methods_ofNode package name),
      List.filter_filterMap, List.map_filterMap]
    simp only [map_filter_withReceiver?]
    rw [List.filterMap_eq_filter, pick_filter]
  uniqueMethod here package name := by
    rw [uniqueMethod?, (lists_build p _).methods,
      filterMap_declarations (methods_ofNode package name), List.map_filterMap]
    simp only [map_withReceiver?]
    rw [List.filterMap_eq_filter]
    rw [filter_filter_eq_near, scanOnly?]
    generalize (p.listing Decl.topLevel).filter (Decl.isMethod package name) = found
    generalize near here Decl.file (Decl.isMethod package name) (p.listing Decl.topLevel) = near
    rcases near with _ | ⟨d, _ | ⟨e, near⟩⟩
    · rcases found with _ | ⟨d, _ | ⟨e, found⟩⟩ <;> rfl
    · rfl
    · rfl
  type here package name := by
    rw [type?, (lists_build p _).types, filterMap_declarations (types_ofNode package name),
      List.filterMap_eq_filter, pick_filter]
  value here package name := by
    rw [value?, (lists_build p _).values, filterMap_declarations (values_ofNode package name),
      List.filterMap_eq_filter, pick_filter]

end Index

/-! ## Path and source order -/

namespace Node

variable {cs : List Node} {lo hi : Nat} {n : Node}

theorem PlacedIn.flatMap (h : PlacedIn cs lo hi) {g : Node → List Node}
    (hg : ∀ c ∈ cs, c.Placed → PlacedIn (g c) c.start c.stop) : PlacedIn (cs.flatMap g) lo hi := by
  induction cs generalizing lo with
  | nil => trivial
  | cons c cs ih =>
    obtain ⟨hlo, hc, hhi, hrest⟩ := h
    rw [List.flatMap_cons]
    exact placedIn_append ((hg c List.mem_cons_self hc).mono hlo (Nat.le_refl _))
      (ih hrest fun d hd => hg d (List.mem_cons_of_mem c hd))
      (Nat.le_trans hlo (Nat.le_of_lt hc.nonempty)) (Nat.le_refl _) hhi

theorem Placed.self (h : n.Placed) : PlacedIn [n] n.start n.stop :=
  ⟨Nat.le_refl _, h, Nat.le_refl _, trivial⟩

theorem Placed.valueSpecs (h : n.Placed) :
    PlacedIn (Declaration.valueSpecs n) n.start n.stop := by
  apply h.named.flatMap
  intro c _ hc
  split
  · exact hc.self
  · split
    · exact hc.named.sublist List.filter_sublist
    · trivial

end Node

/-- What the top-level nodes contribute stands in them, one after the other, and does not depend on
the number of the file. -/
structure Sited {α : Type} (items : SourceFile → Node → List α) (fileOf : α → SourceFile)
    (nodeOf : α → Node) (unnumber : α → α) : Prop where
  file : ∀ {f n a}, a ∈ items f n → fileOf a = f
  placed : ∀ {f n}, n.Placed → Node.PlacedIn ((items f n).map nodeOf) n.start n.stop
  unnumber : ∀ f n, (items f n).map unnumber = items f.unnumbered n

theorem Decl.sited_topLevel : Sited Decl.topLevel Decl.file Decl.node Decl.unnumbered where
  file h := by rw [List.mem_singleton.1 h]
  placed h := h.self
  unnumber _ _ := rfl

theorem Decl.sited_typeParts :
    Sited Decl.typeParts Decl.file Decl.node Decl.unnumbered where
  file h := by
    unfold typeParts at h
    split at h
    · obtain ⟨s, _, rfl⟩ := List.mem_map.1 h
      rfl
    · exact absurd h List.not_mem_nil
  placed {f n} h := by
    unfold typeParts
    split
    · rw [List.map_map]
      exact (List.map_id n.named).symm ▸ h.named
    · trivial
  unnumber f n := by
    unfold typeParts
    split
    · rw [List.map_map]
      rfl
    · rfl

theorem ValueDecl.sited_names :
    Sited ValueDecl.names ValueDecl.file ValueDecl.nameNode ValueDecl.unnumbered where
  file h := by
    unfold names at h
    split at h
    · obtain ⟨spec, _, h⟩ := List.mem_flatMap.1 h
      obtain ⟨i, _, rfl⟩ := List.mem_mapIdx.1 h
      rfl
    · exact absurd h List.not_mem_nil
  placed {f n} h := by
    unfold names
    split
    · rw [List.map_flatMap]
      apply h.valueSpecs.flatMap
      intro spec _ hspec
      have hnames (isConst : Bool) : ((spec.fields .name).mapIdx fun i _ =>
          ValueDecl.mk f spec i isConst).map ValueDecl.nameNode = spec.fields .name := by
        apply List.ext_getElem
        · simp
        · intro i hi hi'
          simp [nameNode, hi']
      rw [hnames]
      exact hspec.children.sublist List.filter_sublist
    · trivial
  unnumber f n := by
    unfold names
    split
    · simp only [List.map_flatMap, List.mapIdx_eq_zipIdx_map, List.map_map]
      rfl
    · rfl

namespace Program

variable {p : Program}

section
variable {α : Type} {items : SourceFile → Node → List α} {fileOf : α → SourceFile}
  {nodeOf : α → Node} {unnumber : α → α}

theorem pairwise_listing (hp : p.Parsed) (hitems : Sited items fileOf nodeOf unnumber) :
    (p.listing items).Pairwise (Before fileOf nodeOf) := by
  have hmem {f : SourceFile} {a : α} (ha : a ∈ f.tree.named.flatMap (items f)) :
      fileOf a = f := by
    obtain ⟨n, _, ha⟩ := List.mem_flatMap.1 ha
    exact hitems.file ha
  rw [listing, List.pairwise_flatMap]
  constructor
  · intro f hf
    obtain ⟨stop, hplaced⟩ := (hp.trees f hf).placed
    have hplaced : Node.PlacedIn ((f.tree.named.flatMap (items f)).map nodeOf) 0 stop := by
      rw [List.map_flatMap]
      exact (hplaced.sublist List.filter_sublist).flatMap fun n _ hn => hitems.placed hn
    refine (List.pairwise_map.1 hplaced.pairwise).imp_of_mem ?_
    intro a b ha hb hab
    refine ⟨?_, fun _ => hab⟩
    rw [hmem ha, hmem hb, Path.compare_eq_iff.2 rfl]
    rfl
  · refine hp.order.imp ?_
    rintro f g ⟨hle, hne⟩ a ha b hb
    rw [Before, hmem ha, hmem hb]
    exact ⟨hle, fun heq => absurd heq hne⟩

end

theorem Parsed.inOrder (hp : p.Parsed) : p.InOrder where
  topLevel := pairwise_listing hp Decl.sited_topLevel
  types := pairwise_listing hp Decl.sited_typeParts
  values := pairwise_listing hp ValueDecl.sited_names

end Program
/-! ## Other directories -/

namespace Index

section
variable {α : Type} {items : SourceFile → Node → List α} {fileOf : α → SourceFile}
  {nodeOf : α → Node} {unnumber : α → α} {fits : α → Bool} {here : SourceFile}

/-- What is scanned in a directory is what its files contribute. -/
theorem map_filter_listing (hitems : Sited items fileOf nodeOf unnumber) (p : Program) :
    ((p.listing items).filter fun a => sameDir here (fileOf a)).map unnumber =
      (Program.mk (p.around here)).listing items := by
  obtain ⟨fs⟩ := p
  unfold Program.around Program.listing
  dsimp only
  induction fs with
  | nil => rfl
  | cons f fs ih =>
    have hmem {a : α} (ha : a ∈ f.tree.named.flatMap (items f)) : fileOf a = f := by
      obtain ⟨n, _, ha⟩ := List.mem_flatMap.1 ha
      exact hitems.file ha
    rw [List.flatMap_cons, List.filter_append, List.map_append, ih, List.filter_cons]
    cases hdir : sameDir here f with
    | true =>
      have hall : (f.tree.named.flatMap (items f)).filter (fun a => sameDir here (fileOf a)) =
          f.tree.named.flatMap (items f) := by
        rw [List.filter_eq_self]
        intro a ha
        rw [hmem ha, hdir]
      rw [hall, List.map_flatMap, if_pos rfl, List.map_cons, List.flatMap_cons]
      simp only [hitems.unnumber]
      rfl
    | false =>
      have hnone : (f.tree.named.flatMap (items f)).filter (fun a => sameDir here (fileOf a)) =
          [] := by
        rw [List.filter_eq_nil_iff]
        intro a ha
        rw [hmem ha, hdir]
        exact Bool.false_ne_true
      rw [hnone]
      rfl

theorem map_near (hitems : Sited items fileOf nodeOf unnumber)
    (hfits : ∀ a, fits (unnumber a) = fits a) (p : Program) :
    (near here fileOf fits (p.listing items)).map unnumber =
      ((Program.mk (p.around here)).listing items).filter fits := by
  have hcomp : fits ∘ unnumber = fits := funext hfits
  rw [near, ← map_filter_listing hitems, List.filter_map, hcomp, List.filter_filter]

variable {p q : Program} (hitems : Sited items fileOf nodeOf unnumber)
  (hfits : ∀ a, fits (unnumber a) = fits a) (haround : q.around here = p.around here)
  (hnear : near here fileOf fits (p.listing items) ≠ [])
include hitems hfits haround

theorem map_near_eq : (near here fileOf fits (q.listing items)).map unnumber =
    (near here fileOf fits (p.listing items)).map unnumber := by
  rw [map_near hitems hfits, map_near hitems hfits, haround]

include hnear

theorem near_ne_nil : near here fileOf fits (q.listing items) ≠ [] := by
  intro hnone
  have hsame := map_near_eq hitems hfits haround
  rw [hnone] at hsame
  exact hnear (List.map_eq_nil_iff.1 hsame.symm)

theorem map_scan? : (scan? here fileOf fits (q.listing items)).map unnumber =
    (scan? here fileOf fits (p.listing items)).map unnumber := by
  rw [scan?_of_near hnear, scan?_of_near (near_ne_nil hitems hfits haround hnear),
    ← List.head?_map, ← List.head?_map, map_near_eq hitems hfits haround]

theorem map_scanOnly? :
    (scanOnly? here fileOf fits (q.listing items)).map unnumber =
      (scanOnly? here fileOf fits (p.listing items)).map unnumber := by
  rw [scanOnly?_of_near hnear, scanOnly?_of_near (near_ne_nil hitems hfits haround hnear),
    map_only?, map_only?, map_near_eq hitems hfits haround]

end

/-- Where the directory of a file declares a name, programs that have the same files there answer
the same from it. -/
theorem agreeNear_of_around {p q : Program} {here : SourceFile}
    (haround : q.around here = p.around here) : AgreeNear (build p) (build q) p here where
  function package name hnear := by
    rw [(scans_build p).function, (scans_build q).function]
    exact map_scan? Decl.sited_topLevel (Decl.isFunction_unnumbered package name) haround hnear
  method package receiver name hnear := by
    rw [(scans_build p).method, (scans_build q).method]
    exact map_scan? Decl.sited_topLevel (Decl.isMethodOn_unnumbered package receiver name) haround
      hnear
  uniqueMethod package name hnear := by
    rw [(scans_build p).uniqueMethod, (scans_build q).uniqueMethod]
    exact map_scanOnly? Decl.sited_topLevel (Decl.isMethod_unnumbered package name) haround hnear
  type package name hnear := by
    rw [(scans_build p).type, (scans_build q).type]
    exact map_scan? Decl.sited_typeParts (Decl.isType_unnumbered package name) haround hnear
  value package name hnear := by
    rw [(scans_build p).value, (scans_build q).value]
    exact map_scan? ValueDecl.sited_names (ValueDecl.isValue_unnumbered package name) haround hnear

/-- The index of a program answers what a scan in path and source order
answers. So where the directory of a file declares a name, declarations in other directories make no
difference to what is found from that file. -/
theorem lookups_scan {p : Program} (hp : p.Parsed) :
    p.InOrder ∧ (build p).Scans p ∧
      ∀ here q, q.around here = p.around here → AgreeNear (build p) (build q) p here :=
  ⟨hp.inOrder, scans_build p, fun _ _ => agreeNear_of_around⟩

end Index

def versions : List (Path × String) :=
  [(⟨"v1/api.go"⟩, "package api\nfunc open() \x7b\x7d"),
    (⟨"v2/api.go"⟩, "package api\nfunc open() \x7b\x7d")]

/-- The file that is read from this text, at its place in a program. -/
def opening (path : Path) (index : Nat) : SourceFile :=
  { SourceFile.ofChars path "package api\nfunc open() \x7b\x7d".toList with index }

theorem ofSources_versions :
    Program.ofSources versions = .ok ⟨[opening ⟨"v1/api.go"⟩ 0, opening ⟨"v2/api.go"⟩ 1]⟩ := by
  have hgo : ∀ s ∈ versions, (SourceKind.ofPath? s.1).isSome = true := by decide
  have hfirst : SourceKind.ofPath? ⟨"v1/api.go"⟩ = some .regular := by decide
  have hsecond : SourceKind.ofPath? ⟨"v2/api.go"⟩ = some .regular := by decide
  rw [Program.ofSources_eq hgo, Program.ofFiles_eq, versions, Program.sorted]
  simp only [List.map_cons, List.map_nil, Program.fileOf, SourceFile.read?_eq hfirst,
    SourceFile.read?_eq hsecond, Option.getD_some]
  rw [List.mergeSort_of_pairwise]
  · rfl
  · rw [List.pairwise_pair]
    show (Path.compare ⟨"v1/api.go"⟩ ⟨"v2/api.go"⟩).isLE = true
    decide

/-- The function is found next to each of the files. -/
theorem lookups_scan_versions : ∃ p, Program.ofSources versions = .ok p ∧
    ∀ here ∈ p.files, ((Index.build p).function? here "api" "open").map (·.file.path) =
      some here.path := by
  refine ⟨_, ofSources_versions, fun here hmem => ?_⟩
  obtain ⟨-, hscans, -⟩ := Index.lookups_scan (Program.parsed_ofSources ofSources_versions)
  rw [hscans.function]
  revert here
  simp only [opening, String.reduceToList]
  decide +kernel

end RouteCheck
