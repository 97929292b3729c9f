import Mathlib.Data.List.Lex
import RouteCheck.Types.Members
import RouteCheck.Proofs.Program.Lookup
import RouteCheck.Proofs.Program.Sample
import RouteCheck.Proofs.Types.TypeNodes

/-!
Fields that a struct has through the structs embedded in it.

A selector names the field at the shallowest depth of embedding, if there is exactly one at that
depth (`Selects`). The search for a field goes into the embedded structs one after the other, into
each to its depth, so what it comes to is the first place in the order of paths, a path being the
positions of the embedded fields on the way (`First`). It goes by the names that are written in
front of field types, and so comes to no embedded field by its own name.

Main statements:
  1. `scanFields_eq`, `fieldTypeWithin_struct`, `fieldTypeWithin_defined`: one step of the search.
  2. `Index.occurs_struct_iff`, `Index.occurs_defined_iff`: the places of a field go by the same
     steps.
  3. `lt_of_fieldTypeWithin_eq_none`, `first_of_fieldTypeWithin`: what a whole search comes to, by
     induction on its depth.
  4. `fieldType?_selected`: what is found of a field that is selected.
  5. `fieldType?_misses`: fields that are selected, and not found or found elsewhere.
-/

namespace RouteCheck

/-! ## Structs as they are declared -/

/-- A field of a struct. -/
structure StructField where
  name : String
  /-- The type as it is written; for an embedded field, without the star in front. -/
  ty : Ty
  embedded : Bool
  /-- The field is embedded by a pointer. -/
  starred : Bool
  deriving DecidableEq, Repr

def StructField.type (f : StructField) : Ty := if f.starred then .pointer f.ty else f.ty

/-- The name that an embedded type gives its field, without package and type arguments. -/
def Node.embeddedName (n : Node) : String :=
  let base := if n.kind = .genericType then (n.field? .type).getD n else n
  if base.kind = .qualifiedType then ((base.field? .name).map text).getD base.text else base.text

/-- The fields that one declaration in a struct declares. -/
def StructField.ofNode (file : SourceFile) (d : Node) : List StructField :=
  match d.kind, d.field? .type with
  | .fieldDeclaration, some t =>
    let ty := Ty.ofNode file t
    if (d.fields .name).isEmpty then [⟨t.embeddedName, ty, true, d.children.any (·.text == "*")⟩]
    else (d.fields .name).map fun m => ⟨m.text, ty, false, false⟩
  | _, _ => []

/-- The fields of a struct type, if the node is one. -/
def StructField.ofStruct? (file : SourceFile) (ty : Node) : Option (List StructField) :=
  if ty.kind = .structType then
    (ty.named.find? (·.kind == .fieldDeclarationList)).map fun list =>
      list.named.flatMap (StructField.ofNode file)
  else none

namespace Index

variable (ix : Index)

/-- `ix.Underlies plain here owner steps file fs`: seen from `here`, the type `owner` is declared to
be a struct with the fields `fs` in `file`, after so many definitions by another type name. It is
`plain` if the struct type has no parentheses around it. -/
inductive Underlies : Bool → SourceFile → Ty → Nat → SourceFile → List StructField → Prop
  | struct {here owner decl ty fs} (h : ix.definition? here owner = some (decl, ty))
    (hfields : StructField.ofStruct? decl.file ty.unparenType = some fs) :
    Underlies (ty.kind == .structType) here owner 0 decl.file fs
  | defined {here owner decl ty package name plain steps file fs}
    (h : ix.definition? here owner = some (decl, ty))
    (hnamed : Ty.ofNode decl.file ty = .named package name)
    (hunder : Underlies plain decl.file (.named package name) steps file fs) :
    Underlies plain here owner (steps + 1) file fs

/-- `ix.Occurs name plain here owner path steps f`: the struct that `owner` is has the field `f` of
that name, through the embedded fields at the positions `path`. The way there takes so many steps
into embedded structs and definitions, and is `plain` if the structs are and the field is written
with its name. -/
inductive Occurs (name : String) :
    Bool → SourceFile → Ty → List Nat → Nat → StructField → Prop
  | own {plain here owner steps file fs f} (h : ix.Underlies plain here owner steps file fs)
    (hf : f ∈ fs) (hname : f.name = name) :
    Occurs name (plain && !f.embedded) here owner [] steps f
  | promoted {plain plain' here owner steps steps' file fs i e path f}
    (h : ix.Underlies plain here owner steps file fs) (he : fs[i]? = some e)
    (hembedded : e.embedded = true) (hoccurs : Occurs name plain' file e.ty path steps' f) :
    Occurs name (plain && plain') here owner (i :: path) (steps + 1 + steps') f

/-- Go's selection: of all fields of that name there is exactly one at the shallowest depth. -/
structure Selects (name : String) (plain : Bool) (here : SourceFile) (owner : Ty) (path : List Nat)
    (steps : Nat) (f : StructField) : Prop where
  occurs : ix.Occurs name plain here owner path steps f
  unique : ∀ plain' path' steps' f', ix.Occurs name plain' here owner path' steps' f' →
    path'.length ≤ path.length → path' = path ∧ f' = f

/-- The plain place within a depth that is first in the order of paths: a field stands before what
is embedded, and what is embedded first before what is embedded later, each to its depth. -/
structure First (name : String) (depth : Nat) (here : SourceFile) (owner : Ty) (path : List Nat)
    (f : StructField) : Prop where
  occurs : ∃ steps ≤ depth, ix.Occurs name true here owner path steps f
  least : ∀ path' steps' f', ix.Occurs name true here owner path' steps' f' → steps' ≤ depth →
    path ≤ path'

end Index

namespace StructField

/-- The field is written with this name in front of its type. -/
def isWritten (name : String) (f : StructField) : Bool := !f.embedded && f.name == name

section
variable {file : SourceFile} {name : String} {d : Node} {f : StructField}

theorem isWritten_iff : f.isWritten name = true ↔ f.embedded = false ∧ f.name = name := by
  simp [isWritten]

theorem type_of_mem_ofNode (hf : f ∈ ofNode file d) (h : f.embedded = false) : f.type = f.ty := by
  unfold ofNode at hf
  split at hf
  · dsimp only at hf
    split at hf
    · obtain rfl := List.mem_singleton.1 hf
      cases h
    · obtain ⟨m, _, rfl⟩ := List.mem_map.1 hf
      rfl
  · cases hf

theorem type_of_mem_ofStruct? {ty : Node} {fs : List StructField}
    (h : ofStruct? file ty = some fs) (hf : f ∈ fs) (hwritten : f.embedded = false) :
    f.type = f.ty := by
  unfold ofStruct? at h
  split at h
  · obtain ⟨list, _, rfl⟩ := Option.map_eq_some_iff.1 h
    obtain ⟨d, _, hf⟩ := List.mem_flatMap.1 hf
    exact type_of_mem_ofNode hf hwritten
  · cases h

end
end StructField

/-! ## What the fields of one struct say -/

/-- A field is found by its written name, and else the embedded types are answered. -/
theorem scanFields_eq (file : SourceFile) (field : String) (ds : List Node) :
    let fs := ds.flatMap (StructField.ofNode file)
    (scanFields file field ds).1 = (fs.find? (·.isWritten field)).map (·.ty) ∧
      (fs.find? (·.isWritten field) = none →
        (scanFields file field ds).2 = (fs.filter (·.embedded)).map (·.ty)) := by
  induction ds with
  | nil => exact ⟨rfl, fun _ => rfl⟩
  | cons d ds ih =>
    obtain ⟨hfound, hembedded⟩ := ih
    simp only [List.flatMap_cons, List.find?_append, List.filter_append, List.map_append]
    generalize ds.flatMap (StructField.ofNode file) = rest at *
    unfold scanFields
    split
    · next t hkind htype =>
      have hfields : StructField.ofNode file d =
          if (d.fields .name).isEmpty then
            [⟨t.embeddedName, Ty.ofNode file t, true, d.children.any (·.text == "*")⟩]
          else (d.fields .name).map fun m => ⟨m.text, Ty.ofNode file t, false, false⟩ := by
        simp only [StructField.ofNode, hkind, htype]
      rw [hfields]
      dsimp only
      split
      · -- an embedded field is passed over
        exact ⟨hfound, fun hnone => congrArg (Ty.ofNode file t :: ·) (hembedded hnone)⟩
      · have hfind : ((d.fields .name).map fun m =>
            (⟨m.text, Ty.ofNode file t, false, false⟩ : StructField)).find? (·.isWritten field) =
              ((d.fields .name).find? (·.text == field)).map
                fun m => ⟨m.text, Ty.ofNode file t, false, false⟩ := by
          rw [List.find?_map]
          rfl
        have hfilter : ((d.fields .name).map fun m =>
            (⟨m.text, Ty.ofNode file t, false, false⟩ : StructField)).filter (·.embedded) = [] := by
          simp
        rw [hfind, hfilter]
        split
        · next hany =>
          obtain ⟨m, hm⟩ := Option.isSome_iff_exists.1 (List.find?_isSome.2 (List.any_eq_true.1 hany))
          rw [hm]
          exact ⟨rfl, fun hnone => nomatch hnone⟩
        · next hany =>
          have hnone : (d.fields .name).find? (·.text == field) = none := by
            simpa [List.find?_eq_none] using hany
          rw [hnone]
          exact ⟨hfound, hembedded⟩
    · next hother =>
      have hfields : StructField.ofNode file d = [] := by
        unfold StructField.ofNode
        split
        · next hkind htype => exact absurd htype (hother _ hkind)
        · rfl
      rw [hfields]
      exact ⟨hfound, hembedded⟩

/-! ## One step of the search -/

/-- The search among the fields of a struct, and then in the structs embedded in it, one after the
other. -/
def Index.searchFields (ix : Index) (file : SourceFile) (field : String) (fs : List StructField)
    (depth : Nat) : Option Ty :=
  ((fs.find? (·.isWritten field)).map (·.ty)).or <|
    match depth with
    | 0 => none
    | d + 1 => fs.findSome? fun e =>
        if e.embedded then fieldTypeWithin ix d file e.ty field else none

section
variable {ix : Index} {here file : SourceFile} {owner : Ty} {decl : Decl} {ty : Node}
  {field : String} {depth : Nat}

theorem fieldTypeWithin_none (h : ix.definition? here owner = none) :
    fieldTypeWithin ix depth here owner field = none := by
  rw [fieldTypeWithin, h]

theorem findSome?_embedded {α : Type} (fs : List StructField) (g : Ty → Option α) :
    ((fs.filter (·.embedded)).map (·.ty)).findSome? g =
      fs.findSome? fun e => if e.embedded then g e.ty else none := by
  induction fs with
  | nil => rfl
  | cons e fs ih =>
    rw [List.findSome?_cons, ← ih, List.filter_cons]
    split <;> rfl

theorem fieldTypeWithin_struct (h : ix.definition? here owner = some (decl, ty))
    (hkind : ty.kind = .structType) :
    fieldTypeWithin ix depth here owner field =
      (StructField.ofStruct? decl.file ty).bind fun fs =>
        ix.searchFields decl.file field fs depth := by
  rw [fieldTypeWithin, h]
  simp only [hkind, bne_self_eq_false, Bool.false_eq_true, if_false, StructField.ofStruct?, if_true]
  cases ty.named.find? (·.kind == .fieldDeclarationList) with
  | none => rfl
  | some list =>
    obtain ⟨hfound, hembedded⟩ := scanFields_eq decl.file field list.named
    simp only [Option.map_some, Option.bind_some, Index.searchFields]
    generalize list.named.flatMap (StructField.ofNode decl.file) = fs at *
    generalize scanFields decl.file field list.named = scanned at *
    obtain ⟨found, embedded⟩ := scanned
    dsimp only at hfound hembedded
    cases hwritten : fs.find? (·.isWritten field) with
    | some f =>
      rw [hfound, hwritten]
      rfl
    | none =>
      rw [hfound, hembedded hwritten, hwritten]
      cases depth with
      | zero => rfl
      | succ d => exact findSome?_embedded fs _

theorem fieldTypeWithin_defined (h : ix.definition? here owner = some (decl, ty))
    (hkind : ty.kind ≠ .structType) :
    fieldTypeWithin ix depth here owner field =
      match depth, Ty.ofNode decl.file ty with
      | d + 1, .named p n => fieldTypeWithin ix d decl.file (.named p n) field
      | _, _ => none := by
  rw [fieldTypeWithin, h]
  simp only [bne_iff_ne, ne_eq, hkind, not_false_eq_true, if_true]
  cases depth with
  | zero => rfl
  | succ d => cases Ty.ofNode decl.file ty <;> rfl

end

/-! ## The structs on the way -/

section
variable {ix : Index} {here file : SourceFile} {owner : Ty} {decl : Decl} {ty : Node}
  {fs : List StructField} {plain : Bool} {steps : Nat} {field : String} {path : List Nat}
  {f : StructField}

theorem Index.underlies_struct_iff (h : ix.definition? here owner = some (decl, ty))
    (hkind : ty.kind = .structType) :
    ix.Underlies plain here owner steps file fs ↔
      plain = true ∧ steps = 0 ∧ file = decl.file ∧ StructField.ofStruct? decl.file ty = some fs := by
  have hparen : ty.unparenType = ty := Node.unparenType_of_ne (by rw [hkind]; decide)
  constructor
  · intro hunder
    cases hunder with
    | struct h' hfields =>
      obtain ⟨rfl, rfl⟩ := Prod.mk.inj (Option.some.inj (h'.symm.trans h))
      exact ⟨by rw [hkind, beq_self_eq_true], rfl, rfl, hparen ▸ hfields⟩
    | defined h' hnamed _ =>
      obtain ⟨rfl, rfl⟩ := Prod.mk.inj (Option.some.inj (h'.symm.trans h))
      rw [Ty.ofNode_structType hkind] at hnamed
      cases hnamed
  · rintro ⟨rfl, rfl, rfl, hfields⟩
    have hunder := Underlies.struct h (hparen.symm ▸ hfields)
    rwa [hkind, beq_self_eq_true] at hunder

/-- A plain struct that is no struct type is one that another name is declared to be. -/
theorem Index.underlies_defined_iff (h : ix.definition? here owner = some (decl, ty))
    (hkind : ty.kind ≠ .structType) :
    ix.Underlies true here owner steps file fs ↔
      ∃ package name rest, Ty.ofNode decl.file ty = .named package name ∧ steps = rest + 1 ∧
        ix.Underlies true decl.file (.named package name) rest file fs := by
  constructor
  · intro hunder
    obtain ⟨plain, hplain, hunder⟩ : ∃ plain, plain = true ∧
        ix.Underlies plain here owner steps file fs := ⟨true, rfl, hunder⟩
    cases hunder with
    | struct h' hfields =>
      obtain ⟨rfl, rfl⟩ := Prod.mk.inj (Option.some.inj (h'.symm.trans h))
      exact absurd (eq_of_beq hplain) hkind
    | defined h' hnamed hunder =>
      obtain ⟨rfl, rfl⟩ := Prod.mk.inj (Option.some.inj (h'.symm.trans h))
      exact ⟨_, _, _, hnamed, rfl, hplain ▸ hunder⟩
  · rintro ⟨package, name, rest, hnamed, rfl, hunder⟩
    exact .defined h hnamed hunder

/-- The places of a field in a struct: among its fields, or in a struct embedded in it. -/
theorem Index.occurs_iff : ix.Occurs field plain here owner path steps f ↔
    ∃ p above file fs, ix.Underlies p here owner above file fs ∧
      (path = [] ∧ steps = above ∧ plain = (p && !f.embedded) ∧ f ∈ fs ∧ f.name = field ∨
        ∃ i e rest q steps', path = i :: rest ∧ steps = above + 1 + steps' ∧ plain = (p && q) ∧
          fs[i]? = some e ∧ e.embedded = true ∧ ix.Occurs field q file e.ty rest steps' f) := by
  constructor
  · intro h
    cases h with
    | own hunder hf hname =>
      exact ⟨_, _, _, _, hunder, .inl ⟨rfl, rfl, rfl, hf, hname⟩⟩
    | promoted hunder he hembedded hoccurs =>
      exact ⟨_, _, _, _, hunder, .inr ⟨_, _, _, _, _, rfl, rfl, rfl, he, hembedded, hoccurs⟩⟩
  · rintro ⟨p, above, file, fs, hunder, ⟨rfl, rfl, rfl, hf, hname⟩ |
      ⟨i, e, rest, q, steps', rfl, rfl, rfl, he, hembedded, hoccurs⟩⟩
    · exact .own hunder hf hname
    · exact .promoted hunder he hembedded hoccurs

theorem Index.occurs_struct_iff (h : ix.definition? here owner = some (decl, ty))
    (hkind : ty.kind = .structType) :
    ix.Occurs field plain here owner path steps f ↔
      ∃ fs, StructField.ofStruct? decl.file ty = some fs ∧
        (path = [] ∧ steps = 0 ∧ plain = !f.embedded ∧ f ∈ fs ∧ f.name = field ∨
          ∃ i e rest steps', path = i :: rest ∧ steps = steps' + 1 ∧ fs[i]? = some e ∧
            e.embedded = true ∧ ix.Occurs field plain decl.file e.ty rest steps' f) := by
  rw [occurs_iff]
  simp only [underlies_struct_iff h hkind]
  constructor
  · rintro ⟨_, _, _, fs, ⟨rfl, rfl, rfl, hfields⟩, ⟨rfl, rfl, rfl, hf⟩ |
      ⟨i, e, rest, q, steps', rfl, rfl, rfl, he⟩⟩
    · exact ⟨fs, hfields, .inl ⟨rfl, rfl, Bool.true_and _, hf⟩⟩
    · exact ⟨fs, hfields, .inr ⟨i, e, rest, steps', rfl, by omega, he⟩⟩
  · rintro ⟨fs, hfields, ⟨rfl, rfl, rfl, hf⟩ | ⟨i, e, rest, steps', rfl, rfl, he⟩⟩
    · exact ⟨true, 0, _, fs, ⟨rfl, rfl, rfl, hfields⟩, .inl ⟨rfl, rfl, rfl, hf⟩⟩
    · exact ⟨true, 0, _, fs, ⟨rfl, rfl, rfl, hfields⟩,
        .inr ⟨i, e, rest, plain, steps', rfl, by omega, rfl, he⟩⟩

theorem Index.occurs_defined_iff (h : ix.definition? here owner = some (decl, ty))
    (hkind : ty.kind ≠ .structType) :
    ix.Occurs field true here owner path steps f ↔
      ∃ package name rest, Ty.ofNode decl.file ty = .named package name ∧ steps = rest + 1 ∧
        ix.Occurs field true decl.file (.named package name) path rest f := by
  constructor
  · intro hoccurs
    obtain ⟨p, above, file, fs, hunder, hplace⟩ := occurs_iff.1 hoccurs
    obtain rfl : p = true := by
      rcases hplace with ⟨-, -, hplain, -⟩ | ⟨_, _, _, _, _, -, -, hplain, -⟩ <;>
        exact (Bool.and_eq_true_iff.1 hplain.symm).1
    obtain ⟨package, name, above, hnamed, rfl, hnext⟩ := (underlies_defined_iff h hkind).1 hunder
    rcases hplace with ⟨hpath, rfl, hf⟩ | ⟨i, e, rest, q, steps', hpath, rfl, he⟩
    · exact ⟨package, name, above, hnamed, rfl, occurs_iff.2
        ⟨true, above, file, fs, hnext, .inl ⟨hpath, rfl, hf⟩⟩⟩
    · exact ⟨package, name, above + 1 + steps', hnamed, by omega, occurs_iff.2
        ⟨true, above, file, fs, hnext, .inr ⟨i, e, rest, q, steps', hpath, rfl, he⟩⟩⟩
  · rintro ⟨package, name, rest, hnamed, rfl, hoccurs⟩
    obtain ⟨p, above, file, fs, hunder, hplace⟩ := occurs_iff.1 hoccurs
    refine occurs_iff.2 ⟨p, above + 1, file, fs, .defined h hnamed hunder, ?_⟩
    rcases hplace with ⟨hpath, rfl, hf⟩ | ⟨i, e, rest', q, steps', hpath, rfl, he⟩
    · exact .inl ⟨hpath, rfl, hf⟩
    · exact .inr ⟨i, e, rest', q, steps', hpath, by omega, he⟩

end

/-! ## The whole search -/

section
variable {ix : Index} {here file : SourceFile} {owner t : Ty} {field : String} {depth steps : Nat}
  {fs : List StructField} {path : List Nat} {f : StructField}

theorem Index.exists_definition?_of_occurs {plain : Bool}
    (h : ix.Occurs field plain here owner path steps f) :
    ∃ d, ix.definition? here owner = some d := by
  have hunder {plain steps file fs} (h : ix.Underlies plain here owner steps file fs) :
      ∃ d, ix.definition? here owner = some d := by
    cases h with
    | struct h _ => exact ⟨_, h⟩
    | defined h _ _ => exact ⟨_, h⟩
  cases h with
  | own h _ _ => exact hunder h
  | promoted h _ _ _ => exact hunder h

theorem Index.searchFields_eq_none (h : ix.searchFields file field fs depth = none) :
    (∀ f ∈ fs, f.isWritten field = false) ∧
      ∀ d, depth = d + 1 → ∀ e ∈ fs, e.embedded = true →
        fieldTypeWithin ix d file e.ty field = none := by
  obtain ⟨hwritten, hdeeper⟩ := Option.or_eq_none_iff.1 h
  refine ⟨by simpa using hwritten, ?_⟩
  rintro d rfl e he hembedded
  have := List.findSome?_eq_none_iff.1 hdeeper e he
  rwa [if_pos hembedded] at this

theorem Index.searchFields_eq_some (h : ix.searchFields file field fs depth = some t) :
    (∃ f ∈ fs, f.isWritten field = true ∧ f.ty = t) ∨
      (∀ f ∈ fs, f.isWritten field = false) ∧ ∃ d before e after, depth = d + 1 ∧
        fs = before ++ e :: after ∧ e.embedded = true ∧
          fieldTypeWithin ix d file e.ty field = some t ∧
            ∀ e' ∈ before, e'.embedded = true → fieldTypeWithin ix d file e'.ty field = none := by
  rcases Option.or_eq_some_iff.1 h with hwritten | ⟨hwritten, hdeeper⟩
  · obtain ⟨f, hf, rfl⟩ := Option.map_eq_some_iff.1 hwritten
    exact .inl ⟨f, List.mem_of_find?_eq_some hf, List.find?_some hf, rfl⟩
  · refine .inr ⟨by simpa using hwritten, ?_⟩
    cases depth with
    | zero => cases hdeeper
    | succ d =>
      obtain ⟨before, e, after, hfs, he, hbefore⟩ := List.findSome?_eq_some_iff.1 hdeeper
      obtain ⟨hembedded, he⟩ := Option.ite_none_right_eq_some.1 he
      refine ⟨d, before, e, after, rfl, hfs, hembedded, he, fun e' he' hembedded' => ?_⟩
      have := hbefore e' he'
      rwa [if_pos hembedded'] at this

/-- A search that finds nothing has no plain place within its depth. -/
theorem lt_of_fieldTypeWithin_eq_none (h : fieldTypeWithin ix depth here owner field = none)
    (hoccurs : ix.Occurs field true here owner path steps f) : depth < steps := by
  induction depth using Nat.strongRecOn generalizing here owner path steps with
  | _ depth ih =>
    obtain ⟨⟨decl, ty⟩, hdef⟩ := Index.exists_definition?_of_occurs hoccurs
    by_cases hkind : ty.kind = .structType
    · obtain ⟨fs, hfields, hplace⟩ := (Index.occurs_struct_iff hdef hkind).1 hoccurs
      rw [fieldTypeWithin_struct hdef hkind, hfields] at h
      obtain ⟨hwritten, hdeeper⟩ := Index.searchFields_eq_none h
      rcases hplace with ⟨-, -, hplain, hf, hname⟩ |
        ⟨i, e, rest, steps', -, rfl, he, hembedded, hrest⟩
      · have := StructField.isWritten_iff.2 ⟨by simpa using hplain.symm, hname⟩
        exact absurd this (by simp [hwritten f hf])
      · -- one step into the embedded struct costs the search one of its depth
        cases depth with
        | zero => exact Nat.succ_pos steps'
        | succ d =>
          have hnone := hdeeper d rfl e (List.mem_of_getElem? he) hembedded
          exact Nat.succ_lt_succ (ih d (Nat.lt_succ_self d) hnone hrest)
    · obtain ⟨package, name, rest, hnamed, rfl, hrest⟩ :=
        (Index.occurs_defined_iff hdef hkind).1 hoccurs
      rw [fieldTypeWithin_defined hdef hkind, hnamed] at h
      cases depth with
      | zero => exact Nat.succ_pos rest
      | succ d => exact Nat.succ_lt_succ (ih d (Nat.lt_succ_self d) h hrest)

/-- What a search finds is the type of the first plain place within its depth. -/
theorem first_of_fieldTypeWithin (h : fieldTypeWithin ix depth here owner field = some t) :
    ∃ path f, ix.First field depth here owner path f ∧ f.type = t := by
  induction depth using Nat.strongRecOn generalizing here owner with
  | _ depth ih =>
    cases hdef : ix.definition? here owner with
    | none =>
      rw [fieldTypeWithin_none hdef] at h
      cases h
    | some d =>
      obtain ⟨decl, ty⟩ := d
      -- a struct type has the field or embeds types to search; any other definition leads to a type
      -- by name
      by_cases hkind : ty.kind = .structType
      · have hplace {path steps f} : ix.Occurs field true here owner path steps f ↔ _ :=
          Index.occurs_struct_iff hdef hkind
        rw [fieldTypeWithin_struct hdef hkind] at h
        obtain ⟨fs, hfields, h⟩ := Option.bind_eq_some_iff.1 h
        simp only [hfields, Option.some.injEq, exists_eq_left'] at hplace
        rcases Index.searchFields_eq_some h with ⟨f, hf, hname, rfl⟩ |
          ⟨hwritten, d, before, e, after, rfl, rfl, hembedded, he, hbefore⟩
        · obtain ⟨hwritten, hname⟩ := StructField.isWritten_iff.1 hname
          exact ⟨[], f, ⟨⟨0, Nat.zero_le _, hplace.2 (.inl ⟨rfl, rfl, by rw [hwritten]; rfl, hf,
            hname⟩)⟩, fun _ _ _ _ _ => not_lt.1 (List.not_lt_nil _)⟩,
            StructField.type_of_mem_ofStruct? hfields hf hwritten⟩
        · obtain ⟨path, f, ⟨⟨steps, hsteps, hoccurs⟩, hleast⟩, htype⟩ :=
            ih d (Nat.lt_succ_self d) he
          refine ⟨before.length :: path, f, ⟨⟨steps + 1, Nat.succ_le_succ hsteps, ?_⟩, ?_⟩, htype⟩
          · exact hplace.2 (.inr ⟨_, e, path, steps, rfl, rfl, by simp, hembedded, hoccurs⟩)
          · intro path' steps' f' hoccurs' hsteps'
            rcases hplace.1 hoccurs' with ⟨-, -, hplain, hf', hname⟩ |
              ⟨i, e', rest, steps', rfl, rfl, he', hembedded', hrest⟩
            · have := StructField.isWritten_iff.2 ⟨by simpa using hplain.symm, hname⟩
              exact absurd this (by simp [hwritten f' hf'])
            · have hsteps' := Nat.le_of_succ_le_succ hsteps'
              rcases Nat.lt_trichotomy before.length i with hi | rfl | hi
              · exact le_of_lt (List.Lex.rel hi)
              · obtain rfl : e = e' := by simpa using he'
                exact List.cons_le_cons _ (hleast _ _ _ hrest hsteps')
              · -- nothing is found in what is embedded before
                rw [List.getElem?_append_left hi] at he'
                have hnone := hbefore e' (List.mem_of_getElem? he') hembedded'
                exact absurd hsteps' (Nat.not_le.2 (lt_of_fieldTypeWithin_eq_none hnone hrest))
      · rw [fieldTypeWithin_defined hdef hkind] at h
        have hplace {path steps f} : ix.Occurs field true here owner path steps f ↔ _ :=
          Index.occurs_defined_iff hdef hkind
        split at h
        · next d package name hnamed =>
          simp only [hnamed, Ty.named.injEq] at hplace
          obtain ⟨path, f, ⟨⟨steps, hsteps, hoccurs⟩, hleast⟩, htype⟩ :=
            ih d (Nat.lt_succ_self d) h
          refine ⟨path, f, ⟨⟨steps + 1, Nat.succ_le_succ hsteps,
            hplace.2 ⟨_, _, _, ⟨rfl, rfl⟩, rfl, hoccurs⟩⟩, ?_⟩, htype⟩
          intro path' steps' f' hoccurs' hsteps'
          obtain ⟨_, _, rest, ⟨rfl, rfl⟩, rfl, hrest⟩ := hplace.1 hoccurs'
          exact hleast _ _ _ hrest (Nat.le_of_succ_le_succ hsteps')
        · cases h

theorem Index.First.path_unique {path' : List Nat} {f' : StructField}
    (h : ix.First field depth here owner path f) (h' : ix.First field depth here owner path' f') :
    path = path' := by
  obtain ⟨steps, hsteps, hoccurs⟩ := h.occurs
  obtain ⟨steps', hsteps', hoccurs'⟩ := h'.occurs
  exact le_antisymm (h.least _ _ _ hoccurs' hsteps') (h'.least _ _ _ hoccurs hsteps)

/-- The field that is selected is found, if its place is the first in the order of paths. Else the
first one is found, and that lies deeper. -/
theorem fieldType?_selected (hsel : ix.Selects field true here owner path steps f)
    (hsteps : steps ≤ maxEmbedding) :
    (ix.First field maxEmbedding here owner path f →
      fieldType? ix here owner field = some f.type) ∧
      (¬ ix.First field maxEmbedding here owner path f →
        ∃ path' f', ix.First field maxEmbedding here owner path' f' ∧
          fieldType? ix here owner field = some f'.type ∧
            path' < path ∧ path.length < path'.length) := by
  obtain ⟨t, ht⟩ : ∃ t, fieldType? ix here owner field = some t := by
    cases hfound : fieldType? ix here owner field with
    | none =>
      exact absurd hsteps (Nat.not_le.2 (lt_of_fieldTypeWithin_eq_none hfound hsel.occurs))
    | some t => exact ⟨t, rfl⟩
  obtain ⟨path', f', hfirst, rfl⟩ := first_of_fieldTypeWithin ht
  obtain ⟨steps', hsteps', hoccurs⟩ := hfirst.occurs
  constructor
  · intro hself
    have hpath := hfirst.path_unique hself
    obtain ⟨_, rfl⟩ := hsel.unique _ _ _ _ hoccurs (Nat.le_of_eq (congrArg List.length hpath))
    exact ht
  · intro hother
    have hdeeper : path.length < path'.length := by
      refine Nat.lt_of_not_le fun hlength => hother ?_
      obtain ⟨rfl, rfl⟩ := hsel.unique _ _ _ _ hoccurs hlength
      exact hfirst
    refine ⟨path', f', hfirst, ht, ?_, hdeeper⟩
    rcases lt_or_eq_of_le (hfirst.least _ _ _ hsel.occurs hsteps) with hlt | rfl
    · exact hlt
    · exact absurd hdeeper (Nat.lt_irrefl _)

end

/-! ## Structs of a program -/

section
variable {p : Program} {package name field : String} {fs : List StructField} {depth steps : Nat}
  {path : List Nat} {f : StructField} {plain : Bool}

/-- The fields of the only declaration of a name. -/
def Program.StructIs (p : Program) (package name : String) (fs : List StructField) : Prop :=
  (p.declarations.filterMap (Declaration.typeOf? (package, name))).map
    (fun d => (d.node.field? .type).bind (StructField.ofStruct? d.file)) = [some fs]

instance : Decidable (p.StructIs package name fs) := inferInstanceAs (Decidable (_ = _))

theorem Program.StructIs.definition? (h : p.StructIs package name fs) (here : SourceFile) :
    ∃ decl ty, (Index.build p).definition? here (.declared package name) = some (decl, ty) ∧
      StructField.ofStruct? decl.file ty = some fs := by
  obtain ⟨decl, hdecl, hfields⟩ := List.map_eq_singleton_iff.1 h
  obtain ⟨ty, hty, hfields⟩ := Option.bind_eq_some_iff.1 hfields
  refine ⟨decl, ty, ?_, hfields⟩
  have htype : (Index.build p).type? here package name = some decl := by
    rw [Index.type?, (Index.lists_build p _).types, hdecl, Index.pick, List.find?_singleton]
    split <;> rfl
  simp only [Index.definition?, Ty.declared, Ty.elem, htype, hty, Option.bind_eq_bind,
    Option.bind_some, Option.pure_def]

theorem StructField.kind_of_ofStruct? {file : SourceFile} {ty : Node}
    (h : ofStruct? file ty = some fs) : ty.kind = .structType := by
  unfold ofStruct? at h
  split at h
  · assumption
  · cases h

theorem Program.StructIs.occurs_iff (h : p.StructIs package name fs) (field : String)
    (here : SourceFile) : ∃ file, ∀ plain path steps f,
      (Index.build p).Occurs field plain here (.declared package name) path steps f ↔
        path = [] ∧ steps = 0 ∧ plain = !f.embedded ∧ f ∈ fs ∧ f.name = field ∨
          ∃ i e rest steps', path = i :: rest ∧ steps = steps' + 1 ∧ fs[i]? = some e ∧
            e.embedded = true ∧ (Index.build p).Occurs field plain file e.ty rest steps' f := by
  obtain ⟨decl, ty, hdef, hfields⟩ := h.definition? here
  refine ⟨decl.file, fun plain path steps f => ?_⟩
  rw [Index.occurs_struct_iff hdef (StructField.kind_of_ofStruct? hfields), hfields]
  simp only [Option.some.injEq, exists_eq_left']

theorem Program.StructIs.mem_of_occurs (h : p.StructIs package name fs)
    (hflat : ∀ e ∈ fs, e.embedded = false) {here : SourceFile}
    (hoccurs : (Index.build p).Occurs field plain here (.declared package name) path steps f) :
    path = [] ∧ f ∈ fs ∧ f.name = field := by
  obtain ⟨file, hplace⟩ := h.occurs_iff field here
  rcases (hplace ..).1 hoccurs with ⟨hpath, -, -, hf⟩ | ⟨_, e, _, _, -, -, he, hembedded, -⟩
  · exact ⟨hpath, hf⟩
  · rw [hflat e (List.mem_of_getElem? he)] at hembedded
    cases hembedded

theorem Program.StructIs.exists_of_occurs (h : p.StructIs package name fs)
    (hnames : ∀ e ∈ fs, e.name ≠ field) {here : SourceFile}
    (hoccurs : (Index.build p).Occurs field plain here (.declared package name) path steps f) :
    ∃ i e file rest steps', path = i :: rest ∧ fs[i]? = some e ∧
      (Index.build p).Occurs field plain file e.ty rest steps' f := by
  obtain ⟨file, hplace⟩ := h.occurs_iff field here
  rcases (hplace ..).1 hoccurs with ⟨-, -, -, hf, hname⟩ | ⟨i, e, rest, steps', hpath, -, he, -, h⟩
  · exact absurd hname (hnames f hf)
  · exact ⟨i, e, file, rest, steps', hpath, he, h⟩

theorem Program.StructIs.occurs_own (h : p.StructIs package name fs) (here : SourceFile)
    (hf : f ∈ fs) (hname : f.name = field) :
    (Index.build p).Occurs field (!f.embedded) here (.declared package name) [] 0 f := by
  obtain ⟨file, hplace⟩ := h.occurs_iff field here
  exact (hplace ..).2 (.inl ⟨rfl, rfl, rfl, hf, hname⟩)

theorem Program.StructIs.fieldTypeWithin_eq (h : p.StructIs package name fs) (depth : Nat)
    (field : String) (here : SourceFile) :
    ∃ file, fieldTypeWithin (.build p) depth here (.declared package name) field =
      (Index.build p).searchFields file field fs depth := by
  obtain ⟨decl, ty, hdef, hfields⟩ := h.definition? here
  exact ⟨decl.file, by
    rw [fieldTypeWithin_struct hdef (StructField.kind_of_ofStruct? hfields), hfields]; rfl⟩

end

/-- Two structs with `X` in an embedded struct and, deeper, in another one, which is embedded later
in `S` and earlier in `T`. -/
def promoting : List String :=
  ["type D struct { X int }", "type A struct { Y int }",
    "type B struct { X string }", "type C struct { D }",
    "type S struct { A; *B; C }", "type T struct { C; *B }"]

/-- A field of the sample that is embedded. -/
def embed (name : String) (starred : Bool) : StructField :=
  ⟨name, .declared "api" name, true, starred⟩

theorem structs_promoting :
    let p := Program.mk [.sample promoting]
    p.StructIs "api" "S" [embed "A" false, embed "B" true, embed "C" false] ∧
      p.StructIs "api" "T" [embed "C" false, embed "B" true] ∧
      p.StructIs "api" "A" [⟨"Y", .int, false, false⟩] ∧
      p.StructIs "api" "B" [⟨"X", .string, false, false⟩] ∧
      p.StructIs "api" "C" [embed "D" false] ∧
      p.StructIs "api" "D" [⟨"X", .int, false, false⟩] := by
  simp only [promoting, SourceFile.sample_eq, SourceFile.chars, String.reduceToList]
  decide +kernel

/-- The field `X` of `B` is selected in `S`, and found before the deeper one. -/
theorem fieldType?_selected_promoting :
    let ix := Index.build ⟨[.sample promoting]⟩
    let f : StructField := ⟨"X", .string, false, false⟩
    ix.Selects "X" true (.sample promoting) (.declared "api" "S") [1] 1 f ∧
      ix.First "X" maxEmbedding (.sample promoting) (.declared "api" "S") [1] f ∧
      fieldType? ix (.sample promoting) (.declared "api" "S") "X" = some .string := by
  intro ix f
  obtain ⟨hS, -, hA, hB, hC, -⟩ := structs_promoting
  have hoccurs : ix.Occurs "X" true (.sample promoting) (.declared "api" "S") [1] 1 f := by
    obtain ⟨file, hplace⟩ := hS.occurs_iff "X" (.sample promoting)
    exact (hplace ..).2 (.inr ⟨1, _, [], 0, rfl, rfl, rfl, rfl,
      hB.occurs_own file (List.mem_singleton_self _) rfl⟩)
  have hall {plain path steps f'} (h : ix.Occurs "X" plain (.sample promoting)
      (.declared "api" "S") path steps f') :
      path = [1] ∧ f' = f ∨ ∃ j rest, path = 2 :: j :: rest := by
    obtain ⟨i, e, file, rest, steps', rfl, he, h⟩ := hS.exists_of_occurs (by decide) h
    match i, he with
    | 0, he =>
      obtain rfl := Option.some.inj he
      obtain ⟨-, hf, hname⟩ := hA.mem_of_occurs (by decide) h
      obtain rfl := List.mem_singleton.1 hf
      exact absurd hname (by decide)
    | 1, he =>
      obtain rfl := Option.some.inj he
      obtain ⟨rfl, hf, -⟩ := hB.mem_of_occurs (by decide) h
      exact .inl ⟨rfl, List.mem_singleton.1 hf⟩
    | 2, he =>
      obtain rfl := Option.some.inj he
      obtain ⟨j, _, _, rest, _, rfl, -⟩ := hC.exists_of_occurs (by decide) h
      exact .inr ⟨j, rest, rfl⟩
  have hsel : ix.Selects "X" true (.sample promoting) (.declared "api" "S") [1] 1 f := by
    refine ⟨hoccurs, fun plain path steps f' h hlength => ?_⟩
    rcases hall h with hself | ⟨j, rest, rfl⟩
    · exact hself
    · exact absurd hlength (by simp)
  have hfirst : ix.First "X" maxEmbedding (.sample promoting) (.declared "api" "S") [1] f := by
    refine ⟨⟨1, by decide, hoccurs⟩, fun path steps f' h _ => ?_⟩
    rcases hall h with ⟨rfl, -⟩ | ⟨j, rest, rfl⟩
    · exact le_refl _
    · exact le_of_lt (List.Lex.rel (by decide))
  exact ⟨hsel, hfirst, (fieldType?_selected hsel (by decide)).1 hfirst⟩

/-- In `T` the field `X` of `B` is selected and the deeper one is found, and the embedded field `B`
is selected and not found. -/
theorem fieldType?_misses : ∃ sources p, Program.ofSources sources = .ok p ∧
    ∃ here ∈ p.files, ∃ f b,
      (Index.build p).Selects "X" true here (.declared "api" "T") [1] 1 f ∧ f.type = .string ∧
      fieldType? (.build p) here (.declared "api" "T") "X" = some .int ∧
      (Index.build p).Selects "B" false here (.declared "api" "T") [] 0 b ∧
      b.type = .pointer (.declared "api" "B") ∧
      fieldType? (.build p) here (.declared "api" "T") "B" = none := by
  obtain ⟨-, hT, -, hB, hC, hD⟩ := structs_promoting
  refine ⟨_, _, Program.ofSources_sample promoting, _, List.mem_singleton_self _,
    ⟨"X", .string, false, false⟩, embed "B" true, ⟨?_, ?_⟩, rfl, ?_, ⟨?_, ?_⟩, rfl, ?_⟩
  · obtain ⟨file, hplace⟩ := hT.occurs_iff "X" (.sample promoting)
    exact (hplace ..).2 (.inr ⟨1, _, [], 0, rfl, rfl, rfl, rfl,
      hB.occurs_own file (List.mem_singleton_self _) rfl⟩)
  · intro plain path steps f h hlength
    obtain ⟨i, e, file, rest, steps', rfl, he, h⟩ := hT.exists_of_occurs (by decide) h
    match i, he with
    | 0, he =>
      obtain rfl := Option.some.inj he
      obtain ⟨j, _, _, rest, _, rfl, -⟩ := hC.exists_of_occurs (by decide) h
      exact absurd hlength (by simp)
    | 1, he =>
      obtain rfl := Option.some.inj he
      obtain ⟨rfl, hf, -⟩ := hB.mem_of_occurs (by decide) h
      exact ⟨rfl, List.mem_singleton.1 hf⟩
  · obtain ⟨file, hsearchT⟩ := hT.fieldTypeWithin_eq 8 "X" (.sample promoting)
    obtain ⟨file', hsearchC⟩ := hC.fieldTypeWithin_eq 7 "X" file
    obtain ⟨_, hsearchD⟩ := hD.fieldTypeWithin_eq 6 "X" file'
    rw [fieldType?, maxEmbedding, hsearchT]
    simp [Index.searchFields, StructField.isWritten, embed, hsearchC, hsearchD]
  · exact hT.occurs_own (f := embed "B" true) _ (by decide) rfl
  · intro plain path steps f h hlength
    obtain rfl := List.eq_nil_of_length_eq_zero (Nat.le_zero.1 hlength)
    obtain ⟨_, hplace⟩ := hT.occurs_iff "B" (.sample promoting)
    rcases (hplace ..).1 h with ⟨-, -, -, hf, hname⟩ | ⟨_, _, _, _, hpath, -⟩
    · have hall : ∀ f ∈ [embed "C" false, embed "B" true], f.name = "B" → f = embed "B" true := by
        decide
      exact ⟨rfl, hall f hf hname⟩
    · cases hpath
  · obtain ⟨file, hsearchT⟩ := hT.fieldTypeWithin_eq 8 "B" (.sample promoting)
    obtain ⟨file', hsearchC⟩ := hC.fieldTypeWithin_eq 7 "B" file
    obtain ⟨_, hsearchB⟩ := hB.fieldTypeWithin_eq 7 "B" file
    obtain ⟨_, hsearchD⟩ := hD.fieldTypeWithin_eq 6 "B" file'
    rw [fieldType?, maxEmbedding, hsearchT]
    simp [Index.searchFields, StructField.isWritten, embed, hsearchC, hsearchB, hsearchD]

end RouteCheck
