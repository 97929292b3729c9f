import RouteCheck.Proofs.Types.Scripts

/-!
The types of a program are spelled as a source spells them.

Names and lengths come into a type from the nodes that it is read off, and the names of packages from
package clauses and imports. What an import path stands for is cut from a string literal and can be
any text, so that the names of the imported packages are assumed to be names of packages; all else is
known of the trees of source texts.

Main statements:
  1. `Ty.spelledIn_plain` and the lemmas that follow it: to be spelled as in a source is to be
     written in a script.
  2. `Program.writtenIn_plain`: what is assumed of the imports of a program is enough.
  3. `Program.spelled_index`, `Typer.Spelled.typeOf`, `Typer.spelled_enclosing`: the types that are
     found in the program.
-/

namespace RouteCheck
open Token (IsWord Bracketed)

/-- The tree is that of a source, and packages have names of packages. -/
structure SourceFile.Spelled (f : SourceFile) : Prop where
  package : Ty.IsPackageName f.package
  imports : ∀ i ∈ f.imports, Ty.IsPackageName i.2
  tree : f.tree.Below

/-- So has every file that the index finds something in. -/
structure Index.Spelled (ix : Index) : Prop where
  function : ∀ {here package name d}, ix.function? here package name = some d →
    d.file.Spelled ∧ d.node.Below
  method : ∀ {here package receiver name d}, ix.method? here package receiver name = some d →
    d.file.Spelled ∧ d.node.Below
  type : ∀ {here package name d}, ix.type? here package name = some d →
    d.file.Spelled ∧ d.node.Below
  value : ∀ {here package name d}, ix.value? here package name = some d →
    d.file.Spelled ∧ d.spec.Below

/-- So has the file of the typer, and the local declarations have such types. -/
structure Typer.Spelled (t : Typer) : Prop where
  index : t.index.Spelled
  file : t.file.Spelled
  locals : ∀ b ∈ t.locals, b.ty.Spelled

/-! ## The script of a source -/

theorem Ty.isPackageName_of_isWord {name : String} (h : IsWord name) : IsPackageName name :=
  fun _ hc hmem => not_mem_of_isWord (isWordChar_eq_false hmem) h hc

/-- Names of packages, and lengths that close where their brackets do. -/
def Script.plain : Script where
  package := Ty.IsPackageName
  length l := Bracketed l.toList ∧ l ≠ ""
  word := Ty.isPackageName_of_isWord
  empty := fun _ hc => absurd hc List.not_mem_nil

theorem Ty.spelledIn_plain {t : Ty} : t.SpelledIn .plain ↔ t.Spelled := by
  induction t with
  | named p n => cases p <;> exact .rfl
  | pointer t ih | slice t ih | chan t ih => exact ih
  | array l t ih => exact and_congr_right fun _ => ih
  | map k v ihk ihv => exact and_congr ihk ihv
  | func | interface | struct | untypedNil | unknown => exact .rfl

theorem Node.Below.belowIn_plain {n : Node} (h : n.Below) : n.BelowIn .plain :=
  ⟨h, fun _ hm hk _ hl => (h.mem_all hm).bracketed hk hl⟩

theorem Node.belowIn_plain {n : Node} : n.BelowIn .plain ↔ n.Below :=
  ⟨BelowIn.below, Below.belowIn_plain⟩

theorem SourceFile.spelledIn_plain {f : SourceFile} : f.SpelledIn .plain ↔ f.Spelled :=
  ⟨fun h => ⟨h.package, h.imports, h.tree.below⟩,
    fun h => ⟨h.package, h.imports, h.tree.belowIn_plain⟩⟩

theorem Index.spelledIn_plain {ix : Index} : ix.SpelledIn .plain ↔ ix.Spelled := by
  have hfound {f : SourceFile} {n : Node} :
      f.SpelledIn .plain ∧ n.BelowIn .plain ↔ f.Spelled ∧ n.Below :=
    and_congr SourceFile.spelledIn_plain Node.belowIn_plain
  exact ⟨fun h => ⟨fun hd => hfound.1 (h.function hd), fun hd => hfound.1 (h.method hd),
      fun hd => hfound.1 (h.type hd), fun hd => hfound.1 (h.value hd)⟩,
    fun h => ⟨fun hd => hfound.2 (h.function hd), fun hd => hfound.2 (h.method hd),
      fun hd => hfound.2 (h.type hd), fun hd => hfound.2 (h.value hd)⟩⟩

theorem Typer.spelledIn_plain {t : Typer} : t.SpelledIn .plain ↔ t.Spelled :=
  ⟨fun h => ⟨Index.spelledIn_plain.1 h.index, SourceFile.spelledIn_plain.1 h.file,
      fun b hb => Ty.spelledIn_plain.1 (h.locals b hb)⟩,
    fun h => ⟨Index.spelledIn_plain.2 h.index, SourceFile.spelledIn_plain.2 h.file,
      fun b hb => Ty.spelledIn_plain.2 (h.locals b hb)⟩⟩

/-! ## Types and typers -/

theorem Ty.Spelled.elem {t : Ty} (h : t.Spelled) : t.elem.Spelled :=
  spelledIn_plain.1 (spelledIn_plain.2 h).elem

theorem Ty.Spelled.ptrOrNil {t : Ty} (h : t.Spelled) : t.ptrOrNil.Spelled :=
  spelledIn_plain.1 (spelledIn_plain.2 h).ptrOrNil

theorem Typer.Spelled.typeOf {t : Typer} {n : Node} (ht : t.Spelled) (hn : n.Below) :
    (t.typeOf n).Spelled :=
  Ty.spelledIn_plain.1 ((spelledIn_plain.2 ht).typeOf hn.belowIn_plain)

/-- A typer with the declarations of the function around a node. -/
theorem Typer.spelled_enclosing {index : Index} {file : SourceFile} (hindex : index.Spelled)
    (hfile : file.Spelled) (n : Node) : (enclosing index file n).Spelled :=
  spelledIn_plain.1 (spelledIn_enclosing (Index.spelledIn_plain.2 hindex)
    (SourceFile.spelledIn_plain.2 hfile) n)

/-! ## Programs -/

namespace Program

variable {p : Program}

/-- The packages that the files of the program import have names of packages. -/
def PlainImports (p : Program) : Prop :=
  ∀ f ∈ p.files, ∀ i ∈ f.imports, Ty.IsPackageName i.2

instance (p : Program) : Decidable p.PlainImports :=
  inferInstanceAs (Decidable (∀ f ∈ p.files, ∀ i ∈ f.imports, Ty.IsPackageName i.2))

/-- Nothing more is assumed of a program but its imports. -/
theorem writtenIn_plain (hp : p.Parsed) (himports : p.PlainImports) :
    p.WrittenIn .plain :=
  ⟨himports, fun _ hf => (hp.trees _ hf).below.belowIn_plain.lengths⟩

/-- What the index of a program finds stands in a file of the program. -/
theorem spelled_index (hp : p.Parsed) (himports : p.PlainImports) :
    (Index.build p).Spelled :=
  Index.spelledIn_plain.1 (spelledIn_index hp (writtenIn_plain hp himports))

end Program
end RouteCheck
