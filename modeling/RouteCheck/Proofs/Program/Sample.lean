import RouteCheck.Program.Program

/-!
Sample files, and reading a file from its characters.

A text is an array of bytes, and looking at its characters decodes them one by one. The tree of a
text depends on its characters alone (`Node.ofSource_eq`). So before a sample is evaluated, it is
rewritten to what is read from the characters of its lines (`SourceFile.sample_eq`).
-/

namespace RouteCheck

namespace Token

/-- The tokens of a source text with these characters. -/
def scanChars : List Char → List Token
  | '\uFEFF' :: cs => scanFrom (Place.step {} '\uFEFF') false cs
  | cs => scanFrom {} false cs

theorem scan_eq (source : String) : scan source = scanChars source.toList := rfl

end Token

namespace Node
open String.Pos.Raw (extract)

section
variable {cs : List Char}

theorem advance_eq {c : Char} (h : c.utf8Size = 1) (i : Nat) :
    (⟨i⟩ : String.Pos.Raw) + c = ⟨i + 1⟩ := by simp [String.Pos.Raw.ext_iff, h]

theorem go₂_eq_take (h : ∀ c ∈ cs, c.utf8Size = 1) (i n : Nat) :
    extract.go₂ cs ⟨i⟩ ⟨i + n⟩ = cs.take n := by
  induction cs generalizing i n with
  | nil => exact List.take_nil.symm
  | cons c cs ih =>
    obtain ⟨hc, hcs⟩ := List.forall_mem_cons.1 h
    cases n with
    | zero => exact if_pos rfl
    | succ n =>
      have hne : (⟨i⟩ : String.Pos.Raw) ≠ ⟨i + (n + 1)⟩ := by simp
      calc extract.go₂ (c :: cs) ⟨i⟩ ⟨i + (n + 1)⟩
        _ = c :: extract.go₂ cs ((⟨i⟩ : String.Pos.Raw) + c) ⟨i + (n + 1)⟩ := if_neg hne
        _ = c :: cs.take n := by
          rw [advance_eq hc, show i + (n + 1) = i + 1 + n by omega, ih hcs]

theorem go₁_eq_take_drop (h : ∀ c ∈ cs, c.utf8Size = 1) (i m n : Nat) :
    extract.go₁ cs ⟨i⟩ ⟨i + m⟩ ⟨i + m + n⟩ = (cs.drop m).take n := by
  induction cs generalizing i m with
  | nil => rw [List.drop_nil, List.take_nil]; rfl
  | cons c cs ih =>
    obtain ⟨hc, hcs⟩ := List.forall_mem_cons.1 h
    cases m with
    | zero => exact (if_pos rfl).trans (go₂_eq_take h i n)
    | succ m =>
      have hne : (⟨i⟩ : String.Pos.Raw) ≠ ⟨i + (m + 1)⟩ := by simp
      calc extract.go₁ (c :: cs) ⟨i⟩ ⟨i + (m + 1)⟩ ⟨i + (m + 1) + n⟩
        _ = extract.go₁ cs ((⟨i⟩ : String.Pos.Raw) + c) ⟨i + (m + 1)⟩ ⟨i + (m + 1) + n⟩ := if_neg hne
        _ = (cs.drop m).take n := by
          rw [advance_eq hc, show i + (m + 1) = i + 1 + m by omega, ih hcs]

end

/-- What a text with these characters has from the byte `start` up to the byte `stop`. -/
def slice (cs : List Char) (start stop : Nat) : String :=
  if start ≥ stop then "" else String.ofList (extract.go₁ cs 0 ⟨start⟩ ⟨stop⟩)

def sliceSingle (cs : List Char) (start stop : Nat) : String :=
  if start ≥ stop then "" else String.ofList ((cs.drop start).take (stop - start))

theorem extract_eq (source : String) (start stop : Nat) :
    extract source ⟨start⟩ ⟨stop⟩ = slice source.toList start stop := rfl

theorem slice_eq_sliceSingle {cs : List Char} (h : ∀ c ∈ cs, c.utf8Size = 1) :
    slice cs = sliceSingle cs := by
  funext start stop
  unfold slice sliceSingle
  split
  · rfl
  · next hlt =>
    have hcut := go₁_eq_take_drop h 0 start (stop - start)
    rw [Nat.zero_add, Nat.add_sub_cancel' (Nat.le_of_not_le hlt)] at hcut
    exact congrArg _ hcut

mutual
/-- `Node.label` for a text that has `cut` between two of its bytes. -/
def labelWith (cut : Nat → Nat → String) (k : Nat) : Node → Node × Nat
  | mk h ns =>
    let (ns', k') := labelsWith cut (k + 1) ns
    (mk { h with id := k, text := cut h.span.start h.span.stop } ns', k')
def labelsWith (cut : Nat → Nat → String) (k : Nat) : List Node → List Node × Nat
  | [] => ([], k)
  | n :: ns =>
    let (n', k₁) := labelWith cut k n
    let (ns', k₂) := labelsWith cut k₁ ns
    (n' :: ns', k₂)
end

mutual
theorem label_eq (source : String) : ∀ (k : Nat) (n : Node),
    label source k n = labelWith (slice source.toList) k n
  | k, mk h ns => by
    rw [label, labelWith, labels_eq source (k + 1) ns, extract_eq]
theorem labels_eq (source : String) : ∀ (k : Nat) (ns : List Node),
    labels source k ns = labelsWith (slice source.toList) k ns
  | k, [] => rfl
  | k, n :: ns => by
    rw [labels, labelsWith, label_eq source k n]
    simp only [labels_eq source _ ns]
end

/-- The syntax tree of a source text with these characters, which has `cut` between two of its
bytes. -/
def ofCharsWith (cs : List Char) (cut : Nat → Nat → String) : Node :=
  (labelWith cut 0 (Reader.sourceFile (Token.scanChars cs))).1

/-- The syntax tree of a source text with these characters. Their widths are added up only if they
differ, which is settled once and not for every node. -/
def ofChars (cs : List Char) : Node :=
  if cs.all (·.utf8Size == 1) then ofCharsWith cs (sliceSingle cs) else ofCharsWith cs (slice cs)

theorem ofSource_eq (source : String) : ofSource source = ofChars source.toList := by
  have hslice : ofSource source = ofCharsWith source.toList (slice source.toList) := by
    rw [ofSource, ofCharsWith, label_eq, Token.scan_eq]
  rw [hslice, ofChars]
  split
  · next hall => rw [slice_eq_sliceSingle (by simpa using hall)]
  · rfl

end Node

namespace SourceFile

def ofChars (path : Path) (cs : List Char) : SourceFile :=
  let tree := Node.ofChars cs
  { path, tree, package := packageOf tree, imports := importsOf tree }

theorem read?_eq {path : Path} {kind : SourceKind} (h : SourceKind.ofPath? path = some kind)
    (source : String) : read? path source = some (ofChars path source.toList) := by
  rw [read?, h, ofChars, Node.ofSource_eq]
  rfl

/-- The file `api/api.go` with these lines after its imports, for examples. -/
def sample (lines : List String) : SourceFile :=
  (read? ⟨"api/api.go"⟩ ("\n".intercalate
    (["package api", "import (\"fmt\"; \"go.sia.tech/jape\")"] ++ lines))).getD default

/-- The characters of some lines, each after a line break. -/
def chars : List String → List Char
  | [] => []
  | line :: lines => '\n' :: (line.toList ++ chars lines)

theorem toList_intercalate_cons (line : String) (lines : List String) :
    ("\n".intercalate (line :: lines)).toList = line.toList ++ chars lines := by
  rw [String.toList_intercalate]
  induction lines generalizing line with
  | nil => simp [chars]
  | cons next lines ih =>
    rw [List.map_cons, List.map_cons, List.intercalate_cons_cons, ← List.map_cons, ih, chars]
    simp

theorem sample_eq (lines : List String) :
    sample lines = ofChars ⟨"api/api.go"⟩ ("package api".toList ++
      chars ("import (\"fmt\"; \"go.sia.tech/jape\")" :: lines)) := by
  have hkind : SourceKind.ofPath? ⟨"api/api.go"⟩ = some .regular := by decide
  rw [sample, read?_eq hkind, List.cons_append, toList_intercalate_cons]
  rfl

end SourceFile

theorem Program.ofSources_sample (lines : List String) :
    ofSources [(⟨"api/api.go"⟩, "\n".intercalate
      (["package api", "import (\"fmt\"; \"go.sia.tech/jape\")"] ++ lines))] =
        .ok ⟨[.sample lines]⟩ := by
  have hkind : SourceKind.ofPath? ⟨"api/api.go"⟩ = some .regular := by decide
  rw [ofSources, List.mapM_cons, List.mapM_nil]
  unfold readSource
  rw [SourceFile.sample, SourceFile.read?_eq hkind]
  show Except.ok (ofFiles [_]) = _
  rw [ofFiles, List.mergeSort_singleton]
  rfl

end RouteCheck
