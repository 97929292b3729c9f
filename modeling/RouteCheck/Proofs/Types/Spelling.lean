import RouteCheck.Proofs.Program.Sample
import RouteCheck.Proofs.Types.Pieces

/-!
Two ways to spell a string.

A string made of texts and variables is written as a `+` concatenation, associated and put in
parentheses in any way, or as one `fmt.Sprintf` whose format has the texts with their percent signs
doubled and a verb for each variable. `Typer.fold` goes two different ways about them: it appends
templates, or splits the format and hands out the arguments.

Main statements:
  1. `outline_foldWithin_of_spells`: a concatenation folds to its parts, neighbouring texts joined.
  2. `splitFrom_of_formats`: splitting a format gives back what it was written from.
  3. `sprintf_sameReading`: both ways are read alike, with and without a lead.
-/

namespace RouteCheck

/-- Part of a string that is put together: a text or a variable. -/
inductive Part where
  | text (s : String)
  | var (name : String)
  deriving DecidableEq, Repr

namespace Part

def name? : Part → Option String
  | text _ => none
  | var name => some name

def piece : Part → Piece
  | text s => .lit s
  | var name => .hole (some (Piece.named name))

end Part

/-- A string literal whose value is `s`. -/
structure Node.IsText (n : Node) (s : String) : Prop where
  kind : n.kind = .interpretedStringLiteral ∨ n.kind = .rawStringLiteral
  value : Literal.value? n.text = some s

/-- The expression is a concatenation of the parts, no operand nested deeper than `levels`. -/
inductive Typer.Spells (t : Typer) : Nat → Node → List Part → Prop
  | text {levels n s} (h : n.IsText s) : Spells t levels n [.text s]
  | var {levels n} (hkind : n.kind = .identifier) (hlocal : t.isLocal n = true) :
    Spells t levels n [.var n.text]
  | paren {levels n inner parts} (hkind : n.kind = .parenthesizedExpression)
    (hinner : n.named.head? = some inner) (h : Spells t levels inner parts) :
    Spells t (levels + 1) n parts
  | concat {levels n l r ps qs} (hkind : n.kind = .binaryExpression)
    (hop : (n.field? .operator).map Node.text = some "+") (hleft : n.field? .left = some l)
    (hright : n.field? .right = some r) (hl : Spells t levels l ps) (hr : Spells t levels r qs) :
    Spells t (levels + 1) n (ps ++ qs)

def Segment.double (cs : List Char) : List Char :=
  cs.flatMap fun c => if c = '%' then ['%', '%'] else [c]

/-- The format is the texts with percent signs doubled, and flags and a letter per variable. -/
inductive Segment.Formats : List Part → List Char → Prop
  | nil : Formats [] []
  | text {parts cs} (s : String) (h : Formats parts cs) :
    Formats (.text s :: parts) (double s.toList ++ cs)
  | var {parts cs} (name : String) (flags : List Char) (letter : Char)
    (hflags : ∀ c ∈ flags, isFlag c = true) (hletter : letter.isAlpha = true)
    (h : Formats parts cs) : Formats (.var name :: parts) ('%' :: (flags ++ letter :: cs))

/-- The call is `fmt.Sprintf` of a format of the parts and of their variables, in order. -/
structure Typer.Prints (t : Typer) (call : Node) (parts : List Part) : Prop where
  kind : call.kind = .callExpression
  sprintf : t.isPackageCall call "fmt" "Sprintf" = true
  arguments : ∃ format args value, call.callArguments = format :: args ∧
    format.IsText value ∧ Segment.Formats parts value.toList ∧
    args.map Node.text = parts.filterMap Part.name?

/-! ## Concatenations -/

section
variable {t : Typer} {n : Node} {parts : List Part} {levels : Nat}

theorem Node.IsText.foldWithin {s : String} (h : n.IsText s) :
    t.foldWithin (levels + 1) n = .text s := by
  rcases h.kind with hkind | hkind <;> rw [Typer.foldWithin, hkind] <;> simp [h.value]

/-- A concatenation folds to its parts, neighbouring texts joined. -/
theorem outline_foldWithin_of_spells (h : t.Spells levels n parts) :
    (t.foldWithin (levels + 1) n).outline = ⟨Piece.merge (parts.map Part.piece), none⟩ := by
  induction h with
  | text h =>
    rw [h.foldWithin]
    rfl
  | var hkind hlocal =>
    rw [Typer.foldWithin, hkind]
    simp [hlocal, Template.ofHole, Template.outline, Piece.outline, Piece.merge, Part.piece]
  | paren hkind hinner _ ih =>
    rw [Typer.foldWithin, hkind]
    simp only [hinner]
    exact ih
  | @concat levels n l r ps qs hkind hop hleft hright _ _ ihl ihr =>
    rw [Typer.foldWithin, hkind]
    simp only [hop, hleft, hright]
    rw [Template.outline_append, ihl, ihr, List.map_append, ← Piece.merge_append_merge,
      ← Piece.foldl_push]
    rfl

/-! ## Formats -/

/-- Segments of a format of the parts, with the text before them. -/
def segments (text : List Char) : List Part → List Segment
  | [] => Segment.flush text
  | .text s :: parts => segments (text ++ s.toList) parts
  | .var _ :: parts => Segment.flush text ++ .verb :: segments [] parts

theorem splitFrom_double (text cs rest : List Char) :
    Segment.splitFrom text (Segment.double cs ++ rest) = Segment.splitFrom (text ++ cs) rest := by
  induction cs generalizing text with
  | nil => simp [Segment.double]
  | cons c cs ih =>
    have hstep : Segment.splitFrom text (Segment.double (c :: cs) ++ rest) =
        Segment.splitFrom (text ++ [c]) (Segment.double cs ++ rest) := by
      by_cases hc : c = '%'
      · subst hc
        simp [Segment.double, Segment.splitFrom]
      · simp [Segment.double, hc, Segment.splitFrom]
    rw [hstep, ih, List.append_assoc, List.singleton_append]

theorem isFlag_of_isAlpha {c : Char} (h : c.isAlpha = true) : Segment.isFlag c = false := by
  rw [Segment.isFlag, Bool.or_eq_false_iff]
  constructor
  · have hletter : (decide (65 ≤ c.val ∧ c.val ≤ 90) || (97 ≤ c.val && c.val ≤ 122)) = true := h
    show (48 ≤ c.val && c.val ≤ 57) = false
    simp only [Bool.or_eq_true, Bool.and_eq_true, Bool.and_eq_false_iff, decide_eq_true_eq,
      decide_eq_false_iff_not, UInt32.le_iff_toNat_le] at hletter ⊢
    simp at hletter ⊢
    omega
  · rw [List.contains_eq_mem, decide_eq_false_iff_not]
    have hletters : "+-# .*".toList.all (!·.isAlpha) = true := by decide
    intro hmem
    exact absurd h (by simpa using List.all_eq_true.1 hletters c hmem)

/-- Flags and a letter are a verb: the letter ends it, and no second percent sign comes first. -/
theorem splitFrom_verb (text : List Char) {flags : List Char} {letter : Char}
    (hflags : ∀ c ∈ flags, Segment.isFlag c = true) (hletter : letter.isAlpha = true)
    (rest : List Char) : Segment.splitFrom text ('%' :: (flags ++ letter :: rest)) =
      Segment.flush text ++ .verb :: Segment.splitFrom [] rest := by
  have hdrop : (flags ++ letter :: rest).dropWhile Segment.isFlag = letter :: rest := by
    rw [List.dropWhile_append_of_pos hflags,
      List.dropWhile_cons_of_neg (by simp [isFlag_of_isAlpha hletter])]
  have hdouble : ∀ more, flags ++ letter :: rest ≠ '%' :: more := by
    intro more heq
    cases flags with
    | nil =>
      obtain rfl : letter = '%' := (List.cons.inj heq).1
      exact absurd hletter (by decide)
    | cons c flags =>
      obtain rfl : c = '%' := (List.cons.inj heq).1
      exact absurd (hflags '%' List.mem_cons_self) (by decide)
  rw [Segment.splitFrom, if_pos rfl]
  · split
    · next heq => simp [hdrop] at heq
    · next c rest' heq =>
      rw [hdrop] at heq
      rw [(List.cons.inj heq).2]
  · exact fun more _ heq => hdouble more heq

/-- Splitting a format gives back what it was written from. -/
theorem splitFrom_of_formats {cs : List Char} (h : Segment.Formats parts cs) (text : List Char) :
    Segment.splitFrom text cs = segments text parts := by
  induction h generalizing text with
  | nil => rw [Segment.splitFrom, segments]
  | text s _ ih => rw [splitFrom_double, ih, segments]
  | var name flags letter hflags hletter _ ih =>
    rw [splitFrom_verb text hflags hletter, ih, segments]

/-! ## Arguments -/

/-- A text that comes next stays by itself. -/
def Piece.Open (done : List Piece) : Prop := ∀ s, push done (.lit s) = done ++ [.lit s]

theorem Piece.open_hole (done : List Piece) (f : Option Node) : Open (done ++ [.hole f]) := by
  intro s
  induction done with
  | nil => rfl
  | cons p done ih =>
    have hcons : (done ++ [Piece.hole f]) ≠ [] := by simp
    cases hdone : done ++ [Piece.hole f] with
    | nil => exact absurd hdone hcons
    | cons q qs =>
      rw [List.cons_append, hdone, push, ← hdone, ih]
      · rfl
      · simp

theorem Piece.dropBlank_merge_blank (ps : List Piece) :
    dropBlank (merge (.lit "" :: ps)) = dropBlank (merge ps) := by
  rw [merge]
  split
  · next u more heq => rw [heq, String.empty_append]
  · next heq => rw [heq]; rfl
  · next f more heq => rw [heq]; rfl

theorem fillSegments_flush {args : List Node} {done : List Piece} (hopen : Piece.Open done)
    (text : List Char) (rest : List Segment) (used : Nat) :
    Template.fillSegments args (Segment.flush text ++ rest) (done, used) =
      Template.fillSegments args rest
        (done ++ Piece.dropBlank [.lit (String.ofList text)], used) := by
  cases text with
  | nil => simp [Segment.flush, Piece.dropBlank, Piece.isBlank]
  | cons c cs =>
    have hne : String.ofList (c :: cs) ≠ "" := by simp
    rw [Piece.dropBlank_lit, if_neg hne]
    show Template.fillSegments args rest (Piece.push done _, used) = _
    rw [hopen]
    rfl

/-- Handing out the arguments gives back the parts, neighbouring texts joined. -/
theorem fillSegments_segments {args : List Node} (text : List Char) (done : List Piece)
    (used : Nat) (hopen : Piece.Open done) (hused : used ≤ args.length)
    (hargs : (args.drop used).map Node.text = parts.filterMap Part.name?) :
    (Template.fillSegments args (segments text parts) (done, used)).1.map Piece.outline =
        done.map Piece.outline ++
          Piece.dropBlank (Piece.merge (.lit (String.ofList text) :: parts.map Part.piece)) ∧
      (Template.fillSegments args (segments text parts) (done, used)).2 = args.length := by
  induction parts generalizing text done used with
  | nil =>
    have hall : args.length ≤ used := by
      have hnil : args.drop used = [] := List.map_eq_nil_iff.1 hargs
      exact List.drop_eq_nil_iff.1 hnil
    rw [segments, ← List.append_nil (Segment.flush text), fillSegments_flush hopen]
    refine ⟨?_, Nat.le_antisymm hused hall⟩
    rw [Template.fillSegments, List.map_append, Piece.map_outline_dropBlank]
    rfl
  | cons part parts ih =>
    cases part with
    | text s =>
      have ih := ih (text ++ s.toList) done used hopen hused hargs
      rw [segments, List.map_cons, Part.piece, Piece.merge_lit_lit]
      rwa [String.ofList_append, String.ofList_toList] at ih
    | var name =>
      have hcons : (args.drop used).map Node.text = name :: parts.filterMap Part.name? := hargs
      obtain ⟨a, rest, hdrop, hname, hrest⟩ := List.map_eq_cons_iff.1 hcons
      have ha : args[used]? = some a := by rw [← List.head?_drop, hdrop]; rfl
      have hlt : used < args.length := (List.getElem?_eq_some_iff.1 ha).1
      have htail : args.drop (used + 1) = rest := by rw [← List.tail_drop, hdrop]; rfl
      rw [segments, fillSegments_flush hopen, Template.fillSegments, ha]
      obtain ⟨hpieces, hcount⟩ := ih []
        (done ++ Piece.dropBlank [.lit (String.ofList text)] ++ [.hole (some a)]) (used + 1)
        (Piece.open_hole _ _) hlt (htail ▸ hrest)
      refine ⟨?_, hcount⟩
      have hsplit (f : Option Node) (ps : List Piece) :
          Piece.dropBlank (.lit (String.ofList text) :: .hole f :: ps) =
            Piece.dropBlank [.lit (String.ofList text)] ++ .hole f :: Piece.dropBlank ps :=
        Piece.dropBlank_append [_] (.hole f :: ps)
      rw [hpieces, String.ofList_nil, Piece.dropBlank_merge_blank]
      simp only [List.map_append, Piece.map_outline_dropBlank, List.map_cons, List.map_nil,
        Piece.outline, Option.map_some, hname, Part.piece, Piece.merge, hsplit, List.append_assoc,
        List.singleton_append]

/-! ## Both ways -/

theorem outline_foldWithin_of_prints (h : t.Prints n parts) :
    (t.foldWithin (levels + 2) n).outline =
      ⟨Piece.dropBlank (Piece.merge (parts.map Part.piece)), none⟩ := by
  obtain ⟨format, args, value, hcall, hformat, hformats, hargs⟩ := h.arguments
  rw [Typer.foldWithin, h.kind]
  simp only [h.sprintf, if_true, hcall, hformat.foldWithin]
  obtain ⟨hpieces, hcount⟩ :=
    fillSegments_segments [] [] 0 (fun _ => rfl) (Nat.zero_le _) hargs
  rw [← splitFrom_of_formats hformats] at hpieces hcount
  rw [String.ofList_nil, Piece.dropBlank_merge_blank] at hpieces
  have hfill : Template.fillPieces args (Template.text value).pieces ([], 0) =
      ((Template.fillSegments args (Segment.splitFrom [] value.toList) ([], 0)).1, args.length) :=
    Prod.ext rfl hcount
  rw [Template.applyFormat, hfill]
  simp only [if_true]
  exact congrArg (Template.mk · none) hpieces

/-- A concatenation and a `fmt.Sprintf` of the same parts fold to templates that are alike. -/
theorem alike_of_spells_of_prints {t' : Typer} {m : Node} (hn : t.Spells levels n parts)
    (hm : t'.Prints m parts) {levels' : Nat} :
    (t.foldWithin (levels + 1) n).Alike (t'.foldWithin (levels' + 2) m) := by
  have hconcat := outline_foldWithin_of_spells hn
  have hsprintf : (t'.foldWithin (levels' + 2) m).outline = _ := outline_foldWithin_of_prints hm
  have hapart := Piece.apart_merge (parts.map Part.piece)
  have hmismatch {a : Template} {pieces : List Piece} (h : a.outline = ⟨pieces, none⟩) :
      a.mismatch = none := congrArg Template.mismatch h
  refine ⟨?_, ?_, ?_, hmismatch hconcat, hmismatch hsprintf⟩
  · rw [hconcat]
    exact hapart
  · rw [hsprintf]
    exact Piece.apart_dropBlank hapart
  · rw [hconcat, hsprintf, Piece.dropBlank_dropBlank]

/-- A concatenation and a `fmt.Sprintf` of the same texts and variables are read alike, also when
a lead is taken off. -/
theorem sprintf_sameReading {t t' : Typer} {n m : Node} {parts : List Part}
    (hn : t.Spells Typer.maxFoldDepth n parts) (hm : t'.Prints m parts) :
    (t.fold n).SameReading (t'.fold m) ∧
      ∀ lead, ((t.fold n).trimLead lead).SameReading ((t'.fold m).trimLead lead) := by
  have halike : (t.fold n).Alike (t'.fold m) := alike_of_spells_of_prints hn hm
  exact ⟨halike.reading, fun lead => (halike.trimLead lead).reading⟩

end

/-! ## A path with a percent sign -/

/-- The parts of a concatenation, if the expression is one. -/
def Typer.parts? (t : Typer) : Nat → Node → Option (List Part)
  | 0, n => operand? n
  | levels + 1, n =>
    match n.kind, n.named.head?, n.field? .left, n.field? .right with
    | .parenthesizedExpression, some inner, _, _ => parts? t levels inner
    | .binaryExpression, _, some l, some r =>
      if (n.field? .operator).map Node.text = some "+" then
        (parts? t levels l).bind fun ps => (parts? t levels r).map (ps ++ ·)
      else none
    | _, _, _, _ => operand? n
where
  operand? (n : Node) : Option (List Part) :=
    match n.kind with
    | .interpretedStringLiteral | .rawStringLiteral => (Literal.value? n.text).map ([.text ·])
    | .identifier => if t.isLocal n then some [.var n.text] else none
    | _ => none

theorem Typer.spells_of_operand? {t : Typer} {levels : Nat} {n : Node} {parts : List Part}
    (h : parts?.operand? t n = some parts) : t.Spells levels n parts := by
  unfold parts?.operand? at h
  split at h
  · next hkind =>
    obtain ⟨s, hs, rfl⟩ := Option.map_eq_some_iff.1 h
    exact .text ⟨.inl hkind, hs⟩
  · next hkind =>
    obtain ⟨s, hs, rfl⟩ := Option.map_eq_some_iff.1 h
    exact .text ⟨.inr hkind, hs⟩
  · next hkind =>
    split at h
    · next hlocal => exact Option.some.inj h ▸ .var hkind hlocal
    · exact absurd h nofun
  · exact absurd h nofun

theorem Typer.spells_of_parts? {t : Typer} {levels : Nat} {n : Node} {parts : List Part}
    (h : t.parts? levels n = some parts) : t.Spells levels n parts := by
  induction levels generalizing n parts with
  | zero => exact spells_of_operand? h
  | succ levels ih =>
    unfold parts? at h
    split at h
    · next inner hkind hinner => exact .paren hkind hinner (ih h)
    · next l r hkind hleft hright =>
      split at h
      · next hop =>
        obtain ⟨ps, hps, h⟩ := Option.bind_eq_some_iff.1 h
        obtain ⟨qs, hqs, rfl⟩ := Option.map_eq_some_iff.1 h
        exact .concat hkind hop hleft hright (ih hps) (ih hqs)
      · exact absurd h nofun
    · exact spells_of_operand? h

def spelledTwice : List String :=
  ["func get(a, b string) \x7b use(\"/50%/\" + (a + \"?k=\") + b) \x7d",
    "func put(b, a string) \x7b use(fmt.Sprintf(\"/50%%/%v?k=%-5s\", a, b)) \x7d"]

/-- The parts of the first concatenation of a file. -/
def SourceFile.spelled? (f : SourceFile) : Option (List Part) :=
  (f.tree.descendants.find? (·.kind = .binaryExpression)).bind fun n =>
    (Typer.enclosing (.build ⟨[f]⟩) f n).parts? Typer.maxFoldDepth n

/-- The arguments of the first `fmt.Sprintf` of a file. -/
def SourceFile.printed? (f : SourceFile) : Option (List (Kind × String)) :=
  (f.tree.descendants.find? fun n => n.kind = .callExpression &&
    (Typer.enclosing (.build ⟨[f]⟩) f n).isPackageCall n "fmt" "Sprintf").map fun n =>
      n.callArguments.map fun a => (a.kind, a.text)

theorem run_spelledTwice :
    let f := SourceFile.sample spelledTwice
    f.spelled? = some [.text "/50%/", .var "a", .text "?k=", .var "b"] ∧
      f.printed? = some [(.interpretedStringLiteral, "\"/50%%/%v?k=%-5s\""),
        (.identifier, "a"), (.identifier, "b")] := by
  simp only [spelledTwice, SourceFile.sample_eq, SourceFile.chars, String.reduceToList]
  decide +kernel

theorem exists_spells {f : SourceFile} {parts : List Part} (h : f.spelled? = some parts) :
    ∃ n ∈ f.tree.descendants,
      (Typer.enclosing (.build ⟨[f]⟩) f n).Spells Typer.maxFoldDepth n parts := by
  obtain ⟨n, hn, hparts⟩ := Option.bind_eq_some_iff.1 h
  exact ⟨n, List.mem_of_find?_eq_some hn, Typer.spells_of_parts? hparts⟩

theorem exists_prints {f : SourceFile} {format value : String} {args : List (Kind × String)}
    {parts : List Part}
    (h : f.printed? = some ((.interpretedStringLiteral, format) :: args))
    (hvalue : Literal.value? format = some value) (hformats : Segment.Formats parts value.toList)
    (hargs : args.map Prod.snd = parts.filterMap Part.name?) :
    ∃ m ∈ f.tree.descendants, (Typer.enclosing (.build ⟨[f]⟩) f m).Prints m parts := by
  obtain ⟨m, hm, heq⟩ := Option.map_eq_some_iff.1 h
  obtain ⟨formatNode, rest, hcall, hformat, hrest⟩ := List.map_eq_cons_iff.1 heq
  obtain ⟨hkind, htext⟩ := Prod.mk.inj hformat
  have hfound := List.find?_some hm
  rw [Bool.and_eq_true, decide_eq_true_eq] at hfound
  refine ⟨m, List.mem_of_find?_eq_some hm, hfound.1, hfound.2, formatNode, rest, value, hcall,
    ⟨.inl hkind, htext ▸ hvalue⟩, hformats, ?_⟩
  rw [← hargs, ← hrest, List.map_map]
  rfl

/-- The two spellings of the path are read alike, with and without a lead. -/
theorem sprintf_sameReading_twice : ∃ (f : SourceFile) (n m : Node) (parts : List Part),
    let t := Typer.enclosing (.build ⟨[f]⟩) f
    n ∈ f.tree.descendants ∧ m ∈ f.tree.descendants ∧
      (t n).Spells Typer.maxFoldDepth n parts ∧ (t m).Prints m parts ∧
        ((t n).fold n).SameReading ((t m).fold m) ∧
          ∀ lead, (((t n).fold n).trimLead lead).SameReading (((t m).fold m).trimLead lead) := by
  obtain ⟨hspelled, hprinted⟩ := run_spelledTwice
  have hvalue : Literal.value? "\"/50%%/%v?k=%-5s\"" = some "/50%%/%v?k=%-5s" := by
    decide +kernel
  have hformats : Segment.Formats [.text "/50%/", .var "a", .text "?k=", .var "b"]
      "/50%%/%v?k=%-5s".toList :=
    .text "/50%/" (.var "a" [] 'v' (by simp) (by decide)
      (.text "?k=" (.var "b" ['-', '5'] 's' (by simp; decide) (by decide) .nil)))
  obtain ⟨n, hn, hspells⟩ := exists_spells hspelled
  obtain ⟨m, hm, hprints⟩ := exists_prints hprinted hvalue hformats rfl
  obtain ⟨hreading, hlead⟩ := sprintf_sameReading hspells hprints
  exact ⟨_, n, m, _, hn, hm, hspells, hprints, hreading, hlead⟩

end RouteCheck
