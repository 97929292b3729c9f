import RouteCheck.Proofs.Types.Leads
import RouteCheck.Proofs.Types.Symbols

/-!
Which keys the holes of a query are bound to.

Reading the slots of a template looks at one piece at a time: the text right before a hole decides
about its key, from the last `&` of that text on. As folding leaves no two texts as neighbours, that
text goes back to the hole before or to the `?`, so that the slots can be read off the components of
the query. A component that has a hole may have a key after it, too: what is bound does not have to
be at the beginning of its component.

Main statements:
  1. `mem_keyedHoles_iff`: the holes of a component that have keys.
  2. `slotsFrom_eq`, `Template.query_slots`: the slots are those holes, one component after the
     other.
  3. `Typer.query_slots_fold`: so they are for every expression; `bound_within_component` has a key
     that no component begins with.
-/

namespace RouteCheck

/-! ## Components of a query -/

/-- Holes of a component with the text right before them, where `text` is that of the component up
to here, since its last hole. -/
def ledFrom (text : List Char) : List Symbol → List (List Char × Option Node)
  | [] => []
  | .char c :: rest => ledFrom (text ++ [c]) rest
  | .hole f :: rest => (text, f) :: ledFrom [] rest

/-- The key of a value that begins right after a text. -/
def keyOf? (text : List Char) : Option String :=
  (Text.dropTail? "=" (String.ofList text)).filter fun key => key != "" && !Text.contains '=' key

/-- The holes of a component that are bound to keys, with the keys. -/
def keyedHoles (component : List Symbol) : List (String × Option Node) :=
  (ledFrom [] component).filterMap fun (text, f) => (keyOf? text).map (·, f)

namespace Template

def querySymbols (t : Template) : List Symbol := (t.symbols.dropWhile (!·.is '?')).tail

/-- Components of the query: the symbols after the first `?`, cut at `&`. -/
def queryComponents (t : Template) : List (List Symbol) := t.querySymbols.splitOnP (·.is '&')

end Template

theorem keyOf?_eq_some_iff {text : List Char} {key : String} : keyOf? text = some key ↔
    text = (key ++ "=").toList ∧ key ≠ "" ∧ '=' ∉ key.toList := by
  rw [keyOf?, Option.filter_eq_some_iff, Text.dropTail?_eq_some_iff, ← String.toList_inj,
    String.toList_ofList]
  simp [Text.contains]

/-- The text right before a hole goes back to the hole before it, or to the start. -/
theorem mem_ledFrom_iff {text cs : List Char} {syms : List Symbol} {f : Option Node} :
    (cs, f) ∈ ledFrom text syms ↔
      (∃ ds after, syms = ds.map .char ++ .hole f :: after ∧ cs = text ++ ds) ∨
        ∃ earlier g after, syms = earlier ++ .hole g :: (cs.map .char ++ .hole f :: after) := by
  induction syms generalizing text with
  | nil => simp [ledFrom]
  | cons sym rest ih =>
    cases sym with
    | char c =>
      rw [ledFrom, ih]
      constructor
      · rintro (⟨ds, after, rfl, rfl⟩ | ⟨earlier, g, after, rfl⟩)
        · exact .inl ⟨c :: ds, after, rfl, by simp⟩
        · exact .inr ⟨.char c :: earlier, g, after, rfl⟩
      · rintro (⟨ds, after, hsyms, rfl⟩ | ⟨earlier, g, after, hsyms⟩)
        · cases ds with
          | nil => simp at hsyms
          | cons d ds =>
            obtain ⟨hd, hrest⟩ := List.cons.inj hsyms
            obtain rfl := Symbol.char.inj hd
            exact .inl ⟨ds, after, hrest, by simp⟩
        · cases earlier with
          | nil => simp at hsyms
          | cons sym earlier => exact .inr ⟨earlier, g, after, (List.cons.inj hsyms).2⟩
    | hole h =>
      rw [ledFrom, List.mem_cons, ih]
      constructor
      · rintro (heq | ⟨ds, after, rfl, rfl⟩ | ⟨earlier, g, after, rfl⟩)
        · obtain ⟨rfl, rfl⟩ := Prod.mk.inj heq
          exact .inl ⟨[], rest, rfl, by simp⟩
        · exact .inr ⟨[], h, after, rfl⟩
        · exact .inr ⟨.hole h :: earlier, g, after, rfl⟩
      · rintro (⟨ds, after, hsyms, rfl⟩ | ⟨earlier, g, after, hsyms⟩)
        · cases ds with
          | nil =>
            obtain rfl := Symbol.hole.inj (List.cons.inj hsyms).1
            exact .inl (by simp)
          | cons d ds => simp at hsyms
        · cases earlier with
          | nil => exact .inr (.inl ⟨cs, after, (List.cons.inj hsyms).2, rfl⟩)
          | cons sym earlier => exact .inr (.inr ⟨earlier, g, after, (List.cons.inj hsyms).2⟩)

/-- A key is bound to a hole if it stands right before it with an equals sign, and nothing but a
hole stands before the key in the component. -/
theorem mem_keyedHoles_iff {component : List Symbol} {key : String} {f : Option Node} :
    (key, f) ∈ keyedHoles component ↔ (key ≠ "" ∧ '=' ∉ key.toList) ∧
      ∃ before after, component = before ++ (key ++ "=").toList.map .char ++ .hole f :: after ∧
        (before = [] ∨ ∃ g, before.getLast? = some (.hole g)) := by
  have hled : (key, f) ∈ keyedHoles component ↔
      ((key ++ "=").toList, f) ∈ ledFrom [] component ∧ key ≠ "" ∧ '=' ∉ key.toList := by
    simp only [keyedHoles, List.mem_filterMap, Option.map_eq_some_iff, Prod.exists,
      keyOf?_eq_some_iff, Prod.mk.injEq]
    constructor
    · rintro ⟨text, g, hmem, key', ⟨rfl, hkey⟩, rfl, rfl⟩
      exact ⟨hmem, hkey⟩
    · rintro ⟨hmem, hkey⟩
      exact ⟨_, f, hmem, key, ⟨rfl, hkey⟩, rfl, rfl⟩
  rw [hled, and_comm, mem_ledFrom_iff]
  refine and_congr_right fun _ => ?_
  constructor
  · rintro (⟨ds, after, rfl, hds⟩ | ⟨earlier, g, after, rfl⟩)
    · exact ⟨[], after, by rw [hds]; rfl, .inl rfl⟩
    · exact ⟨earlier ++ [.hole g], after, by simp, .inr ⟨g, by simp⟩⟩
  · rintro ⟨before, after, rfl, rfl | ⟨g, hlast⟩⟩
    · exact .inl ⟨(key ++ "=").toList, after, rfl, rfl⟩
    · obtain ⟨earlier, rfl⟩ := List.getLast?_eq_some_iff.1 hlast
      exact .inr ⟨earlier, g, after, by simp⟩

/-! ## Pieces and components -/

/-- The slots of query symbols, where `text` is that of the component up to here, since its last
hole. -/
def slotsFrom (text : List Char) : List Symbol → List (String × Option Node)
  | [] => []
  | .char c :: rest => if c = '&' then slotsFrom [] rest else slotsFrom (text ++ [c]) rest
  | .hole f :: rest => ((keyOf? text).map (·, f)).toList ++ slotsFrom [] rest

section
variable {text : List Char} {syms : List Symbol} {ps : List Piece}

theorem ledFrom_map_char (text cs : List Char) (syms : List Symbol) :
    ledFrom text (cs.map .char ++ syms) = ledFrom (text ++ cs) syms := by
  induction cs generalizing text with
  | nil => rw [List.append_nil]; rfl
  | cons c cs ih => rw [List.map_cons, List.cons_append, ledFrom, ih, List.append_assoc]; rfl

theorem keyedHoles_map_char (text : List Char) : keyedHoles (text.map .char) = [] := by
  have hled := ledFrom_map_char [] text []
  rw [List.append_nil] at hled
  rw [keyedHoles, hled]
  rfl

theorem keyedHoles_hole (text : List Char) (f : Option Node) (rest : List Symbol) :
    keyedHoles (text.map .char ++ .hole f :: rest) =
      ((keyOf? text).map (·, f)).toList ++ keyedHoles rest := by
  rw [keyedHoles, ledFrom_map_char, List.nil_append, ledFrom]
  cases hkey : keyOf? text <;> simp [hkey, keyedHoles]

/-- The slots are those of the components, one after the other. -/
theorem slotsFrom_eq (text : List Char) (syms : List Symbol) : slotsFrom text syms =
    ((syms.splitOnP (·.is '&')).modifyHead (text.map .char ++ ·)).flatMap keyedHoles := by
  induction syms generalizing text with
  | nil => simp [slotsFrom, keyedHoles_map_char]
  | cons sym rest ih =>
    rw [List.splitOnP_cons_eq_if_modifyHead]
    cases sym with
    | char c =>
      rw [slotsFrom]
      by_cases hc : c = '&'
      · have hrest := ih []
        rw [List.map_nil, Text.modifyHead_nil_append] at hrest
        rw [if_pos hc, if_pos (by simp [Symbol.is, hc]), List.modifyHead_cons, List.flatMap_cons,
          List.append_nil, keyedHoles_map_char, hrest]
        rfl
      · rw [if_neg hc, if_neg (by simp [Symbol.is, hc]), List.modifyHead_modifyHead, ih]
        congr 2
        exact funext fun seg => by simp
    | hole f =>
      have hrest := ih []
      rw [List.map_nil, Text.modifyHead_nil_append] at hrest
      rw [slotsFrom, hrest, if_neg (by simp [Symbol.is])]
      cases hsegs : rest.splitOnP (·.is '&') with
      | nil => exact absurd hsegs (List.splitOnP_ne_nil _ rest)
      | cons seg segs => simp [keyedHoles_hole]

theorem slotsFrom_map_char (text cs : List Char) (syms : List Symbol) :
    slotsFrom text (cs.map .char ++ syms) = slotsFrom (Text.lastPart '&' text cs) syms := by
  induction cs generalizing text with
  | nil => rfl
  | cons c cs ih =>
    rw [List.map_cons, List.cons_append, slotsFrom, Text.lastPart]
    split
    · exact ih []
    · exact ih (text ++ [c])

end

namespace Template
open Piece (Apart apart_hole apart_lit)

section
variable {ps : List Piece} {text : List Char}

theorem pendingKey?_eq (s : String) :
    pendingKey? s = keyOf? (Text.lastPart '&' [] s.toList) := by
  rw [pendingKey?, Text.getLast?_split]
  rfl

/-- Slots of pieces that follow the `?` are those of their symbols, where no text follows the text
that is pending. -/
theorem querySlots_eq (happart : Apart ps) (htext : ∀ s rest, ps = .lit s :: rest → text = []) :
    querySlots (keyOf? text) ps = slotsFrom text (ps.flatMap Piece.symbols) := by
  induction ps generalizing text with
  | nil => rfl
  | cons p rest ih =>
    cases p with
    | hole f =>
      have hrest : querySlots none rest = slotsFrom [] (rest.flatMap Piece.symbols) :=
        ih (apart_hole.1 happart) fun _ _ _ => rfl
      show _ = ((keyOf? text).map (·, f)).toList ++ slotsFrom [] (rest.flatMap Piece.symbols)
      rw [← hrest]
      cases keyOf? text <;> rfl
    | lit s =>
      obtain rfl := htext s rest rfl
      obtain ⟨hrest, hne⟩ := apart_lit.1 happart
      rw [querySlots, pendingKey?_eq, List.flatMap_cons, Piece.symbols, slotsFrom_map_char]
      exact ih hrest fun u more h => absurd h (hne u more)

/-- The query slots of pieces are those of the symbols after the first `?`. -/
theorem query_slotsOf (happart : Apart ps) : (slotsOf ps).query =
    slotsFrom [] ((ps.flatMap Piece.symbols).dropWhile (!·.is '?')).tail := by
  induction ps with
  | nil => rfl
  | cons p rest ih =>
    cases p with
    | hole f => exact ih (apart_hole.1 happart)
    | lit s =>
      obtain ⟨hrest, hne⟩ := apart_lit.1 happart
      have hsame : (fun sym : Symbol => !sym.is '?') ∘ Symbol.char = (· != '?') := rfl
      rw [slotsOf, Text.cut?_eq, List.flatMap_cons, Piece.symbols, List.dropWhile_append,
        List.dropWhile_map, hsame]
      cases hdrop : s.toList.dropWhile (· != '?') with
      | nil =>
        rw [List.map_nil, List.isEmpty_nil, if_pos rfl]
        exact ih hrest
      | cons c after =>
        have hafter : Apart (.lit (String.ofList after) :: rest) := apart_lit.2 ⟨hrest, hne⟩
        show querySlots (pendingKey? (String.ofList after)) rest =
          slotsFrom [] (after.map .char ++ rest.flatMap Piece.symbols)
        have hslots : querySlots (keyOf? []) (.lit (String.ofList after) :: rest) =
            slotsFrom [] ((Piece.lit (String.ofList after) :: rest).flatMap Piece.symbols) :=
          querySlots_eq hafter fun _ _ _ => rfl
        rw [querySlots, List.flatMap_cons, Piece.symbols, String.toList_ofList] at hslots
        exact hslots

end

/-- Where no two texts are neighbours, the query slots are the keyed holes of the components. -/
theorem query_slots {t : Template} (happart : Apart t.pieces) :
    t.slots.query = t.queryComponents.flatMap keyedHoles := by
  rw [slots, query_slotsOf happart, slotsFrom_eq, List.map_nil, Text.modifyHead_nil_append]
  rfl

end Template

/-- In what an expression folds to, a key is bound to a hole just where, in a component of the
query, the key and an equals sign stand right before the hole, and before them nothing or another
hole. The slots are in the order of the holes, and no hole has two. -/
theorem Typer.query_slots_fold (t : Typer) (n : Node) :
    (t.fold n).slots.query = (t.fold n).queryComponents.flatMap keyedHoles ∧
      ∀ key f, (key, f) ∈ (t.fold n).slots.query ↔ (key ≠ "" ∧ '=' ∉ key.toList) ∧
        ∃ component ∈ (t.fold n).queryComponents, ∃ before after,
          component = before ++ (key ++ "=").toList.map .char ++ .hole f :: after ∧
            (before = [] ∨ ∃ g, before.getLast? = some (.hole g)) := by
  have hquery := Template.query_slots (apart_foldWithin (maxFoldDepth + 1) t n)
  refine ⟨hquery, fun key f => ?_⟩
  rw [fold, hquery, List.mem_flatMap]
  simp only [mem_keyedHoles_iff]
  constructor
  · rintro ⟨component, hmem, hkey, hplace⟩
    exact ⟨hkey, component, hmem, hplace⟩
  · rintro ⟨hkey, component, hmem, hplace⟩
    exact ⟨component, hmem, hkey, hplace⟩

/-- A query with a value that a second key follows without an ampersand. -/
def runOn : List String :=
  ["func path(id, kind string) string \x7b return \"/items?a=\" + id + \"b=\" + kind \x7d"]

/-- Of the first concatenation of a file: the keys that are bound, and the components of the query,
spelled. -/
def SourceFile.queried? (f : SourceFile) : Option (List String × List String) :=
  (f.tree.descendants.find? (·.kind = .binaryExpression)).map fun n =>
    let path := (Typer.enclosing (.build ⟨[f]⟩) f n).fold n
    (path.slots.query.map (·.1), path.queryComponents.map spelled)

theorem queried_runOn : (SourceFile.sample runOn).queried? = some (["a", "b"], ["a=%sb=%s"]) := by
  simp only [runOn, SourceFile.sample_eq, SourceFile.chars, String.reduceToList]
  decide +kernel

/-- In the second value's place a key is bound that no component begins with. -/
theorem bound_within_component : ∃ n ∈ (SourceFile.sample runOn).tree.descendants,
    let path := (Typer.enclosing (.build ⟨[.sample runOn]⟩) (.sample runOn) n).fold n
    ¬ ∀ key f, (key, f) ∈ path.slots.query ↔ (key ≠ "" ∧ '=' ∉ key.toList) ∧
      ∃ component ∈ path.queryComponents, ∃ after,
        component = (key ++ "=").toList.map .char ++ .hole f :: after := by
  obtain ⟨n, hn, hrow⟩ := Option.map_eq_some_iff.1 queried_runOn
  obtain ⟨hkeys, hcomponents⟩ := Prod.mk.inj hrow
  refine ⟨n, List.mem_of_find?_eq_some hn, fun hall => ?_⟩
  obtain ⟨⟨key, f⟩, hmem, hkey⟩ := List.mem_map.1 (hkeys ▸ List.mem_cons_of_mem "a" (.head []))
  obtain rfl : key = "b" := hkey
  obtain ⟨-, component, hcomponent, after, rfl⟩ := (hall "b" f).1 hmem
  have hspelled := hcomponents ▸ List.mem_map_of_mem (f := spelled) hcomponent
  have hkeyed : ("b" ++ "=").toList = ['b', '='] := by decide +kernel
  have hfirst : "a=%sb=%s".toList.head? = some 'a' := by decide +kernel
  have hhead := congrArg (·.toList.head?) (List.mem_singleton.1 hspelled)
  simp only [spelled, spellAll_append, spellAll_map_char, String.toList_ofList, hkeyed, hfirst,
    List.cons_append, List.head?_cons] at hhead
  exact absurd (Option.some.inj hhead) (by decide)

end RouteCheck
