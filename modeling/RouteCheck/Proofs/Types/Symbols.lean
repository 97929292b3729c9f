import RouteCheck.Check.Route
import RouteCheck.Proofs.Text.Split

/-!
Templates symbol by symbol.

A symbol is a character of the text of a template, or a hole. Where the pieces of a template end
plays no role for its rendering or for its slots: both can be read off the symbols, and so can the
segments of its path.

Main statements:
  1. `toList_render`: the rendering spells the symbols.
  2. `path_slots`: the path slots are what fills the holes before the first `?`.
  3. `split_headD_render`: the segments of the rendered path are those of the template, spelled.
-/

namespace RouteCheck

/-- A character of a template, or a hole with what fills it. -/
inductive Symbol where
  | char (c : Char)
  | hole (filler : Option Node)

namespace Symbol

def is (c : Char) : Symbol → Bool
  | char d => d == c
  | hole _ => false

/-- What fills the symbol, if it is a hole. -/
def filler? : Symbol → Option (Option Node)
  | char _ => none
  | hole f => some f

/-- The characters of the symbol, a hole written `%s`. -/
def spell : Symbol → List Char
  | char c => [c]
  | hole _ => ['%', 's']

end Symbol

def spellAll (syms : List Symbol) : List Char := syms.flatMap Symbol.spell

def spelled (syms : List Symbol) : String := String.ofList (spellAll syms)

def fillers (syms : List Symbol) : List (Option Node) := syms.filterMap Symbol.filler?

def Piece.symbols : Piece → List Symbol
  | lit s => s.toList.map .char
  | hole f => [.hole f]

namespace Template

def symbols (t : Template) : List Symbol := t.pieces.flatMap Piece.symbols

def pathSymbols (t : Template) : List Symbol := t.symbols.takeWhile (!·.is '?')

/-- Segments of the path: the symbols before the first `?`, cut at `/`. -/
def segments (t : Template) : List (List Symbol) := t.pathSymbols.splitOnP (·.is '/')

end Template

/-! ## Spelling -/

section
variable {syms : List Symbol} {c : Char}

@[simp] theorem spellAll_nil : spellAll [] = [] := rfl

@[simp] theorem spellAll_cons (sym : Symbol) (syms : List Symbol) :
    spellAll (sym :: syms) = sym.spell ++ spellAll syms := rfl

@[simp] theorem spellAll_append (syms syms' : List Symbol) :
    spellAll (syms ++ syms') = spellAll syms ++ spellAll syms' := List.flatMap_append

@[simp] theorem spellAll_map_char (cs : List Char) : spellAll (cs.map .char) = cs := by
  induction cs with
  | nil => rfl
  | cons c cs ih => rw [List.map_cons, spellAll_cons, ih]; rfl

theorem spellAll_symbols (p : Piece) : spellAll p.symbols = p.render.toList := by
  cases p with
  | lit s => exact spellAll_map_char _
  | hole f => exact String.toList_ofList.symm

theorem spell_of_is {sym : Symbol} (h : sym.is c = true) : sym.spell = [c] := by
  cases sym with
  | char d => simpa [Symbol.spell, Symbol.is] using h
  | hole f => simp [Symbol.is] at h

theorem not_mem_spell (hc : c ∉ ['%', 's']) {sym : Symbol} (h : sym.is c = false) :
    c ∉ sym.spell := by
  cases sym with
  | char d =>
    have hne : d ≠ c := by simpa [Symbol.is] using h
    simpa [Symbol.spell] using hne.symm
  | hole f => exact hc

theorem takeWhile_spellAll (hc : c ∉ ['%', 's']) (syms : List Symbol) :
    (spellAll syms).takeWhile (· != c) = spellAll (syms.takeWhile (!·.is c)) := by
  induction syms with
  | nil => rfl
  | cons sym syms ih =>
    rw [spellAll_cons, List.takeWhile_cons]
    cases h : sym.is c with
    | true => simp [spell_of_is h]
    | false =>
      have hspell : ∀ d ∈ sym.spell, (d != c) = true := fun d hd =>
        bne_iff_ne.2 fun heq => not_mem_spell hc h (heq ▸ hd)
      rw [List.takeWhile_append_of_pos hspell, ih]
      rfl

/-- The spelling is cut where the symbols are. -/
theorem splitOn_spellAll (hc : c ∉ ['%', 's']) (syms : List Symbol) :
    (spellAll syms).splitOn c = (syms.splitOnP (·.is c)).map spellAll := by
  induction syms with
  | nil => rfl
  | cons sym syms ih =>
    rw [spellAll_cons, List.splitOnP_cons_eq_if_modifyHead]
    cases h : sym.is c with
    | true =>
      rw [spell_of_is h, List.singleton_append, List.splitOn_cons_eq_if_modifyHead, ih]
      simp
    | false =>
      rw [Text.splitOn_append_of_not_mem (not_mem_spell hc h), ih]
      cases syms.splitOnP (·.is c) with
      | nil => rfl
      | cons seg segs => simp

end

/-! ## Slots -/

section
variable {syms : List Symbol}

@[simp] theorem fillers_nil : fillers [] = [] := rfl

@[simp] theorem fillers_append (syms syms' : List Symbol) :
    fillers (syms ++ syms') = fillers syms ++ fillers syms' := List.filterMap_append

@[simp] theorem fillers_char (c : Char) (syms : List Symbol) :
    fillers (.char c :: syms) = fillers syms := rfl

@[simp] theorem fillers_hole (f : Option Node) (syms : List Symbol) :
    fillers (.hole f :: syms) = f :: fillers syms := rfl

@[simp] theorem fillers_map_char (cs : List Char) : fillers (cs.map .char) = [] := by
  simp [fillers, Symbol.filler?]

/-- Cutting at a character loses no hole. -/
theorem flatMap_fillers_splitOnP (c : Char) (syms : List Symbol) :
    (syms.splitOnP (·.is c)).flatMap fillers = fillers syms := by
  induction syms with
  | nil => rfl
  | cons sym syms ih =>
    rw [List.splitOnP_cons_eq_if_modifyHead]
    cases hsegments : syms.splitOnP (·.is c) with
    | nil => exact absurd hsegments (List.splitOnP_ne_nil _ syms)
    | cons seg segs =>
      rw [hsegments, List.flatMap_cons] at ih
      cases sym with
      | char d => split <;> simpa using ih
      | hole f => simpa [Symbol.is] using ih

theorem path_slotsOf (ps : List Piece) : (Template.slotsOf ps).path =
    fillers ((ps.flatMap Piece.symbols).takeWhile (!·.is '?')) := by
  induction ps with
  | nil => rfl
  | cons p ps ih =>
    cases p with
    | hole f => simp [Template.slotsOf, Piece.symbols, Symbol.is, ih]
    | lit s =>
      rw [Template.slotsOf, Text.cut?_eq, List.flatMap_cons, Piece.symbols, List.takeWhile_append,
        List.takeWhile_map]
      have hsame : (fun sym : Symbol => !sym.is '?') ∘ Symbol.char = (· != '?') := rfl
      rw [hsame]
      cases hrest : s.toList.dropWhile (· != '?') with
      | nil =>
        have hall : s.toList.takeWhile (· != '?') = s.toList := by
          simpa [hrest] using List.takeWhile_append_dropWhile (p := (· != '?')) (l := s.toList)
        simp [hall, ih]
      | cons d after =>
        have hlength : (s.toList.takeWhile (· != '?')).length < s.toList.length := by
          have := congrArg List.length
            (List.takeWhile_append_dropWhile (p := (· != '?')) (l := s.toList))
          simp only [hrest, List.length_append, List.length_cons] at this
          omega
        rw [List.length_map, List.length_map, if_neg (by omega), fillers_map_char]

/-- Symbols that do not spell a wildcard anywhere have no hole. -/
theorem fillers_eq_nil (h : ¬ ['%', 's'] <:+: spellAll syms) : fillers syms = [] := by
  rw [fillers, List.filterMap_eq_nil_iff]
  intro sym hsym
  cases sym with
  | char c => rfl
  | hole f =>
    obtain ⟨before, after, rfl⟩ := List.append_of_mem hsym
    refine absurd ⟨spellAll before, spellAll after, ?_⟩ h
    rw [spellAll_append, spellAll_cons, List.append_assoc]
    rfl

end

namespace Template
variable (t : Template)

theorem toList_render : t.render.toList = spellAll t.symbols := by
  have hfold (ps : List Piece) (text : String) :
      (ps.foldl (fun s p => s ++ p.render) text).toList =
        text.toList ++ spellAll (ps.flatMap Piece.symbols) := by
    induction ps generalizing text with
    | nil => simp
    | cons p ps ih =>
      rw [List.foldl_cons, ih, String.toList_append, List.flatMap_cons, spellAll_append,
        spellAll_symbols, List.append_assoc]
  exact hfold t.pieces ""

theorem path_slots : t.slots.path = fillers t.pathSymbols := path_slotsOf t.pieces

theorem path_slots_eq_flatMap : t.slots.path = t.segments.flatMap fillers := by
  rw [path_slots, segments, flatMap_fillers_splitOnP]

theorem headD_split_render (other : String) :
    (Text.split '?' t.render).headD other = spelled t.pathSymbols := by
  rw [Text.headD_split, toList_render, takeWhile_spellAll (by decide), pathSymbols, spelled]

/-- The segments of the rendering are those of the template, spelled. -/
theorem split_headD_render (other : String) :
    Text.split '/' ((Text.split '?' t.render).headD other) = t.segments.map spelled := by
  rw [headD_split_render, spelled, Text.split_eq, String.toList_ofList,
    splitOn_spellAll (by decide), segments, List.map_map]
  rfl

end Template
end RouteCheck
