import RouteCheck.Proofs.Tree.Lexemes
import RouteCheck.Types.Ty

/-!
Types can be told apart by their texts.

The text of a type ends where its part in another type's text does: at the end, or before a bracket
that closes. Named types have a package without brackets, stars and blanks, and a name that is a
word; what stands in the brackets of an array closes there and nowhere else.

Main statements:
  1. `ofAtom_render`: a type without parts is read off its text.
  2. `render_append_inj`: the texts of types, with what follows them.
  3. `render_inj`: types with one text are one type.
-/

namespace RouteCheck.Ty
open Token (IsWord Bracketed bracketed_nil bracketed_inj)

/-- The name of a package has no brackets, stars and blanks. -/
def IsPackageName (s : String) : Prop := ∀ c ∈ s.toList, c ∉ ['*', '[', ']', ' ']

instance (s : String) : Decidable (IsPackageName s) :=
  List.decidableBAll (· ∉ ['*', '[', ']', ' ']) s.toList

/-- The names and lengths in the type are written as those of a source are. -/
def Spelled : Ty → Prop
  | named none n => isBuiltinName n = true
  | named (some p) n => IsPackageName p ∧ IsWord n
  | pointer t | slice t | chan t => t.Spelled
  | array l t => (Bracketed l.toList ∧ l ≠ "") ∧ t.Spelled
  | map k v => k.Spelled ∧ v.Spelled
  | _ => True

def isAtom : Ty → Bool
  | pointer _ | slice _ | array _ _ | map _ _ | chan _ => false
  | _ => true

attribute [grind =] render

/-! ## Types without parts -/

/-- What stands behind the last point of a text. -/
def lastName (cs : List Char) : List Char := (cs.reverse.takeWhile (· != '.')).reverse

/-- The type without parts that has this text. -/
def ofAtom (s : String) : Ty :=
  if s = "func" then func
  else if s = "interface\x7b\x7d" then interface
  else if s = "struct\x7b...\x7d" then struct
  else if s = "untyped nil" then untypedNil
  else if s = "invalid type" then unknown
  else if isBuiltinName s then named none s
  else
    let n := lastName s.toList
    named (some (String.ofList (s.toList.take (s.toList.length - n.length - 1)))) (String.ofList n)

section
variable {a b : Ty} {p n : String}

theorem not_mem_of_isWord {c : Char} (hc : Token.isWordChar c = false) (hn : IsWord n) :
    c ∉ n.toList := fun h => absurd (hc.symm.trans (hn.2 c h)) nofun

theorem isWordChar_eq_false {c : Char} (hc : c ∈ ['*', '[', ']', ' ']) :
    Token.isWordChar c = false := by
  simp only [List.mem_cons, List.not_mem_nil, or_false] at hc
  rcases hc with rfl | rfl | rfl | rfl <;> decide

theorem toList_render_named : (named (some p) n).render.toList = p.toList ++ '.' :: n.toList := by
  simp [render]

theorem lastName_render (hn : IsWord n) : lastName (named (some p) n).render.toList = n.toList := by
  have hpoint : ∀ c ∈ n.toList.reverse, (c != '.') = true := by
    intro c hc
    have hne : c ≠ '.' := fun heq =>
      not_mem_of_isWord (by decide) hn (heq ▸ List.mem_reverse.1 hc)
    simpa using hne
  rw [lastName, toList_render_named, List.reverse_append, List.reverse_cons, List.append_assoc,
    List.takeWhile_append_of_pos hpoint]
  simp

theorem ofAtom_render_named (hn : IsWord n) :
    ofAtom (named (some p) n).render = named (some p) n := by
  have hne {s : String} (hs : '.' ∉ s.toList) : (named (some p) n).render ≠ s := by
    rintro rfl
    exact hs (by rw [toList_render_named]; simp)
  have hstruct : (named (some p) n).render ≠ "struct\x7b...\x7d" := by
    intro heq
    have hbrace : lastName "struct\x7b...\x7d".toList = ['\x7d'] := by decide
    have hlast := lastName_render (p := p) hn
    rw [heq, hbrace] at hlast
    exact not_mem_of_isWord (c := '\x7d') (by decide) hn (by simp [← hlast])
  have hbuiltin : isBuiltinName (named (some p) n).render = false := by
    have hnames : ∀ s ∈ builtinNames, '.' ∉ s.toList := by decide
    by_contra h
    exact hne (hnames _ (by simpa [isBuiltinName] using h)) rfl
  rw [ofAtom, if_neg (hne (by decide)), if_neg (hne (by decide)), if_neg hstruct,
    if_neg (hne (by decide)), if_neg (hne (by decide)), if_neg (by simp [hbuiltin])]
  dsimp only
  have hlength : p.toList.length = (p.toList ++ '.' :: n.toList).length - n.toList.length - 1 := by
    rw [List.length_append, List.length_cons]
    omega
  rw [lastName_render hn, toList_render_named, List.take_left' hlength, String.ofList_toList,
    String.ofList_toList]

/-- A type without parts is read off its text. -/
theorem ofAtom_render (ha : a.isAtom = true) (hs : a.Spelled) : ofAtom a.render = a := by
  cases a with
  | pointer t | slice t | array l t | map k v | chan t => exact absurd ha nofun
  | func | interface | struct | untypedNil | unknown => decide
  | named p n =>
    cases p with
    | none =>
      have hall : ∀ n ∈ builtinNames, ofAtom n = named none n := by decide
      exact hall n (by simpa [Spelled, isBuiltinName] using hs)
    | some p => exact ofAtom_render_named hs.2

theorem toList_render_pointer {t : Ty} : (pointer t).render.toList = '*' :: t.render.toList := by
  simp [render]

theorem toList_render_slice {t : Ty} :
    (slice t).render.toList = '[' :: ([] ++ ']' :: t.render.toList) := by simp [render]

theorem toList_render_array {l : String} {t : Ty} :
    (array l t).render.toList = '[' :: (l.toList ++ ']' :: t.render.toList) := by simp [render]

theorem toList_render_map {k v : Ty} : (map k v).render.toList =
    ['m', 'a', 'p', '['] ++ (k.render.toList ++ ']' :: v.render.toList) := by simp [render]

theorem toList_render_chan {t : Ty} :
    (chan t).render.toList = ['c', 'h', 'a', 'n', ' '] ++ t.render.toList := by simp [render]

/-- How the texts of types with parts begin. -/
def leads : List (List Char) :=
  [['*'], ['['], ['m', 'a', 'p', '['], ['c', 'h', 'a', 'n', ' ']]

theorem exists_lead (ha : a.isAtom = false) : ∃ l ∈ leads, l <+: a.render.toList := by
  cases a with
  | pointer t => exact ⟨['*'], by decide, _, toList_render_pointer.symm⟩
  | slice t => exact ⟨['['], by decide, _, toList_render_slice.symm⟩
  | array l t => exact ⟨['['], by decide, _, toList_render_array.symm⟩
  | map k v => exact ⟨['m', 'a', 'p', '['], by decide, _, toList_render_map.symm⟩
  | chan t => exact ⟨['c', 'h', 'a', 'n', ' '], by decide, _, toList_render_chan.symm⟩
  | named p n | func | interface | struct | untypedNil | unknown => exact absurd ha nofun

theorem not_lead (ha : a.isAtom = true) (hs : a.Spelled) :
    ']' ∉ a.render.toList ∧ ∀ l ∈ leads, ¬ l <+: a.render.toList := by
  have hconst (s : String) (h : ']' ∉ s.toList ∧ ∀ l ∈ leads, l.isPrefixOf s.toList = false) :
      ']' ∉ s.toList ∧ ∀ l ∈ leads, ¬ l <+: s.toList :=
    ⟨h.1, fun l hl hleads =>
      absurd ((h.2 l hl).symm.trans (List.isPrefixOf_iff_prefix.2 hleads)) nofun⟩
  cases a with
  | pointer t | slice t | array l t | map k v | chan t => exact absurd ha nofun
  | func | interface | struct | untypedNil | unknown => exact hconst _ (by decide)
  | named p n =>
    cases p with
    | none =>
      have hall : ∀ n ∈ builtinNames, ']' ∉ n.toList ∧
          ∀ l ∈ leads, l.isPrefixOf n.toList = false := by decide
      exact hconst n (hall n (by simpa [Spelled, isBuiltinName] using hs))
    | some p =>
      have hchars : ∀ c ∈ ['*', '[', ']', ' '], c ∉ (named (some p) n).render.toList := by
        intro c hc hmem
        rw [toList_render_named, List.mem_append, List.mem_cons] at hmem
        rcases hmem with hmem | rfl | hmem
        · exact hs.1 c hmem hc
        · exact absurd hc (by decide)
        · exact not_mem_of_isWord (isWordChar_eq_false hc) hs.2 hmem
      refine ⟨hchars ']' (by decide), fun l hl hleads => ?_⟩
      have hmarked : ∀ l ∈ leads, l.any ['*', '[', ']', ' '].contains = true := by decide
      obtain ⟨c, hcl, hc⟩ := List.any_eq_true.1 (hmarked l hl)
      exact hchars c (List.contains_iff_mem.1 hc) (hleads.subset hcl)

/-! ## Types with parts -/

/-- What may follow the text of a type: nothing, or a bracket that closes. -/
def Ends (xs : List Char) : Prop := xs = [] ∨ ∃ zs, xs = ']' :: zs

theorem ends_bracket {zs : List Char} : Ends (']' :: zs) := .inr ⟨zs, rfl⟩

theorem takeWhile_ends {cs xs : List Char} (hcs : ']' ∉ cs) (hxs : Ends xs) :
    (cs ++ xs).takeWhile (· != ']') = cs := by
  have hplain : ∀ c ∈ cs, (c != ']') = true := fun c hc => by
    simpa using fun heq : c = ']' => hcs (heq ▸ hc)
  rw [List.takeWhile_append_of_pos hplain]
  rcases hxs with rfl | ⟨zs, rfl⟩ <;> simp

theorem render_append_inj_atom {xs ys : List Char} (ha : a.isAtom = true) (hsa : a.Spelled)
    (hsb : b.Spelled) (hxs : Ends xs) (hys : Ends ys)
    (h : a.render.toList ++ xs = b.render.toList ++ ys) : a = b ∧ xs = ys := by
  have hleft := takeWhile_ends (not_lead ha hsa).1 hxs
  have hb : b.isAtom = true := by
    by_contra hb
    obtain ⟨l, hl, hleads⟩ := exists_lead (Bool.eq_false_of_not_eq_true hb)
    have hplain : ∀ l ∈ leads, l.all (· != ']') = true := by decide
    obtain ⟨t, ht⟩ := hleads.trans (List.prefix_append b.render.toList ys)
    rw [h, ← ht, List.takeWhile_append_of_pos (List.all_eq_true.1 (hplain l hl))] at hleft
    exact (not_lead ha hsa).2 l hl ⟨_, hleft⟩
  have hright := takeWhile_ends (not_lead hb hsb).1 hys
  have htext : a.render = b.render := by
    rw [← String.toList_inj, ← hleft, ← hright, h]
  refine ⟨?_, ?_⟩
  · rw [← ofAtom_render ha hsa, htext, ofAtom_render hb hsb]
  · rw [htext] at h
    exact List.append_cancel_left h

theorem render_append_inj_atom' {xs ys : List Char} (hb : b.isAtom = true) (hsa : a.Spelled)
    (hsb : b.Spelled) (hxs : Ends xs) (hys : Ends ys)
    (h : a.render.toList ++ xs = b.render.toList ++ ys) : a = b ∧ xs = ys :=
  (render_append_inj_atom hb hsb hsa hys hxs h.symm).imp Eq.symm Eq.symm

/-- The texts of types, with what follows them. -/
theorem render_append_inj {xs ys : List Char} (hsa : a.Spelled) (hsb : b.Spelled) (hxs : Ends xs)
    (hys : Ends ys) (h : a.render.toList ++ xs = b.render.toList ++ ys) : a = b ∧ xs = ys := by
  induction a generalizing b xs ys with
  | named p n | func | interface | struct | untypedNil | unknown =>
    exact render_append_inj_atom rfl hsa hsb hxs hys h
  | pointer t ih =>
    cases b with
    | named p n | func | interface | struct | untypedNil | unknown =>
      exact render_append_inj_atom' rfl hsa hsb hxs hys h
    | slice t' | array l' t' | map k' v' | chan t' => simp [render] at h
    | pointer t' =>
      rw [toList_render_pointer, toList_render_pointer] at h
      obtain ⟨rfl, rfl⟩ := ih (b := t') hsa hsb hxs hys (List.cons.inj h).2
      exact ⟨rfl, rfl⟩
  | slice t ih =>
    cases b with
    | named p n | func | interface | struct | untypedNil | unknown =>
      exact render_append_inj_atom' rfl hsa hsb hxs hys h
    | pointer t' | map k' v' | chan t' => simp [render] at h
    | slice t' =>
      rw [toList_render_slice, toList_render_slice] at h
      obtain ⟨rfl, rfl⟩ := ih (b := t') hsa hsb hxs hys (List.cons.inj (List.cons.inj h).2).2
      exact ⟨rfl, rfl⟩
    | array l' t' =>
      rw [toList_render_slice, toList_render_array, List.cons_append, List.cons_append,
        List.append_assoc, List.append_assoc] at h
      have hl := (bracketed_inj bracketed_nil hsb.1.1 (List.cons.inj h).2).1
      exact absurd (String.toList_inj.1 hl.symm) hsb.1.2
  | array l t ih =>
    cases b with
    | named p n | func | interface | struct | untypedNil | unknown =>
      exact render_append_inj_atom' rfl hsa hsb hxs hys h
    | pointer t' | map k' v' | chan t' => simp [render] at h
    | slice t' =>
      rw [toList_render_array, toList_render_slice, List.cons_append, List.cons_append,
        List.append_assoc, List.append_assoc] at h
      have hl := (bracketed_inj hsa.1.1 bracketed_nil (List.cons.inj h).2).1
      exact absurd (String.toList_inj.1 hl) hsa.1.2
    | array l' t' =>
      rw [toList_render_array, toList_render_array, List.cons_append, List.cons_append,
        List.append_assoc, List.append_assoc] at h
      obtain ⟨hl, h⟩ := bracketed_inj hsa.1.1 hsb.1.1 (List.cons.inj h).2
      obtain ⟨rfl, rfl⟩ := ih hsa.2 hsb.2 hxs hys h
      exact ⟨by rw [String.toList_inj.1 hl], rfl⟩
  | map k v ihk ihv =>
    cases b with
    | named p n | func | interface | struct | untypedNil | unknown =>
      exact render_append_inj_atom' rfl hsa hsb hxs hys h
    | pointer t' | slice t' | array l' t' | chan t' => simp [render] at h
    | map k' v' =>
      have h : k.render.toList ++ ']' :: (v.render.toList ++ xs) =
          k'.render.toList ++ ']' :: (v'.render.toList ++ ys) := by
        simpa [toList_render_map] using h
      obtain ⟨rfl, hrest⟩ := ihk hsa.1 hsb.1 ends_bracket ends_bracket h
      obtain ⟨rfl, rfl⟩ := ihv hsa.2 hsb.2 hxs hys (List.cons.inj hrest).2
      exact ⟨rfl, rfl⟩
  | chan t ih =>
    cases b with
    | named p n | func | interface | struct | untypedNil | unknown =>
      exact render_append_inj_atom' rfl hsa hsb hxs hys h
    | pointer t' | slice t' | array l' t' | map k' v' => simp [render] at h
    | chan t' =>
      rw [toList_render_chan, toList_render_chan, List.append_assoc, List.append_assoc] at h
      obtain ⟨rfl, rfl⟩ := ih (b := t') hsa hsb hxs hys (List.append_cancel_left h)
      exact ⟨rfl, rfl⟩

/-- Types with one text are one type. -/
theorem render_inj (ha : a.Spelled) (hb : b.Spelled) (h : a.render = b.render) : a = b :=
  have hends : Ends [] := .inl rfl
  (render_append_inj ha hb hends hends (by rw [h])).1

end
end RouteCheck.Ty
