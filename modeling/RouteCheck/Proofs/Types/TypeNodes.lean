import RouteCheck.Types.Ty

/-!
What type nodes are read as.

A type node is read as a type that is made of those of its parts in the way that its kind says, and
parentheses around it make no difference. A `Mold` is a type with some places left open; a type node
is cast in it if it is written as the mold says, with one and the same type in the open places. What
it is read as tells which type that is.

Main statements:
  1. `Ty.ofNode_pointerType` and the lemmas that follow it: one kind of type node each.
  2. `Ty.ofNode_unparenType`: parentheses around a type.
  3. `Node.ofNode_of_casts`: what is cast in a mold is read as the filled mold.
  4. `Ty.Mold.fill_inj`: a filled mold tells what it is filled with.
-/

namespace RouteCheck

namespace Ty

variable {file : SourceFile} {n c k v l : Node}

theorem ofFirst_eq (file : SourceFile) (cs : List Node) :
    ofNode.ofFirst file cs = ((cs.filter (·.kind.isNamed)).head?).map (ofNode file) := by
  induction cs with
  | nil => rfl
  | cons c cs ih =>
    rw [ofNode.ofFirst, ih, List.filter_cons]
    split <;> rfl

theorem ofField_eq (file : SourceFile) (f : Field) (cs : List Node) :
    ofNode.ofField file f cs = (cs.find? (·.inField == some f)).map (ofNode file) := by
  induction cs with
  | nil => rfl
  | cons c cs ih =>
    rw [ofNode.ofField, ih, List.find?_cons]
    by_cases h : c.inField = some f
    · rw [if_pos h, beq_iff_eq.2 h, Option.map_some]
    · rw [if_neg h, beq_eq_false_iff_ne.2 h]

attribute [grind =] ofNode

theorem ofNode_pointerType (h : n.kind = .pointerType) (hc : n.named.head? = some c) :
    ofNode file n = .pointer (ofNode file c) := by
  obtain ⟨head, cs⟩ := n
  have h : head.kind = .pointerType := h
  have hc : (cs.filter (·.kind.isNamed)).head? = some c := hc
  simp only [ofNode, h, ofFirst_eq, hc, Option.map_some, Option.elim_some]

theorem ofNode_parenthesizedType (h : n.kind = .parenthesizedType) :
    ofNode file n = (n.named.head?.map (ofNode file)).getD .unknown := by
  obtain ⟨head, cs⟩ := n
  have h : head.kind = .parenthesizedType := h
  simp only [ofNode, h, ofFirst_eq]
  rfl

theorem ofNode_sliceType (h : n.kind = .sliceType) (hc : n.field? .element = some c) :
    ofNode file n = .slice (ofNode file c) := by
  obtain ⟨head, cs⟩ := n
  have h : head.kind = .sliceType := h
  have hc : cs.find? (·.inField == some .element) = some c := hc
  simp only [ofNode, h, ofField_eq, hc, Option.map_some, Option.elim_some]

theorem ofNode_arrayType (h : n.kind = .arrayType) (hl : n.field? .length = some l)
    (hc : n.field? .element = some c) : ofNode file n = .array l.text (ofNode file c) := by
  obtain ⟨head, cs⟩ := n
  have h : head.kind = .arrayType := h
  have hc : cs.find? (·.inField == some .element) = some c := hc
  simp only [ofNode, h, hl, ofField_eq, hc, Option.map_some]

theorem ofNode_mapType (h : n.kind = .mapType) (hk : n.field? .key = some k)
    (hv : n.field? .value = some v) : ofNode file n = .map (ofNode file k) (ofNode file v) := by
  obtain ⟨head, cs⟩ := n
  have h : head.kind = .mapType := h
  have hk : cs.find? (·.inField == some .key) = some k := hk
  have hv : cs.find? (·.inField == some .value) = some v := hv
  simp only [ofNode, h, ofField_eq, hk, hv, Option.map_some]

theorem ofNode_channelType (h : n.kind = .channelType) (hc : n.field? .value = some c) :
    ofNode file n = .chan (ofNode file c) := by
  obtain ⟨head, cs⟩ := n
  have h : head.kind = .channelType := h
  have hc : cs.find? (·.inField == some .value) = some c := hc
  simp only [ofNode, h, ofField_eq, hc, Option.map_some, Option.elim_some]

theorem ofNode_structType (h : n.kind = .structType) : ofNode file n = .struct := by
  obtain ⟨head, cs⟩ := n
  have h : head.kind = .structType := h
  simp only [ofNode, h]

theorem ofNode_identifier (h : n.kind = .typeIdentifier ∨ n.kind = .identifier) :
    ofNode file n = ofName file n.text := by
  obtain ⟨head, cs⟩ := n
  have h : head.kind = .typeIdentifier ∨ head.kind = .identifier := h
  rcases h with h | h <;> simp only [ofNode, h] <;> rfl

theorem ofNode_qualifiedType (h : n.kind = .qualifiedType) (hk : n.field? .package = some k)
    (hv : n.field? .name = some v) :
    ofNode file n = .declared ((file.import? k.text).getD k.text) v.text := by
  obtain ⟨head, cs⟩ := n
  have h : head.kind = .qualifiedType := h
  simp only [ofNode, h, hk, hv]

end Ty

/-! ## Parentheses -/

/-- A type expression without the parentheses around it. -/
def Node.unparenType (n : Node) : Node :=
  if n.kind = .parenthesizedType then
    match _h : n.named.head? with
    | some inner => inner.unparenType
    | none => n
  else n
termination_by n.size
decreasing_by exact size_lt_of_mem_named (List.mem_of_mem_head? (by simpa using _h))

theorem Node.unparenType_of_ne {n : Node} (h : n.kind ≠ .parenthesizedType) : n.unparenType = n := by
  rw [unparenType, if_neg h]

theorem Ty.ofNode_unparenType (file : SourceFile) (n : Node) :
    ofNode file n.unparenType = ofNode file n := by
  fun_induction Node.unparenType n with
  | case1 n hkind inner hinner ih =>
    rw [ih, ofNode_parenthesizedType hkind, hinner]
    rfl
  | case2 n hkind hnone => rfl
  | case3 n hkind => rfl

/-! ## Molds -/

/-- A type with some places left open. -/
inductive Ty.Mold where
  | hole
  | type (t : Ty)
  | pointer (target : Mold)
  | slice (item : Mold)
  | array (length : String) (item : Mold)
  | map (key value : Mold)
  | chan (item : Mold)
  deriving DecidableEq, Repr

namespace Ty.Mold

/-- The mold with a type in its open places. -/
def fill (t : Ty) : Mold → Ty
  | hole => t
  | type u => u
  | pointer m => .pointer (m.fill t)
  | slice m => .slice (m.fill t)
  | array l m => .array l (m.fill t)
  | map k v => .map (k.fill t) (v.fill t)
  | chan m => .chan (m.fill t)

def isOpen : Mold → Bool
  | hole => true
  | type _ => false
  | pointer m | slice m | array _ m | chan m => m.isOpen
  | map k v => k.isOpen || v.isOpen

/-- A filled mold tells what it is filled with. -/
theorem fill_inj {a b : Ty} : ∀ {m : Mold}, m.isOpen = true → (m.fill a = m.fill b ↔ a = b)
  | hole, _ => Iff.rfl
  | pointer m, h => by rw [fill, fill, Ty.pointer.injEq, fill_inj (m := m) h]
  | slice m, h => by rw [fill, fill, Ty.slice.injEq, fill_inj (m := m) h]
  | chan m, h => by rw [fill, fill, Ty.chan.injEq, fill_inj (m := m) h]
  | array l m, h => by
    rw [fill, fill, Ty.array.injEq, fill_inj (m := m) h]
    exact and_iff_right rfl
  | map k v, h => by
    rw [fill, fill, Ty.map.injEq]
    refine ⟨fun ⟨hk, hv⟩ => ?_, fun hab => by rw [hab]; exact ⟨rfl, rfl⟩⟩
    rcases Bool.or_eq_true_iff.1 h with h | h
    · exact (fill_inj h).1 hk
    · exact (fill_inj h).1 hv

end Ty.Mold

/-- The type expression of `file` is written as the mold says, and what stands in the open places is
read as `t`. -/
def Node.casts (file : SourceFile) (t : Ty) : Ty.Mold → Node → Bool
  | .hole, n => Ty.ofNode file n == t
  | .type u, n => Ty.ofNode file n == u
  | .pointer m, n => n.unparenType.kind == .pointerType &&
      n.unparenType.named.head?.any (casts file t m)
  | .slice m, n => n.unparenType.kind == .sliceType &&
      (n.unparenType.field? .element).any (casts file t m)
  | .array l m, n => n.unparenType.kind == .arrayType &&
      (n.unparenType.field? .length).any (·.text == l) &&
      (n.unparenType.field? .element).any (casts file t m)
  | .map k v, n => n.unparenType.kind == .mapType &&
      (n.unparenType.field? .key).any (casts file t k) &&
      (n.unparenType.field? .value).any (casts file t v)
  | .chan m, n => n.unparenType.kind == .channelType &&
      (n.unparenType.field? .value).any (casts file t m)

/-- What is cast in a mold is read as the filled mold. -/
theorem Node.ofNode_of_casts {file : SourceFile} {t : Ty} {m : Ty.Mold} {n : Node}
    (h : n.casts file t m = true) : Ty.ofNode file n = m.fill t := by
  induction m generalizing n with
  | hole => exact eq_of_beq h
  | type u => exact eq_of_beq h
  | pointer m ih =>
    obtain ⟨hkind, h⟩ := Bool.and_eq_true_iff.1 h
    obtain ⟨c, hc, h⟩ := (Option.any_eq_true _ _).1 h
    rw [← Ty.ofNode_unparenType, Ty.ofNode_pointerType (eq_of_beq hkind) hc, ih h]
    rfl
  | slice m ih =>
    obtain ⟨hkind, h⟩ := Bool.and_eq_true_iff.1 h
    obtain ⟨c, hc, h⟩ := (Option.any_eq_true _ _).1 h
    rw [← Ty.ofNode_unparenType, Ty.ofNode_sliceType (eq_of_beq hkind) hc, ih h]
    rfl
  | array l m ih =>
    obtain ⟨h, hitem⟩ := Bool.and_eq_true_iff.1 h
    obtain ⟨hkind, h⟩ := Bool.and_eq_true_iff.1 h
    obtain ⟨_, hl, hlength⟩ := (Option.any_eq_true _ _).1 h
    obtain ⟨c, hc, h⟩ := (Option.any_eq_true _ _).1 hitem
    rw [← Ty.ofNode_unparenType, Ty.ofNode_arrayType (eq_of_beq hkind) hl hc, ih h,
      eq_of_beq hlength]
    rfl
  | map k v ihk ihv =>
    obtain ⟨h, hvalue⟩ := Bool.and_eq_true_iff.1 h
    obtain ⟨hkind, h⟩ := Bool.and_eq_true_iff.1 h
    obtain ⟨_, hk, hkey⟩ := (Option.any_eq_true _ _).1 h
    obtain ⟨_, hv, hvalue⟩ := (Option.any_eq_true _ _).1 hvalue
    rw [← Ty.ofNode_unparenType, Ty.ofNode_mapType (eq_of_beq hkind) hk hv, ihk hkey, ihv hvalue]
    rfl
  | chan m ih =>
    obtain ⟨hkind, h⟩ := Bool.and_eq_true_iff.1 h
    obtain ⟨c, hc, h⟩ := (Option.any_eq_true _ _).1 h
    rw [← Ty.ofNode_unparenType, Ty.ofNode_channelType (eq_of_beq hkind) hc, ih h]
    rfl

end RouteCheck
