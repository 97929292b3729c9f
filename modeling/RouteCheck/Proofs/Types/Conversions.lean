import RouteCheck.Proofs.Check.Shadowing
import RouteCheck.Proofs.Tree.TypeExpressions
import RouteCheck.Proofs.Types.TypeNodes

/-!
Conversions to pointers and the types that they are written as.

The type of a conversion is read as an expression and found by `Typer.typeDenoted?`; a type in a
declaration is read as a type and found by `Ty.ofNode`. Both come to one and the same type, which is
told from what is written. There is one gap: `nil`, `true`, `false` and `iota` have kinds of their
own where an expression is read, even if the package declares types of these names, and no type is
found for them there.

Main statements:
  1. `TypeExpr.Expressed.label`, `TypeExpr.Denoted.label`: the nodes in the tree of a source text.
  2. `TypeExpr.ofNode_of_denoted`: what the type is, read as a type.
  3. `TypeExpr.typeDenoted?_of_expressed`: what it is, read as an expression.
  4. `conversion_typed_as_declared`: both readings, from the tokens on.
-/

namespace RouteCheck
open Token (IsWord scan)

/-! ## Labels -/

section
variable {source : String} {k : Nat} {n : Node} {kind : Kind} {t : Token} {ts target : List Token}
  {ty : TypeExpr}

theorem Node.children_label :
    (Node.label source k n).1.children = (Node.labels source (k + 1) n.children).1 := by
  cases n
  rfl

theorem Node.children_label_singleton {x : Node} (h : n.children = [x]) :
    (Node.label source k n).1.children = [(Node.label source (k + 1) x).1] := by
  rw [children_label, h]
  rfl

theorem Node.children_label_pair {x y : Node} (h : n.children = [x, y]) : ∃ j,
    (Node.label source k n).1.children =
      [(Node.label source (k + 1) x).1, (Node.label source j y).1] := by
  rw [children_label, h]
  exact ⟨_, rfl⟩

theorem Node.IsLeaf.label (h : n.IsLeaf kind t) : (Node.label source k n).1.IsLeaf kind t where
  kind := Node.kind_label.trans h.kind
  span := Node.span_label.trans h.span
  children := by
    rw [Node.children_label, h.children]
    rfl

theorem TypeExpr.Expressed.label (h : ty.Expressed ts n) :
    ty.Expressed ts (Node.label source k n).1 := by
  induction h generalizing k with
  | name hleaf => exact .name hleaf.label
  | selected hkind hchildren hx hf hxleaf hfleaf =>
    obtain ⟨j, hchildren⟩ := Node.children_label_pair hchildren
    exact .selected (Node.kind_label.trans hkind) hchildren (Node.inField_label.trans hx)
      (Node.inField_label.trans hf) hxleaf.label hfleaf.label
  | pointer hstar hkind hchildren ho holeaf hx h ih =>
    obtain ⟨j, hchildren⟩ := Node.children_label_pair hchildren
    exact .pointer hstar (Node.kind_label.trans hkind) hchildren (Node.inField_label.trans ho)
      holeaf.label (Node.inField_label.trans hx) ih
  | paren hkind hchildren h ih =>
    exact .paren (Node.kind_label.trans hkind) (Node.children_label_singleton hchildren) ih

theorem TypeExpr.Denoted.label (h : ty.Denoted ts n) :
    ty.Denoted ts (Node.label source k n).1 := by
  induction h generalizing k with
  | name hleaf => exact .name hleaf.label
  | selected hkind hchildren hx hf hxleaf hfleaf =>
    obtain ⟨j, hchildren⟩ := Node.children_label_pair hchildren
    exact .selected (Node.kind_label.trans hkind) hchildren (Node.inField_label.trans hx)
      (Node.inField_label.trans hf) hxleaf.label hfleaf.label
  | pointer hkind hchildren h ih =>
    exact .pointer (Node.kind_label.trans hkind) (Node.children_label_singleton hchildren) ih
  | paren hkind hchildren h ih =>
    exact .paren (Node.kind_label.trans hkind) (Node.children_label_singleton hchildren) ih

theorem TypeExpr.IsCallOf.label (h : ty.IsCallOf target n) :
    ty.IsCallOf target (Node.label source k n).1 where
  kind := Node.kind_label.trans h.kind
  parts := by
    obtain ⟨func, args, hchildren, hfield, hfunc⟩ := h.parts
    obtain ⟨j, hchildren⟩ := Node.children_label_pair hchildren
    exact ⟨_, _, hchildren, Node.inField_label.trans hfield, hfunc.label⟩

/-! ## Texts -/

theorem Node.HasTexts.text_of_isLeaf (h : n.HasTexts source) (hleaf : n.IsLeaf kind t)
    (ht : t ∈ scan source) : n.text = t.text := by
  rw [h n (Node.self_mem_all n), hleaf.span, Token.extract_of_mem_scan ht]

theorem Node.field?_of_pair {x y : Node} {f g : Field} (hchildren : n.children = [x, y])
    (hx : x.inField = some f) (hy : y.inField = some g) (hne : f ≠ g) :
    n.field? f = some x ∧ n.field? g = some y := by
  simp [Node.field?, hchildren, hx, hy, hne]

end

/-! ## The type that is written -/

namespace TypeExpr

/-- The type that is written, in a file. -/
def ty (file : SourceFile) : TypeExpr → Ty
  | name word => Ty.ofName file word
  | selected pkg word => .declared ((file.import? pkg).getD pkg) word
  | pointer target => .pointer (target.ty file)
  | paren inner => inner.ty file

/-- The word that a type begins with, pointers and parentheses aside. -/
def lead : TypeExpr → String
  | name word => word
  | selected pkg _ => pkg
  | pointer target => target.lead
  | paren inner => inner.lead

/-- The name by which the package of the type is called, if one is. -/
def package? : TypeExpr → Option String
  | name _ => none
  | selected pkg _ => some pkg
  | pointer target => target.package?
  | paren inner => inner.package?

section
variable {source : String} {file : SourceFile} {t : Typer} {n : Node} {ts : List Token}
  {e : TypeExpr}

theorem isNamed_of_denoted (h : e.Denoted ts n) : n.kind.isNamed = true := by
  cases h with
  | name hleaf => rw [hleaf.kind]; rfl
  | selected hkind => rw [hkind]; rfl
  | pointer hkind => rw [hkind]; rfl
  | paren hkind => rw [hkind]; rfl

/-- Read as a type, it is the type that is written. -/
theorem ofNode_of_denoted (h : e.Denoted ts n) (hn : n.HasTexts source)
    (hts : ∀ t ∈ ts, t ∈ scan source) : Ty.ofNode file n = e.ty file := by
  induction h with
  | @name t n hleaf =>
    rw [Ty.ofNode_identifier (.inl hleaf.kind), hn.text_of_isLeaf hleaf (hts t (by simp)), ty]
  | @selected p dot t n x f hkind hchildren hx hf hxleaf hfleaf =>
    obtain ⟨hpackage, hname⟩ := Node.field?_of_pair hchildren hx hf (by decide)
    rw [Ty.ofNode_qualifiedType hkind hpackage hname,
      (hn.child (by simp [hchildren])).text_of_isLeaf hxleaf (hts p (by simp)),
      (hn.child (by simp [hchildren])).text_of_isLeaf hfleaf (hts t (by simp)), ty]
  | @pointer star e ts n x hkind hchildren h ih =>
    have hnamed : n.named.head? = some x := by
      simp [Node.named, hchildren, isNamed_of_denoted h]
    rw [Ty.ofNode_pointerType hkind hnamed, ty,
      ih (hn.child (by simp [hchildren])) fun t ht => hts t (List.mem_cons_of_mem _ ht)]
  | @paren opening closing e ts n x hkind hchildren h ih =>
    have hnamed : n.named.head? = some x := by
      simp [Node.named, hchildren, isNamed_of_denoted h]
    rw [Ty.ofNode_parenthesizedType hkind, hnamed, ty, Option.map_some, Option.getD_some,
      ih (hn.child (by simp [hchildren])) fun t ht =>
        hts t (List.mem_cons_of_mem _ (List.mem_append_left _ ht))]

/-- No token is the name of a local declaration where it stands. -/
def Unshadowed (t : Typer) (ts : List Token) : Prop :=
  ∀ tok ∈ ts, Binding.resolve? t.locals tok.text tok.span.start = none

theorem typeDenoted?_congr {m : Node} {sure : Bool} (h : n.unparen = m.unparen) :
    t.typeDenoted? sure n = t.typeDenoted? sure m := by
  rw [Typer.typeDenoted?.eq_def t sure n, Typer.typeDenoted?.eq_def t sure m, h]

theorem typeDenoted?_name {tok : Token} (hleaf : n.IsLeaf tok.operandKind tok)
    (htext : n.text = tok.text) :
    t.typeDenoted? true n =
      if (literalKind? tok.text).isSome then none else some (Ty.ofName t.file tok.text) := by
  have hkind := hleaf.kind
  unfold Token.operandKind literalKind? at hkind
  have hself : n.unparen = n := by
    refine Node.unparen_eq_self ?_
    rw [hkind]
    split_ifs <;> exact nofun
  unfold Typer.typeDenoted? literalKind?
  rw [hself, hkind]
  split_ifs <;> simp_all

/-- The package of a selection is known by the name of the import, unless that has a kind of its
own. -/
theorem import?_of_isLeaf {tok : Token} (hleaf : n.IsLeaf tok.operandKind tok)
    (htext : n.text = tok.text)
    (hvisible : Binding.resolve? t.locals tok.text tok.span.start = none) :
    t.import? n = if (literalKind? tok.text).isSome then none else t.file.import? tok.text := by
  have hlocal : t.isLocal n = false := by
    rw [Typer.isLocal, Typer.local?, htext, Node.start, hleaf.span, hvisible]
    rfl
  have hkind := hleaf.kind
  unfold Token.operandKind literalKind? at hkind
  unfold Typer.import? literalKind?
  rw [hlocal, hkind, htext]
  split_ifs <;> simp_all

theorem typeDenoted?_pointer {sure : Bool} {x : Node} (hkind : n.kind = .unaryExpression)
    (hoperator : (n.field? .operator).map Node.text = some "*")
    (hoperand : n.field? .operand = some x) :
    t.typeDenoted? sure n = (t.typeDenoted? true x).map .pointer := by
  have hself : n.unparen = n := Node.unparen_eq_self (by rw [hkind]; decide)
  rw [Typer.typeDenoted?.eq_def, hself, hkind]
  simp only
  rw [if_pos hoperator]
  split
  · next y hy =>
    obtain rfl : x = y := Option.some.inj (hoperand.symm.trans hy)
    rfl
  · next hnone => cases hoperand.symm.trans hnone

theorem isNamed_of_expressed (h : e.Expressed ts n) : n.kind.isNamed = true := by
  cases h with
  | name hleaf =>
    rw [hleaf.kind, Token.operandKind, literalKind?]
    split_ifs <;> rfl
  | selected hkind => rw [hkind]; rfl
  | pointer _ hkind => rw [hkind]; rfl
  | paren hkind => rw [hkind]; rfl

theorem unparen_eq_of_child {x : Node} (hkind : n.kind = .parenthesizedExpression)
    (hx : n.named.head? = some x) : n.unparen = x.unparen := by
  rw [Node.unparen.eq_def, if_pos hkind]
  split
  · next y hy => rw [Option.some.inj (hx.symm.trans hy)]
  · next hnone => cases hx.symm.trans hnone

/-- Read as an expression, it is the type that is written, unless the word that it begins with has a
kind of its own. -/
theorem typeDenoted?_of_expressed (h : e.Expressed ts n) (hn : n.HasTexts source)
    (hts : ∀ tok ∈ ts, tok ∈ scan source) (hvisible : Unshadowed t ts)
    (himport : ∀ p ∈ e.package?, (t.file.import? p).isSome = true) :
    t.typeDenoted? true n =
      if (literalKind? e.lead).isSome then none else some (e.ty t.file) := by
  induction h with
  | @name tok n hleaf =>
    exact typeDenoted?_name hleaf (hn.text_of_isLeaf hleaf (hts tok (by simp)))
  | @selected p dot tok n x f hkind hchildren hx hf hxleaf hfleaf =>
    obtain ⟨hoperand, hselected⟩ := Node.field?_of_pair hchildren hx hf (by decide)
    have hxtext := (hn.child (by simp [hchildren])).text_of_isLeaf hxleaf (hts p (by simp))
    have hftext := (hn.child (by simp [hchildren])).text_of_isLeaf hfleaf (hts tok (by simp))
    have hself : n.unparen = n := Node.unparen_eq_self (by rw [hkind]; decide)
    obtain ⟨pkg, hpkg⟩ := Option.isSome_iff_exists.1 (himport p.text rfl)
    unfold Typer.typeDenoted?
    have himported := import?_of_isLeaf hxleaf hxtext (hvisible p (by simp))
    simp only [hself, hkind, hoperand, hselected, Option.bind_eq_bind, Option.bind_some,
      himported, lead, ty, hpkg, Option.getD_some]
    split
    · rfl
    · simp [hftext]
  | @pointer star e ts n o x hstar hkind hchildren ho holeaf hx h ih =>
    obtain ⟨hoperator, hoperand⟩ := Node.field?_of_pair hchildren ho hx (by decide)
    have hotext := (hn.child (by simp [hchildren])).text_of_isLeaf holeaf (hts star (by simp))
    have htarget := ih (hn.child (by simp [hchildren]))
      (fun tok ht => hts tok (List.mem_cons_of_mem _ ht))
      (fun tok ht => hvisible tok (List.mem_cons_of_mem _ ht)) himport
    rw [typeDenoted?_pointer hkind (by rw [hoperator, Option.map_some, hotext, hstar]) hoperand,
      htarget, lead, ty]
    split <;> rfl
  | @paren opening closing e ts n x hkind hchildren h ih =>
    have hunparen : n.unparen = x.unparen :=
      unparen_eq_of_child hkind (by simp [Node.named, hchildren, isNamed_of_expressed h])
    have htarget := ih (hn.child (by simp [hchildren]))
      (fun tok ht => hts tok (List.mem_cons_of_mem _ (List.mem_append_left _ ht)))
      (fun tok ht => hvisible tok (List.mem_cons_of_mem _ (List.mem_append_left _ ht))) himport
    rw [typeDenoted?_congr hunparen, htarget, lead, ty]

/-- Only of names and selections it matters whether nothing but a type can stand there. -/
theorem typeDenoted?_of_unary {sure : Bool} (hkind : n.kind = .unaryExpression) :
    t.typeDenoted? sure n = t.typeDenoted? true n := by
  have hself : n.unparen = n := Node.unparen_eq_self (by rw [hkind]; decide)
  rw [Typer.typeDenoted?.eq_def t sure, Typer.typeDenoted?.eq_def t true, hself, hkind]

/-- What is called is read as a type, so that the call has the type that is written. -/
theorem callResults_of_isCallOf {call : Node} (h : e.IsCallOf ts call)
    (hcall : call.HasTexts source) (hts : ∀ tok ∈ ts, tok ∈ scan source)
    (hvisible : Unshadowed t ts) (himport : ∀ p ∈ e.package?, (t.file.import? p).isSome = true) :
    t.callResults call =
      if (literalKind? e.lead).isSome then [] else [.pointer (e.ty t.file)] := by
  obtain ⟨func, args, hchildren, hfield, hfunc⟩ := h.parts
  have hfunction : call.field? .function = some func := by
    simp [Node.field?, hchildren, hfield]
  have hdenoted := typeDenoted?_of_expressed hfunc (hcall.child (by simp [hchildren])) hts hvisible
    himport
  cases hfunc with
  | @paren opening closing _ us _ x hkind hfuncchildren hx =>
    have hresults : t.callResults call = (t.typeDenoted? false func).toList := by
      unfold Typer.callResults Typer.callWith
      split
      · next hnone => exact absurd (hfunction.symm.trans hnone) nofun
      · next f hf =>
        obtain rfl : func = f := Option.some.inj (hfunction.symm.trans hf)
        rw [hkind]
    have hunparen : func.unparen = x.unparen :=
      unparen_eq_of_child hkind (by simp [Node.named, hfuncchildren, isNamed_of_expressed hx])
    have hsure : t.typeDenoted? false func = t.typeDenoted? true func := by
      rw [typeDenoted?_congr hunparen, typeDenoted?_congr hunparen]
      cases hx with
      | pointer _ hkind => exact typeDenoted?_of_unary hkind
    rw [hresults, hsure, hdenoted, lead, lead, ty, ty]
    split <;> rfl

end
end TypeExpr

open Reader

/-- A conversion of `nil` to a pointer is read as a call, and has the one type that the pointer is
read as where a type is expected in the same file. That holds of what is built from pointers and
parentheses around any name and any name of an imported package, declared or not, if no part is
local, and of no type that begins with a word that expressions have a kind of their own for: such a
conversion has no type, and no other one is without. -/
theorem conversion_typed_as_declared (t : Typer) (source : String) (e : TypeExpr)
    {conversion target declared rest rest' : List Token}
    (hconversion : e.Converts conversion target)
    (hdeclared : (TypeExpr.pointer e).Spells declared)
    (hconversionIn : ∀ tok ∈ conversion, tok ∈ scan source)
    (hdeclaredIn : ∀ tok ∈ declared, tok ∈ scan source) (hrest : EndsType rest')
    (hvisible : TypeExpr.Unshadowed t target)
    (himport : ∀ p ∈ e.package?, (t.file.import? p).isSome = true) {fuel depth : Nat}
    (hfuel : 2 ≤ fuel) (hdepth : e.depth + 2 ≤ depth) (last last' : Nat)
    (breaks breaks' braces braces' : Bool) :
    ∃ call stop, (operand (tied fuel depth) >>= callStep (tied fuel depth)).run
        ⟨conversion ++ rest, last, breaks, braces⟩ = some (call, ⟨rest, stop, breaks, braces⟩) ∧
      ∃ type stop', read fuel depth .type ⟨declared ++ rest', last', breaks', braces'⟩ =
          some (type, ⟨rest', stop', breaks', braces'⟩) ∧
        ∀ k k', t.callResults (Node.label source k call).1 =
          if (literalKind? e.lead).isSome then []
          else [Ty.ofNode t.file (Node.label source k' type).1] := by
  obtain ⟨fuel, rfl⟩ := Nat.exists_eq_add_of_le' hfuel
  obtain ⟨call, stop, hcall, hiscall⟩ :=
    exists_steps_conversion hconversion hdepth fuel last rest breaks braces
  obtain ⟨type, stop', htype, hdenoted⟩ := exists_steps_type hdeclared hrest
    (Nat.le_of_succ_le hdepth) (fuel + 2) last' breaks' braces'
  refine ⟨call, stop, hcall, type, stop', htype, fun k k' => ?_⟩
  obtain ⟨o, word, c, rfl, -⟩ := hconversion.argument
  have hdeclaredTy : Ty.ofNode t.file (Node.label source k' type).1 = .pointer (e.ty t.file) :=
    TypeExpr.ofNode_of_denoted hdenoted.label Node.hasTexts_label hdeclaredIn
  rw [hdeclaredTy]
  exact TypeExpr.callResults_of_isCallOf hiscall.label Node.hasTexts_label
    (fun tok ht => hconversionIn tok (List.mem_append_left _ ht)) hvisible himport

/-- A conversion and a type, on one line. -/
def converting : String := "(*jape.Client)(nil) *jape.Client"

def Token.onLine (cls : Token.Class) (text : String) (start : Nat) : Token :=
  ⟨cls, text, ⟨start, start + text.length, 1, start + 1⟩, false⟩

theorem scan_converting : scan converting =
    [.onLine .mark "(" 0, .onLine .mark "*" 1, .onLine .word "jape" 2, .onLine .mark "." 6,
      .onLine .word "Client" 7, .onLine .mark ")" 13, .onLine .mark "(" 14, .onLine .word "nil" 15,
      .onLine .mark ")" 18] ++
    [.onLine .mark "*" 20, .onLine .word "jape" 21, .onLine .mark "." 25,
      .onLine .word "Client" 26] := by
  decide +kernel

/-- The conversion to a pointer of a type that is imported is typed as the pointer is. -/
theorem conversion_typed_as_declared_imported :
    let t : Typer := { index := .build ⟨[.sample []]⟩, file := .sample [] }
    ∃ call type : Node, (∃ stop, (operand (tied 2 3) >>= callStep (tied 2 3)).run
        ⟨scan converting, 0, false, true⟩ =
          some (call, ⟨(scan converting).drop 9, stop, false, true⟩)) ∧
      (∃ stop, read 2 3 .type ⟨(scan converting).drop 9, 0, false, true⟩ =
          some (type, ⟨[], stop, false, true⟩)) ∧
      t.callResults (Node.label converting 0 call).1 =
        [Ty.ofNode t.file (Node.label converting 0 type).1] := by
  intro t
  have hscan := scan_converting
  have hmark : ∀ w n, (Token.onLine .mark w n).IsMark w := fun _ _ => ⟨rfl, rfl⟩
  have hword : ∀ w, w ∉ Token.keywords → w ≠ "" → w.toList.all Token.isWordChar = true →
      ∀ n, (Token.onLine .word w n).IsName := fun _ hkeyword hne hw _ =>
    ⟨by simp [Token.isIdentifier, Token.onLine, hkeyword], hne, List.all_eq_true.1 hw⟩
  have hpackage := hword "jape" (by decide) (by decide) (by decide)
  have hname := hword "Client" (by decide) (by decide) (by decide)
  have hpointer : ∀ i j k l, (TypeExpr.pointer (.selected "jape" "Client")).Spells
      [.onLine .mark "*" i, .onLine .word "jape" j, .onLine .mark "." k,
        .onLine .word "Client" l] :=
    fun i j k l => .pointer (hmark "*" i) (.selected (hpackage j) (hmark "." k) (hname l))
  have hconverts : (TypeExpr.selected "jape" "Client").Converts
      ((scan converting).take 9) ((scan converting).take 6) := by
    rw [hscan]
    exact ⟨.paren (hmark "(" 0) (hpointer 1 2 6 7) (hmark ")" 13), _, _, _, rfl, hmark "(" 14,
      hword "nil" (by decide) (by decide) (by decide) 15, rfl, hmark ")" 18⟩
  have himport : (t.file.import? "jape").isSome = true := by
    show ((SourceFile.sample []).import? "jape").isSome = true
    simp only [SourceFile.sample_eq, SourceFile.chars, String.reduceToList]
    decide +kernel
  obtain ⟨call, stop, hcall, type, stop', htype, hsame⟩ :=
    @conversion_typed_as_declared t converting (.selected "jape" "Client") _ _
      ((scan converting).drop 9) ((scan converting).drop 9) [] hconverts
      (by rw [hscan]; exact hpointer 20 21 25 26) (fun _ => List.mem_of_mem_take)
      (fun _ => List.mem_of_mem_drop) (by rintro _ ⟨⟩) (fun _ _ => rfl)
      (by rintro _ ⟨⟩; exact himport)
      2 3 (Nat.le_refl 2) (Nat.le_refl 3) 0 0 false false true true
  rw [List.take_append_drop] at hcall
  rw [List.append_nil] at htype
  exact ⟨call, type, ⟨stop, hcall⟩, ⟨stop', htype⟩, hsame 0 0⟩

/-- A type of the name of a constant that expressions have a kind of their own for. -/
def declaredIota : List String :=
  ["type iota struct\x7b\x7d", "func f(p *iota) \x7b use((*iota)(nil)) \x7d"]

theorem exists_conversion_declaredIota :
    let f := SourceFile.sample declaredIota
    ∃ call ∈ f.tree.all, ∃ n ∈ f.tree.all,
      (call.kind = .callExpression ∧ call.text = "(*iota)(nil)") ∧
      (n.kind = .pointerType ∧ n.text = "*iota") ∧
      ((Program.mk [f]).declarations.filterMap
        (Declaration.typeOf? (f.package, "iota"))).length = 1 ∧
      (Typer.enclosing (.build ⟨[f]⟩) f call).locals.map (·.name) = ["p"] ∧
      (Typer.enclosing (.build ⟨[f]⟩) f call).callResults call = [] ∧
      Ty.ofNode f n = .pointer (.declared "api" "iota") := by
  simp only [declaredIota, SourceFile.sample_eq, SourceFile.chars, String.reduceToList]
  decide +kernel

/-- The conversion to a pointer of that type has no type; in a declaration the pointer has one. -/
theorem conversion_untyped_iota : ∃ sources p, Program.ofSources sources = .ok p ∧
    ∃ f ∈ p.files, ∃ call ∈ f.tree.all, ∃ n ∈ f.tree.all,
      (call.kind = .callExpression ∧ call.text = "(*iota)(nil)") ∧
      (n.kind = .pointerType ∧ n.text = "*iota") ∧
      (p.declarations.filterMap (Declaration.typeOf? (f.package, "iota"))).length = 1 ∧
      (Typer.enclosing (.build p) f call).locals.map (·.name) = ["p"] ∧
      (Typer.enclosing (.build p) f call).callResults call = [] ∧
      Ty.ofNode f n = .pointer (.declared "api" "iota") :=
  ⟨_, _, Program.ofSources_sample declaredIota, _, List.mem_singleton_self _,
    exists_conversion_declaredIota⟩

end RouteCheck
