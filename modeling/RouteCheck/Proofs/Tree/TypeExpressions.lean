import RouteCheck.Proofs.Tree.Texts

/-!
Types that are read as expressions.

The type of a conversion such as `(*pkg.Name)(nil)` stands where an expression does, so that the
rules for expressions read it: pointers become unary expressions, names of packages become
selections. Where a type is expected, the rules for types read the same tokens. `TypeExpr` is what
is written, apart from the tokens it is written in; both readings are followed token by token, by
induction on it.

Main statements:
  1. `Steps.bind` and the lemmas that follow it: what elementary readers do where they succeed.
  2. `exists_steps_unary`: the nodes that the rules for expressions read.
  3. `exists_steps_type`: the nodes that the rules for types read.
  4. `exists_steps_conversion`: the call that a conversion is read as.
-/

namespace RouteCheck
open Token (IsWord)

/-! ## What is written -/

/-- A type written with pointers and parentheses around a name or a name of a package. -/
inductive TypeExpr where
  | name (word : String)
  | selected (pkg word : String)
  | pointer (target : TypeExpr)
  | paren (inner : TypeExpr)
  deriving DecidableEq, Repr

/-- The token is a name. -/
structure Token.IsName (t : Token) : Prop where
  identifier : t.isIdentifier = true
  word : IsWord t.text

/-- The words that the rules for expressions have kinds of their own for. -/
def literalKind? (word : String) : Option Kind :=
  if word = "nil" then some .nilLiteral
  else if word = "true" then some .trueLiteral
  else if word = "false" then some .falseLiteral
  else if word = "iota" then some .iota
  else none

/-- The kind that the rules for expressions read a name as. -/
def Token.operandKind (t : Token) : Kind := (literalKind? t.text).getD .identifier

/-- The token is this mark. -/
structure Token.IsMark (t : Token) (mark : String) : Prop where
  cls : t.cls = .mark
  text : t.text = mark

theorem Token.is_of_isMark {t : Token} {mark : String} (h : t.IsMark mark) (w : String) :
    t.is w = (mark == w) := by
  simp [is, h.cls, h.text]

theorem Token.IsMark.is {t : Token} {mark : String} (h : t.IsMark mark) : t.is mark = true := by
  rw [Token.is_of_isMark h, beq_self_eq_true]

theorem Token.is_of_isName {t : Token} {w : String} (h : t.IsName)
    (hw : ∃ c ∈ w.toList, isWordChar c = false) : t.is w = false := by
  obtain ⟨c, hc, hword⟩ := hw
  have hne : t.text ≠ w := by
    rintro rfl
    exact absurd (hword.symm.trans (h.word.2 c hc)) nofun
  simp [is, hne]

theorem Token.not_isIdentifier_of_isMark {t : Token} {mark : String} (h : t.IsMark mark) :
    t.isIdentifier = false := by
  simp [isIdentifier, h.cls]

namespace TypeExpr

/-- The tokens are what the type is written in. -/
inductive Spells : TypeExpr → List Token → Prop
  | name {t : Token} (ht : t.IsName) : Spells (.name t.text) [t]
  | selected {p dot t : Token} (hp : p.IsName) (hdot : dot.IsMark ".") (ht : t.IsName) :
      Spells (.selected p.text t.text) [p, dot, t]
  | pointer {star : Token} {ty : TypeExpr} {ts : List Token} (hstar : star.IsMark "*")
      (h : Spells ty ts) : Spells (.pointer ty) (star :: ts)
  | paren {opening closing : Token} {ty : TypeExpr} {ts : List Token} (ho : opening.IsMark "(")
      (h : Spells ty ts) (hc : closing.IsMark ")") :
      Spells (.paren ty) (opening :: (ts ++ [closing]))

/-- How deep rules nest where the type is read. -/
def depth : TypeExpr → Nat
  | name _ | selected .. => 1
  | pointer ty => ty.depth + 1
  | paren ty => ty.depth + 2

end TypeExpr

namespace Reader

/-! ## Elementary readers -/

def leafOf (kind : Kind) (t : Token) : Node := .mk { kind, span := t.span, text := t.text } []

/-- The node that begins with a token and goes on up to a byte. -/
def made (kind : Kind) (first : Token) (stop : Nat) (children : List Node) : Node :=
  .mk { kind, span := { first.span with stop } } children

/-- The reader answers this and leaves that state. -/
def Steps {α : Type} (r : Read α) (s : State) (a : α) (s' : State) : Prop := r.run s = some (a, s')

/-- The reader does not read what stands there. -/
def Fails {α : Type} (r : Read α) (s : State) : Prop := r.run s = none

section
variable {α β : Type} {r : Read α} {k : α → Read β} {s s' s'' : State} {a : α} {b : β}
  {t : Token} {ts : List Token} {last : Nat} {breaks braces : Bool} {w : String} {kind : Kind}
  {p : Token → Bool}

theorem Steps.bind (hr : Steps r s a s') (hk : Steps (k a) s' b s'') : Steps (r >>= k) s b s'' := by
  rw [Steps, StateT.run_bind, show r.run s = some (a, s') from hr]
  exact hk

theorem Steps.pure : Steps (pure a) s a s := rfl

theorem Steps.discard (h : Steps r s a s') : Steps (discard r) s () s' :=
  show Steps (r >>= fun _ => Pure.pure ()) s () s' from h.bind .pure

theorem Steps.orElse_left {r' : Read α} (h : Steps r s a s') : Steps (r <|> r') s a s' := by
  show (r.run s <|> r'.run s) = _
  rw [show r.run s = some (a, s') from h]
  rfl

theorem Fails.bind (h : Fails r s) : Fails (r >>= k) s := by
  rw [Fails, StateT.run_bind, show r.run s = none from h]
  rfl

theorem Fails.after (hr : Steps r s a s') (hk : Fails (k a) s') : Fails (r >>= k) s := by
  rw [Fails, StateT.run_bind, show r.run s = some (a, s') from hr]
  exact hk

theorem Steps.orElse_right {r' : Read α} (h : Fails r s) (h' : Steps r' s a s') :
    Steps (r <|> r') s a s' := by
  show (r.run s <|> r'.run s) = _
  rw [show r.run s = none from h]
  exact h'

theorem steps_get : Steps get s s s := rfl

theorem steps_set : Steps (set s') s () s' := rfl

theorem steps_modify {f : State → State} : Steps (modify f) s () (f s) := rfl

theorem steps_peek : Steps peek s s.tokens.head? s := rfl

theorem steps_peekSecond : Steps peekSecond s (s.tokens.drop 1).head? s := rfl

theorem steps_accept? (ht : p t = true) :
    Steps (accept? p) ⟨t :: ts, last, breaks, braces⟩ (some t)
      ⟨ts, t.span.stop, breaks, braces⟩ := by
  simp [Steps, accept?, ht]

theorem steps_accept?_none (ht : p t = false) :
    Steps (accept? p) ⟨t :: ts, last, breaks, braces⟩ none ⟨t :: ts, last, breaks, braces⟩ := by
  simp [Steps, accept?, ht]

theorem steps_require (ht : p t = true) :
    Steps (require p) ⟨t :: ts, last, breaks, braces⟩ t ⟨ts, t.span.stop, breaks, braces⟩ :=
  (steps_accept? ht).bind .pure

theorem steps_expect (ht : t.is w = true) :
    Steps (expect w) ⟨t :: ts, last, breaks, braces⟩ () ⟨ts, t.span.stop, breaks, braces⟩ :=
  .discard (steps_require ht)

theorem steps_leaf (ht : p t = true) :
    Steps (leaf kind p) ⟨t :: ts, last, breaks, braces⟩ (leafOf kind t)
      ⟨ts, t.span.stop, breaks, braces⟩ :=
  (steps_require ht).bind .pure

theorem steps_skip?_false (ht : t.is w = false) :
    Steps (skip? w) ⟨t :: ts, last, breaks, braces⟩ false ⟨t :: ts, last, breaks, braces⟩ :=
  (steps_accept?_none ht).bind .pure

theorem steps_broken :
    Steps broken ⟨t :: ts, last, false, braces⟩ false ⟨t :: ts, last, false, braces⟩ := rfl

theorem steps_within {breaks' braces' : Bool} (h : Steps r ⟨ts, last, breaks', braces'⟩ a s') :
    Steps (within breaks' braces' r) ⟨ts, last, breaks, braces⟩ a { s' with breaks, braces } := by
  exact .bind steps_get (.bind steps_set (.bind h (.bind steps_modify .pure)))

theorem steps_enclosed {closing : Token} {rest : List Token} {last' : Nat} {breaks' braces' : Bool}
    {f : α → List Node} (hc : closing.IsMark ")")
    (h : Steps r ⟨ts, last, false, true⟩ a ⟨closing :: rest, last', breaks', braces'⟩) :
    Steps (enclosed (r >>= fun a => expect ")" >>= fun _ => Pure.pure (f a)))
      ⟨ts, last, breaks, braces⟩ (f a) ⟨rest, closing.span.stop, breaks, braces⟩ := by
  have hinner : Steps (r >>= fun a => expect ")" >>= fun _ => Pure.pure (f a))
      ⟨ts, last, false, true⟩ (f a) ⟨rest, closing.span.stop, breaks', braces'⟩ :=
    .bind h (.bind (steps_expect hc.is) .pure)
  exact steps_within hinner

theorem steps_node {x : Read (List Node)} {ns : List Node} {rest : List Token} {stop : Nat}
    {breaks' braces' : Bool}
    (h : Steps x ⟨t :: ts, last, breaks, braces⟩ ns ⟨rest, stop, breaks', braces'⟩) :
    Steps (node kind x) ⟨t :: ts, last, breaks, braces⟩ (made kind t stop ns)
      ⟨rest, stop, breaks', braces'⟩ :=
  .bind steps_peek (.bind h (.bind steps_get .pure))

theorem fails_expect (ht : t.is w = false) : Fails (expect w) ⟨t :: ts, last, breaks, braces⟩ := by
  have hrequire : Fails (require (·.is w)) ⟨t :: ts, last, breaks, braces⟩ :=
    .after (steps_accept?_none ht) rfl
  exact show Fails (require (·.is w) >>= fun _ => Pure.pure ()) _ from hrequire.bind

theorem fails_node {x : Read (List Node)} (h : Fails x ⟨t :: ts, last, breaks, braces⟩) :
    Fails (node kind x) ⟨t :: ts, last, breaks, braces⟩ :=
  .after steps_peek h.bind

theorem steps_nodeFrom {first : Node} {ns : List Node} :
    Steps (nodeFrom first kind ns) s
      (.mk { kind, span := { first.span with stop := s.last } } ns) s := rfl

end

/-! ## The rules that contain one another -/

/-- The readers of the rules, nesting at most `depth` deep. -/
def tied (fuel depth : Nat) : Rules where
  fuel := fuel
  expression := read fuel depth .expression
  unary := read fuel depth .unary
  type := read fuel depth .type
  block := read fuel depth .block
  statement := read fuel depth .statement
  literalValue := read fuel depth .literalValue

theorem read_expression (fuel depth : Nat) :
    read fuel (depth + 1) .expression = expressionRule (tied fuel depth) := rfl

section
variable {t closing : Token} {ts rest : List Token} {last : Nat} {breaks braces : Bool}
  {fuel depth : Nat} {s s' : State} {n : Node}

/-- Before a closing parenthesis an operand is the whole expression. -/
theorem steps_binary {operand : Read Node} {levels : List (List String)}
    (hops : ∀ ops ∈ levels, ops.any closing.is = false)
    (h : Steps operand s n ⟨closing :: rest, last, false, braces⟩) :
    Steps (binary (fuel + 1) operand levels) s n ⟨closing :: rest, last, false, braces⟩ := by
  induction levels with
  | nil => exact h
  | cons ops levels ih =>
    obtain ⟨hnone, hops⟩ := List.forall_mem_cons.1 hops
    refine .bind (ih hops) ?_
    rw [chain]
    have hoperator : Steps (operator? ops) ⟨closing :: rest, last, false, braces⟩ none
        ⟨closing :: rest, last, false, braces⟩ := by
      refine .bind steps_broken (.bind steps_peek ?_)
      simp only [List.head?_cons, hnone]
      exact .pure
    exact .bind hoperator .pure

/-- The node that an operand is where it is a name. -/
def nameNode (t : Token) : Node := leafOf t.operandKind t

theorem steps_operand_name {r : Rules} (h : t.IsName) :
    Steps (operand r) ⟨t :: ts, last, breaks, braces⟩ (nameNode t)
      ⟨ts, t.span.stop, breaks, braces⟩ := by
  have hcls : t.cls = .word := by simpa using (Bool.and_eq_true_iff.1 h.identifier).1
  have hfunc : t.text ≠ "func" := by
    intro hfunc
    have := (Bool.and_eq_true_iff.1 h.identifier).2
    rw [hfunc] at this
    exact absurd this (by decide)
  refine .bind steps_peek ?_
  simp only [List.head?_cons, hcls]
  unfold nameNode Token.operandKind literalKind?
  split_ifs with hnil htrue hfalse hiota hident
  · exact steps_leaf rfl
  · exact steps_leaf rfl
  · exact steps_leaf rfl
  · exact steps_leaf rfl
  · exact steps_leaf h.identifier
  · exact absurd h.identifier hident

/-- The marks that an operand is preceded by. -/
def unaryMarks : List String := ["+", "-", "!", "^", "*", "&", "<-"]

theorem steps_unary_operand {r : Rules} {first : Token} {m : Node} {s'' : State}
    (hfirst : unaryMarks.any first.is = false) (ht : s.tokens.head? = some first)
    (hoperand : Steps (operand r) s n s') (hpost : Steps (postfixes r r.fuel n) s' m s'') :
    Steps (unaryRule r) s m s'' := by
  have harrow : first.is "<-" = false :=
    Bool.eq_false_iff.2 (List.any_eq_false.1 hfirst "<-" (by simp [unaryMarks]))
  refine .bind steps_peek ?_
  rw [ht]
  refine .bind steps_peekSecond ?_
  rw [harrow, Bool.false_and, if_neg Bool.false_ne_true,
    show (["+", "-", "!", "^", "*", "&", "<-"].any first.is) = false from hfirst,
    if_neg Bool.false_ne_true]
  exact .bind hoperand hpost

theorem steps_unary_pointer {r : Rules} {star : Token} {x : Node} (hstar : star.IsMark "*")
    (hx : Steps r.unary ⟨ts, star.span.stop, breaks, braces⟩ x s')
    (hkind : x.kind.isTypeOnly = false) :
    Steps (unaryRule r) ⟨star :: ts, last, breaks, braces⟩
      (made .unaryExpression star s'.last
        [(leafOf .token star).under .operator, x.under .operand]) s' := by
  have harrow : star.is "<-" = false := by rw [Token.is_of_isMark hstar]; rfl
  have hany : ["+", "-", "!", "^", "*", "&", "<-"].any star.is = true := by
    simp [Token.is_of_isMark hstar]
  refine .bind steps_peek (.bind steps_peekSecond ?_)
  rw [harrow, Bool.false_and, if_neg Bool.false_ne_true, if_pos hany]
  refine .bind (steps_leaf (by rw [hstar.text, hstar.is])) (.bind hx ?_)
  refine .bind steps_get ?_
  rw [hkind, Bool.and_false, if_neg Bool.false_ne_true]
  exact .pure

theorem steps_postfixes_closing {r : Rules} (hc : closing.IsMark ")") :
    Steps (postfixes r (fuel + 1) n) ⟨closing :: rest, last, false, braces⟩ n
      ⟨closing :: rest, last, false, braces⟩ := by
  have hnone : Steps (postfix? r n) ⟨closing :: rest, last, false, braces⟩ none
      ⟨closing :: rest, last, false, braces⟩ := by
    refine .bind steps_broken (.bind steps_peek ?_)
    simp only [List.head?_cons, Token.is_of_isMark hc]
    exact .pure
  exact .bind hnone .pure

theorem steps_parenthesized {r : Rules} {opening : Token} {x : Node} (ho : opening.IsMark "(")
    (hc : closing.IsMark ")") {last' : Nat} {breaks' braces' : Bool}
    (hx : Steps r.expression ⟨ts, opening.span.stop, false, true⟩ x
      ⟨closing :: rest, last', breaks', braces'⟩) :
    Steps (parenthesized r) ⟨opening :: ts, last, breaks, braces⟩
      (made .parenthesizedExpression opening closing.span.stop [x])
      ⟨rest, closing.span.stop, breaks, braces⟩ :=
  steps_node (.bind (steps_expect ho.is) (steps_enclosed (f := fun e => [e]) hc hx))

theorem steps_operand_paren {r : Rules} {opening : Token} {x : Node} (ho : opening.IsMark "(")
    (hc : closing.IsMark ")") {last' : Nat} {breaks' braces' : Bool}
    (hx : Steps r.expression ⟨ts, opening.span.stop, false, true⟩ x
      ⟨closing :: rest, last', breaks', braces'⟩) (hkind : x.kind.isTypeOnly = false) :
    Steps (operand r) ⟨opening :: ts, last, breaks, braces⟩
      (made .parenthesizedExpression opening closing.span.stop [x])
      ⟨rest, closing.span.stop, breaks, braces⟩ := by
  refine .bind steps_peek ?_
  simp only [List.head?_cons, ho.cls, ho.text]
  refine .bind (steps_parenthesized ho hc hx) ?_
  rw [if_neg (by simp [made, Node.children, hkind])]
  exact .pure

theorem steps_postfixes_selection {r : Rules} {p dot : Token} (hdot : dot.IsMark ".")
    (ht : t.IsName) (hc : closing.IsMark ")") :
    Steps (postfixes r (fuel + 2) (nameNode p))
      ⟨dot :: t :: closing :: rest, last, false, braces⟩
      (made .selectorExpression p t.span.stop
        [(nameNode p).under .operand, (leafOf .fieldIdentifier t).under .selected])
      ⟨closing :: rest, t.span.stop, false, braces⟩ := by
  have hopen : t.is "(" = false := Token.is_of_isName ht ⟨'(', by decide, by decide⟩
  have hstep : Steps (dotStep r (nameNode p)) ⟨dot :: t :: closing :: rest, last, false, braces⟩
      (made .selectorExpression p t.span.stop
        [(nameNode p).under .operand, (leafOf .fieldIdentifier t).under .selected])
      ⟨closing :: rest, t.span.stop, false, braces⟩ := by
    refine .bind (steps_expect hdot.is) (.bind (steps_skip?_false hopen) ?_)
    exact .bind (steps_leaf ht.identifier) steps_nodeFrom
  refine .bind (a := some _) ?_ (steps_postfixes_closing hc)
  refine .bind steps_broken (.bind steps_peek ?_)
  simp only [List.head?_cons, hdot.is, if_true]
  refine .bind steps_get ?_
  rw [if_neg (by simp [Token.is_of_isMark hc])]
  exact .bind hstep .pure

/-! ## What the rules for expressions read -/

end
end Reader

/-- The node is that of the token alone. -/
structure Node.IsLeaf (n : Node) (kind : Kind) (t : Token) : Prop where
  kind : n.kind = kind
  span : n.span = t.span
  children : n.children = []

/-- The node is what the rules for expressions read the tokens of the type as. -/
inductive TypeExpr.Expressed : TypeExpr → List Token → Node → Prop
  | name {t : Token} {n : Node} (hleaf : n.IsLeaf t.operandKind t) : Expressed (.name t.text) [t] n
  | selected {p dot t : Token} {n x f : Node} (hkind : n.kind = .selectorExpression)
      (hchildren : n.children = [x, f]) (hx : x.inField = some .operand)
      (hf : f.inField = some .selected) (hxleaf : x.IsLeaf p.operandKind p)
      (hfleaf : f.IsLeaf .fieldIdentifier t) : Expressed (.selected p.text t.text) [p, dot, t] n
  | pointer {star : Token} {ty : TypeExpr} {ts : List Token} {n o x : Node}
      (hstar : star.text = "*") (hkind : n.kind = .unaryExpression)
      (hchildren : n.children = [o, x]) (ho : o.inField = some .operator)
      (holeaf : o.IsLeaf .token star)
      (hx : x.inField = some .operand) (h : Expressed ty ts x) :
      Expressed (.pointer ty) (star :: ts) n
  | paren {opening closing : Token} {ty : TypeExpr} {ts : List Token} {n x : Node}
      (hkind : n.kind = .parenthesizedExpression) (hchildren : n.children = [x])
      (h : Expressed ty ts x) : Expressed (.paren ty) (opening :: (ts ++ [closing])) n

namespace Reader
section
variable {t closing : Token} {ts rest : List Token} {last : Nat} {breaks braces : Bool}
  {fuel depth : Nat} {ty : TypeExpr} {n : Node} {kind : Kind}

theorem isTypeOnly_of_expressed (h : ty.Expressed ts n) : n.kind.isTypeOnly = false := by
  cases h with
  | name hleaf =>
    rw [hleaf.kind, Token.operandKind, literalKind?]
    split_ifs <;> rfl
  | selected hkind => rw [hkind]; rfl
  | pointer _ hkind => rw [hkind]; rfl
  | paren hkind => rw [hkind]; rfl

theorem isLeaf_leafOf : (leafOf kind t).IsLeaf kind t := ⟨rfl, rfl, rfl⟩

theorem isLeaf_under {f : Field} (h : n.IsLeaf kind t) : (n.under f).IsLeaf kind t := by
  obtain ⟨head, cs⟩ := n
  exact ⟨h.kind, h.span, h.children⟩

theorem expressed_under {f : Field} (h : ty.Expressed ts n) : ty.Expressed ts (n.under f) := by
  cases h with
  | name hleaf => exact .name (isLeaf_under hleaf)
  | selected hkind hchildren hx hf hxleaf hfleaf =>
    exact .selected (Node.kind_under.trans hkind) (Node.children_under.trans hchildren) hx hf
      hxleaf hfleaf
  | pointer hstar hkind hchildren ho holeaf hx h =>
    exact .pointer hstar (Node.kind_under.trans hkind) (Node.children_under.trans hchildren) ho
      holeaf hx h
  | paren hkind hchildren h =>
    exact .paren (Node.kind_under.trans hkind) (Node.children_under.trans hchildren) h

theorem not_unaryMarks_of_isName (h : t.IsName) : unaryMarks.any t.is = false := by
  have hmarks : ∀ w ∈ unaryMarks, w.toList.any (!Token.isWordChar ·) = true := by decide
  refine List.any_eq_false.2 fun w hw => Bool.eq_false_iff.1 (Token.is_of_isName h ?_)
  obtain ⟨c, hc, hmark⟩ := List.any_eq_true.1 (hmarks w hw)
  exact ⟨c, hc, by simpa using hmark⟩

theorem not_unaryMarks_of_opening (h : t.IsMark "(") : unaryMarks.any t.is = false := by
  have hmarks : ∀ w ∈ unaryMarks, ("(" == w) = false := by decide
  exact List.any_eq_false.2 fun w hw =>
    Bool.eq_false_iff.1 ((Token.is_of_isMark h w).trans (hmarks w hw))

/-- Where the next rule reads an operand up to a closing parenthesis, so does the rule for
expressions. -/
theorem steps_expression_of_unary {s : State} (hc : closing.IsMark ")")
    (h : Steps (read (fuel + 1) depth .unary) s n ⟨closing :: rest, last, false, braces⟩) :
    Steps (read (fuel + 1) (depth + 1) .expression) s n
      ⟨closing :: rest, last, false, braces⟩ := by
  rw [read_expression]
  refine steps_binary (fun ops hops => ?_) h
  have hlevels : ∀ ops ∈ levels, ops.any (")" == ·) = false := by decide
  rw [← hlevels ops hops]
  exact congrArg ops.any (funext fun w => Token.is_of_isMark hc w)

/-- The rules for expressions read the type up to the closing parenthesis after it. -/
theorem exists_steps_unary (h : ty.Spells ts) (hc : closing.IsMark ")")
    (hdepth : ty.depth ≤ depth) (fuel last : Nat) (rest : List Token) :
    ∃ n last', Steps (read (fuel + 2) depth .unary) ⟨ts ++ closing :: rest, last, false, true⟩ n
      ⟨closing :: rest, last', false, true⟩ ∧ ty.Expressed ts n := by
  induction h generalizing last depth closing rest with
  | @name t ht =>
    obtain ⟨depth, rfl⟩ := Nat.exists_eq_add_of_le' hdepth
    exact ⟨nameNode t, t.span.stop, steps_unary_operand (not_unaryMarks_of_isName ht) rfl
      (steps_operand_name ht) (steps_postfixes_closing hc), .name isLeaf_leafOf⟩
  | @selected p dot t hp hdot ht =>
    obtain ⟨depth, rfl⟩ := Nat.exists_eq_add_of_le' hdepth
    exact ⟨_, t.span.stop, steps_unary_operand (not_unaryMarks_of_isName hp) rfl
      (steps_operand_name hp) (steps_postfixes_selection hdot ht hc),
      .selected rfl rfl rfl rfl (isLeaf_under isLeaf_leafOf) (isLeaf_under isLeaf_leafOf)⟩
  | @pointer star ty ts hstar h ih =>
    obtain ⟨depth, rfl⟩ := Nat.exists_eq_add_of_le' (Nat.le_of_add_left_le hdepth)
    obtain ⟨x, last', hx, hexpressed⟩ :=
      ih hc (Nat.le_of_add_le_add_right hdepth) star.span.stop rest
    exact ⟨_, last', steps_unary_pointer hstar hx (isTypeOnly_of_expressed hexpressed),
      .pointer hstar.text rfl rfl rfl (isLeaf_under isLeaf_leafOf) Node.inField_under
        (expressed_under hexpressed)⟩
  | @paren opening closing' ty ts ho h hc' ih =>
    obtain ⟨depth, rfl⟩ := Nat.exists_eq_add_of_le' (Nat.le_of_add_left_le hdepth)
    obtain ⟨x, last', hx, hexpressed⟩ :=
      ih hc' (Nat.le_of_add_le_add_right hdepth) opening.span.stop (closing :: rest)
    have hoperand : Steps (operand (tied (fuel + 2) (depth + 1)))
        ⟨opening :: (ts ++ closing' :: closing :: rest), last, false, true⟩
        (made .parenthesizedExpression opening closing'.span.stop [x])
        ⟨closing :: rest, closing'.span.stop, false, true⟩ :=
      steps_operand_paren ho hc' (steps_expression_of_unary hc' hx)
        (isTypeOnly_of_expressed hexpressed)
    rw [List.cons_append, List.append_assoc, List.singleton_append]
    exact ⟨_, closing'.span.stop, steps_unary_operand (not_unaryMarks_of_opening ho) rfl hoperand
      (steps_postfixes_closing hc), .paren rfl rfl hexpressed⟩

/-! ## What the rules for types read -/

/-- What follows does not go on with a type name. -/
def EndsType (ts : List Token) : Prop := ∀ t ∈ ts.head?, t.is "." = false ∧ t.is "[" = false

theorem endsType_closing (hc : closing.IsMark ")") (rest : List Token) :
    EndsType (closing :: rest) := by
  rintro _ ⟨⟩
  exact ⟨Token.is_of_isMark hc ".", Token.is_of_isMark hc "["⟩

theorem steps_nextIs {s : State} {w : String} :
    Steps (nextIs w) s ((s.tokens.head?.map (·.is w)).getD false) s := rfl

theorem steps_continues_false (h : EndsType ts) :
    Steps (continues "[") ⟨ts, last, breaks, braces⟩ false ⟨ts, last, breaks, braces⟩ := by
  cases ts with
  | nil => rfl
  | cons t ts =>
    have hnext : Steps (nextIs "[") ⟨t :: ts, last, breaks, braces⟩ false
        ⟨t :: ts, last, breaks, braces⟩ := (h t rfl).2 ▸ steps_nextIs
    refine .bind (a := breaks && t.newlineBefore) rfl ?_
    split
    · exact .pure
    · exact hnext

theorem fails_qualified {k : Node → Read (List Node)} (ht : t.IsName) (hrest : EndsType rest) :
    Fails (node .qualifiedType (packageIdentifier >>= fun p => expect "." >>= fun _ => k p))
      ⟨t :: rest, last, breaks, braces⟩ := by
  refine fails_node (.after (steps_leaf ht.identifier) (.bind ?_))
  cases rest with
  | nil => rfl
  | cons u rest => exact fails_expect (hrest u rfl).1

theorem steps_typeName {r : Rules} (ht : t.IsName) (hrest : EndsType rest) :
    Steps (typeName r) ⟨t :: rest, last, breaks, braces⟩ (leafOf .typeIdentifier t)
      ⟨rest, t.span.stop, breaks, braces⟩ :=
  .bind (.orElse_right (fails_qualified ht hrest) (steps_leaf ht.identifier))
    (.bind (steps_continues_false hrest) .pure)

theorem steps_typeName_qualified {r : Rules} {p dot : Token} (hp : p.IsName)
    (hdot : dot.IsMark ".") (ht : t.IsName) (hrest : EndsType rest) :
    Steps (typeName r) ⟨p :: dot :: t :: rest, last, breaks, braces⟩
      (made .qualifiedType p t.span.stop
        [(leafOf .packageIdentifier p).under .package, (leafOf .typeIdentifier t).under .name])
      ⟨rest, t.span.stop, breaks, braces⟩ := by
  refine .bind (.orElse_left (steps_node ?_)) (.bind (steps_continues_false hrest) .pure)
  exact .bind (steps_leaf hp.identifier) (.bind (steps_expect hdot.is)
    (.bind (steps_leaf ht.identifier) .pure))

end
end Reader

/-- The node is what the rules for types read the tokens of the type as. -/
inductive TypeExpr.Denoted : TypeExpr → List Token → Node → Prop
  | name {t : Token} {n : Node} (hleaf : n.IsLeaf .typeIdentifier t) : Denoted (.name t.text) [t] n
  | selected {p dot t : Token} {n x f : Node} (hkind : n.kind = .qualifiedType)
      (hchildren : n.children = [x, f]) (hx : x.inField = some .package)
      (hf : f.inField = some .name) (hxleaf : x.IsLeaf .packageIdentifier p)
      (hfleaf : f.IsLeaf .typeIdentifier t) : Denoted (.selected p.text t.text) [p, dot, t] n
  | pointer {star : Token} {ty : TypeExpr} {ts : List Token} {n x : Node}
      (hkind : n.kind = .pointerType) (hchildren : n.children = [x]) (h : Denoted ty ts x) :
      Denoted (.pointer ty) (star :: ts) n
  | paren {opening closing : Token} {ty : TypeExpr} {ts : List Token} {n x : Node}
      (hkind : n.kind = .parenthesizedType) (hchildren : n.children = [x])
      (h : Denoted ty ts x) : Denoted (.paren ty) (opening :: (ts ++ [closing])) n

namespace Reader
section
variable {t closing : Token} {ts rest : List Token} {last : Nat} {breaks braces : Bool}
  {fuel depth : Nat} {ty : TypeExpr} {n : Node}

theorem steps_typeRule_name {r : Rules} {s' : State} (ht : t.IsName)
    (h : Steps (typeName r) ⟨t :: ts, last, breaks, braces⟩ n s') :
    Steps (typeRule r) ⟨t :: ts, last, breaks, braces⟩ n s' := by
  refine .bind steps_peek ?_
  simp only [List.head?_cons, ht.identifier, if_true]
  exact h

/-- The rules for types read the type up to what does not go on with a name. -/
theorem exists_steps_type (h : ty.Spells ts) (hrest : EndsType rest) (hdepth : ty.depth ≤ depth)
    (fuel last : Nat) (breaks braces : Bool) :
    ∃ n last', Steps (read fuel depth .type) ⟨ts ++ rest, last, breaks, braces⟩ n
      ⟨rest, last', breaks, braces⟩ ∧ ty.Denoted ts n := by
  induction h generalizing last depth breaks braces rest with
  | @name t ht =>
    obtain ⟨depth, rfl⟩ := Nat.exists_eq_add_of_le' hdepth
    exact ⟨_, _, steps_typeRule_name ht (steps_typeName ht hrest), .name isLeaf_leafOf⟩
  | @selected p dot t hp hdot ht =>
    obtain ⟨depth, rfl⟩ := Nat.exists_eq_add_of_le' hdepth
    exact ⟨_, _, steps_typeRule_name hp (steps_typeName_qualified hp hdot ht hrest),
      .selected rfl rfl rfl rfl (isLeaf_under isLeaf_leafOf) (isLeaf_under isLeaf_leafOf)⟩
  | @pointer star ty ts hstar h ih =>
    obtain ⟨depth, rfl⟩ := Nat.exists_eq_add_of_le' (Nat.le_of_add_left_le hdepth)
    obtain ⟨x, last', hx, hdenoted⟩ :=
      ih hrest (Nat.le_of_add_le_add_right hdepth) star.span.stop breaks braces
    refine ⟨made .pointerType star last' [x], last', ?_, .pointer rfl rfl hdenoted⟩
    have hinner : Steps (do expect "*"; return [← (tied fuel depth).type])
        ⟨star :: (ts ++ rest), last, breaks, braces⟩ [x] ⟨rest, last', breaks, braces⟩ :=
      .bind (steps_expect hstar.is) (.bind hx .pure)
    refine .bind steps_peek ?_
    simp only [List.cons_append, List.head?_cons, Token.not_isIdentifier_of_isMark hstar,
      Token.is_of_isMark hstar]
    exact steps_node hinner
  | @paren opening closing ty ts ho h hc ih =>
    obtain ⟨depth, rfl⟩ := Nat.exists_eq_add_of_le' (Nat.le_of_add_left_le hdepth)
    have hdepth : ty.depth ≤ depth + 1 := Nat.le_succ_of_le (Nat.le_of_add_le_add_right hdepth)
    obtain ⟨x, last', hx, hdenoted⟩ :=
      ih (endsType_closing hc rest) hdepth opening.span.stop false true
    refine ⟨made .parenthesizedType opening closing.span.stop [x], closing.span.stop, ?_,
      .paren rfl rfl hdenoted⟩
    rw [List.cons_append, List.append_assoc, List.singleton_append]
    refine .bind steps_peek ?_
    simp only [List.head?_cons, Token.not_isIdentifier_of_isMark ho, Token.is_of_isMark ho]
    exact steps_node
      (.bind (steps_expect ho.is) (steps_enclosed (f := fun inner => [inner]) hc hx))

/-! ## Conversions -/

/-- No part of the node is a generic type. -/
def PlainType (n : Node) : Prop := ∀ m ∈ n.all, m.kind ≠ .genericType

theorem plainType_of_children (hkind : n.kind ≠ .genericType)
    (hchildren : ∀ c ∈ n.children, PlainType c) : PlainType n := by
  intro m hm
  rw [Node.all_eq] at hm
  rcases List.mem_cons.1 hm with rfl | hm
  · exact hkind
  · obtain ⟨c, hc, hm⟩ := Node.mem_allOf.1 hm
    exact hchildren c hc m hm

theorem plainType_congr {m : Node} (h : PlainType n) (hkind : m.kind = n.kind)
    (hchildren : m.children = n.children) : PlainType m := by
  refine plainType_of_children (hkind ▸ h n (Node.self_mem_all n)) ?_
  rw [hchildren]
  exact fun c hc d hd => h d (Node.mem_all_of_child hc hd)

theorem plainType_name {k : Kind} {f : Field} (hleaf : n.children = []) (hk : k ≠ .genericType) :
    PlainType ((n.as k).under f) := by
  refine plainType_of_children ?_ ?_
  · rwa [Node.kind_under, Node.kind_as]
  · rw [Node.children_under, Node.children_as, hleaf]
    exact nofun

/-- What the expression is as a type has no generic part. -/
theorem plainType_of_expressed (h : ty.Expressed ts n) {m : Node} (hm : n.asType? = some m) :
    PlainType m := by
  induction h generalizing m with
  | @name t n hleaf =>
    obtain ⟨head, cs⟩ := n
    obtain ⟨hkind, -, hcs⟩ := hleaf
    obtain rfl : cs = [] := hcs
    have hkind : head.kind = t.operandKind := hkind
    unfold Token.operandKind literalKind? at hkind
    unfold Node.asType? at hm
    split_ifs at hkind <;> rw [hkind] at hm
    · cases hm
    · cases hm
    · cases hm
    · cases hm
    · obtain rfl := Option.some.inj hm
      exact plainType_of_children (by rintro ⟨⟩) (List.forall_mem_nil _)
  | @selected p dot t n x f hkind hchildren hx hf hxleaf hfleaf =>
    obtain ⟨head, cs⟩ := n
    obtain rfl : cs = [x, f] := hchildren
    have hkind : head.kind = .selectorExpression := hkind
    unfold Node.asType? at hm
    rw [hkind] at hm
    simp only [Option.ite_none_right_eq_some] at hm
    obtain ⟨-, hm⟩ := hm
    obtain rfl := Option.some.inj hm
    exact plainType_of_children (by rintro ⟨⟩) (List.forall_mem_cons.2
      ⟨plainType_name hxleaf.children (by decide),
        List.forall_mem_singleton.2 (plainType_name hfleaf.children (by decide))⟩)
  | @pointer star ty ts n o x _ hkind hchildren ho holeaf hx h ih =>
    obtain ⟨head, cs⟩ := n
    obtain rfl : cs = [o, x] := hchildren
    have hkind : head.kind = .unaryExpression := hkind
    unfold Node.asType? at hm
    rw [hkind] at hm
    simp only [Option.ite_none_right_eq_some] at hm
    obtain ⟨-, hm⟩ := hm
    obtain ⟨t, ht, rfl⟩ := Option.map_eq_some_iff.1 hm
    exact plainType_of_children (by rintro ⟨⟩)
      (List.forall_mem_singleton.2 (plainType_congr (ih ht) rfl rfl))
  | @paren opening closing ty ts n x hkind hchildren h ih =>
    obtain ⟨head, cs⟩ := n
    obtain rfl : cs = [x] := hchildren
    have hkind : head.kind = .parenthesizedExpression := hkind
    unfold Node.asType? at hm
    rw [hkind] at hm
    obtain ⟨t, ht, rfl⟩ := Option.map_eq_some_iff.1 hm
    exact plainType_of_children (by rintro ⟨⟩) (List.forall_mem_singleton.2 (ih ht))

theorem conversionType?_of_expressed (h : ty.Expressed ts n)
    (hkind : n.kind = .parenthesizedExpression) : conversionType? n = none := by
  have hplain : (n.asType?).filter isGeneric = none := by
    rw [Option.filter_eq_none_iff]
    intro m hm hgeneric
    obtain ⟨x, hx, hk⟩ := List.any_eq_true.1 hgeneric
    exact plainType_of_expressed h hm x (Node.mem_all_of_mem_walk hx) (by simpa using hk)
  unfold conversionType?
  rw [hkind]
  simpa [Kind.isTypeOnly] using hplain

theorem steps_skip?_closing {w : String} (hc : closing.IsMark ")") (hw : (")" == w) = false) :
    Steps (skip? w) ⟨closing :: rest, last, breaks, braces⟩ false
      ⟨closing :: rest, last, breaks, braces⟩ :=
  steps_skip?_false ((Token.is_of_isMark hc w).trans hw)

theorem steps_nextIs_closing (hc : closing.IsMark ")") :
    Steps (nextIs ")") ⟨closing :: rest, last, breaks, braces⟩ true
      ⟨closing :: rest, last, breaks, braces⟩ :=
  hc.is ▸ steps_nextIs

theorem steps_listUntil_one {x : Read Node} {a : Node} {last' : Nat} (hc : closing.IsMark ")")
    (ht : t.is ")" = false)
    (hx : Steps x ⟨t :: ts, last, breaks, braces⟩ a ⟨closing :: rest, last', breaks, braces⟩) :
    Steps (listUntil (fuel + 2) ")" x) ⟨t :: ts, last, breaks, braces⟩ [a]
      ⟨closing :: rest, last', breaks, braces⟩ := by
  have hopen : Steps (nextIs ")") ⟨t :: ts, last, breaks, braces⟩ false
      ⟨t :: ts, last, breaks, braces⟩ := ht ▸ steps_nextIs
  refine .bind (.bind hopen .pure) ?_
  refine .bind (.bind hx (.bind (steps_skip?_closing hc rfl)
    (.bind (steps_nextIs_closing hc) .pure))) ?_
  exact .bind (.bind (.bind (steps_nextIs_closing hc) .pure) .pure) .pure

theorem exists_steps_argumentList {name : Token} (ho : t.IsMark "(") (hname : name.IsName)
    (hc : closing.IsMark ")") (fuel depth last : Nat) (rest : List Token)
    (breaks braces special : Bool) :
    ∃ args, Steps (argumentList (tied (fuel + 2) (depth + 2)) special)
      ⟨t :: name :: closing :: rest, last, breaks, braces⟩ args
      ⟨rest, closing.span.stop, breaks, braces⟩ := by
  obtain ⟨n, last', hn, -⟩ :=
    exists_steps_unary (.name hname) hc (Nat.le_add_left 1 depth) fuel t.span.stop rest
  have hargument : Steps (argument (tied (fuel + 2) (depth + 2)))
      ⟨name :: closing :: rest, t.span.stop, false, true⟩ n
      ⟨closing :: rest, last', false, true⟩ :=
    .bind (steps_expression_of_unary hc hn) (.bind (steps_skip?_closing hc rfl) .pure)
  have hclosing : name.is ")" = false := Token.is_of_isName hname ⟨')', by decide, by decide⟩
  exact ⟨_, steps_node (.bind (steps_expect ho.is)
    (steps_enclosed hc (steps_listUntil_one hc hclosing hargument)))⟩

end
end Reader

/-- The tokens convert `nil` to a pointer to the type; the first ones are the pointer. -/
structure TypeExpr.Converts (ty : TypeExpr) (ts target : List Token) : Prop where
  spells : (paren (.pointer ty)).Spells target
  argument : ∃ opening word closing : Token, ts = target ++ [opening, word, closing] ∧
    opening.IsMark "(" ∧ word.IsName ∧ word.text = "nil" ∧ closing.IsMark ")"

/-- The node is a call of what the tokens of the pointer are read as. -/
structure TypeExpr.IsCallOf (ty : TypeExpr) (target : List Token) (call : Node) : Prop where
  kind : call.kind = .callExpression
  parts : ∃ func args : Node, call.children = [func, args] ∧ func.inField = some .function ∧
    (paren (.pointer ty)).Expressed target func

namespace Reader
section
variable {ts rest target : List Token} {last : Nat} {breaks braces : Bool} {fuel depth : Nat}
  {ty : TypeExpr}

/-- A conversion is read as an operand and a call of it, in whatever goes on with it. -/
theorem exists_steps_conversion (h : ty.Converts ts target) (hdepth : ty.depth + 2 ≤ depth)
    (fuel last : Nat) (rest : List Token) (breaks braces : Bool) :
    ∃ call last', Steps (operand (tied (fuel + 2) depth) >>= callStep (tied (fuel + 2) depth))
      ⟨ts ++ rest, last, breaks, braces⟩ call ⟨rest, last', breaks, braces⟩ ∧
      ty.IsCallOf target call := by
  obtain ⟨htarget, o, word, c, rfl, ho, hword, -, hc⟩ := h
  obtain ⟨depth, rfl⟩ := Nat.exists_eq_add_of_le' (Nat.le_of_add_left_le hdepth)
  cases htarget with
  | @paren opening closing _ us hopening hus hclosing =>
    obtain ⟨x, last', hx, hexpressed⟩ := exists_steps_unary hus hclosing
      (Nat.le_of_succ_le_succ hdepth) fuel opening.span.stop (o :: word :: c :: rest)
    obtain ⟨args, hargs⟩ := exists_steps_argumentList ho hword hc fuel depth closing.span.stop rest
      breaks braces false
    let func := made .parenthesizedExpression opening closing.span.stop [x]
    have hfunc : (TypeExpr.paren (.pointer ty)).Expressed (opening :: (us ++ [closing])) func :=
      .paren rfl rfl hexpressed
    have hoperand : Steps (operand (tied (fuel + 2) (depth + 2)))
        ⟨opening :: (us ++ closing :: o :: word :: c :: rest), last, breaks, braces⟩ func
        ⟨o :: word :: c :: rest, closing.span.stop, breaks, braces⟩ :=
      steps_operand_paren hopening hclosing (steps_expression_of_unary hclosing hx)
        (isTypeOnly_of_expressed hexpressed)
    have hcall : Steps (callStep (tied (fuel + 2) (depth + 2)) func)
        ⟨o :: word :: c :: rest, closing.span.stop, breaks, braces⟩
        (.mk { kind := .callExpression, span := { func.span with stop := c.span.stop } }
          [func.under .function, args.under .arguments]) ⟨rest, c.span.stop, breaks, braces⟩ := by
      refine .bind hargs ?_
      rw [conversionType?_of_expressed hfunc rfl]
      exact steps_nodeFrom
    refine ⟨_, _, .bind ?_ hcall, rfl, func.under .function, args.under .arguments, rfl, rfl,
      expressed_under hfunc⟩
    simpa using hoperand

end
end Reader
end RouteCheck
