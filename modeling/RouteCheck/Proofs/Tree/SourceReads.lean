import RouteCheck.Proofs.Program.Located
import RouteCheck.Proofs.Tree.StatementReads

/-!
The declarations of a source file are placed.

Main statements:
  1. `sound_rulesAt`: the rules that contain one another, by induction on how deep they nest.
  2. `inOrder_scan`: the tokens of a text lie one after the other.
  3. `placed_label`: numbering the nodes and giving them their texts leaves them in place.
  4. `placedIn_ofSource`: the declarations of a file are placed, one after the other.
-/

namespace RouteCheck

/-! ## The rules that contain one another -/

namespace Reader
open Node

/-- What is shown of the nodes that a rule reads. -/
def Goal.Keeps : Goal → Node → Prop
  | .expression | .unary | .literalValue => Closed
  | .type => Plain
  | .block | .statement => Any

/-- The rules at some depth. -/
def rulesAt (fuel depth : Nat) : Rules where
  fuel
  expression := read fuel depth .expression
  unary := read fuel depth .unary
  type := read fuel depth .type
  block := read fuel depth .block
  statement := read fuel depth .statement
  literalValue := read fuel depth .literalValue

theorem yields_read (fuel depth : Nat) (goal : Goal) :
    Yields true (read fuel depth goal : Read Node) (One goal.Keeps) := by
  induction depth generalizing goal with
  | zero => exact fun _ _ _ _ _ _ _ hrun => nomatch hrun
  | succ depth ih =>
    have h : (rulesAt fuel depth).Sound :=
      ⟨ih .expression, ih .unary, ih .type, ih .literalValue, ih .block, ih .statement⟩
    cases goal with
    | expression => exact yields_expressionRule h
    | unary => exact yields_unaryRule h
    | type => exact yields_typeRule h
    | block => exact yields_blockRule h
    | statement => exact yields_statementRule h
    | literalValue => exact yields_literalValueRule h

theorem sound_rulesAt (fuel depth : Nat) : (rulesAt fuel depth).Sound where
  expression := yields_read fuel depth .expression
  unary := yields_read fuel depth .unary
  type := yields_read fuel depth .type
  literalValue := yields_read fuel depth .literalValue
  block := yields_read fuel depth .block
  statement := yields_read fuel depth .statement

/-! ## A file -/

theorem yields_packageClause : Yields true packageClause (One Any) :=
  yields_any rfl (.expect (reads_only yields_packageIdentifier))

section
variable {r : Rules} (h : r.Sound)
include h

theorem yields_topLevel : Yields true (topLevel r) (One Any) :=
  .orElse yields_packageClause (.orElse yields_importDeclaration
    (.orElse (yields_functionDeclaration h) (.orElse (yields_methodDeclaration h) h.statement)))

theorem yields_declarations {fuel : Nat} : Yields false (declarations r fuel) (All Any) := by
  induction fuel with
  | zero => exact yields_none
  | succ fuel ih =>
    have hdecl : Yields false ((some <$> topLevel r) <|> pure none)
        fun d? cs => cs = d?.toList := by
      refine .orElse ?_ (.pure fun _ _ hlaid => ⟨[], hlaid, rfl⟩)
      rw [map_eq_pure_bind]
      exact (yields_topLevel h).take fun d _ => .pure fun _ _ hlaid =>
        ⟨_, hlaid.weaken nofun, rfl⟩
    refine .peeks .get fun s => .ite (fun _ => yields_none) fun _ => hdecl.bind fun d? _ hd => ?_
    subst hd
    cases d? with
    | none => exact yields_none
    | some d =>
      have hrest {b : Bool} : Reads b ([] ++ (some d).toList)
          (do return d :: (← declarations r fuel)) (Gives false (All Any)) :=
        ih.take fun ds _ => .pure fun _ _ hlaid => gives_anys hlaid nofun fun h => h
      exact .peeks peeks_broken fun _ => .ite (fun _ => .discardSkip hrest hrest) fun _ => hrest

end

theorem placedIn_sourceFile {tokens : List Token} (h : InOrder 0 tokens) :
    ∃ stop, PlacedIn (sourceFile tokens).children 0 stop := by
  unfold sourceFile
  simp only [children]
  split
  · next ds s' hrun =>
    obtain ⟨_, _, ⟨_, hplaced⟩, rfl, _⟩ :=
      yields_declarations (sound_rulesAt _ _) 0 { tokens } ds s' h
      (Nat.zero_le _) ⟨by simp, trivial⟩ hrun
    exact ⟨_, hplaced⟩
  · exact ⟨0, trivial⟩

end Reader

/-! ## Tokens -/

namespace Token
open Reader

theorem byte_lt_step (p : Place) (c : Char) : p.byte < (p.step c).byte := by
  have := c.utf8Size_pos
  unfold Place.step
  split
  · exact Nat.lt_succ_self _
  · exact Nat.lt_add_of_pos_right this

theorem byte_le_advance (p : Place) (cs : List Char) : p.byte ≤ (p.advance cs).byte := by
  induction cs generalizing p with
  | nil => exact Nat.le_refl _
  | cons c cs ih => exact Nat.le_trans (Nat.le_of_lt (byte_lt_step p c)) (ih (p.step c))

theorem byte_lt_advance (p : Place) (c : Char) (cs : List Char) :
    p.byte < (p.advance (c :: cs)).byte :=
  Nat.lt_of_lt_of_le (byte_lt_step p c) (byte_le_advance (p.step c) cs)

theorem inOrder_scanFrom (p : Place) (newline : Bool) (cs : List Char) :
    InOrder p.byte (scanFrom p newline cs) := by
  fun_induction scanFrom p newline cs with
  | case1 => trivial
  | case2 p newline c cs _ ih => exact ih.mono (Nat.le_of_lt (byte_lt_step p c))
  | case3 p newline c cs _ _ n ih => exact ih.mono (byte_le_advance p _)
  | case4 p newline c cs _ _ _ n ih => exact ih.mono (byte_le_advance p _)
  | case5 p newline c cs _ _ _ cls n _ chars q ih =>
    exact ⟨Nat.le_refl _, byte_lt_advance p c _, ih⟩

theorem inOrder_scan (source : String) : InOrder 0 (scan source) := by
  unfold scan
  split
  · exact (inOrder_scanFrom _ _ _).mono (Nat.zero_le _)
  · exact inOrder_scanFrom {} _ _

end Token

/-! ## Numbers and texts -/

namespace Node

section
variable {source : String} {k : Nat} {cs ds : List Node}

theorem mem_labels (cs : List Node) {c : Node} (h : c ∈ (labels source k cs).1) :
    ∃ c' ∈ cs, ∃ k', c = (label source k' c').1 := by
  induction cs generalizing k with
  | nil => exact absurd h List.not_mem_nil
  | cons d cs ih =>
    rcases List.mem_cons.1 h with rfl | h
    · exact ⟨d, List.mem_cons_self, k, rfl⟩
    · obtain ⟨c', hc', hlabel⟩ := ih h
      exact ⟨c', List.mem_cons_of_mem _ hc', hlabel⟩

theorem labels_append : (labels source k (cs ++ ds)).1 =
    (labels source k cs).1 ++ (labels source (labels source k cs).2 ds).1 := by
  induction cs generalizing k with
  | nil => rfl
  | cons c cs ih =>
    simp only [List.cons_append, labels, ih]

end

mutual
theorem closed_label {source : String} : ∀ {k : Nat} {n : Node}, n.Closed →
    (label source k n).1.Closed
  | _, mk h cs, hclosed => by
    rw [label, Closed]
    exact hclosed.imp_right fun ⟨hkind, hcs⟩ => ⟨hkind, closedAll_labels hcs⟩
theorem closedAll_labels {source : String} : ∀ {k : Nat} {cs : List Node}, ClosedAll cs →
    ClosedAll (labels source k cs).1
  | _, [], _ => trivial
  | _, _ :: _, ⟨hc, hcs⟩ => ⟨closed_label hc, closedAll_labels hcs⟩
end

theorem Regular.label {source : String} {k : Nat} {n : Node} (hn : n.Regular) :
    (label source k n).1.Regular := by
  obtain ⟨h, cs⟩ := n
  refine ⟨fun f hf c hc => ?_, fun f hf hfunction c hc hfield => ?_, fun hkind c hc => ?_,
    fun htoken => ?_⟩
  · rcases List.eq_nil_or_concat' cs with rfl | ⟨init, last, rfl⟩
    · exact absurd hc List.not_mem_nil
    · have hc : c ∈ (labels source (k + 1) (init ++ [last])).1.dropLast := hc
      rw [labels_append] at hc
      change c ∈ ((labels source (k + 1) init).1 ++ [_]).dropLast at hc
      rw [List.dropLast_concat] at hc
      obtain ⟨c', hc', k', rfl⟩ := mem_labels init hc
      rw [inField_label]
      exact hn.last f hf c' (by simpa [children] using hc')
  · obtain ⟨c', hc', k', rfl⟩ := mem_labels cs hc
    exact closed_label (hn.closed f hf hfunction c' hc' (inField_label.symm.trans hfield))
  · cases cs with
    | nil => exact absurd hc List.not_mem_nil
    | cons d cs =>
      obtain ⟨c', hc', k', rfl⟩ := mem_labels cs hc
      rw [kind_label]
      exact hn.dot hkind c' hc'
  · obtain rfl : cs = [] := hn.token htoken
    rfl

mutual
/-- Numbering the nodes and giving them their texts leaves them in place. -/
theorem placed_label {source : String} : ∀ {k : Nat} {n : Node}, n.Placed →
    (label source k n).1.Placed
  | k, mk h cs, hplaced => by
    obtain ⟨hlt, hregular, hcs⟩ := placed_iff.1 hplaced
    exact placed_iff.2 ⟨hlt, hregular.label, placedIn_labels hcs⟩
theorem placedIn_labels {source : String} : ∀ {k : Nat} {cs : List Node} {lo hi : Nat},
    PlacedIn cs lo hi → PlacedIn (labels source k cs).1 lo hi
  | k, [], _, _, _ => trivial
  | k, c :: cs, lo, hi, ⟨hlo, hc, hhi, hcs⟩ => by
    rw [labels, PlacedIn, start_label, stop_label]
    exact ⟨hlo, placed_label hc, hhi, placedIn_labels hcs⟩
end

/-- The declarations of a source text are placed one after the other. -/
theorem placedIn_ofSource (source : String) :
    ∃ stop, PlacedIn (ofSource source).children 0 stop := by
  obtain ⟨stop, hplaced⟩ := Reader.placedIn_sourceFile (Token.inOrder_scan source)
  exact ⟨stop, placedIn_labels hplaced⟩

end Node
end RouteCheck
