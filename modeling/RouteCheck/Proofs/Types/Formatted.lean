import Mathlib.Algebra.GroupWithZero.Nat
import Mathlib.Data.List.TakeWhile
import RouteCheck.Proofs.Program.Sample
import RouteCheck.Proofs.Types.Pieces

/-!
Format strings and their arguments.

Folding a call of `fmt.Sprintf` folds its format first, and hands out the arguments to the verbs in
the texts of what comes of it. A format may be put together itself, with holes and with other calls;
holes take no argument. Where verbs and arguments differ in number there is a mismatch, and of
several the first one is kept.

Main statements:
  1. `Segment.count_split_iff`, `Template.verbs_eq_iff`: the verbs of a text and of a format, by a
     grammar of formats.
  2. `Template.fillPieces_eq`, `Template.pieces_applyFormat`: the argument that a verb gets.
  3. `Typer.foldWithin_succ`: one level of folding; `Typer.mismatch_foldWithin` and
     `Typer.holes_foldWithin`: all levels, by induction on their number.
  4. `Typer.fold_matches_arguments`: the mismatch of an expression, and the holes of its calls.
-/

namespace RouteCheck

/-! ## Verbs of a format -/

namespace Segment

/-- The characters have so many verbs: percent signs followed by flags and a letter. A doubled
percent sign is none, and neither is one that only flags follow. -/
inductive HasVerbs : List Char → Nat → Prop
  | nil : HasVerbs [] 0
  | plain {c cs k} (hc : c ≠ '%') (h : HasVerbs cs k) : HasVerbs (c :: cs) k
  | double {cs k} (h : HasVerbs cs k) : HasVerbs ('%' :: '%' :: cs) k
  | verb {flags letter cs k} (hflags : ∀ c ∈ flags, isFlag c = true)
    (hletter : isFlag letter = false) (hsingle : flags = [] → letter ≠ '%') (h : HasVerbs cs k) :
    HasVerbs ('%' :: (flags ++ letter :: cs)) (k + 1)
  | dangling {flags} (hflags : ∀ c ∈ flags, isFlag c = true) : HasVerbs ('%' :: flags) 0

theorem count_flush (text : List Char) : (flush text).count .verb = 0 := by
  unfold flush
  split <;> simp

theorem count_splitFrom_of_hasVerbs {cs : List Char} {k : Nat} (h : HasVerbs cs k)
    (text : List Char) : (splitFrom text cs).count .verb = k := by
  have hpercent : isFlag '%' = false := by decide
  induction h generalizing text with
  | nil => rw [splitFrom, count_flush]
  | @plain c cs k hc _ ih =>
    rw [splitFrom, if_neg hc, ih]
    exact fun _ h => absurd h hc
  | double _ ih => rw [splitFrom, ih]
  | @verb flags letter cs k hflags hletter hsingle _ ih =>
    have hdrop : (flags ++ letter :: cs).dropWhile isFlag = letter :: cs := by
      rw [List.dropWhile_append_of_pos hflags, List.dropWhile_cons_of_neg (by simp [hletter])]
    rw [splitFrom, if_pos rfl]
    · split
      · next heq => simp [hdrop] at heq
      · next heq =>
        rw [hdrop] at heq
        obtain ⟨_, rfl⟩ := List.cons.inj heq
        rw [List.count_append, count_flush, List.count_cons_self, ih, Nat.zero_add]
    · intro more _ heq
      cases flags with
      | nil => exact hsingle rfl (List.cons.inj heq).1
      | cons c flags =>
        have hc := hflags c List.mem_cons_self
        rw [(List.cons.inj heq).1, hpercent] at hc
        exact absurd hc Bool.false_ne_true
  | @dangling flags hflags =>
    have hdrop : flags.dropWhile isFlag = [] := List.dropWhile_eq_nil_iff.2 hflags
    rw [splitFrom, if_pos rfl]
    · split
      · rw [count_flush]
      · next heq => simp [hdrop] at heq
    · rintro more _ rfl
      exact absurd (hflags '%' List.mem_cons_self) (by simp [hpercent])

theorem hasVerbs_count_splitFrom (text cs : List Char) :
    HasVerbs cs ((splitFrom text cs).count .verb) := by
  fun_induction splitFrom text cs with
  | case1 text =>
    rw [count_flush]
    exact .nil
  | case2 text cs ih => exact .double ih
  | case3 text cs hdrop =>
    rw [count_flush]
    exact .dangling (List.dropWhile_eq_nil_iff.1 hdrop)
  | case4 text cs letter rest hdrop hdouble ih =>
    have hsplit : cs.takeWhile isFlag ++ letter :: rest = cs := by
      rw [← hdrop, List.takeWhile_append_dropWhile]
    rw [List.count_append, count_flush, List.count_cons_self, Nat.zero_add]
    have hletter : isFlag letter = false := by
      have hne : cs.dropWhile isFlag ≠ [] := by simp [hdrop]
      have hhead := List.head_dropWhile_not isFlag hne
      simpa [hdrop] using hhead
    have hsingle : cs.takeWhile isFlag = [] → letter ≠ '%' := by
      intro hnil heq
      rw [hnil, heq] at hsplit
      exact hdouble rest rfl hsplit.symm
    have hverb := HasVerbs.verb (fun _ hc => List.mem_takeWhile_imp hc) hletter hsingle ih
    rwa [hsplit] at hverb
  | case5 text c cs hdouble hc ih => exact .plain hc ih

/-- Splitting a format finds its verbs. -/
theorem count_split_iff {format : String} {k : Nat} :
    (split format).count .verb = k ↔ HasVerbs format.toList k :=
  ⟨fun h => h ▸ hasVerbs_count_splitFrom [] _, fun h => count_splitFrom_of_hasVerbs h []⟩

end Segment

/-! ## Handing out the arguments -/

/-- Part of a format that may have holes. -/
inductive Mark where
  | text (s : String)
  | verb
  | hole (filler : Option Node)

namespace Mark

def isVerb : Mark → Bool
  | verb => true
  | _ => false

def ofSegment : Segment → Mark
  | .text s => text s
  | .verb => verb

/-- What becomes of the part where `k` verbs come before it. -/
def bound (args : List Node) (k : Nat) : Mark → Piece
  | text s => .lit s
  | verb => .hole args[k]?
  | hole f => .hole f

/-- Every verb gets the argument of its number, counting from `used`. -/
def bindFrom (args : List Node) (used : Nat) (ms : List Mark) : List Piece :=
  ms.mapIdx fun i m => m.bound args (used + (ms.take i).countP isVerb)

section
variable {args : List Node} {used : Nat} {m : Mark} {ms ns : List Mark}

theorem bindFrom_cons : bindFrom args used (m :: ms) =
    m.bound args used :: bindFrom args (used + if m.isVerb then 1 else 0) ms := by
  rw [bindFrom, List.mapIdx_cons]
  refine congrArg₂ _ (by simp) ?_
  refine congrArg (fun f => List.mapIdx f ms) (funext fun i => funext fun m' => ?_)
  rw [List.take_succ_cons, List.countP_cons]
  congr 1
  omega

theorem bindFrom_append : bindFrom args used (ms ++ ns) =
    bindFrom args used ms ++ bindFrom args (used + ms.countP isVerb) ns := by
  induction ms generalizing used with
  | nil => rfl
  | cons m ms ih =>
    rw [List.cons_append, bindFrom_cons, bindFrom_cons, ih, List.countP_cons, List.cons_append]
    congr 3
    omega

end
end Mark

namespace Piece

/-- The parts of a piece of a format. -/
def marks : Piece → List Mark
  | lit s => (Segment.split s).map .ofSegment
  | hole f => [.hole f]

/-- Number of verbs in the piece, if it is text. -/
def verbs : Piece → Nat
  | lit s => (Segment.split s).count .verb
  | hole _ => 0

/-- The texts of the pieces have so many verbs. -/
inductive HaveVerbs : List Piece → Nat → Prop
  | nil : HaveVerbs [] 0
  | lit {s ps k l} (hs : Segment.HasVerbs s.toList k) (h : HaveVerbs ps l) :
    HaveVerbs (.lit s :: ps) (k + l)
  | hole {f ps l} (h : HaveVerbs ps l) : HaveVerbs (.hole f :: ps) l

theorem push_hole (done : List Piece) (f : Option Node) :
    push done (.hole f) = done ++ [.hole f] := by
  induction done with
  | nil => rfl
  | cons p done ih =>
    rw [push, ih, List.cons_append]
    simp

theorem countP_map_ofSegment (segments : List Segment) :
    (segments.map Mark.ofSegment).countP Mark.isVerb = segments.count .verb := by
  rw [List.countP_map, List.count]
  refine List.countP_congr fun s _ => ?_
  cases s <;> simp [Mark.ofSegment, Mark.isVerb]

theorem countP_marks (p : Piece) : p.marks.countP Mark.isVerb = p.verbs := by
  cases p with
  | lit s => exact countP_map_ofSegment _
  | hole f => rfl

end Piece

namespace Template

def marks (format : Template) : List Mark := format.pieces.flatMap Piece.marks

/-- Number of verbs in the texts of a format. -/
def verbs (format : Template) : Nat := (format.pieces.map Piece.verbs).sum

/-- Counting verbs goes by the grammar of formats. -/
theorem verbs_eq_iff {format : Template} {k : Nat} :
    format.verbs = k ↔ Piece.HaveVerbs format.pieces k := by
  obtain ⟨pieces, _⟩ := format
  show (pieces.map Piece.verbs).sum = k ↔ Piece.HaveVerbs pieces k
  constructor
  · rintro rfl
    induction pieces with
    | nil => exact .nil
    | cons p pieces ih =>
      rw [List.map_cons, List.sum_cons]
      cases p with
      | lit s => exact .lit (Segment.count_split_iff.1 rfl) ih
      | hole f =>
        rw [Piece.verbs, Nat.zero_add]
        exact .hole ih
  · intro h
    induction h with
    | nil => rfl
    | lit hs _ ih => rw [List.map_cons, List.sum_cons, ih, Piece.verbs, Segment.count_split_iff.2 hs]
    | hole _ ih => rw [List.map_cons, List.sum_cons, ih, Piece.verbs, Nat.zero_add]

section
variable {args : List Node} {done : List Piece} {used : Nat}

theorem fillSegments_eq (segments : List Segment) :
    fillSegments args segments (done, used) =
      ((Mark.bindFrom args used (segments.map .ofSegment)).foldl Piece.push done,
        used + segments.count .verb) := by
  induction segments generalizing done used with
  | nil => rfl
  | cons s segments ih =>
    rw [List.map_cons, Mark.bindFrom_cons, List.foldl_cons, List.count_cons]
    cases s with
    | text s => exact ih
    | verb =>
      rw [fillSegments, ih, Mark.ofSegment, Mark.bound, Piece.push_hole]
      refine Prod.ext rfl ?_
      show used + 1 + _ = used + (_ + 1)
      omega

/-- Filling a format gives every verb the argument of its number, and counts the verbs. -/
theorem fillPieces_eq (ps : List Piece) :
    fillPieces args ps (done, used) =
      ((Mark.bindFrom args used (ps.flatMap Piece.marks)).foldl Piece.push done,
        used + (ps.map Piece.verbs).sum) := by
  induction ps generalizing done used with
  | nil => rfl
  | cons p ps ih =>
    rw [List.flatMap_cons, Mark.bindFrom_append, List.foldl_append, Piece.countP_marks,
      List.map_cons, List.sum_cons, ← Nat.add_assoc]
    cases p with
    | lit s => rw [fillPieces, fillSegments_eq, ih]; rfl
    | hole f =>
      rw [fillPieces, ih, ← Piece.push_hole]
      rfl

end

/-- A filled format: every verb is a hole with the argument of its number, what was a hole stays
one, and neighbouring texts are joined. -/
theorem pieces_applyFormat (format : Template) (call : Node) (args : List Node) :
    (format.applyFormat call args).pieces =
      (format.marks.mapIdx fun i m =>
        m.bound args ((format.marks.take i).countP Mark.isVerb)).foldl Piece.push [] := by
  rw [applyFormat, fillPieces_eq]
  simp [Mark.bindFrom, marks]

theorem mismatch_applyFormat (format : Template) (call : Node) (args : List Node) :
    (format.applyFormat call args).mismatch =
      (if format.verbs = args.length then none
        else some ⟨call, format.verbs, args.length⟩).or format.mismatch := by
  rw [applyFormat, fillPieces_eq]
  simp only [Nat.zero_add]
  rfl

/-! ## Counting holes -/

theorem countP_push (ps : List Piece) (p : Piece) :
    (Piece.push ps p).countP Piece.isHole = ps.countP Piece.isHole + [p].countP Piece.isHole := by
  fun_induction Piece.push ps p with
  | case1 p => simp
  | case2 a b => rfl
  | case3 p q qs hno ih =>
    rw [List.countP_cons, List.countP_cons, ih]
    omega

theorem countP_foldl_push (ps qs : List Piece) :
    (qs.foldl Piece.push ps).countP Piece.isHole =
      ps.countP Piece.isHole + qs.countP Piece.isHole := by
  induction qs generalizing ps with
  | nil => rfl
  | cons q qs ih =>
    rw [List.foldl_cons, ih, countP_push, Nat.add_assoc, ← List.countP_append,
      List.singleton_append]

theorem holes_append (a b : Template) : (a ++ b).holes = a.holes + b.holes :=
  countP_foldl_push a.pieces b.pieces

theorem countP_bindFrom_segments (args : List Node) (used : Nat) (segments : List Segment) :
    (Mark.bindFrom args used (segments.map .ofSegment)).countP Piece.isHole =
      segments.count .verb := by
  induction segments generalizing used with
  | nil => rfl
  | cons s segments ih =>
    rw [List.map_cons, Mark.bindFrom_cons, List.countP_cons, List.count_cons, ih]
    cases s <;> rfl

/-- What is filled has a hole for every verb and for every hole. -/
theorem countP_bindFrom (args : List Node) (used : Nat) (ps : List Piece) :
    (Mark.bindFrom args used (ps.flatMap Piece.marks)).countP Piece.isHole =
      (ps.map Piece.verbs).sum + ps.countP Piece.isHole := by
  induction ps generalizing used with
  | nil => rfl
  | cons p ps ih =>
    rw [List.flatMap_cons, Mark.bindFrom_append, List.countP_append, ih, List.map_cons,
      List.sum_cons, List.countP_cons]
    cases p with
    | lit s =>
      rw [Piece.marks, countP_bindFrom_segments, Piece.verbs, Piece.isHole]
      simp [Nat.add_assoc]
    | hole f =>
      show 1 + _ = 0 + _ + (_ + 1)
      omega

theorem holes_applyFormat (format : Template) (call : Node) (args : List Node) :
    (format.applyFormat call args).holes = format.verbs + format.holes := by
  rw [holes, applyFormat, fillPieces_eq]
  simp only [countP_foldl_push, countP_bindFrom]
  exact Nat.zero_add _

end Template

/-! ## What folding does with an expression -/

namespace Typer

/-- What folding does with an expression. -/
inductive Shape where
  | text (s : String)
  | inner (n : Node)
  | concat (left right : Node)
  | sprintf (format : Node) (args : List Node)
  | constant (file : SourceFile) (value : Node)
  | other

/-- The shape of an expression that names `pkg.name`. -/
def namedShape (t : Typer) (pkg name : String) : Shape :=
  match t.constant? pkg name with
  | some (file, v) => .constant file v
  | none => .other

/-- The shape of an expression. -/
def shape (t : Typer) (n : Node) : Shape :=
  match n.kind with
  | .interpretedStringLiteral | .rawStringLiteral => .text ((Literal.value? n.text).getD n.text)
  | .parenthesizedExpression =>
    match n.named.head? with
    | some inner => .inner inner
    | none => .other
  | .binaryExpression =>
    match (n.field? .operator).map Node.text, n.field? .left, n.field? .right with
    | some "+", some l, some r => .concat l r
    | _, _, _ => .other
  | .callExpression =>
    if t.isPackageCall n "fmt" "Sprintf" then
      match n.callArguments with
      | format :: args => .sprintf format args
      | [] => .other
    else .other
  | .identifier => if t.isLocal n then .other else t.namedShape t.file.package n.text
  | .selectorExpression =>
    match n.field? .operand, n.field? .selected with
    | some x, some f =>
      match t.import? x with
      | some pkg => t.namedShape pkg f.text
      | none => .other
    | _, _ => .other
  | _ => .other

/-- What becomes of an expression of the shape, its parts folded within `depth` levels. -/
def Shape.template (depth : Nat) (t : Typer) (n : Node) : Shape → Template
  | text s => .text s
  | inner m => foldWithin depth t m
  | concat l r => foldWithin depth t l ++ foldWithin depth t r
  | sprintf format args => (foldWithin depth t format).applyFormat n args
  | constant file v => (foldWithin depth { index := t.index, file } v).detach
  | other => .ofHole (some n)

section
variable {t : Typer} {n : Node}

/-- One level of folding. -/
theorem foldWithin_succ (depth : Nat) (t : Typer) (n : Node) :
    foldWithin (depth + 1) t n = (t.shape n).template depth t n := by
  have hnamed (pkg name : String) :
      (match t.constant? pkg name with
        | some (file, v) => (foldWithin depth { index := t.index, file } v).detach
        | none => Template.ofHole (some n)) =
      (t.namedShape pkg name).template depth t n := by
    rw [namedShape]
    cases t.constant? pkg name <;> rfl
  rw [foldWithin, shape]
  cases n.kind with
  | parenthesizedExpression => cases n.named.head? <;> rfl
  | binaryExpression =>
    cases (n.field? .operator).map Node.text with
    | none => rfl
    | some op =>
      by_cases hop : op = "+"
      · subst hop
        cases n.field? .left <;> cases n.field? .right <;> rfl
      · simp [hop, Shape.template]
  | callExpression =>
    simp only
    split
    · cases n.callArguments <;> rfl
    · rfl
  | identifier =>
    simp only
    split
    · rfl
    · exact hnamed ..
  | selectorExpression =>
    cases n.field? .operand with
    | none => rfl
    | some x =>
      cases n.field? .selected with
      | none => rfl
      | some f =>
        simp only
        cases t.import? x with
        | none => rfl
        | some pkg => exact hnamed ..
  | _ => rfl

theorem call_of_shape {format : Node} {args : List Node} (h : t.shape n = .sprintf format args) :
    t.isPackageCall n "fmt" "Sprintf" = true ∧ n.callArguments = format :: args := by
  have hnamed (pkg name : String) : t.namedShape pkg name ≠ .sprintf format args := by
    rw [namedShape]
    cases t.constant? pkg name <;> simp
  unfold shape at h
  split at h
  case h_5 =>
    split at h
    · next hcall =>
      split at h
      · next hargs =>
        obtain ⟨rfl, rfl⟩ := Shape.sprintf.inj h
        exact ⟨hcall, hargs⟩
      · cases h
    · cases h
  case h_6 =>
    split at h
    · cases h
    · exact absurd h (hnamed _ _)
  case h_7 =>
    split at h
    · split at h
      · exact absurd h (hnamed _ _)
      · cases h
    · cases h
  case h_3 | h_4 => split at h <;> cases h
  all_goals cases h

end

/-! ## The calls that folding enters -/

/-- A call of `fmt.Sprintf` that is folded. -/
structure Sprintf where
  call : Node
  format : Node
  /-- What follows the format. -/
  args : List Node
  /-- What the format is folded to. -/
  folded : Template

/-- Number of verbs in the texts of the folded format. -/
def Sprintf.verbs (c : Sprintf) : Nat := c.folded.verbs

/-- The calls of `fmt.Sprintf` that folding enters, in pre-order. -/
def sprintfsWithin : Nat → Typer → Node → List Sprintf
  | 0, _, _ => []
  | depth + 1, t, n =>
    match t.shape n with
    | .inner m => sprintfsWithin depth t m
    | .concat l r => sprintfsWithin depth t l ++ sprintfsWithin depth t r
    | .sprintf format args =>
      ⟨n, format, args, foldWithin depth t format⟩ :: sprintfsWithin depth t format
    | _ => []

/-- What folding makes of the other expressions that it enters: texts, constants and holes. -/
def operandsWithin : Nat → Typer → Node → List Template
  | 0, _, n => [.ofHole (some n)]
  | depth + 1, t, n =>
    match t.shape n with
    | .inner m => operandsWithin depth t m
    | .concat l r => operandsWithin depth t l ++ operandsWithin depth t r
    | .sprintf format _ => operandsWithin depth t format
    | s => [s.template depth t n]

/-- Folding the expression, constants included, comes to its end within `depth` levels. -/
def foldsWithin : Nat → Typer → Node → Bool
  | 0, _, _ => false
  | depth + 1, t, n =>
    match t.shape n with
    | .text _ | .other => true
    | .inner m => foldsWithin depth t m
    | .concat l r => foldsWithin depth t l && foldsWithin depth t r
    | .sprintf format _ => foldsWithin depth t format
    | .constant file v => foldsWithin depth { index := t.index, file } v

def sprintfs (t : Typer) (n : Node) : List Sprintf := sprintfsWithin (maxFoldDepth + 1) t n

def operands (t : Typer) (n : Node) : List Template := operandsWithin (maxFoldDepth + 1) t n

/-- Folding the expression does not exceed the levels there are. -/
def Folds (t : Typer) (n : Node) : Prop := foldsWithin (maxFoldDepth + 1) t n = true

/-- A call whose format is not followed by as many arguments as it has verbs. -/
def Sprintf.mismatch? (c : Sprintf) : Option Mismatch :=
  if c.verbs = c.args.length then none else some ⟨c.call, c.verbs, c.args.length⟩

section
variable {t : Typer} {n : Node} {c : Sprintf} {depth depth' : Nat}

theorem Sprintf.mismatch?_eq_none_iff : c.mismatch? = none ↔ c.verbs = c.args.length := by
  rw [mismatch?]
  split <;> simp [*]

theorem Sprintf.mismatch?_eq_some_iff {m : Mismatch} : c.mismatch? = some m ↔
    c.verbs ≠ c.args.length ∧ m = ⟨c.call, c.verbs, c.args.length⟩ := by
  rw [mismatch?]
  split
  · simp [*]
  · next hdiffers => rw [Option.some.injEq, eq_comm, and_iff_right hdiffers]

/-- The mismatch of an expression is that of the first call that has one. -/
theorem mismatch_foldWithin (depth : Nat) (t : Typer) (n : Node) :
    (foldWithin depth t n).mismatch = (sprintfsWithin depth t n).findSome? Sprintf.mismatch? := by
  induction depth generalizing n with
  | zero => rfl
  | succ depth ih =>
    rw [foldWithin_succ, sprintfsWithin]
    cases t.shape n with
    | inner m => exact ih m
    | concat l r =>
      simp only [List.findSome?_append, ← ih]
      rfl
    | sprintf format args =>
      rw [Shape.template, Template.mismatch_applyFormat, ih, List.findSome?_cons,
        Sprintf.mismatch?, Sprintf.verbs]
      split <;> rfl
    | text s => rfl
    | constant file v => rfl
    | other => rfl

theorem mismatch_fold_eq_some_iff {m : Mismatch} : (t.fold n).mismatch = some m ↔
    ∃ before c after, t.sprintfs n = before ++ c :: after ∧
      (∀ b ∈ before, b.verbs = b.args.length) ∧ c.verbs ≠ c.args.length ∧
        m = ⟨c.call, c.verbs, c.args.length⟩ := by
  rw [fold, mismatch_foldWithin, List.findSome?_eq_some_iff]
  constructor
  · rintro ⟨before, c, after, hcalls, hc, hbefore⟩
    obtain ⟨hdiffers, hm⟩ := Sprintf.mismatch?_eq_some_iff.1 hc
    exact ⟨before, c, after, hcalls, fun b hb => Sprintf.mismatch?_eq_none_iff.1 (hbefore b hb),
      hdiffers, hm⟩
  · rintro ⟨before, c, after, hcalls, hbefore, hdiffers, hm⟩
    exact ⟨before, c, after, hcalls, Sprintf.mismatch?_eq_some_iff.2 ⟨hdiffers, hm⟩,
      fun b hb => Sprintf.mismatch?_eq_none_iff.2 (hbefore b hb)⟩

/-- The holes of an expression are the verbs of the calls and the holes of the other operands. -/
theorem holes_foldWithin (depth : Nat) (t : Typer) (n : Node) :
    (foldWithin depth t n).holes = ((sprintfsWithin depth t n).map Sprintf.verbs).sum +
      ((operandsWithin depth t n).map Template.holes).sum := by
  induction depth generalizing n with
  | zero => rfl
  | succ depth ih =>
    rw [foldWithin_succ, sprintfsWithin, operandsWithin]
    cases t.shape n with
    | inner m => exact ih m
    | concat l r =>
      simp only [Shape.template, Template.holes_append, List.map_append, List.sum_append, ih]
      omega
    | sprintf format args =>
      simp only [Shape.template, Template.holes_applyFormat, List.map_cons, List.sum_cons, ih,
        Sprintf.verbs]
      omega
    | text s => simp
    | constant file v => simp
    | other => simp

theorem call_of_mem_sprintfsWithin (hc : c ∈ sprintfsWithin depth t n) :
    t.isPackageCall c.call "fmt" "Sprintf" = true ∧ c.call.callArguments = c.format :: c.args := by
  induction depth generalizing n with
  | zero => exact absurd hc List.not_mem_nil
  | succ depth ih =>
    rw [sprintfsWithin] at hc
    cases hshape : t.shape n with
    | inner m =>
      rw [hshape] at hc
      exact ih hc
    | concat l r =>
      rw [hshape] at hc
      exact (List.mem_append.1 hc).elim ih ih
    | sprintf format args =>
      rw [hshape] at hc
      rcases List.mem_cons.1 hc with rfl | hc
      · exact call_of_shape hshape
      · exact ih hc
    | text | constant | other =>
      rw [hshape] at hc
      exact absurd hc List.not_mem_nil

/-- More levels make no difference. -/
theorem foldWithin_of_le (h : foldsWithin depth t n = true) (hle : depth ≤ depth') :
    foldWithin depth' t n = foldWithin depth t n := by
  induction depth generalizing depth' t n with
  | zero => exact absurd h nofun
  | succ depth ih =>
    obtain ⟨depth', rfl⟩ : ∃ d, depth' = d + 1 := ⟨depth' - 1, by omega⟩
    have hle : depth ≤ depth' := by omega
    rw [foldWithin_succ, foldWithin_succ]
    rw [foldsWithin] at h
    cases hshape : t.shape n with
    | text s => rfl
    | other => rfl
    | inner m =>
      rw [hshape] at h
      exact ih h hle
    | concat l r =>
      rw [hshape] at h
      obtain ⟨hl, hr⟩ := Bool.and_eq_true_iff.1 h
      rw [Shape.template, ih hl hle, ih hr hle]
      rfl
    | sprintf format args =>
      rw [hshape] at h
      rw [Shape.template, ih h hle]
      rfl
    | constant file v =>
      rw [hshape] at h
      rw [Shape.template, ih h hle]
      rfl

/-- Where the levels suffice, the calls are folded as they are by themselves. -/
theorem folded_of_mem_sprintfsWithin (h : foldsWithin depth t n = true)
    (hle : depth ≤ maxFoldDepth + 1) (hc : c ∈ sprintfsWithin depth t n) :
    c.folded = t.fold c.format ∧ t.fold c.call = c.folded.applyFormat c.call c.args := by
  induction depth generalizing n with
  | zero => exact absurd hc List.not_mem_nil
  | succ depth ih =>
    have hwhole := foldWithin_of_le h hle
    have hle : depth ≤ maxFoldDepth + 1 := by omega
    rw [foldWithin_succ depth] at hwhole
    rw [sprintfsWithin] at hc
    rw [foldsWithin] at h
    cases hshape : t.shape n with
    | inner m =>
      rw [hshape] at h hc
      exact ih h hle hc
    | concat l r =>
      rw [hshape] at h hc
      obtain ⟨hl, hr⟩ := Bool.and_eq_true_iff.1 h
      exact (List.mem_append.1 hc).elim (ih hl hle) (ih hr hle)
    | sprintf format args =>
      rw [hshape] at h hc hwhole
      rcases List.mem_cons.1 hc with rfl | hc
      · exact ⟨(foldWithin_of_le h hle).symm, hwhole⟩
      · exact ih h hle hc
    | text | constant | other =>
      rw [hshape] at hc
      exact absurd hc List.not_mem_nil

end

/-- An expression has no mismatch if every call of `fmt.Sprintf` that folding enters has as many
arguments after the format as the folded format has verbs, by the grammar of formats; otherwise its
mismatch is the first call that has not, with its verbs and arguments. Either way a verb becomes a
hole that its argument fills, or nothing if there is none. -/
theorem fold_matches_arguments (t : Typer) (n : Node) :
    ((t.fold n).mismatch = none ↔ ∀ c ∈ t.sprintfs n, c.verbs = c.args.length) ∧
    (∀ m, (t.fold n).mismatch = some m ↔ ∃ before c after, t.sprintfs n = before ++ c :: after ∧
      (∀ b ∈ before, b.verbs = b.args.length) ∧ c.verbs ≠ c.args.length ∧
        m = ⟨c.call, c.verbs, c.args.length⟩) ∧
    ∀ c ∈ t.sprintfs n, t.isPackageCall c.call "fmt" "Sprintf" = true ∧
      c.call.callArguments = c.format :: c.args ∧
      (∀ k, c.verbs = k ↔ Piece.HaveVerbs c.folded.pieces k) ∧
      (t.Folds n → c.folded = t.fold c.format ∧ (t.fold c.call).pieces =
        ((t.fold c.format).marks.mapIdx fun i mark =>
          mark.bound c.args (((t.fold c.format).marks.take i).countP Mark.isVerb)).foldl
            Piece.push []) := by
  refine ⟨?_, fun m => mismatch_fold_eq_some_iff, fun c hc => ?_⟩
  · rw [fold, mismatch_foldWithin, List.findSome?_eq_none_iff]
    exact forall₂_congr fun c _ => Sprintf.mismatch?_eq_none_iff
  · obtain ⟨hcall, hargs⟩ := call_of_mem_sprintfsWithin hc
    refine ⟨hcall, hargs, fun _ => Template.verbs_eq_iff, fun hfolds => ?_⟩
    obtain ⟨hfolded, happly⟩ := folded_of_mem_sprintfsWithin hfolds (Nat.le_refl _) hc
    refine ⟨hfolded, ?_⟩
    rw [happly, hfolded]
    exact Template.pieces_applyFormat ..

end Typer

/-! ## A call in the format of another -/

/-- A call whose format is put together with another call, and a call without arguments after it. -/
def nestedFormats : List String :=
  ["func path(a, b, c string) string \x7b",
    "return fmt.Sprintf(\"/x/%v\" + fmt.Sprintf(\"/%5d%%\", a, b), c) +",
    "(fmt.Sprintf(\"/%s\")) \x7d"]

/-- Of the first concatenation of a file: whether it is folded within the levels there are, the
verbs and arguments of the calls that are entered, and those of its mismatch. -/
def SourceFile.formatted? (f : SourceFile) :
    Option (Bool × List (Nat × Nat) × Option (Nat × Nat)) :=
  (f.tree.descendants.find? (·.kind = .binaryExpression)).map fun n =>
    let t := Typer.enclosing (.build ⟨[f]⟩) f n
    (t.foldsWithin (Typer.maxFoldDepth + 1) n,
      (t.sprintfs n).map fun c => (c.verbs, c.args.length),
      (t.fold n).mismatch.map fun m => (m.verbs, m.supplied))

theorem formatted_nestedFormats : (SourceFile.sample nestedFormats).formatted? =
    some (true, [(1, 1), (1, 2), (1, 0)], some (1, 2)) := by
  simp only [nestedFormats, SourceFile.sample_eq, SourceFile.chars, String.reduceToList]
  decide +kernel

/-- The outer call is in order, and of the two others the one in its format is the mismatch. -/
theorem fold_matches_arguments_nested : ∃ (t : Typer) (n : Node) (m : Mismatch), t.Folds n ∧
    (t.fold n).mismatch = some m ∧ ∃ before c after, t.sprintfs n = before ++ c :: after ∧
      (∀ b ∈ before, b.verbs = b.args.length) ∧ c.folded = t.fold c.format ∧
        c.verbs = 1 ∧ c.args.length = 2 ∧ m.call = c.call := by
  obtain ⟨n, _, hrow⟩ := Option.map_eq_some_iff.1 formatted_nestedFormats
  obtain ⟨hfolds, hrow⟩ := Prod.mk.inj hrow
  obtain ⟨m, hm, hcounts⟩ := Option.map_eq_some_iff.1 (Prod.mk.inj hrow).2
  obtain ⟨hverbs, hsupplied⟩ := Prod.mk.inj hcounts
  obtain ⟨_, hfirst, hcalls⟩ := Typer.fold_matches_arguments
    (Typer.enclosing (.build ⟨[.sample nestedFormats]⟩) (.sample nestedFormats) n) n
  obtain ⟨before, c, after, hsplit, hbefore, _, rfl⟩ := (hfirst m).1 hm
  have hc := hcalls c (hsplit ▸ List.mem_append_right before List.mem_cons_self)
  exact ⟨_, n, _, hfolds, hm, before, c, after, hsplit, hbefore, (hc.2.2.2 hfolds).1, hverbs,
    hsupplied, rfl⟩

end RouteCheck
