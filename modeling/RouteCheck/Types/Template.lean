import RouteCheck.Types.Typing

/-!
String-building expressions as templates.

Route strings are written as literals, `+` chains, string constants and `fmt.Sprintf` calls.
`Typer.fold` turns such an expression into literal text with holes, where a hole remembers
the expression that fills it. Nothing else is evaluated: any other shape is a hole.
-/

namespace RouteCheck

/-- A piece of a folded string. A hole without a node is filled by nothing that is known. -/
inductive Piece where
  | lit (text : String)
  | hole (filler : Option Node)
  deriving Repr, Inhabited

/-- A `fmt.Sprintf` call whose verbs and arguments differ in number. -/
structure Mismatch where
  call : Node
  verbs : Nat
  supplied : Nat
  deriving Repr, Inhabited

structure Template where
  pieces : List Piece := []
  mismatch : Option Mismatch := none
  deriving Repr, Inhabited

namespace Piece

def isHole : Piece → Bool
  | hole _ => true
  | lit _ => false

/-- The text of the piece, a hole written `%s`. -/
def render : Piece → String
  | lit s => s
  | hole _ => "%s"

/-- Add a piece at the end; text joins text. -/
def push : List Piece → Piece → List Piece
  | [], p => [p]
  | [lit a], lit b => [lit (a ++ b)]
  | q :: qs, p => q :: push qs p

def unbind : Piece → Piece
  | hole _ => hole none
  | p => p

end Piece

/-! ## Format strings -/

/-- Part of a format string: literal text or a verb. -/
inductive Segment where
  | text (s : String)
  | verb
  deriving DecidableEq, Repr

namespace Segment

/-- Characters between a percent sign and its verb letter. -/
def isFlag (c : Char) : Bool := c.isDigit || "+-# .*".toList.contains c

/-- The text collected so far, unless it is empty. -/
def flush (text : List Char) : List Segment :=
  if text.isEmpty then [] else [.text (String.ofList text)]

/-- Split a format string whose text up to here is `text`. `%%` is text, and so is a percent
sign that no verb letter follows. -/
def splitFrom (text : List Char) : List Char → List Segment
  | [] => flush text
  | '%' :: '%' :: cs => splitFrom (text ++ ['%']) cs
  | c :: cs =>
    if c = '%' then
      match _h : cs.dropWhile isFlag with
      | [] => flush (text ++ ['%'])
      | _ :: rest => flush text ++ .verb :: splitFrom [] rest
    else splitFrom (text ++ [c]) cs
termination_by cs => cs.length
decreasing_by
  · simp +arith
  · have : (cs.dropWhile isFlag).length ≤ cs.length := (List.dropWhile_suffix _).length_le
    rw [_h] at this
    simp only [List.length_cons] at this ⊢
    omega
  · simp +arith

/-- The text and verbs of a format string. -/
def split (format : String) : List Segment := splitFrom [] format.toList

end Segment

namespace Template

def text (s : String) : Template := ⟨[.lit s], none⟩
def ofHole (filler : Option Node) : Template := ⟨[.hole filler], none⟩

/-- One template after the other; the first mismatch is kept. -/
def append (a b : Template) : Template :=
  ⟨b.pieces.foldl Piece.push a.pieces, a.mismatch.or b.mismatch⟩

instance : Append Template := ⟨append⟩

def render (t : Template) : String := t.pieces.foldl (fun s p => s ++ p.render) ""

def holes (t : Template) : Nat := t.pieces.countP Piece.isHole

/-- Remove `lead` from the start of the leading text, if it is there. -/
def trimLead (lead : String) (t : Template) : Template :=
  match t.pieces with
  | .lit first :: rest =>
    match Text.dropLead? lead first with
    | some shorter => { t with pieces := .lit shorter :: rest }
    | none => t
  | _ => t

/-- Give each verb its argument, in order. Answers the pieces after `done`, and the arguments
used so far. -/
def fillSegments (args : List Node) : List Segment → List Piece × Nat → List Piece × Nat
  | [], acc => acc
  | .text s :: rest, (done, used) => fillSegments args rest (Piece.push done (.lit s), used)
  | .verb :: rest, (done, used) =>
    fillSegments args rest (done ++ [.hole args[used]?], used + 1)

/-- Expand the verbs of the literal pieces; holes stay as they are. -/
def fillPieces (args : List Node) : List Piece → List Piece × Nat → List Piece × Nat
  | [], acc => acc
  | .hole f :: rest, (done, used) => fillPieces args rest (done ++ [.hole f], used)
  | .lit s :: rest, acc => fillPieces args rest (fillSegments args (Segment.split s) acc)

/-- The template of the call `call` with this format and these further arguments. -/
def applyFormat (format : Template) (call : Node) (args : List Node) : Template :=
  let (pieces, verbs) := fillPieces args format.pieces ([], 0)
  let own := if verbs = args.length then none else some ⟨call, verbs, args.length⟩
  ⟨pieces, own.or format.mismatch⟩

/-- The template of a constant used elsewhere: its holes and mismatches stay behind. -/
def detach (t : Template) : Template := ⟨t.pieces.map Piece.unbind, none⟩

end Template

namespace Typer

/-- How deep operands, formats and constants are followed. -/
def maxFoldDepth : Nat := 16

/-- The constant `pkg.name`, as seen from the typer's file. -/
def constant? (t : Typer) (pkg name : String) : Option (SourceFile × Node) := do
  let d ← t.index.value? t.file pkg name
  if d.isConst then return (d.file, ← d.value?) else none

/-- Fold an expression within `depth` levels. -/
def foldWithin : Nat → Typer → Node → Template
  | 0, _, n => .ofHole (some n)
  | depth + 1, t, n =>
    let asHole := Template.ofHole (some n)
    let named (pkg name : String) : Template :=
      match t.constant? pkg name with
      | some (file, v) => (foldWithin depth { index := t.index, file } v).detach
      | none => asHole
    match n.kind with
    | .interpretedStringLiteral | .rawStringLiteral =>
      .text ((Literal.value? n.text).getD n.text)
    | .parenthesizedExpression =>
      match n.named.head? with
      | some inner => foldWithin depth t inner
      | none => asHole
    | .binaryExpression =>
      match (n.field? .operator).map Node.text, n.field? .left, n.field? .right with
      | some "+", some l, some r => foldWithin depth t l ++ foldWithin depth t r
      | _, _, _ => asHole
    | .callExpression =>
      if t.isPackageCall n "fmt" "Sprintf" then
        match n.callArguments with
        | format :: args => (foldWithin depth t format).applyFormat n args
        | [] => asHole
      else asHole
    | .identifier => if t.isLocal n then asHole else named t.file.package n.text
    | .selectorExpression =>
      match n.field? .operand, n.field? .selected with
      | some x, some f =>
        match t.import? x with
        | some pkg => named pkg f.text
        | none => asHole
      | _, _ => asHole
    | _ => asHole

/-- Fold a string expression into a template. -/
def fold (t : Typer) (n : Node) : Template := foldWithin (maxFoldDepth + 1) t n

end Typer
end RouteCheck
