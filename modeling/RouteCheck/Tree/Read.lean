import RouteCheck.Tree.StatementGrammar

/-!
From the text of a source file to its syntax tree.

`Reader.read` ties the knot of the grammar's rules, and `Node.ofSource` reads a whole file
and then gives every node its text and its number. A file is read as far as the grammar
goes: a declaration that cannot be read ends the tree.
-/

namespace RouteCheck

namespace Reader

/-- The rules that contain one another. -/
inductive Goal where
  | expression | unary | type | block | statement | literalValue
  deriving DecidableEq

/-- Read one rule, nesting at most `depth` deep, with lists of at most `fuel` items. -/
def read (fuel : Nat) : Nat → Goal → State → Option (Node × State)
  | 0, _, _ => none
  | depth + 1, goal, s =>
    let rules : Rules :=
      { fuel
        expression := read fuel depth .expression
        unary := read fuel depth .unary
        type := read fuel depth .type
        block := read fuel depth .block
        statement := read fuel depth .statement
        literalValue := read fuel depth .literalValue }
    match goal with
    | .expression => expressionRule rules s
    | .unary => unaryRule rules s
    | .type => typeRule rules s
    | .block => blockRule rules s
    | .statement => statementRule rules s
    | .literalValue => literalValueRule rules s

def packageClause : Read Node := node .packageClause do
  expect "package"
  return [← packageIdentifier]

def topLevel (r : Rules) : Read Node :=
  packageClause <|> importDeclaration r <|> functionDeclaration r <|> methodDeclaration r <|>
    r.statement

/-- Declarations up to the end of the file, or to the first one that cannot be read. -/
def declarations (r : Rules) : Nat → Read (List Node)
  | 0 => return []
  | fuel + 1 => do
    if (← get).tokens.isEmpty then return []
    match ← (some <$> topLevel r) <|> pure none with
    | none => return []
    | some d =>
      if !(← broken) then discard (skip? ";")
      return d :: (← declarations r fuel)

/-- The tree of the tokens; every rule consumes a token before it nests more than a few deep. -/
def sourceFile (tokens : List Token) : Node :=
  let fuel := tokens.length + 1
  let depth := 8 * fuel
  let rules : Rules :=
    { fuel
      expression := read fuel depth .expression
      unary := read fuel depth .unary
      type := read fuel depth .type
      block := read fuel depth .block
      statement := read fuel depth .statement
      literalValue := read fuel depth .literalValue }
  let decls := match (declarations rules fuel).run { tokens } with
    | some (ds, _) => ds
    | none => []
  .mk { kind := .sourceFile, span := ⟨0, 0, 1, 1⟩ } decls

end Reader

namespace Node

mutual
/-- Number the nodes in pre-order from `k` and give each its text; also the next number. -/
def label (source : String) (k : Nat) : Node → Node × Nat
  | mk h cs =>
    let (cs', k') := labels source (k + 1) cs
    let text := String.Pos.Raw.extract source ⟨h.span.start⟩ ⟨h.span.stop⟩
    (mk { h with id := k, text } cs', k')
def labels (source : String) (k : Nat) : List Node → List Node × Nat
  | [] => ([], k)
  | c :: cs =>
    let (c', k₁) := label source k c
    let (cs', k₂) := labels source k₁ cs
    (c' :: cs', k₂)
end

/-- The syntax tree of a source text. It ends with the first declaration that the grammar does not
derive: how a parser goes on after a syntax error is not modelled. -/
def ofSource (source : String) : Node :=
  (label source 0 (Reader.sourceFile (Token.scan source))).1

end Node
end RouteCheck
