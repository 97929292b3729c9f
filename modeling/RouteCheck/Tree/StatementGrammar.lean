import RouteCheck.Tree.ExpressionGrammar

/-!
The grammar of declarations and statements.
-/

namespace RouteCheck.Reader

/-! ## Declarations -/

/-- One declaration after its keyword, or several in parentheses. -/
def oneOrGroup (r : Rules) (item : Read Node) : Read (Bool × List Node) := do
  if ← skip? "(" then
    within true true do
      let items ← lines r.fuel [")"] item
      expect ")"
      return (true, items)
  else return (false, [← item])

def importSpec : Read Node := node .importSpec do
  let name ← (do return [(← leaf .dot (·.is ".")).under .name]) <|>
    (do return [(← leaf .blankIdentifier (·.is "_")).under .name]) <|>
    (do return [(← packageIdentifier).under .name]) <|> pure []
  return name ++ [(← stringLiteral).under .path]

def importDeclaration (r : Rules) : Read Node := node .importDeclaration do
  expect "import"
  let some first ← peek | failure
  let (grouped, specs) ← oneOrGroup r importSpec
  if grouped then
    let span := { first.span with stop := (← get).last }
    return [.mk { kind := .importSpecList, span } specs]
  return specs

def initialValues (r : Rules) : Read (List Node) := do
  if ← continues "=" then
    expect "="
    return [(← expressionList r).under .value]
  return []

/-- Names, with the commas between them when `commas` is set. -/
def nameList (r : Rules) (commas : Bool) : Read (List Node) := do
  let first ← identifier
  let more ← many (continues ",") (do
    let c ← bare ","
    let n ← identifier
    return if commas then [c.under .name, n.under .name] else [n.under .name]) r.fuel
  return first.under .name :: more.flatten

/-- A constant specification. The commas between its names are in field `name` too. -/
def constSpec (r : Rules) : Read Node := node .constSpec do
  let names ← nameList r true
  if ← ended then return names
  if (← nextIs "=") || (← nextIs ")") then return names ++ (← initialValues r)
  let t ← r.type
  return names ++ [t.under .type] ++ (← initialValues r)

def constDeclaration (r : Rules) : Read Node := node .constDeclaration do
  expect "const"
  return (← oneOrGroup r (constSpec r)).2

def varSpec (r : Rules) : Read Node := node .varSpec do
  let names ← nameList r false
  if ← nextIs "=" then return names ++ (← initialValues r)
  let t ← r.type
  return names ++ [t.under .type] ++ (← initialValues r)

def varDeclaration (r : Rules) : Read Node := node .varDeclaration do
  expect "var"
  let some first ← peek | failure
  let (grouped, specs) ← oneOrGroup r (varSpec r)
  if grouped then
    let span := { first.span with stop := (← get).last }
    return [.mk { kind := .varSpecList, span } specs]
  return specs

def typeParameterDeclaration (r : Rules) : Read Node := node .typeParameterDeclaration do
  let names ← sepBy r.fuel "," identifier
  let t ← typeElem r
  return names.map (·.under .name) ++ [t.under .type]

def typeParameterList (r : Rules) : Read Node := node .typeParameterList do
  expect "["
  enclosed do
    let ps ← listUntil r.fuel "]" (typeParameterDeclaration r)
    expect "]"
    if ps.isEmpty then failure
    return ps

def typeSpec (r : Rules) : Read Node := do
  let name ← typeIdentifier
  let params ← (do return [(← typeParameterList r).under .typeParameters]) <|> pure []
  let kind := if ← skip? "=" then Kind.typeAlias else .typeSpec
  let t ← r.type
  nodeFrom name kind (name.under .name :: params ++ [t.under .type])

def typeDeclaration (r : Rules) : Read Node := node .typeDeclaration do
  expect "type"
  return (← oneOrGroup r (typeSpec r)).2

def optionalBody (r : Rules) : Read (List Node) := do
  if ← continues openBrace then return [(← r.block).under .body] else return []

def functionDeclaration (r : Rules) : Read Node := node .functionDeclaration do
  expect "func"
  let name ← identifier
  let params ← if ← nextIs "[" then pure [(← typeParameterList r).under .typeParameters]
    else pure []
  let sig ← signature r
  return name.under .name :: params ++ sig ++ (← optionalBody r)

def methodDeclaration (r : Rules) : Read Node := node .methodDeclaration do
  expect "func"
  let receiver ← parameterList r
  let name ← fieldIdentifier
  let sig ← signature r
  return [receiver.under .receiver, name.under .name] ++ sig ++ (← optionalBody r)

/-! ## Simple statements -/

def assignments : List String :=
  ["=", "*=", "/=", "%=", "<<=", ">>=", "&=", "&^=", "+=", "-=", "|=", "^="]

/-- The rest of a simple statement whose first expressions are `left`. -/
def simpleFrom (r : Rules) (left : Node) : Read Node := do
  let only : Read Node := match left.children with
    | [e] => pure e
    | _ => failure
  if ← broken then nodeFrom left .expressionStatement [← only]
  else if ← skip? ":=" then
    let right ← expressionList r
    nodeFrom left .shortVarDeclaration [left.under .left, right.under .right]
  else if ← skip? "++" then nodeFrom left .incStatement [← only]
  else if ← skip? "--" then nodeFrom left .decStatement [← only]
  else if ← skip? "<-" then
    let c ← only
    let v ← r.expression
    nodeFrom left .sendStatement [c.under .channel, v.under .value]
  else
    match ← operator? assignments with
    | some op =>
      let right ← expressionList r
      nodeFrom left .assignmentStatement [left.under .left, op, right.under .right]
    | none => nodeFrom left .expressionStatement [← only]

def simpleStatement (r : Rules) : Read Node := do
  simpleFrom r (← expressionList r)

/-! ## Control statements -/

/-- Statements up to a closing brace or the next clause, wrapped in one list node unless
there are none. -/
def statementList (r : Rules) : Read (List Node) := do
  let some first ← peek | return []
  let ss ← lines r.fuel [closeBrace, "case", "default"] r.statement
  if ss.isEmpty then return []
  return [.mk { kind := .statementList, span := { first.span with stop := (← get).last } } ss]

def blockRule (r : Rules) : Read Node := node .block do
  expect openBrace
  inBody do
    let ss ← statementList r
    expect closeBrace
    return ss

def ifStatement (r : Rules) : Read Node := node .ifStatement do
  expect "if"
  let head ← inHeader do
    let s ← simpleStatement r
    if ← skip? ";" then
      return [s.under .initializer, (← r.expression).under .condition]
    match s.kind, s.children with
    | .expressionStatement, [e] => return [e.under .condition]
    | _, _ => failure
  let body ← r.block
  let alternative ← if ← skip? "else" then
      pure [(← if ← nextIs openBrace then r.block else r.statement).under .alternative]
    else pure []
  return head ++ [body.under .consequence] ++ alternative

/-- What follows the first semicolon of a three-part loop header. -/
def forClauseFrom (r : Rules) : Read (List Node) := do
  let condition ← if ← nextIs ";" then pure [] else
    pure [(← r.expression).under .condition]
  expect ";"
  let update ← if ← nextIs openBrace then pure [] else
    pure [(← simpleStatement r).under .update]
  return condition ++ update

def forHeader (r : Rules) : Read (List Node) := do
  if ← nextIs openBrace then return []
  let some first ← peek | failure
  let span : Read Span := do return { first.span with stop := (← get).last }
  if ← skip? ";" then
    let parts ← forClauseFrom r
    return [.mk { kind := .forClause, span := ← span } parts]
  if ← skip? "range" then
    let x ← r.expression
    return [.mk { kind := .rangeClause, span := ← span } [x.under .right]]
  let left ← expressionList r
  let ranged : Read (List Node) := do
    let mark ← bare ":=" <|> bare "="
    expect "range"
    let x ← r.expression
    return [.mk { kind := .rangeClause, span := ← span } [left.under .left, mark, x.under .right]]
  let plain : Read (List Node) := do
    let s ← simpleFrom r left
    if ← skip? ";" then
      let parts ← forClauseFrom r
      return [.mk { kind := .forClause, span := ← span } (s.under .initializer :: parts)]
    match s.kind, s.children with
    | .expressionStatement, [e] => return [e]
    | _, _ => failure
  ranged <|> plain

def forStatement (r : Rules) : Read Node := node .forStatement do
  expect "for"
  let head ← inHeader (forHeader r)
  return head ++ [(← r.block).under .body]

/-! ## Clauses -/

def clauseBody (r : Rules) : Read (List Node) := do
  expect ":"
  statementList r

def defaultCase (r : Rules) : Read Node := node .defaultCase do
  expect "default"
  clauseBody r

def expressionCase (r : Rules) : Read Node := node .expressionCase do
  expect "case"
  let v ← expressionList r
  return v.under .value :: (← clauseBody r)

/-- A clause of a type switch. The commas between its types are in field `type` too. -/
def typeCase (r : Rules) : Read Node := node .typeCase do
  expect "case"
  let first ← r.type
  let more ← many (nextIs ",") (do
    let c ← bare ","
    let t ← r.type
    return [c.under .type, t.under .type]) r.fuel
  return first.under .type :: more.flatten ++ (← clauseBody r)

def communication (r : Rules) : Read Node := do
  let left ← expressionList r
  let receive (parts : List Node) : Read Node := nodeFrom left .receiveStatement parts
  if (← skip? ":=") || (← skip? "=") then
    receive [left.under .left, (← r.expression).under .right]
  else if ← skip? "<-" then
    let v ← r.expression
    nodeFrom left .sendStatement (left.children.map (·.under .channel) ++ [v.under .value])
  else receive (left.children.map (·.under .right))

def communicationCase (r : Rules) : Read Node := node .communicationCase do
  expect "case"
  let c ← communication r
  return c.under .communication :: (← clauseBody r)

def clauses (r : Rules) (clause : Read Node) : Read (List Node) := do
  expect openBrace
  inBody do
    let cs ← many (return !(← nextIs closeBrace))
      (do if ← nextIs "default" then defaultCase r else clause) r.fuel
    expect closeBrace
    return cs

def selectStatement (r : Rules) : Read Node := node .selectStatement do
  expect "select"
  clauses r (communicationCase r)

/-- Header and kind of a switch: with `.(type)` at its end it is a type switch. -/
def switchHeader (r : Rules) : Read (Kind × List Node) := do
  if ← nextIs openBrace then return (.expressionSwitchStatement, [])
  let first ← simpleStatement r
  let (initial, last) ← if ← skip? ";" then
      let s ← if ← nextIs openBrace then pure none else some <$> simpleStatement r
      pure ([first.under .initializer], s)
    else pure ([], some first)
  let guard ← skip? "."
  if guard then
    expect "("
    expect "type"
    expect ")"
  match last with
  | none => return (.expressionSwitchStatement, initial)
  | some s =>
    match guard, s.kind, s.children with
    | false, .expressionStatement, [e] =>
      return (.expressionSwitchStatement, initial ++ [e.under .value])
    | true, .expressionStatement, [e] =>
      return (.typeSwitchStatement, initial ++ [e.under .value])
    | true, .shortVarDeclaration, [left, right] =>
      return (.typeSwitchStatement,
        initial ++ [left.under .alias] ++ right.children.map (·.under .value))
    | _, _, _ => failure

def switchStatement (r : Rules) : Read Node := do
  let some first ← peek | failure
  expect "switch"
  let (kind, head) ← inHeader (switchHeader r)
  let cs ← clauses r (if kind = .typeSwitchStatement then typeCase r else expressionCase r)
  return .mk { kind, span := { first.span with stop := (← get).last } } (head ++ cs)

/-! ## Statements -/

def jump (kind : Kind) (word : String) : Read Node := node kind do
  expect word
  if ← ended then return []
  (do return [(← leaf .labelName (·.isIdentifier))]) <|> pure []

def labeledStatement (r : Rules) : Read Node := node .labeledStatement do
  let l ← leaf .labelName (·.isIdentifier)
  expect ":"
  if (← nextIs closeBrace) || (← nextIs "case") || (← nextIs "default") then
    return [l.under .label]
  return [l.under .label, ← r.statement]

def returnStatement (r : Rules) : Read Node := node .returnStatement do
  expect "return"
  if (← ended) || (← nextIs "case") || (← nextIs "default") then return []
  return [← expressionList r]

def statementRule (r : Rules) : Read Node := do
  let some t ← peek | failure
  if t.is ";" then node .emptyStatement do
    expect ";"
    return []
  else if t.is openBrace then r.block
  else if t.is "if" then ifStatement r
  else if t.is "for" then forStatement r
  else if t.is "switch" then switchStatement r
  else if t.is "select" then selectStatement r
  else if t.is "return" then returnStatement r
  else if t.is "break" then jump .breakStatement "break"
  else if t.is "continue" then jump .continueStatement "continue"
  else if t.is "goto" then jump .gotoStatement "goto"
  else if t.is "fallthrough" then node .fallthroughStatement do
    expect "fallthrough"
    return []
  else if t.is "go" then node .goStatement do
    expect "go"
    return [← r.expression]
  else if t.is "defer" then node .deferStatement do
    expect "defer"
    return [← r.expression]
  else if t.is "var" then varDeclaration r
  else if t.is "const" then constDeclaration r
  else if t.is "type" then typeDeclaration r
  else if t.isIdentifier && (← peekSecond).any (·.is ":") then labeledStatement r
  else simpleStatement r

end RouteCheck.Reader
