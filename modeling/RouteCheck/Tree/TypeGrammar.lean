import RouteCheck.Tree.Reader

/-!
The grammar of types and parameter lists.

`Rules` holds the readers of the grammar's recursive rules; each rule below is given the
readers of the rules inside it, so that the knot is tied in one place. An expression that
turns out to stand where a type is expected is re-read by `Node.asType?`.
-/

namespace RouteCheck

/-- The expression `n` read as a type, if it can be one. -/
def Node.asType? (n : Node) : Option Node :=
  match n with
  | .mk h cs =>
    match h.kind with
    | .identifier => some (n.as .typeIdentifier)
    | .selectorExpression =>
      match cs with
      | [p, f] =>
        if p.kind = .identifier then
          some (.mk { h with kind := .qualifiedType }
            [(p.as .packageIdentifier).under .package, (f.as .typeIdentifier).under .name])
        else none
      | _ => none
    | .parenthesizedExpression =>
      match cs with
      | [c] => (asType? c).map fun t => .mk { h with kind := .parenthesizedType } [t]
      | _ => none
    | .unaryExpression =>
      match cs with
      | [op, c] =>
        if op.text = "*" then (asType? c).map fun t =>
          .mk { h with kind := .pointerType } [.mk { t.head with field := none } t.children]
        else none
      | _ => none
    | .binaryExpression =>
      match cs with
      | [l, op, r] =>
        if op.text = "|" then do
          return .mk { h with kind := .typeElem } [← asType? l, ← asType? r]
        else none
      | _ => none
    | .indexExpression =>
      match cs with
      | [base, arg] => do
        if base.kind != .identifier && base.kind != .selectorExpression then none
        let t ← asType? base
        return .mk { h with kind := .genericType }
          [t.under .type, (← asType? arg).under .typeArguments]
      | _ => none
    | .typeInstantiationExpression => some (n.as .genericType)
    | k => if k.isTypeOnly then some n else none

namespace Reader

/-- Readers of the rules that contain one another, and a bound on the length of lists. -/
structure Rules where
  fuel : Nat
  expression : Read Node
  unary : Read Node
  type : Read Node
  block : Read Node
  statement : Read Node
  literalValue : Read Node

def identifier : Read Node := leaf .identifier (·.isIdentifier)
def fieldIdentifier : Read Node := leaf .fieldIdentifier (·.isIdentifier)
def typeIdentifier : Read Node := leaf .typeIdentifier (·.isIdentifier)
def packageIdentifier : Read Node := leaf .packageIdentifier (·.isIdentifier)

def stringLiteral : Read Node :=
  leaf .interpretedStringLiteral (·.cls == .interpreted) <|>
  leaf .rawStringLiteral (·.cls == .raw)

def beginsType (t : Token) : Bool :=
  t.isIdentifier ||
  ["*", "[", "(", "map", "chan", "<-", "func", "struct", "interface", "~"].any t.is

/-! ## Parameters -/

/-- One entry of a parameter list: a name, three dots, a type. -/
structure Entry where
  name : Option Node
  variadic : Bool
  type : Node

def entry (r : Rules) : Read Entry :=
  (do
    let n ← identifier
    let variadic ← skip? "..."
    return { name := some n, variadic, type := ← r.type }) <|>
  (do
    let variadic ← skip? "..."
    return { name := none, variadic, type := ← r.type })

/-- Parameter declarations of a list with names: entries without a name of their own are
names that share the type of the next full entry. -/
def grouped : List Node → List Entry → List Node
  | _, [] => []
  | names, e :: rest =>
    match e.name with
    | none => grouped (names ++ [e.type.as .identifier]) rest
    | some n =>
      let first := (names ++ [n]).headD n
      let span := { first.span with stop := e.type.stop }
      let kind := if e.variadic then .variadicParameterDeclaration else .parameterDeclaration
      .mk { kind, span } ((names ++ [n]).map (·.under .name) ++ [e.type.under .type]) ::
        grouped [] rest

def ungrouped (es : List Entry) : List Node := es.map fun e =>
  let kind := if e.variadic then .variadicParameterDeclaration else .parameterDeclaration
  .mk { kind, span := e.type.span } [e.type.under .type]

def parameterList (r : Rules) : Read Node := node .parameterList do
  expect "("
  enclosed do
    let es ← listUntil r.fuel ")" (entry r)
    expect ")"
    return if es.any (·.name.isSome) then grouped [] es else ungrouped es

/-- The result of a signature, if there is one. -/
def result (r : Rules) : Read (List Node) := do
  if ← broken then return []
  if ← nextIs "(" then return [(← parameterList r).under .result]
  match ← peek with
  | some t => if beginsType t then return [(← r.type).under .result] else return []
  | none => return []

def signature (r : Rules) : Read (List Node) := do
  let ps ← parameterList r
  return ps.under .parameters :: (← result r)

/-! ## Type rules -/

/-- A union of types, as in a constraint. -/
def typeElem (r : Rules) : Read Node := do
  let t ← r.type
  let more ← many (do if ← continues "|" then skip? "|" else return false) r.type r.fuel
  if more.isEmpty then return t
  nodeFrom t .typeElem (t :: more)

/-- `[T, U]` after a type name. -/
def typeArguments (r : Rules) : Read (List Node) := do
  expect "["
  enclosed do
    let ts ← listUntil r.fuel "]" (typeElem r)
    expect "]"
    if ts.isEmpty then failure
    return ts.map (·.under .typeArguments)

/-- A type name, possibly of another package, possibly with type arguments. -/
def typeName (r : Rules) : Read Node := do
  let qualified : Read Node := node .qualifiedType do
    let p ← packageIdentifier
    expect "."
    let n ← typeIdentifier
    return [p.under .package, n.under .name]
  let t ← qualified <|> typeIdentifier
  if ← continues "[" then
    (do
      let args ← typeArguments r
      nodeFrom t .genericType (t.under .type :: args)) <|> pure t
  else return t

/-- `[]T`, `[...]T` or `[n]T`. -/
def bracketType (r : Rules) : Read Node := do
  let some first ← peek | failure
  expect "["
  let (kind, length) ← enclosed do
    if ← skip? "]" then return (Kind.sliceType, [])
    if ← skip? "..." then
      expect "]"
      return (Kind.implicitLengthArrayType, [])
    let n ← r.expression
    expect "]"
    return (Kind.arrayType, [n.under .length])
  if ← broken then failure
  let e ← r.type
  return .mk { kind, span := { first.span with stop := (← get).last } } (length ++ [e.under .element])

def fieldDeclaration (r : Rules) : Read Node := node .fieldDeclaration do
  let tag : Read (List Node) := do
    if ← broken then return []
    (do return [(← stringLiteral).under .tag]) <|> return []
  let named : Read (List Node) := do
    let names ← sepBy r.fuel "," fieldIdentifier
    if ← broken then failure
    let t ← r.type
    return names.map (·.under .name) ++ [t.under .type]
  let embedded : Read (List Node) := do
    if ← nextIs "*" then
      let star ← bare "*"
      return [star, (← typeName r).under .type]
    return [(← typeName r).under .type]
  return (← named <|> embedded) ++ (← tag)

def structType (r : Rules) : Read Node := node .structType do
  expect "struct"
  let list ← node .fieldDeclarationList do
    expect openBrace
    inBody do
      let fs ← lines r.fuel [closeBrace] (fieldDeclaration r)
      expect closeBrace
      return fs
  return [list]

def interfaceElement (r : Rules) : Read Node :=
  (node .methodElem do
    let n ← fieldIdentifier
    if !(← nextIs "(") then failure
    return n.under .name :: (← signature r)) <|>
  typeElem r

def interfaceType (r : Rules) : Read Node := node .interfaceType do
  expect "interface"
  expect openBrace
  inBody do
    let es ← lines r.fuel [closeBrace] (interfaceElement r)
    expect closeBrace
    return es

def channelType (r : Rules) : Read Node := node .channelType do
  if ← skip? "<-" then
    expect "chan"
  else
    expect "chan"
    discard (skip? "<-")
  return [(← r.type).under .value]

def typeRule (r : Rules) : Read Node := do
  let some t ← peek | failure
  if t.isIdentifier then typeName r
  else if t.is "(" then node .parenthesizedType do
    expect "("
    enclosed do
      let inner ← r.type
      expect ")"
      return [inner]
  else if t.is "*" then node .pointerType do
    expect "*"
    return [← r.type]
  else if t.is "~" then node .negatedType do
    expect "~"
    return [← r.type]
  else if t.is "[" then bracketType r
  else if t.is "map" then node .mapType do
    expect "map"
    expect "["
    let k ← enclosed do
      let k ← r.type
      expect "]"
      return k
    return [k.under .key, (← r.type).under .value]
  else if t.is "chan" || t.is "<-" then channelType r
  else if t.is "func" then node .functionType do
    expect "func"
    signature r
  else if t.is "struct" then structType r
  else if t.is "interface" then interfaceType r
  else failure

end Reader
end RouteCheck
