import RouteCheck.Tree.TypeGrammar

/-!
The grammar of expressions.

Binary operators are read level by level, loosest first. What follows an operand
(selectors, indices, calls, literals) is read by `postfix?`, one step at a time. Three
shapes are settled by what follows them: a type before an opening parenthesis is a
conversion, before an opening brace the type of a composite literal, and `f[T](x)` with
exactly one argument is a conversion to a generic type. With any other number of arguments
the callee stays the index expression `f[T]`: the parser does not set the types apart as
type arguments of a call of `f`, and a typer finds no declaration for such a callee.
-/

namespace RouteCheck.Reader

def levels : List (List String) :=
  [["||"], ["&&"], ["==", "!=", "<", "<=", ">", ">="], ["+", "-", "|", "^"],
   ["*", "/", "%", "<<", ">>", "&", "&^"]]

/-- The next token is one of the marks `ops` and goes on with the expression. -/
def operator? (ops : List String) : Read (Option Node) := do
  if ← broken then return none
  match ← peek with
  | some t => if ops.any t.is then return some ((← bare t.text).under .operator) else return none
  | none => return none

/-- Fold operands of one level to the left; `fuel` bounds their number. -/
def chain (ops : List String) (operand : Read Node) : Nat → Node → Read Node
  | 0, _ => failure
  | fuel + 1, left => do
    match ← operator? ops with
    | none => return left
    | some op =>
      let right ← operand
      let n ← nodeFrom left .binaryExpression [left.under .left, op, right.under .right]
      chain ops operand fuel n

def binary (fuel : Nat) (operand : Read Node) : List (List String) → Read Node
  | [] => operand
  | ops :: tighter => do
    let left ← binary fuel operand tighter
    chain ops (binary fuel operand tighter) fuel left

def expressionRule (r : Rules) : Read Node := binary r.fuel r.unary levels

def expressionList (r : Rules) : Read Node :=
  node .expressionList (sepBy r.fuel "," r.expression)

/-! ## Arguments and literals -/

def argument (r : Rules) : Read Node := do
  let e ← r.expression
  if ← skip? "..." then nodeFrom e .variadicArgument [e] else return e

/-- An argument list; the first argument of `new` and `make` is a type if it can be one. -/
def argumentList (r : Rules) (special : Bool) : Read Node := node .argumentList do
  expect "("
  enclosed do
    let args ← listUntil r.fuel ")" (argument r)
    expect ")"
    return match special, args with
      | true, a :: rest => a.asType?.getD a :: rest
      | _, _ => args

def element (r : Rules) : Read Node := node .literalElement do
  return [← if ← nextIs openBrace then r.literalValue else r.expression]

def keyedOrElement (r : Rules) : Read Node := do
  let k ← element r
  if ← skip? ":" then
    let v ← element r
    nodeFrom k .keyedElement [k.under .key, v.under .value]
  else return k

def literalValueRule (r : Rules) : Read Node := node .literalValue do
  expect openBrace
  enclosed do
    let es ← listUntil r.fuel closeBrace (keyedOrElement r)
    expect closeBrace
    return es

/-- A function literal, or a function type when no body follows. -/
def functionOperand (r : Rules) : Read Node := do
  let some first ← peek | failure
  expect "func"
  let sig ← signature r
  if (← continues openBrace) then
    let body ← r.block
    return .mk { kind := .funcLiteral, span := { first.span with stop := body.stop } }
      (sig ++ [body.under .body])
  return .mk { kind := .functionType, span := { first.span with stop := (← get).last } } sig

/-! ## Operands -/

def parenthesized (r : Rules) : Read Node := node .parenthesizedExpression do
  expect "("
  enclosed do
    let e ← r.expression
    expect ")"
    return [e]

def operand (r : Rules) : Read Node := do
  let some t ← peek | failure
  match t.cls with
  | .int => leaf .intLiteral fun _ => true
  | .float => leaf .floatLiteral fun _ => true
  | .imaginary => leaf .imaginaryLiteral fun _ => true
  | .rune => leaf .runeLiteral fun _ => true
  | .interpreted | .raw => stringLiteral
  | .word =>
    if t.text = "nil" then leaf .nilLiteral fun _ => true
    else if t.text = "true" then leaf .trueLiteral fun _ => true
    else if t.text = "false" then leaf .falseLiteral fun _ => true
    else if t.text = "iota" then leaf .iota fun _ => true
    else if t.text = "func" then functionOperand r
    else if t.isIdentifier then identifier
    else typeRule r
  | .mark =>
    if t.text = "(" then
      let p ← parenthesized r
      return if p.children.any (·.kind.isTypeOnly) then p.as .parenthesizedType else p
    else if t.text = "[" then bracketType r
    else failure

/-! ## What follows an operand -/

/-- Some node of the type is a generic type. -/
def isGeneric (t : Node) : Bool := (t.walk fun _ => true).any (·.kind == .genericType)

/-- The type that `callee` denotes when it is called with one argument, if that call is a
conversion. -/
def conversionType? (callee : Node) : Option Node :=
  if callee.kind.isTypeOnly then some callee
  else match callee.kind with
    | .indexExpression | .typeInstantiationExpression | .parenthesizedExpression =>
      callee.asType?.filter isGeneric
    | _ => none

/-- The type of a composite literal that begins with `lead`. -/
def literalType? (braces : Bool) (lead : Node) : Option Node :=
  match lead.kind with
  | .sliceType | .arrayType | .implicitLengthArrayType | .mapType | .structType => some lead
  | .identifier | .selectorExpression | .indexExpression | .typeInstantiationExpression =>
    if braces then lead.asType? else none
  | _ => none

def callStep (r : Rules) (callee : Node) : Read Node := do
  let special := callee.kind == .identifier && (callee.text == "new" || callee.text == "make")
  let args ← argumentList r special
  match conversionType? callee, args.children with
  | some t, [x] =>
    if x.kind == .variadicArgument then
      nodeFrom callee .callExpression [callee.under .function, args.under .arguments]
    else nodeFrom callee .typeConversionExpression [t.under .type, x.under .operand]
  | _, _ => nodeFrom callee .callExpression [callee.under .function, args.under .arguments]

/-- The bounds of a slice expression after its first colon. -/
def sliceBounds (r : Rules) (lead : List Node) : Read (List Node) := do
  let upper ← if (← nextIs "]") || (← nextIs ":") then pure [] else
    pure [(← r.expression).under .upper]
  let capacity ← if ← skip? ":" then pure [(← r.expression).under .capacity] else pure []
  expect "]"
  return lead ++ upper ++ capacity

def bracketStep (r : Rules) (base : Node) : Read Node := do
  expect "["
  let b := base.under .operand
  let (kind, parts) ← enclosed do
    if ← skip? ":" then return (Kind.sliceExpression, b :: (← sliceBounds r []))
    let first ← r.expression
    if ← skip? ":" then
      return (Kind.sliceExpression, b :: (← sliceBounds r [first.under .lower]))
    if ← skip? "]" then
      if first.kind.isTypeOnly then
        let some t := base.asType? | failure
        return (Kind.typeInstantiationExpression, [t.under .type, first.under .typeArguments])
      return (Kind.indexExpression, [b, first.under .index])
    expect ","
    let more ← listUntil r.fuel "]" r.expression
    expect "]"
    let some args := (first :: more).mapM (·.asType?) | failure
    let some t := base.asType? | failure
    return (Kind.typeInstantiationExpression, t.under .type :: args.map (·.under .typeArguments))
  nodeFrom base kind parts

/-- `.name` or `.(T)`. The guard `.(type)` of a type switch is left to its statement. -/
def dotStep (r : Rules) (base : Node) : Read Node := do
  expect "."
  if ← skip? "(" then
    let t ← enclosed do
      let t ← r.type
      expect ")"
      return t
    nodeFrom base .typeAssertionExpression [base.under .operand, t.under .type]
  else
    let f ← fieldIdentifier
    nodeFrom base .selectorExpression [base.under .operand, f.under .selected]

/-- One more step after `base`, if one follows. -/
def postfix? (r : Rules) (base : Node) : Read (Option Node) := do
  if ← broken then return none
  let some t ← peek | return none
  if t.is "." then
    let guard := ((← get).tokens.drop 2).head?.any (·.is "type")
    if guard then return none
    return some (← dotStep r base)
  if t.is "(" then return some (← callStep r base)
  if t.is "[" then return some (← bracketStep r base)
  if t.is openBrace then
    match literalType? (← get).braces base with
    | none => return none
    | some ty =>
      let body ← r.literalValue
      return some (← nodeFrom base .compositeLiteral [ty.under .type, body.under .body])
  return none

def postfixes (r : Rules) : Nat → Node → Read Node
  | 0, _ => failure
  | fuel + 1, base => do
    match ← postfix? r base with
    | none => return base
    | some n => postfixes r fuel n

/-- An operand with the operators before it. -/
def unaryRule (r : Rules) : Read Node := do
  let some t ← peek | failure
  if t.is "<-" && (← peekSecond).any (·.is "chan") then
    postfixes r r.fuel (← channelType r)
  else if ["+", "-", "!", "^", "*", "&", "<-"].any t.is then
    let op ← bare t.text
    let x ← r.unary
    let span := { t.span with stop := (← get).last }
    if t.is "*" && x.kind.isTypeOnly then
      return .mk { kind := .pointerType, span } [x]
    return .mk { kind := .unaryExpression, span } [op.under .operator, x.under .operand]
  else
    postfixes r r.fuel (← operand r)

end RouteCheck.Reader
