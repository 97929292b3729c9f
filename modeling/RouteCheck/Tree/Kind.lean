/-!
Kinds and fields of the nodes of a Go syntax tree.

A kind says which grammar rule a node was read by; a field says which part of its
parent's rule it is. Tokens that are kept only because their field matters (an
operator, a comma between the names of a constant) share the kind `token`; every
other kind is *named*. `Kind.opensScope` and `Kind.isFunction` single out the kinds
that lexical scoping looks at.
-/

namespace RouteCheck

/-- The grammar rule a node was read by. -/
inductive Kind where
  | sourceFile | packageClause | packageIdentifier
  | importDeclaration | importSpec | importSpecList | dot | blankIdentifier
  | constDeclaration | constSpec | varDeclaration | varSpec | varSpecList
  | functionDeclaration | methodDeclaration
  | typeDeclaration | typeSpec | typeAlias
  | typeParameterList | typeParameterDeclaration
  | parameterList | parameterDeclaration | variadicParameterDeclaration
  | typeIdentifier | qualifiedType | genericType | typeElem
  | pointerType | parenthesizedType | negatedType
  | sliceType | arrayType | implicitLengthArrayType | mapType | channelType
  | functionType | structType | interfaceType
  | fieldDeclarationList | fieldDeclaration | fieldIdentifier | methodElem
  | block | statementList | emptyStatement | expressionStatement
  | sendStatement | receiveStatement | incStatement | decStatement
  | assignmentStatement | shortVarDeclaration
  | labeledStatement | labelName
  | fallthroughStatement | breakStatement | continueStatement | gotoStatement
  | returnStatement | goStatement | deferStatement
  | ifStatement | forStatement | forClause | rangeClause
  | expressionSwitchStatement | expressionCase | defaultCase
  | typeSwitchStatement | typeCase
  | selectStatement | communicationCase
  | expressionList | parenthesizedExpression
  | callExpression | argumentList | variadicArgument
  | selectorExpression | indexExpression | sliceExpression
  | typeAssertionExpression | typeConversionExpression | typeInstantiationExpression
  | unaryExpression | binaryExpression
  | compositeLiteral | literalValue | literalElement | keyedElement
  | funcLiteral | identifier
  | intLiteral | floatLiteral | imaginaryLiteral | runeLiteral
  | interpretedStringLiteral | rawStringLiteral
  | nilLiteral | trueLiteral | falseLiteral | iota
  | token
  deriving DecidableEq, Repr, Inhabited

/-- The part of its parent's rule that a node is. -/
inductive Field where
  | name | type | value | path
  | receiver | parameters | typeParameters | result | body
  | function | arguments | typeArguments
  | operand | selected | operator | left | right
  | index | lower | upper | capacity
  | initializer | condition | consequence | alternative | update
  | label | alias | communication | channel
  | key | element | length | package | tag
  deriving DecidableEq, Repr, Inhabited

namespace Kind

/-- Named kinds are the ones a reader of the tree sees; bare tokens are not. -/
def isNamed (k : Kind) : Bool := k != .token

/-- Functions, methods and function literals. -/
def isFunction : Kind → Bool
  | functionDeclaration | methodDeclaration | funcLiteral => true
  | _ => false

/-- Kinds that open a lexical scope. -/
def opensScope : Kind → Bool
  | block | ifStatement | forStatement
  | expressionSwitchStatement | typeSwitchStatement | selectStatement
  | expressionCase | typeCase | defaultCase | communicationCase
  | funcLiteral | functionDeclaration | methodDeclaration => true
  | _ => false

/-- Kinds that can only be read as a type, never as an expression. -/
def isTypeOnly : Kind → Bool
  | sliceType | arrayType | implicitLengthArrayType | mapType | channelType
  | functionType | structType | interfaceType | pointerType | parenthesizedType
  | genericType | qualifiedType | typeIdentifier | negatedType => true
  | _ => false

/-- The clauses of switch and select statements. -/
def isCase : Kind → Bool
  | expressionCase | defaultCase | typeCase | communicationCase => true
  | _ => false

theorem opensScope_of_isFunction (k : Kind) (h : k.isFunction = true) : k.opensScope = true := by
  cases k <;> simp_all [isFunction, opensScope]

end Kind
end RouteCheck
