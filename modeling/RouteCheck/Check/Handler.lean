import RouteCheck.Types.Template

/-!
Handlers and the calls they make on their request context.

A handler is a function declaration, a method or a function literal with a body. A context
call is a call `ctx.Op(…)` whose operand has the context type of the routing library, behind
any number of pointers.
-/

namespace RouteCheck

/-- What a handler can do with its context. -/
inductive ContextOp where
  | custom | decode | decodeLimit | encode | decodeForm | decodeParam | pathParam | error | check
  deriving DecidableEq, Repr

namespace ContextOp

def names : List (String × ContextOp) :=
  [("Custom", custom), ("Decode", decode), ("DecodeLimit", decodeLimit), ("Encode", encode),
   ("DecodeForm", decodeForm), ("DecodeParam", decodeParam), ("PathParam", pathParam),
   ("Error", error), ("Check", check)]

def ofName? (name : String) : Option ContextOp := names.lookup name

def isWrite : ContextOp → Bool
  | custom | pathParam => false
  | _ => true

end ContextOp

/-- A recognized call of a context operation. -/
structure ContextCall where
  op : ContextOp
  call : Node
  args : List Node

/-- The operand and name of the method that `call` calls, if it is a method call. -/
def methodCalled? (call : Node) : Option (Node × Node) :=
  if call.kind = .callExpression then do
    let func ← call.field? .function
    if func.kind = .selectorExpression then
      return (← func.field? .operand, ← func.field? .selected)
    else none
  else none

/-- Recognize a call of a context operation; `library` is the routing library's package. -/
def Typer.contextCall? (t : Typer) (library : String) (call : Node) : Option ContextCall := do
  let (operand, name) ← methodCalled? call
  let op ← ContextOp.ofName? name.text
  if (t.typeOf operand).isNamedThroughPtr library "Context" then
    return ⟨op, call, call.callArguments⟩
  else none

/-- A handler with its body. -/
structure Handler where
  file : SourceFile
  node : Node
  body : Node
  deriving Inhabited

namespace Handler

/-- The two are the same function of the program. -/
def same (a b : Handler) : Bool := a.file.index == b.file.index && a.node.id == b.node.id

/-- The function as a handler, if it has a body. -/
def ofFunction? (file : SourceFile) (func : Node) : Option Handler :=
  (func.field? .body).map fun body => ⟨file, func, body⟩

def typer (h : Handler) (index : Index) : Typer := .enclosing index h.file h.node

end Handler

/-- The declaration that a selector names as a handler: a function of an imported package, a
method of the operand's type, or else the only method of this name in the package. -/
def Typer.selectedHandler? (t : Typer) (operand : Node) (name : String) : Option Decl :=
  match t.import? operand with
  | some pkg => t.index.function? t.file pkg name
  | none =>
    let byType := match (t.typeOf operand).elem with
      | .named (some pkg) recv => t.index.method? t.file pkg recv name
      | _ => none
    byType.or (t.index.uniqueMethod? t.file t.file.package name)

/-- The handler that an expression of a route table denotes. -/
def Typer.handler? (t : Typer) (value : Node) : Option Handler :=
  let v := value.unparen
  match v.kind with
  | .funcLiteral => Handler.ofFunction? t.file v
  | .identifier => do
    let d ← t.index.function? t.file t.file.package v.text
    Handler.ofFunction? d.file d.node
  | .selectorExpression => do
    let operand ← v.field? .operand
    let name ← v.field? .selected
    let d ← t.selectedHandler? operand name.text
    Handler.ofFunction? d.file d.node
  | _ => none

end RouteCheck
