import RouteCheck.Types.Members
import RouteCheck.Types.Scope

/-!
Types of expressions.

A `Typer` knows the declarations of a program and the local declarations of one outermost
function, closures included. `Typer.typeOf` answers `unknown` for whatever it cannot work
out. Package-level values are typed by their initial value, following at most `maxJumps`
values in a row.
-/

namespace RouteCheck

structure Typer where
  index : Index
  file : SourceFile
  /-- Local declarations, in the order they were met. -/
  locals : List Binding := []
  deriving Inhabited

namespace Typer

/-- How many package-level values are followed in a row. -/
def maxJumps : Nat := 16

/-- What the identifier `n` refers to among the locals. -/
def local? (t : Typer) (n : Node) : Option Binding := Binding.resolve? t.locals n.text n.start

/-- The identifier `n` refers to a local declaration. -/
def isLocal (t : Typer) (n : Node) : Bool := (t.local? n).isSome

/-- Package name behind `n`, if it is an identifier naming an import. -/
def import? (t : Typer) (n : Node) : Option String :=
  if n.kind = .identifier && !t.isLocal n then t.file.import? n.text else none

/-- `call` is `pkg.name(…)` for the import of package `pkg`. -/
def isPackageCall (t : Typer) (call : Node) (pkg name : String) : Bool :=
  match call.field? .function with
  | none => false
  | some func =>
    func.kind = .selectorExpression &&
    match func.field? .operand, func.field? .selected with
    | some x, some f => t.import? x == some pkg && f.text == name
    | _, _ => false

/-! ## Types written as expressions -/

/-- The type that `n` denotes where it is used as a type. When `sure`, nothing but a type can
stand there, so any identifier and any name of an import is taken for one. -/
def typeDenoted? (t : Typer) (sure : Bool) (n : Node) : Option Ty :=
  match n.unparen.kind with
  | .pointerType | .parenthesizedType | .sliceType | .arrayType | .mapType | .qualifiedType
  | .typeIdentifier | .genericType | .interfaceType | .channelType | .functionType =>
    some (Ty.ofNode t.file n.unparen)
  | .unaryExpression =>
    if (n.unparen.field? .operator).map Node.text = some "*" then
      match _h : n.unparen.field? .operand with
      | some x => (typeDenoted? t true x).map .pointer
      | none => none
    else none
  | .identifier =>
    let m := n.unparen
    if sure then some (Ty.ofName t.file m.text)
    else if t.isLocal m then none
    else if Ty.isBuiltinName m.text then some (.builtin m.text)
    else if t.index.isType t.file t.file.package m.text then
      some (.declared t.file.package m.text)
    else none
  | .selectorExpression => do
    let x ← n.unparen.field? .operand
    let f ← n.unparen.field? .selected
    let pkg ← t.import? x
    if sure || t.index.isType t.file pkg f.text then some (.declared pkg f.text) else none
  | _ => none
termination_by n.size
decreasing_by
  have := Node.size_lt_of_field? _h
  have := Node.size_unparen_le n
  omega

/-! ## Library results -/

/-- Result types of the library functions that commonly build route strings. -/
def libraryResult? (pkg name : String) : Option Ty :=
  let isString :=
    [("fmt", ["Sprintf", "Sprint", "Sprintln"]),
     ("strconv", ["Itoa", "FormatInt", "FormatUint", "FormatBool", "FormatFloat", "Quote"]),
     ("strings", ["Join", "ToLower", "ToUpper", "TrimPrefix", "TrimSuffix", "TrimSpace",
       "Repeat", "ReplaceAll", "Replace"]),
     ("url", ["PathEscape", "QueryEscape"]), ("hex", ["EncodeToString"])].any
      fun (p, names) => p == pkg && names.contains name
  if isString then some .string
  else if (pkg, name) = ("fmt", "Errorf") || (pkg, name) = ("errors", "New") then
    some (.builtin "error")
  else none

/-! ## Types of expressions -/

def isComparison (op : String) : Bool :=
  ["==", "!=", "<", "<=", ">", ">=", "&&", "||"].contains op

/-- Type of an element of an indexed value. -/
def elementType : Ty → Ty
  | .slice e | .array _ e | .map _ e | .pointer (.array _ e) => e
  | t => if t.isString then .builtin "byte" else .unknown

def slicedType : Ty → Ty
  | .array _ e => .slice e
  | t => t

/-- Type of `op x` for an operand of type `x`. -/
def unaryType (op : String) (x : Ty) : Ty :=
  match op, x with
  | "&", _ => .pointer x
  | "*", .pointer e => e
  | "*", _ => .unknown
  | "<-", .chan e => e
  | "<-", _ => .unknown
  | "!", _ => .bool
  | _, _ => x

/-- Types that a call of the plain name `func` gives by the name alone: predeclared functions
and conversions to predeclared types. `first` is the type of the first argument. -/
def builtinCall? (t : Typer) (name : String) (args : List Node) (first : Unit → Option Ty) :
    Option (List Ty) :=
  if name = "new" then some ((args.head?.map fun a => .pointer (Ty.ofNode t.file a)).toList)
  else if name = "make" then some ((args.head?.map (Ty.ofNode t.file)).toList)
  else if name = "len" || name = "cap" || name = "copy" then some [.int]
  else if name = "append" || name = "min" || name = "max" then some (first ()).toList
  else if Ty.isBuiltinName name then some [.builtin name]
  else none

/-- Types of a conversion to, or a call of, what `name` declares in `pkg`. -/
def declaredCall? (t : Typer) (pkg name : String) : Option (List Ty) :=
  if t.index.isType t.file pkg name then some [.declared pkg name]
  else (t.index.function? t.file pkg name).map fun d => resultTypes d.file d.node

/-- Result types of a method called on a value of type `recv`. -/
def methodCall (t : Typer) (recv : Ty) (name : String) : List Ty :=
  let found := match recv.elem with
    | .named (some pkg) r => t.index.method? t.file pkg r name
    | _ => none
  match found with
  | some d => resultTypes d.file d.node
  | none => if name = "String" || name = "Error" then [.string] else []

theorem double_succ_lt_double_succ {a b : Nat} (h : a < b) : 2 * a + 1 < 2 * b + 1 := by omega

theorem double_succ_lt_double {a b : Nat} (h : a < b) : 2 * a + 1 < 2 * b := by omega

mutual

/-- Type of an expression; `value` answers the type of the package-level value `pkg.name`. -/
def typeWith (value : Typer → String → String → Ty) (t : Typer) (n : Node) : Ty :=
  match n.kind with
  | .parenthesizedExpression =>
    match _h : n.named.head? with
    | some x => typeWith value t x
    | none => .unknown
  | .interpretedStringLiteral | .rawStringLiteral => .string
  | .intLiteral | .iota => .int
  | .floatLiteral => .builtin "float64"
  | .imaginaryLiteral => .builtin "complex128"
  | .runeLiteral => .builtin "rune"
  | .trueLiteral | .falseLiteral => .bool
  | .nilLiteral => .untypedNil
  | .identifier =>
    match t.local? n with
    | some b => b.ty
    | none => value t t.file.package n.text
  | .unaryExpression =>
    match _h : n.field? .operand with
    | some x => unaryType (((n.field? .operator).map Node.text).getD "") (typeWith value t x)
    | none => .unknown
  | .binaryExpression =>
    let op := ((n.field? .operator).map Node.text).getD ""
    if isComparison op then .bool
    else
      let left := match _h : n.field? .left with
        | some x => typeWith value t x
        | none => .unknown
      if !left.isUnknown || op = "<<" || op = ">>" then left
      else match _h : n.field? .right with
        | some x => typeWith value t x
        | none => .unknown
  | .compositeLiteral | .typeConversionExpression | .typeAssertionExpression =>
    (n.field? .type).elim .unknown (Ty.ofNode t.file)
  | .funcLiteral => .func
  | .callExpression => (callWith value t n).headD .unknown
  | .selectorExpression =>
    match _h : n.field? .operand, n.field? .selected with
    | some x, some f =>
      match t.import? x with
      | some pkg => value t pkg f.text
      | none => (fieldType? t.index t.file (typeWith value t x) f.text).getD .unknown
    | _, _ => .unknown
  | .indexExpression =>
    match _h : n.field? .operand with
    | some x => elementType (typeWith value t x)
    | none => .unknown
  | .sliceExpression =>
    match _h : n.field? .operand with
    | some x => slicedType (typeWith value t x)
    | none => .unknown
  | _ => .unknown
termination_by 2 * n.size + 1
decreasing_by
  all_goals first
    | omega
    | exact double_succ_lt_double_succ (Node.size_lt_of_mem_named (List.mem_of_mem_head? (by simpa using _h)))
    | exact double_succ_lt_double_succ (Node.size_lt_of_field? _h)

/-- Result types of a call; a conversion is a call with one result. -/
def callWith (value : Typer → String → String → Ty) (t : Typer) (call : Node) : List Ty :=
  match _hf : call.field? .function with
  | none => []
  | some func =>
    match func.kind with
    | .identifier =>
      let first := fun _ => match _h : call.callArguments.head? with
        | some a => some (typeWith value t a)
        | none => none
      let predeclared :=
        if t.isLocal func then none else builtinCall? t func.text call.callArguments first
      predeclared.getD ((declaredCall? t t.file.package func.text).getD [])
    | .selectorExpression =>
      match _h : func.field? .operand, func.field? .selected with
      | some x, some f =>
        match t.import? x with
        | some pkg =>
          (declaredCall? t pkg f.text).getD (libraryResult? pkg f.text).toList
        | none => methodCall t (typeWith value t x) f.text
      | _, _ => []
    | _ => (t.typeDenoted? false func).toList
termination_by 2 * call.size
decreasing_by
  · have := Node.size_lt_of_mem_callArguments (List.mem_of_mem_head? (by simpa using _h))
    omega
  · have := Node.size_lt_of_field? _h
    have := Node.size_lt_of_field? _hf
    omega

end

/-- Type of the package-level value `pkg.name`, following at most `jumps` values. -/
def valueType : Nat → Typer → String → String → Ty
  | 0, _, _, _ => .unknown
  | k + 1, t, pkg, name =>
    match t.index.value? t.file pkg name with
    | none => .unknown
    | some d =>
      match d.spec.field? .type, d.value? with
      | some ty, _ => Ty.ofNode d.file ty
      | none, some v => typeWith (valueType k) { index := t.index, file := d.file } v
      | none, none => .unknown

/-- Static type of an expression. -/
def typeOf (t : Typer) (n : Node) : Ty := typeWith (valueType maxJumps) t n

def callResults (t : Typer) (call : Node) : List Ty := callWith (valueType maxJumps) t call

/-- Types that `count` names get from `values`. One value may give several types. -/
def assignedTypes (t : Typer) (values : List Node) (count : Nat) : List Ty :=
  if values.length = count then values.map t.typeOf
  else
    let types := match values.head?.map Node.unparen with
      | none => []
      | some v => match v.kind with
        | .callExpression => t.callResults v
        | .typeAssertionExpression | .indexExpression => [t.typeOf v, .bool]
        | _ => []
    (types ++ List.replicate count .unknown).take count

/-- Types of the key and value of a range over a value of type `ranged`. -/
def rangeTypes (ranged : Ty) : List Ty :=
  match ranged.elem with
  | .slice e | .array _ e => [.int, e]
  | .map k v => [k, v]
  | .chan e => [e, .unknown]
  | t => if t.isString then [.int, .builtin "rune"] else [.unknown, .unknown]

/-! ## Collecting local declarations -/

/-- Add a binding of the identifier `name`; the blank identifier binds nothing. -/
def bind (t : Typer) (scope : Extent) (visibleFrom : Nat) (name : Node) (ty : Ty) : Typer :=
  if name.text = "_" then t
  else { t with locals := t.locals ++ [⟨name.text, ty, scope, name.start, visibleFrom⟩] }

def bindAll (t : Typer) (scope : Extent) (visibleFrom : Nat) : List Node → List Ty → Typer
  | n :: ns, ty :: tys => bindAll (t.bind scope visibleFrom n ty) scope visibleFrom ns tys
  | _, _ => t

/-- Bind the parameters of one list of a function that covers `scope`. -/
def bindParameters (t : Typer) (scope : Extent) (list : Node) : Typer :=
  list.named.foldl (fun t param =>
    match param.field? .type with
    | none => t
    | some node =>
      let ty := Ty.ofNode t.file node
      let ty := if param.kind = .variadicParameterDeclaration then .slice ty else ty
      let names := param.fields .name
      t.bindAll scope scope.start names (names.map fun _ => ty)) t

/-- Bind receiver, parameters and named results of a function. -/
def bindSignature (t : Typer) (func : Node) : Typer :=
  [Field.receiver, .parameters, .result].foldl (fun t f =>
    match func.field? f with
    | some list => if list.kind = .parameterList then t.bindParameters func.extent list else t
    | none => t) t

/-- Bind the names of a specification or short declaration, once its values are collected. -/
def bindValues (t : Typer) (scope : Extent) (decl : Node) (names : List Node)
    (declared : Option Ty) (values : List Node) : Typer :=
  let types := match declared with
    | some ty => names.map fun _ => ty
    | none => t.assignedTypes values names.length
  t.bindAll scope decl.stop names types

mutual

/-- Walk `n` in source order, recording every declaration it makes in `scope`, the extent of
the narrowest scope around `n`. -/
def collect (t : Typer) (scope : Extent) (n : Node) : Typer :=
  let inner := if n.kind.opensScope then n.extent else scope
  match n.kind with
  | .functionDeclaration | .methodDeclaration | .funcLiteral =>
    match _h : n.field? .body with
    | some body => collect (t.bindSignature n) inner body
    | none => t.bindSignature n
  | .shortVarDeclaration =>
    match n.field? .left, _h : n.field? .right with
    | some left, some right =>
      (collect t scope right).bindValues scope n left.expressions none right.expressions
    | _, _ => t
  | .varSpec | .constSpec =>
    let names := n.fields .name
    let declared := (n.field? .type).map (Ty.ofNode t.file)
    match _h : n.field? .value with
    | some v => (collect t scope v).bindValues scope n names declared v.expressions
    | none => t.bindValues scope n names declared []
  | .rangeClause =>
    match _h : n.field? .right with
    | none => t
    | some right =>
      let t := collect t scope right
      match n.field? .left with
      | some left =>
        if n.children.any (·.text == ":=") then
          t.bindAll scope n.stop left.expressions (rangeTypes (t.typeOf right))
        else t
      | none => t
  | _ => collectAll t inner n.named
termination_by 2 * n.size
decreasing_by
  all_goals first
    | exact Nat.mul_lt_mul_of_pos_left (Node.size_lt_of_field? _h) Nat.two_pos
    | exact double_succ_lt_double (Node.sizes_named_lt n)

/-- Walk a list of nodes in order. -/
def collectAll (t : Typer) (scope : Extent) (ns : List Node) : Typer :=
  match ns with
  | [] => t
  | n :: rest => collectAll (collect t scope n) scope rest
termination_by 2 * Node.sizes ns + 1
decreasing_by
  · simp only [Node.sizes]
    omega
  · have := n.size_pos
    simp only [Node.sizes]
    omega

end

/-- A typer for expressions in and around `n`, with the declarations of the outermost function
that `n` is or lies in. -/
def enclosing (index : Index) (file : SourceFile) (n : Node) : Typer :=
  let t : Typer := { index, file }
  match file.outermostFunction? n with
  | some func => t.collect func.extent func
  | none => t

end Typer
end RouteCheck
