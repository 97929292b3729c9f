import RouteCheck.Program.SourceFile

/-!
Go types, as far as a server and a client have to agree on them.

A named type is known by the package that declares it, so `Foo` inside package `api` and
`api.Foo` in an importing package are one type. `unknown` stands for whatever could not be
typed; it is identical to nothing, not even to itself.
-/

namespace RouteCheck

inductive Ty where
  /-- A predeclared type when `package` is `none`. -/
  | named (package : Option String) (name : String)
  | pointer (target : Ty)
  | slice (item : Ty)
  | array (length : String) (item : Ty)
  | map (key value : Ty)
  | chan (item : Ty)
  | func
  | interface
  | struct
  /-- The type of `nil`; for a request or response, that there is none. -/
  | untypedNil
  | unknown
  deriving DecidableEq, Repr, Inhabited

namespace Ty

/-- Names of the predeclared types. -/
def builtinNames : List String :=
  ["bool", "string", "int", "int8", "int16", "int32", "int64", "uint", "uint8", "uint16",
   "uint32", "uint64", "uintptr", "float32", "float64", "complex64", "complex128", "error",
   "byte", "rune", "any"]

def isBuiltinName (name : String) : Bool := builtinNames.contains name

/-- The predeclared type of a name; `byte`, `rune` and `any` are aliases. -/
def builtin (name : String) : Ty :=
  if name = "byte" then named none "uint8"
  else if name = "rune" then named none "int32"
  else if name = "any" then interface
  else named none name

def declared (package name : String) : Ty := named (some package) name

def string : Ty := named none "string"
def int : Ty := named none "int"
def bool : Ty := named none "bool"

def isPointer : Ty → Bool
  | pointer _ => true
  | _ => false

def isUnknown (t : Ty) : Bool := t = unknown
def isNil (t : Ty) : Bool := t = untypedNil
def isString (t : Ty) : Bool := t = string

/-- The pointee of a pointer; any other type is itself. -/
def elem : Ty → Ty
  | pointer t => t
  | t => t

/-- A pointer to the type, except that nil stays nil. -/
def ptrOrNil : Ty → Ty
  | untypedNil => untypedNil
  | t => pointer t

/-- The type is `package.name` behind any number of pointers. -/
def isNamedThroughPtr (package name : String) : Ty → Bool
  | pointer t => t.isNamedThroughPtr package name
  | named (some p) n => p == package && n == name
  | _ => false

/-- Some part of the type is unknown. -/
def containsUnknown : Ty → Bool
  | unknown => true
  | pointer t | slice t | array _ t | chan t => t.containsUnknown
  | map k v => k.containsUnknown || v.containsUnknown
  | _ => false

/-- The types are the same and known in every part. -/
def identical (a b : Ty) : Bool := !a.containsUnknown && a == b

/-- The type as messages print it. -/
def render : Ty → String
  | named (some p) n => p ++ "." ++ n
  | named none n => n
  | pointer t => "*" ++ t.render
  | slice t => "[]" ++ t.render
  | array n t => "[" ++ n ++ "]" ++ t.render
  | map k v => "map[" ++ k.render ++ "]" ++ v.render
  | chan t => "chan " ++ t.render
  | func => "func"
  | interface => "interface\x7b\x7d"
  | struct => "struct\x7b...\x7d"
  | untypedNil => "untyped nil"
  | unknown => "invalid type"

/-! ## Reading a type -/

/-- The type that a type name of `file` denotes. -/
def ofName (file : SourceFile) (name : String) : Ty :=
  if isBuiltinName name then builtin name else declared file.package name

/-- The type written by a type node of `file`. -/
def ofNode (file : SourceFile) : Node → Ty
  | .mk h cs =>
    let n := Node.mk h cs
    match h.kind with
    | .typeIdentifier | .identifier => ofName file h.text
    | .qualifiedType =>
      match n.field? .package, n.field? .name with
      | some p, some m => declared ((file.import? p.text).getD p.text) m.text
      | _, _ => unknown
    | .pointerType => (ofFirst file cs).elim unknown pointer
    | .parenthesizedType => (ofFirst file cs).getD unknown
    | .sliceType => (ofField file .element cs).elim unknown slice
    | .arrayType =>
      match n.field? .length, ofField file .element cs with
      | some l, some t => array l.text t
      | _, _ => unknown
    | .mapType =>
      match ofField file .key cs, ofField file .value cs with
      | some k, some v => map k v
      | _, _ => unknown
    | .channelType => (ofField file .value cs).elim unknown chan
    | .genericType => (ofField file .type cs).getD unknown
    | .functionType => func
    | .interfaceType => interface
    | .structType => struct
    | _ => unknown
where
  /-- The type written by the first named node of a list. -/
  ofFirst (file : SourceFile) : List Node → Option Ty
    | [] => none
    | c :: cs => if c.kind.isNamed then some (ofNode file c) else ofFirst file cs
  /-- The type written by the first node of a list that is in field `f`. -/
  ofField (file : SourceFile) (f : Field) : List Node → Option Ty
    | [] => none
    | c :: cs => if c.inField = some f then some (ofNode file c) else ofField file f cs

/-! ## Small laws -/

@[simp] theorem elem_pointer (t : Ty) : (pointer t).elem = t := rfl

theorem identical_iff {a b : Ty} :
    a.identical b = true ↔ a.containsUnknown = false ∧ a = b := by
  simp [identical]

end Ty
end RouteCheck
