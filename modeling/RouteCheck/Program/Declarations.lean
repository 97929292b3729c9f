import RouteCheck.Program.Program
import Std.Data.HashMap

/-!
Top-level declarations and the index that finds them by name.

`Program.declarations` lists every declaration in path and source order; `Index.build` groups
the list by package and name. Package names are not unique across a tree, so a look-up is made
from a file: it prefers what the file's own directory declares and otherwise takes the first.
-/

namespace RouteCheck

/-- A declaration and the file it stands in. -/
structure Decl where
  file : SourceFile
  node : Node
  deriving Inhabited

/-- One name of a package-level `var` or `const` specification. -/
structure ValueDecl where
  file : SourceFile
  spec : Node
  /-- Place of the name among the specification's name tokens. -/
  index : Nat
  isConst : Bool
  deriving Inhabited

/-- The expression bound to the name, if one is written. -/
def ValueDecl.value? (v : ValueDecl) : Option Node :=
  (v.spec.field? .value).bind fun list => list.expressions[v.index]?

/-- A top-level declaration of a name. -/
inductive Declaration where
  | function (name : String) (decl : Decl)
  | method (receiver name : String) (decl : Decl)
  | type (name : String) (decl : Decl)
  | value (name : String) (decl : ValueDecl)

namespace Declaration

/-- The name under pointers, parentheses and type arguments. -/
def baseTypeName : Node → String
  | .mk h cs =>
    if h.kind = .pointerType || h.kind = .parenthesizedType then ofFirst h.text cs
    else if h.kind = .genericType then ofType h.text cs
    else h.text
where
  ofFirst (default : String) : List Node → String
    | [] => default
    | c :: cs => if c.kind.isNamed then baseTypeName c else ofFirst default cs
  ofType (default : String) : List Node → String
    | [] => default
    | c :: cs => if c.inField = some .type then baseTypeName c else ofType default cs

/-- Receiver type of a method, without pointer and type parameters. -/
def receiverName? (method : Node) : Option String := do
  let list ← method.field? .receiver
  let param ← list.named.head?
  return baseTypeName (← param.field? .type)

def valueSpecs (decl : Node) : List Node :=
  let isSpec := fun n : Node => n.kind == .varSpec || n.kind == .constSpec
  decl.named.flatMap fun c =>
    if isSpec c then [c] else if c.kind = .varSpecList then c.named.filter isSpec else []

/-- The names that a top-level node declares. -/
def ofNode (file : SourceFile) (n : Node) : List Declaration :=
  match n.kind with
  | .functionDeclaration =>
    ((n.field? .name).map fun m => function m.text ⟨file, n⟩).toList
  | .methodDeclaration =>
    match n.field? .name, receiverName? n with
    | some m, some r => [method r m.text ⟨file, n⟩]
    | _, _ => []
  | .typeDeclaration =>
    (n.named.filter fun s => s.kind == .typeSpec || s.kind == .typeAlias).filterMap fun s =>
      (s.field? .name).map fun m => type m.text ⟨file, s⟩
  | .varDeclaration | .constDeclaration =>
    (valueSpecs n).flatMap fun spec =>
      (spec.fields .name).mapIdx fun i m =>
        value m.text ⟨file, spec, i, n.kind == .constDeclaration⟩
  | _ => []

end Declaration

/-- Every top-level declaration, by file, then source order. -/
def Program.declarations (p : Program) : List Declaration :=
  p.files.flatMap fun f => f.tree.named.flatMap (Declaration.ofNode f)

abbrev Index.Key := String × String

/-- Declarations grouped by package and name, each group in path and source order. -/
structure Index where
  functions : Std.HashMap Index.Key (List Decl) := {}
  /-- Methods with their receiver types. -/
  methods : Std.HashMap Index.Key (List (String × Decl)) := {}
  types : Std.HashMap Index.Key (List Decl) := {}
  values : Std.HashMap Index.Key (List ValueDecl) := {}
  deriving Inhabited

namespace Index

def push {α : Type} (m : Std.HashMap Key (List α)) (k : Key) (x : α) : Std.HashMap Key (List α) :=
  m.insert k (m.getD k [] ++ [x])

def add (ix : Index) : Declaration → Index
  | .function name d => { ix with functions := push ix.functions (d.file.package, name) d }
  | .method recv name d => { ix with methods := push ix.methods (d.file.package, name) (recv, d) }
  | .type name d => { ix with types := push ix.types (d.file.package, name) d }
  | .value name d => { ix with values := push ix.values (d.file.package, name) d }

/-- The index of a program's declarations. -/
def build (p : Program) : Index := p.declarations.foldl add {}

def sameDir (a b : SourceFile) : Bool := a.path.parent.same b.path.parent

/-- The candidate declared next to `here`, else the first one. -/
def pick {α : Type} (here : SourceFile) (fileOf : α → SourceFile) (candidates : List α) : Option α :=
  (candidates.find? fun c => sameDir here (fileOf c)).or candidates.head?

def function? (ix : Index) (here : SourceFile) (package name : String) : Option Decl :=
  pick here Decl.file (ix.functions.getD (package, name) [])

def method? (ix : Index) (here : SourceFile) (package receiver name : String) : Option Decl :=
  pick here Decl.file
    (((ix.methods.getD (package, name) []).filter (·.1 == receiver)).map (·.2))

/-- The only method of this name on any receiver of the package: in the directory of `here`,
or anywhere when that directory has none. -/
def uniqueMethod? (ix : Index) (here : SourceFile) (package name : String) : Option Decl :=
  let found := (ix.methods.getD (package, name) []).map (·.2)
  match found.filter (sameDir here ·.file), found with
  | [d], _ => some d
  | [], [d] => some d
  | _, _ => none

def type? (ix : Index) (here : SourceFile) (package name : String) : Option Decl :=
  pick here Decl.file (ix.types.getD (package, name) [])

def value? (ix : Index) (here : SourceFile) (package name : String) : Option ValueDecl :=
  pick here ValueDecl.file (ix.values.getD (package, name) [])

def isType (ix : Index) (here : SourceFile) (package name : String) : Bool :=
  (ix.type? here package name).isSome

end Index
end RouteCheck
