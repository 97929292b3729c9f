import RouteCheck.Text.Path
import RouteCheck.Tree.Read
import RouteCheck.Tree.Literal

/-!
One parsed source file: its path, tree, package name and imports.

An import is known by its local name, which stands for the conventional package name of
the import path: the last element, or the one before it when the last is a major version.
-/

namespace RouteCheck

/-- A place in a source file, line and column 1-based. -/
structure Position where
  file : Path
  line : Nat
  column : Nat
  deriving DecidableEq, Repr, Inhabited

def Position.render (p : Position) : String :=
  p.file.text ++ ":" ++ toString p.line ++ ":" ++ toString p.column

/-- Source files by their role. -/
inductive SourceKind where
  | regular | test
  deriving DecidableEq, Repr

namespace SourceKind

/-- The kind of source at a path, if its name ends in `.go`. -/
def ofPath? (p : Path) : Option SourceKind := do
  let name ← p.fileName?
  let ext ← p.extension?
  if ext != "go" then none
  else if Text.endsWith "_test.go" name then some test
  else some regular

/-- Whether files of this kind take part in a run. -/
def isAnalyzed (includeTests : Bool) : SourceKind → Bool
  | regular => true
  | test => includeTests

end SourceKind

/-- The element is a major version such as `v2`. -/
def isMajorVersion (s : String) : Bool :=
  match s.toList with
  | 'v' :: d :: ds => (d :: ds).all Char.isDigit
  | _ => false

/-- Conventional package name of an import path. -/
def packageNameOf (importPath : String) : String :=
  match (Text.split '/' importPath).reverse with
  | last :: before :: _ => if isMajorVersion last then before else last
  | [last] => last
  | [] => importPath

structure SourceFile where
  /-- Place of the file in its program. -/
  index : Nat := 0
  path : Path
  tree : Node
  /-- Name in the package clause, empty if there is none. -/
  package : String
  /-- Local name and package name of every import. -/
  imports : List (String × String)
  deriving Inhabited

namespace SourceFile

def importSpecs (decl : Node) : List Node :=
  decl.named.flatMap fun c =>
    if c.kind = .importSpec then [c]
    else if c.kind = .importSpecList then c.named.filter (·.kind = .importSpec)
    else []

/-- Local name and package name that an import specification introduces, if any. -/
def importOf? (spec : Node) : Option (String × String) := do
  let path ← Literal.value? (← spec.field? .path).text
  let package := packageNameOf path
  match spec.field? .name with
  | none => some (package, package)
  | some n => if n.kind = .dot || n.kind = .blankIdentifier then none else some (n.text, package)

/-- Bind `name`, replacing an earlier binding of it. -/
def bindImport (name package : String) : List (String × String) → List (String × String)
  | [] => [(name, package)]
  | (n, p) :: rest => if n = name then (n, package) :: rest else (n, p) :: bindImport name package rest

/-- Package name: the one of the last package clause. -/
def packageOf (tree : Node) : String :=
  tree.named.foldl (fun p decl =>
    if decl.kind = .packageClause then ((decl.named.head?).map Node.text).getD p else p) ""

def importsOf (tree : Node) : List (String × String) :=
  ((tree.named.filter (·.kind = .importDeclaration)).flatMap importSpecs).foldl
    (fun imports spec => match importOf? spec with
      | some (name, package) => bindImport name package imports
      | none => imports) []

/-- Read a file from its text; `none` if the path is not that of a source file. -/
def read? (path : Path) (source : String) : Option SourceFile :=
  (SourceKind.ofPath? path).map fun _ =>
    let tree := Node.ofSource source
    { path, tree, package := packageOf tree, imports := importsOf tree }

def import? (f : SourceFile) (name : String) : Option String := f.imports.lookup name

/-- Position of the first byte of a node of the file. -/
def position (f : SourceFile) (n : Node) : Position := ⟨f.path, n.span.line, n.span.column⟩

def pathTo (f : SourceFile) (n : Node) : List Node := (f.tree.pathTo n.id).getD []

/-- The outermost function that `n` is or lies in. -/
def outermostFunction? (f : SourceFile) (n : Node) : Option Node :=
  (f.pathTo n).find? (·.kind.isFunction)

end SourceFile
end RouteCheck
