import RouteCheck.Check.Handler
import RouteCheck.Check.Route
import RouteCheck.Config

/-!
Client calls: calls made through a client of the routing library.

The path argument of a call is folded to a template whose holes are path and query slots. A
call whose arguments do not have the expected number is passed over; one whose format does not
match its arguments is reported and left out.
-/

namespace RouteCheck

/-- Request methods of a client. -/
inductive ClientOp where
  | get | post | put | delete | patch | custom
  deriving DecidableEq, Repr

namespace ClientOp

def names : List (String × ClientOp) :=
  [("GET", get), ("POST", post), ("PUT", put), ("DELETE", delete), ("PATCH", patch),
   ("Custom", custom)]

def ofName? (name : String) : Option ClientOp := names.lookup name

/-- Number of arguments, not counting a leading context. -/
def arity : ClientOp → Nat
  | delete => 1
  | get | put => 2
  | post | patch => 3
  | custom => 4

/-- The HTTP method; a custom call takes it as an argument. -/
def method? : ClientOp → Option String
  | get => some "GET"
  | post => some "POST"
  | put => some "PUT"
  | delete => some "DELETE"
  | patch => some "PATCH"
  | custom => none

end ClientOp

/-- The operation of a call made through a client. -/
def Typer.clientOp? (t : Typer) (library : String) (call : Node) : Option ClientOp := do
  let (operand, name) ← methodCalled? call
  let op ← ClientOp.ofName? name.text
  if (t.typeOf operand).isNamedThroughPtr library "Client" then return op else none

/-- The parts of a client call's arguments. -/
structure CallParts where
  method : String
  path : Node
  request : Option Node := none
  response : Option Node := none

def ownArguments (op : ClientOp) (call : Node) : List Node :=
  let args := call.callArguments
  if args.length = op.arity + 1 then args.drop 1 else args

/-- Sort the arguments of a call; `none` if their number is unexpected or the method of a
custom call is not constant. -/
def Typer.callParts? (t : Typer) (op : ClientOp) (call : Node) : Option CallParts :=
  match op, ownArguments op call with
  | .custom, [m, path, req, resp] =>
    let method := t.fold m
    if method.holes > 0 then none else some ⟨method.render, path, some req, some resp⟩
  | .get, [path, resp] => some ⟨"GET", path, none, some resp⟩
  | .post, [path, req, resp] => some ⟨"POST", path, some req, some resp⟩
  | .patch, [path, req, resp] => some ⟨"PATCH", path, some req, some resp⟩
  | .put, [path, req] => some ⟨"PUT", path, some req, none⟩
  | .delete, [path] => some ⟨"DELETE", path, none, none⟩
  | _, _ => none

/-- What is said of a route whose format and arguments differ in number. -/
def mismatchMessage (holes : Nat × Nat) (supplied : Nat) : String :=
  "route contains (" ++ toString holes.1 ++ " path + " ++ toString holes.2 ++ " form) = " ++
    toString (holes.1 + holes.2) ++ " parameters, but only " ++ toString supplied ++
    " arguments are supplied"

/-- Read one client call. -/
def Typer.readCall (t : Typer) (config : Config) (op : ClientOp) (call : Node) :
    List Diagnostic × Option ClientCall :=
  match t.callParts? op call with
  | none => ([], none)
  | some parts =>
    let path := t.fold parts.path
    match path.mismatch with
    | some m =>
      ([⟨t.file.position m.call, mismatchMessage path.countHoles m.supplied⟩], none)
    | none =>
      let path := path.trimLead config.clientPrefix
      let slots := path.slots
      ([], some
        { method := parts.method, path, pathParams := slots.path, queryParams := slots.query
          request := parts.request, response := parts.response
          file := t.file, node := call, position := t.file.position call })

/-- Client calls of a file in source order, each with the typer of its top-level declaration. -/
def clientCallsIn (index : Index) (file : SourceFile) (library : String) :
    List (Typer × ClientOp × Node) :=
  file.tree.named.flatMap fun decl =>
    let t := Typer.enclosing index file decl
    decl.descendants.filterMap fun n => (t.clientOp? library n).map fun op => (t, op, n)

/-- Some file makes a call through a client. -/
def definesClient (index : Index) (files : List SourceFile) (library : String) : Bool :=
  files.any fun f => !(clientCallsIn index f library).isEmpty

/-- The client calls of `files`, in file then source order. -/
def extractCalls (index : Index) (files : List SourceFile) (config : Config) :
    List Diagnostic × List ClientCall :=
  let read := (files.flatMap fun f => clientCallsIn index f config.library).map
    fun (t, op, call) => t.readCall config op call
  (read.flatMap (·.1), read.filterMap (·.2))

end RouteCheck
