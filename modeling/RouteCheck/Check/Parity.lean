import RouteCheck.Check.Route

/-!
Parity: client calls against server routes, joined by key.

Of the calls to one route the first is compared with it, field by field; any further one is
reported. Calls to rejected keys are passed over. Routes that no call matched are reported
last, at their key in the route table.
-/

namespace RouteCheck

/-- Report `message` at `n` when two known types differ. -/
def compareTypes (t : Typer) (n : Node) (got want : Ty) (message : String) : List Diagnostic :=
  if got.containsUnknown || want.containsUnknown || got.identical want then []
  else [⟨t.file.position n, message⟩]

def gotWant (got want : Ty) : String :=
  "(got " ++ got.render ++ ", should be " ++ want.render ++ ")"

def compareRequest (t : Typer) (route : ServerRoute) (call : ClientCall) : List Diagnostic :=
  match call.request with
  | none => []
  | some n =>
    let got := t.typeOf n
    let want := route.request.elem
    compareTypes t n got want
      ("Client has wrong request type for " ++ route.label ++ " " ++ gotWant got want)

def compareResponse (t : Typer) (route : ServerRoute) (call : ClientCall) : List Diagnostic :=
  match call.response with
  | none => []
  | some n =>
    let got := t.typeOf n
    let want := route.response.ptrOrNil
    compareTypes t n got want
      ("Client has wrong response type for " ++ route.label ++ " " ++ gotWant got.elem want.elem)

/-- One path slot of the call; slots without an argument and parameters without a type pass. -/
def compareSlot (t : Typer) (arg : Option Node) (p : PathParam) : List Diagnostic :=
  match arg, p.ty with
  | some n, some ty =>
    let got := t.typeOf n
    compareTypes t n got ty.elem
      ("Client has wrong type for path parameter " ++ Text.quote p.name ++ " " ++
        gotWant got ty.elem)
  | _, _ => []

/-- Path parameters against the arguments in their slots; the first without a slot ends it. -/
def comparePath (t : Typer) (route : ServerRoute) (call : ClientCall) :
    List PathParam → List (Option Node) → List Diagnostic
  | [], _ => []
  | _ :: _, [] => [⟨call.position, "Client has too few path parameters for " ++ route.label⟩]
  | p :: ps, arg :: args => compareSlot t arg p ++ comparePath t route call ps args

/-- One query slot of the call. -/
def compareQuery (t : Typer) (route : ServerRoute) (call : ClientCall) (name : String)
    (arg : Option Node) : List Diagnostic :=
  match route.query? name, arg with
  | none, _ =>
    [⟨arg.elim call.position t.file.position,
      "Client references undefined query parameter " ++ Text.quote name⟩]
  | some _, none => []
  | some ty, some n =>
    let got := t.typeOf n
    compareTypes t n got ty.elem
      ("Client has wrong type for query parameter " ++ Text.quote name ++ " " ++
        gotWant got ty.elem)

/-- Everything in which the call differs from the route. -/
def compareCall (index : Index) (route : ServerRoute) (call : ClientCall) : List Diagnostic :=
  let t := Typer.enclosing index call.file call.node
  compareRequest t route call ++ compareResponse t route call ++
    comparePath t route call route.pathParams call.pathParams ++
    call.queryParams.flatMap fun (name, arg) => compareQuery t route call name arg

/-- Check one call against the table, marking its route as seen. -/
def checkCall (index : Index) (table : RouteTable) (call : ClientCall) :
    List Diagnostic × RouteTable :=
  if table.isRejected call.key then ([], table)
  else match table.get? call.key with
  | none =>
    ([⟨call.position, "Client references route not defined by server: " ++ call.label⟩], table)
  | some route =>
    if route.seen then
      ([⟨call.position, "Client references " ++ route.label ++ " multiple times"⟩], table)
    else
      (compareCall index route call,
        table.modify call.key fun r => { r with seen := true })

def checkCalls (index : Index) : RouteTable → List ClientCall → List Diagnostic × RouteTable
  | table, [] => ([], table)
  | table, c :: cs =>
    let (notes, table) := checkCall index table c
    let (rest, table) := checkCalls index table cs
    (notes ++ rest, table)

/-- A diagnostic for every route that no call matched. -/
def missingRoutes (table : RouteTable) : List Diagnostic :=
  (table.routes.filter (!·.seen)).map fun r =>
    ⟨r.position, "Client missing method for " ++ r.label⟩

/-- Check all calls, then look for routes without a call. -/
def checkParity (index : Index) (table : RouteTable) (calls : List ClientCall) :
    List Diagnostic × RouteTable :=
  let (notes, table) := checkCalls index table calls
  (notes ++ missingRoutes table, table)

end RouteCheck
