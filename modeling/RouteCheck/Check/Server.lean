import RouteCheck.Check.Handler
import RouteCheck.Check.Route
import RouteCheck.Config

/-!
Server routes, reconstructed from route tables and handlers.

A route table is a composite literal of a map from strings to the library's handler type. Each
entry is folded to a method and path, its handler is resolved, and the handler's context calls
are replayed in source order to record the types of its request, response and parameters. An
entry ends as an accepted route, as a rejected key, or without a key.
-/

namespace RouteCheck

/-! ## Recording types -/

def Ty.conflicts (prev next : Ty) : Bool :=
  !prev.containsUnknown && !next.containsUnknown && !prev.identical next

/-- What a slot holds after `ty` is offered: a fully known type stays. -/
def Ty.record (slot : Option Ty) (ty : Ty) : Option Ty :=
  match slot with
  | some prev => if prev.containsUnknown then some ty else some prev
  | none => some ty

/-- A route while its handler is replayed. -/
structure Draft where
  route : ServerRoute
  request : Option Ty := none
  response : Option Ty := none
  deriving Inhabited

/-- What a step of the replay reports, and the draft after it unless the route is given up. -/
structure Replay where
  notes : List Diagnostic
  draft? : Option Draft

namespace Replay

def go (d : Draft) : Replay := ⟨[], some d⟩
def note (at_ : Position) (message : String) (d : Draft) : Replay := ⟨[⟨at_, message⟩], some d⟩
def stop (at_ : Position) (message : String) : Replay := ⟨[⟨at_, message⟩], none⟩

/-- The route breaks a rule on what its method reads and writes. -/
def misshapen (at_ : Position) (method rule : String) : Replay :=
  stop at_ (method ++ " routes " ++ rule)

end Replay

def mustNotRead : String := "should not read a request object"
def mustRead : String := "should read a request object"
def mustNotWrite : String := "should not write a response object"
def mustWrite : String := "should write a response object"

/-- The text of a parameter name, if it folds to text alone. -/
def Typer.constantText? (t : Typer) (n : Node) : Option String :=
  let template := t.fold n
  if template.holes = 0 then some template.render else none

section
variable (t : Typer) (call : Node) (args : List Node) (d : Draft)

/-- `Custom` declares request and response types at once. -/
def replayCustom : Replay :=
  match args with
  | req :: resp :: _ =>
    let reqTy := t.typeOf req
    let respTy := t.typeOf resp
    let atReq := t.file.position req
    let atResp := t.file.position resp
    if !reqTy.isNil && !reqTy.isUnknown && !reqTy.isPointer then
      .stop atReq "request type must be a pointer"
    else
      match d.route.method, !reqTy.isNil, !respTy.isNil with
      | "GET", true, _ => .misshapen atReq "GET" mustNotRead
      | "GET", _, false => .misshapen atReq "GET" mustWrite
      | "PUT", false, _ => .misshapen atReq "PUT" mustRead
      | "PUT", _, true => .misshapen atResp "PUT" mustNotWrite
      | "DELETE", true, _ => .misshapen atReq "DELETE" mustNotRead
      | "DELETE", _, true => .misshapen atResp "DELETE" mustNotWrite
      | _, _, _ => .go { d with request := some reqTy, response := some respTy }
  | _ => .go d

def replayDecode : Replay :=
  if d.route.method = "GET" || d.route.method = "DELETE" then
    .misshapen (t.file.position call) d.route.method mustNotRead
  else match args with
  | [] => .go d
  | arg :: _ =>
    let ty := t.typeOf arg
    let at_ := t.file.position arg
    if !ty.isUnknown && !ty.isPointer then .note at_ "Decode called on non-pointer value" d
    else match d.request.filter (·.conflicts ty) with
    | some prev =>
      .note at_ ("Decode called on " ++ ty.render ++ ", but was previously called on " ++
        prev.render) d
    | none => .go { d with request := Ty.record d.request ty }

def replayEncode : Replay :=
  if d.route.method = "PUT" || d.route.method = "DELETE" then
    .misshapen (t.file.position call) d.route.method mustNotWrite
  else match args with
  | [] => .go d
  | arg :: _ =>
    let ty := t.typeOf arg
    match d.response.filter (·.conflicts ty) with
    | some prev =>
      .note (t.file.position arg) ("Encode called on " ++ ty.render ++
        ", but was previously called on " ++ prev.render) d
    | none => .go { d with response := Ty.record d.response ty }

def replayDecodeForm : Replay :=
  match args with
  | nameNode :: value :: _ =>
    match t.constantText? nameNode with
    | none => .go d
    | some name =>
      let ty := t.typeOf value
      match (d.route.query? name).filter (·.conflicts ty) with
      | some prev =>
        .note (t.file.position call) ("form value " ++ Text.quote name ++ " decoded as " ++
          ty.render ++ ", but was previously decoded as " ++ prev.render) d
      | none =>
        match Ty.record (d.route.query? name) ty with
        | some kept => .go { d with route := d.route.setQuery name kept }
        | none => .go d
  | _ => .go d

/-- Offer `ty` to the path parameter that `nameNode` names. Conflicts are reported at
`conflictAt`; `fit` may refuse the type. -/
def replayParam (op : String) (nameNode conflictAt : Node) (ty : Ty) (fit : Option String) :
    Replay :=
  match t.constantText? nameNode with
  | none => .go d
  | some name =>
    match d.route.param? name with
    | none =>
      .note (t.file.position nameNode) (op ++ " called on param (" ++ Text.quote name ++
        ") not present in route definition") d
    | some param =>
      match param.ty.filter (·.conflicts ty), fit with
      | some prev, _ =>
        .note (t.file.position conflictAt) ("param " ++ Text.quote name ++ " decoded as " ++
          ty.render ++ ", but was previously decoded as " ++ prev.render) d
      | none, some refusal => .note (t.file.position conflictAt) refusal d
      | none, none =>
        match Ty.record param.ty ty with
        | some kept => .go { d with route := d.route.setParam name kept }
        | none => .go d

def replayDecodeParam : Replay :=
  match args with
  | nameNode :: value :: _ =>
    let ty := t.typeOf value
    let fit := if !ty.isUnknown && !ty.isPointer then
      some "DecodeParam called on non-pointer value" else none
    replayParam t d "DecodeParam" nameNode value ty fit
  | _ => .go d

def replayPathParam : Replay :=
  match args with
  | nameNode :: _ => replayParam t d "PathParam" nameNode call (.pointer .string) none
  | [] => .go d

end

/-- Replay one context call. -/
def Draft.apply (t : Typer) (d : Draft) (c : ContextCall) : Replay :=
  match c.op with
  | .custom => replayCustom t c.args d
  | .decode | .decodeLimit => replayDecode t c.call c.args d
  | .encode => replayEncode t c.call c.args d
  | .decodeForm => replayDecodeForm t c.call c.args d
  | .decodeParam => replayDecodeParam t c.args d
  | .pathParam => replayPathParam t c.call c.args d
  | .error | .check => .go d

/-- Replay context calls in order, until one gives the route up. -/
def Draft.applyAll (t : Typer) (d : Draft) : List ContextCall → Replay
  | [] => .go d
  | c :: cs =>
    match d.apply t c with
    | ⟨notes, none⟩ => ⟨notes, none⟩
    | ⟨notes, some d'⟩ =>
      let rest := d'.applyAll t cs
      ⟨notes ++ rest.notes, rest.draft?⟩

/-- The route of a finished draft: slots that nothing was recorded in are nil. -/
def Draft.finish (d : Draft) : ServerRoute :=
  { d.route with
    request := d.request.getD .untypedNil
    response := d.response.getD .untypedNil }

/-- Context calls of a handler, in source order, those in nested functions included. -/
def Handler.contextCalls (h : Handler) (t : Typer) (library : String) : List ContextCall :=
  h.body.descendants.filterMap (t.contextCall? library)

/-- Reconstruct a route from its handler. -/
def Handler.replay (h : Handler) (index : Index) (library : String) (route : ServerRoute) :
    List Diagnostic × Option ServerRoute :=
  let t := h.typer index
  match ({ route } : Draft).applyAll t (h.contextCalls t library) with
  | ⟨notes, none⟩ => (notes, none)
  | ⟨notes, some d⟩ =>
    let r := d.finish
    let atBody := h.file.position h.body
    if r.method = "GET" && r.response.isNil then
      (notes ++ (Replay.misshapen atBody "GET" mustWrite).notes, none)
    else if r.method = "PUT" && r.request.isNil then
      (notes ++ (Replay.misshapen atBody "PUT" mustRead).notes, none)
    else (notes, some r)

/-! ## Route tables in the source -/

/-- How an entry of a route table ends. -/
inductive Entry.Outcome where
  | accepted (route : ServerRoute) (handler : Handler)
  /-- The key was read but the route is left out. -/
  | rejected (key : String) (handler? : Option Handler)
  /-- The key is not a method and a path. -/
  | invalid

/-- What the entry of `key` and `value` contributes. -/
def Typer.readEntry (t : Typer) (config : Config) (key value : Node) :
    List Diagnostic × Entry.Outcome :=
  let position := t.file.position key
  let rendered := (t.fold key).render
  match splitRouteKey? rendered with
  | none =>
    ([⟨position, "Server defines invalid route: " ++ Text.quoteList (Text.fields rendered)⟩],
      .invalid)
  | some (method, full) =>
    let path := (Text.dropLead? config.serverPrefix full).getD full
    let route := ServerRoute.new method path position
    match t.handler? value with
    | none =>
      ([⟨position, "Could not locate handler definition"⟩], .rejected route.key none)
    | some handler =>
      match handler.replay t.index config.library route with
      | (notes, some r) => (notes, .accepted r handler)
      | (notes, none) => (notes, .rejected route.key (some handler))

/-- Routes of one package. -/
structure ServerRoutes where
  /-- Number of route tables found. -/
  tables : Nat := 0
  table : RouteTable := {}
  /-- Resolved handlers, in order of their entries. -/
  handlers : List Handler := []
  deriving Inhabited

/-- Add the outcome of an entry; of routes with one key the first stays. -/
def ServerRoutes.add (s : ServerRoutes) : Entry.Outcome → List Diagnostic × ServerRoutes
  | .accepted route handler =>
    let s := { s with handlers := s.handlers ++ [handler] }
    match s.table.insert route with
    | .ok table => ([], { s with table })
    | .error _ =>
      ([⟨route.position, "Server defines route " ++ route.label ++ " multiple times"⟩], s)
  | .rejected key handler? =>
    ([], { s with handlers := s.handlers ++ handler?.toList, table := s.table.reject key })
  | .invalid => ([], s)

def routeTableType (library : String) : Ty := .map .string (.declared library "Handler")

def isRouteTable (file : SourceFile) (library : String) (n : Node) : Bool :=
  n.kind = .compositeLiteral &&
  match n.field? .type with
  | some ty => Ty.ofNode file ty == routeTableType library
  | none => false

/-- Route tables of a file, in source order. -/
def routeTables (file : SourceFile) (library : String) : List Node :=
  file.tree.descendants.filter (isRouteTable file library)

/-- Keys and values of a route table. -/
def tableEntries (table : Node) : List (Node × Node) :=
  match table.field? .body with
  | none => []
  | some body => body.named.filterMap fun element =>
    let e := element.literalContent
    if e.kind = .keyedElement then
      match e.named.map Node.literalContent with
      | [key, value] => some (key, value)
      | _ => none
    else none

/-- Every entry of the route tables of `files`, with the typer of its table. -/
def routeEntries (index : Index) (files : List SourceFile) (library : String) :
    List (Typer × Node × Node) :=
  files.flatMap fun file => (routeTables file library).flatMap fun table =>
    let t := Typer.enclosing index file table
    (tableEntries table).map fun e => (t, e)

/-- Read one entry into the routes found so far. -/
def ServerRoutes.read (config : Config) (acc : List Diagnostic × ServerRoutes)
    (entry : Typer × Node × Node) : List Diagnostic × ServerRoutes :=
  let (t, key, value) := entry
  let (found, outcome) := t.readEntry config key value
  let (clash, s) := acc.2.add outcome
  (acc.1 ++ found ++ clash, s)

/-- Every server route declared in `files`, with the diagnostics of reading them. -/
def extractRoutes (index : Index) (files : List SourceFile) (config : Config) :
    List Diagnostic × ServerRoutes :=
  let tables := (files.flatMap fun f => routeTables f config.library).length
  (routeEntries index files config.library).foldl (ServerRoutes.read config)
    ([], ({ tables } : ServerRoutes))

end RouteCheck
