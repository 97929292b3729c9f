import RouteCheck.Check.Diagnostic
import RouteCheck.Types.Template
import RouteCheck.Text.Quoted

/-!
Routes, client calls, and the keys that join them.

A server route `GET /foo/:id/bar` and a client call of `"/foo/" + id + "/bar"` both have the
key `GET /foo/%s/bar`. A `RouteTable` keeps the first route of each key, in order, and beside
the routes the keys of entries that were refused.
-/

namespace RouteCheck

/-! ## Keys -/

/-- What every parameter segment is written as in a key. -/
def wildcard : String := "%s"

/-- The segment is a parameter of a server path. -/
def isParameter (segment : String) : Bool :=
  Text.startsWith ":" segment || Text.startsWith "*" segment

/-- The segment is a parameter of a rendered client path. -/
def isVerb (segment : String) : Bool :=
  segment.utf8ByteSize > 1 && Text.startsWith "%" segment

/-- A method and a path whose parameter segments are wildcards. -/
def joinKey (isWild : String → Bool) (method path : String) : String :=
  method ++ " " ++ String.intercalate "/"
    ((Text.split '/' path).map fun s => if isWild s then wildcard else s)

def serverKey (method path : String) : String := joinKey isParameter method path

/-- Key of a client call; the query is dropped. -/
def clientKey (method path : String) : String :=
  joinKey isVerb method ((Text.split '?' path).headD path)

def splitRouteKey? (key : String) : Option (String × String) :=
  match Text.fields key with
  | [method, path] => some (method, path)
  | _ => none

/-! ## Server routes -/

/-- A path parameter; its type is unset until the handler uses it. -/
structure PathParam where
  name : String
  ty : Option Ty := none
  deriving DecidableEq, Repr, Inhabited

structure ServerRoute where
  method : String
  /-- Path without the server's lead. -/
  path : String
  pathParams : List PathParam
  /-- Query keys with their types, in ascending order of keys. -/
  queryParams : List (String × Ty) := []
  /-- Pointer the handler decodes into, nil if there is none. -/
  request : Ty := .untypedNil
  /-- Type the handler encodes, nil if there is none. -/
  response : Ty := .untypedNil
  seen : Bool := false
  /-- Position of the route's key in its table. -/
  position : Position
  deriving DecidableEq, Repr, Inhabited

namespace ServerRoute

def new (method path : String) (position : Position) : ServerRoute :=
  let params := ((Text.split '/' path).filter isParameter).map fun s =>
    ({ name := String.ofList (s.toList.drop 1) } : PathParam)
  { method, path, pathParams := params, position }

def key (r : ServerRoute) : String := serverKey r.method r.path

def label (r : ServerRoute) : String := r.method ++ " " ++ r.path

def param? (r : ServerRoute) (name : String) : Option PathParam :=
  r.pathParams.find? (·.name == name)

/-- Set the type of the first parameter of this name in a list. -/
def setParamIn (name : String) (ty : Ty) : List PathParam → List PathParam
  | [] => []
  | p :: ps => if p.name == name then { p with ty := some ty } :: ps else p :: setParamIn name ty ps

/-- Set the type of the first path parameter of this name. -/
def setParam (r : ServerRoute) (name : String) (ty : Ty) : ServerRoute :=
  { r with pathParams := setParamIn name ty r.pathParams }

/-- Bind a query key, keys in ascending order. -/
def setQueryIn (key : String) (ty : Ty) : List (String × Ty) → List (String × Ty)
  | [] => [(key, ty)]
  | (k, t) :: rest =>
    match Text.compare key k with
    | .lt => (key, ty) :: (k, t) :: rest
    | .eq => (key, ty) :: rest
    | .gt => (k, t) :: setQueryIn key ty rest

def setQuery (r : ServerRoute) (key : String) (ty : Ty) : ServerRoute :=
  { r with queryParams := setQueryIn key ty r.queryParams }

def query? (r : ServerRoute) (key : String) : Option Ty := r.queryParams.lookup key

/-- The route as inventories list it. -/
def toJson (r : ServerRoute) : Json :=
  let tyJson := fun t : Ty => Json.str t.render
  .obj
    [("method", .str r.method), ("path", .str r.path),
     ("path_params", .arr (r.pathParams.map fun p =>
       .obj [("name", .str p.name), ("type", p.ty.elim .null tyJson)])),
     ("query_params", .obj (r.queryParams.map fun (k, t) => (k, tyJson t))),
     ("request", tyJson r.request), ("response", tyJson r.response),
     ("position", r.position.toJson)]

end ServerRoute

/-! ## Route tables -/

structure RouteTable where
  /-- Routes in order of insertion, no two with one key. -/
  routes : List ServerRoute := []
  /-- Keys of refused entries. -/
  rejected : List String := []
  deriving Repr, Inhabited

namespace RouteTable

def get? (t : RouteTable) (key : String) : Option ServerRoute := t.routes.find? (·.key == key)

/-- Add a route, unless its key is taken: then answer the route that has it. -/
def insert (t : RouteTable) (r : ServerRoute) : Except ServerRoute RouteTable :=
  match t.get? r.key with
  | some present => .error present
  | none => .ok { t with routes := t.routes ++ [r] }

/-- Note that an entry with this key was refused. -/
def reject (t : RouteTable) (key : String) : RouteTable :=
  if t.rejected.contains key then t else { t with rejected := t.rejected ++ [key] }

def isRejected (t : RouteTable) (key : String) : Bool := t.rejected.contains key

def modify (t : RouteTable) (key : String) (f : ServerRoute → ServerRoute) : RouteTable :=
  { t with routes := t.routes.map fun r => if r.key == key then f r else r }

end RouteTable

/-! ## Client calls -/

/-- A call through a client, its path folded into a template. -/
structure ClientCall where
  method : String
  path : Template
  /-- What fills the path holes, in order. -/
  pathParams : List (Option Node)
  /-- Query keys and what fills them. -/
  queryParams : List (String × Option Node)
  request : Option Node
  response : Option Node
  file : SourceFile
  node : Node
  position : Position
  deriving Inhabited

namespace ClientCall

def key (c : ClientCall) : String := clientKey c.method c.path.render

def label (c : ClientCall) : String := c.method ++ " " ++ c.path.render

end ClientCall

/-! ## Holes of a path template -/

namespace Template

/-- Holes of a template: path slots in order, and query slots with their keys. -/
structure Slots where
  path : List (Option Node) := []
  query : List (String × Option Node) := []

/-- The query key whose value begins right after `text`, if one does. -/
def pendingKey? (text : String) : Option String :=
  let last := ((Text.split '&' text).getLast?).getD text
  (Text.dropTail? "=" last).filter fun key => key != "" && !Text.contains '=' key

/-- Query slots of pieces that follow the `?`; `key` is pending from the text before. -/
def querySlots (key : Option String) : List Piece → List (String × Option Node)
  | [] => []
  | .lit s :: rest => querySlots (pendingKey? s) rest
  | .hole f :: rest =>
    match key with
    | some k => (k, f) :: querySlots none rest
    | none => querySlots none rest

/-- Slots of a list of pieces: holes before the first `?` are path slots. -/
def slotsOf : List Piece → Slots
  | [] => {}
  | .hole f :: rest =>
    let s := slotsOf rest
    { s with path := f :: s.path }
  | .lit s :: rest =>
    match Text.cut? '?' s with
    | some (_, after) => { query := querySlots (pendingKey? after) rest }
    | none => slotsOf rest

def slots (t : Template) : Slots := slotsOf t.pieces

/-- Number of holes before and after the first text with a `?`. -/
def countHolesOf : List Piece → Nat × Nat
  | [] => (0, 0)
  | .hole _ :: rest => ((countHolesOf rest).1 + 1, (countHolesOf rest).2)
  | .lit s :: rest =>
    if Text.contains '?' s then (0, rest.countP Piece.isHole) else countHolesOf rest

def countHoles (t : Template) : Nat × Nat := countHolesOf t.pieces

end Template
end RouteCheck
