import RouteCheck.Http.Context
import RouteCheck.Http.Method
import RouteCheck.Http.PathTree
import RouteCheck.Text.Blank

/-!
Routers built from tables of routes.

A table lists handlers by keys such as `GET /foo/:bar`. `validate` checks the keys in order;
`Router.ofEntries` registers the entries path by path, which fails if the path tree refuses a
path; `Router.serve` answers requests. Handlers run in a monad `m` of the caller's choice.
-/

namespace RouteCheck.Http

/-! ## Tables -/

abbrev Handler (m : Type → Type) := Context → m Response

/-- Wrap a handler into a middleware, which decides whether to call on. -/
def adapt {m : Type → Type} (middleware : Context → Handler m → m Response) (next : Handler m) :
    Handler m :=
  fun c => middleware c next

structure Entry (m : Type → Type) where
  method : Method
  path : String
  handler : Handler m

def Entry.clashes {m : Type → Type} (a b : Entry m) : Bool :=
  a.method == b.method && a.path == b.path

section
variable {m : Type → Type}

/-- Read a key and its handler, after the entries `before`. -/
def readEntry (before : List (Entry m)) (key : String) (handler : Handler m) :
    Except RouteError (Entry m) :=
  match Text.fields key with
  | [method, path] =>
    if !Text.startsWith "/" path then .error (.invalidRoute key)
    else match Method.ofName? method with
    | none => .error (.unhandledMethod method)
    | some method =>
      let e : Entry m := ⟨method, path, handler⟩
      if before.any e.clashes then .error (.duplicate key) else .ok e
  | _ => .error (.invalidRoute key)

/-- Read a table after the entries `before`; the first fault stops. -/
def validateAfter (before : List (Entry m)) :
    List (String × Handler m) → Except RouteError (List (Entry m))
  | [] => .ok before
  | (key, handler) :: rest =>
    match readEntry before key handler with
    | .error e => .error e
    | .ok e => validateAfter (before ++ [e]) rest

/-- The entries of a table, or its first fault. -/
def validate (table : List (String × Handler m)) : Except RouteError (List (Entry m)) :=
  validateAfter [] table

/-! ## Endpoints -/

/-- The handlers of a path, in order of registration. -/
abbrev Endpoint (m : Type → Type) := List (Method × Handler m)

namespace Endpoint

/-- The handler of a method; `HEAD` falls back to that of `GET`. -/
def handler? (e : Endpoint m) (method : String) : Option (Handler m) :=
  match Method.ofName? method with
  | none => none
  | some .head => (e.lookup .head).or (e.lookup .get)
  | some k => e.lookup k

def addName (names : List String) (name : String) : List String :=
  if names.contains name then names else names ++ [name]

/-- The methods that the path takes, as a header value. -/
def allow (e : Endpoint m) : String :=
  String.intercalate "," ((e.flatMap fun h => h.1.allows).foldl addName [])

/-- Add an entry to the endpoint of its path, paths in ascending order. -/
def group (e : Entry m) : List (String × Endpoint m) → List (String × Endpoint m)
  | [] => [(e.path, [(e.method, e.handler)])]
  | (path, hs) :: rest =>
    match Text.compare e.path path with
    | .lt => (e.path, [(e.method, e.handler)]) :: (path, hs) :: rest
    | .eq => (path, hs ++ [(e.method, e.handler)]) :: rest
    | .gt => (path, hs) :: group e rest

/-- Endpoints of a list of entries, in ascending order of paths. -/
def ofEntries (es : List (Entry m)) : List (String × Endpoint m) := es.foldl (fun g e => group e g) []

end Endpoint

/-! ## Routers -/

abbrev Service (m : Type → Type) := Request → m Response

structure Router (m : Type → Type) where
  paths : PathMap (Endpoint m) := {}
  /-- What is put around every service of the router. -/
  layer : Service m → Service m := id

namespace Router

/-- Register endpoints in order; stops at a path that the tree refuses. -/
def register (paths : PathMap (Endpoint m)) :
    List (String × Endpoint m) → Except String (PathMap (Endpoint m))
  | [] => .ok paths
  | (path, e) :: rest =>
    match paths.insert? path e with
    | none => .error path
    | some paths => register paths rest

/-- The router of a list of entries, or the path that is refused. -/
def ofEntries (es : List (Entry m)) : Except String (Router m) :=
  (register {} (Endpoint.ofEntries es)).map fun paths => { paths }

/-- Put `f` around every service of the router, outside of what is there. -/
def addLayer (r : Router m) (f : Service m → Service m) : Router m :=
  { r with layer := f ∘ r.layer }

variable [Monad m]

/-- Answer a request, a body included. -/
def respond (r : Router m) (req : Request) : m Response :=
  match r.paths.find? req.url.path with
  | none => r.layer (fun _ => pure (.empty 404)) req
  | some (endpoint, raw) =>
    match endpoint.handler? req.method with
    | some handler => r.layer (fun req => handler (.ofRequest req raw)) req
    | none =>
      (fun resp => { resp with allow := some (Endpoint.allow endpoint) }) <$>
        r.layer (fun _ => pure (.empty 405)) req

/-- Answer a request; `HEAD` requests get no body. -/
def serve (r : Router m) (req : Request) : m Response :=
  (if req.method = "HEAD" then Response.withoutBody else id) <$> r.respond req

end Router

/-- Why a table makes no router. -/
inductive MuxError where
  | route (error : RouteError)
  /-- The path is malformed, or clashes with another one. -/
  | refused (path : String)
  deriving DecidableEq, Repr

def mux (table : List (String × Handler m)) : Except MuxError (Router m) :=
  match validate table with
  | .error e => .error (.route e)
  | .ok es => (Router.ofEntries es).mapError .refused

end
end RouteCheck.Http
