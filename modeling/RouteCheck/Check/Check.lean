import RouteCheck.Check.Client
import RouteCheck.Check.Parity
import RouteCheck.Check.Server
import RouteCheck.Flow.Writes

/-!
Checking a whole program.

Each package is checked on its own: its server routes, its client calls, the parity of the two,
and the handlers' response writes. A package without a route table is passed over; one with a
route table and no client call stops the run. `inventory` lists what was found instead of
comparing it.
-/

namespace RouteCheck

/-- The outcome of a check. -/
structure Report where
  /-- Number of packages with a route table. -/
  packages : Nat := 0
  routes : Nat := 0
  calls : Nat := 0
  diagnostics : List Diagnostic := []
  deriving Repr, Inhabited

def Report.isClean (r : Report) : Bool := r.diagnostics.isEmpty

/-- What checking one package found. -/
structure PackageReport where
  routes : Nat
  calls : Nat
  diagnostics : List Diagnostic

/-- Add a handler unless its function is there already. -/
def addHandler (seen : List Handler) (h : Handler) : List Handler :=
  if seen.any (h.same ·) then seen else seen ++ [h]

def distinctHandlers (hs : List Handler) : List Handler := hs.foldl addHandler []

/-- Check one package; `none` if it has no route table. -/
def checkPackage (index : Index) (config : Config) (p : Package) :
    Except CheckError (Option PackageReport) :=
  let (routeNotes, server) := extractRoutes index p.files config
  if server.tables = 0 then .ok none
  else if !definesClient index p.files config.library then .error (.noClient p.label)
  else
    let (callNotes, calls) := extractCalls index p.files config
    let flowNotes := (distinctHandlers server.handlers).flatMap (checkHandler index config.library)
    let (parityNotes, table) := checkParity index server.table calls
    .ok (some ⟨table.routes.length, calls.length, routeNotes ++ callNotes ++ flowNotes ++ parityNotes⟩)

def Report.ofPackages (rs : List PackageReport) : Report :=
  { packages := rs.length
    routes := rs.foldl (fun n r => n + r.routes) 0
    calls := rs.foldl (fun n r => n + r.calls) 0
    diagnostics := Diagnostic.settle (rs.flatMap (·.diagnostics)) }

def checkProgram (p : Program) (config : Config) : Except CheckError Report := do
  let index := Index.build p
  let reports ← p.packages.mapM (checkPackage index config)
  return .ofPackages (reports.filterMap id)

/-! ## Inventory -/

def ClientCall.toJson (c : ClientCall) : Json :=
  .obj [("method", .str c.method), ("path", .str c.path.render), ("key", .str c.key),
    ("position", c.position.toJson)]

/-- Routes and calls of one package. -/
structure PackageRoutes where
  package : Package
  routes : List ServerRoute
  calls : List ClientCall

def PackageRoutes.toJson (p : PackageRoutes) : Json :=
  .obj [("package", .str p.package.name), ("dir", .str p.package.dir.text),
    ("routes", .arr (p.routes.map ServerRoute.toJson)),
    ("calls", .arr (p.calls.map ClientCall.toJson))]

/-- Routes and calls of a package, if it has any, with the diagnostics of extracting them. -/
def inventoryPackage (index : Index) (config : Config) (p : Package) :
    List Diagnostic × Option PackageRoutes :=
  let (routeNotes, server) := extractRoutes index p.files config
  let (callNotes, calls) := extractCalls index p.files config
  let listed := if server.table.routes.isEmpty && calls.isEmpty then none
    else some ⟨p, server.table.routes, calls⟩
  (routeNotes ++ callNotes, listed)

/-- The routes and calls of every package that has any. -/
def inventory (p : Program) (config : Config) : List PackageRoutes × List Diagnostic :=
  let index := Index.build p
  let found := p.packages.map (inventoryPackage index config)
  (found.filterMap (·.2), Diagnostic.settle (found.flatMap (·.1)))

end RouteCheck
