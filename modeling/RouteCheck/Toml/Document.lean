import RouteCheck.Toml.Reader

/-!
TOML documents: the entries before the first header, and the tables after it.

A table may be defined once. `[[name]]` begins a new element of an array of tables, in which the
tables below `name` may be defined anew; a name that is in use as a table or above one cannot
become an array. Keys that one table has twice are left to whoever reads the table.
-/

namespace RouteCheck.Toml

structure Document where
  /-- Entries before the first header, in order. -/
  entries : List (String × Value) := []
  /-- Headers in order. -/
  headers : List (List String) := []
  deriving Repr, Inhabited

/-- A table that has been defined. -/
structure Defined where
  path : List String
  isArray : Bool
  deriving DecidableEq, Repr

def isAbove (p q : List String) : Bool := p.isPrefixOf q && p.length < q.length

/-- Define a table after those in `defined`, if that is allowed. -/
def define (defined : List Defined) (path : List String) (isArray : Bool) : Option (List Defined) :=
  match defined.find? (·.path == path) with
  | some d =>
    if isArray && d.isArray then some (defined.filter fun e => !isAbove path e.path) else none
  | none =>
    if isArray && defined.any (isAbove path ·.path) then none else some (defined ++ [⟨path, isArray⟩])

/-- A document that is being read. -/
structure Draft where
  document : Document := {}
  defined : List Defined := []
  /-- Entries of the table that the last header began. -/
  current : List (String × Value) := []

/-- Read a line. -/
def Draft.add (d : Draft) : Line → Option Draft
  | .header path isArray =>
    (define d.defined path isArray).map fun defined =>
      { document := { d.document with headers := d.document.headers ++ [path] }
        defined, current := [] }
  | .entry key value =>
    if d.document.headers.isEmpty then
      (Reader.addEntry value key d.document.entries).map fun entries =>
        { d with document := { d.document with entries } }
    else (Reader.addEntry value key d.current).map fun current => { d with current }

def Document.read? (s : String) : Option Document := do
  let lines ← readLines? s
  return (← lines.foldlM Draft.add {}).document

/-- The values of a top-level key, one for each time it is there; `none` stands for a table with
a header. -/
def Document.values (d : Document) (key : String) : List (Option Value) :=
  (d.entries.filter (·.1 == key)).map (some ·.2) ++
    (d.headers.filter (·.head? == some key)).map fun _ => none

end RouteCheck.Toml
