import RouteCheck.Text.Basic

/-!
File paths.

A path keeps the text it was written as. Two paths are compared component by component:
repeated separators, a trailing separator and `.` components count for nothing, except a
`.` in front. The root comes before `.`, `.` before `..`, and `..` before names.
-/

namespace RouteCheck

/-- A component of a path. -/
inductive Path.Component where
  | root | here | up | name (text : String)
  deriving DecidableEq, Repr, Inhabited

/-- A path as it was written. -/
structure Path where
  text : String
  deriving DecidableEq, Repr, Inhabited

namespace Path

namespace Component

/-- Position of the component's sort, for the order. -/
def rank : Component → Nat
  | root => 0
  | here => 1
  | up => 2
  | name _ => 3

def compare : Component → Component → Ordering
  | name a, name b => Text.compare a b
  | a, b => Ord.compare a.rank b.rank

/-- The component that a segment between separators stands for, if it stands for one. -/
def ofSegment? (s : String) : Option Component :=
  if s = "" || s = "." then none
  else if s = ".." then some up
  else some (name s)

end Component

/-- The part that stands before the first segment: the root, or a leading `.`. -/
def lead (p : Path) : String :=
  if Text.startsWith "/" p.text then "/"
  else if p.text = "." || Text.startsWith "./" p.text then "."
  else ""

def segments (p : Path) : List String :=
  Text.split '/' ((Text.dropLead? p.lead p.text).getD "")

def components (p : Path) : List Component :=
  let first := if p.lead = "/" then [Component.root] else if p.lead = "." then [.here] else []
  first ++ p.segments.filterMap Component.ofSegment?

def compareComponents : List Component → List Component → Ordering
  | [], [] => .eq
  | [], _ :: _ => .lt
  | _ :: _, [] => .gt
  | a :: as, b :: bs => (a.compare b).then (compareComponents as bs)

def compare (a b : Path) : Ordering := compareComponents a.components b.components

def same (a b : Path) : Bool := a.components == b.components

def isVoid (s : String) : Bool := (Component.ofSegment? s).isNone

/-- The directory that holds the path: its text up to the last component. It is empty for a
path of one component. -/
def parent (p : Path) : Path :=
  match p.segments.reverse.dropWhile isVoid with
  | [] => ⟨""⟩
  | _ :: before =>
    let kept := (before.dropWhile isVoid).reverse
    ⟨p.lead ++ String.intercalate "/" kept⟩

/-- The name of the file, if the last component is a name. -/
def fileName? (p : Path) : Option String :=
  match p.components.getLast? with
  | some (.name s) => some s
  | _ => none

/-- What follows the last dot of the file name, unless nothing precedes the dot. -/
def extension? (p : Path) : Option String := do
  let s ← p.fileName?
  let rev := Text.splitChars '.' s.toList.reverse
  match rev with
  | ext :: before@(_ :: _) =>
    if before = [[]] then none else some (String.ofList ext.reverse)
  | _ => none

/-- `q` below `p`; an absolute `q` stands by itself. -/
def join (p : Path) (q : String) : Path :=
  if Text.startsWith "/" q then ⟨q⟩
  else if p.text = "" || Text.endsWith "/" p.text then ⟨p.text ++ q⟩
  else ⟨p.text ++ "/" ++ q⟩

end Path
end RouteCheck
