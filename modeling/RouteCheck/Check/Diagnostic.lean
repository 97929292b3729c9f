import RouteCheck.Program.SourceFile
import RouteCheck.Json.Value

/-!
Diagnostics: messages about places in the analyzed source.

Checks list what they find in the order they find it. `Diagnostic.settle` sorts such a list by
place and message and keeps one of each, so that the outcome of a run does not depend on the
order of the checks. Paths are compared by components, as in `Path.compare`.
-/

namespace RouteCheck

structure Diagnostic where
  position : Position
  message : String
  deriving DecidableEq, Repr, Inhabited

/-- The order of positions: path by components, line, column. -/
def Position.compare (a b : Position) : Ordering :=
  ((a.file.compare b.file).then (Ord.compare a.line b.line)).then (Ord.compare a.column b.column)

namespace Diagnostic

/-- The order of diagnostics: position, then message. -/
def compare (a b : Diagnostic) : Ordering :=
  (a.position.compare b.position).then (Text.compare a.message b.message)

def same (a b : Diagnostic) : Bool := a.compare b == .eq

/-- Drop every diagnostic that equals the one before it. -/
def dropRepeats : List Diagnostic → List Diagnostic
  | [] => []
  | [d] => [d]
  | a :: b :: rest =>
    if a.same b then dropRepeats (a :: rest) else a :: dropRepeats (b :: rest)
termination_by ds => ds.length

/-- Sorted, one of each. -/
def settle (ds : List Diagnostic) : List Diagnostic :=
  dropRepeats (ds.mergeSort fun a b => (a.compare b).isLE)

def render (d : Diagnostic) : String := d.position.render ++ ": " ++ d.message

end Diagnostic

def Position.toJson (p : Position) : Json :=
  .obj [("file", .str p.file.text), ("line", .int p.line), ("column", .int p.column)]

def Diagnostic.toJson (d : Diagnostic) : Json :=
  .obj [("position", d.position.toJson), ("message", .str d.message)]

/-- How a list of diagnostics is written. -/
inductive Format where
  | text | json
  deriving DecidableEq, Repr, Inhabited

/-- One line for each diagnostic, or an indented JSON array. -/
def Format.render : Format → List Diagnostic → String
  | .text, ds => String.join (ds.map fun d => d.render ++ "\n")
  | .json, ds => (Json.arr (ds.map Diagnostic.toJson)).pretty

end RouteCheck
