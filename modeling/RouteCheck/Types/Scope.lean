import RouteCheck.Types.Ty

/-!
Local declarations and the scopes they are visible in.

A binding records the stretch of text of its scope and where in it the name begins to be
visible. A use refers to the binding with the narrowest scope that covers it, and among
bindings of one scope to the one that became visible last.
-/

namespace RouteCheck

/-- A half-open range of byte offsets. -/
structure Extent where
  start : Nat
  stop : Nat
  deriving DecidableEq, Repr, Inhabited

namespace Extent

def length (e : Extent) : Nat := e.stop - e.start

def contains (e : Extent) (at_ : Nat) : Bool := e.start ≤ at_ && at_ < e.stop

end Extent

def Node.extent (n : Node) : Extent := ⟨n.start, n.stop⟩

/-- A local declaration of a name. -/
structure Binding where
  name : String
  ty : Ty
  scope : Extent
  /-- Start of the declaring identifier. -/
  nameAt : Nat
  /-- First byte where other uses see the name. -/
  visibleFrom : Nat
  deriving DecidableEq, Repr, Inhabited

namespace Binding

/-- A use at byte `use` can refer to the binding. -/
def covers (b : Binding) (use : Nat) : Bool :=
  b.scope.contains use && (use == b.nameAt || b.visibleFrom ≤ use)

/-- `a` hides `b` where both cover a use. -/
def hides (a b : Binding) : Bool :=
  a.scope.length < b.scope.length ||
  (a.scope.length == b.scope.length && b.visibleFrom < a.visibleFrom)

/-- The binding of a list that no other hides; of several, the first. -/
def innermost : List Binding → Option Binding
  | [] => none
  | b :: bs =>
    match innermost bs with
    | none => some b
    | some c => if c.hides b then some c else some b

/-- What a use of `name` at byte `use` refers to. -/
def resolve? (bindings : List Binding) (name : String) (use : Nat) : Option Binding :=
  innermost (bindings.filter fun b => b.name == name && b.covers use)

end Binding
end RouteCheck
