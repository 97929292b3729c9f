import RouteCheck.Text.Basic

/-!
Path patterns, and the tree that finds the pattern a path matches.

In a pattern `:name` matches a path segment, and `*name`, which has to come last, at least one
character and all that follows. The tree joins patterns as far as they agree. At every branch a
path first follows the literal characters and then the wildcard. `insert` refuses a pattern that
could not be told from one that is there: one that ends in the same place, or one that has a
wildcard of the other kind where this one has a wildcard.

A search does not go back to a wildcard for the sake of a lone slash: where `/` is all that is
left of the path and nothing takes it, the search is over.
-/

namespace RouteCheck.Http

/-- Part of a pattern. -/
inductive PathPart where
  | char (c : Char)
  /-- A segment, or the rest of one. -/
  | param
  /-- Everything that is left. -/
  | rest
  deriving DecidableEq, Repr

structure PathPattern where
  parts : List PathPart
  /-- Names of the wildcards, in order. -/
  names : List String
  deriving DecidableEq, Repr

namespace PathPattern

def isSigil (c : Char) : Bool := c = ':' || c = '*'

/-- The name of the wildcard, up to the next slash: not empty and free of sigils. -/
def name? (cs : List Char) : Option String :=
  let name := cs.takeWhile (· != '/')
  if name.isEmpty || name.any isSigil then none else some (String.ofList name)

def afterName (cs : List Char) : List Char := cs.dropWhile (· != '/')

/-- Read the characters of a pattern. -/
def ofChars? : List Char → Option PathPattern
  | [] => some ⟨[], []⟩
  | c :: cs =>
    if c = ':' then do
      let name ← name? cs
      let more ← ofChars? (afterName cs)
      return ⟨.param :: more.parts, name :: more.names⟩
    else if c = '*' then do
      let name ← name? cs
      if (afterName cs).isEmpty then return ⟨[.rest], [name]⟩ else none
    else do
      let more ← ofChars? cs
      return { more with parts := .char c :: more.parts }
termination_by cs => cs.length
decreasing_by
  · have := (List.dropWhile_suffix (· != '/') (l := cs)).length_le
    simp only [afterName, List.length_cons]
    omega
  · simp

/-- The most segment wildcards that a pattern can have. -/
def maxParams : Nat := 25

def ofText? (s : String) : Option PathPattern :=
  (ofChars? s.toList).filter fun p => p.parts.countP (· == .param) ≤ maxParams

end PathPattern

/-- Patterns with their values. `lead` is matched first; then the path ends here, or goes on with
the literal characters of a branch, with a segment, or with anything. The tree behind a segment
has no lead. -/
inductive PathTree (α : Type) where
  | node (lead : List Char) (value : Option α) (branches : List (PathTree α))
      (param : Option (PathTree α)) (rest : Option α)

namespace PathTree

variable {α : Type}

def lead : PathTree α → List Char
  | node l _ _ _ _ => l

def value : PathTree α → Option α
  | node _ v _ _ _ => v

/-! ## Insertion -/

/-- The literal characters in front of a list of parts, and the parts after them. -/
def splitLiteral : List PathPart → List Char × List PathPart
  | .char c :: ps => let (cs, rest) := splitLiteral ps; (c :: cs, rest)
  | ps => ([], ps)

/-- The tree of a single list of parts, if what `*` matches begins a segment. At most `fuel`
segment wildcards are followed. -/
def single (v : α) : Nat → List PathPart → Option (PathTree α)
  | fuel, parts =>
    let (lead, more) := splitLiteral parts
    match more, fuel with
    | [], _ => some (node lead (some v) [] none none)
    | .rest :: _, _ =>
      if lead.isEmpty || lead.getLast? = some '/' then some (node lead none [] none (some v)) else none
    | .param :: [], _ => some (node lead none [] (some (node [] (some v) [] none none)) none)
    | .param :: after, fuel + 1 =>
      (single v fuel after).map fun t => node lead none [] (some (node [] none [t] none none)) none
    | _, _ => none

/-- The tree behind a segment, for the parts that follow it. -/
def behindSegment (v : α) (parts : List PathPart) : Option (PathTree α) :=
  if parts.isEmpty then some (node [] (some v) [] none none)
  else (single v parts.length parts).map fun t => node [] none [t] none none

/-- The number of characters in which a lead and a list of parts agree. -/
def agreement : List Char → List PathPart → Nat
  | c :: cs, .char d :: ps => if c = d then agreement cs ps + 1 else 0
  | _, _ => 0

/-- Add parts at a node whose lead they go beyond and none of whose branches they follow. -/
def extend (v : α) (parts : List PathPart) : PathTree α → Option (PathTree α)
  | node lead value branches param rest =>
    match parts with
    | [] => some (node lead (some v) branches param rest)
    | .char _ :: _ =>
      (single v parts.length parts).map fun t => node lead value (branches ++ [t]) param rest
    | .param :: more =>
      (behindSegment v more).map fun t => node lead value branches (some t) rest
    | .rest :: _ => some (node lead value branches param (some v))

mutual

/-- Add parts with their value; `none` if they are refused. -/
def insert (v : α) (parts : List PathPart) : PathTree α → Option (PathTree α)
  | node lead value branches param rest =>
    let n := agreement lead parts
    if n < lead.length then
      extend v (parts.drop n)
        (node (lead.take n) none [node (lead.drop n) value branches param rest] none none)
    else match parts.drop n with
    | [] => if value.isSome then none else some (node lead (some v) branches param rest)
    | .char c :: more =>
      (insertBranch v c more branches).map fun bs => node lead value bs param rest
    | .param :: more =>
      if rest.isSome then none
      else (insertParam v more param).map fun t => node lead value branches (some t) rest
    | .rest :: _ =>
      if rest.isSome || param.isSome then none else some (node lead value branches param (some v))

/-- Add parts that begin with the character `c` to the branch that begins with it, or as a new
one. -/
def insertBranch (v : α) (c : Char) (more : List PathPart) :
    List (PathTree α) → Option (List (PathTree α))
  | [] => (single v (more.length + 1) (.char c :: more)).map fun t => [t]
  | t :: ts =>
    if t.lead.head? = some c then (insert v (.char c :: more) t).map (· :: ts)
    else (insertBranch v c more ts).map (t :: ·)

def insertParam (v : α) (parts : List PathPart) : Option (PathTree α) → Option (PathTree α)
  | none => behindSegment v parts
  | some t => insert v parts t

end

/-! ## Search -/

/-- How a search ends: with a value and what the wildcards matched, without success in this part
of the tree, or without success at all. -/
inductive Search (α : Type) where
  | found (value : α) (args : List String)
  | miss
  | stopped

namespace Search

def after (arg : List Char) : Search α → Search α
  | found v args => found v (String.ofList arg :: args)
  | r => r

/-- Nothing takes what is left of the path. -/
def failure (path : List Char) : Search α := if path = ['/'] then stopped else miss

end Search

mutual

/-- Search for a path. -/
def search (path : List Char) : PathTree α → Search α
  | node lead value branches param rest =>
    match Text.dropLeadChars? lead path with
    | none => if value.isSome && lead == path ++ ['/'] then .stopped else .failure path
    | some [] => value.elim (.failure path) fun v => .found v []
    | some (c :: cs) =>
      match searchBranches (c :: cs) value.isSome branches with
      | some (.found v args) => .found v args
      | some .stopped => .stopped
      | literal =>
        match searchParam (c :: cs) param, rest with
        | some r, _ => r
        | none, some v => .found v [String.ofList (c :: cs)]
        | none, none => if literal.isSome then .miss else .failure (c :: cs)

/-- Search the branch that begins as the path does; `ends` if a pattern ends before it. -/
def searchBranches (path : List Char) (ends : Bool) : List (PathTree α) → Option (Search α)
  | [] => none
  | t :: ts =>
    if t.lead.head? = path.head? then
      if ends && path == ['/'] && t.lead != ['/'] then some .stopped else some (search path t)
    else searchBranches path ends ts

/-- Let a segment wildcard, if there is one, match the segment that the path begins with. -/
def searchParam (path : List Char) : Option (PathTree α) → Option (Search α)
  | none => none
  | some t => some (searchSegment path t)

/-- Search behind a segment. -/
def searchSegment (path : List Char) : PathTree α → Search α
  | node _ value branches _ _ =>
    let arg := path.takeWhile (· != '/')
    match path.dropWhile (· != '/') with
    | [] =>
      match value, branches with
      | some v, _ => .found v [String.ofList arg]
      | none, [t] => if t.value.isSome && t.lead == ['/'] then .stopped else .miss
      | none, _ => .stopped
    | c :: cs => (searchBehind (c :: cs) value.isSome branches).after arg

/-- Search the branch behind a segment for the path after it. -/
def searchBehind (path : List Char) (ends : Bool) : List (PathTree α) → Search α
  | [] => if path = ['/'] then .stopped else .miss
  | t :: _ => if ends && path == ['/'] && t.lead != ['/'] then .stopped else search path t

end

/-- The value of the pattern that matches the path, and what its wildcards matched. -/
def find? (t : PathTree α) (path : String) : Option (α × List String) :=
  match t.search path.toList with
  | .found v args => some (v, args)
  | _ => none

end PathTree

/-- A tree that may be empty. -/
structure PathMap (α : Type) where
  tree? : Option (PathTree (α × List String)) := none

namespace PathMap

variable {α : Type}

/-- Add a pattern; `none` if it is malformed or refused. -/
def insert? (m : PathMap α) (path : String) (v : α) : Option (PathMap α) := do
  let p ← PathPattern.ofText? path
  match m.tree? with
  | none => return ⟨some (← PathTree.single (v, p.names) p.parts.length p.parts)⟩
  | some t => return ⟨some (← t.insert (v, p.names) p.parts)⟩

/-- The value of the pattern that matches the path, and what its wildcards matched by name. -/
def find? (m : PathMap α) (path : String) : Option (α × List (String × String)) := do
  let ((v, names), args) ← (← m.tree?).find? path
  return (v, names.zip args)

end PathMap
end RouteCheck.Http
