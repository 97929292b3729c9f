import RouteCheck.Text.Path

/-!
Trees of directories and files, and the places that paths lead to.

A place is the list of names on the way to it from the top of the tree. A file is its text; a
file whose octets are not text has none.
-/

namespace RouteCheck

inductive FileTree where
  | file (text : Option String)
  | dir (entries : List (String × FileTree))
  deriving Repr, Inhabited

namespace FileTree

def isDir : FileTree → Bool
  | dir _ => true
  | file _ => false

def entries : FileTree → List (String × FileTree)
  | dir es => es
  | file _ => []

def entry? (t : FileTree) (name : String) : Option FileTree := t.entries.lookup name

/-- Set the entry of a name in a list. -/
def setIn (name : String) (t : FileTree) : List (String × FileTree) → List (String × FileTree)
  | [] => [(name, t)]
  | (n, old) :: rest => if n = name then (n, t) :: rest else (n, old) :: setIn name t rest

/-- Put `leaf` at a place; directories on the way are made. -/
def put (t : FileTree) (place : List String) (leaf : FileTree) : FileTree :=
  match place with
  | [] => leaf
  | name :: names =>
    dir (setIn name (put ((t.entry? name).getD (dir [])) names leaf) t.entries)

/-- Make a directory at a place, unless something is there. -/
def makeDir (t : FileTree) : List String → FileTree
  | [] => t
  | name :: names =>
    dir (setIn name (makeDir ((t.entry? name).getD (dir [])) names) t.entries)

def at? : FileTree → List String → Option FileTree
  | t, [] => some t
  | t, name :: names => (t.entry? name).bind fun e => at? e names

/-- Go on from a place by a component of a path. -/
def enter? (t : FileTree) (place : List String) : Path.Component → Option (List String)
  | .root => some []
  | .here => some place
  | .up => if (t.at? place).any isDir then some place.dropLast else none
  | .name n => if (t.at? (place ++ [n])).isSome then some (place ++ [n]) else none

/-- The path says of itself that it leads to a directory. -/
def namesDir (p : Path) : Bool := Text.endsWith "/" p.text || Text.endsWith "/." p.text

/-- The place that a path leads to from `here`, and what is there. -/
def find? (t : FileTree) (here : List String) (p : Path) : Option (List String × FileTree) := do
  if p.text = "" then none
  else
    let place ← p.components.foldlM t.enter? here
    let found ← t.at? place
    if namesDir p && !found.isDir then none else return (place, found)

end FileTree
end RouteCheck
