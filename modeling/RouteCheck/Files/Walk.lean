import RouteCheck.Files.Ignore

/-!
Walking a directory tree: the files below a path that no ignore rule passes over.

The place that the walk begins at is never passed over itself. Where nothing is, no files are.
-/

namespace RouteCheck

namespace FileTree

mutual

/-- Files in a tree with their paths, where `shown` is the path of the tree. -/
def walk (levels : List IgnoreLevel) (shown : Path) (place : List String) :
    FileTree → List (Path × Option String)
  | file text => [(shown, text)]
  | dir es => walkEntries (.ofDir place (dir es) :: levels) shown place es

def walkEntries (levels : List IgnoreLevel) (shown : Path) (place : List String) :
    List (String × FileTree) → List (Path × Option String)
  | [] => []
  | (name, t) :: rest =>
    let below := place ++ [name]
    let found := if IgnoreLevel.skips levels below name t.isDir then []
      else walk levels (shown.join name) below t
    found ++ walkEntries levels shown place rest

end

/-- Files below a path that is given from `here`. -/
def files (t : FileTree) (here : List String) (p : Path) : List (Path × Option String) :=
  match t.find? here p with
  | none => []
  | some (place, found) => walk (IgnoreLevel.above t place) p place found

end FileTree

end RouteCheck
