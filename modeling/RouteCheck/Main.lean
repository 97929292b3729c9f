import RouteCheck.Cli.Run

/-!
The program: what a run can look at is read from the disk into a tree, and what the run gives is
written.

A run looks at the files below the analyzed directory, at the config file, and at the ignore files
of the directories above. Other files are in the tree without their text.
-/

namespace RouteCheck.Disk

/-- The path of a place on the disk. -/
def path (place : List String) : String := "/" ++ String.intercalate "/" place

/-- The place that a path leads to from `here`. -/
def placeOf (here : List String) (p : Path) : List String :=
  p.components.foldl (fun place c => match c with
    | .root => []
    | .here => place
    | .up => place.dropLast
    | .name n => place ++ [n]) here

/-- The text of a file with this name can matter. -/
def isRead (name : String) : Bool :=
  name == ".ignore" || name == ".gitignore" || name == "exclude" || Text.endsWith ".go" name

def readFile (place : List String) : IO FileTree := do
  try
    return .file (String.fromUTF8? (← IO.FS.readBinFile (path place)))
  catch _ => return .file none

/-- What is below a place that is listed as `kind`. -/
partial def readAll (place : List String) (kind : IO.FS.FileType) : IO (Option FileTree) := do
  match kind with
  | .file => if isRead (place.getLastD "") then return some (← readFile place) else return some (.file none)
  | .dir =>
    let entries ← try (← IO.FS.realPath (path place)).readDir catch _ => pure #[]
    let mut found := []
    for e in entries do
      let kind := (← e.path.symlinkMetadata).type
      if let some t ← readAll (place ++ [e.fileName]) kind then
        found := found ++ [(e.fileName, t)]
    return some (.dir found)
  | _ => return none

/-- What a place itself is, links followed. -/
def kind? (place : List String) : IO (Option IO.FS.FileType) := do
  try
    return some (← (← IO.FS.realPath (path place)).metadata).type
  catch _ => return none

/-- Add the file at a place, if there is one. -/
def addFile (t : FileTree) (place : List String) : IO FileTree := do
  match ← kind? place with
  | some .file => return t.put place (← readFile place)
  | some _ => return t.makeDir place
  | none => return t

/-- Add the ignore files of the directories above a place. -/
def addAbove (t : FileTree) (place : List String) : IO FileTree := do
  let mut t := t
  for n in List.range place.length do
    let above := place.take n
    t := t.makeDir above
    for names in [[".git"], [".ignore"], [".gitignore"], [".git", "info", "exclude"]] do
      t ← addFile t (above ++ names)
  return t

def addBelow (t : FileTree) (place : List String) : IO FileTree := do
  match ← kind? place with
  | none => return t
  | some kind => return ((← readAll place kind).map (t.put place)).getD t

/-- What a command that is run in `here` can look at. -/
def tree (here : List String) (c : Command) : IO FileTree := do
  let (dir, file) := match c with
    | .check dir file _ _ _ => (dir, file)
    | .routes dir file => (dir, file)
  let below ← addBelow (← addAbove (.dir []) (placeOf here dir)) (placeOf here dir)
  addFile (below.makeDir here) (placeOf here (Command.configPath dir file))

end RouteCheck.Disk

open RouteCheck

/-- Run the program in the working directory. -/
def main (args : List String) : IO UInt32 := do
  let here := Disk.placeOf [] ⟨(← IO.currentDir).toString⟩
  let t ← match Command.read args with
    | .ok c => Disk.tree here c
    | .error _ => pure (.dir [])
  let e := Exit.run t here args
  IO.print e.output
  IO.eprint e.errors
  return e.code.toUInt32
