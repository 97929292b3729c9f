import RouteCheck.Config
import RouteCheck.Files.Walk
import RouteCheck.Program.Program

/-!
Loading programs and configs from a directory tree.

A program is made of the source files of a walk. A config file that does not exist sets nothing.
-/

namespace RouteCheck

/-- The file is a source file to analyze. -/
def isSource (includeTests : Bool) (p : Path) : Bool :=
  (SourceKind.ofPath? p).any (·.isAnalyzed includeTests)

/-- The program below a path that is given from `here`. -/
def Program.load (t : FileTree) (here : List String) (root : Path) (includeTests : Bool) :
    Except CheckError Program := do
  let found := (t.files here root).filter fun f => isSource includeTests f.1
  let sources ← found.mapM fun (path, text) =>
    match text with
    | some s => .ok (path, s)
    | none => .error (.unreadable path)
  Program.ofSources sources

/-- The config in the file at a path that is given from `here`. -/
def Config.load (t : FileTree) (here : List String) (p : Path) : Except CheckError Config :=
  match t.find? here p with
  | none => .ok {}
  | some (_, .file (some s)) =>
    match Config.read? s with
    | some c => .ok c
    | none => .error (.badConfig p)
  | some _ => .error (.unreadable p)

end RouteCheck
