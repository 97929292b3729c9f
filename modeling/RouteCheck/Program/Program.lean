import RouteCheck.Program.SourceFile

/-!
Programs: every source file of a run, sorted by path, and their packages.

A package is what shares a directory and a package name. Files are kept in path order, so
whatever depends on the order of files depends on their paths alone.
-/

namespace RouteCheck

/-- Conditions that stop a run. -/
inductive CheckError where
  /-- Reading a file failed, or it is not UTF-8. -/
  | unreadable (path : Path)
  /-- The config file is not valid. -/
  | badConfig (path : Path)
  /-- The path is not that of a source file. -/
  | unsupported (path : Path)
  /-- A package declares routes but calls no client. -/
  | noClient (package : String)
  deriving DecidableEq, Repr

/-- What the user is told. The texts of causes outside this library are left out. -/
def CheckError.message : CheckError → String
  | unreadable p => "failed to read " ++ p.text
  | badConfig p => "invalid config " ++ p.text
  | unsupported p => "unsupported source file: " ++ p.text
  | noClient p => "no Client definition found in package " ++ p

structure Program where
  files : List SourceFile
  deriving Inhabited

/-- Files that share a directory and a package name. -/
structure Package where
  dir : Path
  name : String
  files : List SourceFile
  deriving Inhabited

def Package.label (p : Package) : String := p.name ++ " (" ++ p.dir.text ++ ")"

namespace Program

/-- Sort files by path, stably, and number them. -/
def ofFiles (files : List SourceFile) : Program :=
  ⟨(files.mergeSort fun a b => (a.path.compare b.path).isLE).mapIdx
    fun i f => { f with index := i }⟩

/-- Read one file, unless its path is not that of a source file. -/
def readSource (source : Path × String) : Except CheckError SourceFile :=
  match SourceFile.read? source.1 source.2 with
  | some f => .ok f
  | none => .error (.unsupported source.1)

/-- Read every file; the first path that is not a source file stops. -/
def ofSources (sources : List (Path × String)) : Except CheckError Program := do
  return ofFiles (← sources.mapM readSource)

/-- Put a file into the package of its directory and name. -/
def addToPackages (f : SourceFile) : List Package → List Package
  | [] => [⟨f.path.parent, f.package, [f]⟩]
  | p :: ps =>
    if p.dir.same f.path.parent && p.name == f.package then
      { p with files := p.files ++ [f] } :: ps
    else p :: addToPackages f ps

def comparePackages (a b : Package) : Ordering :=
  (a.dir.compare b.dir).then (Text.compare a.name b.name)

/-- Packages by directory, then name. -/
def packages (p : Program) : List Package :=
  (p.files.foldl (fun ps f => addToPackages f ps) []).mergeSort
    fun a b => (comparePackages a b).isLE

end Program
end RouteCheck
