import RouteCheck.Check.Check
import RouteCheck.Cli.Command
import RouteCheck.Files.Load

/-!
Running commands over a directory tree.

The config comes from the file that the command names, or from `routecheck.toml` in the analyzed
directory; prefixes on the command line win over it. `check` writes the diagnostics to the output.
`routes` writes what it lists to the output and the diagnostics to the error output. A run is clean
if it has no diagnostic.
-/

namespace RouteCheck

/-- What a run writes, and whether it has found nothing. -/
structure Outcome where
  isClean : Bool
  output : String
  errors : String := ""
  deriving DecidableEq, Repr

namespace Command

def configFile : String := "routecheck.toml"

def configPath (dir : Path) (file : Option Path) : Path := file.getD (dir.join configFile)

/-- The text that `check` writes; JSON ends its line as text does. -/
def written (f : Format) (ds : List Diagnostic) : String :=
  match f with
  | .text => f.render ds
  | .json => f.render ds ++ "\n"

/-- Run a command in the directory `here` of a tree. -/
def run (t : FileTree) (here : List String) : Command → Except CheckError Outcome
  | check dir file client server format => do
    let c := (← Config.load t here (configPath dir file)).withPrefixes client server
    let report ← checkProgram (← Program.load t here dir c.includeTests) c
    return { isClean := report.isClean, output := written format report.diagnostics }
  | routes dir file => do
    let c ← Config.load t here (configPath dir file)
    let (packages, ds) := inventory (← Program.load t here dir c.includeTests) c
    return {
      isClean := ds.isEmpty
      output := (Json.arr (packages.map PackageRoutes.toJson)).pretty ++ "\n"
      errors := Format.text.render ds }

end Command

/-! ## The whole program -/

/-- What the program writes, and its exit code. -/
structure Exit where
  code : UInt8
  output : String := ""
  errors : String := ""
  deriving DecidableEq, Repr

namespace Exit

def synopsis : String :=
  "usage: routecheck check [DIR] [--cprefix P] [--sprefix P] [-f text|json] [-c FILE]\n" ++
  "       routecheck routes [DIR] [-c FILE]\n"

/-- Being told how to call the program is no error if it was asked for. -/
def ofUsage : Usage → Exit
  | .help => { code := 0, output := synopsis }
  | .version => { code := 0, output := "routecheck 0.1.0\n" }
  | _ => { code := 2, errors := synopsis }

def ofOutcome (o : Outcome) : Exit :=
  { code := if o.isClean then 0 else 1, output := o.output, errors := o.errors }

def ofError (e : CheckError) : Exit := { code := 1, errors := "Error: " ++ e.message ++ "\n" }

/-- Run the program with arguments in the directory `here` of a tree. -/
def run (t : FileTree) (here : List String) (args : List String) : Exit :=
  match Command.read args with
  | .error u => ofUsage u
  | .ok c =>
    match c.run t here with
    | .ok o => ofOutcome o
    | .error e => ofError e

end Exit
end RouteCheck
