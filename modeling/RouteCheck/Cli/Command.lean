import RouteCheck.Cli.Argument

/-!
Commands, and how they are told by arguments.

`check [DIR]` and `routes [DIR]` take options before and after the directory. Two dashes end the
options. What an argument says is settled when the next one begins something new, so of two
mistakes the one in front counts, except that an argument which means nothing counts before a
value that is bad.
-/

namespace RouteCheck

inductive Command where
  /-- Compare clients and servers. -/
  | check (dir : Path) (config : Option Path) (client server : Option String) (format : Format)
  /-- List routes and calls. -/
  | routes (dir : Path) (config : Option Path)
  deriving DecidableEq, Repr

/-! ## Arguments together -/

/-- Arguments that are being read. -/
structure Reading where
  given : Given := {}
  /-- A setting that is not settled, with its value if that has come. -/
  unsettled : Option (Setting × Option String) := none
  deriving DecidableEq, Repr

namespace Reading

def settle (r : Reading) : Except Usage Reading :=
  match r.unsettled with
  | none => .ok r
  | some (_, none) => .error .badValue
  | some (s, some text) => do return { given := ← r.given.set s text }

def hasDir (r : Reading) : Bool :=
  r.given.dir.isSome || r.unsettled.any (·.1 == .dir)

/-- Take a text that no option stands before. -/
def addDir (r : Reading) (text : String) : Except Usage Reading := do
  if r.hasDir then .error .unknownArgument
  else return { ← r.settle with unsettled := some (.dir, some text) }

def add (r : Reading) : Argument → Except Usage Reading
  | .flag f => do
    let _ ← r.settle
    .error f.asks
  | .surplusValue => .error .surplusValue
  | .unknown => .error .unknownArgument
  | .option s none => do return { ← r.settle with unsettled := some (s, none) }
  | .option s (some text) => do
    let r ← r.settle
    return { r with given := ← r.given.set s text }
  | .value text =>
    match r.unsettled with
    | some (s, none) => .ok { r with unsettled := some (s, some text) }
    | _ => r.addDir text

def addAll (known : Known) (r : Reading) : List String → Except Usage Reading
  | [] => r.settle
  | "--" :: rest => do (← rest.foldlM addDir r).settle
  | s :: rest => do addAll known (← r.add (Argument.ofText known s)) rest

end Reading

/-! ## Commands -/

namespace Command

/-- The settings that a command's arguments give, of those that it has. -/
def settings (own : List Setting) (args : List String) : Except Usage Given := do
  return (← Reading.addAll ⟨own, [.help]⟩ {} args).given

/-- The directory that is analyzed unless another is given. -/
def defaultDir : Path := ⟨"."⟩

def readCheck (args : List String) : Except Usage Command := do
  let g ← settings [.config, .client, .server, .format] args
  return check (g.dir.getD defaultDir) g.config g.client g.server (g.format.getD .text)

def readRoutes (args : List String) : Except Usage Command := do
  let g ← settings [.config] args
  return routes (g.dir.getD defaultDir) g.config

/-- Names of commands, with the one that explains the others. -/
def names : List String := ["check", "routes", "help"]

def readHelp : List String → Usage
  | [] => .help
  | [name] => if names.contains name then .help else .unknownCommand
  | _ => .unknownCommand

/-- What an argument in front of the command means. -/
def readFlag (s : String) : Usage :=
  match Argument.ofText ⟨[], [.help, .version]⟩ s with
  | .flag f => f.asks
  | .surplusValue => .surplusValue
  | .value _ => .unknownCommand
  | _ => .unknownArgument

/-- The command that the arguments tell. -/
def read : List String → Except Usage Command
  | [] => .error .noCommand
  | "check" :: args => readCheck args
  | "routes" :: args => readRoutes args
  | "help" :: args => .error (readHelp args)
  | ["--"] => .error .noCommand
  | "--" :: s :: _ => .error (if names.contains s then .unknownArgument else .unknownCommand)
  | s :: _ => .error (readFlag s)

end Command
end RouteCheck
