import RouteCheck.Check.Diagnostic

/-!
Settings of a command, and the values that arguments give them.

Each setting is given once, and the text of its value must be one that it can have. `Usage` says
why arguments do not come to a command that can run.
-/

namespace RouteCheck

/-- Why arguments tell no command to run. -/
inductive Usage where
  | help
  | version
  | noCommand
  | unknownCommand
  | unknownArgument
  /-- A value is missing, or the setting cannot have it. -/
  | badValue
  /-- A setting is given twice. -/
  | repeated
  /-- A value is attached to an option that takes none. -/
  | surplusValue
  deriving DecidableEq, Repr

/-- What the arguments of a command can set. -/
inductive Setting where
  | dir | config | client | server | format
  deriving DecidableEq, Repr

namespace Setting

/-- The name after two dashes; the directory has none. -/
def name : Setting → Option String
  | dir => none
  | config => some "config"
  | client => some "cprefix"
  | server => some "sprefix"
  | format => some "format"

def letter : Setting → Option Char
  | config => some 'c'
  | format => some 'f'
  | _ => none

end Setting

def Format.ofName? : String → Option Format
  | "text" => some .text
  | "json" => some .json
  | _ => none

def Path.ofArgument? (s : String) : Option Path := if s = "" then none else some ⟨s⟩

/-- The settings that arguments have given. -/
structure Given where
  dir : Option Path := none
  config : Option Path := none
  client : Option String := none
  server : Option String := none
  format : Option Format := none
  deriving DecidableEq, Repr

namespace Given

def once {α : Type} (before value : Option α) : Except Usage (Option α) :=
  match before, value with
  | some _, _ => .error .repeated
  | none, none => .error .badValue
  | none, some v => .ok (some v)

/-- Give a setting the value that a text stands for. -/
def set (g : Given) (s : Setting) (text : String) : Except Usage Given :=
  match s with
  | .dir => do return { g with dir := ← once g.dir (Path.ofArgument? text) }
  | .config => do return { g with config := ← once g.config (Path.ofArgument? text) }
  | .client => do return { g with client := ← once g.client (some text) }
  | .server => do return { g with server := ← once g.server (some text) }
  | .format => do return { g with format := ← once g.format (Format.ofName? text) }

end Given

end RouteCheck
