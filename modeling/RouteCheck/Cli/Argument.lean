import RouteCheck.Cli.Setting

/-!
Arguments of the command line, one by one.

An option is written `--name value` or `--name=value`, and some have a letter: `-f value`,
`-fvalue` or `-f=value`. Names and letters are exact. A dash alone is a value.
-/

namespace RouteCheck

/-- An option without a value, which asks to be told something. -/
structure Flag where
  name : String
  letter : Char
  asks : Usage
  deriving DecidableEq, Repr

def Flag.help : Flag := ⟨"help", 'h', .help⟩
def Flag.version : Flag := ⟨"version", 'V', .version⟩

/-- What can be given in one place. -/
structure Known where
  settings : List Setting
  flags : List Flag
  deriving DecidableEq, Repr

/-- What an argument is by itself. -/
inductive Argument where
  | flag (f : Flag)
  | option (s : Setting) (value : Option String)
  | surplusValue
  | unknown
  | value (text : String)
  deriving DecidableEq, Repr

namespace Argument

/-- An argument after two dashes. -/
def ofLong (known : Known) (body : String) : Argument :=
  let (name, attached) := match Text.cut? '=' body with
    | some (name, text) => (name, some text)
    | none => (body, none)
  match known.settings.find? (·.name == some name), known.flags.find? (·.name == name) with
  | some s, _ => option s attached
  | none, some f => if attached.isSome then surplusValue else flag f
  | none, none => unknown

/-- An argument of letters after one dash. -/
def ofShort (known : Known) (c : Char) (rest : List Char) : Argument :=
  match known.settings.find? (·.letter == some c), known.flags.find? (·.letter == c) with
  | some s, _ =>
    option s (match rest with
      | [] => none
      | '=' :: text => some (String.ofList text)
      | text => some (String.ofList text))
  | none, some f => flag f
  | none, none => unknown

def ofText (known : Known) (s : String) : Argument :=
  match s.toList with
  | '-' :: '-' :: body => ofLong known (String.ofList body)
  | '-' :: c :: rest => ofShort known c rest
  | _ => value s

end Argument

end RouteCheck
