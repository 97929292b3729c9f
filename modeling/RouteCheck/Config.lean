import RouteCheck.Toml.Document

/-!
Options that shape how routes are extracted and compared, and the text that sets them.

A config text is a TOML document. Keys that are no options are passed over; an option may be
set once, to a value of its type.
-/

namespace RouteCheck

structure Config where
  /-- Trimmed from the start of client paths. -/
  clientPrefix : String := ""
  /-- Trimmed from the start of server paths. -/
  serverPrefix : String := ""
  /-- Package name under which the routing library is imported. -/
  library : String := "jape"
  /-- Analyze `_test.go` files too. -/
  includeTests : Bool := false
  deriving DecidableEq, Repr, Inhabited

/-- The options given on the command line win. -/
def Config.withPrefixes (c : Config) (client server : Option String) : Config :=
  { c with
    clientPrefix := client.getD c.clientPrefix
    serverPrefix := server.getD c.serverPrefix }

namespace Config

/-- The value that an option is set to, or `default`; `none` if it is set twice or to a value
that `fit` does not take. -/
def option {α : Type} (d : Toml.Document) (key : String) (fit : Toml.Value → Option α)
    (default : α) : Option α :=
  match d.values key with
  | [] => some default
  | [some v] => fit v
  | _ => none

def text? : Toml.Value → Option String
  | .string s => some s
  | _ => none

def flag? : Toml.Value → Option Bool
  | .boolean b => some b
  | _ => none

/-- The options that a document sets. -/
def ofDocument (d : Toml.Document) : Option Config := do
  let base : Config := {}
  return {
    clientPrefix := ← option d "client_prefix" text? base.clientPrefix
    serverPrefix := ← option d "server_prefix" text? base.serverPrefix
    library := ← option d "jape_package" text? base.library
    includeTests := ← option d "include_tests" flag? base.includeTests }

/-- The options that a text sets, if it is valid. -/
def read? (s : String) : Option Config := (Toml.Document.read? s).bind ofDocument

end Config
end RouteCheck
