/-!
Request methods that routes can be registered for.
-/

namespace RouteCheck.Http

/-- The methods that a table can route. -/
inductive Method where
  | get | post | put | delete | patch | head | options
  deriving DecidableEq, Repr

namespace Method

def name : Method → String
  | get => "GET"
  | post => "POST"
  | put => "PUT"
  | delete => "DELETE"
  | patch => "PATCH"
  | head => "HEAD"
  | options => "OPTIONS"

def all : List Method := [get, post, put, delete, patch, head, options]

def ofName? (s : String) : Option Method := all.find? (·.name == s)

/-- What a route of the method makes a path take: `HEAD` comes with `GET`. -/
def allows : Method → List String
  | get => ["GET", "HEAD"]
  | m => [m.name]

end Method

end RouteCheck.Http
