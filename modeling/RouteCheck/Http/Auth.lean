import RouteCheck.Http.Mux
import RouteCheck.Text.Base64

/-!
Basic authentication.

Only the password of the credentials counts; the user name is ignored.
-/

namespace RouteCheck.Http

/-- The password of a header value with Basic credentials. -/
def givenPassword? (value : String) : Option String := do
  let (scheme, encoded) ← Text.cut? ' ' value
  if Text.lowerAscii scheme = "basic" then
    let octets ← Text.Base64.decode? (Text.trim encoded)
    let (_, password) ← Text.cut? ':' (← Text.Utf8.decode? octets)
    return password
  else none

/-- The headers carry Basic credentials with this password. -/
def authorized (hs : Headers) (password : String) : Bool :=
  ((hs.text? "Authorization").bind givenPassword?) == some password

section
variable {m : Type → Type} [Monad m]

/-- Let only authorized requests through to a handler. -/
def basicAuth (password : String) (next : Handler m) : Handler m :=
  adapt (fun c next =>
    if authorized c.request.headers password then next c
    else pure ApiError.unauthorized.response) next

/-- Let only authorized requests through to a service. -/
def requirePassword (password : String) (next : Service m) : Service m :=
  fun req =>
    if authorized req.headers password then next req else pure ApiError.unauthorized.response

/-- Let only authorized requests through to a router, unknown paths and methods included. -/
def Router.withBasicAuth (r : Router m) (password : String) : Router m :=
  r.addLayer (requirePassword password)

end
end RouteCheck.Http
