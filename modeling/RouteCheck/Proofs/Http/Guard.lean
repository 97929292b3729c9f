import RouteCheck.Http.Auth

/-!
What a password lets through.

Handlers run in a monad, so that what they do is part of what they answer with: a request for which
a service is `pure` has run no step of a handler or a middleware. A guard is then told by two
equations. It is the refusal, and nothing else, where the headers are not authorized, and what it
guards where they are.

A guard between other middlewares sees what the outer ones call on with. Those that pass on the
headers they were given, whatever else they do, leave the two equations as they are; and whatever
the outer ones pass on, what a guard keeps in is called with authorized headers only.

Main statements:
  1. `wrapAll_congr`: middlewares that keep headers tell handlers apart by contexts of the same
     headers only.
  2. `basicAuth_congr`: what a handler does on contexts that are not authorized is kept in.
  3. `Router.serve_withBasicAuth_of_authorized`, `Router.exists_serve_withBasicAuth`: a guarded
     router by whether the request is authorized.
  4. `guarded_or_refused`: the guard of a router, of a handler and of a handler between middlewares.
-/

namespace RouteCheck.Http

section
variable {m : Type → Type}

/-! ## Middlewares -/

/-- What stands before a handler and decides whether to call on; see `adapt`. -/
abbrev Middleware (m : Type → Type) := Context → Handler m → m Response

/-- A handler behind middlewares, the first one outermost. -/
def wrapAll (middlewares : List (Middleware m)) (handler : Handler m) : Handler m :=
  middlewares.foldr adapt handler

theorem wrapAll_cons (middleware : Middleware m) (rest : List (Middleware m))
    (handler : Handler m) (c : Context) :
    wrapAll (middleware :: rest) handler c = middleware c (wrapAll rest handler) :=
  rfl

theorem wrapAll_append (outer inner : List (Middleware m)) (handler : Handler m) :
    wrapAll (outer ++ inner) handler = wrapAll outer (wrapAll inner handler) :=
  List.foldr_append

/-- The two handlers do the same for contexts with these headers. -/
def AgreeOn (headers : Headers) (handler handler' : Handler m) : Prop :=
  ∀ c : Context, c.request.headers = headers → handler c = handler' c

/-- The middleware calls on, if it does, with contexts of the headers it was given. -/
def KeepsHeaders (middleware : Middleware m) : Prop :=
  ∀ (c : Context) (next next' : Handler m), AgreeOn c.request.headers next next' →
    middleware c next = middleware c next'

/-- Behind middlewares that keep headers, a context does not reach what is done for other headers;
by induction on the middlewares, from the innermost out. -/
theorem wrapAll_congr {middlewares : List (Middleware m)} {headers : Headers}
    {handler handler' : Handler m} (hkeep : ∀ M ∈ middlewares, KeepsHeaders M)
    (h : AgreeOn headers handler handler') :
    AgreeOn headers (wrapAll middlewares handler) (wrapAll middlewares handler') := by
  induction middlewares with
  | nil => exact h
  | cons M rest ih =>
    obtain ⟨hM, hrest⟩ := List.forall_mem_cons.1 hkeep
    intro c hc
    rw [wrapAll_cons, wrapAll_cons]
    exact hM c _ _ (hc ▸ ih hrest)

/-! ## Guarded handlers -/

variable [Monad m] {password : String}

section
variable {handler handler' : Handler m} {c : Context}

theorem basicAuth_of_authorized (h : authorized c.request.headers password = true) :
    basicAuth password handler c = handler c :=
  if_pos h

theorem basicAuth_of_unauthorized (h : authorized c.request.headers password = false) :
    basicAuth password handler c = pure ApiError.unauthorized.response :=
  if_neg (Bool.eq_false_iff.1 h)

/-- What a handler does for contexts that are not authorized makes no difference behind a guard. -/
theorem basicAuth_congr
    (h : ∀ c : Context, authorized c.request.headers password = true → handler c = handler' c) :
    basicAuth password handler = basicAuth password handler' := by
  funext c
  cases hc : authorized c.request.headers password with
  | true => rw [basicAuth_of_authorized hc, basicAuth_of_authorized hc, h c hc]
  | false => rw [basicAuth_of_unauthorized hc, basicAuth_of_unauthorized hc]

end

section
variable {outer : List (Middleware m)} {handler : Handler m} {c : Context}

theorem wrapAll_basicAuth_of_authorized (hkeep : ∀ M ∈ outer, KeepsHeaders M)
    (h : authorized c.request.headers password = true) :
    wrapAll outer (basicAuth password handler) c = wrapAll outer handler c :=
  wrapAll_congr hkeep (fun _ hc => basicAuth_of_authorized (hc ▸ h)) c rfl

theorem wrapAll_basicAuth_of_unauthorized (hkeep : ∀ M ∈ outer, KeepsHeaders M)
    (h : authorized c.request.headers password = false) :
    wrapAll outer (basicAuth password handler) c =
      wrapAll outer (fun _ => pure ApiError.unauthorized.response) c :=
  wrapAll_congr hkeep (fun _ hc => basicAuth_of_unauthorized (hc ▸ h)) c rfl

end

/-! ## Guarded routers -/

namespace Router

variable {r : Router m} {req : Request}

theorem layer_withBasicAuth_of_authorized (h : authorized req.headers password = true)
    (service : Service m) : (r.withBasicAuth password).layer service req = r.layer service req :=
  if_pos h

theorem layer_withBasicAuth_of_unauthorized (h : authorized req.headers password = false)
    (service : Service m) :
    (r.withBasicAuth password).layer service req = pure ApiError.unauthorized.response :=
  if_neg (Bool.eq_false_iff.1 h)

/-- The layer is around whatever answers a request: a handler, and the answers for want of one. -/
theorem serve_withBasicAuth_of_authorized (h : authorized req.headers password = true) :
    (r.withBasicAuth password).serve req = r.serve req := by
  have hpaths : (r.withBasicAuth password).paths = r.paths := rfl
  simp only [serve, respond, hpaths, layer_withBasicAuth_of_authorized h]

/-- The refusal may still get a list of methods on its way out, and lose its body. -/
theorem exists_serve_withBasicAuth [LawfulMonad m] (h : authorized req.headers password = false) :
    ∃ resp : Response, resp.status = 401 ∧ (r.withBasicAuth password).serve req = pure resp := by
  have hrespond : ∃ resp : Response,
      resp.status = 401 ∧ (r.withBasicAuth password).respond req = pure resp := by
    unfold respond
    split
    · exact ⟨_, rfl, layer_withBasicAuth_of_unauthorized h _⟩
    · split
      · exact ⟨_, rfl, layer_withBasicAuth_of_unauthorized h _⟩
      · exact ⟨_, rfl, by rw [layer_withBasicAuth_of_unauthorized h, map_pure]⟩
  obtain ⟨resp, hstatus, hresp⟩ := hrespond
  rw [serve, hresp, map_pure]
  refine ⟨_, ?_, rfl⟩
  split
  · exact hstatus
  · exact hstatus

end Router

/-- A password in front of a router, of a handler, and of a handler between other middlewares.
Without it the router answers 401 and the handler is refused, and no step of what is behind is run;
with it nothing changes. Outer middlewares are to keep headers for that, but whatever they do, they
cannot make what the guard keeps in run on a context that is not authorized. -/
theorem guarded_or_refused [LawfulMonad m] (password : String) :
    (∀ (r : Router m) (req : Request),
      (authorized req.headers password = false →
        ∃ resp : Response, resp.status = 401 ∧ (r.withBasicAuth password).serve req = pure resp) ∧
      (authorized req.headers password = true →
        (r.withBasicAuth password).serve req = r.serve req)) ∧
    (∀ (outer inner : List (Middleware m)) (handler : Handler m) (c : Context),
      (∀ M ∈ outer, KeepsHeaders M) →
        (authorized c.request.headers password = false →
          wrapAll outer (basicAuth password (wrapAll inner handler)) c =
            wrapAll outer (fun _ => pure ApiError.unauthorized.response) c) ∧
        (authorized c.request.headers password = true →
          wrapAll outer (basicAuth password (wrapAll inner handler)) c =
            wrapAll (outer ++ inner) handler c)) ∧
    ∀ (outer : List (Middleware m)) (handler handler' : Handler m),
      (∀ c : Context, authorized c.request.headers password = true → handler c = handler' c) →
        wrapAll outer (basicAuth password handler) =
          wrapAll outer (basicAuth password handler') := by
  refine ⟨fun r req => ⟨?_, ?_⟩, fun outer inner handler c hkeep => ⟨?_, ?_⟩, ?_⟩
  · exact Router.exists_serve_withBasicAuth
  · exact Router.serve_withBasicAuth_of_authorized
  · exact wrapAll_basicAuth_of_unauthorized hkeep
  · rw [wrapAll_append]
    exact wrapAll_basicAuth_of_authorized hkeep
  · intro outer handler handler' h
    rw [basicAuth_congr h]

end

def noted (step : String) : Middleware (StateM (List String)) :=
  fun c next => do
    modify (· ++ [step])
    next c

theorem keepsHeaders_noted (step : String) : KeepsHeaders (noted step) := by
  intro c next next' h
  unfold noted
  rw [h c rfl]

/-- A handler that takes down that it ran. -/
def greet : Handler (StateM (List String)) := fun _ => do
  modify (· ++ ["greet"])
  pure (.plain 200 "hello")

def greeting (headers : Headers) : Request := { method := "GET", url := { path := "/hi" }, headers }

/-- The credentials are those of the password `hunter2`. -/
theorem guarded_greeting :
    (∃ r : Router (StateM (List String)), mux [("GET /hi", greet)] = .ok r ∧
      (∃ resp : Response, resp.status = 401 ∧
        (r.withBasicAuth "hunter2").serve (greeting []) = pure resp) ∧
      (r.withBasicAuth "hunter2").serve (greeting [("authorization", "Basic Omh1bnRlcjI=")]) =
        r.serve (greeting [("authorization", "Basic Omh1bnRlcjI=")])) ∧
    wrapAll [noted "outer"] (basicAuth "hunter2" (wrapAll [noted "inner"] greet))
        { request := greeting [("authorization", "Basic Omh1bnRlcjI=")] } =
      wrapAll [noted "outer", noted "inner"] greet
        { request := greeting [("authorization", "Basic Omh1bnRlcjI=")] } := by
  have hgiven : authorized [("authorization", "Basic Omh1bnRlcjI=")] "hunter2" = true := by
    decide +kernel
  have hok : (mux [("GET /hi", greet)]).isOk = true := by decide +kernel
  obtain ⟨hrouter, hstack, -⟩ := guarded_or_refused (m := StateM (List String)) "hunter2"
  constructor
  · cases hmux : mux [("GET /hi", greet)] with
    | error e => simp [hmux, Except.isOk, Except.toBool] at hok
    | ok r => exact ⟨r, rfl, (hrouter r _).1 (by decide +kernel), (hrouter r _).2 hgiven⟩
  · refine (hstack [noted "outer"] [noted "inner"] greet _ fun M hM => ?_).2 hgiven
    exact List.mem_singleton.1 hM ▸ keepsHeaders_noted "outer"

end RouteCheck.Http
