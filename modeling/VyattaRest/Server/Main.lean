/-
  VyattaRest.Server.Main — one request from `FCGI_Accept` to the response (main.cc, process.cc).

  A request is parsed, authenticated and dispatched by access level and path. A request that
  cannot be parsed is dispatched as well, without having been authenticated.
-/

import VyattaRest.Server.Auth
import VyattaRest.Server.ConfMode
import VyattaRest.Server.OpMode
import VyattaRest.Server.AppMode
import VyattaRest.Server.Permissions

namespace VyattaRest.Server

open VyattaRest.Lib VyattaRest.Rest

/-- What the web server hands over: environment variables and the bytes of the body. -/
structure RequestEnv where
  requestUri : Option Str
  queryString : Option Str
  requestMethod : Option Str
  accept : Option Str
  contentLength : Option Str
  httpAuthorization : Option Str
  httpCookie : Option Str
  vyattaSpecificationVersion : Option Str
  host : Option Str
  httpPragma : Option Str
  stdin : Str

/-! ## Parsing -/

def RequestEnv.fields (rq : RequestEnv) : List (Key × Option Str) :=
  [(.reqUri, rq.requestUri), (.reqQueryString, rq.queryString), (.reqMethod, rq.requestMethod),
   (.reqAccept, rq.accept), (.reqContentLength, rq.contentLength), (.reqAuthorization, rq.httpAuthorization),
   (.reqCookie, rq.httpCookie), (.reqVyattaSpecificationVersion, rq.vyattaSpecificationVersion), (.reqHost, rq.host),
   (.reqPragma, rq.httpPragma)]

/-- `parse`: a body that is announced too long is a failure. -/
def parse (rq : RequestEnv) (s : Session) : Bool × Session :=
  let request := rq.fields.foldl (fun h p => h.setOpt p.1 (p.2.map cstr)) s.request
  let s := { s with request := request }
  let slen := s.request.get .reqContentLength
  if slen.isEmpty then (true, s)
  else
    let len := strtoul 10 slen
    if maxBodySize < len then
      (false, s.errorMsg .validationFailure (str "Request body exceeds maximum allowable size"))
    else (true, { s with request := s.request.set .body (rq.stdin.take len) })

/-! ## Dispatch -/

inductive Route where
  | service
  | app
  | op
  | conf
  | perm
  deriving DecidableEq, Repr

/-- The mode a session is sent to. -/
def route (s : Session) : Option Route :=
  let path := s.request.get .reqUri
  if path.isEmpty then none
  else if s.accessLevel = .vyattaServiceUser then if serviceReqRoot.isPrefixOf path then some .service else none
  else if appReqRoot.isPrefixOf path then some .app
  else if opReqRoot.isPrefixOf path then some .op
  else if confReqRoot.isPrefixOf path then some .conf
  else if permReqRoot.isPrefixOf path then some .perm
  else none

theorem route_conf {s : Session} (h : route s = some .conf) : confReqRoot <+: s.request.get .reqUri := by
  unfold route at h
  simp only at h
  split at h
  · cases h
  split at h
  · split at h <;> cases h
  split at h
  · cases h
  split at h
  · cases h
  split at h
  · rename_i hconf
    exact List.isPrefixOf_iff_prefix.mp hconf
  · split at h <;> cases h

def Route.process (fuel : Nat) (s : Session) : Route → Act Session
  | .service => ServiceMode.process fuel s
  | .app => AppMode.process s
  | .op => OpMode.process s
  | .conf => ConfMode.process s
  | .perm => Permissions.process s

/-- `Process::dispatch`: an empty path gets no answer, not even an error. -/
def dispatch (fuel : Nat) (s : Session) : Act Session :=
  match route s with
  | some r => r.process fuel s
  | none => return if (s.request.get .reqUri).isEmpty then s else s.error .validationFailure

/-! ## The request -/

/-- `Command::validate`. -/
def commandValidate (_ : Session) : Bool := true

def answer (fuel : Nat) (rq : RequestEnv) : Act Session :=
  let (parsed, s) := parse rq Session.new
  if !parsed then dispatch fuel s
  else if !commandValidate s then return s
  else do
    match ← validate s with
    | (false, s) => return s.error .authorizationFailure
    | (true, s) => dispatch fuel s

/-- Whatever came of the request, the process asks for the ids back that it was started
    with. -/
def finish (gUid gGid : Nat) (s : Session) : Act Http := do
  let _ ← perform (.setuid gUid)
  let _ ← perform (.setgid gGid)
  let _ ← perform (.setloginuid gUid)
  return s.response

/-- The body of the loop of `main`. -/
def serve (fuel gUid gGid : Nat) (rq : RequestEnv) : Act Http := answer fuel rq >>= finish gUid gGid

end VyattaRest.Server
