/-
  VyattaRest.Server.Http — requests, responses and the session of one request (http.hh,
  http.cc): the field maps, the JSON builder and the error responses.

  The server runs without its debug flag here. The flag adds log lines, the vyatta-debug
  header and copies of requests under /tmp.
-/

import VyattaRest.Common
import VyattaRest.Lib.Decimal
import VyattaRest.Lib.OrdMap

namespace VyattaRest.Server

open VyattaRest.Lib VyattaRest.Rest

/-- `Rest::KEY`. -/
inductive Key where
  | reqUri
  | reqAuthorization
  | reqCookie
  | reqQueryString
  | reqMethod
  | reqContentLength
  | reqVyattaSpecificationVersion
  | reqAccept
  | reqHost
  | reqPragma
  | respDebug
  | respCode
  | respWwwAuth
  | respContentType
  | respLocation
  | respCookie
  | respVyattaSpecificationVersion
  | respCacheControl
  | respContentDisposition
  | body
  deriving DecidableEq, Repr

/-- The fields of a request or a response. -/
structure Http where
  params : Key → Option Str
  verbatimBody : Bool

namespace Http

def empty : Http := { params := fun _ => none, verbatimBody := false }

def get (h : Http) (key : Key) : Str := (h.params key).getD []

def set (h : Http) (key : Key) (val : Str) : Http :=
  { h with params := fun k => if k = key then some val else h.params k }

/-- `set(key, const char *)`: a null pointer leaves the field alone. -/
def setOpt (h : Http) (key : Key) (val : Option Str) : Http :=
  match val with
  | none => h
  | some v => h.set key v

def erase (h : Http) (key : Key) : Http :=
  { h with params := fun k => if k = key then none else h.params k }

end Http

/-! ## JSON -/

structure Json where
  array : OrdMap Str (List Str)
  value : OrdMap Str Str

namespace Json

def empty : Json := { array := OrdMap.empty, value := OrdMap.empty }

def quote (s : Str) : Str := str "\"" ++ s ++ str "\""

/-- `add_array`: a value that is not quoted yet is put in quotes. -/
def addArray (j : Json) (key val : Str) (quoted : Bool) : Json :=
  if key.isEmpty || val.isEmpty then j
  else
    let val := if quoted then val else quote val
    match j.array.find key with
    | none => { j with array := j.array.insert key [val] }
    | some _ => { j with array := j.array.update key (· ++ [val]) }

/-- `add_value`: `_value[key] = val`. -/
def addValue (j : Json) (key val : Str) : Json :=
  if key.isEmpty || val.isEmpty then j else { j with value := (j.value.erase key).insert key val }

/-- `serialize` of an object without nested hashes, which nothing builds. The last comma is
    taken off again. -/
def serialize (j : Json) : Str :=
  if j.array.entries.isEmpty && j.value.entries.isEmpty then []
  else
    let arrays := j.array.entries.flatMap fun p =>
      (if p.2.isEmpty then [] else (quote p.1 ++ str ":[" ++ p.2.flatMap (· ++ str ",")).dropLast ++ str "]") ++ str ","
    let values := j.value.entries.flatMap fun p => quote p.1 ++ str ":" ++ quote p.2 ++ str ","
    (str "\x7b" ++ arrays ++ values).dropLast ++ str "\x7d"

end Json

/-! ## Sessions -/

inductive AccessLevel where
  | vyattaCfg
  | vyattaOp
  | vyattaServiceUser
  deriving DecidableEq, Repr

inductive AuthType where
  | none
  | basic
  | vyattaSession
  deriving DecidableEq, Repr

structure Session where
  request : Http
  response : Http
  user : Str
  accessLevel : AccessLevel
  serviceUser : Bool
  authType : AuthType
  sessionKey : Str

/-- A session as it is constructed, with the headers `main` sets on every response. -/
def Session.new : Session where
  request := Http.empty
  response := ((Http.empty.set .respContentType (str "application/json")).set .respVyattaSpecificationVersion
    (str "0.3")).set .respCacheControl (str "no-cache")
  user := []
  accessLevel := .vyattaOp
  serviceUser := false
  authType := .none
  sessionKey := []

def Session.setResponse (s : Session) (key : Key) (val : Str) : Session :=
  { s with response := s.response.set key val }

/-! ## Error responses -/

inductive ErrorType where
  | ok
  | created
  | accepted
  | validationFailure
  | configurationError
  | appmodeScriptError
  | servicemodeScriptError
  | confmodeDupDescError
  | authorizationFailure
  | commandNotFound
  | opmodeProcessFinished
  | serverError
  | serverCommandError
  | entitlementError
  deriving DecidableEq, Repr

/-- Status, message and subcode. -/
def ErrorType.response : ErrorType → Str × Str × Str
  | .ok => (str "200", [], [])
  | .created => (str "201", [], [])
  | .accepted => (str "202", [], [])
  | .validationFailure => (str "400", str "Validation failure", str "0")
  | .configurationError => (str "400", [], [])
  | .appmodeScriptError => (str "400", [], [])
  | .servicemodeScriptError => (str "400", str "Service command error", str "1")
  | .confmodeDupDescError => (str "400", str "Duplicate configuration description", str "1")
  | .authorizationFailure => (str "401", str "Authorization failure", str "0")
  | .commandNotFound => (str "404", str "Command not found", str "0")
  | .opmodeProcessFinished => (str "410", [], [])
  | .serverError => (str "500", str "Server error", str "0")
  | .serverCommandError => (str "500", [], [])
  | .entitlementError => (str "503", str "Entitlement error", str "2")

/-- The constructor of `Error`: the body is left alone when there is nothing to say. -/
def Session.errorMsg (s : Session) (type : ErrorType) (msg : Str) : Session :=
  let (code, text, subcode) := type.response
  let json := (Json.empty.addValue (str "message") (if msg.isEmpty then text else text ++ str ": " ++ msg)).addValue
    (str "error") subcode
  let resp := json.serialize
  let s := if resp.isEmpty then s else s.setResponse .body resp
  s.setResponse .respCode code

def Session.error (s : Session) (type : ErrorType) : Session := s.errorMsg type []

end VyattaRest.Server
