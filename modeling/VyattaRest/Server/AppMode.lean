/-
  VyattaRest.Server.AppMode — the modes that run a script: application mode (appmode.cc) and
  service mode (servicemode.cc), with the reading of a script's output (mode.cc).
-/

import VyattaRest.Server.Configuration

namespace VyattaRest.Server

open VyattaRest.Lib VyattaRest.Rest

def jsonInput : Str := str "/tmp/json_input"

/-! ## Output of a script -/

namespace Mode

def toLower (b : UInt8) : UInt8 := if 65 ≤ b && b ≤ 90 then b + 32 else b

/-- `strncasecmp` of a whole name against the head of a line. -/
def startsWithIgnoringCase (name line : Str) : Bool := (line.take name.length).map toLower == name.map toLower

/-- A header line of the output overrides a field of the response. -/
def override (line : Str) (response : Http) : Http :=
  if startsWithIgnoringCase (str "Content-Type:") line then
    if 14 < line.length then
      { response.set .respContentType (cstr (line.drop 14)) with verbatimBody := true }
    else response
  else if startsWithIgnoringCase (str "Set-Cookie:") line then
    if 12 < line.length then response.set .respCookie (cstr (line.drop 12)) else response
  else if startsWithIgnoringCase (str "Cache-Control:") line then
    if 14 < line.length then
      let cacheControl := cstr (line.drop 14)
      if contains cacheControl (str "vyatta-disable") then response.erase .respCacheControl
      else response.set .respCacheControl cacheControl
    else response
  else if startsWithIgnoringCase (str "Content-Disposition:") line then
    if 20 < line.length then response.set .respContentDisposition (cstr (line.drop 20)) else response
  else response

/-- `handle_cmd_output`: what stands before the first CR LF LF is read as header lines. -/
def handleCmdOutput (cmdout : Str) (s : Session) : Session :=
  match find (str "\x0d\n\n") cmdout with
  | none => s.setResponse .body cmdout
  | some pos =>
    let response := (strProc (cmdout.take pos) (str "\n")).foldl (fun r line => override line r) s.response
    { s with response := response.set .body (cmdout.drop (pos + 3)) }

/-- An `export` of a variable that is set only when there is something to say. -/
def exportNonempty (name val : Str) : Str :=
  if val.isEmpty then [] else str "export " ++ name ++ str "=" ++ val ++ str ";"

/-- Both modes write the body to a file, run a script with it and remove the file. -/
def runScript (s : Session) (cmd : Str) (failure : ErrorType) : Act Session := do
  if !(← perform (.fputs jsonInput (s.request.get .body))) then return s.error .serverError
  let (err, stdout) ← perform (.systemOut (cstr cmd))
  let s := if err ≠ 0 then s.error failure else s
  let _ ← perform (.unlink jsonInput)
  return handleCmdOutput stdout s

end Mode

/-! ## Application mode -/

def AppMode.process (s : Session) : Act Session := do
  if s.authType = .none then return s.error .authorizationFailure
  let path := s.request.get .reqUri
  if path.isEmpty then return s.error .validationFailure
  let command ← substrFrom path appReqRoot.length
  if command.isEmpty then return s.error .validationFailure
  let environment := str "export REQUEST_METHOD=" ++ s.request.get .reqMethod ++ str ";export COMMIT_VIA=gui2_app;" ++
    Mode.exportNonempty (str "SESSION") s.sessionKey ++ Mode.exportNonempty (str "USERNAME") s.user
  Mode.runScript s (str "/bin/bash -p -c '" ++ environment ++
    str "umask 000; source /usr/lib/cgi-bin/vyatta-app;_vyatta_app_run " ++ command ++ str " < " ++ jsonInput ++
    str "'") .appmodeScriptError

/-! ## Service mode -/

namespace ServiceMode

/-- The loop of `service_index`. A child whose template is not found is tried again; a
    request that still tries when `fuel` is used up ends there. -/
def serviceRows : Nat → List NodeParams → Json → Act Json
  | _, [], json => return json
  | 0, _ :: _, _ => Prog.throw
  | fuel + 1, np :: rest, json => do
    match ← Configuration.getTemplateNode (serviceCommandDir ++ str "/" ++ np.name) {} with
    | none => serviceRows fuel (np :: rest) json
    | some p =>
      let service := str "\x7b\"id\":\"" ++ np.name ++ str "\",\"description\":\"" ++ p.help ++ str "\"\x7d"
      serviceRows fuel rest (json.addArray (str "services") service true)

def serviceIndex (fuel : Nat) (s : Session) : Act Session :=
  Configuration.withConnections do
    let params ← Configuration.getOperationalNode serviceCommandDir {}
    let json ← serviceRows fuel params.childrenColl Json.empty
    return s.setResponse .body json.serialize

/-- The walk of `validate_service_cmd` down the template tree. -/
def walk : List Str → Str → Act Str
  | [], path => return path
  | e :: rest, path => do
    if (← perform (.stat (cstr (path ++ str "/" ++ e)))).isSome then walk rest (path ++ str "/" ++ e)
    else if (← perform (.stat (cstr (path ++ str "/node.tag")))).isSome then walk rest (path ++ str "/node.tag")
    else return []

def validateServiceCmd (cmd : Str) : Act Str := do
  if cmd.length ≤ serviceReqRoot.length then return []
  let tmp ← substrFrom cmd serviceReqRoot.length
  walk (strProc tmp (str "/")) serviceCommandDir

def executeService (s : Session) (path : Str) : Act Session := do
  let command ← substrFrom path serviceReqRoot.length
  if command.isEmpty then return s.error .validationFailure
  let environment := str "export REQUEST_METHOD=" ++ s.request.get .reqMethod ++ str ";" ++
    Mode.exportNonempty (str "SESSION") s.sessionKey ++ Mode.exportNonempty (str "VYATTA_SESSION_USERNAME") s.user ++
    str "export VYATTA_ACCESS_LEVEL=service-user;"
  Mode.runScript s (str "/bin/bash -p -c '" ++ environment ++
    str "umask 000; source /usr/lib/cgi-bin/vyatta-service;_vyatta_service_run " ++ command ++ str " < " ++ jsonInput ++
    str "'") .servicemodeScriptError

def process (fuel : Nat) (s : Session) : Act Session := do
  if s.authType = .none then return s.error .authorizationFailure
  let path := s.request.get .reqUri
  if path.isEmpty then return s.error .validationFailure
  let method := s.request.get .reqMethod
  if method = str "GET" ∧ path = serviceReqRoot then serviceIndex fuel s
  else if method = str "GET" then
    if (← validateServiceCmd path).isEmpty then return s.error .validationFailure
    executeService s path
  else return s.error .validationFailure

end ServiceMode

end VyattaRest.Server
