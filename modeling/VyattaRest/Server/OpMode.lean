/-
  VyattaRest.Server.OpMode — operational mode (opmode.cc) and the server's side of the
  chunker's socket (`MultiResponseCommand`, multirespcmd.cc).

  A command is handed to the chunker and goes on in the background; later requests name it by
  its token. Which messages the chunker answers, and to whom, is in VyattaRest.Chunker.
-/

import VyattaRest.Server.Configuration
import VyattaRest.Chunker.Wire
import VyattaRest.Chunker.Response

namespace VyattaRest.Server

open VyattaRest.Lib VyattaRest.Rest VyattaRest.Chunker

/-! ## The chunker's socket -/

namespace MultiResponseCommand

def init : Act Bool := perform .connect

/-- A message is formatted into 1024 bytes; one that does not fit has overrun the stack, and
    nothing is said of what comes after. -/
def write (m : Str) : Act Bool := if m.length < 1024 then perform (.send m) else Prog.throw

def start (user cmd : Str) : Act Str := do
  let tok ← perform .generateToken
  match request .command tok cmd user with
  | none => return []
  | some m => if ← write m then return tok else return []

/-- A request and the reply to it. -/
def ask (k : Kind) (tok user : Str) : Act (Option Str) := do
  match request k tok [] user with
  | none => return none
  | some m => if ← write m then perform .recv else return none

def processDetails (user id : Str) : Act (Option Listed) := do
  match ← ask .details id user with
  | none => return none
  | some reply => return getProcessDetails user id reply

def processes (user : Str) : Act (List Listed) := do
  match ← ask .process [] user with
  | none => return []
  | some reply => return getProcesses user reply

/-- The end of `get_chunk`: the chunk at the offset, or `END` when the data file is not to be
    read and the end marker is there. -/
def readChunk (token : Str) (pos : Int) : Act Str := do
  let found ← perform (.lstat (chunkFile token))
  if found.any (·.2) ∧ 0 ≤ pos then
    let chunk ← perform (.fread (chunkFile token) pos.toNat)
    return chunk.getD []
  else if (← perform (.lstat (endFile token))).isSome then
    let _ ← perform (.unlink (endFile token))
    let _ ← perform (.unlink (chunkFile token))
    return str "END"
  else return []

/-- `get_chunk` behind the offset. Whether `strtol` failed is read off `errno`, which an earlier
    call may have left at `EINVAL`. -/
def chunkFrom (token : Str) (pos : Int) : Act Str := do
  if pos = 0 then
    if (← perform .errno) = einval then return []
    else readChunk token pos
  else readChunk token pos

/-- `get_chunk`: the offset is in the reply. -/
def getChunk (user token : Str) : Act Str := do
  match (← ask .next token user).bind (chunkPos user token) with
  | none => return []
  | some pos => chunkFrom token pos

def kill (user tok : Str) : Act Unit := do
  match request .delete tok [] user with
  | none => return
  | some m =>
    let _ ← write m
    return

end MultiResponseCommand

/-! ## The mode -/

namespace OpMode

def post (s : Session) (path : Str) : Act Session := do
  if path.length ≤ opReqRoot.length then return s.error .validationFailure
  let cmd ← substrFrom path (opReqRoot.length + 1)
  let cmd := translateRestToCli cmd
  if !(← MultiResponseCommand.init) then return s.error .serverError
  let id ← MultiResponseCommand.start s.user cmd
  if id.isEmpty then return s.error .serverError
  return (s.setResponse .respLocation (str "rest/op/" ++ id)).error .created

/-- A row of the listing. `get_processes` leaves `_last_update` as it finds it. -/
def listingRow (pd : Listed) : Act Str := do
  let lastUpdate ← perform .uninitialized
  return str "\x7b\"username\":\"" ++ pd.username ++ str "\"," ++
    str "\"started\":\"" ++ ld (UInt64.ofNat pd.startTime) ++ str "\"," ++
    str "\"updated\":\"" ++ ld (UInt64.ofNat lastUpdate) ++ str "\"," ++
    str "\"id\":\"" ++ pd.id ++ str "\"," ++ str "\"command\":\"" ++ pd.command ++ str "\"\x7d"

def getListing (s : Session) : Act Session := do
  if !(← MultiResponseCommand.init) then return s.error .serverError
  let coll ← MultiResponseCommand.processes s.user
  let rows ← coll.mapM listingRow
  let json := rows.foldl (fun j row => j.addArray (str "process") row true) Json.empty
  return s.setResponse .body json.serialize

/-- `validate_op_cmd`: the path of an operational command, if it is one. -/
def validateOpCmd (cmd : Str) : Act (Option Str) := do
  let pfxLen := (str "/rest/op/").length
  if cmd.length < pfxLen then return none
  if !(← perform .opdOpen) then return none
  let tmp ← substrFrom cmd pfxLen
  let known ← perform (.opdExpand (cstr tmp))
  perform .opdClose
  return if known then some tmp else none

def getNode (s : Session) (opPath : Str) : Act Session :=
  Configuration.withConnections do
    let p ← Configuration.getOperationalNode opPath {}
    let j := (Json.empty.addValue (str "help") p.help).addValue (str "action") (if p.action then str "true" else str "false")
    let j := p.childrenColl.foldl (fun j np => j.addArray (str "children") np.name false) j
    let j := p.enum.toList.foldl (fun j e => j.addArray (str "enum") e false) j
    return s.setResponse .body j.serialize

def lastSegment (path : Str) : Str := (path.reverse.takeWhile (· ≠ 47)).reverse

/-- The next segment of a background process. -/
def getSegment (s : Session) (path : Str) : Act Session := do
  if 47 ∉ path then return s
  let id := lastSegment path
  if id.length ≠ 16 then return s.error .validationFailure
  if !(← MultiResponseCommand.init) then return s.error .serverError
  match ← MultiResponseCommand.processDetails s.user id with
  | none => return s.error .opmodeProcessFinished
  | some pd =>
    if pd.id.isEmpty then return s.error .opmodeProcessFinished
    if !(← MultiResponseCommand.init) then return s.error .serverError
    let out ← MultiResponseCommand.getChunk s.user id
    if out = str "END" then
      if !(← MultiResponseCommand.init) then return s.error .serverError
      MultiResponseCommand.kill s.user id
      return s.error .opmodeProcessFinished
    else if out.isEmpty then return s.error .accepted
    else
      let s := (s.setResponse .respContentType (str "text/plain")).setResponse .body out
      return { s with response := { s.response with verbatimBody := true } }.error .ok

def get (s : Session) (path : Str) : Act Session := do
  if path = opReqRoot then getListing s
  else
    match ← validateOpCmd path with
    | some opPath => getNode s opPath
    | none => getSegment s path

def delete (s : Session) (path : Str) : Act Session := do
  let id := lastSegment path
  if id.length < 16 then return s.error .validationFailure
  if !(← MultiResponseCommand.init) then return s.error .serverError
  MultiResponseCommand.kill s.user id
  return s.setResponse .body (Json.empty.addValue (str "message") (str " ")).serialize

def process (s : Session) : Act Session := do
  if s.authType = .none then return s.error .authorizationFailure
  let path := s.request.get .reqUri
  if path.isEmpty then return s.error .validationFailure
  if path.length < opReqRoot.length then return s.error .validationFailure
  let method := s.request.get .reqMethod
  if method = str "POST" then post s path
  else if method = str "GET" then get s path
  else if method = str "DELETE" then delete s path
  else return s.error .validationFailure

end OpMode

end VyattaRest.Server
