/-
  VyattaRest.Server.Permissions — the permissions of a user as configd and opd report them
  (permissions.cc).

  An entry is `rule: path=permissions`, or `DEFAULT=permissions`. `mapToJson` skips the
  separator and the blank behind it without looking; VyattaRest.Server.OutOfRange says what follows.
-/

import VyattaRest.Server.Calls

namespace VyattaRest.Server

open VyattaRest.Lib VyattaRest.Rest

namespace Permissions

def atoi (s : Str) : Int := Int.bmod (strtol 10 s) (2 ^ 32)

/-- Rule number, path and permissions of an entry; `none` for one that is passed over. -/
def mapEntry (entry : Str) : Act (Option (Int × Str × Int)) := do
  match find (str "=") entry with
  | none => return none
  | some eq =>
    let key ← substrAt entry 0 eq
    let perm ← substrAt entry (eq + 1) (entry.length - eq)
    if key ≠ str "DEFAULT" then
      match find (str ":") key with
      | none => return none
      | some pos =>
        let rnum ← substrAt key 0 pos
        let path ← substrAt key (pos + 2) (entry.length - pos + 1)
        return some (atoi rnum, cstr path, atoi perm)
    else return some (10000, cstr key, atoi perm)

def mapToJson : List Str → Act (List (Int × Str × Int))
  | [] => return []
  | entry :: rest => do
    match ← mapEntry entry with
    | none => mapToJson rest
    | some obj => return obj :: (← mapToJson rest)

/-- The permissions of a daemon that cannot be reached are left out. -/
def confPerms : Act (List (Str × List (Int × Str × Int))) := do
  if !(← perform .configdOpen) then return []
  let perm ← perform .configdAuthGetperms
  perform .configdClose
  return [(str "conf", ← mapToJson perm)]

def opPerms : Act (List (Str × List (Int × Str × Int))) := do
  if !(← perform .opdOpen) then return []
  let perm ← perform .opdGetperms
  perform .opdClose
  return [(str "op", ← mapToJson perm)]

def process (s : Session) : Act Session := do
  if s.authType = .none then return s.error .authorizationFailure
  let path := s.request.get .reqUri
  if path.isEmpty then return s.error .validationFailure
  if path.length < permReqRoot.length then return s.error .validationFailure
  if s.request.get .reqMethod = str "GET" then
    let conf ← confPerms
    let op ← opPerms
    let resp ← perform (.jsonDumps (conf ++ op))
    return s.setResponse .body resp
  else return s.error .validationFailure

end Permissions

end VyattaRest.Server
