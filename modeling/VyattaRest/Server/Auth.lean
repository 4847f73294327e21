/-
  VyattaRest.Server.Auth — who is asking: `AuthBasic` (authbasic.cc), `AuthSession`
  (authsession.cc) and `Authenticate::validate` (authenticate.cc).

  Both back ends write user, access level and service flag into the session before they have
  decided, so a session that failed the check is not the session it was. `Lock` is one call
  here; VyattaRest.SessionLock takes it apart.
-/

import VyattaRest.Server.Calls
import VyattaRest.StrProc

namespace VyattaRest.Server

open VyattaRest.Lib VyattaRest.Rest

def authBasicName : Str := str "Basic"
def authVyattaSession : Str := str "Vyatta-Session"
def authVyattaPathLoc : Str := str "vyatta2_path_loc"
def pragmaNoVyattaSessionUpdate : Str := str "no-vyatta-session-update"
def pragmaServiceUser : Str := str "vyatta-service-user"
def sessionTimeout : Nat := 30 * 60

/-- The loop over a user's groups: membership of vyattacfg gives the access level. -/
def checkGroups : List Nat → Session → Nat → Act (Session × Nat)
  | [], s, primary => return (s, primary)
  | g :: gs, s, primary => do
    match ← perform (.getgrgid g) with
    | none => checkGroups gs s primary
    | some gr =>
      if gr.name = str "vyattacfg" then checkGroups gs { s with accessLevel := .vyattaCfg } gr.gid
      else checkGroups gs s primary

/-! ## Basic -/

namespace AuthBasic

def handle (auth : Str) : Bool := authBasicName.isPrefixOf auth

/-- Account and groups of a user of this machine: the credentials to take on later, or no
    such account. -/
def account (s : Session) : Act (Option (Passwd × Nat) × Session) := do
  match ← perform (.getpwnam s.user) with
  | none => return (none, s)
  | some pw =>
    match ← perform (.getgrouplist s.user pw.gid) with
    | none => return (none, s)
    | some groups =>
      let (s, primary) ← checkGroups groups s pw.gid
      if ← perform (.setgroups groups) then return (some (pw, primary), s) else return (none, s)

def pam (service user password : Str) : Act Bool := do
  if !(← perform (.pamStart service user password)) then return false
  if !(← perform .pamAuthenticate) then return false
  if !(← perform .pamAcctMgmt) then return false
  perform .pamEnd

/-- The process takes on the user's ids. -/
def become (pw : Passwd) (primary : Nat) : Act Bool := do
  if !(← perform (.setloginuid pw.uid)) then return false
  if !(← perform (.setegid primary)) then return false
  perform (.seteuid pw.uid)

def authorized (val : Str) (s : Session) : Act (Bool × Session) := do
  if val.length < authBasicName.length + 1 then return (false, s)
  let auth ← substrFrom val (authBasicName.length + 1)
  if auth.isEmpty then return (false, s)
  let (out, len) ← perform (.base64Decode auth)
  let out := cstr out
  match find (str ":") out with
  | none => return (false, s)
  | some pos =>
    let username ← substrAt out 0 pos
    let password ← substrAt out (pos + 1) ((len - pos - 1) % 2 ^ 64).toNat
    let s := { s with user := username }
    if serviceReqRoot.isPrefixOf (s.request.get .reqUri) || contains (s.request.get .reqPragma) pragmaServiceUser then
      let s := { s with serviceUser := true, accessLevel := .vyattaServiceUser }
      if !(← pam (str "vyatta-service-users.conf") username password) then return (false, s)
      return (true, { s with authType := .basic })
    else
      match ← account s with
      | (none, s) => return (false, s)
      | (some (pw, primary), s) =>
        if !(← pam (str "login") username password) then return (false, s)
        if !(← become pw primary) then return (false, s)
        return (true, { s with authType := .basic })

end AuthBasic

/-! ## Vyatta-Session -/

namespace AuthSession

def handle (auth : Str) : Bool := contains auth authVyattaPathLoc || authVyattaSession.isPrefixOf auth

/-- Sixteen bytes after a marker and the separator behind it. -/
def keyAfter (val marker : Str) : Act Str :=
  match find marker val with
  | none => return []
  | some pos => substrAt val (pos + marker.length + 1) 16

/-- The locals of the loop over the session file. -/
structure Scan where
  session : Session
  found : Bool
  pw : Option Passwd
  groups : List Nat

/-- Account and groups of the user of a matching record. -/
def account (st : Scan) : Act (Option Scan × Session) := do
  let s := st.session
  match ← perform (.getpwnam s.user) with
  | none => return (none, s)
  | some pw =>
    match ← perform (.getgrouplist s.user pw.gid) with
    | none => return (none, s)
    | some groups =>
      let (s, _) ← checkGroups groups s pw.gid
      return (some { st with session := s, pw := some pw, groups := groups }, s)

/-- The record written back for a matching one. -/
def updatedRecord (fields : List Str) (time : Nat) : Str :=
  StrProc.get fields 0 ++ str "," ++ StrProc.get fields 1 ++ str "," ++ ld (UInt64.ofNat time) ++ str "," ++
    StrProc.get fields 3 ++ str "," ++ StrProc.get fields 4 ++ str "\n"

/-- The session a matching record makes of it. -/
def matched (fields : List Str) (s : Session) : Session :=
  let s := { s with user := StrProc.get fields 1, sessionKey := StrProc.get fields 0 }
  if StrProc.get fields 4 = str "service-user" then { s with accessLevel := .vyattaServiceUser, serviceUser := true } else s

/-- The loop: expired records are dropped, others written back. `inl` is a `return false`
    from inside it. -/
def scan (auth : Str) (now : Nat) : List Str → Scan → Act (Session ⊕ Scan)
  | [], st => return .inr st
  | buf :: lines, st => do
    let fields := strProc (cstr buf) (str ",")
    let sessionTime := strtoul 10 (StrProc.get fields 2)
    if addSz sessionTime sessionTimeout ≤ now then scan auth now lines st
    else if StrProc.get fields 0 ≠ auth then
      if ← perform (.fputsSession (cstr buf)) then scan auth now lines st else return .inr st
    else
      let st := { st with session := matched fields st.session }
      match ← (if st.session.serviceUser then pure (some st, st.session) else account st) with
      | (none, s) => return .inl s
      | (some st, s) =>
        let time := if contains (s.request.get .reqPragma) pragmaNoVyattaSessionUpdate then sessionTime else now
        if ← perform (.fputsSession (updatedRecord fields time)) then
          scan auth now lines { st with session := { s with authType := .vyattaSession }, found := true }
        else scan auth now lines st

/-- The process takes on the ids of the record's user. -/
def become (pw : Passwd) (groups : List Nat) : Act Bool := do
  if !(← perform (.setloginuid pw.uid)) then return false
  if !(← perform (.setgroups groups)) then return false
  if !(← perform (.setegid pw.gid)) then return false
  perform (.seteuid pw.uid)

/-- What happens between taking the lock and letting it go. -/
def underLock (auth : Str) (s : Session) : Act (Bool × Session) := do
  let now ← perform .gettimeofday
  let lines ← perform .sessionLines
  match ← scan auth now lines { session := s, found := false, pw := none, groups := [] } with
  | .inl s => return (false, s)
  | .inr st =>
    if st.found && !st.session.serviceUser then
      match st.pw with
      -- not reached: a record that was found without the service flag left its account
      | none => return (false, st.session)
      | some pw => return (← become pw st.groups, st.session)
    else return (st.found, st.session)

def authorized (val : Str) (s : Session) : Act (Bool × Session) := do
  if val.length < authVyattaSession.length + 1 ∨ val.length < authVyattaPathLoc.length + 1 then return (false, s)
  let key ← keyAfter val authVyattaPathLoc
  let auth ← keyAfter val authVyattaSession
  if auth.isEmpty && key.isEmpty then return (false, s)
  let auth := if auth.isEmpty then key else auth
  if ← perform .lock then
    let r ← underLock auth s
    perform .unlock
    return r
  else
    perform .unlock
    return (false, s)

end AuthSession

/-- `Authenticate::validate`: the cookie stands in for a missing header, and the first back
    end that knows the scheme decides. -/
def validate (s : Session) : Act (Bool × Session) := do
  let auth := s.request.get .reqAuthorization
  let cookie := s.request.get .reqCookie
  if auth.isEmpty && cookie.isEmpty then return (false, s)
  let auth := if auth.isEmpty then cookie else auth
  if AuthBasic.handle auth then AuthBasic.authorized auth s
  else if AuthSession.handle auth then AuthSession.authorized auth s
  else return (false, s)

end VyattaRest.Server
