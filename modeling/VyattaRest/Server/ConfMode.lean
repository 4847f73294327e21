/-
  VyattaRest.Server.ConfMode — configuration mode (confmode.cc), with the files that name the
  owner of a configuration session (`create_conf_modify_file` and its readers, common.cc).

  A request addresses a session by id or by description. `lookup` is the head of
  `ConfMode::process`: it leaves behind the id, the description and the owner that the two
  readers found, and every method compares that owner with the user of the request.
-/

import VyattaRest.Server.Configuration

namespace VyattaRest.Server

open VyattaRest.Lib VyattaRest.Rest

/-! ## The owner files -/

def vyattaModifyFile : Str := configTmpDir ++ str ".vyattamodify_"

/-- `create_conf_modify_file`: a file that cannot be written stays behind, empty. -/
def createConfModifyFile (id user description : Str) : Act Bool := do
  if !(← perform (.fopenWrite (vyattaModifyFile ++ id))) then return false
  perform (.fputs (vyattaModifyFile ++ id) (cstr (user ++ str "/" ++ description)))

/-- `read_conf_modify_file`: whether it succeeded, and owner and description as they are
    then. An error in `fgets` is a success that changes neither. -/
def readConfModifyFile (id user description : Str) : Act (Bool × Str × Str) := do
  match ← perform (.fgets (vyattaModifyFile ++ id)) with
  | none => return (false, user, description)
  | some none => return (true, user, description)
  | some (some buf) =>
    let buf := cstr buf
    match find (str "/") buf with
    | none => return (false, user, description)
    | some pos => return (true, ← substrAt buf 0 pos, ← substrFrom buf (pos + 1))

/-- The loop of `read_conf_modify_file_from_tag`: any file with a long enough name gives an
    id to try. -/
def findTag (tag user : Str) : List Str → Act (Option Str)
  | [] => return none
  | name :: names => do
    if name.length < 22 then findTag tag user names
    else
      let fId ← substrFrom name 14
      let (_, fUser, fTag) ← readConfModifyFile fId [] []
      if fTag ≠ [] ∧ tag = fTag ∧ fUser = user then return some fId else findTag tag user names

def readConfModifyFileFromTag (tag user : Str) : Act (Option Str) := do
  match ← perform (.readdir configTmpDir) with
  | none => return none
  | some names => findTag tag user names

/-- `Rest::execute` with its output read: the output so far, extended, and the exit
    status. A command that `popen` cannot start counts as a success. -/
def execute (cmd stdout : Str) : Act (Int × Str) := do
  match ← perform (.popen (cstr cmd)) with
  | none => return (0, stdout)
  | some (lines, status) => return (status, stdout ++ lines.flatMap fun l => cstr l ++ str " ")

namespace ConfMode

/-! ## The environment of a command -/

/-- `_shell_env`. -/
def shellEnv : List (Str × Str) :=
  [(str "VYATTA_TEMPLATE_LEVEL", str "/"),
   (str "VYATTA_MOD_NAME", str ".modified"),
   (str "vyatta_datadir", str "/opt/vyatta/share"),
   (str "vyatta_sysconfdir", str "/opt/vyatta/etc"),
   (str "vyatta_sharedstatedir", str "/opt/vyatta/com"),
   (str "VYATTA_TAG_NAME", str "node.tag"),
   (str "vyatta_sbindir", str "/opt/vyatta/sbin"),
   (str "VYATTA_CFG_GROUP_NAME", str "vyattacfg"),
   (str "vyatta_bindir", str "/opt/vyatta/bin"),
   (str "vyatta_libdir", str "/opt/vyatta/lib"),
   (str "VYATTA_EDIT_LEVEL", str "/"),
   (str "vyatta_libexecdir", str "/opt/vyatta/libexec"),
   (str "vyatta_localstatedir", str "/opt/vyatta/var"),
   (str "vyatta_prefix", str "/opt/vyatta"),
   (str "vyatta_datarootdir", str "/opt/vyatta/share"),
   (str "vyatta_configdir", str "/opt/vyatta/config"),
   (str "UNIONFS", str "unionfs"),
   (str "vyatta_infodir", str "/opt/vyatta/share/info"),
   (str "PATH", str "/usr/local/sbin:/usr/local/bin:/usr/sbin:/usr/bin:/sbin:/bin"),
   (str "COMMIT_VIA", str "gui2_rest"),
   (str "VYATTA_OUTPUT_ERROR_LOCATION", str "TRUE"),
   (str "vyatta_localedir", str "/opt/vyatta/share/locale")]

def exports (convconfid : Str) : List (Str × Str) :=
  shellEnv ++
  [(str "VYATTA_ACTIVE_CONFIGURATION_DIR", str "/active"),
   (str "VYATTA_CONFIG_TMP", str "/session/" ++ convconfid ++ configTmpDir),
   (str "VYATTA_CHANGES_ONLY_DIR", str "/session/" ++ convconfid ++ localChangesOnly),
   (str "vyatta_cfg_templates", confCommandDir),
   (str "VYATTA_CONFIG_TEMPLATE", confCommandDir),
   (str "VYATTA_TEMP_CONFIG_DIR", str "/session/" ++ convconfid ++ localConfigDir),
   (str "VYATTA_CONFIG_SID", convconfid)]

/-- The text in front of every command: `export NAME=value;`, the last one without `;`. -/
def environment (convconfid : Str) : Str :=
  (str ";").intercalate ((exports convconfid).map fun p => str "export " ++ p.1 ++ str "=" ++ p.2)

/-! ## Sessions of configd -/

def setupSession (sid : Str) : Act Bool := do
  if !(← perform .configdOpen) then return false
  perform (.configdSetSessionId sid)
  let result ← perform .configdSessSetup
  perform .configdClose
  return result

def discardSession (id : Str) (exitSession : Bool) : Act Unit := do
  if id.isEmpty then return
  if !(← perform .configdOpen) then return
  perform (.configdSetSessionId (Configuration.convConfId id))
  let _ ← perform .configdDiscard
  if exitSession then
    let _ ← perform .configdSessTeardown
  perform .configdClose
  if exitSession then
    let _ ← perform (.unlink (vyattaModifyFile ++ id))

def isConfigdSessChanged (sid : Str) : Act Bool := do
  if !(← perform .configdOpen) then return false
  perform (.configdSetSessionId sid)
  let result ← perform .configdSessChanged
  perform .configdClose
  return result

/-! ## The addressed session -/

/-- What the head of `process` leaves behind. -/
structure Target where
  confPathWithId : Str
  id : Str
  tag : Str
  user : Str

/-- The id is looked up as it is, then as a description; `none` ends the request. A POST
    that finds no such id goes on, with the id as its description. -/
def lookup (path method user : Str) : Act (Option Target) := do
  if path.length ≤ confReqRoot.length then return some { confPathWithId := [], id := [], tag := [], user }
  else
    let confPathWithId ← substrFrom path confReqRoot.length
    let rest ← substrFrom confPathWithId 1
    let id ← substrAt confPathWithId 1 ((find (str "/") rest).getD npos)
    match ← readConfModifyFile id user [] with
    | (true, user, tag) => return some { confPathWithId, id, tag, user }
    | (false, user, _) =>
      if method = str "POST" then return some { confPathWithId, id, tag := id, user }
      else
        match ← readConfModifyFileFromTag id user with
        | none => return none
        | some fId => return some { confPathWithId, id := fId, tag := id, user }

/-- The path behind the id: `pos + 2` of a missing `/` wraps to 1. -/
def pathAfterId (confPathWithId : Str) : Act Str := do
  let rest ← substrFrom confPathWithId 1
  match find (str "/") rest with
  | none => substrFrom confPathWithId 1
  | some pos => substrFrom confPathWithId (pos + 2)

/-! ## GET -/

/-- A member of a JSON object, without the braces. -/
def member (key val : Str) : Str := Json.quote key ++ str ":" ++ Json.quote val

def object (members : List (Str × Str)) : Str :=
  str "\x7b" ++ (str ",").intercalate (members.map fun p => member p.1 p.2) ++ str "\x7d"

/-- The row of a session in the listing; a file that is not the user's is passed over. -/
def listingRow (user name : Str) : Act (Option Str) := do
  if name.length < 22 then return none
  let id ← substrFrom name 14
  if !(str ".vyattamodify_").isPrefixOf name then return none
  match ← readConfModifyFile id [] [] with
  | (false, _, _) => return none
  | (true, confUser, description) =>
    if confUser ≠ user then return none
    let times ← perform (.stat (configTmpDir ++ name))
    let started := match times with
      | none => str "0"
      | some t => ld (UInt64.ofNat t.1)
    let updated := match times with
      | none => str "0"
      | some t => ld (UInt64.ofNat t.2)
    let changed ← isConfigdSessChanged (Configuration.convConfId id)
    return some (object [(str "id", id), (str "username", user), (str "description", description),
      (str "started", started), (str "modified", if changed then str "true" else str "false"), (str "updated", updated)])

def listingRows (user : Str) : List Str → Act (List Str)
  | [] => return []
  | name :: names => do
    match ← listingRow user name with
    | none => listingRows user names
    | some row => return row :: (← listingRows user names)

def getListing (s : Session) : Act Session := do
  match ← perform (.readdir configTmpDir) with
  | none => return s.error .serverError
  | some names =>
    let rows ← listingRows s.user names
    let json := rows.foldl (fun j row => j.addArray (str "session") row true)
      (Json.empty.addValue (str "message") (str " "))
    return s.setResponse .body json.serialize

/-- A line of `val_help`, `type:vals;help`: the type and the values stand before the first
    `;`, the help from two bytes behind it. -/
def valHelpRow (l : Str) : Act (Option Str) := do
  match find (str ";") l with
  | none => return none
  | some pos1 =>
    let help ← substrAt l (pos1 + 2) (subSz l.length 3)
    let help := massReplace (massReplace help (str "\"") (str "\\\"")) (str "\n") []
    let desc ← substrAt l 0 pos1
    match find (str ":") desc with
    | none => return some (object [(str "type", desc), (str "vals", str " "), (str "help", help)])
    | some pos2 =>
      let type ← substrAt desc 0 pos2
      let val ← substrAt desc (pos2 + 1) (subSz desc.length 2)
      return some (object [(str "type", type), (str "vals", val), (str "help", help)])

def valHelpRows : List Str → Act (List Str)
  | [] => return []
  | l :: ls => do
    if l.isEmpty then valHelpRows ls
    else
      match ← valHelpRow l with
      | none => valHelpRows ls
      | some row => return row :: (← valHelpRows ls)

def stateName : ConfState → Str
  | .none => str "none"
  | .active => str "active"
  | .set => str "set"
  | .delete => str "delete"

def disableStateName : DisableState → Str
  | .enable => str "enable"
  | .enableLocal => str "enable-local"
  | .disable => str "disable"
  | .disableLocal => str "disable-local"

def childRow (np : NodeParams) : Str :=
  object [(str "name", np.name), (str "state", stateName np.state),
    (str "deactivate_state", disableStateName np.disabledState)]

/-- A flag of a node is shown when it is set. -/
def addFlag (j : Json) (key : Str) (flag : Bool) : Json := if flag then j.addValue key (str "true") else j

def nodeJson (p : TemplateParams) : Act Json := do
  let j := (Json.empty.addValue (str "help") p.help).addArray (str "type") p.type.name false
  let j := if p.type2.name ≠ str "none" then j.addArray (str "type") p.type2.name false else j
  let j := if p.default ≠ str "\n" then j.addValue (str "default") p.default else j
  let j := j.addValue (str "comp_help") (Configuration.urlEscape (massReplace p.compHelp (str "\"") (str "\\\"")))
  let rows ← valHelpRows p.valHelp.toList
  let j := rows.foldl (fun j row => j.addArray (str "val_help") row true) j
  let j := addFlag (j.addValue (str "allowed") p.allowed) (str "multi") p.multi
  let j := if 0 < p.multiLimit then j.addValue (str "multi_limit") (ld (UInt64.ofNat p.multiLimit)) else j
  let j := addFlag (addFlag (addFlag (addFlag j (str "end") p.isEnd) (str "action") p.action) (str "mandatory")
    p.mandatory) (str "secret") p.secret
  let j := ((j.addValue (str "name") p.data.name).addValue (str "state") (stateName p.data.state)).addValue
    (str "is_changed") p.data.isChanged
  let j := j.addValue (str "deactivate_state") (disableStateName p.data.disabledState)
  let j := p.childrenColl.foldl (fun j np => j.addArray (str "children") (childRow np) true) j
  return p.enum.toList.foldl (fun j e => j.addArray (str "enum") e (contains e (str "\""))) j

def getNode (s : Session) (t : Target) : Act Session := do
  if t.user ≠ s.user then return s.error .validationFailure
  let path ← pathAfterId t.confPathWithId
  let path := if path.head? = some 32 then path.drop 1 else path
  Configuration.withConnections do
    match ← Configuration.getConfiguredNode path t.id with
    | none => return s.error .commandNotFound
    | some p =>
      let json ← nodeJson p
      return s.setResponse .body json.serialize

/-! ## PUT -/

/-- The command line of a PUT: a `;` ends it unless it is a set, delete or comment. `none`
    for a command that is not known. -/
def putCommand (confPath : Str) : Option Str :=
  let cmd := translateRestToCli confPath
  let isEdit (cmd : Str) : Bool :=
    (str "set").isPrefixOf cmd || (str "delete").isPrefixOf cmd || (str "comment").isPrefixOf cmd
  let cmd := match find (str ";") cmd with
    | none => cmd
    | some pos => if isEdit cmd then cmd else cmd.take pos
  if isEdit cmd then some (str "/usr/bin/cfgcli -print " ++ cmd)
  else if (str "activate").isPrefixOf cmd || (str "deactivate").isPrefixOf cmd then
    some (str "/opt/vyatta/sbin/vyatta-activate-config.pl " ++ cmd)
  else none

def put (s : Session) (t : Target) : Act Session := do
  if t.user ≠ s.user then return s.error .authorizationFailure
  if t.confPathWithId.isEmpty then return s.error .validationFailure
  let rest ← substrFrom t.confPathWithId 1
  match find (str "/") rest with
  | none => return s.error .validationFailure
  | some pos =>
    if t.confPathWithId.length < 2 then return s.error .validationFailure
    let confPath ← substrFrom t.confPathWithId (pos + 2)
    match putCommand confPath with
    | none => return s.error .commandNotFound
    | some cmd =>
      let command := environment (Configuration.convConfId t.id) ++ str ";" ++ cmd ++ str " 2>&1"
      let (status, stdout) ← execute command []
      if status ≠ 0 then
        return s.errorMsg .configurationError
          (massReplace (massReplace stdout (str "\"") (str "\\\"")) (str "\n") (str "\\n"))
      return s

/-! ## DELETE -/

def delete (s : Session) (t : Target) : Act Session := do
  if t.user ≠ s.user then return s.error .validationFailure
  discardSession t.id true
  return s.setResponse .body (Json.empty.addValue (str "message") (str " ")).serialize

/-! ## POST -/

/-- The description of a new session is the text behind the root. -/
def newDescription (confPathWithId : Str) : Act Str :=
  if confPathWithId = [] then return [] else substrFrom confPathWithId 1

def knownDescription (description user : Str) : Act (Option Str) :=
  if description = [] then return none else readConfModifyFileFromTag description user

def create (s : Session) (t : Target) : Act Session := do
  let description ← newDescription t.confPathWithId
  let known ← knownDescription description t.user
  if known.isSome then return s.error .confmodeDupDescError
  let id ← perform .generateToken
  if id.length < 16 then return s.error .validationFailure
  let _ ← setupSession (Configuration.convConfId id)
  if !(← createConfModifyFile id s.user description) then return s.error .serverError
  return (s.setResponse .respLocation (str "rest/conf/" ++ id)).error .created

/-- `conv_url`. -/
def convUrl (s : Str) : Str := unescape s

/-- An action that is run by the shell: the program, and the text behind the name of the
    action as one quoted argument, with spaces for `/`. The arguments of save, load and merge
    are decoded together with the quotes around them, those of show are not. -/
structure ShellAction where
  name : Str
  /-- The least length of an action of this name. -/
  least : Nat
  program : Str
  suffix : Str
  decoded : Bool

namespace ShellAction

def save : ShellAction where
  name := str "save"
  least := 5
  program := str "umask 0002 ; /opt/vyatta/sbin/vyatta-save-config.pl"
  suffix := str " --no-defaults"
  decoded := true

def merge : ShellAction where
  name := str "merge"
  least := 5
  program := str "/opt/vyatta/sbin/vyatta-load-config.pl --merge"
  suffix := []
  decoded := true

def load : ShellAction where
  name := str "load"
  least := 4
  program := str "/opt/vyatta/sbin/vyatta-load-config.pl"
  suffix := []
  decoded := true

def showAll : ShellAction where
  name := str "show-all"
  least := 8
  program := str "/bin/cli-shell-api showConfig --show-show-defaults"
  suffix := []
  decoded := false

def showConfig : ShellAction where
  name := str "show"
  least := 4
  program := str "/bin/cli-shell-api showConfig"
  suffix := []
  decoded := false

def line (a : ShellAction) (arg : Str) : Str :=
  let tmp := a.program ++ str " '" ++ massReplace arg (str "/") (str " ") ++ str "'" ++ a.suffix
  if a.decoded then convUrl tmp else tmp

/-- The argument starts one byte behind the name, whatever that byte is. -/
def command (a : ShellAction) (action : Str) : Act Str := do
  let len := action.length
  let n := a.name.length
  if len ≤ n then return a.program
  return a.line (← substrAt action (n + 1) (len - (n + 1)))

/-- In the order they are tried. -/
def all : List ShellAction := [save, merge, load, showAll, showConfig]

def find? (action : Str) : Option ShellAction :=
  all.find? fun a => a.least ≤ action.length && substr action 0 a.name.length == a.name

end ShellAction

def commitReply (action : Str) : Act (Except Str Str) :=
  if action = str "commit" then perform .configdCommit else perform .configdSave

/-- commit, and save without a file, are asked of configd. -/
def commitOrSave (s : Session) (sid action : Str) : Act Session := do
  if !(← perform .configdOpen) then return s
  perform (.configdSetSessionId sid)
  let reply ← commitReply action
  let (s, stdout) := match reply with
    | .ok text => (s, text)
    | .error text => (s.error .configurationError, text)
  let stdout := if stdout = [] ∧ action ≠ str "commit" then str "Saving configuration ... Done" else stdout
  let stdout := massReplace (massReplace stdout (str "\"") (str "\\\"")) (str "\n") (str "\\n")
  perform .configdClose
  return s.setResponse .body (Json.empty.addValue (str "message") stdout).serialize

/-- The output of a command as a JSON string holds it. -/
def escapeOutput (stdout : Str) : Str :=
  let stdout := massReplace stdout (str "\\") (str "\\\\")
  let stdout := massReplace stdout (str "\"") (str "\\\"")
  let stdout := massReplace stdout (str "\x0d") (str "\\r")
  let stdout := massReplace stdout (str "\n") (str "\\n")
  massReplace stdout (str "\t") (str "\\t")

/-- A description that was not looked up yet, or that is the id itself, is looked up. -/
def actionId (t : Target) : Act (Option Str) :=
  if t.tag = t.id then readConfModifyFileFromTag t.tag t.user else return some t.id

def action (s : Session) (t : Target) : Act Session := do
  match ← actionId t with
  | none => return s.error .validationFailure
  | some id =>
    if t.user ≠ s.user then return s.error .authorizationFailure
    let act ← pathAfterId t.confPathWithId
    let sid := Configuration.convConfId id
    if act = str "commit" ∨ act = str "save" then commitOrSave s sid act
    else if act = str "discard" then
      discardSession id false
      return s
    else
      match ShellAction.find? act with
      | none => return s.error .validationFailure
      | some a =>
        let tmp ← a.command act
        let (status, stdout) ← execute (environment sid ++ str ";" ++ tmp ++ str " 2>&1") (str " ")
        let s := if status ≠ 0 then s.error .configurationError else s
        return s.setResponse .body (Json.empty.addValue (str "message") (escapeOutput stdout)).serialize

/-- One more `/` behind the first segment makes a POST an action. -/
def post (s : Session) (t : Target) : Act Session := do
  if t.confPathWithId = [] then create s t
  else
    let rest ← substrFrom t.confPathWithId 1
    if (find (str "/") rest).isNone then create s t else action s t

/-! ## The mode -/

def handle (s : Session) (path method : Str) (t : Target) : Act Session := do
  if method = str "GET" then
    if path = confReqRoot then getListing s else getNode s t
  else if method = str "PUT" then put s t
  else if method = str "DELETE" then delete s t
  else if method = str "POST" then post s t
  else return s.error .validationFailure

def process (s : Session) : Act Session := do
  if s.authType = .none then return s.error .authorizationFailure
  let path := s.request.get .reqUri
  if path.isEmpty then return s.error .validationFailure
  if path.length < confReqRoot.length then return s.error .validationFailure
  let method := s.request.get .reqMethod
  if method.isEmpty then return s.error .validationFailure
  if s.accessLevel ≠ .vyattaCfg then return s.error .authorizationFailure
  match ← lookup path method s.user with
  | none => return s.error .validationFailure
  | some t => handle s path method t

end ConfMode

end VyattaRest.Server
