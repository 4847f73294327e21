/-
  VyattaRest.Server.ConfCalls — what a configuration request asks of the world.

  `ConfMode::process` looks a session up, compares its owner with the user and then acts. The
  rules here follow it once, over any world: `Vouched` says what reading an owner file is
  worth, `Allowed` which calls may follow, and `process_wp` that only these do, that a listing
  holds only rows of vouched sessions, and that nothing but a line of `val_help` can make the
  request throw.
-/

import VyattaRest.Server.ConfMode

namespace VyattaRest.Server

open VyattaRest.Lib VyattaRest.Rest VyattaRest.Lib.Prog

abbrev Session.uri (s : Session) : Str := s.request.get .reqUri

abbrev Session.method (s : Session) : Str := s.request.get .reqMethod

/-- The request of a configuration user, authenticated. -/
def confSession (method uri user : Str) : Session where
  request := (Http.empty.set .reqMethod method).set .reqUri uri
  response := Session.new.response
  user := user
  accessLevel := .vyattaCfg
  serviceUser := false
  authType := .vyattaSession
  sessionKey := []

namespace ConfMode

/-! ## The parts of a request -/

/-- The text behind `/rest/conf/`. -/
def confRest (path : Str) : Str := path.drop (confReqRoot.length + 1)

/-- The text behind the id. -/
def confPath (path : Str) : Str :=
  match find (str "/") (confRest path) with
  | none => confRest path
  | some pos => (confRest path).drop (pos + 1)

def hasConfPath (path : Str) : Bool := contains (confRest path) (str "/")

/-- A POST without a path behind the id makes a new session. -/
def isCreate (method path : Str) : Bool := method = str "POST" && !hasConfPath path

def ShellAction.text (a : ShellAction) (action : Str) : Str :=
  if action.length ≤ a.name.length then a.program else a.line (action.drop (a.name.length + 1))

/-- The part of the command line that comes from the request. -/
def shellCommand (method path : Str) : Option Str :=
  if method = str "PUT" then if hasConfPath path then putCommand (confPath path) else none
  else if method = str "POST" then
    (ShellAction.find? (confPath path)).map fun a => a.text (confPath path)
  else none

/-- What `Rest::execute` is given. -/
def commandLine (id cmd : Str) : Str := environment (Configuration.convConfId id) ++ str ";" ++ cmd ++ str " 2>&1"

theorem ShellAction.command_eq (a : ShellAction) (action : Str) : a.command action = pure (a.text action) := by
  unfold ShellAction.command ShellAction.text
  simp only
  split
  · rfl
  · rename_i h
    rw [substrAt_of_le _ (by omega), substr, List.take_of_length_le (by simp)]
    rfl

/-! ## The exports -/

/-- An export of a session is a fixed one, but for the bytes of the session id. -/
theorem exports_fixed {sid : Str} : ∀ p ∈ exports sid, ∃ q ∈ exports [], p.1 = q.1 ∧ ∀ b ∈ p.2, b ∈ sid ∨ b ∈ q.2 := by
  have hshell : ∀ p ∈ shellEnv, p ∈ exports [] := fun p hp => List.mem_append_left _ hp
  have hwrap : ∀ {u v : Str}, ∀ b ∈ u ++ sid ++ v, b ∈ sid ∨ b ∈ u ++ [] ++ v := by
    intro u v b hb
    simp only [List.mem_append, List.not_mem_nil, or_false] at hb ⊢
    tauto
  intro p hp
  rcases List.mem_append.mp hp with hp | hp
  · exact ⟨p, hshell p hp, rfl, fun b hb => Or.inr hb⟩
  · simp only [List.mem_cons, List.not_mem_nil, or_false] at hp
    rcases hp with rfl | rfl | rfl | rfl | rfl | rfl | rfl
    · exact ⟨(str "VYATTA_ACTIVE_CONFIGURATION_DIR", _), by simp [exports], rfl, fun b hb => Or.inr hb⟩
    · exact ⟨(str "VYATTA_CONFIG_TMP", str "/session/" ++ [] ++ configTmpDir), by simp [exports], rfl, hwrap⟩
    · exact ⟨(str "VYATTA_CHANGES_ONLY_DIR", str "/session/" ++ [] ++ localChangesOnly), by simp [exports], rfl, hwrap⟩
    · exact ⟨(str "vyatta_cfg_templates", _), by simp [exports], rfl, fun b hb => Or.inr hb⟩
    · exact ⟨(str "VYATTA_CONFIG_TEMPLATE", _), by simp [exports], rfl, fun b hb => Or.inr hb⟩
    · exact ⟨(str "VYATTA_TEMP_CONFIG_DIR", str "/session/" ++ [] ++ localConfigDir), by simp [exports], rfl, hwrap⟩
    · exact ⟨(str "VYATTA_CONFIG_SID", []), by simp [exports], rfl, fun b hb => Or.inl hb⟩

theorem zero_notMem_convConfId (id : Str) : (0 : UInt8) ∉ Configuration.convConfId id := fun h => nomatch mem_dec 0 h

theorem zero_notMem_environment (id : Str) : (0 : UInt8) ∉ environment (Configuration.convConfId id) := by
  have hfixed : ∀ q ∈ exports [], (0 : UInt8) ∉ q.1 ∧ (0 : UInt8) ∉ q.2 := by decide
  intro h
  rcases mem_intercalate h with h | ⟨w, hw, h⟩
  · exact absurd h (by decide)
  · obtain ⟨p, hp, rfl⟩ := List.mem_map.mp hw
    obtain ⟨q, hq, hname, hval⟩ := exports_fixed p hp
    obtain ⟨h1, h2⟩ := hfixed q hq
    simp only [List.mem_append] at h
    rcases h with ((h | h) | h) | h
    · exact absurd h (by decide)
    · exact h1 (hname ▸ h)
    · exact absurd h (by decide)
    · exact (hval 0 h).elim (zero_notMem_convConfId id) h2

/-! ## Lines of `val_help` -/

/-- The first `;` of the line is its last byte. -/
def endsAtHelp (l : Str) : Bool := find (str ";") l == some (l.length - 1)

theorem valHelpRow_throws {l : Str} (h : endsAtHelp l = true) : valHelpRow l = Prog.throw := by
  have hf : find (str ";") l = some (l.length - 1) := by simpa [endsAtHelp] using h
  have hle := find_le hf
  rw [show (str ";").length = 1 from rfl] at hle
  unfold valHelpRow
  rw [hf]
  simp only [substrAt]
  rw [if_neg (by omega)]
  rfl

theorem valHelpRow_returns {l : Str} (h : endsAtHelp l = false) : ∃ r, valHelpRow l = pure r := by
  unfold valHelpRow
  rcases hf : find (str ";") l with _ | pos1
  · exact ⟨none, rfl⟩
  have hle := find_le hf
  rw [show (str ";").length = 1 from rfl] at hle
  have hne : pos1 ≠ l.length - 1 := by
    intro e
    rw [endsAtHelp, hf, e] at h
    simp at h
  simp only [substrAt]
  rw [if_pos (show pos1 + 2 ≤ l.length by omega), if_pos (Nat.zero_le _)]
  show ∃ r, (match find (str ":") (substr l 0 pos1) with
    | none => _
    | some pos2 => _) = (pure r : Act (Option Str))
  rcases hf2 : find (str ":") (substr l 0 pos1) with _ | pos2
  · exact ⟨_, rfl⟩
  · have hle2 := find_le hf2
    rw [show (str ":").length = 1 from rfl] at hle2
    simp only
    rw [if_pos hle2, if_pos (Nat.zero_le _)]
    exact ⟨_, rfl⟩

/-- The rows are written unless some line ends at its help. -/
theorem valHelpRows_throws : ∀ {ls : List Str}, (∃ l ∈ ls, endsAtHelp l = true) → valHelpRows ls = Prog.throw := by
  intro ls
  induction ls with
  | nil => exact fun ⟨l, hl, _⟩ => nomatch hl
  | cons l ls ih =>
    intro ⟨l', hl', hbad⟩
    rw [valHelpRows]
    split
    · rename_i hempty
      refine ih ((List.mem_cons.mp hl').elim (fun e => ?_) fun hl' => ⟨l', hl', hbad⟩)
      rw [List.isEmpty_iff.mp hempty] at e
      subst e
      cases hbad
    · rcases hend : endsAtHelp l with _ | _
      · obtain ⟨r, hr⟩ := valHelpRow_returns hend
        have hrest := ih ((List.mem_cons.mp hl').elim (fun e => by rw [e, hend] at hbad; cases hbad)
          fun hl' => ⟨l', hl', hbad⟩)
        rw [hr]
        rcases r with _ | row
        · exact hrest
        · show (valHelpRows ls >>= fun rows => (pure (row :: rows) : Act _)) = _
          rw [hrest]
          rfl
      · rw [valHelpRow_throws hend]
        rfl

theorem valHelpRows_returns : ∀ {ls : List Str}, (∀ l ∈ ls, endsAtHelp l = false) → ∃ rows, valHelpRows ls = pure rows := by
  intro ls
  induction ls with
  | nil => exact fun _ => ⟨[], rfl⟩
  | cons l ls ih =>
    intro h
    obtain ⟨rows, hrows⟩ := ih fun l' hl' => h l' (List.mem_cons_of_mem _ hl')
    rw [valHelpRows]
    split
    · exact ⟨rows, hrows⟩
    · obtain ⟨r, hr⟩ := valHelpRow_returns (h l List.mem_cons_self)
      rw [hr]
      rcases r with _ | row
      · exact ⟨rows, hrows⟩
      · refine ⟨row :: rows, ?_⟩
        show (valHelpRows ls >>= fun rows => (pure (row :: rows) : Act _)) = _
        rw [hrows]
        rfl

theorem nodeJson_throws {p : TemplateParams} (h : ∃ l ∈ p.valHelp.toList, endsAtHelp l = true) :
    nodeJson p = Prog.throw := by
  unfold nodeJson
  simp only [valHelpRows_throws h]
  rfl

theorem nodeJson_returns {p : TemplateParams} (h : ∀ l ∈ p.valHelp.toList, endsAtHelp l = false) :
    ∃ j, nodeJson p = pure j := by
  obtain ⟨rows, hrows⟩ := valHelpRows_returns h
  unfold nodeJson
  simp only [hrows]
  exact ⟨_, rfl⟩

/-! ## Worlds and calls -/

/-- What the owner files of a world are worth: a text before the first `/` of a file, and
    whoever asks when the file cannot be read, is a user `Good` for the id. -/
structure Vouched (env : (c : Call) → c.Answer → Prop) (Good : Str → Str → Prop) : Prop where
  line : ∀ {id buf : Str} {pos : Nat}, env (.fgets (vyattaModifyFile ++ id)) (some (some buf)) →
    find (str "/") (cstr buf) = some pos → Good ((cstr buf).take pos) id
  error : ∀ {id : Str}, env (.fgets (vyattaModifyFile ++ id)) (some none) → ∀ user, Good user id

/-- The calls a request may make, of those that name a session or a file. None asks for other
    ids. -/
def Allowed (Good : Str → Str → Prop) (s : Session) : Call → Prop
  | .configdSetSessionId sid =>
    isCreate s.method s.uri ∨ ∃ id, Good s.user id ∧ sid = Configuration.convConfId id
  | .popen cmd => ∃ id tail, Good s.user id ∧
      shellCommand s.method s.uri = some tail ∧ cmd = cstr (commandLine id tail)
  | .unlink file => ∃ id, Good s.user id ∧ file = vyattaModifyFile ++ id
  | .fopenWrite _ | .fputs _ _ => isCreate s.method s.uri
  | .systemOut _ | .send _ => False
  | .getgrouplist _ _ | .setgroups _ | .setegid _ | .seteuid _ | .setuid _ | .setgid _ => False
  | _ => True

theorem Allowed.query {Good : Str → Str → Prop} {s : Session} {c : Call} (h : c.isQuery = true) : Allowed Good s c := by
  cases c <;> trivial

/-- The calls that only read the owner files. -/
def isRead : Call → Prop
  | .fgets _ | .readdir _ => True
  | _ => False

section

variable {env : (c : Call) → c.Answer → Prop} {Good : Str → Str → Prop} {s : Session} {exc : Prop}

section Lookup

variable (hv : Vouched env Good)
include hv

/-- Reading an owner file leaves everything as it was, or gives a user good for the id. -/
theorem readConfModifyFile_wp (id user description : Str) :
    wp env (Allowed Good s) exc (readConfModifyFile id user description) fun r =>
      r = (false, user, description) ∨ r.1 = true ∧ Good r.2.1 id := by
  unfold readConfModifyFile
  refine (wp_then _ _ _).mpr ⟨trivial, fun a ha => ?_⟩
  rcases a with _ | _ | buf
  · exact Or.inl rfl
  · exact Or.inr ⟨rfl, hv.error ha user⟩
  · simp only
    rcases hf : find (str "/") (cstr buf) with _ | pos
    · exact Or.inl rfl
    · have hle := find_le hf
      rw [show (str "/").length = 1 from rfl] at hle
      refine (wp_bind _ _ _).mpr (wp_substrAt _ (Nat.zero_le _) ?_)
      refine (wp_bind _ _ _).mpr (wp_substrFrom hle ?_)
      exact Or.inr ⟨rfl, hv.line ha hf⟩

theorem findTag_wp (tag user : Str) : ∀ names : List Str,
    wp env (Allowed Good s) exc (findTag tag user names) fun r => ∀ id, r = some id → Good user id := by
  intro names
  induction names with
  | nil => exact fun id h => nomatch h
  | cons name names ih =>
    rw [findTag]
    refine (wp_ite _ _ _).mpr ⟨fun _ => ih, fun hlen => ?_⟩
    refine (wp_bind _ _ _).mpr (wp_substrFrom (by omega) ?_)
    refine (wp_bind _ _ _).mpr (wp_mono (readConfModifyFile_wp hv _ [] []) fun r hr => ?_)
    refine (wp_ite _ _ _).mpr ⟨fun hmatch id h => ?_, fun _ => ih⟩
    cases h
    rcases hr with rfl | ⟨-, hgood⟩
    · exact absurd rfl hmatch.1
    · exact hmatch.2.2 ▸ hgood

theorem readConfModifyFileFromTag_wp (tag user : Str) :
    wp env (Allowed Good s) exc (readConfModifyFileFromTag tag user) fun r => ∀ id, r = some id → Good user id := by
  unfold readConfModifyFileFromTag
  refine (wp_then _ _ _).mpr ⟨trivial, fun names _ => ?_⟩
  rcases names with _ | names
  · exact fun id h => nomatch h
  · exact findTag_wp hv tag user names

/-- What the head of `process` leaves behind for a path under the root. -/
structure Target.Found (t : Target) (path method user : Str) (Good : Str → Str → Prop) : Prop where
  rest : t.confPathWithId = path.drop confReqRoot.length
  good : Good t.user t.id ∨ method = str "POST" ∧ t.tag = t.id ∧ t.user = user

theorem lookup_wp {path : Str} (hlen : confReqRoot.length < path.length) (method user : Str) :
    wp env (Allowed Good s) exc (lookup path method user) fun r => ∀ t, r = some t → t.Found path method user Good := by
  unfold lookup
  have hdrop : 1 ≤ (path.drop confReqRoot.length).length := by rw [List.length_drop]; omega
  rw [if_neg (by omega)]
  refine (wp_bind _ _ _).mpr (wp_substrFrom hlen.le ?_)
  refine (wp_bind _ _ _).mpr (wp_substrFrom hdrop ?_)
  refine (wp_bind _ _ _).mpr (wp_substrAt _ hdrop ?_)
  refine (wp_bind _ _ _).mpr (wp_mono (readConfModifyFile_wp hv _ user []) fun r hr => ?_)
  rcases hr with rfl | ⟨htrue, hgood⟩
  · refine (wp_ite _ _ _).mpr ⟨fun hpost t ht => ?_, fun _ => ?_⟩
    · cases ht
      exact ⟨rfl, Or.inr ⟨hpost, rfl, rfl⟩⟩
    · refine (wp_bind _ _ _).mpr (wp_mono (readConfModifyFileFromTag_wp hv _ user) fun r hr => ?_)
      rcases r with _ | fId
      · exact fun t ht => nomatch ht
      · intro t ht
        cases ht
        exact ⟨rfl, Or.inl (hr fId rfl)⟩
  · obtain ⟨ok, user', tag⟩ := r
    cases htrue
    intro t ht
    cases ht
    exact ⟨rfl, Or.inl hgood⟩

end Lookup

/-! ## The methods -/

theorem isConfigdSessChanged_wp {sid : Str} (h : Allowed Good s (.configdSetSessionId sid)) :
    wp env (Allowed Good s) exc (isConfigdSessChanged sid) fun _ => True := by
  unfold isConfigdSessChanged
  refine (wp_then _ _ _).mpr ⟨trivial, fun opened _ => (wp_ite _ _ _).mpr ⟨fun _ => trivial, fun _ => ?_⟩⟩
  refine (wp_then _ _ _).mpr ⟨h, fun _ _ => (wp_then _ _ _).mpr ⟨trivial, fun changed _ => ?_⟩⟩
  exact (wp_then _ _ _).mpr ⟨trivial, fun _ _ => trivial⟩

theorem discardSession_wp {id : Str} (h : id ≠ [] → Good s.user id) (exitSession : Bool) :
    wp env (Allowed Good s) exc (discardSession id exitSession) fun _ => True := by
  unfold discardSession
  refine (wp_ite _ _ _).mpr ⟨fun _ => trivial, fun hid => ?_⟩
  have hgood : Good s.user id := h fun e => hid (by rw [e]; rfl)
  refine (wp_then _ _ _).mpr ⟨trivial, fun opened _ => (wp_ite _ _ _).mpr ⟨fun _ => trivial, fun _ => ?_⟩⟩
  refine (wp_then _ _ _).mpr ⟨Or.inr ⟨id, hgood, rfl⟩, fun _ _ => (wp_then _ _ _).mpr ⟨trivial, fun _ _ => ?_⟩⟩
  cases exitSession with
  | false => exact ⟨trivial, fun _ _ => trivial⟩
  | true => exact ⟨trivial, fun _ _ => ⟨trivial, fun _ _ => ⟨⟨id, hgood, rfl⟩, fun _ _ => trivial⟩⟩⟩

/-- A row of the listing is about a session good for the user. -/
def GoodRow (Good : Str → Str → Prop) (user row : Str) : Prop :=
  ∃ id description started modified updated, Good user id ∧
    row = object [(str "id", id), (str "username", user), (str "description", description), (str "started", started),
      (str "modified", modified), (str "updated", updated)]

section Listing

variable (hv : Vouched env Good)
include hv

theorem listingRow_wp (name : Str) : wp env (Allowed Good s) exc (listingRow s.user name) fun r =>
    ∀ row, r = some row → GoodRow Good s.user row := by
  unfold listingRow
  refine (wp_ite _ _ _).mpr ⟨fun _ row h => (nomatch h), fun hlen => ?_⟩
  refine (wp_bind _ _ _).mpr (wp_substrFrom (by omega) ?_)
  refine (wp_ite _ _ _).mpr ⟨fun _ row h => (nomatch h), fun _ => ?_⟩
  refine (wp_bind _ _ _).mpr (wp_mono (readConfModifyFile_wp hv _ [] []) fun r hr => ?_)
  rcases hr with rfl | ⟨htrue, hgood⟩
  · exact fun row h => nomatch h
  obtain ⟨ok, confUser, description⟩ := r
  cases htrue
  refine (wp_ite _ _ _).mpr ⟨fun _ row h => (nomatch h), fun huser => ?_⟩
  have hgood : Good s.user (name.drop 14) := not_not.mp huser ▸ hgood
  refine (wp_then _ _ _).mpr ⟨trivial, fun times _ => ?_⟩
  refine (wp_bind _ _ _).mpr (wp_mono (isConfigdSessChanged_wp (Or.inr ⟨_, hgood, rfl⟩)) fun changed _ => ?_)
  intro row h
  cases h
  exact ⟨_, _, _, _, _, hgood, rfl⟩

theorem listingRows_wp : ∀ names : List Str, wp env (Allowed Good s) exc (listingRows s.user names) fun rows =>
    ∀ row ∈ rows, GoodRow Good s.user row := by
  intro names
  induction names with
  | nil => exact fun row h => nomatch h
  | cons name names ih =>
    rw [listingRows]
    refine (wp_bind _ _ _).mpr (wp_mono (listingRow_wp hv name) fun r hr => ?_)
    rcases r with _ | row
    · exact ih
    · refine (wp_bind _ _ _).mpr (wp_mono ih fun rows hrows row' h => ?_)
      rcases List.mem_cons.mp h with rfl | h
      · exact hr _ rfl
      · exact hrows row' h

/-- The response to a listing: an error, or the rows. -/
def IsListing (Good : Str → Str → Prop) (s s' : Session) : Prop :=
  s' = s.error .serverError ∨ ∃ rows : List Str, (∀ row ∈ rows, GoodRow Good s.user row) ∧
    s' = s.setResponse .body (rows.foldl (fun j row => j.addArray (str "session") row true)
      (Json.empty.addValue (str "message") (str " "))).serialize

theorem getListing_wp : wp env (Allowed Good s) exc (getListing s) fun s' => IsListing Good s s' := by
  unfold getListing
  refine (wp_then _ _ _).mpr ⟨trivial, fun names _ => ?_⟩
  rcases names with _ | names
  · exact Or.inl rfl
  · exact (wp_bind _ _ _).mpr (wp_mono (listingRows_wp hv names) fun rows hrows => Or.inr ⟨rows, hrows, rfl⟩)

end Listing

theorem drop_root_length {path : Str} (hlen : confReqRoot.length < path.length) :
    1 ≤ (path.drop confReqRoot.length).length := by
  rw [List.length_drop]
  omega

theorem drop_root_rest (path : Str) : (path.drop confReqRoot.length).drop 1 = confRest path := by
  rw [confRest, List.drop_drop]

theorem pathAfterId_eq {path : Str} (hlen : confReqRoot.length < path.length) :
    pathAfterId (path.drop confReqRoot.length) = pure (confPath path) := by
  have hdrop := drop_root_length hlen
  unfold pathAfterId confPath
  rw [substrFrom_of_le hdrop, drop_root_rest]
  show (match find (str "/") (confRest path) with
    | none => pure (confRest path)
    | some pos => substrFrom _ (pos + 2)) = _
  rcases hf : find (str "/") (confRest path) with _ | pos
  · rfl
  · have hle := find_le hf
    rw [show (str "/").length = 1 from rfl, confRest, List.length_drop] at hle
    simp only
    rw [substrFrom_of_le (by rw [List.length_drop]; omega), List.drop_drop, confRest, List.drop_drop]
    congr 2
    omega

/-- A line that ends at its help, in a template the world may send. -/
def BadTemplate (env : (c : Call) → c.Answer → Prop) : Prop :=
  ∃ path entries, env (.configdTmplGet path) (some entries) ∧ ∃ l ∈ valHelpLines entries, endsAtHelp l = true

theorem withConnections_wp {α : Type} {body : Act α} {Q : α → Prop} (h : wp env (Allowed Good s) exc body Q) :
    wp env (Allowed Good s) exc (Configuration.withConnections body) Q := by
  unfold Configuration.withConnections
  refine (wp_then _ _ _).mpr ⟨trivial, fun _ _ => (wp_then _ _ _).mpr ⟨trivial, fun _ _ => ?_⟩⟩
  exact (wp_bind _ _ _).mpr (wp_mono h fun a ha => ⟨trivial, fun _ _ => ⟨trivial, fun _ _ => ha⟩⟩)

theorem execute_wp {cmd : Str} (h : Allowed Good s (.popen (cstr cmd))) (stdout : Str) :
    wp env (Allowed Good s) exc (execute cmd stdout) fun _ => True := by
  unfold execute
  refine (wp_then _ _ _).mpr ⟨h, fun out _ => ?_⟩
  rcases out with _ | ⟨lines, status⟩ <;> trivial

/-- The response to a PUT, by the exit status and the output of its command. -/
def putReply (s : Session) (r : Int × Str) : Session :=
  if r.1 ≠ 0 then
    s.errorMsg .configurationError (massReplace (massReplace r.2 (str "\"") (str "\\\"")) (str "\n") (str "\\n"))
  else s

section Methods

variable {t : Target} (hlen : confReqRoot.length < s.uri.length)
  (hrest : t.confPathWithId = s.uri.drop confReqRoot.length)
include hlen hrest

theorem getNode_wp (hgood : t.user = s.user → Good s.user t.id) (hexc : BadTemplate env → exc) :
    wp env (Allowed Good s) exc (getNode s t) fun _ => True := by
  unfold getNode
  refine (wp_ite _ _ _).mpr ⟨fun _ => trivial, fun huser => ?_⟩
  rw [hrest, pathAfterId_eq hlen]
  refine (wp_bind _ _ _).mpr ((wp_pure _ _).mpr (withConnections_wp ?_))
  have hset : Allowed Good s (.configdSetSessionId (Configuration.convConfId t.id)) :=
    Or.inr ⟨t.id, hgood (not_not.mp huser), rfl⟩
  refine (wp_bind _ _ _).mpr (wp_mono
    (Configuration.getConfiguredNode_wp (fun c hc => Allowed.query hc) _ _ hset) fun r hr => ?_)
  rcases r with _ | p
  · trivial
  by_cases hbad : ∃ l ∈ p.valHelp.toList, endsAtHelp l = true
  · obtain ⟨l, hl, hend⟩ := hbad
    obtain ⟨entries, hentries, hline⟩ := hr p rfl l hl
    simp only
    rw [nodeJson_throws ⟨l, hl, hend⟩]
    exact hexc ⟨_, entries, hentries, l, hline, hend⟩
  · obtain ⟨j, hj⟩ := nodeJson_returns fun l hl => by simpa using fun h => hbad ⟨l, hl, h⟩
    simp only
    rw [hj]
    trivial

omit hrest in
/-- The text behind the second `/`. -/
theorem confPath_of_find {pos : Nat} (hf : find (str "/") (confRest s.uri) = some pos) :
    pos + 2 ≤ (s.uri.drop confReqRoot.length).length ∧ (s.uri.drop confReqRoot.length).drop (pos + 2) = confPath s.uri := by
  have hle := find_le hf
  rw [show (str "/").length = 1 from rfl, confRest, List.length_drop] at hle
  refine ⟨by rw [List.length_drop]; omega, ?_⟩
  rw [confPath, hf, confRest]
  simp only [List.drop_drop]
  congr 1
  omega

/-- A PUT is refused, or runs one command. -/
theorem put_cases (hmethod : s.method = str "PUT") :
    (∃ e, e ∈ [.authorizationFailure, .validationFailure, .commandNotFound] ∧ put s t = pure (s.error e)) ∨
      t.user = s.user ∧ ∃ cmd, shellCommand s.method s.uri = some cmd ∧
        put s t = execute (commandLine t.id cmd) [] >>= fun r => pure (putReply s r) := by
  have hdrop := drop_root_length hlen
  unfold put
  split
  · exact Or.inl ⟨.authorizationFailure, by simp, rfl⟩
  rename_i huser
  split
  · exact Or.inl ⟨.validationFailure, by simp, rfl⟩
  rw [hrest, substrFrom_of_le hdrop, drop_root_rest, ret_bind]
  rcases hf : find (str "/") (confRest s.uri) with _ | pos
  · exact Or.inl ⟨.validationFailure, by simp, rfl⟩
  obtain ⟨hpos, hconf⟩ := confPath_of_find hlen hf
  have hlong : ¬ (s.uri.drop confReqRoot.length).length < 2 := by omega
  simp only
  rw [if_neg hlong, substrFrom_of_le hpos, ret_bind, hconf]
  rcases hcmd : putCommand (confPath s.uri) with _ | cmd
  · exact Or.inl ⟨.commandNotFound, by simp, rfl⟩
  refine Or.inr ⟨not_not.mp huser, cmd, ?_, ?_⟩
  · rw [shellCommand, if_pos hmethod, if_pos (by rw [hasConfPath, contains, hf]; rfl), hcmd]
  · refine congrArg (Prog.bind _) (funext fun r => ?_)
    rw [putReply, apply_ite pure]

/-- A PUT makes the calls of its command. -/
theorem put_wp (hmethod : s.method = str "PUT") (hgood : t.user = s.user → Good s.user t.id) :
    wp env (Allowed Good s) exc (put s t) fun _ => True := by
  rcases put_cases hlen hrest hmethod with ⟨e, -, heq⟩ | ⟨huser, cmd, htail, heq⟩
  · rw [heq]
    trivial
  · rw [heq]
    exact (wp_bind _ _ _).mpr (wp_mono (execute_wp ⟨t.id, cmd, hgood huser, htail, rfl⟩ _) fun r _ => trivial)

end Methods

theorem delete_wp {t : Target} (hgood : t.user = s.user → t.id ≠ [] → Good s.user t.id) :
    wp env (Allowed Good s) exc (delete s t) fun _ => True := by
  unfold delete
  refine (wp_ite _ _ _).mpr ⟨fun _ => trivial, fun huser => ?_⟩
  exact (wp_bind _ _ _).mpr (wp_mono (discardSession_wp (hgood (not_not.mp huser)) true) fun _ _ => trivial)

theorem commitOrSave_wp {sid : Str} (h : Allowed Good s (.configdSetSessionId sid)) (action : Str) :
    wp env (Allowed Good s) exc (commitOrSave s sid action) fun _ => True := by
  unfold commitOrSave
  refine (wp_then _ _ _).mpr ⟨trivial, fun opened _ => (wp_ite _ _ _).mpr ⟨fun _ => trivial, fun _ => ?_⟩⟩
  have hreply : wp env (Allowed Good s) exc (commitReply action) fun _ => True :=
    (wp_ite _ _ _).mpr ⟨fun _ => ⟨trivial, fun _ _ => trivial⟩, fun _ => ⟨trivial, fun _ _ => trivial⟩⟩
  refine (wp_then _ _ _).mpr ⟨h, fun _ _ => (wp_bind _ _ _).mpr (wp_mono hreply fun reply _ => ?_)⟩
  exact ⟨trivial, fun _ _ => trivial⟩

section Post

variable (hv : Vouched env Good)
include hv

theorem create_wp (t : Target) (hcreate : isCreate s.method s.uri = true) :
    wp env (Allowed Good s) exc (create s t) fun _ => True := by
  unfold create
  have hdesc : wp env (Allowed Good s) exc (newDescription t.confPathWithId) fun _ => True := by
    refine (wp_ite _ _ _).mpr ⟨fun _ => trivial, fun h => ?_⟩
    exact wp_substrFrom (List.length_pos_of_ne_nil h) trivial
  refine (wp_bind _ _ _).mpr (wp_mono hdesc fun description _ => ?_)
  have hknown : wp env (Allowed Good s) exc (knownDescription description t.user) fun _ => True := by
    refine (wp_ite _ _ _).mpr ⟨fun _ => trivial, fun _ => ?_⟩
    exact wp_mono (readConfModifyFileFromTag_wp hv _ _) fun _ _ => trivial
  refine (wp_bind _ _ _).mpr (wp_mono hknown fun known _ => ?_)
  refine (wp_ite _ _ _).mpr ⟨fun _ => trivial, fun _ => ?_⟩
  refine (wp_then _ _ _).mpr ⟨trivial, fun id _ => ?_⟩
  refine (wp_ite _ _ _).mpr ⟨fun _ => trivial, fun _ => ?_⟩
  have hsetup : wp env (Allowed Good s) exc (setupSession (Configuration.convConfId id)) fun _ => True := by
    unfold setupSession
    refine (wp_then _ _ _).mpr ⟨trivial, fun opened _ => (wp_ite _ _ _).mpr ⟨fun _ => trivial, fun _ => ?_⟩⟩
    exact ⟨Or.inl hcreate, fun _ _ => ⟨trivial, fun _ _ => ⟨trivial, fun _ _ => trivial⟩⟩⟩
  refine (wp_bind _ _ _).mpr (wp_mono hsetup fun _ _ => ?_)
  have hfile : ∀ description, wp env (Allowed Good s) exc (createConfModifyFile id s.user description) fun _ => True := by
    intro description
    refine (wp_then _ _ _).mpr ⟨hcreate, fun opened _ => (wp_ite _ _ _).mpr ⟨fun _ => trivial, fun _ => ?_⟩⟩
    exact ⟨hcreate, fun _ _ => trivial⟩
  refine (wp_bind _ _ _).mpr (wp_mono (hfile _) fun written _ => ?_)
  exact (wp_ite _ _ _).mpr ⟨fun _ => trivial, fun _ => trivial⟩

theorem action_wp {t : Target} (hlen : confReqRoot.length < s.uri.length)
    (hfound : t.Found s.uri s.method s.user Good) (hmethod : s.method = str "POST") :
    wp env (Allowed Good s) exc (action s t) fun _ => True := by
  unfold action
  have hid : wp env (Allowed Good s) exc (actionId t) fun r => ∀ id, r = some id → Good t.user id := by
    refine (wp_ite _ _ _).mpr ⟨fun _ => readConfModifyFileFromTag_wp hv _ _, fun hne id h => ?_⟩
    cases h
    exact hfound.good.resolve_right fun h => hne h.2.1
  refine (wp_bind _ _ _).mpr (wp_mono hid fun r hr => ?_)
  rcases r with _ | id
  · trivial
  refine (wp_ite _ _ _).mpr ⟨fun _ => trivial, fun huser => ?_⟩
  have hgood : Good s.user id := not_not.mp huser ▸ hr id rfl
  have hset : Allowed Good s (.configdSetSessionId (Configuration.convConfId id)) := Or.inr ⟨id, hgood, rfl⟩
  rw [hfound.rest, pathAfterId_eq hlen]
  refine (wp_bind _ _ _).mpr ((wp_pure _ _).mpr ?_)
  refine (wp_ite _ _ _).mpr ⟨fun _ => commitOrSave_wp hset _, fun _ => ?_⟩
  refine (wp_ite _ _ _).mpr ⟨fun _ => ?_, fun _ => ?_⟩
  · exact (wp_bind _ _ _).mpr (wp_mono (discardSession_wp (fun _ => hgood) false) fun _ _ => trivial)
  · rcases ha : ShellAction.find? (confPath s.uri) with _ | a
    · trivial
    have htail : shellCommand s.method s.uri = some (a.text (confPath s.uri)) := by
      rw [shellCommand, if_neg (by rw [hmethod]; decide), if_pos hmethod, ha]
      rfl
    simp only
    rw [a.command_eq]
    refine (wp_bind _ _ _).mpr ((wp_pure _ _).mpr ?_)
    exact (wp_bind _ _ _).mpr (wp_mono (execute_wp ⟨id, _, hgood, htail, rfl⟩ _) fun r _ => trivial)

theorem post_wp {t : Target} (hlen : confReqRoot.length < s.uri.length)
    (hfound : t.Found s.uri s.method s.user Good) (hmethod : s.method = str "POST") :
    wp env (Allowed Good s) exc (post s t) fun _ => True := by
  have hdrop := drop_root_length hlen
  have hne : t.confPathWithId ≠ [] := by
    rw [hfound.rest]
    exact List.ne_nil_of_length_pos hdrop
  unfold post
  rw [if_neg hne, hfound.rest]
  refine (wp_bind _ _ _).mpr (wp_substrFrom hdrop ?_)
  rw [drop_root_rest]
  refine (wp_ite _ _ _).mpr ⟨fun hnone => create_wp hv t ?_, fun _ => action_wp hv hlen hfound hmethod⟩
  rw [isCreate, hmethod, hasConfPath, contains, Option.isNone_iff_eq_none.mp hnone]
  rfl

end Post

/-! ## The mode -/

/-- The request for the list of sessions. -/
def isListing (s : Session) : Bool := s.method = str "GET" && s.uri = confReqRoot

/-- Every request but the one for the list. -/
theorem handle_root_other_wp (hv : Vouched env Good) (hroot : s.uri = confReqRoot) (hget : s.method ≠ str "GET") :
    wp env (Allowed Good s) exc (handle s s.uri s.method ⟨[], [], [], s.user⟩) fun _ => True := by
  unfold handle
  refine (wp_ite _ _ _).mpr ⟨fun h => absurd h hget, fun _ => ?_⟩
  refine (wp_ite _ _ _).mpr ⟨fun _ => ?_, fun _ => ?_⟩
  · exact (wp_ite _ _ _).mpr ⟨fun h => absurd rfl h, fun _ => trivial⟩
  refine (wp_ite _ _ _).mpr ⟨fun _ => delete_wp fun _ h => absurd rfl h, fun _ => ?_⟩
  refine (wp_ite _ _ _).mpr ⟨fun hpost => create_wp hv _ ?_, fun _ => trivial⟩
  rw [isCreate, hpost, hroot]
  rfl

theorem handle_wp (hv : Vouched env Good) (hexc : s.method = str "GET" → BadTemplate env → exc)
    (hlen : confReqRoot.length < s.uri.length) {t : Target} (hfound : t.Found s.uri s.method s.user Good) :
    wp env (Allowed Good s) exc (handle s s.uri s.method t) fun _ => True := by
  have hne : s.uri ≠ confReqRoot := fun e => by rw [e] at hlen; exact absurd hlen (lt_irrefl _)
  have hgood : s.method ≠ str "POST" → t.user = s.user → Good s.user t.id :=
    fun hm hu => hu ▸ hfound.good.resolve_right fun h => hm h.1
  unfold handle
  rw [if_neg hne]
  refine (wp_ite _ _ _).mpr ⟨fun h => ?_, fun _ => ?_⟩
  · exact getNode_wp hlen hfound.rest (hgood (by rw [h]; decide)) (hexc h)
  refine (wp_ite _ _ _).mpr ⟨fun h => ?_, fun _ => ?_⟩
  · exact put_wp hlen hfound.rest h (hgood (by rw [h]; decide))
  refine (wp_ite _ _ _).mpr ⟨fun h => ?_, fun _ => ?_⟩
  · exact delete_wp fun hu _ => hgood (by rw [h]; decide) hu
  exact (wp_ite _ _ _).mpr ⟨fun h => post_wp hv hlen hfound h, fun _ => trivial⟩

/-- A session that gets past the checks of the mode. -/
def admitted (s : Session) : Bool := s.authType ≠ .none && s.accessLevel = .vyattaCfg

/-- The request to see a node. -/
def showsNode (s : Session) : Bool := admitted s && s.method = str "GET" && s.uri ≠ confReqRoot

theorem process_wp (hv : Vouched env Good) (hexc : showsNode s = true → BadTemplate env → exc)
    (hroot_le : confReqRoot <+: s.uri) :
    wp env (Allowed Good s) exc (process s) fun s' =>
      admitted s = true → isListing s = true → IsListing Good s s' := by
  unfold process
  refine (wp_ite _ _ _).mpr ⟨fun h ha => ?_, fun hauth => ?_⟩
  · simp [admitted, h] at ha
  have hempty : s.uri.isEmpty = false := by
    obtain ⟨r, hr⟩ := hroot_le
    rw [← hr]
    rfl
  refine (wp_ite _ _ _).mpr ⟨fun h => ?_, fun _ => ?_⟩
  · rw [hempty] at h
    cases h
  refine (wp_ite _ _ _).mpr ⟨fun h => absurd h hroot_le.length_le.not_gt, fun _ => ?_⟩
  refine (wp_ite _ _ _).mpr ⟨fun h _ hl => ?_, fun _ => ?_⟩
  · simp only [isListing, Bool.and_eq_true, decide_eq_true_eq] at hl
    change s.method.isEmpty = true at h
    rw [hl.1] at h
    cases h
  refine (wp_ite _ _ _).mpr ⟨fun h ha => ?_, fun hlevel => ?_⟩
  · simp [admitted, h] at ha
  rcases hroot_le.length_le.lt_or_eq with hlen | hlen
  · refine (wp_bind _ _ _).mpr (wp_mono (lookup_wp hv hlen s.method s.user) fun r hr => ?_)
    have hroot : s.uri ≠ confReqRoot := fun e => by rw [e] at hlen; omega
    have hnot : isListing s = false := by
      rw [isListing, decide_eq_false hroot, Bool.and_false]
    have hshows : s.method = str "GET" → showsNode s = true := fun hget => by
      simp [showsNode, admitted, hauth, not_not.mp hlevel, hget, hroot]
    rcases r with _ | t
    · exact fun _ hl => by rw [hnot] at hl; cases hl
    · exact wp_mono (handle_wp hv (fun hget => hexc (hshows hget)) hlen (hr t rfl)) fun s' _ _ hl => by rw [hnot] at hl; cases hl
  · have hroot : s.uri = confReqRoot := (hroot_le.eq_of_length hlen).symm
    unfold lookup
    rw [if_pos (show s.uri.length ≤ confReqRoot.length from hlen.ge)]
    refine (wp_bind _ _ _).mpr ((wp_pure _ _).mpr ?_)
    by_cases hget : s.method = str "GET"
    · show wp _ _ _ (handle s s.uri s.method _) _
      rw [handle, if_pos hget, if_pos hroot]
      exact wp_mono (getListing_wp hv) fun s' h _ _ => h
    · refine wp_mono (handle_root_other_wp hv hroot hget) fun s' _ _ hl => ?_
      simp only [isListing, Bool.and_eq_true, decide_eq_true_eq] at hl
      exact absurd hl.1 hget

end

end ConfMode

end VyattaRest.Server
