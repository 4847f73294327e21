/-
  VyattaRest.ClientSession — the configuration session of the Perl client
  (lib/Vyatta/RestClient.pm: configure, set, commit, save, configure_exit and
  configure_exit_discard).

  The client keeps the location of its session and the number of its uncommitted commands. The
  methods are programs that send requests; the server keeps the live sessions and answers every
  request that names one of them with success. Client and server take turns, one request and one
  answer at a time.

  `configure` deletes the session it had under `rest/conf` and the location, which starts with
  `rest/conf` itself: the server reads `rest` as the id of that request.
  - `session_is_held`: in a run whose `configure` calls all come without a session, the server
    has at most one session of the client, the location names it, and `configure_exit` deletes
    it only when nothing is uncommitted.
  - `a_second_configure_leaks`: two `configure` in a row leave two sessions.
-/

import VyattaRest.Lib.Machine
import VyattaRest.RestClient
import VyattaRest.Server.ConfCalls
import VyattaRest.Server.Framing

namespace VyattaRest.RestClient

open VyattaRest.Lib VyattaRest.Lib.Prog VyattaRest.Rest VyattaRest.Server VyattaRest.Server.ConfMode

/-! ## The client -/

structure Request where
  method : Str
  url : Str
  deriving DecidableEq

/-- What the client looks at of a response. -/
structure Response where
  code : Nat
  statusLine : Str
  location : Option Str
  contentType : Option Str
  content : Str
  /-- `decode_json` of the content: `none` when it dies, else the member `message`. -/
  decoded : Option (Option Str)
  /-- What the object itself is as a text. -/
  object : Str
  deriving DecidableEq

def Response.isSuccess (r : Response) : Bool := 200 ≤ r.code && r.code < 300

/-- Neither of the two is true of an information or a redirection. -/
def Response.isError (r : Response) : Bool := 400 ≤ r.code && r.code < 600

/-- The libraries on the way: JSON at both ends, and how the client's prints a response. -/
structure Library where
  json : Str → Option Str
  decode : Str → Option (Option Str)
  statusLine : Nat → Str
  object : Str

/-- What the client gets of a response of the server; one without a status is a success. -/
def Library.response (lib : Library) (h : Http) : Response :=
  let body := Framing.outBody lib.json some h
  let code := ((Framing.shown h body .respCode).map (strtoul 10)).getD 200
  { code, statusLine := lib.statusLine code, location := h.params .respLocation, contentType := h.params .respContentType,
    content := body, decoded := lib.decode body, object := lib.object }

abbrev Wire := Prog Request fun _ => Response

def send (method url : Str) : Wire Response := perform ⟨method, url⟩

structure Client where
  target : Str
  confLoc : Option Str
  uncommitted : Option Nat

/-- What a method returns, as a Perl list. -/
abbrev Returned := List (Option Str)

def base (target : Str) : Str := str "https://" ++ target ++ str "/"

/-- What `_send_delete` returns; in the text the method call is not made. -/
def deleteError (url : Str) (response : Response) : Option Str :=
  if response.isSuccess then none
  else some (str "Error delete [" ++ url ++ str "] - " ++ response.object ++ str "->status_line")

/-- `_send_delete`; `configure` drops what it returns. -/
def sendDelete (url : Str) : Wire (Option Str) := do return deleteError url (← send (str "DELETE") url)

/-- `_get_error_message`. -/
def getErrorMessage (response : Response) : Option Str :=
  if response.contentType ≠ some (str "application/json") then none
  else
    match response.decoded with
    | some (some message) => if message ≠ str " " then some message else none
    | _ => none

/-- The text of a request that failed: the message of the server, or one of the client's. -/
def failure (what url : Str) (response : Response) : Returned :=
  match getErrorMessage response with
  | some message => [some message]
  | none => [some (what ++ str " [" ++ url ++ str "] - " ++ response.statusLine)]

def configure (c : Client) : Wire (Client × Returned) := do
  let url := base c.target ++ str "rest/conf"
  if let some location := c.confLoc then
    let _ ← sendDelete (url ++ str "/" ++ location)
  let response ← send (str "POST") url
  if response.isError then
    return ({ c with confLoc := none }, [some (str "configure failed [" ++ url ++ str "] - " ++ response.statusLine), none])
  return ({ c with confLoc := response.location, uncommitted := some 0 }, [])

def set (safe : UInt8 → Bool) (cmd : Str) (c : Client) : Wire (Client × Returned) :=
  match c.confLoc with
  | none => return (c, [some (str "set called without session [" ++ cmd ++ str "]")])
  | some location => do
    let url := base c.target ++ location ++ str "/" ++ cmd2path safe cmd
    let response ← send (str "PUT") url
    if response.isError then return (c, failure (str "set error on put") url response)
    return ({ c with uncommitted := some (c.uncommitted.getD 0 + 1) }, [])

/-- The client's own text of a failed commit is a list of two. -/
def commit (c : Client) : Wire (Client × Returned) :=
  match c.confLoc with
  | none => return (c, [some (str "commit called without session")])
  | some location => do
    let url := base c.target ++ location ++ str "/commit"
    let response ← send (str "POST") url
    let message := getErrorMessage response
    if response.isError then
      if let some message := message then return (c, [some message])
      return (c, [some (str "commit post failed [" ++ url ++ str "] - "), some response.statusLine])
    if let some message := message then return ({ c with uncommitted := some 0 }, [some (message ++ str "\n")])
    return ({ c with uncommitted := some 0 }, [])

def save (c : Client) : Wire (Client × Returned) :=
  match c.confLoc with
  | none => return (c, [some (str "save called without session")])
  | some location => do
    let url := base c.target ++ location ++ str "/save"
    let response ← send (str "POST") url
    if response.isError then return (c, failure (str "save post failed") url response)
    return (c, [])

def configureExit (c : Client) : Wire (Client × Returned) :=
  match c.confLoc with
  | none => return (c, [some (str "configure_exit called without session")])
  | some location => do
    if 0 < c.uncommitted.getD 0 then return (c, [some (str "uncommitted changes")])
    let url := base c.target ++ location
    let c := { c with confLoc := none, uncommitted := none }
    let response ← send (str "DELETE") url
    if response.isError then return (c, failure (str "configure_exit delete failed") url response)
    return (c, [])

def configureExitDiscard (c : Client) : Wire (Client × Returned) :=
  match c.confLoc with
  | none => return (c, [some (str "configure_exit called without session")])
  | some _ => configureExit { c with uncommitted := some 0 }

inductive Method where
  | configure
  | set (cmd : Str)
  | commit
  | save
  | configureExit
  | configureExitDiscard
  deriving DecidableEq

def Method.run (safe : UInt8 → Bool) : Method → Client → Wire (Client × Returned)
  | .configure => RestClient.configure
  | .set cmd => RestClient.set safe cmd
  | .commit => RestClient.commit
  | .save => RestClient.save
  | .configureExit => RestClient.configureExit
  | .configureExitDiscard => RestClient.configureExitDiscard

/-! ## The server -/

/-- A token of `generate_token`. -/
structure SessionId where
  text : Str
  valid : text.length = 16 ∧ (47 : UInt8) ∉ text
  deriving DecidableEq

/-- A session, and whether it was made for this client. -/
structure Live where
  id : SessionId
  mine : Bool
  deriving DecidableEq

abbrev Server := List Live

def locationOf (id : SessionId) : Str := str "rest/conf/" ++ id.text

/-- The id in a `Location` header. -/
def createdId (location : Str) : Option SessionId :=
  if h : (location.drop 10).length = 16 ∧ (47 : UInt8) ∉ location.drop 10 then
    if location = str "rest/conf/" ++ location.drop 10 then some ⟨location.drop 10, h⟩ else none
  else none

/-- The path of a URL of the target. -/
def pathOf (target url : Str) : Str := url.drop (str "https://" ++ target).length

/-- The id a request names, as the head of `process` cuts it out (`lookup`). -/
def confId (path : Str) : Str :=
  substr (path.drop confReqRoot.length) 1 ((find (str "/") (confRest path)).getD npos)

/-- The sessions after a request and its answer, `none` for an answer the server does not give.
    It answers every request that makes a session or names a live one without an error, and a
    request that does neither does nothing. -/
def answer (target : Str) (s : Server) (rq : Request) (r : Response) : Option Server :=
  let path := pathOf target rq.url
  if isCreate rq.method path then
    match r.location.bind createdId with
    | none => none
    | some id => if r.isError || s.any (·.id = id) then none else some (⟨id, true⟩ :: s)
  else if s.any (·.id.text = confId path) then
    if r.isError then none
    else if rq.method = str "DELETE" then some (s.filter (·.id.text ≠ confId path)) else some s
  else some s

/-! ## Client and server -/

structure State where
  client : Client
  server : Server
  /-- The method that is running, and what is left of it. -/
  running : Option (Method × Wire (Client × Returned))
  /-- The number of successful sets since the last successful commit or configure. -/
  pending : Nat

inductive Label where
  | call (m : Method)
  | answer (r : Response)
  | ret

/-- How an answer changes what is pending. -/
def Method.count (m : Method) (rq : Request) (r : Response) (n : Nat) : Nat :=
  if r.isError then n
  else
    match m with
    | .set _ => n + 1
    | .commit => 0
    | .configure => if rq.method = str "POST" then 0 else n
    | _ => n

def step (safe : UInt8 → Bool) (st : State) : Label → Option State
  | .call m =>
    match st.running with
    | none => some { st with running := some (m, m.run safe st.client) }
    | some _ => none
  | .answer r =>
    match st.running with
    | some (m, .call rq k) =>
      (RestClient.answer st.client.target st.server rq r).map fun server =>
        { st with server, running := some (m, k r), pending := m.count rq r st.pending }
    | _ => none
  | .ret =>
    match st.running with
    | some (_, .ret (client, _)) => some { st with client, running := none }
    | _ => none

/-- A new client, with a server that has sessions of others. -/
structure Start (st : State) : Prop where
  confLoc : st.client.confLoc = none
  others : ∀ l ∈ st.server, l.mine = false
  idle : st.running = none

/-- The server has at most one session of the client, the location names it when no method
    runs, and `configure_exit` is about to delete only when nothing is pending. -/
structure Held (st : State) : Prop where
  one : (st.server.filter (·.mine)).length ≤ 1
  named : st.running = none → ∀ l ∈ st.server, l.mine = true → st.client.confLoc = some (locationOf l.id)
  clean : ∀ rq k, st.running = some (.configureExit, .call rq k) → rq.method = str "DELETE" → st.pending = 0

/-- `configure` is called without a session. -/
def Fresh (st : State) (l : Label) : Prop := l = .call .configure → st.client.confLoc = none

/-! ## Addresses -/

theorem pathOf_base (target x : Str) : pathOf target (base target ++ x) = str "/" ++ x := by
  rw [pathOf, base, List.append_assoc, List.append_assoc, ← List.append_assoc (str "https://"), List.drop_left]

theorem path_location (target : Str) (id : SessionId) (x : Str) :
    pathOf target (base target ++ locationOf id ++ x) = confReqRoot ++ str "/" ++ (id.text ++ x) := by
  rw [List.append_assoc, pathOf_base, locationOf]
  simp only [← List.append_assoc]
  rfl

theorem confRest_location (rest : Str) : confRest (confReqRoot ++ str "/" ++ rest) = rest := by
  rw [confRest, show confReqRoot.length + 1 = (confReqRoot ++ str "/").length from rfl, List.drop_left]

theorem confId_eq (rest : Str) :
    confId (confReqRoot ++ str "/" ++ rest) = rest.take ((find (str "/") rest).getD npos) := by
  rw [confId, confRest_location, substr, List.append_assoc, List.drop_left]
  rfl

theorem find_slash_id (id : SessionId) : find (str "/") id.text = none ∧
    ∀ x, find (str "/") (id.text ++ (str "/" ++ x)) = some 16 := by
  have hni : ¬ str "/" <:+: id.text := by
    rw [slash_eq]
    rintro ⟨a, b, h⟩
    exact id.valid.2 (h ▸ by simp)
  refine ⟨find_eq_none_iff.mpr hni, fun x => ?_⟩
  have htag : Tag (str "/") 47 := ⟨[], slash_eq, by simp⟩
  rw [find_at_tag htag hni x, id.valid.1]

/-- The server looks for the session of that id, and for its description. -/
theorem lookup_confId {path : Str} (hlen : confReqRoot.length < path.length) (method user : Str) :
    lookup path method user = (do
      match ← Server.readConfModifyFile (confId path) user [] with
      | (true, user, tag) => return some { confPathWithId := path.drop confReqRoot.length, id := confId path, tag, user }
      | (false, user, _) =>
        if method = str "POST" then
          return some { confPathWithId := path.drop confReqRoot.length, id := confId path, tag := confId path, user }
        else
          match ← Server.readConfModifyFileFromTag (confId path) user with
          | none => return none
          | some fId => return some { confPathWithId := path.drop confReqRoot.length, id := fId, tag := confId path, user }) := by
  have hdrop := drop_root_length hlen
  unfold lookup
  rw [if_neg (by omega), Server.substrFrom_of_le hlen.le, ret_bind, Server.substrFrom_of_le hdrop, ret_bind, drop_root_rest,
    Server.substrAt_of_le _ hdrop, ret_bind]
  rfl

theorem confId_location (id : SessionId) : confId (confReqRoot ++ str "/" ++ (id.text ++ [])) = id.text := by
  have hle : id.text.length ≤ npos := by
    rw [id.valid.1]
    decide
  rw [List.append_nil, confId_eq, (find_slash_id id).1]
  exact List.take_of_length_le hle

theorem createdId_some {location : Str} {id : SessionId} (h : createdId location = some id) : location = locationOf id := by
  unfold createdId at h
  split at h
  · split at h
    · cases h
      assumption
    · cases h
  · cases h

/-! ## Answers -/

section Answers

variable {target : Str} {s s' : Server} {r : Response}

theorem answer_post (h : answer target s ⟨str "POST", base target ++ str "rest/conf"⟩ r = some s') :
    ∃ id, r.location = some (locationOf id) ∧ r.isError = false ∧ s' = ⟨id, true⟩ :: s := by
  have hcreate : isCreate (str "POST") (pathOf target (base target ++ str "rest/conf")) = true := by
    rw [pathOf_base]
    decide
  rw [answer, if_pos hcreate] at h
  rcases hid : r.location.bind createdId with _ | id
  · simp [hid] at h
  · rw [hid] at h
    obtain ⟨location, hloc, hcreated⟩ := Option.bind_eq_some_iff.mp hid
    simp only at h
    split at h
    · cases h
    · rename_i hno
      cases h
      rw [Bool.or_eq_true, not_or] at hno
      exact ⟨id, hloc.trans (congrArg some (createdId_some hcreated)), by simpa using hno.1, rfl⟩

/-- A request under the location of a session that deletes nothing. -/
theorem answer_under {id : SessionId} {x method : Str} (hm : method ≠ str "DELETE")
    (h : answer target s ⟨method, base target ++ locationOf id ++ str "/" ++ x⟩ r = some s') : s' = s := by
  have hpath := path_location target id (str "/" ++ x)
  rw [← List.append_assoc] at hpath
  have hslash : isCreate method (confReqRoot ++ str "/" ++ (id.text ++ (str "/" ++ x))) = false := by
    rw [isCreate, hasConfPath, confRest_location, contains, (find_slash_id id).2]
    simp
  simp only [answer, hpath, hslash, Bool.false_eq_true, if_false, if_neg hm] at h
  split at h
  · split at h
    · cases h
    · cases h
      rfl
  · cases h
    rfl

theorem answer_delete {id : SessionId}
    (h : answer target s ⟨str "DELETE", base target ++ locationOf id⟩ r = some s') : s' = s.filter (·.id.text ≠ id.text) := by
  have hpath := path_location target id []
  rw [List.append_nil] at hpath
  have hdelete : isCreate (str "DELETE") (confReqRoot ++ str "/" ++ (id.text ++ [])) = false := by
    rw [isCreate]
    rfl
  simp only [answer, hpath, hdelete, Bool.false_eq_true, if_false, confId_location] at h
  split at h
  · split at h
    · cases h
    · simpa using h.symm
  · rename_i hnone
    cases h
    rw [List.filter_eq_self.mpr]
    intro l hl
    simp only [List.any_eq_true, not_exists, not_and] at hnone
    simpa using hnone l hl

end Answers
/-! ## What a method keeps -/

/-- The client's sessions on the server. -/
def mine (s : Server) : Server := s.filter (·.mine)

/-- Between two methods. -/
structure Idle (c : Client) (s : Server) (n : Nat) : Prop where
  one : (mine s).length ≤ 1
  named : ∀ l ∈ s, l.mine = true → c.confLoc = some (locationOf l.id)
  counted : ∀ loc, c.confLoc = some loc → (∃ id, loc = locationOf id) ∧ c.uncommitted = some n

/-- The server and the count after a request of a method. -/
def next (target : Str) (m : Method) : Server × Nat → Sigma (fun _ : Request => Response) → Option (Server × Nat)
  | (s, n), ⟨rq, r⟩ => (answer target s rq r).map fun s' => (s', m.count rq r n)

/-- A request that leaves at most one session, and that `configure_exit` may send. -/
def May (target : Str) (m : Method) (x : Server × Nat) (rq : Request) : Prop :=
  (∀ r s', answer target x.1 rq r = some s' → (mine s').length ≤ 1) ∧
    (m = .configureExit → rq.method = str "DELETE" → x.2 = 0)

/-- What is left of a method ends well. -/
def Ends (target : Str) (m : Method) (p : Wire (Client × Returned)) (s : Server) (n : Nat) : Prop :=
  p.within (next target m) (May target m) (fun r x => Idle r.1 x.1 x.2 ∧ r.1.target = target) (s, n)

section Methods

variable {c : Client} {s : Server} {n : Nat}

theorem next_some {target : Str} {m : Method} {rq : Request} {r : Response} {s s' : Server} {n n' : Nat}
    (h : next target m (s, n) ⟨rq, r⟩ = some (s', n')) : answer target s rq r = some s' ∧ n' = m.count rq r n := by
  obtain ⟨t, ht, heq⟩ := Option.map_eq_some_iff.mp h
  cases heq
  exact ⟨ht, rfl⟩

theorem Idle.mine_nil (h : Idle c s n) (hloc : c.confLoc = none) : mine s = [] := by
  refine List.filter_eq_nil_iff.mpr fun l hl hmine => ?_
  have := h.named l hl hmine
  rw [hloc] at this
  cases this

/-- A client without a session. -/
theorem idle_of_mine_nil (hs : mine s = []) (hc : c.confLoc = none) (n : Nat) : Idle c s n := by
  refine ⟨by simp [hs], fun l hl hmine => ?_, fun loc hloc => ?_⟩
  · exact absurd hmine (List.filter_eq_nil_iff.mp hs l hl)
  · rw [hc] at hloc
    cases hloc

/-- The client counts from `n` on. -/
theorem Idle.recount (h : Idle c s n) (n' : Nat) : Idle { c with uncommitted := some n' } s n' :=
  ⟨h.one, h.named, fun loc heq => ⟨(h.counted loc heq).1, rfl⟩⟩

theorem configure_ends (h : Idle c s n) (hloc : c.confLoc = none) : Ends c.target .configure (configure c) s n := by
  have hnil := h.mine_nil hloc
  have hone : ∀ id, mine (⟨id, true⟩ :: s) = [⟨id, true⟩] := by
    intro id
    rw [mine, List.filter_cons_of_pos rfl]
    exact congrArg _ hnil
  unfold configure
  rw [hloc]
  refine ⟨⟨fun r s' hs' => ?_, fun hm => by cases hm⟩, fun r x hx => ?_⟩
  · obtain ⟨id, -, -, rfl⟩ := answer_post hs'
    rw [hone]
    exact le_rfl
  · obtain ⟨s', n'⟩ := x
    obtain ⟨hs', rfl⟩ := next_some hx
    obtain ⟨id, hlocation, herr, rfl⟩ := answer_post hs'
    refine (within_ite _ _ _ _).mpr ⟨fun he => ?_, fun _ => ?_⟩
    · rw [herr] at he
      cases he
    · have hcount : Method.count .configure ⟨str "POST", base c.target ++ str "rest/conf"⟩ r n = 0 := by
        simp [Method.count, herr]
      rw [hcount, hlocation]
      refine ⟨⟨by rw [hone]; exact le_rfl, fun l hl hmine => ?_, fun loc heq => ?_⟩, rfl⟩
      · have hl : l ∈ mine (⟨id, true⟩ :: s) := List.mem_filter.mpr ⟨hl, hmine⟩
        rw [hone, List.mem_singleton] at hl
        rw [hl]
      · cases heq
        exact ⟨⟨id, rfl⟩, rfl⟩

/-- A request under the location of the session. -/
theorem under_ends (h : Idle c s n) {m : Method} {method : Str} (hm : method ≠ str "DELETE") {id : SessionId} {url x : Str}
    (hurl : url = base c.target ++ locationOf id ++ str "/" ++ x) {k : Response → Wire (Client × Returned)}
    (hk : ∀ r, Ends c.target m (k r) s (m.count ⟨method, url⟩ r n)) : Ends c.target m (send method url >>= k) s n := by
  subst hurl
  refine ⟨⟨fun r s' hs' => ?_, fun _ hdel => absurd hdel hm⟩, fun r y hy => ?_⟩
  · rw [answer_under hm hs']
    exact h.one
  · obtain ⟨s', n'⟩ := y
    obtain ⟨hs', rfl⟩ := next_some hy
    rw [answer_under hm hs']
    exact hk r

theorem set_ends (safe : UInt8 → Bool) (cmd : Str) (h : Idle c s n) : Ends c.target (.set cmd) (set safe cmd c) s n := by
  obtain ⟨target, _ | loc, uncommitted⟩ := c
  · exact ⟨h, rfl⟩
  obtain ⟨⟨id, rfl⟩, rfl⟩ := h.counted loc rfl
  refine under_ends h (by decide) rfl fun r => ?_
  refine (within_ite _ _ _ _).mpr ⟨fun he => ?_, fun he => ?_⟩
  · simp only [Method.count, he, if_true]
    exact ⟨h, rfl⟩
  · simp only [Method.count, if_neg he]
    exact ⟨h.recount (n + 1), rfl⟩

theorem commit_ends (h : Idle c s n) : Ends c.target .commit (commit c) s n := by
  obtain ⟨target, _ | loc, uncommitted⟩ := c
  · exact ⟨h, rfl⟩
  obtain ⟨⟨id, rfl⟩, rfl⟩ := h.counted loc rfl
  have hslash : str "/commit" = str "/" ++ str "commit" := by decide
  refine under_ends h (by decide) (by rw [hslash, ← List.append_assoc]) fun r => ?_
  refine (within_ite _ _ _ _).mpr ⟨fun he => ?_, fun he => ?_⟩
  · simp only [Method.count, he, if_true]
    rcases getErrorMessage r with _ | message
    · exact ⟨h, rfl⟩
    · exact ⟨h, rfl⟩
  · simp only [Method.count, if_neg he]
    rcases getErrorMessage r with _ | message
    · exact ⟨h.recount 0, rfl⟩
    · exact ⟨h.recount 0, rfl⟩

theorem save_ends (h : Idle c s n) : Ends c.target .save (save c) s n := by
  obtain ⟨target, _ | loc, uncommitted⟩ := c
  · exact ⟨h, rfl⟩
  obtain ⟨⟨id, rfl⟩, rfl⟩ := h.counted loc rfl
  have hslash : str "/save" = str "/" ++ str "save" := by decide
  refine under_ends h (by decide) (by rw [hslash, ← List.append_assoc]) fun r => ?_
  refine (within_ite _ _ _ _).mpr ⟨fun he => ?_, fun he => ?_⟩
  · simp only [Method.count, he, if_true]
    exact ⟨h, rfl⟩
  · simp only [Method.count, if_neg he]
    exact ⟨h, rfl⟩

/-- All sessions of the client have the id of its location. -/
theorem Idle.mine_deleted {id : SessionId} (h : Idle c s n) (hloc : c.confLoc = some (locationOf id)) :
    mine (s.filter (·.id.text ≠ id.text)) = [] := by
  refine List.filter_eq_nil_iff.mpr fun l hl hmine => ?_
  obtain ⟨hl, hid⟩ := List.mem_filter.mp hl
  have hname := h.named l hl hmine
  rw [hloc, Option.some.injEq, locationOf, locationOf] at hname
  exact absurd (List.append_cancel_left hname).symm (by simpa using hid)

/-- The DELETE of the session: without a count for `configure_exit_discard`. -/
theorem exit_ends {m : Method} {id : SessionId} {u : Option Nat} (h : Idle c s n) (hloc : c.confLoc = some (locationOf id))
    (hu : u.getD 0 = 0) (hzero : m = .configureExit → n = 0) :
    Ends c.target m (configureExit { c with uncommitted := u }) s n := by
  obtain ⟨target, confLoc, uncommitted⟩ := c
  cases hloc
  have hgone := h.mine_deleted rfl
  refine (within_ite _ _ _ _).mpr ⟨fun hlt => ?_, fun _ => ?_⟩
  · exact absurd hu (Nat.pos_iff_ne_zero.mp hlt)
  refine ⟨⟨fun r s' hs' => ?_, fun hm _ => hzero hm⟩, fun r x hx => ?_⟩
  · rw [answer_delete hs', hgone]
    exact Nat.zero_le 1
  · obtain ⟨s', n'⟩ := x
    obtain ⟨hs', -⟩ := next_some hx
    rw [answer_delete hs']
    refine (within_ite _ _ _ _).mpr ⟨fun _ => ?_, fun _ => ?_⟩
    · exact ⟨idle_of_mine_nil hgone rfl _, rfl⟩
    · exact ⟨idle_of_mine_nil hgone rfl _, rfl⟩

theorem configureExit_ends (h : Idle c s n) : Ends c.target .configureExit (configureExit c) s n := by
  obtain ⟨target, _ | loc, uncommitted⟩ := c
  · exact ⟨h, rfl⟩
  obtain ⟨⟨id, rfl⟩, hcount⟩ := h.counted loc rfl
  cases hcount
  rcases Nat.eq_zero_or_pos n with rfl | hpos
  · exact exit_ends (u := some 0) h rfl rfl fun _ => rfl
  · exact (within_ite _ _ _ _).mpr ⟨fun _ => ⟨h, rfl⟩, fun hno => absurd hpos hno⟩

theorem configureExitDiscard_ends (h : Idle c s n) :
    Ends c.target .configureExitDiscard (configureExitDiscard c) s n := by
  obtain ⟨target, _ | loc, uncommitted⟩ := c
  · exact ⟨h, rfl⟩
  obtain ⟨⟨id, rfl⟩, -⟩ := h.counted loc rfl
  exact exit_ends (u := some 0) h rfl rfl fun hm => nomatch hm

theorem run_ends (safe : UInt8 → Bool) (m : Method) (h : Idle c s n) (hfresh : m = .configure → c.confLoc = none) :
    Ends c.target m (m.run safe c) s n := by
  cases m with
  | configure => exact configure_ends h (hfresh rfl)
  | set cmd => exact set_ends safe cmd h
  | commit => exact commit_ends h
  | save => exact save_ends h
  | configureExit => exact configureExit_ends h
  | configureExitDiscard => exact configureExitDiscard_ends h

end Methods

/-! ## Runs -/

/-- In every state: what is left of a running method ends well. -/
structure Kept (st : State) : Prop where
  one : (mine st.server).length ≤ 1
  idle : st.running = none → Idle st.client st.server st.pending
  ends : ∀ m p, st.running = some (m, p) → Ends st.client.target m p st.server st.pending

theorem Start.kept {st : State} (h : Start st) : Kept st := by
  have hnil : mine st.server = [] := List.filter_eq_nil_iff.mpr fun l hl => by simp [h.others l hl]
  refine ⟨by simp [hnil], fun _ => idle_of_mine_nil hnil h.confLoc _, fun m p hrunning => ?_⟩
  rw [h.idle] at hrunning
  cases hrunning

theorem Kept.held {st : State} (h : Kept st) : Held st := by
  refine ⟨h.one, fun hidle => (h.idle hidle).named, fun rq k hrunning hdelete => ?_⟩
  exact (h.ends _ _ hrunning).1.2 rfl hdelete

theorem step_kept {safe : UInt8 → Bool} {st st' : State} {l : Label} (h : Kept st) (hfresh : Fresh st l)
    (hstep : step safe st l = some st') : Kept st' := by
  cases l with
  | call m =>
    rcases hrunning : st.running with _ | x
    · simp only [step, hrunning, Option.some.injEq] at hstep
      subst hstep
      refine ⟨h.one, fun hidle => (nomatch hidle), fun m' p hp => ?_⟩
      cases hp
      exact run_ends safe m (h.idle hrunning) fun hm => hfresh (hm ▸ rfl)
    · simp [step, hrunning] at hstep
  | answer r =>
    rcases hrunning : st.running with _ | ⟨m, ⟨⟩ | ⟨rq, k⟩ | _⟩
    · simp [step, hrunning] at hstep
    · simp [step, hrunning] at hstep
    · simp only [step, hrunning, Option.map_eq_some_iff] at hstep
      obtain ⟨server, hserver, rfl⟩ := hstep
      obtain ⟨hmay, hrest⟩ := h.ends _ _ hrunning
      refine ⟨hmay.1 r server hserver, fun hidle => (nomatch hidle), fun m' p hp => ?_⟩
      cases hp
      exact hrest r _ (by simp [next, hserver])
    · simp [step, hrunning] at hstep
  | ret =>
    rcases hrunning : st.running with _ | ⟨m, ⟨client, ret⟩ | ⟨rq, k⟩ | _⟩
    · simp [step, hrunning] at hstep
    · simp only [step, hrunning, Option.some.injEq] at hstep
      subst hstep
      exact ⟨h.one, fun _ => (h.ends _ _ hrunning).1, fun m' p hp => nomatch hp⟩
    · simp [step, hrunning] at hstep
    · simp [step, hrunning] at hstep

/-- In every run whose `configure` calls come without a session, every state reached is as it
    should be. -/
theorem session_is_held {safe : UInt8 → Bool} {st₀ st : State} {tr : List Label} (h₀ : Start st₀)
    (hrun : Run (step safe) Fresh st₀ tr st) : Held st :=
  (hrun.invariant h₀.kept step_kept).held

/-- A client of `router`, and nobody else. -/
def start : State := ⟨⟨str "router", none, none⟩, [], none, 0⟩

theorem start_start : Start start := ⟨rfl, fun _ h => (nomatch h), rfl⟩

def created (id : Str) : Response :=
  ⟨201, str "201 Created", some (str "rest/conf/" ++ id), none, [], none, str "HTTP::Response=HASH(0x1)"⟩

/-- A success with a message. -/
def saying (message : Str) : Response :=
  ⟨200, str "200 OK", none, some (str "application/json"), str "\x7b \"message\": \"" ++ message ++ str "\" \x7d",
    some (some message), str "HTTP::Response=HASH(0x1)"⟩

def success : Response := saying (str " ")

def failed : Response := ⟨400, str "400 Bad Request", none, none, [], none, str "HTTP::Response=HASH(0x1)"⟩

def freshCheck (st : State) : Label → Bool
  | .call .configure => st.client.confLoc.isNone
  | _ => true

theorem freshCheck_fresh {st : State} {l : Label} (h : freshCheck st l = true) : Fresh st l := by
  rintro rfl
  simpa [freshCheck] using h

/-- `configure`, `set`, `commit`, and up to the DELETE of `configure_exit`. -/
theorem a_session_is_left : ∃ st, Run (step isUnreserved) Fresh start
      [.call .configure, .answer (created (str "0000000000000001")), .ret,
       .call (.set (str "set system host-name r1")), .answer success, .ret, .call .commit, .answer success, .ret,
       .call .configureExit] st ∧
    (mine st.server).length = 1 ∧ Held st := by
  have hexec : (execWhile (step isUnreserved) freshCheck start
      [.call .configure, .answer (created (str "0000000000000001")), .ret,
       .call (.set (str "set system host-name r1")), .answer success, .ret, .call .commit, .answer success, .ret,
       .call .configureExit]).any (fun st => decide ((mine st.server).length = 1)) = true := by decide
  obtain ⟨st, hrun, hone⟩ := exists_run_of_exec freshCheck_fresh hexec
  exact ⟨st, hrun, by simpa using hone, session_is_held start_start hrun⟩

/-- The session of the first `configure` is not deleted by the second one, and nothing names it. -/
theorem a_second_configure_leaks : ∃ st, Start start ∧ Run (step isUnreserved) (fun _ _ => True) start
      [.call .configure, .answer (created (str "0000000000000001")), .ret,
       .call .configure, .answer failed, .answer (created (str "0000000000000002")), .ret] st ∧
    (mine st.server).length = 2 ∧ ¬ Held st := by
  have hexec : (execWhile (step isUnreserved) (fun _ _ => true) start
      [.call .configure, .answer (created (str "0000000000000001")), .ret,
       .call .configure, .answer failed, .answer (created (str "0000000000000002")), .ret]).any
      (fun st => decide ((mine st.server).length = 2)) = true := by decide
  obtain ⟨st, hrun, htwo⟩ := exists_run_of_exec (fun _ => trivial) hexec
  have htwo : (mine st.server).length = 2 := by simpa using htwo
  refine ⟨st, start_start, hrun, htwo, fun h => ?_⟩
  have hone := h.one
  rw [← mine, htwo] at hone
  exact absurd hone (by decide)

end VyattaRest.RestClient
