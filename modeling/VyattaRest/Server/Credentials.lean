/-
  VyattaRest.Server.Credentials — the process's ids from one request to the next (main.cc,
  authbasic.cc, authsession.cc).

  A login moves the effective ids and the supplementary groups of the server. At the end of
  each request `main` asks for its user and group id back; the calls it makes for that depend on
  the effective id they are made with, so their order counts. Nobody asks for the groups back.
  - `credentials_stay_iff`: at every `FCGI_Accept` the process is who it was before the first
    request, exactly if `setgroups` succeeds only with the groups it had then.
  - `a_wrong_password_changes_the_groups`: an attempt to log in leaves the user's groups behind.
-/

import VyattaRest.Server.Access
import VyattaRest.Server.ConfCalls
import VyattaRest.Lib.Machine

namespace VyattaRest.Server.Credentials

open VyattaRest.Lib VyattaRest.Rest VyattaRest.Lib.Prog

/-! ## Ids -/

structure Ids where
  real : Nat
  effective : Nat
  saved : Nat
  deriving DecidableEq

def Ids.all (x : Nat) : Ids := ⟨x, x, x⟩

def Ids.holds (i : Ids) (x : Nat) : Bool := x = i.real || x = i.saved

structure Cred where
  uid : Ids
  gid : Ids
  groups : List Nat
  deriving DecidableEq

def Cred.privileged (c : Cred) : Bool := c.uid.effective = 0

/-- `setuid` and `setgid` on one kind of id: all three for a privileged process, else the
    effective one, if it is among the others. `none` is an answer they do not give. -/
def setIds (privileged : Bool) (i : Ids) (x : Nat) : Bool → Option Ids
  | true => if privileged then some (.all x) else if i.holds x then some { i with effective := x } else none
  | false => if privileged || i.holds x then none else some i

/-- `seteuid` and `setegid`, which may always fail. -/
def setEffective (privileged : Bool) (i : Ids) (x : Nat) : Bool → Option Ids
  | true => if privileged || i.holds x then some { i with effective := x } else none
  | false => some i

/-- What a call and its answer make of the ids. -/
def posix (c : Cred) : Sigma Call.Answer → Option Cred
  | ⟨.setgroups groups, true⟩ => if c.privileged then some { c with groups } else none
  | ⟨.setegid gid, a⟩ => (setEffective c.privileged c.gid gid a).map fun gid => { c with gid }
  | ⟨.seteuid uid, a⟩ => (setEffective c.privileged c.uid uid a).map fun uid => { c with uid }
  | ⟨.setuid uid, a⟩ => (setIds c.privileged c.uid uid a).map fun uid => { c with uid }
  | ⟨.setgid gid, a⟩ => (setIds c.privileged c.gid gid a).map fun gid => { c with gid }
  | _ => some c

def posixAll (c : Cred) (tr : Trace) : Option Cred := after posix c tr

/-! ## The server -/

/-- The process before the first request. -/
def root (groups : List Nat) : Cred := ⟨.all 0, .all 0, groups⟩

/-- A request, and all that was asked and answered while it was served. -/
structure Served where
  request : RequestEnv
  calls : Trace

/-- A request that is served to its end. -/
def step (fuel : Nat) (c : Cred) (l : Served) : Option Cred :=
  match (serve fuel 0 0 l.request).replay l.calls with
  | some (.ret _) => posixAll c l.calls
  | _ => none

/-- Whenever `setgroups` succeeds, the groups that were reported last are those of the
    server. -/
def ownGroups (groups : List Nat) : Option (List Nat) → Trace → Bool
  | _, [] => true
  | _, ⟨.getgrouplist _ _, some reported⟩ :: tr => ownGroups groups (some reported) tr
  | reported, ⟨.setgroups _, true⟩ :: tr => decide (reported = some groups) && ownGroups groups reported tr
  | reported, _ :: tr => ownGroups groups reported tr

/-! ## What the modes ask for -/

/-- The calls that have to do with ids. -/
def asksIds : Call → Bool
  | .getgrouplist _ _ | .setgroups _ | .setegid _ | .seteuid _ | .setuid _ | .setgid _ => true
  | _ => false

/-- A program that leaves the ids alone. -/
abbrev Plain {α : Type} (p : Act α) : Prop := wp (fun _ _ => True) (fun c => asksIds c = false) True p fun _ => True

section Plain

variable {α β : Type}

theorem plain_bind {p : Act α} {f : α → Act β} (h : Plain p) (h' : ∀ a, Plain (f a)) : Plain (p >>= f) :=
  (wp_bind _ _ _).mpr (wp_mono h fun a _ => h' a)

theorem plain_call {c : Call} {f : c.Answer → Act β} (h : asksIds c = false) (h' : ∀ a, Plain (f a)) :
    Plain (perform c >>= f) := plain_bind ⟨h, fun _ _ => trivial⟩ h'

theorem plain_ite {c : Prop} [Decidable c] {p q : Act α} (h : Plain p) (h' : Plain q) : Plain (if c then p else q) :=
  (wp_ite _ _ _).mpr ⟨fun _ => h, fun _ => h'⟩

theorem substrAt_plain (s : Str) (pos n : Nat) : Plain (substrAt s pos n) := by
  unfold substrAt
  split <;> trivial

theorem withConnections_plain {body : Act α} (h : Plain body) : Plain (Configuration.withConnections body) := by
  refine plain_call rfl fun _ => plain_call rfl fun _ => plain_bind h fun a => ?_
  exact plain_call rfl fun _ => plain_call rfl fun _ => trivial

theorem opTemplateEntries_plain : ∀ (entries : List Str) (cpath : Str) (p : TemplateParams),
    Plain (Configuration.opTemplateEntries entries cpath p) := by
  intro entries
  induction entries with
  | nil => exact fun _ _ => trivial
  | cons entry rest ih =>
    intro cpath p
    rw [Configuration.opTemplateEntries]
    split
    · exact ih _ _
    · refine plain_ite (ih _ _) (plain_ite ?_ (plain_ite (ih _ _) (ih _ _)))
      exact plain_call rfl fun allowed => ih _ _

theorem getOperationalNode_plain (nodePath : Str) (p : TemplateParams) :
    Plain (Configuration.getOperationalNode nodePath p) := by
  refine plain_call rfl fun tmpl => ?_
  cases tmpl with
  | none => exact plain_call rfl fun children => by split <;> trivial
  | some entries =>
    exact plain_bind (opTemplateEntries_plain _ _ _) fun _ => plain_call rfl fun children => by split <;> trivial

theorem getTemplateNode_plain (cpath : Str) (p : TemplateParams) : Plain (Configuration.getTemplateNode cpath p) := by
  have hok : ∀ c : Call, c.isQuery = true → asksIds c = false := fun c h => by cases c <;> first | rfl | cases h
  exact wp_mono (Configuration.getTemplateNode_wp hok cpath p) fun _ _ => trivial

end Plain

namespace MultiResponseCommand

open Server.MultiResponseCommand

theorem write_plain (m : Str) : Plain (write m) := plain_ite ⟨rfl, fun _ _ => trivial⟩ trivial

theorem start_plain (user cmd : Str) : Plain (start user cmd) := by
  refine plain_call rfl fun tok => ?_
  rcases Chunker.request .command tok cmd user with _ | m
  · trivial
  · exact plain_bind (write_plain m) fun sent => plain_ite trivial trivial

theorem ask_plain (k : Chunker.Kind) (tok user : Str) : Plain (ask k tok user) := by
  unfold ask
  rcases Chunker.request k tok [] user with _ | m
  · trivial
  · exact plain_bind (write_plain m) fun sent => plain_ite ⟨rfl, fun _ _ => trivial⟩ trivial

theorem processDetails_plain (user id : Str) : Plain (processDetails user id) :=
  plain_bind (ask_plain _ _ _) fun reply => by cases reply <;> trivial

theorem processes_plain (user : Str) : Plain (processes user) :=
  plain_bind (ask_plain _ _ _) fun reply => by cases reply <;> trivial

theorem readChunk_plain (token : Str) (pos : Int) : Plain (readChunk token pos) := by
  refine plain_call rfl fun found => plain_ite (plain_call rfl fun chunk => trivial) ?_
  refine plain_call rfl fun ended => plain_ite ?_ trivial
  exact plain_call rfl fun _ => plain_call rfl fun _ => trivial

theorem chunkFrom_plain (token : Str) (pos : Int) : Plain (chunkFrom token pos) := by
  have hread := readChunk_plain token pos
  exact plain_ite (plain_call rfl fun e => plain_ite trivial hread) hread

theorem getChunk_plain (user token : Str) : Plain (getChunk user token) := by
  refine plain_bind (ask_plain _ _ _) fun reply => ?_
  rcases reply.bind (Chunker.chunkPos user token) with _ | pos
  · trivial
  · exact chunkFrom_plain token pos

theorem kill_plain (user tok : Str) : Plain (kill user tok) := by
  unfold kill
  rcases Chunker.request .delete tok [] user with _ | m
  · trivial
  · exact plain_bind (write_plain m) fun _ => trivial

end MultiResponseCommand

namespace OpMode

open Server.OpMode Credentials.MultiResponseCommand

theorem post_plain (s : Session) (path : Str) : Plain (post s path) := by
  refine plain_ite trivial (plain_bind (substrAt_plain _ _ _) fun cmd => plain_call rfl fun opened => ?_)
  refine plain_ite trivial (plain_bind (start_plain _ _) fun id => ?_)
  exact plain_ite trivial trivial

theorem mapM_plain {α β : Type} {f : α → Act β} (h : ∀ a, Plain (f a)) (l : List α) : Plain (l.mapM f) := by
  have loop : ∀ (l : List α) (acc : List β), Plain (List.mapM.loop f l acc) := by
    intro l
    induction l with
    | nil => exact fun _ => trivial
    | cons a l ih => exact fun acc => plain_bind (h a) fun b => ih (b :: acc)
  exact loop l []

theorem listingRow_plain (pd : Chunker.Listed) : Plain (listingRow pd) := plain_call rfl fun _ => trivial

theorem getListing_plain (s : Session) : Plain (getListing s) := by
  refine plain_call rfl fun opened => plain_ite trivial (plain_bind (processes_plain _) fun coll => ?_)
  exact plain_bind (mapM_plain listingRow_plain coll) fun _ => trivial

theorem validateOpCmd_plain (cmd : Str) : Plain (validateOpCmd cmd) := by
  refine plain_ite trivial (plain_call rfl fun opened => plain_ite trivial ?_)
  refine plain_bind (substrAt_plain _ _ _) fun tmp => plain_call rfl fun known => ?_
  exact plain_call rfl fun _ => trivial

theorem getNode_plain (s : Session) (opPath : Str) : Plain (getNode s opPath) :=
  withConnections_plain (plain_bind (getOperationalNode_plain _ _) fun _ => trivial)

theorem getSegment_plain (s : Session) (path : Str) : Plain (getSegment s path) := by
  refine plain_ite trivial (plain_ite trivial (plain_call rfl fun opened => plain_ite trivial ?_))
  refine plain_bind (processDetails_plain _ _) fun details => ?_
  cases details with
  | none => trivial
  | some pd =>
    refine plain_ite trivial (plain_call rfl fun opened => plain_ite trivial ?_)
    refine plain_bind (getChunk_plain _ _) fun out => plain_ite ?_ (plain_ite trivial trivial)
    refine plain_call rfl fun opened => plain_ite trivial ?_
    exact plain_bind (kill_plain _ _) fun _ => trivial

theorem get_plain (s : Session) (path : Str) : Plain (get s path) := by
  refine plain_ite (getListing_plain s) (plain_bind (validateOpCmd_plain path) fun known => ?_)
  cases known with
  | none => exact getSegment_plain s path
  | some opPath => exact getNode_plain s opPath

theorem delete_plain (s : Session) (path : Str) : Plain (delete s path) := by
  refine plain_ite trivial (plain_call rfl fun opened => plain_ite trivial ?_)
  exact plain_bind (kill_plain _ _) fun _ => trivial

theorem process_plain (s : Session) : Plain (process s) := by
  refine plain_ite trivial (plain_ite trivial (plain_ite trivial ?_))
  exact plain_ite (post_plain _ _) (plain_ite (get_plain _ _) (plain_ite (delete_plain _ _) trivial))

end OpMode

/-! ### The other modes -/

theorem runScript_plain (s : Session) (cmd : Str) (failure : ErrorType) : Plain (Mode.runScript s cmd failure) := by
  refine plain_call rfl fun written => plain_ite trivial (plain_call rfl fun out => ?_)
  exact plain_call rfl fun _ => trivial

theorem appMode_plain (s : Session) : Plain (AppMode.process s) := by
  refine plain_ite trivial (plain_ite trivial (plain_bind (substrAt_plain _ _ _) fun command => ?_))
  exact plain_ite trivial (runScript_plain _ _ _)

theorem serviceRows_plain : ∀ (fuel : Nat) (rows : List NodeParams) (json : Json),
    Plain (ServiceMode.serviceRows fuel rows json) := by
  intro fuel
  induction fuel with
  | zero =>
    intro rows json
    cases rows <;> trivial
  | succ fuel ih =>
    intro rows json
    cases rows with
    | nil => trivial
    | cons np rest =>
      refine plain_bind (getTemplateNode_plain _ _) fun r => ?_
      cases r with
      | none => exact ih _ _
      | some p => exact ih _ _

theorem walk_plain : ∀ (segments : List Str) (path : Str), Plain (ServiceMode.walk segments path) := by
  intro segments
  induction segments with
  | nil => exact fun _ => trivial
  | cons e rest ih =>
    intro path
    refine plain_call rfl fun found => plain_ite (ih _) ?_
    refine plain_call rfl fun found => plain_ite (ih _) trivial

theorem serviceMode_plain (fuel : Nat) (s : Session) : Plain (ServiceMode.process fuel s) := by
  refine plain_ite trivial (plain_ite trivial (plain_ite ?_ (plain_ite ?_ trivial)))
  · refine withConnections_plain (plain_bind (getOperationalNode_plain _ _) fun params => ?_)
    exact plain_bind (serviceRows_plain _ _ _) fun json => trivial
  · refine plain_bind ?_ fun path => plain_ite trivial (plain_bind (substrAt_plain _ _ _) fun command => ?_)
    · exact plain_ite trivial (plain_bind (substrAt_plain _ _ _) fun tmp => walk_plain _ _)
    · exact plain_ite trivial (runScript_plain _ _ _)

theorem mapEntry_plain (entry : Str) : Plain (Permissions.mapEntry entry) := by
  unfold Permissions.mapEntry
  rcases find (str "=") entry with _ | eq
  · trivial
  refine plain_bind (substrAt_plain _ _ _) fun key => plain_bind (substrAt_plain _ _ _) fun perm => ?_
  refine plain_ite ?_ trivial
  rcases find (str ":") key with _ | pos
  · trivial
  · exact plain_bind (substrAt_plain _ _ _) fun rnum => plain_bind (substrAt_plain _ _ _) fun path => trivial

theorem mapToJson_plain : ∀ entries : List Str, Plain (Permissions.mapToJson entries) := by
  intro entries
  induction entries with
  | nil => trivial
  | cons entry rest ih =>
    refine plain_bind (mapEntry_plain entry) fun obj => ?_
    cases obj with
    | none => exact ih
    | some obj => exact plain_bind ih fun rest => trivial

theorem permissions_plain (s : Session) : Plain (Permissions.process s) := by
  refine plain_ite trivial (plain_ite trivial (plain_ite trivial (plain_ite ?_ trivial)))
  refine plain_bind ?_ fun conf => plain_bind ?_ fun op => plain_call rfl fun resp => trivial
  all_goals
    refine plain_call rfl fun opened => plain_ite trivial (plain_call rfl fun perm => ?_)
    exact plain_call rfl fun _ => plain_bind (mapToJson_plain perm) fun rules => trivial

theorem confMode_plain {s : Session} (h : confReqRoot <+: s.uri) : Plain (ConfMode.process s) := by
  have hv : ConfMode.Vouched (fun _ _ => True) fun _ _ => True := ⟨fun _ _ => trivial, fun _ _ => trivial⟩
  have hok : ∀ c, ConfMode.Allowed (fun _ _ => True) s c → asksIds c = false := fun c hc => by cases c <;> trivial
  exact wp_mono (wp_allow (ConfMode.process_wp hv (fun _ _ => trivial) h) hok) fun _ _ => trivial

theorem dispatch_plain (fuel : Nat) (s : Session) : Plain (dispatch fuel s) := by
  unfold dispatch
  split
  · rename_i r hr
    cases r with
    | service => exact serviceMode_plain fuel s
    | app => exact appMode_plain s
    | op => exact OpMode.process_plain s
    | conf => exact confMode_plain (route_conf hr)
    | perm => exact permissions_plain s
  · trivial

/-! ## What a login asks for -/

/-- What is remembered of a request: the groups that were reported last, and whether `setgroups`
    has been called. -/
structure Memo where
  reported : Option (List Nat)
  asked : Bool

def Memo.next (m : Memo) : Sigma Call.Answer → Memo
  | ⟨.getgrouplist _ _, some groups⟩ => { m with reported := some groups }
  | ⟨.setgroups _, _⟩ => { m with asked := true }
  | _ => m

/-- The groups are set once, to what was reported, and the real ids not at all. -/
def Memo.may (m : Memo) : Call → Prop
  | .setgroups groups => m.asked = false ∧ m.reported = some groups
  | .setuid _ | .setgid _ => False
  | _ => True

abbrev Within {α : Type} (p : Act α) (Q : α → Memo → Prop) (m : Memo) : Prop :=
  within (fun m x => some (m.next x)) Memo.may p Q m

section Login

variable {α β : Type}

theorem within_call (c : Call) (f : c.Answer → Act β) (Q : β → Memo → Prop) (m : Memo) :
    Within (perform c >>= f) Q m ↔ m.may c ∧ ∀ a, Within (f a) Q (m.next ⟨c, a⟩) :=
  and_congr_right fun _ => forall_congr' fun _ => ⟨fun h => h _ rfl, fun h _ e => Option.some.inj e ▸ h⟩

theorem within_plain {p : Act α} (h : Plain p) (m : Memo) : Within p (fun _ m' => m' = m) m := by
  have hnext : ∀ {m m' : Memo} {c : Call} {a : c.Answer}, asksIds c = false → some (m.next ⟨c, a⟩) = some m' → m' = m := by
    intro m m' c a hc hm
    cases hm
    cases c <;> first | rfl | cases hc
  refine within_mono (within_of_wp (R := fun m m' => m' = m) h (fun _ => rfl) (fun h h' => h'.trans h) (fun m c hc => ?_)
    hnext) fun _ _ => And.right
  cases c <;> trivial

/-- A plain part leaves what is remembered to the rest. -/
theorem within_plain_bind {p : Act α} {f : α → Act β} {Q : β → Memo → Prop} {m : Memo} (h : Plain p)
    (h' : ∀ a, Within (f a) Q m) : Within (p >>= f) Q m :=
  (within_bind _ _ _ _).mpr (within_mono (within_plain h m) fun a _ e => e ▸ h' a)

theorem checkGroups_plain : ∀ (gs : List Nat) (s : Session) (primary : Nat), Plain (checkGroups gs s primary) := by
  intro gs
  induction gs with
  | nil => exact fun _ _ => trivial
  | cons g gs ih =>
    intro s primary
    refine plain_call rfl fun gr => ?_
    cases gr with
    | none => exact ih _ _
    | some gr => exact plain_ite (ih _ _) (ih _ _)

theorem pam_plain (service user password : Str) : Plain (AuthBasic.pam service user password) := by
  refine plain_call rfl fun a => plain_ite trivial (plain_call rfl fun a => plain_ite trivial ?_)
  exact plain_call rfl fun a => plain_ite trivial ⟨rfl, fun _ _ => trivial⟩

theorem basic_account_within (s : Session) {m : Memo} (hm : m.asked = false) :
    Within (AuthBasic.account s) (fun _ _ => True) m := by
  refine (within_call _ _ _ _).mpr ⟨trivial, fun pw => ?_⟩
  cases pw with
  | none => trivial
  | some pw =>
    refine (within_call _ _ _ _).mpr ⟨trivial, fun groups => ?_⟩
    cases groups with
    | none => trivial
    | some groups =>
      refine within_plain_bind (checkGroups_plain _ _ _) fun r => ?_
      exact (within_call _ _ _ _).mpr ⟨⟨hm, rfl⟩, fun a => by cases a <;> trivial⟩

theorem basic_become_within (pw : Passwd) (primary : Nat) (m : Memo) :
    Within (AuthBasic.become pw primary) (fun _ _ => True) m := by
  refine (within_call _ _ _ _).mpr ⟨trivial, fun a => (within_ite _ _ _ _).mpr ⟨fun _ => trivial, fun _ => ?_⟩⟩
  refine (within_call _ _ _ _).mpr ⟨trivial, fun a => (within_ite _ _ _ _).mpr ⟨fun _ => trivial, fun _ => ?_⟩⟩
  exact ⟨trivial, fun _ _ _ => trivial⟩

theorem basic_within (val : Str) (s : Session) {m : Memo} (hm : m.asked = false) :
    Within (AuthBasic.authorized val s) (fun _ _ => True) m := by
  refine (within_ite _ _ _ _).mpr ⟨fun _ => trivial, fun _ => within_plain_bind (substrAt_plain _ _ _) fun auth => ?_⟩
  refine (within_ite _ _ _ _).mpr ⟨fun _ => trivial, fun _ => ?_⟩
  refine (within_call _ _ _ _).mpr ⟨trivial, fun out => ?_⟩
  simp only
  rcases find (str ":") (cstr out.1) with _ | pos
  · trivial
  refine within_plain_bind (substrAt_plain _ _ _) fun username => within_plain_bind (substrAt_plain _ _ _) fun password => ?_
  refine (within_ite _ _ _ _).mpr ⟨fun _ => ?_, fun _ => ?_⟩
  · exact within_plain_bind (pam_plain _ _ _) fun ok => (within_ite _ _ _ _).mpr ⟨fun _ => trivial, fun _ => trivial⟩
  · refine (within_bind _ _ _ _).mpr (within_mono (basic_account_within _ hm) fun r m' _ => ?_)
    rcases r with ⟨_ | ⟨pw, primary⟩, s'⟩
    · trivial
    refine within_plain_bind (pam_plain _ _ _) fun ok => (within_ite _ _ _ _).mpr ⟨fun _ => trivial, fun _ => ?_⟩
    refine (within_bind _ _ _ _).mpr (within_mono (basic_become_within _ _ _) fun ok m'' _ => ?_)
    exact (within_ite _ _ _ _).mpr ⟨fun _ => trivial, fun _ => trivial⟩

/-- The groups of a scan are those reported last, once there is an account. -/
def Memo.Backs (m : Memo) (st : AuthSession.Scan) : Prop :=
  m.asked = false ∧ (st.pw ≠ none → m.reported = some st.groups)

theorem session_account_within (st : AuthSession.Scan) {m : Memo} (hm : m.Backs st) :
    Within (AuthSession.account st) (fun r m' => ∀ st', r.1 = some st' → m'.Backs st') m := by
  refine (within_call _ _ _ _).mpr ⟨trivial, fun pw => ?_⟩
  cases pw with
  | none => exact fun st' h => (nomatch h)
  | some pw =>
    refine (within_call _ _ _ _).mpr ⟨trivial, fun groups => ?_⟩
    cases groups with
    | none => exact fun st' h => (nomatch h)
    | some groups =>
      refine within_plain_bind (checkGroups_plain _ _ _) fun r st' h => ?_
      cases h
      exact ⟨hm.1, fun _ => rfl⟩

theorem scan_within (auth : Str) (now : Nat) : ∀ (lines : List Str) (st : AuthSession.Scan) {m : Memo}, m.Backs st →
    Within (AuthSession.scan auth now lines st) (fun r m' => ∀ st', r = .inr st' → m'.Backs st') m := by
  intro lines
  induction lines with
  | nil =>
    intro st m hm st' h
    cases h
    exact hm
  | cons buf lines ih =>
    intro st m hm
    unfold AuthSession.scan
    refine (within_ite _ _ _ _).mpr ⟨fun _ => ih st hm, fun _ => (within_ite _ _ _ _).mpr ⟨fun _ => ?_, fun _ => ?_⟩⟩
    · refine (within_call _ _ _ _).mpr ⟨trivial, fun ok => (within_ite _ _ _ _).mpr ⟨fun _ => ih st hm, fun _ st' h => ?_⟩⟩
      cases h
      exact hm
    · refine (within_bind _ _ _ _).mpr (within_mono (Q := fun r m' => ∀ st', r.1 = some st' → m'.Backs st') ?_ fun r m' hr => ?_)
      · refine (within_ite _ _ _ _).mpr ⟨fun _ st' h => ?_, fun _ => session_account_within _ hm⟩
        cases h
        exact hm
      · rcases r with ⟨_ | st', s⟩
        · intro st' h
          cases h
        refine (within_call _ _ _ _).mpr ⟨trivial, fun ok => (within_ite _ _ _ _).mpr ⟨fun _ => ?_, fun _ => ?_⟩⟩
        · exact ih _ (hr st' rfl)
        · exact ih _ (hr st' rfl)

theorem session_become_within (pw : Passwd) {groups : List Nat} {m : Memo} (hm : m.asked = false)
    (hr : m.reported = some groups) : Within (AuthSession.become pw groups) (fun _ _ => True) m := by
  refine (within_call _ _ _ _).mpr ⟨trivial, fun a => (within_ite _ _ _ _).mpr ⟨fun _ => trivial, fun _ => ?_⟩⟩
  refine (within_call _ _ _ _).mpr ⟨⟨hm, hr⟩, fun a => (within_ite _ _ _ _).mpr ⟨fun _ => trivial, fun _ => ?_⟩⟩
  refine (within_call _ _ _ _).mpr ⟨trivial, fun a => (within_ite _ _ _ _).mpr ⟨fun _ => trivial, fun _ => ?_⟩⟩
  exact ⟨trivial, fun _ _ _ => trivial⟩

theorem underLock_within (auth : Str) (s : Session) {m : Memo} (hm : m.asked = false) :
    Within (AuthSession.underLock auth s) (fun _ _ => True) m := by
  refine (within_call _ _ _ _).mpr ⟨trivial, fun now => (within_call _ _ _ _).mpr ⟨trivial, fun lines => ?_⟩⟩
  have hstart : m.Backs { session := s, found := false, pw := none, groups := [] } := ⟨hm, fun h => absurd rfl h⟩
  refine (within_bind _ _ _ _).mpr (within_mono (scan_within auth now lines _ hstart) fun r m' hr => ?_)
  rcases r with s' | st
  · trivial
  refine (within_ite _ _ _ _).mpr ⟨fun _ => ?_, fun _ => trivial⟩
  rcases hpw : st.pw with _ | pw
  · trivial
  · simp only
    obtain ⟨hasked, hgroups⟩ := hr st rfl
    refine (within_bind _ _ _ _).mpr (within_mono (session_become_within pw hasked (hgroups ?_)) fun _ _ _ => trivial)
    rw [hpw]
    exact Option.some_ne_none pw

theorem keyAfter_plain (val marker : Str) : Plain (AuthSession.keyAfter val marker) := by
  unfold AuthSession.keyAfter
  split
  · trivial
  · exact substrAt_plain _ _ _

theorem session_within (val : Str) (s : Session) {m : Memo} (hm : m.asked = false) :
    Within (AuthSession.authorized val s) (fun _ _ => True) m := by
  refine (within_ite _ _ _ _).mpr ⟨fun _ => trivial, fun _ => within_plain_bind (keyAfter_plain _ _) fun key => ?_⟩
  refine within_plain_bind (keyAfter_plain _ _) fun auth => (within_ite _ _ _ _).mpr ⟨fun _ => trivial, fun _ => ?_⟩
  refine (within_call _ _ _ _).mpr ⟨trivial, fun ok => (within_ite _ _ _ _).mpr ⟨fun _ => ?_, fun _ => ?_⟩⟩
  · refine (within_bind _ _ _ _).mpr (within_mono (underLock_within _ s hm) fun r m' _ => ?_)
    exact (within_call _ _ _ _).mpr ⟨trivial, fun _ => trivial⟩
  · exact (within_call _ _ _ _).mpr ⟨trivial, fun _ => trivial⟩

theorem validate_within (s : Session) {m : Memo} (hm : m.asked = false) : Within (validate s) (fun _ _ => True) m := by
  refine (within_ite _ _ _ _).mpr ⟨fun _ => trivial,
    fun _ => (within_ite _ _ _ _).mpr ⟨fun _ => basic_within _ s hm, fun _ => ?_⟩⟩
  exact (within_ite _ _ _ _).mpr ⟨fun _ => session_within _ s hm, fun _ => trivial⟩

end Login

theorem answer_within (fuel : Nat) (rq : RequestEnv) : Within (answer fuel rq) (fun _ _ => True) ⟨none, false⟩ := by
  have plain : ∀ (s : Session) (m : Memo), Within (dispatch fuel s) (fun _ _ => True) m :=
    fun s m => within_mono (within_plain (dispatch_plain fuel s) m) fun _ _ _ => trivial
  unfold answer
  refine (within_ite _ _ _ _).mpr ⟨fun _ => plain _ _, fun _ => (within_ite _ _ _ _).mpr ⟨fun _ => trivial, fun _ => ?_⟩⟩
  refine (within_bind _ _ _ _).mpr (within_mono (validate_within _ rfl) fun r m _ => ?_)
  rcases r with ⟨_ | _, s⟩
  · trivial
  · exact plain s m

/-! ## From call to call -/

/-- The real and the saved ids are those of the server. -/
structure Cred.Kept (c : Cred) : Prop where
  uid : c.uid.real = 0 ∧ c.uid.saved = 0
  gid : c.gid.real = 0 ∧ c.gid.saved = 0

theorem setEffective_keeps {privileged a : Bool} {i i' : Ids} {x : Nat} (h : setEffective privileged i x a = some i') :
    i'.real = i.real ∧ i'.saved = i.saved := by
  cases a with
  | false =>
    cases h
    exact ⟨rfl, rfl⟩
  | true =>
    rw [setEffective] at h
    split at h
    · cases h
      exact ⟨rfl, rfl⟩
    · cases h

theorem posix_kept {c c' : Cred} {m : Memo} {x : Sigma Call.Answer} (h : c.Kept) (hm : m.may x.1)
    (hx : posix c x = some c') : c'.Kept := by
  unfold posix at hx
  split at hx
  · split at hx
    · cases hx
      exact ⟨h.uid, h.gid⟩
    · cases hx
  · obtain ⟨i, hi, rfl⟩ := Option.map_eq_some_iff.mp hx
    obtain ⟨hreal, hsaved⟩ := setEffective_keeps hi
    exact ⟨h.uid, hreal.trans h.gid.1, hsaved.trans h.gid.2⟩
  · obtain ⟨i, hi, rfl⟩ := Option.map_eq_some_iff.mp hx
    obtain ⟨hreal, hsaved⟩ := setEffective_keeps hi
    exact ⟨⟨hreal.trans h.uid.1, hsaved.trans h.uid.2⟩, h.gid⟩
  · cases hm
  · cases hm
  · cases hx
    exact h

theorem posixAll_kept : ∀ (tr : Trace) {m : Memo} {c c' : Cred}, Lawful (fun m x => some (m.next x)) Memo.may m tr →
    posixAll c tr = some c' → c.Kept → c'.Kept := by
  intro tr
  induction tr with
  | nil =>
    intro m c c' _ h hc
    cases h
    exact hc
  | cons x tr ih =>
    intro m c c' hl h hc
    obtain ⟨c₁, hx, hrest⟩ := Option.bind_eq_some_iff.mp h
    exact ih (hl.2 _ rfl) hrest (posix_kept hc hl.1 hx)

/-- Only `setgroups` moves the groups. -/
theorem posix_groups {c c' : Cred} {x : Sigma Call.Answer} (hx : posix c x = some c') (hne : ∀ gs, x.1 ≠ .setgroups gs) :
    c'.groups = c.groups := by
  unfold posix at hx
  split at hx
  · exact absurd rfl (hne _)
  all_goals first
    | cases hx; rfl
    | (obtain ⟨i, -, rfl⟩ := Option.map_eq_some_iff.mp hx; rfl)

theorem ownGroups_append {groups : List Nat} {a b : Trace} (hb : ∀ r, ownGroups groups r b = true) (r : Option (List Nat)) :
    ownGroups groups r (a ++ b) = ownGroups groups r a := by
  fun_induction ownGroups groups r a with
  | case1 => exact hb _
  | case2 _ _ _ _ _ ih => exact ih
  | case3 r _ _ ih => exact congrArg _ ih
  | case4 r x tr hne hne' ih =>
    rw [List.cons_append, ownGroups]
    · exact ih
    · exact hne
    · exact hne'

/-- A call that neither reports groups nor sets them. -/
theorem ownGroups_other {x : Sigma Call.Answer} (hset : ∀ gs, x.1 ≠ .setgroups gs)
    (hget : ∀ user gid, x.1 ≠ .getgrouplist user gid) (groups : List Nat) (r : Option (List Nat)) (tr : Trace) :
    ownGroups groups r (x :: tr) = ownGroups groups r tr := by
  rw [ownGroups]
  · intro user gid gs hx
    subst hx
    exact hget user gid rfl
  · intro gs hx
    subst hx
    exact hset gs rfl

/-- Where the groups end, once they have been set and before. -/
theorem posixAll_groups {groups : List Nat} :
    ∀ (tr : Trace) {m : Memo} {c c' : Cred}, Lawful (fun m x => some (m.next x)) Memo.may m tr →
    posixAll c tr = some c' →
    (m.asked = true → c'.groups = c.groups ∧ ownGroups groups m.reported tr = true) ∧
      (m.asked = false → c.groups = groups → (c'.groups = groups ↔ ownGroups groups m.reported tr = true)) := by
  intro tr
  induction tr with
  | nil =>
    intro m c c' _ h
    cases h
    exact ⟨fun _ => ⟨rfl, rfl⟩, fun _ hc => ⟨fun _ => rfl, fun _ => hc⟩⟩
  | cons x tr ih =>
    intro m c c' hl h
    obtain ⟨c₁, hx, hrest⟩ := Option.bind_eq_some_iff.mp h
    obtain ⟨hasked, hfresh⟩ := ih (hl.2 _ rfl) hrest
    by_cases hset : ∃ gs, x.1 = .setgroups gs
    · obtain ⟨call, a⟩ := x
      obtain ⟨gs, rfl⟩ := hset
      obtain ⟨hnot, hreported⟩ := hl.1
      obtain ⟨hgroups, hown⟩ := hasked rfl
      refine ⟨fun h => absurd h (by simp [hnot]), fun _ hc => ?_⟩
      cases a with
      | false =>
        cases hx
        exact ⟨fun _ => hown, fun _ => hgroups.trans hc⟩
      | true =>
        have hc₁ : c₁.groups = gs := by
          simp only [posix] at hx
          split at hx
          · cases hx
            rfl
          · cases hx
        rw [hgroups, hc₁, ownGroups, hreported, Bool.and_eq_true, decide_eq_true_eq, Option.some.injEq]
        exact ⟨fun e => ⟨e, hreported ▸ hown⟩, And.left⟩
    · have hset' : ∀ gs, x.1 ≠ .setgroups gs := fun gs e => hset ⟨gs, e⟩
      rw [posix_groups hx hset'] at hasked hfresh
      by_cases hget : ∃ user gid, x.1 = .getgrouplist user gid
      · obtain ⟨call, a⟩ := x
        obtain ⟨user, gid, rfl⟩ := hget
        rcases a with _ | reported <;> exact ⟨hasked, hfresh⟩
      · have hget' : ∀ user gid, x.1 ≠ .getgrouplist user gid := fun user gid e => hget ⟨user, gid, e⟩
        have hnext : m.next x = m := by
          obtain ⟨call, a⟩ := x
          cases call <;> first | rfl | exact absurd rfl (hset' _) | exact absurd rfl (hget' _ _)
        rw [hnext] at hasked hfresh
        rw [ownGroups_other hset' hget']
        exact ⟨hasked, hfresh⟩

/-! ## From request to request -/

/-- The process after `finish`: the ids are back, the groups are what they were before it. -/
theorem finish_restores {s : Session} {tr : Trace} {r : Http} {c c' : Cred} (hc : c.Kept)
    (hr : Exec (fun _ _ => True) (finish 0 0 s) tr (.ret r)) (h : posixAll c tr = some c') :
    c' = root c.groups ∧ ∀ groups reported, ownGroups groups reported tr = true := by
  obtain ⟨a, tr₁, -, rfl, h₁⟩ := Exec.call_inv hr
  obtain ⟨b, tr₂, -, rfl, h₂⟩ := Exec.call_inv h₁
  obtain ⟨d, tr₃, -, rfl, h₃⟩ := Exec.call_inv h₂
  obtain ⟨rfl, -⟩ := Exec.ret_inv h₃
  refine ⟨?_, fun _ _ => rfl⟩
  obtain ⟨⟨ur, ue, us⟩, ⟨gr, ge, gs⟩, groups⟩ := c
  obtain ⟨⟨rfl, rfl⟩, rfl, rfl⟩ := hc
  obtain ⟨c₁, hx, h⟩ := Option.bind_eq_some_iff.mp h
  obtain ⟨c₂, hy, h⟩ := Option.bind_eq_some_iff.mp h
  cases h
  have hc₁ : c₁ = ⟨.all 0, ⟨0, ge, 0⟩, groups⟩ := by
    cases a with
    | false => simp [posix, setIds, Ids.holds] at hx
    | true =>
      simp only [posix, setIds, Ids.holds, Ids.all, decide_true, Bool.or_self, if_true, Option.map_eq_some_iff] at hx
      obtain ⟨i, hi, rfl⟩ := hx
      split at hi <;> (cases hi; rfl)
  subst hc₁
  cases b with
  | false => cases hy
  | true =>
    cases hy
    rfl

theorem step_inv {fuel : Nat} {c c' : Cred} {l : Served} (h : step fuel c l = some c') :
    posixAll c l.calls = some c' ∧ ∃ r, Exec (fun _ _ => True) (serve fuel 0 0 l.request) l.calls (.ret r) := by
  unfold step at h
  split at h
  · rename_i r hreplay
    exact ⟨h, r, exec_of_replay (fun _ _ => trivial) hreplay⟩
  · cases h

/-- One request: the server is who it was, exactly if its groups were left to it. -/
theorem step_root_iff {fuel : Nat} {groups : List Nat} {c' : Cred} {l : Served} (h : step fuel (root groups) l = some c') :
    c' = root groups ↔ ownGroups groups none l.calls = true := by
  obtain ⟨hall, r, hr⟩ := step_inv h
  obtain ⟨tr₁, tr₂, s, htr, hanswer, hfinish⟩ := hr.bind_ret_inv
  rw [htr, posixAll, after_append] at hall
  obtain ⟨c₁, hfirst, hrest⟩ := Option.bind_eq_some_iff.mp hall
  have hlawful := hanswer.lawful (answer_within fuel l.request)
  have hkept : c₁.Kept := posixAll_kept tr₁ hlawful hfirst ⟨⟨rfl, rfl⟩, rfl, rfl⟩
  obtain ⟨rfl, hplain⟩ := finish_restores hkept hfinish hrest
  have hgroups : c₁.groups = groups ↔ ownGroups groups none tr₁ = true := (posixAll_groups tr₁ hlawful hfirst).2 rfl rfl
  rw [htr, ownGroups_append (hplain groups), ← hgroups]
  exact ⟨fun e => congrArg Cred.groups e, fun e => congrArg root e⟩

/-- In any run the process is, at every `FCGI_Accept`, who it was before the first request,
    exactly if no request sets other groups than the server's. -/
theorem credentials_stay_iff (fuel : Nat) (groups : List Nat) {tr : List Served} {c : Cred}
    (h : Run (step fuel) (fun _ _ => True) (root groups) tr c) :
    (∀ tr₁ tr₂ c₁, tr = tr₁ ++ tr₂ → Run (step fuel) (fun _ _ => True) (root groups) tr₁ c₁ → c₁ = root groups) ↔
      ∀ l ∈ tr, ownGroups groups none l.calls = true := by
  constructor
  · intro hsame l hl
    obtain ⟨a, b, rfl⟩ := List.append_of_mem hl
    have hsplit : a ++ l :: b = (a ++ [l]) ++ b := by simp
    rw [hsplit] at h
    obtain ⟨c₂, hfirst, -⟩ := h.split
    obtain ⟨c₁, hbefore, -, hstep⟩ := hfirst.last
    obtain rfl := hsame a (l :: b) c₁ rfl hbefore
    exact (step_root_iff hstep).mp (hsame (a ++ [l]) b c₂ hsplit hfirst)
  · intro hall tr₁ tr₂ c₁ htr hrun
    have hown : ∀ l ∈ tr₁, ownGroups groups none l.calls = true := fun l hl => hall l (htr ▸ List.mem_append_left _ hl)
    have hsame : root groups = c₁ := by
      refine (hrun.of_labels hown).invariant rfl fun {s l s'} hs hl hstep => ?_
      subst hs
      exact ((step_root_iff hstep).mpr hl).symm
    exact hsame.symm

/-! ## Logging in -/

/-- What `finish` asks for, and gets. -/
def finishCalls : Trace := [⟨.setuid 0, true⟩, ⟨.setgid 0, true⟩, ⟨.setloginuid 0, true⟩]

/-- A request with a user name and a password. -/
def basicRequest (code : Str) : RequestEnv :=
  { keyedRequest (str "GET") (str "/rest/op") [] with httpAuthorization := some (str "Basic " ++ code) }

/-- Alice's password is wrong: the groups are set before it is looked at. -/
def wrongPassword : Served where
  request := basicRequest (str "YWxpY2U6eA==")
  calls := [⟨.base64Decode (str "YWxpY2U6eA=="), (str "alice:x", 7)⟩, ⟨.getpwnam (str "alice"), some ⟨1001, 100⟩⟩,
    ⟨.getgrouplist (str "alice") 100, some [100]⟩, ⟨.getgrgid 100, none⟩, ⟨.setgroups [100], true⟩,
    ⟨.pamStart (str "login") (str "alice") (str "x"), true⟩, ⟨.pamAuthenticate, false⟩] ++ finishCalls

/-- The system refuses the groups. -/
def refusedGroups : Served where
  request := basicRequest (str "YWxpY2U6eA==")
  calls := [⟨.base64Decode (str "YWxpY2U6eA=="), (str "alice:x", 7)⟩, ⟨.getpwnam (str "alice"), some ⟨1001, 100⟩⟩,
    ⟨.getgrouplist (str "alice") 100, some [100]⟩, ⟨.getgrgid 100, none⟩, ⟨.setgroups [100], false⟩] ++ finishCalls

/-- Root logs in, and has the groups of the server. -/
def rootLogsIn : Served where
  request := basicRequest (str "cm9vdDp4")
  calls := [⟨.base64Decode (str "cm9vdDp4"), (str "root:x", 6)⟩, ⟨.getpwnam (str "root"), some ⟨0, 0⟩⟩,
    ⟨.getgrouplist (str "root") 0, some [0]⟩, ⟨.getgrgid 0, none⟩, ⟨.setgroups [0], true⟩,
    ⟨.pamStart (str "login") (str "root") (str "x"), true⟩, ⟨.pamAuthenticate, true⟩, ⟨.pamAcctMgmt, true⟩,
    ⟨.pamEnd, true⟩, ⟨.setloginuid 0, true⟩, ⟨.setegid 0, true⟩, ⟨.seteuid 0, true⟩, ⟨.connect, false⟩] ++ finishCalls

theorem own_groups_stay : ∃ c, Run (step 0) (fun _ _ => True) (root [0]) [refusedGroups, rootLogsIn] c ∧ c = root [0] := by
  have hexec : ((execWhile (step 0) (fun _ _ => true) (root [0]) [refusedGroups, rootLogsIn]).any fun _ => true) = true := by
    decide
  obtain ⟨c, hrun, -⟩ := exists_run_of_exec (fun {_ _} _ => trivial) hexec
  exact ⟨c, hrun, (credentials_stay_iff 0 [0] hrun).mpr (by decide) _ [] c (by simp) hrun⟩

theorem a_wrong_password_changes_the_groups : ∃ c,
    Run (step 0) (fun _ _ => True) (root [0]) [wrongPassword] c ∧ c.groups = [100] ∧ c ≠ root [0] := by
  have hexec : ((execWhile (step 0) (fun _ _ => true) (root [0]) [wrongPassword]).any fun c => c.groups = [100]) = true := by
    decide
  obtain ⟨c, hrun, hc⟩ := exists_run_of_exec (fun {_ _} _ => trivial) hexec
  have hgroups := of_decide_eq_true hc
  refine ⟨c, hrun, hgroups, fun e => ?_⟩
  rw [e] at hgroups
  exact absurd hgroups (by decide)

end VyattaRest.Server.Credentials
