/-
  VyattaRest.RoundTrip — an operational command on its way from the Perl client to the chunker,
  and its output on the way back.

  The parties are run as the programs they are: `run_op_cmd` (lib/Vyatta/RestClient.pm), the
  server's `dispatch` for every request (process.cc, opmode.cc), and the manager's `process` for
  every message that the server sends it (chunker2_manager.cc). Before each request the command
  may write another block of its output; with the last one it has finished.
  - `command_round_trip`: the client returns what the command has written, without the bytes it
    does not show, whatever the blocks are, if it does not ask in vain too often.
-/

import VyattaRest.ClientCommand
import VyattaRest.Paging
import VyattaRest.Server.Framing
import VyattaRest.Server.Main
import VyattaRest.Server.ServiceIndex

namespace VyattaRest.RoundTrip

open VyattaRest.Lib VyattaRest.Rest VyattaRest.Server VyattaRest.Chunker
open VyattaRest.RestClient (Request Response base pathOf cmd2path EscapeSet)
open VyattaRest.RestClient.Op (Reading Outcome runOpCmd readOpOutput question)

/-! ## The system -/

/-- What does not change: the token that is generated, the clock, the user of the client, what
    commands put out, the libraries at both ends, and all that the server asks of others than the
    chunker. -/
structure Site extends RestClient.Library where
  token : Str
  now : UInt64
  pid : Str
  target : Str
  user : Str
  output : Str → List Str
  world : (c : Server.Call) → c.Answer

structure State where
  table : ProcColl
  /-- The files of the token. -/
  data : Option Str
  ended : Bool
  pid : Option Str
  /-- The blocks to come. -/
  todo : List Str
  /-- What the manager has written last. -/
  reply : Str

variable (site : Site)

def State.fileSize (s : State) (file : Str) : Option Nat :=
  if file = chunkFile site.token then s.data.map List.length
  else if file = endFile site.token then (if s.ended then some (str "end").length else none)
  else none

def managerCall (s : State) : (c : Chunker.Call) → Option (c.Answer × State)
  | .gettimeofday => some (site.now, s)
  | .startNew _ statement _ => some ((), { s with todo := site.output statement, pid := some site.pid })
  | .write reply => some (true, { s with reply })
  | .lstat file => some (s.fileSize site file, s)
  | .readPid file => some (if file = pidFile site.token then s.pid else none, s)
  | .unlink file => some ((), if file = pidFile site.token then { s with pid := none } else s)
  | .runCmd _ => some ((), s)
  | .stat _ => some (!s.ended, s)

/-- The manager is told its chunk size on no command line. -/
def chunkSize : UInt64 := UInt64.ofNat chunkerReadSize

/-- A message reaches the manager, and it has been handled when the server goes on. -/
def serverCall (s : State) : (c : Server.Call) → Option (c.Answer × State)
  | .generateToken => some (site.token, s)
  | .connect => some (true, s)
  | .send m =>
    ((Chunker.process chunkSize s.table (received m)).interp (managerCall site) s).map fun r => (true, { r.2 with table := r.1 })
  | .recv => some (some s.reply, s)
  | .lstat file => some ((s.fileSize site file).map (·, true), s)
  | .fread file pos => some (if file = chunkFile site.token then s.data.map
      fun d => cstr (page chunkerReadSize d pos) else none, s)
  | .unlink file =>
    some (true, if file = endFile site.token then { s with ended := false }
      else if file = chunkFile site.token then { s with data := none } else s)
  | c => some (site.world c, s)

/-- The command writes a block (`process_chunk` appends to the file); behind the last one the file
    is opened once more and the end is marked (`process_chunk_end`). -/
def State.write (s : State) : State :=
  match s.todo with
  | [] => s
  | b :: bs =>
    { s with data := if b = [] && !bs.isEmpty then s.data else some (s.data.getD [] ++ b), ended := bs.isEmpty, todo := bs }

/-- A request of the user, who has been authenticated. -/
def session (method path : Str) : Session :=
  { Session.new with
    request := (Http.empty.set .reqUri path).set .reqMethod method
    user := site.user
    authType := .basic }

/-- A request and its reply. -/
def serve (s : State) (rq : Request) : Option (Response × State) :=
  ((dispatch 0 (session site rq.method (pathOf site.target rq.url))).interp (serverCall site) s.write).map fun r =>
    (site.response r.1.response, r.2)

/-! ## Messages -/

/-- The token is one, the user's name is plain and short, the operational daemon answers, and no
    call has left `EINVAL` behind. -/
structure Sound : Prop where
  token : isHexToken site.token = true
  user : (60 : UInt8) ∉ site.user ∧ (0 : UInt8) ∉ site.user
  user_ne_nil : site.user ≠ []
  user_short : site.user.length < 900
  opd : site.world .opdOpen = true
  token_unknown : site.world (.opdExpand site.token) = false
  errno : site.world .errno ≠ einval

variable {site} (hsite : Sound site) (s : State)

include hsite

theorem Sound.token_length : site.token.length = 16 := by
  have := hsite.token
  rw [isHexToken, Bool.and_eq_true, beq_iff_eq] at this
  exact this.1

theorem Sound.asks : (site.user.isEmpty || site.token.isEmpty) = false := by
  have hlen := hsite.token_length
  have htoken : site.token ≠ [] := by
    rintro h
    rw [h] at hlen
    exact absurd hlen (by decide)
  simp [hsite.user_ne_nil, htoken]

/-- The requests about the token are short enough. -/
theorem Sound.request {k : Kind} (hk : k = .details ∨ k = .next ∨ k = .delete) :
    request k site.token [] site.user = some (message k site.token [] site.user) ∧
      (message k site.token [] site.user).length < 1024 := by
  have h0 := (isHexToken_plain hsite.token).2
  have hlen := hsite.token_length
  have hshort := hsite.user_short
  constructor
  · have := hsite.asks
    rcases hk with rfl | rfl | rfl <;> simp [Chunker.request, this]
  · -- the tags take less than a hundred bytes
    have htags : (render (Chunker.pieces k [] [] [])).length < 100 := by rcases hk with rfl | rfl | rfl <;> decide
    have hpieces : (render (Chunker.pieces k site.token [] site.user)).length =
        (render (Chunker.pieces k [] [] [])).length + site.token.length + site.user.length := by
      rcases hk with rfl | rfl | rfl <;> simp [render, Chunker.pieces, head, Kind.body, Kind.sentToken] <;> omega
    rw [message_eq h0 (by simp) hsite.user.2]
    omega

/-- The manager handles a request about the token as it was meant. -/
theorem Sound.handled {k : Kind} (hk : k = .details ∨ k = .next ∨ k = .delete) :
    serverCall site s (.send (message k site.token [] site.user)) =
      ((handle chunkSize s.table site.now ⟨site.token, [], site.user⟩ k).interp (managerCall site) s).map fun r =>
        (true, { r.2 with table := r.1 }) := by
  obtain ⟨hlt, h0⟩ := isHexToken_plain hsite.token
  have hne : k ≠ .command := by rcases hk with rfl | rfl | rfl <;> decide
  have hsent : k.sentToken site.token = site.token := by rcases hk with rfl | rfl | rfl <;> rfl
  have hshort := (hsite.request hk).2
  have hreceived : received (message k site.token [] site.user) = render (pieces k site.token [] site.user) :=
    received_message h0 (by simp) hsite.user.2
  have hlen : (render (pieces k site.token [] site.user)).length < 2 ^ 64 := by
    rw [← message_eq h0 (by simp) hsite.user.2]
    omega
  have hprocess : Chunker.process chunkSize s.table (received (message k site.token [] site.user)) =
      Chunker.perform .gettimeofday >>= fun now => handle chunkSize s.table now ⟨site.token, [], site.user⟩ k := by
    rw [Chunker.process, hreceived, fields_plain hne hlt hsite.user.1 hlen, branch_pieces hlt hsite.user.1, hsent]
  rw [serverCall, hprocess]
  rfl

/-- A question about the token, and what the manager has written. -/
theorem Sound.ask {k : Kind} (hk : k = .details ∨ k = .next) {t : ProcColl} {s' : State}
    (hhandle : (handle chunkSize s.table site.now ⟨site.token, [], site.user⟩ k).interp (managerCall site) s = some (t, s')) :
    (MultiResponseCommand.ask k site.token site.user).interp (serverCall site) s =
      some (some s'.reply, { s' with table := t }) := by
  have hk' : k = .details ∨ k = .next ∨ k = .delete := by tauto
  obtain ⟨hrequest, hshort⟩ := hsite.request hk'
  have hsend : serverCall site s (.send (message k site.token [] site.user)) = some (true, { s' with table := t }) := by
    rw [hsite.handled s hk', hhandle]
    rfl
  rw [MultiResponseCommand.ask, hrequest]
  show (MultiResponseCommand.write _ >>= _).interp _ _ = _
  rw [MultiResponseCommand.write, if_pos hshort]
  exact Prog.interp_perform hsend _

omit hsite

/-! ## One chunk -/

/-- The table has an entry of the user for the token. -/
structure Owns (site : Site) (s : State) (pd : ProcessData) : Prop where
  started : s.table.Started
  find : s.table.find site.token = some pd
  user : pd.user = site.user
  clean : pd.Clean
  command_lt : pd.command.length < 1024

variable {pd : ProcessData} {s} {o : Nat}

theorem Owns.key (h : Owns site s pd) : pd.Started site.token := h.started _ (OrdMap.mem_entries.mpr h.find)

theorem Owns.only (h : Owns site s pd) : ∀ pd', s.table.find site.token = some pd' → pd'.user = site.user → pd'.Clean := by
  intro pd' hfind _
  rw [h.find] at hfind
  exact Option.some.inj hfind ▸ h.clean

include hsite in
theorem Owns.row_lt (h : Owns site s pd) (e : ProcessData) (he : e.command = pd.command ∧ e.token = pd.token ∧ e.user = pd.user) :
    e.row.length < 4096 := by
  have h1 : ∀ x : UInt64, (ld x).length ≤ 21 := by
    intro x
    have hlt := x.toNat_lt
    have h20 : ∀ n < 2 ^ 64, (dec n).length ≤ 20 := fun n hn => (length_dec_le_iff (by decide)).mpr (by omega)
    unfold ld
    split
    · exact Nat.le_succ_of_le (h20 x.toNat hlt)
    · exact Nat.succ_le_succ (h20 (2 ^ 64 - x.toNat) (by omega))
  have h2 := h1 e.startTime
  have h3 := h1 e.readOffset
  have h4 := h.command_lt
  have h5 := hsite.user_short
  have h6 := hsite.token_length
  rw [ProcessData.row, he.1, he.2.1, he.2.2, h.key.token_eq, h.user]
  simp only [List.length_append, show (str "%3A").length = 3 by decide]
  omega

include hsite in
theorem Owns.details (h : Owns site s pd) : ∃ reply,
    (MultiResponseCommand.processDetails site.user site.token).interp (serverCall site) s =
      some (some pd.listed, { s with reply }) := by
  have hfit : (detailsReply s.table site.token site.user).length < 8192 := by
    have hrow := h.row_lt hsite pd ⟨rfl, rfl, rfl⟩
    rw [detailsReply, ofUser_token h.started, h.find, Option.filter_some, if_pos (by simpa using h.user)]
    simp only [Option.toList_some, List.flatMap_cons, List.flatMap_nil, List.append_nil, List.length_append,
      show (str "%2C").length = 3 by decide]
    omega
  have hexact : DetailsExact s.table site.token site.user := (details_exact_iff h.started site.token hfit).mpr h.only
  rw [DetailsExact, h.find, Option.filter_some, if_pos (by simpa using h.user)] at hexact
  have hhandle : (handle chunkSize s.table site.now ⟨site.token, [], site.user⟩ .details).interp (managerCall site) s =
      some (s.table, { s with reply := detailsReply s.table site.token site.user }) := rfl
  refine ⟨detailsReply s.table site.token site.user, ?_⟩
  rw [MultiResponseCommand.processDetails, Prog.interp_bind, hsite.ask s (Or.inl rfl) hhandle]
  exact congrArg (fun x => some (x, _)) hexact

/-- The entry that `<next>` leaves. -/
def nextOf (c : UInt64) (s : State) (e : ProcessData) : ProcessData :=
  match s.data with
  | none => e
  | some d =>
    if (e.advance c d.length).2 && s.ended then { (e.advance c d.length).1 with status := .dead } else (e.advance c d.length).1

theorem nextEntry_interp (site : Site) (c : UInt64) (s : State) (e : ProcessData) :
    (nextEntry c site.token e).interp (managerCall site) s = some (nextOf c s e, s) := by
  have hdata : managerCall site s (.lstat (chunkFile site.token)) = some (s.data.map List.length, s) := by
    rw [managerCall, State.fileSize, if_pos rfl]
  have hend : managerCall site s (.lstat (endFile site.token)) = some (if s.ended then some (str "end").length else none, s) := by
    rw [managerCall, State.fileSize, if_neg (endFile_ne_chunkFile site.token), if_pos rfl]
  rw [nextEntry]
  refine (Prog.interp_perform hdata _).trans ?_
  rw [nextOf]
  cases s.data with
  | none => rfl
  | some d =>
    rw [Option.map_some]
    rcases hadv : e.advance c d.length with ⟨e', atEnd⟩
    cases atEnd with
    | false => simp [hadv]
    | true =>
      simp only [hadv, Bool.true_and]
      refine (Prog.interp_perform hend _).trans ?_
      cases s.ended <;> rfl

include hsite in
/-- What `<next>` gives the server, and the table it leaves. -/
theorem Owns.next (h : Owns site s pd) :
    chunkPos site.user site.token (nextReply s.table site.token site.user) = some (toSigned pd.atNext.readOffset) ∧
    (MultiResponseCommand.ask .next site.token site.user).interp (serverCall site) s =
      some (some (nextReply s.table site.token site.user),
        { s with table := s.table.update site.token fun _ => nextOf chunkSize s pd.atNext
                 reply := nextReply s.table site.token site.user }) := by
  have hreply : nextReply s.table site.token site.user = pd.atNext.row ++ str "\n" := by
    rw [nextReply, h.find]
    simp [h.user]
  have hfit : (nextReply s.table site.token site.user).length < 8192 := by
    have htexts : pd.atNext.command = pd.command ∧ pd.atNext.token = pd.token ∧ pd.atNext.user = pd.user := by
      unfold ProcessData.atNext
      split <;> exact ⟨rfl, rfl, rfl⟩
    have hrow := h.row_lt hsite pd.atNext htexts
    rw [hreply, List.length_append, show (str "\n").length = 1 by decide]
    omega
  have hexact : NextExact s.table site.token site.user := next_exact h.started site.token hfit h.only
  rw [NextExact, h.find, Option.filter_some, if_pos (by simpa using h.user)] at hexact
  have hhandle : (handle chunkSize s.table site.now ⟨site.token, [], site.user⟩ .next).interp (managerCall site) s =
      some (s.table.update site.token fun _ => nextOf chunkSize s pd.atNext,
        { s with reply := nextReply s.table site.token site.user }) := by
    rw [handle, handleNext]
    simp only [h.find, h.user, ne_eq, not_true_eq_false, if_false]
    rw [Prog.interp_bind, nextEntry_interp]
    rfl
  exact ⟨hexact, hsite.ask s (Or.inr rfl) hhandle⟩

include hsite in
/-- The client does not give up. -/
theorem Sound.chunkFrom (s : State) (pos : Int) : (MultiResponseCommand.chunkFrom site.token pos).interp (serverCall site) s =
    (MultiResponseCommand.readChunk site.token pos).interp (serverCall site) s := by
  have herrno : serverCall site s .errno = some (site.world .errno, s) := rfl
  unfold MultiResponseCommand.chunkFrom
  split
  · refine (Prog.interp_perform herrno _).trans ?_
    rw [if_neg hsite.errno]
  · rfl

theorem readChunk_interp (site : Site) (s : State) {pos : Int} {d : Str} (hpos : 0 ≤ pos) (hd : s.data = some d) :
    (MultiResponseCommand.readChunk site.token pos).interp (serverCall site) s =
      some (cstr (page chunkerReadSize d pos.toNat), s) := by
  have hdata : serverCall site s (.lstat (chunkFile site.token)) = some (some (d.length, true), s) := by
    rw [serverCall, State.fileSize, if_pos rfl, hd]
    rfl
  have hread : serverCall site s (.fread (chunkFile site.token) pos.toNat) =
      some (some (cstr (page chunkerReadSize d pos.toNat)), s) := by
    rw [serverCall, if_pos rfl, hd]
    rfl
  rw [MultiResponseCommand.readChunk]
  refine (Prog.interp_perform hdata _).trans ?_
  rw [if_pos ⟨rfl, hpos⟩]
  exact Prog.interp_perform hread _

/-- Without a file and without the end there is nothing yet. -/
theorem readChunk_early (site : Site) (s : State) {pos : Int} (hd : s.data = none) (hended : s.ended = false) :
    (MultiResponseCommand.readChunk site.token pos).interp (serverCall site) s = some ([], s) := by
  have hdata : serverCall site s (.lstat (chunkFile site.token)) = some (none, s) := by
    rw [serverCall, State.fileSize, if_pos rfl, hd]
    rfl
  have hend : serverCall site s (.lstat (endFile site.token)) = some (none, s) := by
    rw [serverCall, State.fileSize, if_neg (endFile_ne_chunkFile site.token), if_pos rfl, hended]
    rfl
  rw [MultiResponseCommand.readChunk]
  refine (Prog.interp_perform hdata _).trans ?_
  rw [if_neg (by simp)]
  exact Prog.interp_perform hend _

theorem readChunk_end {pos : Int} (hpos : pos < 0) (hended : s.ended = true) :
    (MultiResponseCommand.readChunk site.token pos).interp (serverCall site) s =
      some (str "END", { s with ended := false, data := none }) := by
  have hdata : serverCall site s (.lstat (chunkFile site.token)) = some (s.data.map fun d => (d.length, true), s) := by
    rw [serverCall, State.fileSize, if_pos rfl]
    cases s.data <;> rfl
  have hend : serverCall site s (.lstat (endFile site.token)) = some (some ((str "end").length, true), s) := by
    rw [serverCall, State.fileSize, if_neg (endFile_ne_chunkFile site.token), if_pos rfl, hended]
    rfl
  have hunlink : serverCall site s (.unlink (endFile site.token)) = some (true, { s with ended := false }) := by
    rw [serverCall, if_pos rfl]
  have hunlink' : serverCall site { s with ended := false } (.unlink (chunkFile site.token)) =
      some (true, { s with ended := false, data := none }) := by
    rw [serverCall, if_neg (endFile_ne_chunkFile site.token).symm, if_pos rfl]
  rw [MultiResponseCommand.readChunk]
  refine (Prog.interp_perform hdata _).trans ?_
  rw [if_neg (by omega)]
  refine (Prog.interp_perform hend _).trans ?_
  rw [if_pos Option.isSome_some]
  exact (Prog.interp_perform hunlink _).trans (Prog.interp_perform hunlink' _)

theorem killProcess_wp (t : ProcColl) (key : Str) :
    (killProcess t key).wp (fun _ _ => True) (fun _ => True) False fun _ => True := by
  have hterminate : ∀ (pid : Str) (ct : Nat), (terminate pid ct).wp (fun _ _ => True) (fun _ => True) False fun _ => True := by
    intro pid ct
    induction ct with
    | zero => trivial
    | succ ct ih =>
      rw [terminate, Chunker.wp_then]
      refine ⟨trivial, fun _ _ => ?_⟩
      rw [Chunker.wp_then]
      refine ⟨trivial, fun gone _ => ?_⟩
      split
      · exact ih
      · trivial
  rw [killProcess, Chunker.wp_then]
  refine ⟨trivial, fun pid _ => ?_⟩
  cases pid with
  | none => trivial
  | some pid =>
    show Prog.wp _ _ _ (Chunker.perform _ >>= fun _ => terminate _ _ >>= _) _
    rw [Chunker.wp_then]
    refine ⟨trivial, fun _ _ => ?_⟩
    rw [Prog.wp_bind]
    refine Prog.wp_mono (hterminate _ _) fun killed _ => ?_
    cases killed
    · exact ⟨trivial, fun _ _ => trivial⟩
    · trivial

include hsite in
/-- What comes of the message that deletes an entry. -/
theorem Sound.kill (s : State) :
    ∃ s', (MultiResponseCommand.kill site.user site.token).interp (serverCall site) s = some ((), s') := by
  obtain ⟨hrequest, hshort⟩ := hsite.request (Or.inr (Or.inr rfl))
  have hanswer : ∀ (s : State) (c : Chunker.Call), (managerCall site s c).isSome = true := by
    intro s c
    cases c <;> rfl
  obtain ⟨t, s', hrun, -⟩ := Prog.interp_of_wp hanswer (killProcess_wp s.table site.token) s
  have hsend : serverCall site s (.send (message .delete site.token [] site.user)) = some (true, { s' with table := t }) := by
    rw [hsite.handled s (Or.inr (Or.inr rfl)), handle, hrun]
    rfl
  refine ⟨{ s' with table := t }, ?_⟩
  rw [MultiResponseCommand.kill, hrequest]
  show (MultiResponseCommand.write _ >>= _).interp _ _ = _
  rw [MultiResponseCommand.write, if_pos hshort]
  exact Prog.interp_perform hsend _

omit hsite

/-! ## One request -/

theorem dispatch_op (site : Site) (method x : Str) :
    dispatch 0 (session site method (opReqRoot ++ x)) = OpMode.process (session site method (opReqRoot ++ x)) := by
  have hget : (session site method (opReqRoot ++ x)).request.get .reqUri = opReqRoot ++ x := rfl
  have hroot : opReqRoot = [47, 114, 101, 115, 116, 47, 111, 112] := by decide
  have happ : appReqRoot = [47, 114, 101, 115, 116, 47, 97, 112, 112] := by decide
  have hroute : route (session site method (opReqRoot ++ x)) = some .op := by
    rw [route, hget]
    rw [if_neg (by simp [hroot]), if_neg (fun h => nomatch h), if_neg (by rw [hroot, happ]; simp),
      if_pos (List.isPrefixOf_iff_prefix.mpr (List.prefix_append _ _))]
  rw [dispatch, hroute]
  rfl

/-- The server asks the operational daemon about the rest of the path. -/
theorem validate_interp (hopd : site.world .opdOpen = true) (x : Str) (s : State) :
    (OpMode.validateOpCmd (opReqRoot ++ 47 :: x)).interp (serverCall site) s =
      some (if site.world (.opdExpand (cstr x)) = true then some x else none, s) := by
  have hlen : (str "/rest/op/").length = 9 := by decide
  have hroot : opReqRoot.length = 8 := by decide
  have hdrop : (opReqRoot ++ 47 :: x).drop 9 = x := by
    rw [show opReqRoot ++ 47 :: x = (opReqRoot ++ [47]) ++ x by simp]
    exact List.drop_left' (by decide)
  have hopen : serverCall site s .opdOpen = some (true, s) := by
    rw [← hopd]
    rfl
  have hexpand : serverCall site s (.opdExpand (cstr x)) = some (site.world (.opdExpand (cstr x)), s) := rfl
  have hclose : serverCall site s .opdClose = some (site.world .opdClose, s) := rfl
  rw [OpMode.validateOpCmd]
  simp only [hlen]
  rw [if_neg (by rw [List.length_append, hroot, List.length_cons]; omega)]
  refine (Prog.interp_perform hopen _).trans ?_
  have hsub : substrFrom (opReqRoot ++ 47 :: x) 9 = pure x := by
    rw [substrFrom, substrAt, if_pos (by rw [List.length_append, hroot, List.length_cons]; omega), substr, hdrop,
      List.take_of_length_le (by rw [List.length_append, hroot, List.length_cons]; omega)]
  show (substrFrom (opReqRoot ++ 47 :: x) 9 >>= _).interp _ _ = _
  rw [hsub, Prog.ret_bind]
  exact (Prog.interp_perform hexpand _).trans (Prog.interp_perform hclose _)

/-- The session of a request for the output. -/
def asking (site : Site) : Session := session site (str "GET") (opReqRoot ++ 47 :: site.token)

include hsite in
/-- The server takes a request for the output as one. -/
theorem Sound.segment (s : State) : (dispatch 0 (asking site)).interp (serverCall site) s =
    (OpMode.getSegment (asking site) (opReqRoot ++ 47 :: site.token)).interp (serverCall site) s := by
  have hpath : (asking site).request.get .reqUri = opReqRoot ++ 47 :: site.token := rfl
  have hmethod : (asking site).request.get .reqMethod = str "GET" := rfl
  have hauth : (asking site).authType ≠ .none := fun h => nomatch h
  have hroot : opReqRoot.length = 8 := by decide
  have hnul := (isHexToken_plain hsite.token).2
  rw [asking, dispatch_op, ← asking, OpMode.process, if_neg hauth, hpath, hmethod]
  simp only
  rw [if_neg (by simp), if_neg (by rw [List.length_append, hroot]; omega), if_neg (by decide), if_pos trivial, OpMode.get,
    if_neg (by simp), Prog.interp_bind, validate_interp hsite.opd, cstr_of_notMem hnul, hsite.token_unknown]
  rfl

theorem lastSegment_token (hslash : (47 : UInt8) ∉ site.token) :
    OpMode.lastSegment (opReqRoot ++ 47 :: site.token) = site.token := by
  have hall : ∀ b ∈ site.token.reverse, (decide (b ≠ 47)) = true := by
    intro b hb
    rw [List.mem_reverse] at hb
    exact decide_eq_true fun heq => hslash (heq ▸ hb)
  rw [OpMode.lastSegment, List.reverse_append, List.reverse_cons, List.append_assoc, List.takeWhile_append_of_pos hall,
    List.singleton_append, List.takeWhile_cons_of_neg (by decide), List.append_nil, List.reverse_reverse]

include hsite in
theorem Sound.slash : (47 : UInt8) ∉ site.token := by
  have := hsite.token
  rw [isHexToken, Bool.and_eq_true, List.all_eq_true] at this
  exact fun hm => absurd (this.2 _ hm) (by decide)

/-- What the server makes of a chunk. -/
def answered (s : Session) (out : Str) : Session :=
  if out.isEmpty then s.error .accepted
  else
    let s := (s.setResponse .respContentType (str "text/plain")).setResponse .body out
    { s with response := { s.response with verbatimBody := true } }.error .ok

include hsite in
theorem Owns.segment (h : Owns site s pd) {out : Str} {s' : State}
    (hchunk : ∀ reply, (MultiResponseCommand.getChunk site.user site.token).interp (serverCall site) { s with reply } =
      some (out, s')) :
    ∃ s'', (out ≠ str "END" → s'' = s') ∧ (dispatch 0 (asking site)).interp (serverCall site) s =
      some (if out = str "END" then (asking site).error .opmodeProcessFinished else answered (asking site) out, s'') := by
  obtain ⟨reply, hdetails⟩ := h.details hsite
  have hconnect : ∀ s, serverCall site s .connect = some (true, s) := fun _ => rfl
  have hid : pd.listed.id.isEmpty = false := by
    rw [ProcessData.listed]
    simp [h.key.token_ne_nil]
  have huser : (asking site).user = site.user := rfl
  have hupto : (dispatch 0 (asking site)).interp (serverCall site) s = Prog.interp (serverCall site)
      (if out = str "END" then do
        if !(← MultiResponseCommand.init) then return (asking site).error .serverError
        MultiResponseCommand.kill site.user site.token
        return (asking site).error .opmodeProcessFinished
      else if out.isEmpty then return (asking site).error .accepted
      else return answered (asking site) out) s' := by
    rw [hsite.segment, OpMode.getSegment, if_neg (by simp), lastSegment_token hsite.slash]
    simp only
    rw [if_neg (by rw [hsite.token_length]; decide)]
    refine (Prog.interp_perform (hconnect s) _).trans ?_
    show Prog.interp _ (MultiResponseCommand.processDetails (asking site).user site.token >>= _) s = _
    rw [huser, Prog.interp_bind, hdetails, Option.bind_some]
    simp only [hid, Bool.false_eq_true, if_false]
    refine (Prog.interp_perform (hconnect _) _).trans ?_
    show Prog.interp _ (MultiResponseCommand.getChunk site.user site.token >>= _) _ = _
    rw [Prog.interp_bind, hchunk, Option.bind_some]
    refine congrArg (fun p => Prog.interp _ p s') ?_
    refine congrArg (fun p => if out = str "END" then _ else p) ?_
    split
    · rfl
    · rename_i hne
      rw [answered, if_neg hne]
  by_cases hend : out = str "END"
  · obtain ⟨s'', hkill⟩ := hsite.kill s'
    refine ⟨s'', fun hne => absurd hend hne, ?_⟩
    rw [hupto, if_pos hend, if_pos hend]
    refine (Prog.interp_perform (hconnect s') _).trans ?_
    show Prog.interp _ (MultiResponseCommand.kill site.user site.token >>= _) _ = _
    rw [Prog.interp_bind, hkill]
    rfl
  · refine ⟨s', fun _ => rfl, ?_⟩
    rw [hupto, if_neg hend, if_neg hend]
    split
    · rename_i hempty
      rw [answered, if_pos hempty]
      rfl
    · rfl

omit hsite

/-- A response without a body. -/
theorem response_status (site : Site) (h : Http) (hbody : h.params .body = none) (code : Str)
    (hcode : h.params .respCode = some code) :
    (site.response h).code = strtoul 10 code ∧ (site.response h).content = [] ∧
    (site.response h).location = h.params .respLocation := by
  have hsmall : ¬ Framing.Oversized h := by
    rintro ⟨v, hv, -⟩
    rw [hbody] at hv
    cases hv
  refine ⟨?_, ?_, rfl⟩
  · rw [RestClient.Library.response, Framing.shown, if_neg hsmall, hcode]
    rfl
  · rw [RestClient.Library.response, Framing.outBody, if_neg hsmall, hbody]
    rfl

theorem error_status (t : ErrorType) (ht : t = .created ∨ t = .accepted ∨ t = .opmodeProcessFinished) (s : Session) :
    s.error t = s.setResponse .respCode t.response.1 := by
  rcases ht with rfl | rfl | rfl <;> rfl

theorem finished_reply (site : Site) : (site.response ((asking site).error .opmodeProcessFinished).response).code = 410 := by
  rw [error_status _ (by simp)]
  rw [(response_status site _ rfl (str "410") rfl).1]
  decide

/-- A text that goes out as it is. -/
theorem response_text (site : Site) (h : Http) (hverbatim : h.verbatimBody = true) (text code : Str)
    (hbody : h.params .body = some text) (hsize : text.length ≤ maxBodySize) (hcode : h.params .respCode = some code) :
    (site.response h).code = strtoul 10 code ∧ (site.response h).content = text := by
  have hsmall : ¬ Framing.Oversized h := by
    rintro ⟨v, hv, hlt⟩
    rw [hbody] at hv
    obtain rfl := Option.some.inj hv
    omega
  refine ⟨?_, ?_⟩
  · rw [RestClient.Library.response, Framing.shown, if_neg hsmall, hcode]
    rfl
  · rw [RestClient.Library.response, Framing.outBody, if_neg hsmall, hbody, hverbatim]
    show Framing.format site.json some true text = text
    rw [Framing.format, if_neg (by simp)]

/-- The client gets the chunk with a success, also when there is none yet. -/
theorem answered_reply (site : Site) {out : Str} (hout : out.length ≤ maxBodySize) :
    (site.response (answered (asking site) out).response).isSuccess = true ∧
      (site.response (answered (asking site) out).response).content = out := by
  by_cases hempty : out = []
  · subst hempty
    have hanswered : answered (asking site) [] = (asking site).setResponse .respCode (str "202") :=
      error_status .accepted (by simp) _
    obtain ⟨hcode, hcontent, -⟩ := response_status site ((asking site).setResponse .respCode (str "202")).response rfl
      (str "202") rfl
    rw [hanswered, RestClient.Response.isSuccess, hcode]
    exact ⟨by decide, hcontent⟩
  · have hnonempty : ¬ out.isEmpty = true := by simpa using hempty
    obtain ⟨hcode, hcontent⟩ := response_text site (answered (asking site) out).response
      (by rw [answered, if_neg hnonempty]; rfl) out (str "200") (by rw [answered, if_neg hnonempty]; rfl) hout
      (by rw [answered, if_neg hnonempty]; rfl)
    rw [RestClient.Response.isSuccess, hcode]
    exact ⟨by decide, hcontent⟩

/-! ## One poll after another -/

/-- The request for the output. -/
def outputRequest (site : Site) : Request := ⟨str "GET", base site.target ++ (str "rest/op/" ++ site.token)⟩

theorem serve_output (site : Site) (s : State) : serve site s (outputRequest site) =
    ((dispatch 0 (asking site)).interp (serverCall site) s.write).map fun r => (site.response r.1.response, r.2) := by
  rw [serve, outputRequest, RestClient.pathOf_base]
  rfl

/-- The state after a `<next>`. -/
def State.read (site : Site) (s : State) (pd : ProcessData) : State :=
  { s with table := s.table.update site.token fun _ => nextOf chunkSize s pd, reply := nextReply s.table site.token site.user }

include hsite in
theorem Owns.chunk (h : Owns site s pd) (hrun : pd.status = .running) (hearly : s.data = none → s.ended = false)
    (h0 : (0 : UInt8) ∉ s.data.getD []) (hlt : pd.readOffset.toNat < 2 ^ 62) (reply : Str) :
    (MultiResponseCommand.getChunk site.user site.token).interp (serverCall site) { s with reply } =
      some (page chunkerReadSize (s.data.getD []) pd.readOffset.toNat, s.read site pd) := by
  have h' : Owns site { s with reply } pd := ⟨h.started, h.find, h.user, h.clean, h.command_lt⟩
  have hnext : pd.atNext = pd := by rw [ProcessData.atNext, if_neg (by rw [hrun]; decide)]
  have hsigned : toSigned pd.readOffset = pd.readOffset.toNat := by rw [toSigned, if_pos (by omega)]
  obtain ⟨hpos, hask⟩ := h'.next hsite
  rw [hnext, hsigned] at hpos
  rw [hnext] at hask
  have hpage : cstr (page chunkerReadSize (s.data.getD []) pd.readOffset.toNat) =
      page chunkerReadSize (s.data.getD []) pd.readOffset.toNat :=
    cstr_of_notMem fun hm => h0 (List.mem_of_mem_drop (List.mem_of_mem_take hm))
  rw [MultiResponseCommand.getChunk, Prog.interp_bind, hask, Option.bind_some, Option.bind_some]
  simp only [hpos]
  show (MultiResponseCommand.chunkFrom site.token pd.readOffset.toNat).interp (serverCall site) (s.read site pd) = _
  rw [hsite.chunkFrom]
  rcases hd : s.data with _ | d
  · rw [readChunk_early site (s.read site pd) hd (hearly hd)]
    simp [page]
  · rw [readChunk_interp site (s.read site pd) (by omega) hd, Int.toNat_natCast]
    rw [hd] at hpage
    exact congrArg (fun x => some (x, _)) hpage

/-- A running command of which the first bytes of the output have been fetched. -/
structure Fetched (site : Site) (s : State) (pd : ProcessData) (o : Nat) : Prop extends Owns site s pd where
  running : pd.status = .running
  offset : pd.readOffset.toNat = o
  early : s.data = none → s.ended = false
  plain : (0 : UInt8) ∉ s.data.getD []
  inside : o ≤ (s.data.getD []).length
  small : (s.data.getD []).length < 2 ^ 32

theorem nextOf_texts (c : UInt64) (s : State) (e : ProcessData) : Paging.SameTexts (nextOf c s e) e := by
  have hadvance : ∀ n, Paging.SameTexts (e.advance c n).1 e := by
    intro n
    unfold ProcessData.advance
    split <;> exact ⟨rfl, rfl, rfl, rfl⟩
  unfold nextOf
  split
  · exact ⟨rfl, rfl, rfl, rfl⟩
  · rename_i d _
    split
    · exact ⟨(hadvance _).start, (hadvance _).command, (hadvance _).token, (hadvance _).user⟩
    · exact hadvance _

/-- After a chunk the entry has moved on. -/
theorem Owns.read (h : Owns site s pd) : Owns site (s.read site pd) (nextOf chunkSize s pd) := by
  obtain ⟨-, hcommand, htoken, huser⟩ := nextOf_texts chunkSize s pd
  have hkey := h.key
  have hstarted : (nextOf chunkSize s pd).Started site.token := by
    refine ⟨htoken.trans hkey.token_eq, ?_, ?_, ?_, ?_⟩
    · rw [hcommand]
      exact hkey.command_ne_nil
    · rw [htoken]
      exact hkey.token_ne_nil
    · rw [huser]
      exact hkey.user_ne_nil
    · rw [hcommand, htoken, huser]
      exact hkey.no_nul
  refine ⟨?_, ?_, huser.trans h.user, ⟨?_, ?_, ?_, ?_⟩, ?_⟩
  · rintro ⟨k, v⟩ hmem
    have hfind := OrdMap.mem_entries.mp hmem
    rw [State.read, OrdMap.find_update] at hfind
    split at hfind
    · rename_i hk
      subst hk
      rw [h.find] at hfind
      exact Option.some.inj hfind ▸ hstarted
    · exact h.started _ (OrdMap.mem_entries.mpr hfind)
  · rw [State.read, OrdMap.find_update, if_pos rfl, h.find]
    rfl
  · rw [hcommand]
    exact h.clean.command
  · rw [htoken]
    exact h.clean.token
  · rw [huser]
    exact h.clean.user
  · rw [hcommand, htoken, huser]
    exact h.clean.newlines
  · rw [hcommand]
    exact h.command_lt

/-- Where the next chunk begins. -/
theorem nextOf_offset (h : Fetched site s pd o) :
    (nextOf chunkSize s pd).readOffset.toNat = min (o + chunkerReadSize) (s.data.getD []).length ∧
    (nextOf chunkSize s pd).status = if s.ended = true ∧ (s.data.getD []).length ≤ o + chunkerReadSize then .dead
    else .running := by
  have hsize : chunkSize.toNat = chunkerReadSize := by decide
  have hread : chunkerReadSize = 98304 := rfl
  have hsmall := h.small
  have hinside := h.inside
  have hadd : (pd.readOffset + chunkSize).toNat = o + chunkerReadSize := by
    rw [UInt64.toNat_add, h.offset, hsize, Nat.mod_eq_of_lt (by omega)]
  unfold nextOf
  rcases hd : s.data with _ | d
  · rw [hd] at hinside
    have h0 : o = 0 := by simpa using hinside
    refine ⟨by rw [h.offset, h0]; rfl, ?_⟩
    rw [if_neg (by rw [h.early hd]; simp)]
    exact h.running
  · rw [hd, Option.getD_some] at hsmall
    have hunsigned : unsignedSize d.length = d.length := Nat.mod_eq_of_lt hsmall
    simp only [Option.getD_some, ProcessData.advance, hadd, hunsigned]
    by_cases hlt : o + chunkerReadSize < d.length
    · simp only [hlt, if_true, Bool.false_and, Bool.false_eq_true, if_false]
      exact ⟨by rw [hadd]; omega, by rw [if_neg (by omega)]; exact h.running⟩
    · have hofNat : (UInt64.ofNat d.length).toNat = d.length := UInt64.toNat_ofNat_of_lt' (show d.length < 2 ^ 64 by omega)
      simp only [hlt, if_false, Bool.true_and]
      rcases he : s.ended with _ | _
      · simp only [Bool.false_eq_true, false_and, if_false]
        exact ⟨by rw [hofNat]; omega, h.running⟩
      · simp only [if_true, true_and]
        exact ⟨by rw [hofNat]; omega, by rw [if_pos (by omega)]⟩

include hsite in
/-- A poll after which the command still counts as running. -/
theorem Fetched.poll (h : Fetched site s.write pd o) (hend : page chunkerReadSize (s.write.data.getD []) o ≠ str "END") :
    ∃ r, serve site s (outputRequest site) = some (r, s.write.read site pd) ∧ r.isSuccess = true ∧
      r.content = page chunkerReadSize (s.write.data.getD []) o := by
  have hsmall := h.small
  have hinside := h.inside
  have hread : chunkerReadSize = 98304 := rfl
  have hchunk := h.chunk hsite h.running h.early h.plain (by rw [h.offset]; omega)
  rw [h.offset] at hchunk
  obtain ⟨s', hs', hdispatch⟩ := h.segment hsite hchunk
  rw [if_neg hend] at hdispatch
  have hlen : (page chunkerReadSize (s.write.data.getD []) o).length ≤ maxBodySize := by
    rw [length_page]
    have : maxBodySize = 33554432 := rfl
    omega
  obtain ⟨hsuccess, hcontent⟩ := answered_reply site hlen
  refine ⟨_, ?_, hsuccess, hcontent⟩
  rw [serve_output, hdispatch, hs' hend]
  rfl

include hsite in
/-- A poll of a command that has been read to its end. -/
theorem Owns.over (h : Owns site s.write pd) (hdead : pd.status = .dead) (hended : s.write.ended = true) :
    ∃ r t, serve site s (outputRequest site) = some (r, t) ∧ r.code = 410 := by
  have hnext : pd.atNext = { pd with readOffset := -1 } := by rw [ProcessData.atNext, if_pos hdead]
  have hchunk : ∀ reply, (MultiResponseCommand.getChunk site.user site.token).interp (serverCall site) { s.write with reply } =
      some (str "END", { s.write with
        table := s.write.table.update site.token fun _ => nextOf chunkSize s.write pd.atNext
        reply := nextReply s.write.table site.token site.user
        ended := false
        data := none }) := by
    intro reply
    have h' : Owns site { s.write with reply } pd := ⟨h.started, h.find, h.user, h.clean, h.command_lt⟩
    obtain ⟨hpos, hask⟩ := h'.next hsite
    rw [MultiResponseCommand.getChunk, Prog.interp_bind, hask, Option.bind_some, Option.bind_some]
    simp only [hpos]
    rw [hnext]
    exact (hsite.chunkFrom _ _).trans (readChunk_end (show toSigned (-1) < 0 by decide) hended)
  obtain ⟨t, -, hdispatch⟩ := h.segment hsite hchunk
  rw [if_pos rfl] at hdispatch
  refine ⟨_, t, ?_, finished_reply site⟩
  rw [serve_output, hdispatch]
  rfl

/-- The chunks that the polls of a running command fetch: one before each block but the last, and
    from then on the rest of the file. -/
def fetched (file : Str) (o : Nat) : List Str → List Str
  | [] => pagesFrom chunkerReadSize chunkerReadSize file (Paging.pageCount chunkerReadSize (file.length - o)) o
  | [b] => fetched (file ++ b) o []
  | b :: b' :: bs =>
    page chunkerReadSize (file ++ b) o ::
      fetched (file ++ b) (min (o + chunkerReadSize) (file ++ b).length) (b' :: bs)

/-- The state of a client that has come to the end. -/
def Over (site : Site) (t : State) : Prop :=
  ∃ pd, Owns site t pd ∧ pd.status = .dead ∧ t.ended = true ∧ t.todo = []

include hsite in
/-- The polls after the last block. -/
theorem last_polls : ∀ (n : Nat) {s : State} {pd : ProcessData} {o : Nat}, Fetched site s.write pd o →
    s.write.todo = [] → s.write.ended = true → (n = 0 ∨ n * chunkerReadSize < (s.write.data.getD []).length - o) →
    (s.write.data.getD []).length - o ≤ (n + 1) * chunkerReadSize →
    (∀ p ∈ pagesFrom chunkerReadSize chunkerReadSize (s.write.data.getD []) (n + 1) o, p ≠ str "END") →
    ∃ rs t, RestClient.Op.Gives (serve site) (outputRequest site).url s rs t ∧ (∀ r ∈ rs, r.isSuccess = true) ∧
      rs.map (·.content) = pagesFrom chunkerReadSize chunkerReadSize (s.write.data.getD []) (n + 1) o ∧ Over site t := by
  have hread : chunkerReadSize = 98304 := rfl
  intro n
  induction n with
  | zero =>
    intro s pd o h htodo hended _ hle hend
    obtain ⟨r, hserve, hsuccess, hcontent⟩ := h.poll hsite (hend _ List.mem_cons_self)
    obtain ⟨-, hstatus⟩ := nextOf_offset h
    rw [if_pos ⟨hended, by omega⟩] at hstatus
    exact ⟨[r], _, ⟨_, hserve, rfl⟩, by simpa using hsuccess, by rw [List.map_singleton, hcontent]; rfl,
      _, h.toOwns.read, hstatus, hended, htodo⟩
  | succ n ih =>
    intro s pd o h htodo hended hlt hle hend
    have hlt := hlt.resolve_left (Nat.succ_ne_zero n)
    rw [Nat.succ_mul] at hlt hle
    obtain ⟨r, hserve, hsuccess, hcontent⟩ := h.poll hsite (hend _ List.mem_cons_self)
    obtain ⟨hoffset, hstatus⟩ := nextOf_offset h
    rw [if_neg (by omega)] at hstatus
    rw [Nat.min_eq_left (by omega)] at hoffset
    have hwrite : (s.write.read site pd).write = s.write.read site pd := by
      rw [State.write]
      show (match s.write.todo with | [] => _ | b :: bs => _) = _
      rw [htodo]
    have h' : Fetched site (s.write.read site pd).write (nextOf chunkSize s.write pd) (o + chunkerReadSize) := by
      rw [hwrite]
      exact ⟨h.toOwns.read, hstatus, hoffset, h.early, h.plain, show _ ≤ (s.write.data.getD []).length by omega, h.small⟩
    have hdata : (s.write.read site pd).write.data = s.write.data := by
      rw [hwrite]
      rfl
    obtain ⟨rs, t, hgives, hall, hcontents, hover⟩ := ih h' (by rw [hwrite]; exact htodo) (by rw [hwrite]; exact hended)
      (by rw [hdata]; omega) (by rw [hdata]; omega)
      (by rw [hdata]; exact fun p hp => hend p (List.mem_cons_of_mem _ hp))
    rw [hdata] at hcontents
    exact ⟨r :: rs, t, ⟨_, hserve, hgives⟩, List.forall_mem_cons.mpr ⟨hsuccess, hall⟩,
      by rw [List.map_cons, hcontent, hcontents]; rfl, hover⟩

theorem write_cons {s : State} {b : Str} {bs : List Str} (htodo : s.todo = b :: bs) :
    s.write.data.getD [] = s.data.getD [] ++ b ∧ s.write.ended = bs.isEmpty ∧ s.write.todo = bs ∧
      (s.write.data = none → s.write.ended = false) ∧ s.write.table = s.table := by
  rw [State.write, htodo]
  refine ⟨?_, rfl, rfl, ?_, rfl⟩
  · show Option.getD (if _ then _ else _) [] = _
    split
    · rename_i hb
      rw [Bool.and_eq_true, decide_eq_true_eq] at hb
      rw [hb.1, List.append_nil]
    · rfl
  · intro hnone
    have hnone : (if decide (b = []) && !bs.isEmpty then s.data else some (s.data.getD [] ++ b)) = none := hnone
    show bs.isEmpty = false
    split at hnone
    · rename_i hb
      rw [Bool.and_eq_true, Bool.not_eq_true'] at hb
      exact hb.2
    · cases hnone

include hsite in
/-- The polls of a running command, up to the end. -/
theorem all_polls : ∀ (bs : List Str) {s : State} {pd : ProcessData} {o : Nat} {b : Str}, Owns site s pd → pd.status = .running →
    pd.readOffset.toNat = o → o ≤ (s.data.getD []).length → s.todo = b :: bs →
    (0 : UInt8) ∉ s.data.getD [] ++ (b :: bs).flatten → (s.data.getD [] ++ (b :: bs).flatten).length < 2 ^ 32 →
    (∀ p ∈ fetched (s.data.getD []) o (b :: bs), p ≠ str "END") →
    ∃ rs t, RestClient.Op.Gives (serve site) (outputRequest site).url s rs t ∧ (∀ r ∈ rs, r.isSuccess = true) ∧
      rs.map (·.content) = fetched (s.data.getD []) o (b :: bs) ∧ Over site t := by
  intro bs
  induction bs with
  | nil =>
    intro s pd o b h hrun hoffset hinside htodo h0 hsize hend
    obtain ⟨hdata, hended, htodo', hearly, htable⟩ := write_cons htodo
    rw [List.flatten_cons, List.flatten_nil, List.append_nil, ← hdata] at h0 hsize
    have hfetched : Fetched site s.write pd o :=
      ⟨⟨htable ▸ h.started, htable ▸ h.find, h.user, h.clean, h.command_lt⟩, hrun, hoffset, hearly, h0,
        by rw [hdata, List.length_append]; omega, hsize⟩
    obtain ⟨n, hn, hlast, hle⟩ := Paging.pageCount_bounds chunkerReadSize (by decide) ((s.write.data.getD []).length - o)
    rw [fetched, fetched, ← hdata, hn] at hend ⊢
    exact last_polls hsite n hfetched htodo' hended hlast hle hend
  | cons b' bs ih =>
    intro s pd o b h hrun hoffset hinside htodo h0 hsize hend
    obtain ⟨hdata, hended, htodo', hearly, htable⟩ := write_cons htodo
    rw [fetched, ← hdata] at hend ⊢
    rw [List.flatten_cons, ← List.append_assoc, ← hdata] at h0 hsize
    rw [List.mem_append, not_or] at h0
    rw [List.length_append] at hsize
    have hfetched : Fetched site s.write pd o :=
      ⟨⟨htable ▸ h.started, htable ▸ h.find, h.user, h.clean, h.command_lt⟩, hrun, hoffset, hearly, h0.1,
        by rw [hdata, List.length_append]; omega, by omega⟩
    obtain ⟨r, hserve, hsuccess, hcontent⟩ := hfetched.poll hsite (hend _ List.mem_cons_self)
    obtain ⟨hnext, hstatus⟩ := nextOf_offset hfetched
    rw [if_neg (by rw [hended]; simp)] at hstatus
    obtain ⟨rs, t, hgives, hall, hcontents, hover⟩ := ih hfetched.toOwns.read hstatus hnext
      (show min _ _ ≤ (s.write.data.getD []).length from Nat.min_le_right _ _) htodo'
      (by rw [List.mem_append, not_or]; exact h0) (by rw [List.length_append]; exact hsize)
      fun p hp => hend p (List.mem_cons_of_mem _ hp)
    exact ⟨r :: rs, t, ⟨_, hserve, hgives⟩, List.forall_mem_cons.mpr ⟨hsuccess, hall⟩,
      by rw [List.map_cons, hcontent, hcontents]; rfl, hover⟩

omit hsite

/-- The chunks are the output. -/
theorem flatten_fetched : ∀ (blocks : List Str) (file : Str) (o : Nat), o ≤ file.length →
    (fetched file o blocks).flatten = (file ++ blocks.flatten).drop o := by
  intro blocks
  induction blocks with
  | nil =>
    intro file o ho
    obtain ⟨n, hn, -, hle⟩ := Paging.pageCount_bounds chunkerReadSize (by decide) (file.length - o)
    rw [fetched, hn, flatten_pagesFrom_self, List.take_of_length_le (by rw [List.length_drop]; exact hle), List.flatten_nil,
      List.append_nil]
  | cons b bs ih =>
    intro file o ho
    have hfile : file ++ (b :: bs).flatten = (file ++ b) ++ bs.flatten := by simp
    have ho' : o ≤ (file ++ b).length := by rw [List.length_append]; omega
    cases bs with
    | nil =>
      rw [fetched, ih _ _ ho', hfile]
    | cons b' bs =>
      rw [fetched, List.flatten_cons, ih _ _ (Nat.min_le_right _ _), hfile, page]
      generalize file ++ b = f at ho' ⊢
      rw [List.drop_append_of_le_length (Nat.min_le_right _ _), List.drop_append_of_le_length ho', ← List.append_assoc]
      congr 1
      by_cases hlt : o + chunkerReadSize ≤ f.length
      · rw [Nat.min_eq_left hlt, ← List.drop_drop, List.take_append_drop]
      · rw [Nat.min_eq_right (by omega), List.drop_length, List.append_nil,
          List.take_of_length_le (by rw [List.length_drop]; omega)]

/-! ## The question and the start -/

/-- A call that is none of the chunker's. -/
def Read (site : Site) (c : Server.Call) : Prop := ∀ s, serverCall site s c = some (site.world c, s)

theorem getOperationalNode_reads (site : Site) {env : (c : Server.Call) → c.Answer → Prop} (path : Str) (p : TemplateParams) :
    (Configuration.getOperationalNode path p).wp env (Read site) False fun _ => True := by
  have hentries : ∀ (entries : List Str) (cpath : Str) (p : TemplateParams),
      (Configuration.opTemplateEntries entries cpath p).wp env (Read site) False fun _ => True := by
    intro entries
    induction entries with
    | nil => exact fun _ _ => trivial
    | cons entry rest ih =>
      intro cpath p
      rw [Configuration.opTemplateEntries]
      split
      · exact ih _ _
      · refine (Prog.wp_ite _ _ _).mpr ⟨fun _ => ih _ _, fun _ => (Prog.wp_ite _ _ _).mpr ⟨fun _ => ?_, fun _ => ?_⟩⟩
        · exact (Server.wp_then _ _ _).mpr ⟨fun _ => rfl, fun allowed _ => ih _ _⟩
        · exact (Prog.wp_ite _ _ _).mpr ⟨fun _ => ih _ _, fun _ => ih _ _⟩
  have hrest : ∀ p : TemplateParams, Prog.wp env (Read site) False (do
      let children ← Server.perform (.opdChildren (if path.head? = some 47 then path.drop 1 else path))
      if children.isEmpty then return { p with isEnd := true }
      return { p with childrenColl := p.childrenColl ++ children.map fun child =>
        ({ name := if child = str "node.tag" then str "*" else child, state := .active } : NodeParams) }) fun _ => True := by
    intro p
    refine (Server.wp_then _ _ _).mpr ⟨fun _ => rfl, fun children _ => ?_⟩
    exact (Prog.wp_ite _ _ _).mpr ⟨fun _ => trivial, fun _ => trivial⟩
  refine (Server.wp_then _ _ _).mpr ⟨fun _ => rfl, fun tmpl _ => ?_⟩
  cases tmpl with
  | none => exact hrest p
  | some entries => exact (Prog.wp_bind _ _ _).mpr (Prog.wp_mono (hentries entries _ p) fun p _ => hrest p)

/-- The description of a command is a body and nothing else. -/
theorem getNode_reads (site : Site) (env : (c : Server.Call) → c.Answer → Prop) (s : Session) (path : Str) :
    (OpMode.getNode s path).wp env (Read site) False fun s' => ∃ body, s' = s.setResponse .body body := by
  rw [OpMode.getNode, Configuration.withConnections]
  refine (Server.wp_then _ _ _).mpr ⟨fun _ => rfl, fun _ _ => (Server.wp_then _ _ _).mpr ⟨fun _ => rfl, fun _ _ => ?_⟩⟩
  refine (Prog.wp_bind _ _ _).mpr (Prog.wp_mono (Q := fun s' => ∃ body, s' = s.setResponse .body body) ?_ fun s' hs' => ?_)
  · exact (Prog.wp_bind _ _ _).mpr (Prog.wp_mono (getOperationalNode_reads site path {}) fun p _ => ⟨_, rfl⟩)
  · exact (Server.wp_then _ _ _).mpr ⟨fun _ => rfl, fun _ _ => (Server.wp_then _ _ _).mpr ⟨fun _ => rfl, fun _ _ => hs'⟩⟩

/-- The operational daemon knows the path, and what there is to say about it fits a response. -/
structure Known (site : Site) (path : Str) : Prop where
  known : site.world (.opdExpand (path ++ [47])) = true
  short : ∀ s,
    (OpMode.getNode (session site (str "GET") (opReqRoot ++ 47 :: (path ++ [47]))) (path ++ [47])).run site.world = some s →
    (s.response.get .body).length ≤ maxBodySize

include hsite in
/-- The question about a command that is known. -/
theorem question_answered {path : Str} (h0 : (0 : UInt8) ∉ path) (hknown : Known site path) (s : State) (hidle : s.todo = []) :
    ∃ r, serve site s (question site.target path) = some (r, s) ∧ r.isSuccess = true := by
  have hwrite : s.write = s := by rw [State.write, hidle]
  have hurl : pathOf site.target (question site.target path).url = opReqRoot ++ 47 :: (path ++ [47]) := by
    rw [question]
    show pathOf site.target (base site.target ++ str "rest/op/" ++ path ++ str "/") = _
    rw [List.append_assoc, List.append_assoc, RestClient.pathOf_base, show str "/" ++ (str "rest/op/" ++ (path ++ str "/")) =
      (str "/" ++ str "rest/op/") ++ (path ++ [47]) by simp [show str "/" = [47] by decide],
      show str "/" ++ str "rest/op/" = opReqRoot ++ [47] by decide]
    simp
  have hnul : (0 : UInt8) ∉ path ++ [47] := by simp [h0]
  have hroot : opReqRoot.length = 8 := by decide
  generalize hsess : session site (str "GET") (opReqRoot ++ 47 :: (path ++ [47])) = sess
  have hpath : sess.request.get .reqUri = opReqRoot ++ 47 :: (path ++ [47]) := by rw [← hsess]; rfl
  have hmethod : sess.request.get .reqMethod = str "GET" := by rw [← hsess]; rfl
  have hauth : sess.authType ≠ .none := by
    rw [← hsess]
    exact fun h => nomatch h
  have hdispatch : (dispatch 0 sess).interp (serverCall site) s =
      (OpMode.getNode sess (path ++ [47])).interp (serverCall site) s := by
    have hop : dispatch 0 sess = OpMode.process sess := hsess ▸ dispatch_op site (str "GET") _
    rw [hop, OpMode.process, if_neg hauth, hpath, hmethod]
    simp only
    rw [if_neg (by simp), if_neg (by rw [List.length_append, hroot]; omega), if_neg (by decide), if_pos trivial, OpMode.get,
      if_neg (by simp), Prog.interp_bind, validate_interp hsite.opd, cstr_of_notMem hnul, hknown.known]
    rfl
  have hreads := getNode_reads site (fun c a => a = site.world c) sess (path ++ [47])
  have hrun := Prog.interp_of_reads (Prog.wp_allow hreads fun c hc => hc s)
  obtain ⟨s', hs', body, rfl⟩ : ∃ s', (OpMode.getNode sess (path ++ [47])).run site.world = some s' ∧
      ∃ body, s' = sess.setResponse .body body := by
    refine Prog.run_of_wp ?_ hreads
    exact fun _ => rfl
  rw [hs'] at hrun
  refine ⟨site.response (sess.setResponse .body body).response, ?_, ?_⟩
  · rw [serve, hwrite, hurl, show (question site.target path).method = str "GET" from rfl, hsess, hdispatch, hrun]
    rfl
  · have hsmall : ¬ Framing.Oversized (sess.setResponse .body body).response := by
      rintro ⟨v, hv, hlt⟩
      have hv : some body = some v := hv
      obtain rfl := Option.some.inj hv
      have hshort := hknown.short
      rw [hsess] at hshort
      have := hshort _ hs'
      have hget : (sess.setResponse .body body).response.get .body = body := rfl
      rw [hget] at this
      omega
    have hcode : (site.response (sess.setResponse .body body).response).code = 200 := by
      rw [RestClient.Library.response, Framing.shown, if_neg hsmall]
      have hnone : (sess.setResponse .body body).response.params .respCode = none := by rw [← hsess]; rfl
      rw [hnone]
      rfl
    rw [RestClient.Response.isSuccess, hcode]
    rfl

omit hsite in
/-- A command whose message is clean is handled as it was meant. -/
theorem command_received {tok stmt user : Str} (htok : isHexToken tok = true) (hstmt : (0 : UInt8) ∉ stmt)
    (huser : (60 : UInt8) ∉ user ∧ (0 : UInt8) ∉ user) (hclean : CleanStatement stmt user)
    (hfit : (message .command tok stmt user).length < 1024) :
    branch (received (message .command tok stmt user)) = some .command ∧
      fields (received (message .command tok stmt user)) = some ⟨tok, stmt, user⟩ := by
  obtain ⟨ht, h0⟩ := isHexToken_plain htok
  rw [received_message h0 hstmt huser.2]
  rw [message_eq h0 hstmt huser.2] at hfit
  refine ⟨branch_pieces ht huser.1, ?_⟩
  have htok : between (render (pieces .command tok stmt user)) (str "<token>") (str "</token>") = some tok :=
    between_token ht (by omega)
  rw [command_eq] at hfit htok ⊢
  have hopen : ¬ str "</user>" <:+: user := fun h => huser.1 (List.IsInfix.mem (by decide) h)
  rw [fields, htok]
  simp only
  rw [(statement_iff ht (by omega)).mpr hclean.1, (user_iff_clean ht hopen (by omega)).mpr hclean.2]

/-- The entry of a command. -/
def entryOf (site : Site) (statement : Str) : ProcessData where
  startTime := site.now
  lastUpdate := site.now
  command := statement
  token := site.token
  user := site.user
  readOffset := 0
  status := .running

/-- The request that starts a command. -/
def startRequest (site : Site) (path : Str) : Request := ⟨str "POST", base site.target ++ str "rest/op/" ++ path⟩

include hsite in
theorem Sound.token_ne_nil : site.token ≠ [] := by
  intro h
  have hlen := hsite.token_length
  rw [h] at hlen
  cases hlen

include hsite in
/-- What the manager makes of the message. -/
theorem command_handled {line : Str} (hstmt : (0 : UInt8) ∉ line) (hclean : CleanStatement line site.user)
    (hfit : (message .command site.token line site.user).length < 1024) (hne : line ≠ []) {s : State}
    (hnew : s.table.find site.token = none) :
    serverCall site s (.send (message .command site.token line site.user)) = some (true, { s with
      todo := site.output line
      pid := some site.pid
      table := s.table.insert site.token (entryOf site line) }) := by
  obtain ⟨hbranch, hfields⟩ := command_received hsite.token hstmt hsite.user hclean hfit
  have hstart : Chunker.startNew site.token line site.user = (do
      Chunker.perform (.startNew site.token line site.user)
      return true) := by
    rw [Chunker.startNew, if_neg (by simp [hne, hsite.token_ne_nil, hsite.user_ne_nil])]
  have hhandle : handle chunkSize s.table site.now ⟨site.token, line, site.user⟩ .command = (do
      Chunker.perform (.startNew site.token line site.user)
      return s.table.insert site.token (entryOf site line)) := by
    rw [handle, handleCommand, hnew, if_neg (by simp), hstart]
    rfl
  rw [serverCall, Chunker.process, hbranch, hfields]
  show Option.map _ (Prog.interp _ (handle chunkSize s.table site.now ⟨site.token, line, site.user⟩ .command) s) = _
  rw [hhandle]
  rfl

include hsite in
/-- The server's part: a token, and one message. -/
theorem Sound.start {line : Str} (hfit : (message .command site.token line site.user).length < 1024) {s s' : State}
    (hsend : serverCall site s (.send (message .command site.token line site.user)) = some (true, s')) :
    (MultiResponseCommand.start site.user line).interp (serverCall site) s = some (site.token, s') := by
  have hgenerate : serverCall site s .generateToken = some (site.token, s) := rfl
  have hrequest : Chunker.request .command site.token line site.user =
      some (message .command site.token line site.user) := by
    rw [Chunker.request, if_neg (by rw [hsite.token_length]; decide)]
  rw [MultiResponseCommand.start]
  refine (Prog.interp_perform hgenerate _).trans ?_
  rw [hrequest]
  show Prog.interp _ (MultiResponseCommand.write _ >>= _) s = _
  rw [MultiResponseCommand.write, if_pos hfit]
  exact Prog.interp_perform hsend _

include hsite in
/-- The POST of a command that is started. -/
theorem Sound.posted (path : Str) {s s' : State}
    (hstart : (MultiResponseCommand.start site.user (translateRestToCli path)).interp (serverCall site) s =
      some (site.token, s')) :
    (dispatch 0 (session site (str "POST") (opReqRoot ++ 47 :: path))).interp (serverCall site) s =
      some (((session site (str "POST") (opReqRoot ++ 47 :: path)).setResponse .respLocation
        (str "rest/op/" ++ site.token)).error .created, s') := by
  have hroot : opReqRoot.length = 8 := by decide
  have hconnect : serverCall site s .connect = some (true, s) := rfl
  have htoken : ¬ site.token.isEmpty = true := by simpa using hsite.token_ne_nil
  rw [dispatch_op]
  generalize hsess : session site (str "POST") (opReqRoot ++ 47 :: path) = sess
  have hpath : sess.request.get .reqUri = opReqRoot ++ 47 :: path := by rw [← hsess]; rfl
  have hmethod : sess.request.get .reqMethod = str "POST" := by rw [← hsess]; rfl
  have huser : sess.user = site.user := by rw [← hsess]; rfl
  have hauth : sess.authType ≠ .none := by
    rw [← hsess]
    exact fun h => nomatch h
  have hcut : substrFrom (opReqRoot ++ 47 :: path) (opReqRoot.length + 1) = pure path := by
    have hdrop : (opReqRoot ++ 47 :: path).drop (opReqRoot.length + 1) = path := by
      rw [show opReqRoot ++ 47 :: path = (opReqRoot ++ [47]) ++ path by simp]
      exact List.drop_left' (by simp)
    rw [substrFrom, substrAt, if_pos (by rw [List.length_append, List.length_cons]; omega), substr, hdrop,
      List.take_of_length_le (by rw [List.length_append, List.length_cons]; omega)]
  rw [OpMode.process, if_neg hauth, hpath, hmethod]
  simp only
  rw [if_neg (by simp), if_neg (by rw [List.length_append, hroot]; omega), if_pos trivial, OpMode.post,
    if_neg (by rw [List.length_append, hroot, List.length_cons]; omega), hcut, Prog.ret_bind]
  refine (Prog.interp_perform hconnect _).trans ?_
  show Prog.interp _ (MultiResponseCommand.start sess.user (translateRestToCli path) >>= _) s = _
  rw [huser, Prog.interp_bind, hstart, Option.bind_some]
  simp only [htoken, Bool.false_eq_true, if_false]
  rfl

include hsite in
/-- A command is started, and its output gets a place. -/
theorem command_started {path : Str} (h0 : (0 : UInt8) ∉ path) (hclean : CleanStatement (translateRestToCli path) site.user)
    (hfit : (message .command site.token (translateRestToCli path) site.user).length < 1024)
    (hne : translateRestToCli path ≠ []) (s : State) (hidle : s.todo = []) (hnew : s.table.find site.token = none) :
    ∃ r, serve site s (startRequest site path) = some (r, { s with
        todo := site.output (translateRestToCli path)
        pid := some site.pid
        table := s.table.insert site.token (entryOf site (translateRestToCli path)) }) ∧
      r.isSuccess = true ∧ r.location = some (str "rest/op/" ++ site.token) := by
  have hwrite : s.write = s := by rw [State.write, hidle]
  have hurl : pathOf site.target (startRequest site path).url = opReqRoot ++ 47 :: path := by
    rw [startRequest]
    show pathOf site.target (base site.target ++ str "rest/op/" ++ path) = _
    rw [List.append_assoc, RestClient.pathOf_base, show opReqRoot ++ 47 :: path = (opReqRoot ++ [47]) ++ path by simp,
      show opReqRoot ++ [47] = str "/" ++ str "rest/op/" by decide, List.append_assoc]
  have hdispatch := hsite.posted path
    (hsite.start hfit (command_handled hsite (zero_notMem_translate h0) hclean hfit hne hnew))
  generalize hsess : session site (str "POST") (opReqRoot ++ 47 :: path) = sess at hdispatch
  have hnone : sess.response.params .body = none := by
    rw [← hsess]
    rfl
  obtain ⟨hcode, -, hlocation⟩ := response_status site
    ((sess.setResponse .respLocation (str "rest/op/" ++ site.token)).setResponse .respCode (str "201")).response
      hnone (str "201") rfl
  have hcreated : (sess.setResponse .respLocation (str "rest/op/" ++ site.token)).error .created =
      (sess.setResponse .respLocation (str "rest/op/" ++ site.token)).setResponse .respCode (str "201") :=
    error_status .created (by simp) _
  refine ⟨site.response ((sess.setResponse .respLocation (str "rest/op/" ++ site.token)).error .created).response, ?_, ?_, ?_⟩
  · rw [serve, hwrite, hurl, show (startRequest site path).method = str "POST" from rfl, hsess, hdispatch]
    rfl
  · rw [RestClient.Response.isSuccess, hcreated, hcode]
    decide
  · rw [hcreated, hlocation]
    rfl

/-! ## The whole way -/

theorem zero_notMem_cmd2path {safe : UInt8 → Bool} (hsafe : EscapeSet safe) (cmd : Str) : (0 : UInt8) ∉ cmd2path safe cmd := by
  have htoken : ∀ t, (0 : UInt8) ∉ RestClient.escapeToken safe t := by
    intro t hm
    rw [RestClient.escapeToken_eq] at hm
    rcases mem_percentEncode hm with ⟨h, -⟩ | h | h
    · rw [Bool.and_eq_true] at h
      have := hsafe.others 0 h.1
      revert this; decide
    · revert h; decide
    · revert h; decide
  have hwords : ∀ words : List Str, (∀ w ∈ words, (0 : UInt8) ∉ w) → (0 : UInt8) ∉ [47].intercalate words := by
    intro words
    induction words with
    | nil => exact fun _ hm => nomatch hm
    | cons w ws ih =>
      intro h
      obtain ⟨hw, hws⟩ := List.forall_mem_cons.mp h
      cases ws with
      | nil => simpa using hw
      | cons w' ws =>
        rw [List.intercalate_cons_cons, List.mem_append, List.mem_append, not_or, not_or]
        exact ⟨⟨hw, by decide⟩, ih hws⟩
  refine hwords _ fun w hw => ?_
  obtain ⟨t, -, rfl⟩ := List.mem_map.mp hw
  exact htoken t

include hsite in
/-- The state in which a command has been started. -/
theorem owns_started {line : Str} (hne : line ≠ []) (h0 : (0 : UInt8) ∉ line) (hentry : (entryOf site line).Clean)
    (hlt : line.length < 1024) {s s' : State} (hstarted : s.table.Started) (hnew : s.table.find site.token = none)
    (htable : s'.table = s.table.insert site.token (entryOf site line)) : Owns site s' (entryOf site line) := by
  have htoken : site.token ≠ [] := by
    intro h
    have := hsite.token_length
    rw [h] at this
    cases this
  refine ⟨?_, ?_, rfl, hentry, hlt⟩
  · rintro ⟨k, v⟩ hmem
    have hfind := OrdMap.mem_entries.mp hmem
    rw [htable, OrdMap.find_insert] at hfind
    split at hfind
    · rename_i hk
      subst hk
      rw [hnew] at hfind
      obtain rfl : entryOf site line = v := Option.some.inj hfind
      refine ⟨rfl, hne, htoken, hsite.user_ne_nil, ?_⟩
      rw [List.mem_append, List.mem_append, not_or, not_or]
      exact ⟨⟨h0, (isHexToken_plain hsite.token).2⟩, hsite.user.2⟩
    · exact hstarted _ (OrdMap.mem_entries.mpr hfind)
  · rw [htable, OrdMap.find_insert, if_pos rfl, hnew]
    rfl

include hsite in
/-- A command that the server knows and that one message can carry: the client returns all that the
    command has written, but for the bytes it does not show, and no error. -/
theorem command_round_trip {safe : UInt8 → Bool} (hsafe : EscapeSet safe) {cmd line : Str}
    (hline : translateRestToCli (cmd2path safe cmd) = line) (hne : line ≠ []) (hknown : Known site (cmd2path safe cmd))
    (hclean : CleanStatement line site.user) (hfit : (message .command site.token line site.user).length < 1024)
    (hentry : (entryOf site line).Clean) (hcapture : ¬ str "capture" <:+ cmd2path safe cmd)
    {s : State} (hidle : s.todo = []) (hdata : s.data = none) (hstarted : s.table.Started)
    (hnew : s.table.find site.token = none)
    {b : Str} {bs : List Str} (houtput : site.output line = b :: bs)
    (h0 : (0 : UInt8) ∉ (b :: bs).flatten) (hsize : (b :: bs).flatten.length < 2 ^ 32)
    (hend : ∀ p ∈ fetched [] 0 (b :: bs), p ≠ str "END")
    (hblank : ((fetched [] 0 (b :: bs)).map RestClient.Op.strip).count [] ≤ 11) :
    ∃ n s', ∀ rounds ≥ n, (runOpCmd safe rounds site.target cmd none).interp (serve site) s =
      some (some (none, some (RestClient.Op.strip (b :: bs).flatten)), s') := by
  have hnul := zero_notMem_cmd2path hsafe cmd
  have hnul' : (0 : UInt8) ∉ line := hline ▸ zero_notMem_translate hnul
  have hlt : line.length < 1024 := by
    rw [message_eq (isHexToken_plain hsite.token).2 hnul' hsite.user.2, command_eq] at hfit
    simp only [List.length_append] at hfit
    omega
  obtain ⟨r₁, hask, hok₁⟩ := question_answered hsite hnul hknown s hidle
  obtain ⟨r₂, hpost, hok₂, hlocation⟩ := command_started hsite hnul (hline ▸ hclean) (hline ▸ hfit) (hline ▸ hne) s hidle hnew
  rw [hline] at hpost
  generalize hs₁ : ({ s with
        todo := site.output line
        pid := some site.pid
        table := s.table.insert site.token (entryOf site line) } : State) = s₁ at hpost
  have hdata₁ : s₁.data.getD [] = [] := by rw [← hs₁, hdata]; rfl
  have howns : Owns site s₁ (entryOf site line) := owns_started hsite hne hnul' hentry hlt hstarted hnew (by rw [← hs₁])
  -- the polls, up to the end
  obtain ⟨rs, t, hgives, hall, hcontents, pd, hover, hdead, hended', htodo'⟩ := all_polls hsite bs howns rfl (o := 0) rfl
    (Nat.zero_le _) (by rw [← hs₁]; exact houtput) (by rw [hdata₁]; exact h0) (by rw [hdata₁]; exact hsize)
      (by rw [hdata₁]; exact hend)
  rw [hdata₁] at hcontents
  have hwrite : t.write = t := by rw [State.write, htodo']
  obtain ⟨last, t', hlast, hcode⟩ := Owns.over hsite (s := t) (by rw [hwrite]; exact hover) hdead (by rw [hwrite]; exact hended')
  have hchunks : (rs.map fun r => RestClient.Op.strip r.content) = (fetched [] 0 (b :: bs)).map RestClient.Op.strip := by
    rw [← hcontents, List.map_map]
    rfl
  have hrs : rs ≠ [] := by
    intro hrs
    rw [hrs, List.map_nil] at hcontents
    cases bs with
    | nil =>
      obtain ⟨n, hn, -, -⟩ := Paging.pageCount_bounds chunkerReadSize (by decide) (([] ++ b).length - 0)
      rw [fetched, fetched, hn] at hcontents
      cases hcontents
    | cons b' bs => cases hcontents
  have hcount : (Reading.start 0).count + (rs.map fun r => RestClient.Op.strip r.content).count [] ≤ 11 := by
    rw [hchunks]
    exact (Nat.zero_add _).le.trans hblank
  have hflatten : ((fetched [] 0 (b :: bs)).map RestClient.Op.strip).flatten = RestClient.Op.strip (b :: bs).flatten := by
    rw [RestClient.Op.strip, ← List.drop_zero (l := (b :: bs).flatten), ← List.nil_append (b :: bs).flatten,
      ← flatten_fetched (b :: bs) [] 0 (Nat.le_refl _), List.filter_flatten]
    rfl
  refine ⟨rs.length + 1, t', fun rounds hrounds => ?_⟩
  have hvalid : (RestClient.Op.isOpCmdValid site.target (cmd2path safe cmd)).interp (serve site) s = some (true, s) := by
    rw [RestClient.Op.isOpCmdValid]
    refine (Prog.interp_perform hask _).trans ?_
    rw [hok₁]
    rfl
  rw [runOpCmd]
  simp only
  rw [Prog.interp_bind, hvalid, Option.bind_some]
  refine (Prog.interp_perform hpost _).trans ?_
  simp only [hok₂, if_true, hlocation, List.isSuffixOf_iff_suffix, hcapture, if_false]
  refine (RestClient.Op.readOpOutput_gives hcode hgives hall hlast rfl hcount hrounds).trans ?_
  rw [if_neg hrs, hchunks, hflatten]
  rfl

/-! ## A command -/

/-- The version is shown in five blocks, of which two are empty and one has a byte to hide. -/
def router : Site where
  token := str "0123456789ABCDEF"
  now := 1568000000
  pid := str "4711"
  target := str "router"
  user := str "vyatta"
  output _ := [[], str "Version: ", [], [98, 1], str "1.0\n"]
  world
    | .opdOpen => true
    | .opdExpand path => (path = str "show/version/" : Bool)
    | c => ServiceMode.sampleAnswer c
  json := some
  decode _ := none
  statusLine code := dec code
  object := str "HTTP::Response=HASH(0x1)"

def idle : State := ⟨OrdMap.empty, none, false, none, [], []⟩

theorem show_version_is_returned : ∃ n s', ∀ rounds ≥ n,
    (runOpCmd RestClient.isUnreserved rounds router.target (str "show version") none).interp (serve router) idle =
      some (some (none, some (str "Version: b1.0\n")), s') := by
  have hsound : Sound router := ⟨by decide, by decide, by decide, by decide, rfl, by decide, by decide⟩
  have hknown : Known router (cmd2path RestClient.isUnreserved (str "show version")) := by
    refine ⟨by decide, fun s hs => ?_⟩
    have hshort : ((OpMode.getNode (session router (str "GET") (str "/rest/op/show/version/")) (str "show/version/")).run
        router.world).all (fun s => decide ((s.response.get .body).length ≤ maxBodySize)) = true := by decide
    rw [show str "/rest/op/show/version/" =
      opReqRoot ++ 47 :: (cmd2path RestClient.isUnreserved (str "show version") ++ [47]) by decide,
      show str "show/version/" = cmd2path RestClient.isUnreserved (str "show version") ++ [47] by decide, hs] at hshort
    simpa using hshort
  have hclean : CleanStatement (str "show 'version'") router.user := ⟨by decide, Or.inl ⟨by decide, by decide⟩⟩
  have htext : ∀ t ∈ [str "show 'version'", router.token, router.user], CleanText t := by
    intro t ht
    have hall : ∀ t ∈ [str "show 'version'", router.token, router.user], (9 : UInt8) ∉ t ∧ (126 : UInt8) ∉ t ∧
        ¬ str "%3A" <:+: t ∧ ¬ str "%2C" <:+: t := by decide
    exact hall t ht
  have hentry : (entryOf router (str "show 'version'")).Clean :=
    ⟨htext _ (by simp [entryOf]), htext _ (by simp [entryOf]), htext _ (by simp [entryOf]), by decide⟩
  have hempty : idle.table.Started := fun p hp => absurd hp List.not_mem_nil
  have hline : translateRestToCli (cmd2path RestClient.isUnreserved (str "show version")) = str "show 'version'" := by decide
  have hfit : (message .command router.token (str "show 'version'") router.user).length < 1024 := by
    set_option maxRecDepth 2000 in decide
  exact command_round_trip hsound ⟨fun _ h => h, fun _ h => Or.inl h⟩ hline (by decide) hknown hclean hfit hentry
    (by decide) rfl rfl hempty rfl rfl (by decide) (by decide) (by decide) (by decide)

end VyattaRest.RoundTrip
