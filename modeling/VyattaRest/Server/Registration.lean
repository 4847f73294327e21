/-
  VyattaRest.Server.Registration — from the 201 of an operational command to its entry in the
  chunker's table.

  `OpMode` answers 201 once the message is written to the socket. What becomes of the message
  is decided later, by the manager: it may find no statement in it, since a path of a single
  segment is translated to nothing, or take another user out of it than was put in.
  - `created_command_registered_iff`: the entry is there, with the id of the Location and the
    user of the request, exactly when the path has a `/` after its first byte and its
    statement carries no user field of its own, or the id was the user's before.
  - `a_single_segment_is_not_registered`: `POST /rest/op/reboot` is answered with 201 and is
    never started.
-/

import VyattaRest.Server.OpMode
import VyattaRest.Server.Token
import VyattaRest.Chunker.Entries

namespace VyattaRest.Server.Registration

open VyattaRest.Lib VyattaRest.Lib.Prog VyattaRest.Rest VyattaRest.Chunker

/-! ## Tokens -/

/-- The call gives tokens (`generates_isToken`); nothing is said of the other answers. -/
def world : (c : Call) → c.Answer → Prop
  | .generateToken, tok => IsToken tok
  | _, _ => True

theorem isHexToken_hexWord (v w : UInt32) : isHexToken (hexWord v ++ hexWord w) = true := by
  have hall : ∀ v : UInt32, ∀ b ∈ hexWord v, isHex b = true := by
    intro v b hb
    obtain ⟨i, -, rfl⟩ := List.mem_map.mp hb
    exact isHex_hexDigit (Nat.mod_lt _ (by decide))
  rw [isHexToken, Bool.and_eq_true, List.all_append, Bool.and_eq_true, List.all_eq_true, List.all_eq_true]
  exact ⟨rfl, hall v, hall w⟩

/-! ## The statement of a path -/

/-- A `/` after the first byte makes a second segment. -/
theorem translate_eq_nil_iff (path : Str) : translateRestToCli path = [] ↔ (47 : UInt8) ∉ path.tail := by
  rw [translateRestToCli_eq]
  rcases path with _ | ⟨b, r⟩
  · simp [segments]
  rw [List.tail_cons, segments]
  rcases hf : find (str "/") r with _ | i
  · have hno : (47 : UInt8) ∉ r := by
      rw [slash_eq, find_eq_none_iff, List.singleton_infix_iff] at hf
      exact hf
    simp [find_slash_none hf, hno]
  · have hmem : (47 : UInt8) ∈ r := by
      by_contra hno
      rw [find_none_of_notMem (c := 47) ⟨[], slash_eq, by simp⟩ hno] at hf
      cases hf
    have hne := List.splitOn_ne_nil 47 (r.drop (i + 1))
    rw [(find_slash_some hf).1]
    rcases hs : (r.drop (i + 1)).splitOn 47 with _ | ⟨t, ts⟩
    · exact absurd hs hne
    · simp [hmem]

theorem quoteToken_head (t : Str) : (quoteToken t).head? = some 32 := by
  unfold quoteToken
  split
  · rfl
  · split <;> rfl

/-- The first segment has no `/` behind its first byte, and a blank follows it. -/
theorem translate_second_byte (path : Str) : (translateRestToCli path)[1]? ≠ some 47 := by
  rw [translateRestToCli_eq]
  rcases path with _ | ⟨b, r⟩
  · simp [segments]
  rw [segments]
  rcases hf : find (str "/") r with _ | i
  · simp [find_slash_none hf]
  have hno : (47 : UInt8) ∉ r.take i := by
    rw [slash_eq] at hf
    have := not_infix_take_of_find (by simp) hf
    rw [List.singleton_infix_iff] at this
    exact this
  rw [(find_slash_some hf).1]
  rcases hs : (r.drop (i + 1)).splitOn 47 with _ | ⟨t, ts⟩
  · exact absurd hs (List.splitOn_ne_nil 47 _)
  simp only [List.modifyHead_cons, List.cons_append, List.getElem?_cons_succ, List.map_cons, List.flatten_cons]
  rcases hg : r.take i with _ | ⟨c, g⟩
  · obtain ⟨w, hw⟩ := List.head?_eq_some_iff.mp (quoteToken_head (unescape t))
    simp [hw]
  · rw [hg] at hno
    simp only [List.cons_append, List.getElem?_cons_zero, Ne, Option.some.injEq]
    exact fun e => hno (by simp [e])

/-- The receiver finds a statement whenever one was sent. -/
theorem statement_field_eq_nil {tok user path : Str} (ht : (60 : UInt8) ∉ tok)
    (hlen : (before tok ++ (translateRestToCli path ++ after user)).length < 2 ^ 63) :
    (between (before tok ++ (translateRestToCli path ++ after user)) (str "<statement>") (str "</statement>")).getD [] = [] ↔
      (47 : UInt8) ∉ path.tail := by
  rw [statement_field ht hlen, Option.getD_some, ← translate_eq_nil_iff]
  rcases hf : find (str "</statement>") (translateRestToCli path) with _ | i
  · rw [Option.getD_none, List.take_length]
  · -- a statement does not start with the tag, so something stands before it
    obtain ⟨a, b, hab, rfl⟩ := find_split hf
    have ha : a ≠ [] := by
      intro ha
      subst ha
      have hsecond := translate_second_byte path
      rw [hab] at hsecond
      exact hsecond rfl
    rw [Option.getD_some, hab, List.append_assoc, List.take_left]
    simp [ha]

/-! ## The manager's side -/

/-- The user has an entry under the id, with a command. -/
def HoldsEntry (t : ProcColl) (id user : Str) : Prop := ∃ pd, t.find id = some pd ∧ pd.user = user ∧ pd.command ≠ []

/-- An entry that is there stays, at most with a new time. -/
theorem commandTable_keeps {t : ProcColl} {f : Fields} {old : ProcessData} (hf : t.find f.token = some old) (now : UInt64) :
    ∃ now', (commandTable t now f).find f.token = some { old with lastUpdate := now' } := by
  unfold commandTable
  split
  · exact ⟨now, by rw [OrdMap.find_update, if_pos rfl, hf]; rfl⟩
  · split
    · exact ⟨old.lastUpdate, hf⟩
    · exact ⟨old.lastUpdate, by rw [OrdMap.find_insert, if_pos rfl, hf]; rfl⟩

/-- A new entry needs a statement and the right user. -/
theorem commandTable_holds_iff (t : ProcColl) (now : UInt64) (f : Fields) (user : Str) (htoken : f.token ≠ []) :
    HoldsEntry (commandTable t now f) f.token user ↔
      HoldsEntry t f.token user ∨ t.find f.token = none ∧ f.statement ≠ [] ∧ f.user = user ∧ user ≠ [] := by
  unfold HoldsEntry
  rcases hf : t.find f.token with _ | old
  · unfold commandTable
    rw [if_neg (by simp [hf])]
    split
    · rename_i hempty
      simp only [Bool.or_eq_true, List.isEmpty_iff] at hempty
      refine iff_of_false (fun hheld => ?_) ?_
      · obtain ⟨pd, hpd, -⟩ := hheld
        cases hf.symm.trans hpd
      · rintro (⟨pd, hpd, -⟩ | ⟨-, hs, rfl, hu⟩)
        · cases hpd
        · rcases hempty with (h | h) | h
          · exact hs h
          · exact htoken h
          · exact hu h
    · rename_i hempty
      simp only [Bool.or_eq_true, List.isEmpty_iff, not_or] at hempty
      rw [OrdMap.find_insert, if_pos rfl, hf, Option.getD_none]
      constructor
      · rintro ⟨pd, hpd, rfl, hc⟩
        cases hpd
        exact Or.inr ⟨rfl, hc, rfl, hempty.2⟩
      · rintro (⟨pd, hpd, -⟩ | ⟨-, hs, rfl, -⟩)
        · cases hpd
        · exact ⟨_, rfl, rfl, hs⟩
  · obtain ⟨now', hnow⟩ := commandTable_keeps hf now
    rw [hnow]
    simp

/-- What the receiver makes of the message for a path. -/
theorem fields_command {tok path user : Str} (ht : isHexToken tok = true) (hpath : (0 : UInt8) ∉ path)
    (huser : (0 : UInt8) ∉ user) (hfit : (message .command tok (translateRestToCli path) user).length < 1024) :
    ∃ f, fields (received (message .command tok (translateRestToCli path) user)) = some f ∧
      branch (received (message .command tok (translateRestToCli path) user)) = some .command ∧ f.token = tok ∧
      (f.statement = [] ↔ (47 : UInt8) ∉ path.tail) ∧
      (f.user = user ↔ CleanUser (translateRestToCli path) user ∧ ¬ str "</user>" <:+: user) := by
  obtain ⟨ht1, ht0⟩ := isHexToken_plain ht
  have hs0 := zero_notMem_translate hpath
  rw [message_eq ht0 hs0 huser] at hfit
  rw [received_message ht0 hs0 huser]
  have hbranch : branch (render (pieces .command tok (translateRestToCli path) user)) = some .command :=
    if_pos (contains_own_tag .command tok _ user)
  have htok := @between_token .command tok (translateRestToCli path) user ht1 (by omega)
  rw [command_eq] at hfit hbranch htok ⊢
  refine ⟨_, by rw [fields, htok], hbranch, rfl, ?_, ?_⟩
  · exact statement_field_eq_nil ht1 (by omega)
  · exact user_iff ht1 (by omega)

/-- The table is the one the command makes of it, at the time the manager read. -/
theorem afterMessage_command {chunkSize : UInt64} {t t' : ProcColl} {m : Handled} {f : Fields}
    (hfields : fields m.message = some f) (hbranch : branch m.message = some .command)
    (h : afterMessage chunkSize t m = some t') : ∃ now, t' = commandTable t now f := by
  have hwp : wp (fun _ _ => True) (fun _ => True) True (Chunker.process chunkSize t m.message)
      fun t' => ∃ now, t' = commandTable t now f := by
    unfold Chunker.process
    rw [hfields, hbranch]
    exact ⟨trivial, fun now _ => wp_mono (handleCommand_table t now f) fun t' ht' => ⟨now, ht'⟩⟩
  unfold afterMessage at h
  split at h
  · rename_i hreplay
    cases h
    exact (exec_of_replay (fun _ _ => trivial) hreplay).wp hwp
  · cases h

/-! ## The server's side -/

theorem request_command {tok stmt user m : Str} (h : request .command tok stmt user = some m) :
    16 ≤ tok.length ∧ m = message .command tok stmt user := by
  unfold request at h
  simp only at h
  split at h
  · cases h
  · rename_i hlen
    exact ⟨Nat.le_of_not_lt hlen, (Option.some.inj h).symm⟩

/-- The messages that were written to the socket. -/
def sent (tr : List (Sigma Call.Answer)) : List Str :=
  tr.filterMap fun x =>
    match x with
    | ⟨.send m, true⟩ => some m
    | _ => none

theorem code_error (s : Session) (type : ErrorType) : (s.error type).response.get .respCode = type.response.1 := by
  unfold Session.error Session.errorMsg
  rfl

/-- A command with its id. -/
def startAs (user cmd tok : Str) : Act Str :=
  match request .command tok cmd user with
  | none => pure []
  | some m => do if ← MultiResponseCommand.write m then return tok else return []

/-- `start` returns a token once it has written the message for it. -/
theorem start_sent {user cmd id : Str} {tr : List (Sigma Call.Answer)}
    (h : Exec world (MultiResponseCommand.start user cmd) tr (.ret id)) (hne : id ≠ []) :
    ∃ m, IsToken id ∧ request .command id cmd user = some m ∧ m.length < 1024 ∧ sent tr = [m] := by
  obtain ⟨tok, tr₁, htok, rfl, h₁⟩ := Exec.call_inv (c := Server.Call.generateToken) h
  change Exec world (startAs user cmd tok) tr₁ (.ret id) at h₁
  unfold startAs at h₁
  rcases hreq : request .command tok cmd user with _ | m
  · rw [hreq] at h₁
    exact absurd h₁.ret_inv.2 hne
  simp only [hreq] at h₁
  by_cases hfit : m.length < 1024
  · rw [MultiResponseCommand.write, if_pos hfit] at h₁
    obtain ⟨written, tr₂, -, rfl, h₂⟩ := Exec.call_inv (c := Server.Call.send m) h₁
    cases written with
    | false => exact absurd (Exec.ret_inv (a := []) h₂).2 hne
    | true =>
      obtain ⟨rfl, rfl⟩ := Exec.ret_inv (a := tok) h₂
      exact ⟨m, htok, hreq, hfit, rfl⟩
  · rw [MultiResponseCommand.write, if_neg hfit] at h₁
    exact (Exec.throw_inv h₁).elim

/-- A POST that is answered with 201 has written one message, for the id in the Location. -/
theorem post_created {s s' : Session} {path : Str} {tr : List (Sigma Call.Answer)}
    (h : Exec world (OpMode.post s (opReqRoot ++ str "/" ++ path)) tr (.ret s'))
    (hcode : s'.response.get .respCode = str "201") :
    ∃ id m, IsToken id ∧ request .command id (translateRestToCli path) s.user = some m ∧ m.length < 1024 ∧
      sent tr = [m] ∧ s'.response.get .respLocation = str "rest/op/" ++ id := by
  have hlen : (opReqRoot ++ str "/" ++ path).length = opReqRoot.length + 1 + path.length := by
    rw [List.length_append, List.length_append]
    rfl
  have hdrop : (opReqRoot ++ str "/" ++ path).drop (opReqRoot.length + 1) = path := List.drop_left' rfl
  have hserver : ∀ {tr'}, Exec world (.ret (s.error .serverError)) tr' (.ret s') → False := by
    intro tr' hend
    rw [hend.ret_inv.2, code_error] at hcode
    exact absurd hcode (by decide)
  unfold OpMode.post at h
  rw [if_neg (by omega), substrFrom_of_le (by omega), hdrop] at h
  obtain ⟨connected, tr₁, -, rfl, h₁⟩ := Exec.call_inv (c := Server.Call.connect) h
  cases connected with
  | false => exact (hserver h₁).elim
  | true =>
    change Exec world (MultiResponseCommand.start s.user (translateRestToCli path) >>= _) tr₁ (.ret s') at h₁
    obtain ⟨tr₂, tr₃, id, rfl, hstart, h₂⟩ := h₁.bind_ret_inv
    rcases id with _ | ⟨b, id⟩
    · exact (hserver h₂).elim
    · obtain ⟨rfl, rfl⟩ := Exec.ret_inv h₂
      obtain ⟨m, htok, hreq, hfit, hsent⟩ := start_sent hstart (by simp)
      refine ⟨b :: id, m, htok, hreq, hfit, ?_, rfl⟩
      rw [List.append_nil]
      exact hsent

theorem process_post {s s' : Session} {tr : List (Sigma Call.Answer)} (h : Exec world (OpMode.process s) tr (.ret s'))
    (hmethod : s.request.get .reqMethod = str "POST") (hcode : s'.response.get .respCode = str "201") :
    Exec world (OpMode.post s (s.request.get .reqUri)) tr (.ret s') := by
  have herror : ∀ {type : ErrorType}, type.response.1 ≠ str "201" → ¬ Exec world (.ret (s.error type)) tr (.ret s') := by
    intro type hne hend
    rw [hend.ret_inv.2, code_error] at hcode
    exact hne hcode
  unfold OpMode.process at h
  split at h
  · exact absurd h (herror (by decide))
  simp only at h
  split at h
  · exact absurd h (herror (by decide))
  split at h
  · exact absurd h (herror (by decide))
  · exact h

/-! ## From the answer to the entry -/

/-- The entry of a command that was answered with 201: the id is the user's already, or it is
    not taken, the path has a second segment, and the message names the user. -/
def Accepts (t : ProcColl) (id path user : Str) : Prop :=
  HoldsEntry t id user ∨ t.find id = none ∧ (47 : UInt8) ∈ path.tail ∧ CleanUser (translateRestToCli path) user ∧
    ¬ str "</user>" <:+: user ∧ user ≠ []

theorem created_command_registered_iff {s s' : Session} {path : Str} {tr : List (Sigma Call.Answer)}
    (hmethod : s.request.get .reqMethod = str "POST") (huri : s.request.get .reqUri = opReqRoot ++ str "/" ++ path)
    (hpath : (0 : UInt8) ∉ path) (huser : (0 : UInt8) ∉ s.user) (h : Exec world (OpMode.process s) tr (.ret s'))
    (hcode : s'.response.get .respCode = str "201") :
    ∃ id m, s'.response.get .respLocation = str "rest/op/" ++ id ∧ sent tr = [m] ∧
      ∀ chunkSize t answers t', afterMessage chunkSize t ⟨received m, answers⟩ = some t' →
        (HoldsEntry t' id s.user ↔ Accepts t id path s.user) := by
  have hpost := process_post h hmethod hcode
  rw [huri] at hpost
  obtain ⟨id, m, htok, hreq, hfit, hsent, hloc⟩ := post_created hpost hcode
  obtain ⟨hlen, hm⟩ := request_command hreq
  refine ⟨id, m, hloc, hsent, fun chunkSize t answers t' hafter => ?_⟩
  have hne : id ≠ [] := fun e => by rw [e] at hlen; exact absurd hlen (by decide)
  have hhex : isHexToken id = true := by
    rcases htok with e | ⟨v, w, rfl⟩
    · exact absurd e hne
    · exact isHexToken_hexWord v w
  rw [hm] at hfit hafter
  obtain ⟨f, hfields, hbranch, htoken, hstmt, hfuser⟩ := fields_command hhex hpath huser hfit
  obtain ⟨now, ht'⟩ := afterMessage_command hfields hbranch hafter
  have hiff := commandTable_holds_iff t now f s.user (htoken ▸ hne)
  rw [← ht', htoken, Ne, hstmt, not_not, hfuser] at hiff
  rw [hiff, Accepts, and_assoc (c := s.user ≠ [])]

/-! ## Two requests -/

/-- A POST of bob. -/
def bobPosts (uri : Str) : Session :=
  { Session.new with
    request := (Http.empty.set .reqUri uri).set .reqMethod (str "POST")
    user := str "bob"
    authType := .basic }

def sampleId : Str := hexWord 1 ++ hexWord 2

def created (s : Session) : Session := (s.setResponse .respLocation (str "rest/op/" ++ sampleId)).error .created

/-- The run of a POST that is answered with 201, up to the message for its command. -/
def postRun (cmd : Str) : List (Sigma Call.Answer) :=
  [⟨.connect, true⟩, ⟨.generateToken, sampleId⟩, ⟨.send (message .command sampleId cmd (str "bob")), true⟩]

theorem isToken_sampleId : IsToken sampleId := Or.inr ⟨1, 2, rfl⟩

theorem exec_start {cmd : Str} (hfit : (message .command sampleId cmd (str "bob")).length < 1024) :
    Exec world (MultiResponseCommand.start (str "bob") cmd)
      [⟨.generateToken, sampleId⟩, ⟨.send (message .command sampleId cmd (str "bob")), true⟩] (.ret sampleId) := by
  have hreq : request .command sampleId cmd (str "bob") = some (message .command sampleId cmd (str "bob")) := by
    unfold request
    exact if_neg (by decide)
  refine Exec.cons isToken_sampleId ?_
  show Exec world (startAs (str "bob") cmd sampleId) _ _
  rw [startAs, hreq]
  simp only [MultiResponseCommand.write, if_pos hfit]
  exact Exec.cons trivial (Exec.nil _)

theorem exec_post {path : Str} (hfit : (message .command sampleId (translateRestToCli path) (str "bob")).length < 1024) :
    Exec world (OpMode.process (bobPosts (opReqRoot ++ str "/" ++ path))) (postRun (translateRestToCli path))
      (.ret (created (bobPosts (opReqRoot ++ str "/" ++ path)))) := by
  have hlen : (opReqRoot ++ str "/" ++ path).length = opReqRoot.length + 1 + path.length := by
    rw [List.length_append, List.length_append]
    rfl
  have hdrop : (opReqRoot ++ str "/" ++ path).drop (opReqRoot.length + 1) = path := List.drop_left' rfl
  have hnonempty : ¬ (opReqRoot ++ str "/" ++ path).isEmpty = true := by
    rw [List.isEmpty_iff, ← List.length_eq_zero_iff]
    omega
  have hprocess : OpMode.process (bobPosts (opReqRoot ++ str "/" ++ path)) =
      OpMode.post (bobPosts (opReqRoot ++ str "/" ++ path)) (opReqRoot ++ str "/" ++ path) := by
    unfold OpMode.process
    rw [if_neg (by simp [bobPosts])]
    have hlong : ¬ (opReqRoot ++ str "/" ++ path).length < opReqRoot.length := by omega
    exact (if_neg hnonempty).trans ((if_neg hlong).trans (if_pos rfl))
  rw [hprocess]
  unfold OpMode.post
  rw [if_neg (by omega), substrFrom_of_le (by omega), hdrop]
  exact Exec.cons trivial ((exec_start hfit).bind (Exec.nil _))

theorem location_created (s : Session) {id : Str}
    (h : (created s).response.get .respLocation = str "rest/op/" ++ id) : id = sampleId :=
  (List.append_cancel_left (show str "rest/op/" ++ sampleId = str "rest/op/" ++ id from h)).symm

/-- Bob's `show interfaces` is in the table. -/
theorem show_interfaces_is_registered :
    ∃ t', afterMessage (UInt64.ofNat chunkerReadSize) OrdMap.empty
        ⟨received (message .command sampleId (translateRestToCli (str "show/interfaces")) (str "bob")),
          [⟨.gettimeofday, (0 : UInt64)⟩, ⟨.startNew sampleId (str "show 'interfaces'") (str "bob"), ()⟩]⟩ = some t' ∧
      HoldsEntry t' sampleId (str "bob") := by
  have hfit : (message .command sampleId (translateRestToCli (str "show/interfaces")) (str "bob")).length < 1024 := by
    decide +kernel
  have hexec := exec_post hfit
  obtain ⟨id, m, hloc, hsent, hiff⟩ :=
    created_command_registered_iff rfl rfl (by decide) (by decide) hexec (code_error _ _)
  obtain rfl := location_created _ hloc
  cases hsent
  have hfields : fields (received (message .command sampleId (translateRestToCli (str "show/interfaces")) (str "bob"))) =
      some ⟨sampleId, str "show 'interfaces'", str "bob"⟩ := by decide +kernel
  have hbranch : branch (received (message .command sampleId (translateRestToCli (str "show/interfaces")) (str "bob"))) =
      some .command := by decide
  have hafter : ∃ t', afterMessage (UInt64.ofNat chunkerReadSize) OrdMap.empty
      ⟨received (message .command sampleId (translateRestToCli (str "show/interfaces")) (str "bob")),
        [⟨.gettimeofday, (0 : UInt64)⟩, ⟨.startNew sampleId (str "show 'interfaces'") (str "bob"), ()⟩]⟩ = some t' := by
    unfold afterMessage Chunker.process
    rw [hfields, hbranch]
    exact ⟨_, rfl⟩
  obtain ⟨t', ht'⟩ := hafter
  refine ⟨t', ht', (hiff _ _ _ _ ht').mpr (Or.inr ⟨rfl, by decide, Or.inl ⟨?_, ?_⟩, ?_, ?_⟩)⟩
  · rw [← find_eq_none_iff]; decide
  · rw [← find_eq_none_iff]; decide
  · rw [← find_eq_none_iff]; decide
  · decide

/-- The message of a single segment has no statement, and the manager drops it. -/
theorem a_single_segment_is_not_registered :
    Exec world (OpMode.process (bobPosts (opReqRoot ++ str "/" ++ str "reboot"))) (postRun [])
        (.ret (created (bobPosts (opReqRoot ++ str "/" ++ str "reboot")))) ∧
      (created (bobPosts (opReqRoot ++ str "/" ++ str "reboot"))).response.get .respCode = str "201" ∧
      (created (bobPosts (opReqRoot ++ str "/" ++ str "reboot"))).response.get .respLocation = str "rest/op/" ++ sampleId ∧
      ∃ m, sent (postRun []) = [m] ∧
        (∃ answers t', afterMessage (UInt64.ofNat chunkerReadSize) OrdMap.empty ⟨received m, answers⟩ = some t') ∧
        ∀ chunkSize answers t', afterMessage chunkSize OrdMap.empty ⟨received m, answers⟩ = some t' →
          ¬ HoldsEntry t' sampleId (str "bob") := by
  have hfields : fields (received (message .command sampleId [] (str "bob"))) = some ⟨sampleId, [], str "bob"⟩ := by
    decide
  have hbranch : branch (received (message .command sampleId [] (str "bob"))) = some .command := by decide
  have htranslate : translateRestToCli (str "reboot") = [] := by decide
  refine ⟨?_, code_error _ _, rfl, _, rfl, ⟨[⟨.gettimeofday, (0 : UInt64)⟩], OrdMap.empty, ?_⟩, ?_⟩
  · rw [← htranslate]
    exact exec_post (by decide)
  · unfold afterMessage Chunker.process
    rw [hfields, hbranch]
    rfl
  · intro chunkSize answers t' h hholds
    obtain ⟨now, rfl⟩ := afterMessage_command hfields hbranch h
    rcases (commandTable_holds_iff _ now ⟨sampleId, [], str "bob"⟩ (str "bob") (by decide)).mp hholds with
      ⟨pd, hpd, -⟩ | ⟨-, hs, -⟩
    · cases hpd
    · exact hs rfl

end VyattaRest.Server.Registration
