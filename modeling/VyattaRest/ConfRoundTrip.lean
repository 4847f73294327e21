/-
  VyattaRest.ConfRoundTrip — a batch of configuration commands on its way from the Perl client to
  configd and the shell.

  The client's `batch_conf_cmds` (lib/Vyatta/RestClient.pm) and the server's `dispatch` for each of
  its requests (process.cc, confmode.cc) are run as the programs they are. configd and what the
  shell starts are a `World`, with states of their own; a command line reaches it as the tokens
  that a shell reads in it.

  What the batch is for is `transaction`: the commands are run in a new session, each with its
  words as they are, what came of them is committed and saved, and the session is given up. It
  stops at the first step that fails, and at a commit that has something to say.
  - `batch_is_a_transaction`: the batch does to the world what the transaction does, returns undef
    exactly when the transaction comes to its end, and leaves a session behind exactly when not.
  - `note_iff`: a commit has something to say unless its text is empty or a blank.
-/

import VyattaRest.ClientBatch
import VyattaRest.Server.CommandLine
import VyattaRest.Server.ConfUrls
import VyattaRest.Server.Framing
import VyattaRest.Server.Messages
import VyattaRest.Server.ServiceIndex

namespace VyattaRest.ConfRoundTrip

open VyattaRest.Lib VyattaRest.Rest VyattaRest.Server VyattaRest.Server.ConfMode
open VyattaRest.Lib.Shell (Tok own lex)
open VyattaRest.Server.CommandLine (fixedToks redirect putText putShape isActivation)
open VyattaRest.Lib.Exports (exportText exportToks)
open VyattaRest.RestClient (Client Command EscapeSet Request Response Returned Wire base cmd2path getErrorMessage pathOf
  isUnreserved)

variable {σ : Type}

/-! ## What a batch is for -/

/-- configd, and what the shell starts. -/
structure World (σ : Type) where
  /-- The tokens of a line; the lines of its output and its exit status, if it can be started. -/
  shell : Option (List Tok) → σ → Option (List Str × Int) × σ
  token : σ → Str × σ
  setup : Str → σ → Bool × σ
  commit : Str → σ → Except Str Str × σ
  save : Str → σ → Except Str Str × σ
  discard : Str → σ → Bool × σ
  teardown : Str → σ → Bool × σ

/-- What does not change: the two ends of the connection with their libraries, and all that the
    server asks of others. -/
structure Site (σ : Type) extends RestClient.Library where
  target : Str
  user : Str
  configd : World σ
  world : (c : Server.Call) → c.Answer

/-- The program for a command. -/
def program (first : Str) : Option Str :=
  if CommandLine.isEdit first then some (str "/usr/bin/cfgcli -print")
  else if isActivation first then some (str "/opt/vyatta/sbin/vyatta-activate-config.pl")
  else none

/-- The exports of the session, the program with the words of the command, and its errors sent
    where its output goes. -/
def lineToks (sid program : Str) (words : List Str) : List Tok :=
  (exports sid).flatMap exportToks ++ fixedToks program ++ words.map (fun w => .word (own w)) ++ redirect

/-- Where a transaction stops. -/
inductive Stage where
  | set
  | commit
  | save
  deriving DecidableEq

def Stage.name : Stage → Str
  | .set => str "set"
  | .commit => str "commit"
  | .save => str "save"

namespace Site

variable (site : Site σ)

/-- What the client reads in a body that is sent as JSON. -/
def note (body : Str) : Option Str :=
  match site.decode (Framing.format site.json some false body) with
  | some (some message) => if message ≠ str " " then some message else none
  | _ => none

def Fits (body : Str) : Prop := body.length ≤ maxBodySize

instance (body : Str) : Decidable (Fits body) := inferInstanceAs (Decidable (_ ≤ _))

/-- One command, and whether it went well. A program that cannot be started counts as one that
    did. -/
def edit (sid : Str) (c : Command) (x : σ) : Bool × σ :=
  match program c.first with
  | none => (false, x)
  | some p =>
    let r := site.configd.shell (some (lineToks sid p c.words)) x
    ((r.1.map (·.2)).getD 0 = 0, r.2)

def close (sid : Str) (x : σ) : σ := (site.configd.teardown sid (site.configd.discard sid x).2).2

def saving (sid : Str) (x : σ) : Option Stage × σ :=
  match site.configd.save sid x with
  | (.ok text, x) => if Fits (replyBody (str "save") text) then (none, site.close sid x) else (some .save, x)
  | (.error _, x) => (some .save, x)

/-- A commit that has something to say is taken for one that failed. -/
def committing (sid : Str) (x : σ) : Option Stage × σ :=
  match site.configd.commit sid x with
  | (.ok text, x) =>
    if Fits (replyBody (str "commit") text) ∧ site.note (replyBody (str "commit") text) = none then site.saving sid x
    else (some .commit, x)
  | (.error _, x) => (some .commit, x)

def editing (sid : Str) : List Command → σ → Option Stage × σ
  | [], x => site.committing sid x
  | c :: cs, x =>
    match site.edit sid c x with
    | (true, x) => editing sid cs x
    | (false, x) => (some .set, x)

/-- A new session, whether or not configd can set it up, and the commands in it. -/
def transaction (cs : List Command) (x : σ) : Option Stage × σ :=
  let (id, x) := site.configd.token x
  let sid := Configuration.convConfId id
  site.editing sid cs (site.configd.setup sid x).2

end Site

/-! ## The system -/

structure State (σ : Type) where
  files : Str → Option Str
  /-- The session that configd has been told. -/
  sid : Str
  conf : σ

variable (site : Site σ)

/-- What `fgets` reads from the beginning of a file. -/
def firstLine (text : Str) : Str :=
  let text := text.take (chunkerReadSize - 1)
  match find (str "\n") text with
  | none => text
  | some pos => text.take (pos + 1)

def State.write (s : State σ) (file : Str) (text : Option Str) : State σ :=
  { s with files := fun f => if f = file then text else s.files f }

/-- An answer of the world. -/
def State.asked {α : Type} (s : State σ) (r : α × σ) : Option (α × State σ) := some (r.1, { s with conf := r.2 })

def serverCall (s : State σ) : (c : Server.Call) → Option (c.Answer × State σ)
  | .generateToken => s.asked (site.configd.token s.conf)
  | .configdSetSessionId sid => some ((), { s with sid })
  | .configdSessSetup => s.asked (site.configd.setup s.sid s.conf)
  | .configdCommit => s.asked (site.configd.commit s.sid s.conf)
  | .configdSave => s.asked (site.configd.save s.sid s.conf)
  | .configdDiscard => s.asked (site.configd.discard s.sid s.conf)
  | .configdSessTeardown => s.asked (site.configd.teardown s.sid s.conf)
  | .popen cmd => s.asked (site.configd.shell (lex (own cmd)) s.conf)
  | .fgets file => some ((s.files file).map fun text => if text = [] then none else some (firstLine text), s)
  | .fopenWrite file => some (true, s.write file (some []))
  | .fputs file text => some (true, s.write file (some ((s.files file).getD [] ++ text)))
  | .unlink file => some ((s.files file).isSome, s.write file none)
  | c => some (site.world c, s)

/-- A request of the user, who has been authenticated and may configure. -/
def session (method path : Str) : Session :=
  { Session.new with
    request := (Http.empty.set .reqUri path).set .reqMethod method
    user := site.user
    accessLevel := .vyattaCfg
    authType := .basic }

/-- A request and its response. -/
def serve (s : State σ) (rq : Request) : Option (Response × State σ) :=
  ((dispatch 0 (session site rq.method (pathOf site.target rq.url))).interp (serverCall site) s).map fun r =>
    (site.response r.1.response, r.2)

/-- The user's name is plain and short, configd is there, and the ids are tokens. -/
structure Sound : Prop where
  user : (47 : UInt8) ∉ site.user ∧ (0 : UInt8) ∉ site.user ∧ (10 : UInt8) ∉ site.user
  user_short : site.user.length < 900
  configd : site.world .configdOpen = true
  token : ∀ x, Chunker.isHexToken (site.configd.token x).1 = true

/-- A command whose words are in order. An activation ends at the first semicolon, wherever it is. -/
structure Plain (c : Command) : Prop extends c.WellFormed where
  uncut : isActivation c.first = true → ∀ v ∈ c.middle ++ [c.last.value], (59 : UInt8) ∉ v

/-! ## The line of a command -/

theorem prefix_before {a r u : Str} (hu : (32 : UInt8) ∉ u) (hr : r = [] ∨ r.head? = some 32) : u <+: a ++ r ↔ u <+: a := by
  refine ⟨fun h => ?_, fun h => h.trans (List.prefix_append _ _)⟩
  rcases hr with rfl | hr
  · rwa [List.append_nil] at h
  obtain ⟨r, rfl⟩ : ∃ t, r = 32 :: t := by
    cases r with
    | nil => cases hr
    | cons b r =>
      cases hr
      exact ⟨r, rfl⟩
  rcases Nat.lt_or_ge a.length u.length with hlt | hle
  · have hall : a ++ [32] <+: u := by
      have hlonger : a ++ [32] <+: a ++ 32 :: r := ⟨r, by simp⟩
      refine List.prefix_of_prefix_length_le hlonger h ?_
      rw [List.length_append]
      exact hlt
    exact absurd (hall.subset (by simp)) hu
  · exact List.prefix_of_prefix_length_le h (List.prefix_append _ _) hle

theorem isEdit_append {a r : Str} (hr : r = [] ∨ r.head? = some 32) : CommandLine.isEdit (a ++ r) = CommandLine.isEdit a := by
  rw [Bool.eq_iff_iff]
  simp only [CommandLine.isEdit, Bool.or_eq_true, List.isPrefixOf_iff_prefix]
  rw [prefix_before (by decide) hr, prefix_before (by decide) hr, prefix_before (by decide) hr]

theorem isActivation_append {a r : Str} (hr : r = [] ∨ r.head? = some 32) : isActivation (a ++ r) = isActivation a := by
  rw [Bool.eq_iff_iff]
  simp only [isActivation, Bool.or_eq_true, List.isPrefixOf_iff_prefix]
  rw [prefix_before (by decide) hr, prefix_before (by decide) hr]

theorem isPlain_unreserved {b : UInt8} (h : isUnreserved b = true) : Shell.isPlain b = true := by
  have hall : ∀ n < 256, isUnreserved n.toUInt8 = true → Shell.isPlain n.toUInt8 = true := by decide +kernel
  have hb : b.toNat.toUInt8 = b := by simp
  rw [← hb] at h ⊢
  exact hall _ b.toNat_lt h

section Line

variable {c : Command}

/-- The values of a command as they stand in the line. -/
def values (c : Command) : Str := ((c.middle ++ [c.last.value]).map Chunker.quoted).flatten

theorem values_head (c : Command) : (values c).head? = some 32 := by
  unfold values
  cases c.middle <;> rfl

theorem Plain.values_quotes (h : Plain c) : ∀ v ∈ c.middle ++ [c.last.value], (39 : UInt8) ∉ v ∧ (0 : UInt8) ∉ v := by
  intro v hv
  rcases List.mem_append.mp hv with hv | hv
  · have hword := h.middle_words v hv
    exact ⟨hword.2.2.1, hword.2.2.2.2⟩
  · obtain ⟨-, h39, -, h0⟩ := h.last_wellFormed.quotes
    rw [List.mem_singleton] at hv
    exact hv ▸ ⟨h39, h0⟩

theorem mem_values {b : UInt8} (h : b ∈ values c) : b = 32 ∨ b = 39 ∨ ∃ v ∈ c.middle ++ [c.last.value], b ∈ v := by
  obtain ⟨l, hl, hb⟩ := List.mem_flatten.mp h
  obtain ⟨v, hv, rfl⟩ := List.mem_map.mp hl
  have hopen : ∀ x ∈ str " '", x = 32 ∨ x = 39 := by decide
  have hclose : ∀ x ∈ str "'", x = 39 := by decide
  simp only [Chunker.quoted, List.mem_append] at hb
  rcases hb with (hb | hb) | hb
  · exact (hopen b hb).imp id Or.inl
  · exact Or.inr (Or.inr ⟨v, hv, hb⟩)
  · exact Or.inr (Or.inl (hclose b hb))

theorem Plain.first_bytes (h : Plain c) : ∀ b ∈ c.first, Shell.isPlain b = true ∧ b ≠ 0 ∧ b ≠ 59 := by
  intro b hb
  have hun := h.first_unreserved b hb
  refine ⟨isPlain_unreserved hun, ?_, ?_⟩
  · rintro rfl
    exact absurd hun (by decide)
  · rintro rfl
    exact absurd hun (by decide)

/-- A command is put behind its program, whole. -/
theorem Plain.putCommand {safe : UInt8 → Bool} (hsafe : EscapeSet safe) (h : Plain c) :
    putCommand (cmd2path safe c.text) = (program c.first).map fun p => p ++ str " " ++ (c.first ++ values c) := by
  have htext : putText (cmd2path safe c.text) = c.first ++ values c :=
    (translateRestToCli_eq _).symm.trans (RestClient.cmd2path_line hsafe h.toWellFormed)
  have hedit : CommandLine.isEdit (c.first ++ values c) = CommandLine.isEdit c.first := isEdit_append (Or.inr (values_head c))
  rw [CommandLine.putCommand_eq, putShape, htext]
  simp only
  rw [hedit, program]
  by_cases he : CommandLine.isEdit c.first = true
  · rw [if_pos he, if_pos he]
    rfl
  rw [if_neg he, if_neg he]
  have hcut : (c.first ++ values c).takeWhile (· ≠ 59) = c.first ++ (values c).takeWhile (· ≠ 59) :=
    List.takeWhile_append_of_pos fun b hb => decide_eq_true (h.first_bytes b hb).2.2
  have hhead : ((values c).takeWhile (· ≠ 59)).head? = some 32 := by
    have hvalues := values_head c
    cases hv : values c with
    | nil =>
      rw [hv] at hvalues
      cases hvalues
    | cons b r =>
      rw [hv] at hvalues
      cases hvalues
      rfl
  rw [hcut, isActivation_append (Or.inr hhead)]
  by_cases ha : isActivation c.first = true
  · have hall : (values c).takeWhile (· ≠ 59) = values c := by
      refine List.takeWhile_eq_self_iff.mpr fun b hb => decide_eq_true ?_
      rintro rfl
      rcases mem_values hb with hb | hb | ⟨v, hv, hb⟩
      · cases hb
      · cases hb
      · exact h.uncut ha v hv hb
    rw [if_pos ha, if_pos ha, hall]
    rfl
  · rw [if_neg ha, if_neg ha]
    rfl

theorem program_lexed {first p : Str} (hp : program first = some p) :
    Shell.Lexer.run ⟨.blank, [], []⟩ (own (p ++ str " ")) = ⟨.blank, [], fixedToks p⟩ ∧ (0 : UInt8) ∉ p := by
  unfold program at hp
  split at hp
  · cases hp
    exact ⟨by decide, by decide⟩
  · split at hp
    · cases hp
      exact ⟨by decide, by decide⟩
    · cases hp

/-- The shell reads the words that the client has been given. -/
theorem Plain.lex_line (h : Plain c) {p : Str} (hp : program c.first = some p) (id : Str) :
    lex (own (cstr (commandLine id (p ++ str " " ++ (c.first ++ values c))))) =
      some (lineToks (Configuration.convConfId id) p c.words) := by
  obtain ⟨hprogram, hp0⟩ := program_lexed hp
  have hnul : (0 : UInt8) ∉ commandLine id (p ++ str " " ++ (c.first ++ values c)) := by
    have hvalues : (0 : UInt8) ∉ values c := by
      intro hb
      rcases mem_values hb with hb | hb | ⟨v, hv, hb⟩
      · cases hb
      · cases hb
      · exact (h.values_quotes v hv).2 hb
    have hfirst : (0 : UInt8) ∉ c.first := fun hb => (h.first_bytes 0 hb).2.1 rfl
    have hfixed : (0 : UInt8) ∉ str ";" ∧ (0 : UInt8) ∉ str " " ∧ (0 : UInt8) ∉ str " 2>&1" := by decide
    have henv := zero_notMem_environment id
    simp only [commandLine, List.mem_append, not_or]
    tauto
  have hsplit : own (commandLine id (p ++ str " " ++ (c.first ++ values c))) =
      own ((exports (Configuration.convConfId id)).flatMap exportText) ++ (own (p ++ str " ") ++ (own c.first ++
        own (((c.middle ++ [c.last.value]).map fun v => str " '" ++ v ++ str "'").flatten ++ str " 2>&1"))) := by
    rw [commandLine, CommandLine.environment_eq, values, show Chunker.quoted = fun v => str " '" ++ v ++ str "'" from rfl]
    simp [own]
  have hpost : ∀ cur, (Shell.Lexer.run ⟨.word, cur, []⟩ (own (str " 2>&1"))).finish =
      some ([.word cur] ++ redirect) := fun _ => rfl
  have hbehind : ∀ out, Shell.Lexer.run ⟨.blank, [], out⟩ (own (p ++ str " ")) = ⟨.blank, [], out ++ fixedToks p⟩ := by
    intro out
    rw [Shell.Lexer.run_out, hprogram]
  rw [cstr_of_notMem hnul, hsplit, lex, Shell.Lexer.run_append, Shell.Lexer.run_append, Shell.Lexer.run_append, Shell.start,
    Exports.run_exports _ (CommandLine.exports_verbatim id), hbehind, Shell.Lexer.run_word h.first_ne_nil
      fun b hb => (h.first_bytes b hb).1,
    Shell.Lexer.finish_quoted hpost _ _ _ fun v hv => (h.values_quotes v hv).1]
  simp [lineToks, RestClient.Command.words]

end Line

/-! ## Responses -/

theorem isError_of_code {h : Http} (code : Str) (hcode : h.params .respCode = some code)
    (herr : 400 ≤ strtoul 10 code ∧ strtoul 10 code < 600) : (site.response h).isError = true := by
  unfold RestClient.Response.isError RestClient.Library.response Framing.shown
  simp only
  split
  · decide
  · rw [hcode]
    simpa using herr

theorem oversized_iff {h : Http} {body : Str} (hbody : h.params .body = some body) : Framing.Oversized h ↔ ¬ Site.Fits body := by
  unfold Framing.Oversized Site.Fits
  simp [hbody]

/-- Without a status a body that is too long makes one. -/
theorem isError_of_body {h : Http} (hcode : h.params .respCode = none) {body : Str} (hbody : h.params .body = some body) :
    (site.response h).isError = false ↔ Site.Fits body := by
  unfold RestClient.Response.isError RestClient.Library.response Framing.shown
  simp only [hcode]
  by_cases hfits : Site.Fits body
  · rw [if_neg fun h => (oversized_iff hbody).mp h hfits]
    simp [hfits]
  · rw [if_pos ((oversized_iff hbody).mpr hfits)]
    exact iff_of_false (by decide) hfits

theorem isError_of_bare {h : Http} (code : Option Str) (hbody : h.params .body = none) (hcode : h.params .respCode = code)
    (hok : (code.map (strtoul 10)).getD 200 < 400) : (site.response h).isError = false := by
  have hsmall : ¬ Framing.Oversized h := by
    rintro ⟨v, hv, -⟩
    rw [hbody] at hv
    cases hv
  unfold RestClient.Response.isError RestClient.Library.response Framing.shown
  simp only [if_neg hsmall, hcode, Bool.and_eq_false_iff, decide_eq_false_iff_not]
  omega

/-- What the client reads in a body of JSON. -/
theorem getErrorMessage_of_body {h : Http} (htype : h.params .respContentType = some (str "application/json"))
    (hverbatim : h.verbatimBody = false) {body : Str} (hbody : h.params .body = some body) (hfits : Site.Fits body) :
    getErrorMessage (site.response h) = site.note body := by
  have hsmall : ¬ Framing.Oversized h := fun hover => (oversized_iff hbody).mp hover hfits
  have hout : Framing.outBody site.json some h = Framing.format site.json some false body := by
    rw [Framing.outBody, if_neg hsmall, hbody, hverbatim]
    rfl
  have hdecoded : (site.response h).decoded = site.decode (Framing.format site.json some false body) := by
    rw [← hout]
    rfl
  have hcontent : (site.response h).contentType = some (str "application/json") := htype
  rw [getErrorMessage, if_neg (not_not.mpr hcontent), hdecoded]
  rfl

/-! ## One request -/

def ownerFile (id : Str) : Str := vyattaModifyFile ++ id

def ownerText : Str := site.user ++ str "/"

/-- A session of the user without a description. -/
structure Owned (s : State σ) (id : Str) : Prop where
  token : Chunker.isHexToken id = true
  file : s.files (ownerFile id) = some (ownerText site)

theorem token_plain {id : Str} (h : Chunker.isHexToken id = true) : id.length = 16 ∧ (47 : UInt8) ∉ id := by
  rw [Chunker.isHexToken, Bool.and_eq_true, beq_iff_eq, List.all_eq_true] at h
  exact ⟨h.1, fun hm => absurd (h.2 _ hm) (by decide)⟩

theorem dispatch_conf (method x : Str) : dispatch 0 (session site method (confReqRoot ++ x)) =
    ConfMode.process (session site method (confReqRoot ++ x)) := by
  have hget : (session site method (confReqRoot ++ x)).request.get .reqUri = confReqRoot ++ x := rfl
  have hconf : confReqRoot = [47, 114, 101, 115, 116, 47, 99, 111, 110, 102] := by decide
  have happ : appReqRoot = [47, 114, 101, 115, 116, 47, 97, 112, 112] := by decide
  have hop : opReqRoot = [47, 114, 101, 115, 116, 47, 111, 112] := by decide
  have hroute : route (session site method (confReqRoot ++ x)) = some .conf := by
    rw [route, hget]
    rw [if_neg (by simp [hconf]), if_neg (fun h => nomatch h), if_neg (by rw [hconf, happ]; simp),
      if_neg (by rw [hconf, hop]; simp), if_pos (List.isPrefixOf_iff_prefix.mpr (List.prefix_append _ _))]
  rw [dispatch, hroute]
  rfl

variable {site} (hsite : Sound site) {s : State σ} {id : Str}
include hsite

theorem Sound.firstLine : firstLine (ownerText site) = ownerText site := by
  have hshort := hsite.user_short
  have hread : chunkerReadSize = 98304 := rfl
  have htake : (ownerText site).take (chunkerReadSize - 1) = ownerText site := by
    refine List.take_of_length_le ?_
    rw [ownerText, List.length_append, show (str "/").length = 1 from rfl]
    omega
  have hno : find (str "\n") (ownerText site) = none := by
    refine find_none_of_notMem (c := 10) ⟨[], rfl, by simp⟩ ?_
    rw [ownerText, List.mem_append, not_or]
    exact ⟨hsite.user.2.2, by decide⟩
  rw [ConfRoundTrip.firstLine]
  simp only [htake, hno]

theorem Sound.ownerText_nul : (0 : UInt8) ∉ ownerText site := by
  rw [ownerText, List.mem_append, not_or]
  exact ⟨hsite.user.2.1, by decide⟩

theorem Sound.live : ConfMode.Live (ownerText site) site.user [] := by
  have hnul := hsite.ownerText_nul
  refine ⟨site.user.length, ?_, ?_, ?_⟩
  · rw [cstr_of_notMem hnul]
    exact find_slash hsite.user.1 []
  · rw [cstr_of_notMem hnul, ownerText, List.take_left]
  · rw [cstr_of_notMem hnul, ownerText, ← List.drop_drop, List.drop_left]
    rfl

/-- A request that names the session goes on with it. -/
theorem Owned.goes (h : Owned site s id) {method rest : Str} (hmethod : method ≠ [])
    (hrest : (∃ rel, rest = id ++ 47 :: rel) ∨ rest = id) :
    (dispatch 0 (session site method (confReqRoot ++ 47 :: rest))).interp (serverCall site) s =
      (handle (session site method (confReqRoot ++ 47 :: rest)) (confReqRoot ++ 47 :: rest) method
        ⟨47 :: rest, id, [], site.user⟩).interp
        (serverCall site) s := by
  obtain ⟨hlen, hslash⟩ := token_plain h.token
  have hrest' : (∃ rel, rest = id ++ 47 :: rel) ∨ rest = id ∧ id.length ≤ npos :=
    hrest.imp_right fun heq => ⟨heq, by rw [hlen]; decide⟩
  have hauth : (session site method (confReqRoot ++ 47 :: rest)).authType ≠ .none := fun h => nomatch h
  have huri : (session site method (confReqRoot ++ 47 :: rest)).uri = confReqRoot ++ 47 :: rest := rfl
  have hmethod' : (session site method (confReqRoot ++ 47 :: rest)).method = method := rfl
  obtain ⟨k, hk, hgo⟩ := process_live hauth rfl (hmethod' ▸ hmethod) huri hslash hrest' hsite.live
  rw [huri, hmethod'] at hgo
  have hread : serverCall site s (.fgets (vyattaModifyFile ++ id)) = some (some (some (ownerText site)), s) := by
    have hne : ownerText site ≠ [] := by simp [ownerText, show str "/" ≠ [] by decide]
    have hfile : s.files (vyattaModifyFile ++ id) = some (ownerText site) := h.file
    simp only [serverCall, hfile, Option.map_some, if_neg hne, hsite.firstLine]
  rw [dispatch_conf, hk, Prog.interp, hread]
  simp only [hgo]
  rfl

theorem Sound.opens (s : State σ) : serverCall site s .configdOpen = some (true, s) := by
  rw [← hsite.configd]
  rfl

theorem Sound.setupSession (s : State σ) (sid : Str) : (setupSession sid).interp (serverCall site) s =
    some ((site.configd.setup sid s.conf).1, { s with sid, conf := (site.configd.setup sid s.conf).2 }) := by
  rw [ConfMode.setupSession]
  exact Prog.interp_perform (hsite.opens s) _

theorem Sound.createFile (s : State σ) (id : Str) : (createConfModifyFile id site.user []).interp (serverCall site) s =
    some (true, s.write (ownerFile id) (some (ownerText site))) := by
  have hopen : serverCall site s (.fopenWrite (vyattaModifyFile ++ id)) = some (true, s.write (ownerFile id) (some [])) := rfl
  have htext : cstr (site.user ++ str "/" ++ []) = ownerText site := by
    rw [List.append_nil, ← ownerText, cstr_of_notMem hsite.ownerText_nul]
  rw [createConfModifyFile]
  refine (Prog.interp_perform hopen _).trans ?_
  rw [htext]
  have hempty : (s.write (ownerFile id) (some [])).files (vyattaModifyFile ++ id) = some [] := if_pos rfl
  have hwrite : serverCall site (s.write (ownerFile id) (some [])) (.fputs (vyattaModifyFile ++ id) (ownerText site)) =
      some (true, s.write (ownerFile id) (some (ownerText site))) := by
    simp only [serverCall, hempty, Option.getD_some, List.nil_append]
    refine congrArg (fun f => some (true, { s with files := f })) (funext fun f => ?_)
    by_cases hf : f = ownerFile id
    · exact (if_pos hf).trans (if_pos hf).symm
    · exact (if_neg hf).trans ((if_neg hf).trans (if_neg hf).symm)
  exact Prog.interp_perform hwrite pure

/-- The state after a session has been made. -/
def State.made (site : Site σ) (s : State σ) : State σ :=
  let r := site.configd.token s.conf
  let sid := Configuration.convConfId r.1
  ({ s with sid, conf := (site.configd.setup sid r.2).2 } : State σ).write (ownerFile r.1) (some (ownerText site))

/-- The request that makes a session. -/
theorem Sound.create (s : State σ) : (dispatch 0 (session site (str "POST") confReqRoot)).interp (serverCall site) s =
    some
      (((session site (str "POST") confReqRoot).setResponse .respLocation
        (str "rest/conf/" ++ (site.configd.token s.conf).1)).error
      .created, s.made site) := by
  have hprocess : dispatch 0 (session site (str "POST") confReqRoot) =
      ConfMode.process (session site (str "POST") confReqRoot) := by
    have hdispatch := dispatch_conf site (str "POST") []
    rwa [List.append_nil] at hdispatch
  have hcreate : ConfMode.process (session site (str "POST") confReqRoot) =
      ConfMode.create (session site (str "POST") confReqRoot) ⟨[], [], [], site.user⟩ := rfl
  have htoken : serverCall site s .generateToken =
      some ((site.configd.token s.conf).1, { s with conf := (site.configd.token s.conf).2 }) := rfl
  have hlen : ¬ (site.configd.token s.conf).1.length < 16 := by
    rw [(token_plain (hsite.token s.conf)).1]
    decide
  rw [hprocess, hcreate, ConfMode.create]
  refine (Prog.interp_perform htoken _).trans ?_
  have huser : (session site (str "POST") confReqRoot).user = site.user := rfl
  rw [if_neg hlen, Prog.interp_bind, hsite.setupSession, Option.bind_some, Prog.interp_bind, huser, hsite.createFile]
  rfl

/-- The state after a session has been given up. -/
def State.closed (site : Site σ) (s : State σ) (id : Str) : State σ :=
  ({ s with sid := Configuration.convConfId id, conf := site.close (Configuration.convConfId id) s.conf } : State σ).write
    (ownerFile id) none

theorem Sound.discard (s : State σ) {id : Str} (hid : id ≠ []) : (discardSession id true).interp (serverCall site) s =
    some ((), s.closed site id) := by
  rw [discardSession, if_neg (by simpa using hid)]
  exact Prog.interp_perform (hsite.opens s) _

theorem Sound.commit (ss : Session) (s : State σ) (sid : Str) : (commitOrSave ss sid (str "commit")).interp (serverCall site) s =
    some (replied ss (str "commit") (site.configd.commit sid s.conf).1,
      { s with sid, conf := (site.configd.commit sid s.conf).2 }) := by
  rw [commitOrSave_eq, commitReply, if_pos rfl]
  exact Prog.interp_perform (hsite.opens s) _

theorem Sound.save (ss : Session) (s : State σ) (sid : Str) : (commitOrSave ss sid (str "save")).interp (serverCall site) s =
    some (replied ss (str "save") (site.configd.save sid s.conf).1,
      { s with sid, conf := (site.configd.save sid s.conf).2 }) := by
  rw [commitOrSave_eq, commitReply, if_neg (by decide)]
  exact Prog.interp_perform (hsite.opens s) _

omit hsite

theorem execute_interp (site : Site σ) (s : State σ) (cmd : Str) : ∃ text, (execute cmd []).interp (serverCall site) s =
    some ((((site.configd.shell (lex (own (cstr cmd))) s.conf).1.map (·.2)).getD 0, text),
      { s with conf := (site.configd.shell (lex (own (cstr cmd))) s.conf).2 }) := by
  have hrun : serverCall site s (.popen (cstr cmd)) = some ((site.configd.shell (lex (own (cstr cmd))) s.conf).1,
      { s with conf := (site.configd.shell (lex (own (cstr cmd))) s.conf).2 }) := rfl
  rw [execute]
  rcases hout : (site.configd.shell (lex (own (cstr cmd))) s.conf).1 with _ | ⟨lines, status⟩
  · rw [hout] at hrun
    exact ⟨_, Prog.interp_perform hrun _⟩
  · rw [hout] at hrun
    exact ⟨_, Prog.interp_perform hrun _⟩

/-! ## The requests of a batch -/

def locationOf (id : Str) : Str := str "rest/conf/" ++ id

theorem serve_session (site : Site σ) (s : State σ) (id method x : Str) :
    serve site s ⟨method, base site.target ++ locationOf id ++ x⟩ =
      ((dispatch 0 (session site method (confReqRoot ++ 47 :: (id ++ x)))).interp (serverCall site) s).map fun r =>
        (site.response r.1.response, r.2) := by
  have hpath : pathOf site.target (base site.target ++ locationOf id ++ x) = confReqRoot ++ 47 :: (id ++ x) := by
    rw [List.append_assoc, RestClient.pathOf_base, locationOf, List.append_assoc]
    rfl
  rw [serve]
  simp only [hpath]

/-- How the client is told of a commit or a save. -/
def Told (site : Site σ) (act : Str) (reply : Except Str Str) (r : Response) : Prop :=
  match reply with
  | .ok text => (r.isError = false ↔ Site.Fits (replyBody act text)) ∧
      (Site.Fits (replyBody act text) → getErrorMessage r = site.note (replyBody act text))
  | .error _ => r.isError = true

theorem told_replied (site : Site σ) (method path act : Str) (reply : Except Str Str) :
    Told site act reply (site.response (replied (session site method path) act reply).response) := by
  cases reply with
  | ok text => exact ⟨isError_of_body site rfl rfl, getErrorMessage_of_body site rfl rfl rfl⟩
  | error text => exact isError_of_code site (str "400") rfl (by decide)

include hsite

/-- A command of the batch. -/
theorem Owned.put (h : Owned site s id) {safe : UInt8 → Bool} (hsafe : EscapeSet safe) {c : Command} (hc : Plain c) : ∃ r,
    serve site s ⟨str "PUT", base site.target ++ locationOf id ++ str "/" ++ cmd2path safe c.text⟩ =
      some (r, { s with conf := (site.edit (Configuration.convConfId id) c s.conf).2 }) ∧
    r.isError = !(site.edit (Configuration.convConfId id) c s.conf).1 := by
  have hslash := (token_plain h.token).2
  have hput : (dispatch 0 (session site (str "PUT") (confReqRoot ++ 47 :: (id ++ 47 :: cmd2path safe c.text)))).interp
      (serverCall site) s = (editAt (session site (str "PUT") (confReqRoot ++ 47 :: (id ++ 47 :: cmd2path safe c.text))) id
        (cmd2path safe c.text)).interp (serverCall site) s := by
    rw [h.goes hsite (by decide) (Or.inl ⟨_, rfl⟩), handle, if_neg (by decide), if_pos rfl, put_at hslash rfl rfl]
  rw [List.append_assoc, serve_session, show str "/" ++ cmd2path safe c.text = 47 :: cmd2path safe c.text from rfl, hput, editAt,
    hc.putCommand hsafe, Site.edit]
  cases hp : program c.first with
  | none => exact ⟨_, rfl, isError_of_code site (str "404") rfl (by decide)⟩
  | some p =>
    obtain ⟨text, hrun⟩ := execute_interp site s (commandLine id (p ++ str " " ++ (c.first ++ values c)))
    rw [hc.lex_line hp] at hrun
    simp only [Option.map_some]
    rw [Prog.interp_bind, hrun]
    simp only [Option.bind_some, Prog.interp_pure, Option.map_some]
    refine ⟨_, rfl, ?_⟩
    rw [putReply]
    simp only
    by_cases hstatus :
      ((site.configd.shell (some (lineToks (Configuration.convConfId id) p c.words)) s.conf).1.map (·.2)).getD 0 = 0
    · rw [if_neg (not_not.mpr hstatus), decide_eq_true hstatus]
      exact isError_of_bare site none rfl rfl (by decide)
    · rw [if_pos hstatus, decide_eq_false hstatus]
      exact isError_of_code site (str "400") rfl (by decide)

/-- Commit and save. -/
theorem Owned.action (h : Owned site s id) {act : Str} (hact : act = str "commit" ∨ act = str "save") :
    (dispatch 0 (session site (str "POST") (confReqRoot ++ 47 :: (id ++ 47 :: act)))).interp (serverCall site) s =
      (commitOrSave (session site (str "POST") (confReqRoot ++ 47 :: (id ++ 47 :: act))) (Configuration.convConfId id) act).interp
        (serverCall site) s := by
  obtain ⟨hlen, hslash⟩ := token_plain h.token
  have hne : ¬ ([] : Str) = id := by
    rintro rfl
    exact absurd hlen (by decide)
  rw [h.goes hsite (by decide) (Or.inl ⟨_, rfl⟩), handle, if_neg (by decide), if_neg (by decide), if_neg (by decide), if_pos rfl,
    post_at hslash rfl rfl, actionAt]
  rw [if_neg hne, Prog.ret_bind]
  show (runAction (session site (str "POST") (confReqRoot ++ 47 :: (id ++ 47 :: act))) id act).interp (serverCall site) s = _
  rw [runAction, if_pos hact]

theorem Owned.commit (h : Owned site s id) : ∃ r, serve site s ⟨str "POST", base site.target ++ locationOf id ++ str "/commit"⟩ =
      some (r, { s with sid := Configuration.convConfId id
                        conf := (site.configd.commit (Configuration.convConfId id) s.conf).2 }) ∧
    Told site (str "commit") (site.configd.commit (Configuration.convConfId id) s.conf).1 r := by
  rw [serve_session, show str "/commit" = 47 :: str "commit" from rfl, h.action hsite (Or.inl rfl), hsite.commit]
  exact ⟨_, rfl, told_replied site _ _ _ _⟩

theorem Owned.save (h : Owned site s id) : ∃ r, serve site s ⟨str "POST", base site.target ++ locationOf id ++ str "/save"⟩ =
      some (r, { s with sid := Configuration.convConfId id
                        conf := (site.configd.save (Configuration.convConfId id) s.conf).2 }) ∧
    Told site (str "save") (site.configd.save (Configuration.convConfId id) s.conf).1 r := by
  rw [serve_session, show str "/save" = 47 :: str "save" from rfl, h.action hsite (Or.inr rfl), hsite.save]
  exact ⟨_, rfl, told_replied site _ _ _ _⟩

theorem Owned.delete (h : Owned site s id) : ∃ r, serve site s ⟨str "DELETE", base site.target ++ locationOf id⟩ =
      some (r, s.closed site id) ∧ r.isError = false := by
  have hne : id ≠ [] := by
    rintro rfl
    exact absurd (token_plain h.token).1 (by decide)
  have hdelete : ConfMode.delete (session site (str "DELETE") (confReqRoot ++ 47 :: id)) ⟨47 :: id, id, [], site.user⟩ =
      (discardSession id true >>= fun _ => pure ((session site (str "DELETE") (confReqRoot ++ 47 :: id)).setResponse .body
        (Json.empty.addValue (str "message") (str " ")).serialize)) := if_neg (not_not.mpr rfl)
  rw [← List.append_nil (base site.target ++ locationOf id), serve_session, List.append_nil,
    h.goes hsite (by decide) (Or.inr rfl), handle, if_neg (by decide), if_neg (by decide), if_pos rfl, hdelete,
    Prog.interp_bind, hsite.discard s hne]
  exact ⟨_, rfl, (isError_of_body site rfl rfl).mpr (by decide)⟩

theorem Sound.post (s : State σ) : ∃ r, serve site s ⟨str "POST", base site.target ++ str "rest/conf"⟩ = some (r, s.made site) ∧
    r.isError = false ∧ r.location = some (locationOf (site.configd.token s.conf).1) := by
  have hpath : pathOf site.target (base site.target ++ str "rest/conf") = confReqRoot := by
    rw [RestClient.pathOf_base]
    rfl
  rw [serve]
  simp only [hpath]
  rw [hsite.create]
  exact ⟨_, rfl, isError_of_bare site (some (str "201")) rfl rfl (by decide), rfl⟩

theorem Sound.owned (s : State σ) : Owned site (s.made site) (site.configd.token s.conf).1 :=
  ⟨hsite.token s.conf, if_pos rfl⟩

omit hsite

theorem Owned.told (h : Owned site s id) (sid : Str) (x : σ) : Owned site { s with sid, conf := x } id := ⟨h.token, h.file⟩

/-! ## The batch -/

/-- What the batch returns, by where the transaction has stopped. -/
def Reports : Option Stage → Option Str → Prop
  | none, e => e = none
  | some st, e => ∃ err, e = some (st.name ++ str " error: " ++ err)

/-- What is left of the batch does what is left of the transaction. At its end the session has been
    given up; before it, client and server still have it. -/
def Ends (site : Site σ) (id : Str) (p : Wire (Client × Option Str)) (s : State σ) (r : Option Stage × σ) : Prop :=
  ∃ c e s', p.interp (serve site) s = some ((c, e), s') ∧ s'.conf = r.2 ∧ Reports r.1 e ∧
    s'.files = (if r.1 = none then (s.write (ownerFile id) none).files else s.files) ∧
    c.confLoc = if r.1 = none then none else some (locationOf id)

/-- The client has the session. -/
structure Holds (site : Site σ) (id : Str) (c : Client) : Prop where
  target : c.target = site.target
  confLoc : c.confLoc = some (locationOf id)

theorem scalar_failure (what url : Str) (r : Response) :
    ∃ err, RestClient.Batch.scalar (RestClient.failure what url r) = some err :=
  Option.ne_none_iff_exists'.mp (RestClient.Batch.scalar_failure what url r)

/-- A method that fails ends the batch. -/
theorem ends_failed (what : Stage) {m : Wire (Client × Returned)} {next : Client → Wire (Client × Option Str)}
    {c : Client} {s' : State σ}
    {ret : Returned} {err : Str} {x : σ} (hm : m.interp (serve site) s = some ((c, ret), s'))
    (hret : RestClient.Batch.scalar ret = some err)
    (hc : c.confLoc = some (locationOf id)) (hconf : s'.conf = x) (hfiles : s'.files = s.files) :
    Ends site id (m >>= RestClient.Batch.check what.name next) s (some what, x) := by
  refine ⟨c, some (what.name ++ str " error: " ++ err), s', ?_, hconf, ⟨err, rfl⟩, hfiles, hc⟩
  rw [Prog.interp_bind, hm]
  simp only [Option.bind_some, RestClient.Batch.check, hret]
  rfl

/-- A method that succeeds is followed by the rest. -/
theorem ends_passed {what : Str} {m : Wire (Client × Returned)} {next : Client → Wire (Client × Option Str)}
    {c : Client} {s' : State σ} {ret : Returned} {r : Option Stage × σ} (hm : m.interp (serve site) s = some ((c, ret), s'))
    (hret : RestClient.Batch.scalar ret = none) (hfiles : s'.files = s.files) (hnext : Ends site id (next c) s' r) :
    Ends site id (m >>= RestClient.Batch.check what next) s r := by
  obtain ⟨c', e, s'', hrun, hconf, hreports, hfiles', hloc⟩ := hnext
  refine ⟨c', e, s'', ?_, hconf, hreports, ?_, hloc⟩
  · rw [Prog.interp_bind, hm]
    simp only [Option.bind_some, RestClient.Batch.check, hret]
    exact hrun
  · rw [hfiles']
    simp only [State.write, hfiles]

include hsite

theorem Owned.exits (h : Owned site s id) {c : Client} (hc : Holds site id c) (hcount : c.uncommitted = some 0) :
    Ends site id (RestClient.Batch.exitBatch c) s (none, site.close (Configuration.convConfId id) s.conf) := by
  obtain ⟨target, confLoc, uncommitted⟩ := c
  obtain ⟨rfl, rfl⟩ := hc
  cases hcount
  obtain ⟨r, hserve, hok⟩ := h.delete hsite
  have hrun : (RestClient.configureExit ⟨site.target, some (locationOf id), some 0⟩).interp (serve site) s =
      some ((⟨site.target, none, none⟩, []), s.closed site id) := by
    unfold RestClient.configureExit
    simp only [Option.getD_some, Nat.lt_irrefl, if_false]
    refine (Prog.interp_perform hserve _).trans ?_
    rw [hok]
    rfl
  refine ⟨⟨site.target, none, none⟩, none, s.closed site id, ?_, rfl, rfl, rfl, rfl⟩
  rw [RestClient.Batch.exitBatch, Prog.interp_bind, hrun]
  rfl

theorem Owned.saves (h : Owned site s id) {c : Client} (hc : Holds site id c) (hcount : c.uncommitted = some 0) :
    Ends site id (RestClient.Batch.saveBatch c) s (site.saving (Configuration.convConfId id) s.conf) := by
  obtain ⟨r, hserve, htold⟩ := h.save hsite
  obtain ⟨target, confLoc, uncommitted⟩ := c
  obtain ⟨rfl, rfl⟩ := hc
  have hrun : (RestClient.save ⟨site.target, some (locationOf id), uncommitted⟩).interp (serve site) s =
      some ((⟨site.target, some (locationOf id), uncommitted⟩,
        if r.isError then RestClient.failure (str "save post failed") (base site.target ++ locationOf id ++ str "/save") r
          else []),
        { s with sid := Configuration.convConfId id
                 conf := (site.configd.save (Configuration.convConfId id) s.conf).2 }) := by
    unfold RestClient.save
    refine (Prog.interp_perform hserve _).trans ?_
    cases r.isError <;> rfl
  obtain ⟨err, hfailed⟩ := scalar_failure (str "save post failed") (base site.target ++ locationOf id ++ str "/save") r
  have hstop : r.isError = true → Ends site id (RestClient.Batch.saveBatch ⟨site.target, some (locationOf id), uncommitted⟩) s
      (some .save, (site.configd.save (Configuration.convConfId id) s.conf).2) := by
    intro herr
    rw [herr, if_pos rfl] at hrun
    exact ends_failed .save hrun hfailed rfl rfl rfl
  unfold Site.saving
  rcases hreply : site.configd.save (Configuration.convConfId id) s.conf with ⟨text | text, x⟩
  · rw [hreply] at hstop htold
    exact hstop htold
  · rw [hreply] at hstop htold hrun
    simp only
    by_cases hfits : Site.Fits (replyBody (str "save") text)
    · rw [if_pos hfits]
      rw [htold.1.mpr hfits, if_neg Bool.false_ne_true] at hrun
      exact ends_passed hrun rfl rfl ((h.told _ x).exits hsite ⟨rfl, rfl⟩ hcount)
    · rw [if_neg hfits]
      refine hstop ?_
      rw [← Bool.not_eq_false]
      exact fun hok => hfits (htold.1.mp hok)

theorem Owned.commits (h : Owned site s id) {c : Client} (hc : Holds site id c) :
    Ends site id (RestClient.Batch.commitBatch c) s (site.committing (Configuration.convConfId id) s.conf) := by
  obtain ⟨r, hserve, htold⟩ := h.commit hsite
  obtain ⟨target, confLoc, uncommitted⟩ := c
  obtain ⟨rfl, rfl⟩ := hc
  -- what the method makes of the response
  have hrun : ∃ ret u, (RestClient.commit ⟨site.target, some (locationOf id), uncommitted⟩).interp (serve site) s =
      some ((⟨site.target, some (locationOf id), u⟩, ret),
        { s with sid := Configuration.convConfId id
                 conf := (site.configd.commit (Configuration.convConfId id) s.conf).2 }) ∧
      (RestClient.Batch.scalar ret = none → u = some 0) ∧
      (RestClient.Batch.scalar ret = none ↔ r.isError = false ∧ getErrorMessage r = none) := by
    unfold RestClient.commit
    rcases he : r.isError with _ | _ <;> rcases hm : getErrorMessage r with _ | message
    · exact ⟨[], some 0, (Prog.interp_perform hserve _).trans (by simp only [he, hm]; rfl), fun _ => rfl,
        iff_of_true rfl ⟨rfl, rfl⟩⟩
    · exact ⟨[some (message ++ str "\n")], some 0,
        (Prog.interp_perform hserve _).trans (by simp only [he, hm]; rfl), fun _ => rfl,
        iff_of_false (Option.some_ne_none _) fun h => by cases h.2⟩
    · exact ⟨[some (str "commit post failed [" ++ (base site.target ++ locationOf id ++ str "/commit") ++ str "] - "),
        some r.statusLine], uncommitted, (Prog.interp_perform hserve _).trans (by simp only [he, hm]; rfl), fun h => (by cases h),
        iff_of_false (Option.some_ne_none _) fun h => by cases h.1⟩
    · exact ⟨[some message], uncommitted, (Prog.interp_perform hserve _).trans (by simp only [he, hm]; rfl),
        fun h => (by cases h), iff_of_false (Option.some_ne_none _) fun h => by cases h.1⟩
  obtain ⟨ret, u, hrun, hu, hret⟩ := hrun
  have hstop : ¬ (r.isError = false ∧ getErrorMessage r = none) →
      Ends site id (RestClient.Batch.commitBatch ⟨site.target, some (locationOf id), uncommitted⟩) s
        (some .commit, (site.configd.commit (Configuration.convConfId id) s.conf).2) := by
    intro hno
    obtain ⟨err, herr⟩ := Option.ne_none_iff_exists'.mp fun h => hno (hret.mp h)
    exact ends_failed .commit hrun herr rfl rfl rfl
  unfold Site.committing
  rcases hreply : site.configd.commit (Configuration.convConfId id) s.conf with ⟨text | text, x⟩
  · rw [hreply] at hstop htold
    refine hstop fun hok => ?_
    rw [show r.isError = true from htold] at hok
    cases hok.1
  · rw [hreply] at hstop htold hrun
    obtain ⟨hfit, hnote⟩ := htold
    simp only
    by_cases hquiet : Site.Fits (replyBody (str "commit") text) ∧ site.note (replyBody (str "commit") text) = none
    · rw [if_pos hquiet]
      have hpass := hret.mpr ⟨hfit.mpr hquiet.1, (hnote hquiet.1).trans hquiet.2⟩
      exact ends_passed hrun hpass rfl ((h.told _ x).saves hsite ⟨rfl, rfl⟩ (hu hpass))
    · rw [if_neg hquiet]
      refine hstop fun hok => hquiet ?_
      have hfits := hfit.mp hok.1
      exact ⟨hfits, (hnote hfits).symm.trans hok.2⟩

theorem Owned.sets {safe : UInt8 → Bool} (hsafe : EscapeSet safe) :
    ∀ {cs : List Command} {s : State σ} {c : Client}, (∀ x ∈ cs, Plain x) →
    Owned site s id → Holds site id c →
      Ends site id (RestClient.Batch.setBatch safe (cs.map Command.text) c) s
        (site.editing (Configuration.convConfId id) cs s.conf) := by
  intro cs
  induction cs with
  | nil =>
    intro s c _ h hc
    exact h.commits hsite hc
  | cons x cs ih =>
    intro s c hcs h hc
    obtain ⟨r, hserve, herr⟩ := h.put hsite hsafe (hcs x List.mem_cons_self)
    obtain ⟨target, confLoc, uncommitted⟩ := c
    obtain ⟨rfl, rfl⟩ := hc
    have hrun : (RestClient.set safe x.text ⟨site.target, some (locationOf id), uncommitted⟩).interp (serve site) s =
        some ((⟨site.target, some (locationOf id), if r.isError then uncommitted else some (uncommitted.getD 0 + 1)⟩,
          if r.isError then RestClient.failure (str "set error on put")
            (base site.target ++ locationOf id ++ str "/" ++ cmd2path safe x.text) r else []),
          { s with conf := (site.edit (Configuration.convConfId id) x s.conf).2 }) := by
      unfold RestClient.set
      refine (Prog.interp_perform hserve _).trans ?_
      cases r.isError <;> rfl
    rw [Site.editing, List.map_cons, RestClient.Batch.setBatch]
    rcases hedit : site.edit (Configuration.convConfId id) x s.conf with ⟨_ | _, y⟩
    · rw [hedit] at hrun herr
      rw [show r.isError = true from herr, if_pos rfl, if_pos rfl] at hrun
      obtain ⟨err, hfailed⟩ := scalar_failure (str "set error on put")
        (base site.target ++ locationOf id ++ str "/" ++ cmd2path safe x.text) r
      exact ends_failed .set hrun hfailed rfl rfl rfl
    · rw [hedit] at hrun herr
      rw [show r.isError = false from herr, if_neg Bool.false_ne_true, if_neg Bool.false_ne_true] at hrun
      exact ends_passed hrun rfl rfl (ih (fun x hx => hcs x (List.mem_cons_of_mem _ hx)) (h.told s.sid y) ⟨rfl, rfl⟩)

omit hsite

/-! ## What a commit has to say -/

/-- The member `message` of a JSON object. -/
def messageOf (body : Str) : Option (Option Str) :=
  (parseJson body).map fun v =>
    match v with
    | .object ms =>
      match ms.lookup (str "message") with
      | some (.string text) => some text
      | _ => none
    | _ => none

/-- To a client that reads JSON, from a server whose library prints what it has read: a text in
    lines without a backslash is passed over exactly when it is empty or a blank. -/
theorem note_iff (hdecode : site.decode = messageOf) (hjson : ∀ b t, site.json b = some t → parseJson (cstr t) = parseJson b)
    {text : Str} (h : Lines text) (h92 : (92 : UInt8) ∉ text) :
    site.note (replyBody (str "commit") text) = none ↔ text = [] ∨ text = str " " := by
  by_cases hnil : text = []
  · subst hnil
    refine iff_of_true ?_ (Or.inl rfl)
    have hempty : Framing.format site.json some false (replyBody (str "commit") []) = [] := rfl
    rw [Site.note, hempty, hdecode]
    rfl
  have hbody : replyBody (str "commit") text = memberObject (str "message") (text.flatMap messageByte) := by
    rw [replyBody, if_neg fun h => hnil h.1, serialize_message (escapeMessage_ne_nil hnil), escapeMessage_eq]
  have hparse : parseJson (replyBody (str "commit") text) = some (.object [(str "message", .string text)]) := by
    rw [hbody]
    refine parse_message (fun b hb => messageByte_escaped (h.2 b hb) ?_) messageByte_ascii h.1
    rintro rfl
    exact h92 hb
  have hnul : (0 : UInt8) ∉ replyBody (str "commit") text := by
    have hbytes : (0 : UInt8) ∉ text.flatMap messageByte := by
      intro hm
      obtain ⟨b, hb, h0⟩ := List.mem_flatMap.mp hm
      unfold messageByte at h0
      split at h0
      · exact absurd h0 (by decide)
      split at h0
      · exact absurd h0 (by decide)
      · obtain rfl := List.mem_singleton.mp h0
        exact absurd (h.2 0 hb (by decide)) (by decide)
    have hkey : (0 : UInt8) ∉ str "message" := by decide
    rw [hbody]
    simp [memberObject, hbytes, hkey]
  have hformat : parseJson (Framing.format site.json some false (replyBody (str "commit") text)) =
      some (.object [(str "message", .string text)]) := by
    rw [Framing.format, if_pos (by simp [hbody, memberObject]), cstr_of_notMem hnul]
    rcases ht : site.json (replyBody (str "commit") text) with _ | t
    · exact hparse
    · exact (hjson _ _ ht).trans hparse
  have hmessage : messageOf (Framing.format site.json some false (replyBody (str "commit") text)) = some (some text) := by
    rw [messageOf, hformat]
    simp only [Option.map_some, lookup_message]
  rw [Site.note, hdecode, hmessage]
  simp [hnil]

/-! ## The batch and the transaction -/

/-- In whatever state the world is: the batch leaves it as the transaction does, returns undef
    exactly when the transaction has come to its end, and else an error that names where it has
    stopped. At its end the session is gone; stopped, client and server still have it. -/
theorem batch_is_a_transaction (hsite : Sound site) {safe : UInt8 → Bool} (hsafe : EscapeSet safe) {cs : List Command}
    (hcs : ∀ x ∈ cs, Plain x) {c : Client} (htarget : c.target = site.target) (hnew : c.confLoc = none) (s : State σ) :
    ∃ c' e s', (RestClient.Batch.batchConfCmds safe (cs.map Command.text) c).interp (serve site) s = some ((c', e), s') ∧
      s'.conf = (site.transaction cs s.conf).2 ∧ Reports (site.transaction cs s.conf).1 e ∧
      (∀ file, s'.files file =
        if file = ownerFile (site.configd.token s.conf).1 then
          if (site.transaction cs s.conf).1 = none then none else some (ownerText site)
        else s.files file) ∧
      c'.confLoc = if (site.transaction cs s.conf).1 = none then none else some (locationOf (site.configd.token s.conf).1) := by
  obtain ⟨r, hserve, hok, hlocation⟩ := hsite.post s
  obtain ⟨target, confLoc, uncommitted⟩ := c
  cases htarget
  cases hnew
  have hrun : (RestClient.configure ⟨site.target, none, uncommitted⟩).interp (serve site) s =
      some ((⟨site.target, some (locationOf (site.configd.token s.conf).1), some 0⟩, []), s.made site) := by
    unfold RestClient.configure
    refine (Prog.interp_perform hserve _).trans ?_
    rw [hok, hlocation]
    rfl
  obtain ⟨c', e, s', hrest, hconf, hreports, hfiles, hloc⟩ := (hsite.owned s).sets hsite hsafe hcs
    (c := ⟨site.target, some (locationOf (site.configd.token s.conf).1), some 0⟩) ⟨rfl, rfl⟩
  refine ⟨c', e, s', ?_, hconf, hreports, fun file => ?_, hloc⟩
  · rw [RestClient.Batch.batchConfCmds, Prog.interp_bind, hrun]
    exact hrest
  · have hmade : (s.made site).files file =
        if file = ownerFile (site.configd.token s.conf).1 then some (ownerText site) else s.files file := rfl
    have hgone : ((s.made site).write (ownerFile (site.configd.token s.conf).1) none).files file =
        if file = ownerFile (site.configd.token s.conf).1 then none else (s.made site).files file := rfl
    have hediting : site.editing (Configuration.convConfId (site.configd.token s.conf).1) cs (s.made site).conf =
        site.transaction cs s.conf := rfl
    rw [hfiles, hediting]
    by_cases hdone : (site.transaction cs s.conf).1 = none
    · rw [if_pos hdone, if_pos hdone, hgone, hmade]
      split <;> rfl
    · rw [if_neg hdone, if_neg hdone, hmade]

/-- A world that keeps the lines it is given. -/
def logged : World (List (Option (List Tok))) where
  shell toks x := (some ([], 0), x ++ [toks])
  token x := (str "0000000000000001", x)
  setup _ x := (true, x)
  commit _ x := (.ok [], x)
  save _ x := (.ok [], x)
  discard _ x := (true, x)
  teardown _ x := (true, x)

def router : Site (List (Option (List Tok))) where
  target := str "router"
  user := str "vyatta"
  configd := logged
  world
    | .configdOpen => true
    | c => ServiceMode.sampleAnswer c
  json body := (parseJson body).map fun _ => body
  decode := messageOf
  statusLine code := dec code
  object := str "HTTP::Response=HASH(0x1)"

theorem a_host_name_is_set : ∃ c' s',
    (RestClient.Batch.batchConfCmds isUnreserved [str "set system host-name 'my router'"] ⟨str "router", none, none⟩).interp
      (serve router) ⟨fun _ => none, [], []⟩ = some ((c', none), s') ∧
    s'.conf = [some (lineToks (Configuration.convConfId (str "0000000000000001")) (str "/usr/bin/cfgcli -print")
      [str "set", str "system", str "host-name", str "my router"])] ∧ c'.confLoc = none := by
  have hsound : Sound router :=
    ⟨by decide, by decide, rfl, fun _ => show Chunker.isHexToken (str "0000000000000001") = true by decide⟩
  have hplain : Plain ⟨str "set", [str "system", str "host-name"], .single (str "my router")⟩ := by
    refine ⟨⟨by decide, by decide, ?_, ?_⟩, fun h => absurd h (by decide)⟩
    · unfold RestClient.IsWord
      decide
    · unfold RestClient.Last.WellFormed
      decide
  have htransaction : router.transaction [⟨str "set", [str "system", str "host-name"], .single (str "my router")⟩] [] =
      (none, [some (lineToks (Configuration.convConfId (str "0000000000000001")) (str "/usr/bin/cfgcli -print")
        [str "set", str "system", str "host-name", str "my router"])]) := rfl
  obtain ⟨c', e, s', hrun, hconf, hreports, -, hloc⟩ := batch_is_a_transaction hsound ⟨fun _ h => h, fun _ h => Or.inl h⟩
    (fun x hx => List.mem_singleton.mp hx ▸ hplain) (c := ⟨str "router", none, none⟩) rfl rfl ⟨fun _ => none, [], []⟩
  rw [htransaction] at hconf hreports hloc
  cases hreports
  exact ⟨c', s', hrun, hconf, hloc⟩

end VyattaRest.ConfRoundTrip
