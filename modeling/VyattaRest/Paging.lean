/-
  VyattaRest.Paging — the output of a finished command, page by page (`get_chunk`,
  multirespcmd.cc; the `<next>` branch of `ChunkerManager::process`, chunker2_manager.cc;
  the option `-s`, chunker2_main.cc).

  The data file does not change any more and the end marker is there. Each `get_chunk` asks
  the manager, which replies with the offset it has and moves it on by its chunk size; the
  client reads `CHUNKER_READ_SIZE` bytes from the offset it was told. The two sizes are
  different settings, the manager compares with the low 32 bits of the file's size, the client
  takes the bytes `END` for the end, and it gives the offset 0 up when `errno` says `EINVAL`.
  - `paging_exact_iff`: for every `-s`, file, new entry and values of `errno`, exactly when the
    pages up to `END` are the file (`Paged`, and `Skipped` for a first call that gives up).
  - `draining_is_exact`: with the default chunk size and a file below 2^32 bytes, from any
    offset: how many pages there are, which they are, and the `END` after them.
  - `a_small_chunk_size_repeats`: with `-s 1024`, a file of 2048 bytes comes back as 3072.
-/

import Mathlib.Data.List.GetD
import VyattaRest.Chunker.Manager
import VyattaRest.Chunker.Response
import VyattaRest.Lib.Pages
import VyattaRest.Server.OpMode

namespace VyattaRest.Paging

open VyattaRest.Lib VyattaRest.Rest VyattaRest.Chunker VyattaRest.Server.MultiResponseCommand

/-- `-s`: a size that is too small or too large gives the default. -/
def sizeOption (optarg : Str) : UInt64 :=
  let chunkSize := toSigned (UInt64.ofNat (strtoul 10 optarg))
  if chunkSize < 1024 ∨ 131072 < chunkSize then UInt64.ofNat chunkerReadSize else UInt64.ofNat chunkSize.toNat

theorem sizeOption_range (optarg : Str) : 1024 ≤ (sizeOption optarg).toNat ∧ (sizeOption optarg).toNat ≤ 131072 := by
  simp only [sizeOption]
  split
  · decide
  · rename_i h
    have hlt : (toSigned (UInt64.ofNat (strtoul 10 optarg))).toNat < 2 ^ 64 := by omega
    rw [UInt64.toNat_ofNat_of_lt' hlt]
    omega

/-! ## The two parties -/

/-- The manager's table, the files of the token, what the manager has written last, and what the
    client finds in `errno`, each time it looks. -/
structure World where
  table : ProcColl
  data : Option Str
  ended : Bool
  reply : Str
  errno : Nat → Int

variable (token : Str)

def World.fileSize (w : World) (file : Str) : Option Nat :=
  if file = chunkFile token then w.data.map List.length
  else if file = endFile token then (if w.ended then some (str "end").length else none)
  else none

/-- The one `fread` that a regular file needs; what is read is taken as a C string. -/
def freadAt (d : Str) (pos : Nat) : Str := cstr (page chunkerReadSize d pos)

def managerCall (w : World) : (c : Chunker.Call) → Option (c.Answer × World)
  | .lstat file => some (w.fileSize token file, w)
  | .write reply => some (true, { w with reply })
  | _ => none

def clientCall (w : World) : (c : Server.Call) → Option (c.Answer × World)
  | .errno => some (w.errno 0, { w with errno := fun n => w.errno (n + 1) })
  | .lstat file => some ((w.fileSize token file).map (·, true), w)
  | .fread file pos => some (if file = chunkFile token then w.data.map (freadAt · pos) else none, w)
  | .unlink file =>
    some (true, if file = endFile token then { w with ended := false }
      else if file = chunkFile token then { w with data := none } else w)
  | _ => none

/-- The manager handles the `<next>` of a user. -/
def exchange (chunkSize : UInt64) (user : Str) (w : World) : Option World :=
  ((handleNext chunkSize w.table { token, statement := [], user }).interp (managerCall token) w).map fun r =>
    { r.2 with table := r.1 }

/-- One `get_chunk`. -/
def getChunk (chunkSize : UInt64) (user : Str) (w : World) : Option (Str × World) :=
  (exchange token chunkSize user w).bind fun w =>
    match chunkPos user token w.reply with
    | none => some ([], w)
    | some pos => (chunkFrom token pos).interp (clientCall token) w

/-- As many calls, and what they return. -/
def getChunks (chunkSize : UInt64) (user : Str) : Nat → World → Option (List Str)
  | 0, _ => some []
  | n + 1, w => (getChunk token chunkSize user w).bind fun r => (getChunks chunkSize user n r.2).map (r.1 :: ·)

/-- What the calls up to `END` return, within a number of calls. -/
def untilEnd (chunkSize : UInt64) (user : Str) : Nat → World → Option (List Str)
  | 0, _ => none
  | fuel + 1, w => (getChunk token chunkSize user w).bind fun r =>
    if r.1 = str "END" then some [] else (untilEnd chunkSize user fuel r.2).map (r.1 :: ·)

/-! ## Entries -/

/-- An entry made from a message: `start_new` has taken it, and its texts are parts of the
    1024 bytes. -/
structure Entered (pd : ProcessData) (key : Str) : Prop where
  started : pd.Started key
  command_lt : pd.command.length < 1024
  token_lt : pd.token.length < 1024
  user_lt : pd.user.length < 1024

theorem between_part {s opening closing r : Str} (h : between s opening closing = some r) : r <:+: s := by
  rw [between] at h
  split at h
  · cases h
    exact (List.take_prefix _ _).isInfix.trans (List.drop_suffix _ _).isInfix
  · cases h

/-- The fields of a message are parts of it. -/
theorem fields_part {command : Str} {f : Fields} (h : fields command = some f) :
    f.token <:+: command ∧ f.statement <:+: command ∧ f.user <:+: command := by
  have hgetD : ∀ a b, (between command a b).getD [] <:+: command := by
    intro a b
    rcases hb : between command a b with _ | r
    · exact List.nil_infix
    · exact between_part hb
  rw [fields] at h
  split at h
  · cases h
  · rename_i token htoken
    cases h
    exact ⟨between_part htoken, hgetD _ _, hgetD _ _⟩

theorem length_received_lt {m : Str} (h : m.length < 1024) : (received m).length < 1024 := by
  rw [received]
  by_cases h0 : (0 : UInt8) ∈ m
  · rw [cstr_append_of_mem h0]
    exact Nat.lt_of_le_of_lt ( cstr_prefix m).length_le h
  · rwa [cstr_append_zeros h0]

/-- What a command puts into the table under a new token. -/
theorem entered_of_command {t : ProcColl} {now : UInt64} {m : Str} {f : Fields} {pd : ProcessData} (hm : m.length < 1024)
    (hf : fields (received m) = some f) (hnew : t.find f.token = none)
    (hpd : (commandTable t now f).find f.token = some pd) :
    Entered pd f.token ∧ pd.readOffset = 0 ∧ pd.status = .running := by
  obtain ⟨htok, hstmt, huser⟩ := fields_part hf
  have hlt : ∀ {r : Str}, r <:+: received m → r.length < 1024 := fun h =>
    Nat.lt_of_le_of_lt h.length_le (length_received_lt hm)
  have hnul : ∀ {r : Str}, r <:+: received m → (0 : UInt8) ∉ r := fun h h0 => zero_notMem_cstr _ (h.subset h0)
  rw [commandTable, hnew, if_neg (by simp)] at hpd
  split at hpd
  · rw [hnew] at hpd
    cases hpd
  · rename_i hne
    simp only [Bool.or_eq_true, List.isEmpty_iff, not_or] at hne
    rw [OrdMap.find_insert, hnew] at hpd
    simp only [if_true, Option.some.injEq] at hpd
    subst hpd
    refine ⟨⟨⟨rfl, hne.1.1, hne.1.2, hne.2, ?_⟩, hlt hstmt, hlt htok, hlt huser⟩, rfl, rfl⟩
    simp only [List.mem_append, not_or]
    exact ⟨⟨hnul hstmt, hnul htok⟩, hnul huser⟩

/-! ## The offset in the reply -/

/-- What stands before the offset in a row. -/
def rowHead (pd : ProcessData) : Str :=
  ld pd.startTime ++ str "%3A" ++ pd.command ++ str "%3A" ++ pd.token ++ str "%3A" ++ pd.user

/-- The fields that the client finds there. -/
def fieldsBefore (pd : ProcessData) : List Str := cut (str "%3A") 126 (expandTabs (rowHead pd))

theorem row_eq_head (pd : ProcessData) : pd.row = rowHead pd ++ (str "%3A" ++ ld pd.readOffset) := by
  simp [ProcessData.row, rowHead]

theorem expandTabs_append (a b : Str) : expandTabs (a ++ b) = expandTabs a ++ expandTabs b := List.flatMap_append

/-- The fields of a reply: those before the offset, and the offset. -/
theorem strProc_reply (pd : ProcessData) : ∃ t, (t = [] ∨ t = str "\n") ∧
    strProc (pd.row ++ str "\n") (str "%3A") = fieldsBefore pd ++ [ld pd.readOffset ++ t] := by
  have htail : ∀ t : Str, (9 : UInt8) ∉ t → expandTabs (str "%3A" ++ (ld pd.readOffset ++ t)) =
      str "%3A" ++ (ld pd.readOffset ++ t) := by
    intro t ht
    refine expandTabs_of_notMem ?_
    simp only [List.mem_append, not_or]
    exact ⟨by decide, notMem_ld (by decide), ht⟩
  have hlast : ∀ t : Str, (t = [] ∨ t = str "\n") →
      cut (str "%3A") 126 (ld pd.readOffset ++ t) = [ld pd.readOffset ++ t] := by
    intro t ht
    have hnot : ∀ b : UInt8, b.toNat < 45 ∨ 57 < b.toNat → b ∉ t → b ∉ ld pd.readOffset ++ t := by
      intro b hb ht
      simp only [List.mem_append, not_or]
      exact ⟨notMem_ld hb, ht⟩
    have hpercent : (37 : UInt8) ∉ t ∧ (126 : UInt8) ∉ t := by
      rcases ht with rfl | rfl <;> decide
    refine cut_plain (fun hi => hnot 37 (by decide) hpercent.1 (hi.subset (by decide))) (hnot 126 (by decide) hpercent.2) ?_
    simp [ld_ne_nil]
  have e : pd.row ++ str "\n" = rowHead pd ++ (str "%3A" ++ (ld pd.readOffset ++ str "\n")) := by
    rw [row_eq_head]
    simp
  rw [strProc_eq, e, expandTabs_append, htail _ (by decide)]
  by_cases h0 : (expandTabs (rowHead pd)).count 10 = 0
  · refine ⟨[], Or.inl rfl, ?_⟩
    have hnl : str "\n" = [10] := by decide
    have hdrop : dropLoneNewline (expandTabs (rowHead pd) ++ (str "%3A" ++ (ld pd.readOffset ++ str "\n"))) =
        expandTabs (rowHead pd) ++ (str "%3A" ++ (ld pd.readOffset ++ [])) := by
      have h1 : (str "%3A").count 10 = 0 := by decide
      have h2 : (ld pd.readOffset).count 10 = 0 := List.count_eq_zero.mpr (notMem_ld (by decide))
      rw [dropLoneNewline, hnl, if_pos (by simp [h0, h1, h2]), List.erase_append_right _ (List.count_eq_zero.mp h0),
        List.erase_append_right _ (List.count_eq_zero.mp h1), List.erase_append_right _ (List.count_eq_zero.mp h2)]
      rfl
    rw [hdrop, cut_append tag_3A, hlast [] (Or.inl rfl)]
    rfl
  · refine ⟨str "\n", Or.inr rfl, ?_⟩
    have h3 : (str "\n").count 10 = 1 := by decide
    rw [dropLoneNewline, if_neg (by simp only [List.count_append, h3]; omega), cut_append tag_3A, hlast _ (Or.inr rfl)]
    rfl

theorem length_ld_le (x : UInt64) : (ld x).length ≤ 21 := by
  have hlt := x.toNat_lt
  have h20 : ∀ n < 2 ^ 64, (dec n).length ≤ 20 := fun n hn => (length_dec_le_iff (by decide)).mpr (by omega)
  unfold ld
  split
  · have := h20 x.toNat hlt
    omega
  · have := h20 (2 ^ 64 - x.toNat) (by omega)
    rw [List.length_cons]
    omega

/-- What the client makes of the fields before the offset: it reads the offset if there are four, and
    whatever the fifth of them is if there are more. -/
def posRead (pd : ProcessData) : Option Int :=
  if (fieldsBefore pd).length < 4 then none
  else if (fieldsBefore pd).length = 4 then some (toSigned pd.readOffset)
  else some (strtol 10 (StrProc.get (fieldsBefore pd) 4))

theorem chunkPos_reply {pd : ProcessData} {key : Str} (h : Entered pd key) :
    chunkPos pd.user key (pd.row ++ str "\n") = posRead pd := by
  have hfit : (pd.row ++ str "\n").length < 8192 := by
    have h1 := length_ld_le pd.startTime
    have h2 := length_ld_le pd.readOffset
    have h3 := h.command_lt
    have h4 := h.token_lt
    have h5 := h.user_lt
    simp only [ProcessData.row, List.length_append, show (str "%3A").length = 3 by decide,
      show (str "\n").length = 1 by decide]
    omega
  have hnul : (0 : UInt8) ∉ pd.row ++ str "\n" := by
    rw [List.mem_append, not_or]
    exact ⟨by rw [mem_row (by decide) (by decide)]; exact h.started.no_nul, by decide⟩
  have huser : pd.user.isEmpty = false := by simpa using h.started.user_ne_nil
  have hkey : key.isEmpty = false := by
    rw [← h.started.token_eq]
    simpa using h.started.token_ne_nil
  obtain ⟨t, ht, hfields⟩ := strProc_reply pd
  have hdigit : ∀ b ∈ t.head?, digitVal 10 b = none := by
    rcases ht with rfl | rfl
    · simp
    · intro b hb
      obtain rfl := Option.some.inj hb
      decide
  rw [chunkPos, readReply_eq hfit hnul, hfields, huser, hkey, posRead]
  simp only [Bool.or_self, Bool.false_eq_true, if_false]
  by_cases hlt : (fieldsBefore pd).length < 4
  · have hget : StrProc.get (fieldsBefore pd ++ [ld pd.readOffset ++ t]) 4 = [] :=
      List.getD_eq_default _ _ (by rw [List.length_append, List.length_singleton]; omega)
    rw [if_pos hlt, hget]
    rfl
  rw [if_neg hlt]
  by_cases heq : (fieldsBefore pd).length = 4
  · have hget : StrProc.get (fieldsBefore pd ++ [ld pd.readOffset ++ t]) 4 = ld pd.readOffset ++ t := by
      rw [StrProc.get, List.getD_append_right _ _ _ _ (by omega), heq]
      rfl
    have hne : (ld pd.readOffset ++ t).isEmpty = false := by simp [ld_ne_nil]
    rw [if_pos heq, hget, hne, strtol_ld _ hdigit]
    rfl
  · have hget : StrProc.get (fieldsBefore pd ++ [ld pd.readOffset ++ t]) 4 = StrProc.get (fieldsBefore pd) 4 :=
      List.getD_append _ _ _ _ (by omega)
    have hmem : StrProc.get (fieldsBefore pd) 4 ∈ fieldsBefore pd := by
      rw [StrProc.get, List.getD_eq_getElem _ _ (by omega)]
      exact List.getElem_mem _
    have hne := (mem_cut tag_3A hmem).1
    rw [if_neg heq, hget, if_neg (by simpa using hne)]

/-! ## One call -/

/-- The command has finished with the output `d`, and the entry of the token is `pd`. -/
structure At (w : World) (d : Str) (pd : ProcessData) : Prop where
  find : w.table.find token = some pd
  data : w.data = some d
  ended : w.ended = true

/-- The entry that the manager leaves. -/
def after (chunkSize : UInt64) (size : Nat) (pd : ProcessData) : ProcessData :=
  if (pd.advance chunkSize size).2 then { (pd.advance chunkSize size).1 with status := .dead }
  else (pd.advance chunkSize size).1

variable {token} (chunkSize : UInt64) {w : World} {d : Str} {pd : ProcessData}

theorem At.fileSize_data (h : At token w d pd) : w.fileSize token (chunkFile token) = some d.length := by
  rw [World.fileSize, if_pos rfl, h.data]
  rfl

theorem At.fileSize_end (h : At token w d pd) : w.fileSize token (endFile token) = some 3 := by
  rw [World.fileSize, if_neg (endFile_ne_chunkFile token), if_pos rfl, h.ended]
  decide

theorem At.nextEntry (h : At token w d pd) (e : ProcessData) :
    (nextEntry chunkSize token e).interp (managerCall token) w = some (after chunkSize d.length e, w) := by
  have hdata : managerCall token w (.lstat (chunkFile token)) = some (some d.length, w) := by
    rw [managerCall, h.fileSize_data]
  have hend : managerCall token w (.lstat (endFile token)) = some (some 3, w) := by
    rw [managerCall, h.fileSize_end]
  rw [Chunker.nextEntry]
  refine (Prog.interp_perform hdata _).trans ?_
  rw [after]
  rcases hadv : e.advance chunkSize d.length with ⟨e', atEnd⟩
  cases atEnd with
  | false => simp [hadv]
  | true =>
    simp only [hadv, if_true]
    exact Prog.interp_perform hend _

/-- The manager's reply, and the world it leaves. -/
theorem At.exchange (h : At token w d pd) : exchange token chunkSize pd.user w =
    some { w with
      table := w.table.update token fun _ => after chunkSize d.length pd.atNext
      reply := pd.atNext.row ++ str "\n" } := by
  have hreply : nextReply w.table token pd.user = pd.atNext.row ++ str "\n" := by
    rw [nextReply, h.find]
    simp
  rw [Paging.exchange, handleNext]
  simp only [h.find, ne_eq, not_true_eq_false, if_false]
  rw [Prog.interp_bind, h.nextEntry, Option.bind_some]
  refine (congrArg (Option.map _) (Prog.interp_perform (t := { w with reply := nextReply w.table token pd.user }) rfl _)).trans ?_
  rw [hreply]
  rfl

/-- The world between the reply and the client's reading. -/
theorem At.replied (h : At token w d pd) (e : ProcessData) (reply : Str) :
    At token { w with table := w.table.update token fun _ => e, reply } d e := by
  refine ⟨?_, h.data, h.ended⟩
  rw [OrdMap.find_update, if_pos rfl, h.find]
  rfl

/-- Entries that differ in their times, offset and status at most. -/
structure SameTexts (e pd : ProcessData) : Prop where
  start : e.startTime = pd.startTime
  command : e.command = pd.command
  token : e.token = pd.token
  user : e.user = pd.user

theorem SameTexts.entered {e : ProcessData} {key : Str} (h : SameTexts e pd) (he : Entered pd key) : Entered e key := by
  obtain ⟨⟨h1, h2, h3, h4, h5⟩, h6, h7, h8⟩ := he
  rw [← h.token] at h1 h3 h5 h7
  rw [← h.command] at h2 h5 h6
  rw [← h.user] at h4 h5 h8
  exact ⟨⟨h1, h2, h3, h4, h5⟩, h6, h7, h8⟩

theorem SameTexts.fieldsBefore {e : ProcessData} (h : SameTexts e pd) : fieldsBefore e = fieldsBefore pd := by
  rw [Paging.fieldsBefore, Paging.fieldsBefore, rowHead, rowHead, h.start, h.command, h.token, h.user]

theorem atNext_texts (pd : ProcessData) : SameTexts pd.atNext pd := by
  unfold ProcessData.atNext
  split <;> exact ⟨rfl, rfl, rfl, rfl⟩

theorem after_texts (size : Nat) (pd : ProcessData) : SameTexts (after chunkSize size pd) pd := by
  have h : SameTexts (pd.advance chunkSize size).1 pd := by
    unfold ProcessData.advance
    split <;> exact ⟨rfl, rfl, rfl, rfl⟩
  unfold after
  split
  · exact ⟨h.start, h.command, h.token, h.user⟩
  · exact h

/-- What a call comes to: the client's part, in the world after the reply. -/
theorem At.getChunk (h : At token w d pd) (he : Entered pd token) :
    ∃ w', At token w' d (after chunkSize d.length pd.atNext) ∧ w'.errno = w.errno ∧ getChunk token chunkSize pd.user w =
      match posRead pd.atNext with
      | none => some ([], w')
      | some pos => (chunkFrom token pos).interp (clientCall token) w' := by
  have huser := (atNext_texts pd).user
  have hpos : chunkPos pd.user token (pd.atNext.row ++ str "\n") = posRead pd.atNext := by
    rw [← huser]
    exact chunkPos_reply ((atNext_texts pd).entered he)
  refine ⟨_, h.replied (after chunkSize d.length pd.atNext) (pd.atNext.row ++ str "\n"), rfl, ?_⟩
  rw [Paging.getChunk, h.exchange, Option.bind_some, hpos]

theorem At.readChunk (h : At token w d pd) {pos : Int} (hpos : 0 ≤ pos) :
    (readChunk token pos).interp (clientCall token) w = some (freadAt d pos.toNat, w) := by
  have hdata : clientCall token w (.lstat (chunkFile token)) = some (some (d.length, true), w) := by
    rw [clientCall, h.fileSize_data]
    rfl
  have hread : clientCall token w (.fread (chunkFile token) pos.toNat) = some (some (freadAt d pos.toNat), w) := by
    rw [clientCall, if_pos rfl, h.data]
    rfl
  rw [Server.MultiResponseCommand.readChunk]
  refine (Prog.interp_perform hdata _).trans ?_
  rw [if_pos ⟨rfl, hpos⟩]
  exact Prog.interp_perform hread _

theorem At.chunkFrom_end (h : At token w d pd) {pos : Int} (hpos : pos < 0) :
    ∃ w', (chunkFrom token pos).interp (clientCall token) w = some (str "END", w') := by
  have hdata : clientCall token w (.lstat (chunkFile token)) = some (some (d.length, true), w) := by
    rw [clientCall, h.fileSize_data]
    rfl
  have hend : clientCall token w (.lstat (endFile token)) = some (some (3, true), w) := by
    rw [clientCall, h.fileSize_end]
    rfl
  have hunlink : clientCall token w (.unlink (endFile token)) = some (true, { w with ended := false }) := by
    rw [clientCall, if_pos rfl]
  have hunlink' : clientCall token { w with ended := false } (.unlink (chunkFile token)) =
      some (true, { w with ended := false, data := none }) := by
    rw [clientCall, if_neg (endFile_ne_chunkFile token).symm, if_pos rfl]
  rw [chunkFrom, if_neg (by omega), Server.MultiResponseCommand.readChunk]
  refine ⟨{ w with ended := false, data := none }, (Prog.interp_perform hdata _).trans ?_⟩
  rw [if_neg (by omega)]
  refine (Prog.interp_perform hend _).trans ?_
  rw [if_pos Option.isSome_some]
  exact (Prog.interp_perform hunlink _).trans (Prog.interp_perform hunlink' _)

/-- The call is given up. -/
def givenUp (w : World) (pos : Int) : Prop := pos = 0 ∧ w.errno 0 = Server.einval

instance (w : World) (pos : Int) : Decidable (givenUp w pos) := inferInstanceAs (Decidable (_ ∧ _))

theorem At.chunkFrom (h : At token w d pd) {pos : Int} (hpos : 0 ≤ pos) : ∃ w', At token w' d pd ∧
    (chunkFrom token pos).interp (clientCall token) w = some (if givenUp w pos then [] else freadAt d pos.toNat, w') := by
  by_cases hzero : pos = 0
  · subst hzero
    have htick : At token { w with errno := fun n => w.errno (n + 1) } d pd := ⟨h.find, h.data, h.ended⟩
    refine ⟨_, htick, ?_⟩
    rw [Server.MultiResponseCommand.chunkFrom, if_pos rfl]
    refine (Prog.interp_perform (t := { w with errno := fun n => w.errno (n + 1) }) rfl _).trans ?_
    by_cases he : w.errno 0 = Server.einval
    · rw [if_pos he, if_pos ⟨rfl, he⟩]
      rfl
    · rw [if_neg he, if_neg fun hg => he hg.2]
      exact htick.readChunk hpos
  · refine ⟨w, h, ?_⟩
    rw [Server.MultiResponseCommand.chunkFrom, if_neg hzero, if_neg fun hg => hzero hg.1]
    exact h.readChunk hpos

/-! ## The calls after one another -/

/-- The offset is in its place in the reply. -/
def Intact (pd : ProcessData) : Prop := (fieldsBefore pd).length = 4

instance (pd : ProcessData) : Decidable (Intact pd) := inferInstanceAs (Decidable (_ = _))

theorem posRead_intact (h : Intact pd) : posRead pd = some (toSigned pd.readOffset) := by
  have h4 : (fieldsBefore pd).length = 4 := h
  rw [posRead, if_neg (by omega), if_pos h4]

theorem posRead_misread (h : 4 < (fieldsBefore pd).length) :
    posRead pd = some (strtol 10 (StrProc.get (fieldsBefore pd) 4)) := by
  rw [posRead, if_neg (by omega), if_neg (by omega)]

/-- A command whose pages have been read up to an offset. -/
structure Running (token : Str) (w : World) (d : Str) (pd : ProcessData) (o : Nat) : Prop extends At token w d pd where
  entered : Entered pd token
  intact : Intact pd
  running : pd.status = .running
  offset : pd.readOffset.toNat = o

/-- A command whose last page has been read. -/
structure Over (token : Str) (w : World) (d : Str) (pd : ProcessData) : Prop extends At token w d pd where
  entered : Entered pd token
  intact : Intact pd
  dead : pd.status = .dead

theorem Over.getChunk (h : Over token w d pd) : ∃ w', Paging.getChunk token chunkSize pd.user w = some (str "END", w') := by
  have hnext : pd.atNext = { pd with readOffset := -1 } := by rw [ProcessData.atNext, if_pos h.dead]
  have hintact : Intact pd.atNext := by
    rw [Intact, (atNext_texts pd).fieldsBefore]
    exact h.intact
  obtain ⟨w', hw', -, hget⟩ := h.toAt.getChunk chunkSize h.entered
  rw [posRead_intact hintact, hnext] at hget
  rw [hget]
  exact hw'.chunkFrom_end (show toSigned (-1) < 0 by decide)

variable {o : Nat} (h0 : (0 : UInt8) ∉ d) (hc : chunkSize.toNat ≤ 131072)

include h0 in
theorem freadAt_eq (o : Nat) : freadAt d o = page chunkerReadSize d o := by
  refine cstr_of_notMem fun hm => h0 ?_
  exact List.mem_of_mem_drop (List.mem_of_mem_take hm)

include h0 hc in
/-- A page is returned, unless the call gives up; what the manager compares decides whether
    another one follows. -/
theorem Running.getChunk (h : Running token w d pd o) (ho : o < 2 ^ 62) : ∃ w' pd',
    Paging.getChunk token chunkSize pd.user w = some (if givenUp w o then [] else page chunkerReadSize d o, w') ∧
      pd'.user = pd.user ∧
      if o + chunkSize.toNat < unsignedSize d.length then Running token w' d pd' (o + chunkSize.toNat)
      else Over token w' d pd' := by
  have hnext : pd.atNext = pd := by rw [ProcessData.atNext, if_neg (by rw [h.running]; decide)]
  have hsigned : toSigned pd.readOffset = o := by rw [toSigned, if_pos (by rw [h.offset]; omega), h.offset]
  have hadd : (pd.readOffset + chunkSize).toNat = o + chunkSize.toNat := by
    rw [UInt64.toNat_add, h.offset, Nat.mod_eq_of_lt (by omega)]
  obtain ⟨w', hw', herrno, hget⟩ := h.toAt.getChunk chunkSize h.entered
  rw [hnext] at hw' hget
  obtain ⟨w'', hw'', hread⟩ := hw'.chunkFrom (Int.natCast_nonneg o)
  have hgiven : givenUp w' o ↔ givenUp w o := by rw [givenUp, herrno, givenUp]
  have htexts := after_texts chunkSize d.length pd
  have hintact : Intact (after chunkSize d.length pd) := by
    rw [Intact, htexts.fieldsBefore]
    exact h.intact
  refine ⟨w'', after chunkSize d.length pd, ?_, htexts.user, ?_⟩
  · rw [hget, posRead_intact h.intact, hsigned]
    simp only
    rw [hread, Int.toNat_natCast, freadAt_eq h0, if_congr hgiven rfl rfl]
  · have hentered := htexts.entered h.entered
    by_cases hlt : o + chunkSize.toNat < unsignedSize d.length
    · rw [if_pos hlt]
      refine ⟨hw'', hentered, hintact, ?_, ?_⟩
      · simp [after, ProcessData.advance, hadd, hlt, h.running]
      · simp [after, ProcessData.advance, hadd, hlt]
    · rw [if_neg hlt]
      refine ⟨hw'', hentered, hintact, ?_⟩
      simp [after, ProcessData.advance, hadd, hlt]

include h0 hc in
/-- The pages up to the first that comes to the manager's idea of the size, then `END`. Only the
    first call can give up. -/
theorem Running.getChunks : ∀ (n : Nat) {w : World} {pd : ProcessData} {o : Nat}, Running token w d pd o →
    n = 0 ∨ o + n * chunkSize.toNat < unsignedSize d.length → unsignedSize d.length ≤ o + (n + 1) * chunkSize.toNat →
    o < 2 ^ 62 → Paging.getChunks token chunkSize pd.user (n + 2) w =
      some ((if givenUp w o then [] else page chunkerReadSize d o) ::
        pagesFrom chunkSize.toNat chunkerReadSize d n (o + chunkSize.toNat) ++ [str "END"]) := by
  intro n
  induction n with
  | zero =>
    intro w pd o h _ hle ho
    obtain ⟨w', pd', hget, huser, hover⟩ := h.getChunk chunkSize h0 hc ho
    rw [if_neg (by omega)] at hover
    obtain ⟨w'', hend⟩ := hover.getChunk chunkSize
    rw [Paging.getChunks, hget, Option.bind_some, Paging.getChunks, ← huser, hend]
    rfl
  | succ n ih =>
    intro w pd o h hlt hle ho
    have hbound : unsignedSize d.length < 2 ^ 32 := Nat.mod_lt _ (by decide)
    have hlt : o + (n + 1) * chunkSize.toNat < unsignedSize d.length := hlt.resolve_left (by omega)
    rw [Nat.succ_mul] at hlt hle
    obtain ⟨w', pd', hget, huser, hrun⟩ := h.getChunk chunkSize h0 hc ho
    rw [if_pos (by omega)] at hrun
    have hrest := ih hrun (Or.inr (by omega)) (by omega) (by omega)
    have hlater : ¬ givenUp w' ((o + chunkSize.toNat : Nat) : Int) := fun hg => by
      have := hg.1
      omega
    rw [if_neg hlater] at hrest
    rw [Paging.getChunks, hget, Option.bind_some, ← huser, hrest]
    rfl

/-! ## Draining -/

/-- How many pages of a width a text of a length has, and one if it has none. -/
def pageCount (width length : Nat) : Nat := max 1 ((length + width - 1) / width)

/-- The last page begins inside the text and comes to its end. -/
theorem pageCount_bounds (width : Nat) (hw : 0 < width) (length : Nat) : ∃ n, pageCount width length = n + 1 ∧
    (n = 0 ∨ n * width < length) ∧ length ≤ (n + 1) * width := by
  have hdiv := Nat.div_add_mod (length + width - 1) width
  have hmod := Nat.mod_lt (length + width - 1) hw
  rw [Nat.mul_comm] at hdiv
  rcases hq : (length + width - 1) / width with _ | n
  · refine ⟨0, by rw [pageCount, hq]; rfl, Or.inl rfl, ?_⟩
    rw [hq, Nat.zero_mul] at hdiv
    omega
  · refine ⟨n, by rw [pageCount, hq]; omega, Or.inr ?_, ?_⟩
    · rw [hq, Nat.succ_mul] at hdiv
      omega
    · rw [hq] at hdiv
      omega

/-- The default chunk size, and a file that the manager can see to its end. -/
theorem draining_is_exact {token : Str} {w : World} {d : Str} {pd : ProcessData} (h : At token w d pd)
    (he : Entered pd token) (hintact : Intact pd) (hrun : pd.status = .running) (h0 : (0 : UInt8) ∉ d)
    (hsize : d.length < 2 ^ 32) (hr : pd.readOffset.toNat ≤ d.length) (herrno : w.errno 0 ≠ Server.einval) :
    ∃ bodies, getChunks token (UInt64.ofNat chunkerReadSize) pd.user
        (pageCount chunkerReadSize (d.length - pd.readOffset.toNat) + 1) w = some (bodies ++ [str "END"]) ∧
      bodies.length = pageCount chunkerReadSize (d.length - pd.readOffset.toNat) ∧
      (∀ i < bodies.length, bodies[i]? = some (page chunkerReadSize d (pd.readOffset.toNat + i * chunkerReadSize))) ∧
      (∀ p ∈ bodies, p = [] → pd.readOffset.toNat = d.length) ∧
      bodies.flatten = d.drop pd.readOffset.toNat := by
  have hrunning : Running token w d pd pd.readOffset.toNat := ⟨h, he, hintact, hrun, rfl⟩
  have hunsigned : unsignedSize d.length = d.length := Nat.mod_eq_of_lt hsize
  have hwidth : (UInt64.ofNat chunkerReadSize).toNat = chunkerReadSize := by decide
  have hpos : 0 < chunkerReadSize := by decide
  obtain ⟨n, hn, hlast, hle⟩ := pageCount_bounds chunkerReadSize hpos (d.length - pd.readOffset.toNat)
  have hinside : pd.readOffset.toNat < d.length → n * chunkerReadSize < d.length - pd.readOffset.toNat := by
    intro hlt
    rcases hlast with hzero | hlast
    · rw [hzero, Nat.zero_mul]
      omega
    · exact hlast
  have hchunks := hrunning.getChunks (UInt64.ofNat chunkerReadSize) h0 (by decide) n
    (by rw [hunsigned, hwidth]; omega) (by rw [hunsigned, hwidth]; omega) (by omega)
  rw [hwidth, if_neg fun hg => herrno hg.2] at hchunks
  refine ⟨pagesFrom chunkerReadSize chunkerReadSize d (n + 1) pd.readOffset.toNat, ?_, ?_, ?_, ?_, ?_⟩
  · rw [hn]
    exact hchunks
  · rw [length_pagesFrom, hn]
  · intro i hi
    rw [length_pagesFrom] at hi
    exact getElem?_pagesFrom hi
  · intro p hp hnil
    by_contra hne
    exact pages_ne_nil _ _ _ hpos (hinside (Nat.lt_of_le_of_ne hr hne)) hp hnil
  · rw [flatten_pagesFrom_self, List.take_of_length_le]
    rw [List.length_drop]
    exact hle

/-! ## Up to `END` -/

/-- The first `END` that is returned is taken for the end. -/
theorem untilEnd_of_getChunks {chunkSize : UInt64} {user : Str} : ∀ {rs : List Str} {w : World},
    getChunks token chunkSize user (rs.length + 1) w = some (rs ++ [str "END"]) →
    untilEnd token chunkSize user (rs.length + 1) w = some (rs.takeWhile (· ≠ str "END")) := by
  intro rs
  induction rs with
  | nil =>
    intro w h
    rw [List.length_nil, getChunks] at h
    obtain ⟨⟨r, w'⟩, hget, hrest⟩ := Option.bind_eq_some_iff.mp h
    obtain ⟨rest, hrest, hcons⟩ := Option.map_eq_some_iff.mp hrest
    cases hrest
    obtain rfl : r = str "END" := (List.cons.inj hcons).1
    rw [List.length_nil, untilEnd, hget, Option.bind_some, if_pos rfl]
    rfl
  | cons r rs ih =>
    intro w h
    rw [List.length_cons, getChunks] at h
    obtain ⟨⟨r', w'⟩, hget, hrest⟩ := Option.bind_eq_some_iff.mp h
    obtain ⟨rest, hrest, hcons⟩ := Option.map_eq_some_iff.mp hrest
    obtain ⟨rfl, rfl⟩ := List.cons.inj hcons
    rw [List.length_cons, untilEnd, hget, Option.bind_some]
    by_cases hend : r' = str "END"
    · rw [if_pos hend, List.takeWhile_cons_of_neg (by simpa using hend)]
    · rw [if_neg hend, ih hrest, List.takeWhile_cons_of_pos (by simpa using hend)]
      rfl

/-- More calls do not change what the calls up to `END` return. -/
theorem untilEnd_unique {chunkSize : UInt64} {user : Str} : ∀ {n m : Nat} {w : World} {a b : List Str},
    untilEnd token chunkSize user n w = some a →
    untilEnd token chunkSize user m w = some b → a = b := by
  intro n
  induction n with
  | zero => intro m w a b h; cases h
  | succ n ih =>
    intro m w a b ha hb
    rcases m with _ | m
    · cases hb
    obtain ⟨⟨r, w'⟩, hget, ha⟩ := Option.bind_eq_some_iff.mp ha
    rw [untilEnd, hget, Option.bind_some] at hb
    by_cases hend : r = str "END"
    · simp only [hend, if_true, Option.some.injEq] at ha hb
      rw [← ha, ← hb]
    · simp only [hend, if_false] at ha hb
      obtain ⟨a', ha', rfl⟩ := Option.map_eq_some_iff.mp ha
      obtain ⟨b', hb', rfl⟩ := Option.map_eq_some_iff.mp hb
      rw [ih ha' hb']

/-! ## Which pages are the file -/

/-- The pages that the client is given, up to the first that reads `END`. -/
def shown (step : Nat) (d : Str) : List Str :=
  (pagesFrom step chunkerReadSize d (pageCount step (unsignedSize d.length)) 0).takeWhile (· ≠ str "END")

/-- The pages behind the first, up to one that reads `END`. -/
def later (step : Nat) (d : Str) : List Str :=
  (pagesFrom step chunkerReadSize d (pageCount step (unsignedSize d.length) - 1) step).takeWhile (· ≠ str "END")

/-- How many they are: a last one of the three bytes `END` is not among them. -/
def laterCount (step : Nat) (d : Str) : Nat :=
  let n := pageCount step (unsignedSize d.length) - 1
  if d.length = n * step + 3 ∧ str "END" <:+ d then n - 1 else n

/-- Without its first page the file is there if it is empty, or if, with a step narrower than the page
    and than the file, the other pages are together as long as the file, and each of them reads the
    same as the bytes of the file at the place where it comes to stand. -/
def Skipped (step : Nat) (d : Str) : Prop :=
  d = [] ∨ step < chunkerReadSize ∧ step < unsignedSize d.length ∧
    laidAt step chunkerReadSize d.length step (laterCount step d) = d.length ∧
    ∀ i < laterCount step d, page chunkerReadSize d (step + i * step) =
      page (min chunkerReadSize (d.length - (step + i * step))) d (laidAt step chunkerReadSize d.length step i)

/-- The file is one page; or step and page agree, the file is below 2^32 bytes, and its last page
    is not `END`; or it is one page, three bytes longer than the step, and what follows the step
    reads `END`; or, from 2^32 bytes on, it is as long as the pages and reads the same at every
    step as it does at the page. -/
def Paged (step : Nat) (d : Str) : Prop :=
  (d.length ≤ step ∧ d.length ≤ chunkerReadSize ∧ d ≠ str "END") ∨
  (step = chunkerReadSize ∧ d.length < 2 ^ 32 ∧ ¬ (d.length % chunkerReadSize = 3 ∧ str "END" <:+ d)) ∨
  (d.length = step + 3 ∧ d.length ≤ chunkerReadSize ∧ str "END" <:+ d) ∨
  (2 ^ 32 ≤ d.length ∧ d.length = pageCount step (unsignedSize d.length) * chunkerReadSize ∧
    ∀ i < pageCount step (unsignedSize d.length),
      page chunkerReadSize d (i * step) = page chunkerReadSize d (i * chunkerReadSize))

theorem chunkerReadSize_eq : chunkerReadSize = 98304 := rfl

theorem length_end : (str "END").length = 3 := by decide

/-- A page that reads `END` is the last three bytes. -/
theorem page_end_iff {o : Nat} : page chunkerReadSize d o = str "END" ↔ d.length = o + 3 ∧ str "END" <:+ d := by
  have hlen := length_page chunkerReadSize d o
  constructor
  · intro h
    rw [h, length_end, chunkerReadSize_eq] at hlen
    have hsize : d.length = o + 3 := by omega
    rw [page_of_le (by rw [chunkerReadSize_eq]; omega)] at h
    exact ⟨hsize, h ▸ List.drop_suffix o d⟩
  · intro ⟨hsize, p, hp⟩
    have ho : p.length = o := by
      have := congrArg List.length hp
      rw [List.length_append, length_end] at this
      omega
    rw [page_of_le (by rw [chunkerReadSize_eq]; omega), ← hp, ← ho, List.drop_left]

/-- Up to a page that reads `END`. -/
theorem takeWhile_pagesFrom {step n k o : Nat} (hk : k ≤ n)
    (hno : ∀ i < k, page chunkerReadSize d (o + i * step) ≠ str "END")
    (hend : k < n → page chunkerReadSize d (o + k * step) = str "END") :
    (pagesFrom step chunkerReadSize d n o).takeWhile (· ≠ str "END") = pagesFrom step chunkerReadSize d k o := by
  have hbefore : ∀ p ∈ pagesFrom step chunkerReadSize d k o, decide (p ≠ str "END") = true := by
    intro p hp
    obtain ⟨i, hi, rfl⟩ := mem_pagesFrom.mp hp
    exact decide_eq_true (hno i hi)
  obtain ⟨m, rfl⟩ := Nat.exists_eq_add_of_le hk
  rw [Nat.add_comm k m, Nat.add_comm m k, pagesFrom_append, List.takeWhile_append_of_pos hbefore]
  rcases m with _ | m
  · exact List.append_nil _
  · rw [pagesFrom, hend (by omega), List.takeWhile_cons_of_neg (by simp), List.append_nil]

theorem shown_self {step : Nat} (h : ∀ i < pageCount step (unsignedSize d.length),
    page chunkerReadSize d (i * step) ≠ str "END") :
    shown step d = pagesFrom step chunkerReadSize d (pageCount step (unsignedSize d.length)) 0 :=
  takeWhile_pagesFrom (Nat.le_refl _) (fun i hi => by rw [Nat.zero_add]; exact h i hi)
    fun hlt => absurd hlt (Nat.lt_irrefl _)

theorem shown_until {step k : Nat} (hk : k < pageCount step (unsignedSize d.length))
    (hend : page chunkerReadSize d (k * step) = str "END")
    (h : ∀ i < k, page chunkerReadSize d (i * step) ≠ str "END") :
    shown step d = pagesFrom step chunkerReadSize d k 0 :=
  takeWhile_pagesFrom (Nat.le_of_lt hk) (fun i hi => by rw [Nat.zero_add]; exact h i hi)
    fun _ => by rw [Nat.zero_add]; exact hend

theorem length_shown_le (step : Nat) : (shown step d).flatten.length ≤
    (pagesFrom step chunkerReadSize d (pageCount step (unsignedSize d.length)) 0).flatten.length := by
  have hsplit := congrArg (fun l => l.flatten.length) (List.takeWhile_append_dropWhile (p := fun p => decide (p ≠ str "END"))
    (l := pagesFrom step chunkerReadSize d (pageCount step (unsignedSize d.length)) 0))
  simp only [List.flatten_append, List.length_append] at hsplit
  rw [shown]
  omega

/-- A file below the step is one page, for the manager. -/
theorem pageCount_one {step size : Nat} (h : size ≤ step) : pageCount step size = 1 := by
  rw [pageCount]
  rcases Nat.eq_zero_or_pos step with rfl | hpos
  · simp
  · have : (size + step - 1) / step ≤ 1 := by
      rw [Nat.div_le_iff_le_mul hpos]
      omega
    omega

theorem unsignedSize_of_lt {size : Nat} (h : size < 2 ^ 32) : unsignedSize size = size := Nat.mod_eq_of_lt h

/-- One page. -/
theorem shown_one {step : Nat} (h1 : d.length ≤ step) (h2 : d.length ≤ chunkerReadSize) (hne : d ≠ str "END") :
    (shown step d).flatten = d := by
  have hsize : unsignedSize d.length = d.length := unsignedSize_of_lt (by rw [chunkerReadSize_eq] at h2; omega)
  have hpage : page chunkerReadSize d 0 = d := by
    rw [page_of_le (by omega)]
    rfl
  rw [shown, hsize, pageCount_one h1]
  simp [pagesFrom, hpage, hne]

theorem shown_of_paged {step : Nat} (hs : 3 < step) (h : Paged step d) : (shown step d).flatten = d := by
  have hR := chunkerReadSize_eq
  rcases h with ⟨h1, h2, hne⟩ | ⟨rfl, hlt, hend⟩ | ⟨hsize, hle, hend⟩ | ⟨hge, hlen, hsame⟩
  · exact shown_one h1 h2 hne
  · obtain ⟨n, hn, hlast, hle⟩ := pageCount_bounds chunkerReadSize (by decide) (unsignedSize d.length)
    have hno : ∀ i < pageCount chunkerReadSize (unsignedSize d.length),
        page chunkerReadSize d (i * chunkerReadSize) ≠ str "END" := by
      intro i _ hi
      obtain ⟨h1, h2⟩ := page_end_iff.mp hi
      refine hend ⟨?_, h2⟩
      rw [h1, Nat.add_comm, Nat.add_mul_mod_self_right]
      rfl
    rw [shown_self hno, flatten_pagesFrom_self, List.drop_zero, hn, List.take_of_length_le]
    rw [unsignedSize_of_lt hlt] at hle
    exact hle
  · have hunsigned : unsignedSize d.length = d.length := unsignedSize_of_lt (by omega)
    have hcount : pageCount step (unsignedSize d.length) = 2 := by
      have : (step + 3 + step - 1) / step = 2 := by
        rw [show step + 3 + step - 1 = 2 + 2 * step by omega, Nat.add_mul_div_right _ _ (by omega),
          Nat.div_eq_of_lt (by omega)]
      rw [hunsigned, pageCount, hsize, this]
      rfl
    have hfirst : page chunkerReadSize d 0 = d := by
      rw [page_of_le (by omega)]
      rfl
    rw [shown_until (k := 1) (by omega) (page_end_iff.mpr ⟨by omega, hend⟩)]
    · simp [pagesFrom, hfirst]
    · intro i hi he
      have := (page_end_iff.mp he).1
      rw [show i = 0 by omega] at this
      omega
  · have hfull : ∀ i < pageCount step (unsignedSize d.length),
        (page chunkerReadSize d (i * step)).length = chunkerReadSize := by
      intro i hi
      have hmul : (i + 1) * chunkerReadSize ≤ pageCount step (unsignedSize d.length) * chunkerReadSize :=
        Nat.mul_le_mul_right _ hi
      rw [Nat.succ_mul] at hmul
      rw [hsame i hi, length_page]
      omega
    have hno : ∀ i < pageCount step (unsignedSize d.length), page chunkerReadSize d (i * step) ≠ str "END" := by
      intro i hi he
      have := hfull i hi
      rw [he, length_end, hR] at this
      omega
    have hpages : pagesFrom step chunkerReadSize d (pageCount step (unsignedSize d.length)) 0 =
        pagesFrom chunkerReadSize chunkerReadSize d (pageCount step (unsignedSize d.length)) 0 := by
      refine List.ext_getElem? fun i => ?_
      by_cases hi : i < pageCount step (unsignedSize d.length)
      · rw [getElem?_pagesFrom hi, getElem?_pagesFrom hi, Nat.zero_add, Nat.zero_add, hsame i hi]
      · rw [List.getElem?_eq_none (by rw [length_pagesFrom]; omega), List.getElem?_eq_none (by rw [length_pagesFrom]; omega)]
    rw [shown_self hno, hpages, flatten_pagesFrom_self, List.drop_zero, ← hlen, List.take_length]

/-- A file of one page that comes back. -/
theorem ne_end_of_shown {step : Nat} (h1 : d.length ≤ step) (h : (shown step d).flatten = d) : d ≠ str "END" := by
  intro e
  subst e
  have hsize : unsignedSize (str "END").length ≤ step := Nat.le_trans (Nat.mod_le _ _) h1
  rw [shown, pageCount_one hsize] at h
  have hpage : page chunkerReadSize (str "END") 0 = str "END" := page_end_iff.mpr ⟨by decide, List.suffix_refl _⟩
  simp only [pagesFrom, hpage] at h
  exact absurd h (by decide)

/-- From 2^32 bytes on, the pages stop short of the end. -/
theorem pages_short {step n : Nat} (hge : 2 ^ 32 ≤ d.length) (hlast : n = 0 ∨ n * step < unsignedSize d.length) :
    0 + n * step + chunkerReadSize ≤ d.length := by
  have hmod := Nat.div_add_mod d.length (2 ^ 32)
  have hpos : 1 ≤ d.length / 2 ^ 32 := (Nat.one_le_div_iff (by decide)).mpr hge
  rw [unsignedSize] at hlast
  rw [chunkerReadSize_eq]
  rcases hlast with rfl | hlast
  · omega
  · omega

/-- Step and page agree. -/
theorem paged_of_same (h : (shown chunkerReadSize d).flatten = d) : Paged chunkerReadSize d := by
  have hR := chunkerReadSize_eq
  obtain ⟨n, hn, hlast, hle⟩ := pageCount_bounds chunkerReadSize (by decide) (unsignedSize d.length)
  by_cases hlt : d.length < 2 ^ 32
  · refine Or.inr (Or.inl ⟨rfl, hlt, fun ⟨hmod, hend⟩ => ?_⟩)
    rw [unsignedSize_of_lt hlt] at hlast hle
    have hsize : d.length = n * chunkerReadSize + 3 := by
      have hdiv := Nat.div_add_mod d.length chunkerReadSize
      rw [Nat.mul_comm] at hdiv
      have hq : d.length / chunkerReadSize = n := by
        refine Nat.div_eq_of_lt_le ?_ ?_
        · rcases hlast with rfl | hlast
          · omega
          · omega
        · rcases Nat.lt_or_eq_of_le hle with hlt' | heq
          · exact hlt'
          · rw [heq, Nat.mul_mod_left] at hmod
            omega
      rw [hq] at hdiv
      omega
    have hbefore : ∀ i < n, page chunkerReadSize d (i * chunkerReadSize) ≠ str "END" := by
      intro i hi he
      have hsize' := (page_end_iff.mp he).1
      have hmul : (i + 1) * chunkerReadSize ≤ n * chunkerReadSize := Nat.mul_le_mul_right _ hi
      rw [Nat.succ_mul] at hmul
      omega
    rw [shown_until (by omega) (page_end_iff.mpr ⟨hsize, hend⟩) hbefore, flatten_pagesFrom_self] at h
    have := congrArg List.length h
    rw [List.length_take, List.drop_zero] at this
    omega
  · have hshort := pages_short (Nat.le_of_not_lt hlt) hlast
    have hlen := congrArg List.length h
    have hle' := length_shown_le (d := d) chunkerReadSize
    rw [hn, flatten_pagesFrom_self, List.length_take, Nat.succ_mul] at hle'
    have hmod := Nat.div_add_mod d.length (2 ^ 32)
    have hpos : 1 ≤ d.length / 2 ^ 32 := (Nat.one_le_div_iff (by decide)).mpr (Nat.le_of_not_lt hlt)
    rw [unsignedSize] at hlast
    rcases hlast with rfl | hlast
    · omega
    · omega

/-- The step is wider than the page: what lies between them is lost. -/
theorem paged_of_wider {step : Nat} (hs : chunkerReadSize < step) (h : (shown step d).flatten = d) : Paged step d := by
  by_cases hle : d.length ≤ chunkerReadSize
  · exact Or.inl ⟨by omega, hle, ne_end_of_shown (by omega) h⟩
  · exfalso
    obtain ⟨n, hn, -, -⟩ := pageCount_bounds step (by omega) (unsignedSize d.length)
    have hlen := congrArg List.length h
    have hshown := length_shown_le (d := d) step
    have hrest := length_flatten_le step chunkerReadSize d (Nat.le_of_lt hs) n (0 + step)
    rw [hn, pagesFrom, List.flatten_cons, List.length_append, length_page] at hshown
    omega

/-- The step is narrower than the page, and a file below 2^32 bytes has more than one page: some
    bytes come twice, unless the second page is taken for the end. -/
theorem paged_of_narrower {step : Nat} (hs : 3 < step) (hR : step < chunkerReadSize) (hlt : d.length < 2 ^ 32)
    (hmore : step < d.length) (h : (shown step d).flatten = d) : Paged step d := by
  have hlen := congrArg List.length h
  obtain ⟨n, hn, hlast, hle⟩ := pageCount_bounds step (by omega) (unsignedSize d.length)
  rw [unsignedSize_of_lt hlt] at hlast hle
  by_cases hend : str "END" <:+ d ∧ ∃ k < n + 1, d.length = k * step + 3
  · obtain ⟨hend, k, hk, hsize⟩ := hend
    have hbefore : ∀ i < k, page chunkerReadSize d (i * step) ≠ str "END" := by
      intro i hi he
      have hsize' := (page_end_iff.mp he).1
      have hmul : (i + 1) * step ≤ k * step := Nat.mul_le_mul_right _ hi
      rw [Nat.succ_mul] at hmul
      omega
    rw [shown_until (by omega) (page_end_iff.mpr ⟨hsize, hend⟩) hbefore] at h hlen
    rcases k with _ | _ | k
    · omega
    · -- Only the first page is shown, and it is the file.
      simp only [pagesFrom, List.flatten_cons, List.flatten_nil, List.append_nil, length_page] at hlen
      exact Or.inr (Or.inr (Or.inl ⟨by omega, by omega, hend⟩))
    · exfalso
      rw [Nat.succ_mul] at hsize
      by_cases hroom : step + 3 ≤ chunkerReadSize
      · have hrest := le_length_flatten step chunkerReadSize d (Nat.le_of_lt hR) k (0 + step)
          (by rw [Nat.succ_mul] at hsize; omega)
        rw [pagesFrom, List.flatten_cons, List.length_append, length_page] at hlen
        omega
      · -- The pages shown are full, so there are three of them, one byte wider than the step; the last
        -- one ends three bytes before the file does.
        have hfull := length_flatten_full step chunkerReadSize d (k + 1) 0 (by omega)
        have hpage := page_flatten_full step chunkerReadSize d (k + 1) 0 (k + 1) (by omega)
          (by omega)
        rw [h] at hfull hpage
        have hthree : k = 1 ∧ chunkerReadSize = step + 1 := by
          obtain ⟨g, hg⟩ : ∃ g, chunkerReadSize = step + g := ⟨chunkerReadSize - step, by omega⟩
          rw [hg, Nat.mul_add] at hfull
          have : (k + 1 + 1) * g = 3 := by
            rw [Nat.succ_mul] at hfull
            omega
          rcases g with _ | _ | _ | g
          all_goals omega
        obtain ⟨rfl, hwidth⟩ := hthree
        obtain ⟨p, rfl⟩ := hend
        have hp : p.length = 3 * step := by
          rw [List.length_append, length_end] at hsize
          omega
        have hget := congrArg (fun l => l[step]?) hpage
        simp only [page, List.getElem?_take, List.getElem?_drop] at hget
        rw [if_pos (by omega), if_pos (by omega), hwidth, List.getElem?_append_right (by omega),
          List.getElem?_append_right (by omega), hp] at hget
        rw [show (1 + 1) * (step + 1) + step - 3 * step = 2 by omega,
          show 0 + (1 + 1) * step + step - 3 * step = 0 by omega] at hget
        exact absurd hget (by decide)
  · exfalso
    have hno : ∀ i < pageCount step (unsignedSize d.length), page chunkerReadSize d (i * step) ≠ str "END" := by
      intro i hi he
      obtain ⟨h1, h2⟩ := page_end_iff.mp he
      exact hend ⟨h2, i, by omega, h1⟩
    rcases n with _ | n
    · omega
    have hrest := le_length_flatten step chunkerReadSize d (Nat.le_of_lt hR) n (0 + step) (by
      rw [Nat.succ_mul] at hle
      rw [Nat.succ_mul] at hle
      omega)
    rw [shown_self hno, hn, pagesFrom, List.flatten_cons, List.length_append, length_page] at hlen
    omega

/-- From 2^32 bytes on, the pages are all full, and there are as many as make up the file. -/
theorem paged_of_large {step : Nat} (hs : 0 < step) (hge : 2 ^ 32 ≤ d.length) (h : (shown step d).flatten = d) :
    Paged step d := by
  obtain ⟨n, hn, hlast, -⟩ := pageCount_bounds step hs (unsignedSize d.length)
  have hshort := pages_short hge hlast
  have hno : ∀ i < pageCount step (unsignedSize d.length), page chunkerReadSize d (i * step) ≠ str "END" := by
    intro i hi he
    have hsize := (page_end_iff.mp he).1
    have hmul : i * step ≤ n * step := Nat.mul_le_mul_right _ (by omega)
    rw [chunkerReadSize_eq] at hshort
    omega
  rw [shown_self hno, hn] at h
  have hfull := length_flatten_full step chunkerReadSize d n 0 hshort
  rw [h] at hfull
  refine Or.inr (Or.inr (Or.inr ⟨hge, by rw [hn, ← hfull], fun i hi => ?_⟩))
  have hpage := page_flatten_full step chunkerReadSize d n 0 i hshort (by omega)
  rw [h, Nat.zero_add] at hpage
  exact hpage.symm

theorem shown_iff {step : Nat} (hs : 3 < step) : (shown step d).flatten = d ↔ Paged step d := by
  refine ⟨fun h => ?_, shown_of_paged hs⟩
  rcases Nat.lt_trichotomy step chunkerReadSize with hlt | rfl | hgt
  · by_cases hge : 2 ^ 32 ≤ d.length
    · exact paged_of_large (by omega) hge h
    by_cases hmore : step < d.length
    · exact paged_of_narrower hs hlt (by omega) hmore h
    · exact Or.inl ⟨by omega, by omega, ne_end_of_shown (by omega) h⟩
  · exact paged_of_same h
  · exact paged_of_wider hgt h

/-- Only the last page can read `END`. -/
theorem later_eq {step : Nat} (hs : 3 < step) :
    later step d = pagesFrom step chunkerReadSize d (laterCount step d) step := by
  obtain ⟨n, hn, hlast, -⟩ := pageCount_bounds step (by omega) (unsignedSize d.length)
  have hend : ∀ i < n, page chunkerReadSize d (step + i * step) = str "END" ↔
      i + 1 = n ∧ d.length = n * step + 3 ∧ str "END" <:+ d := by
    intro i hi
    have hplace : step + i * step = (i + 1) * step := by rw [Nat.succ_mul, Nat.add_comm]
    rw [page_end_iff, hplace]
    constructor
    · rintro ⟨hsize, hsuffix⟩
      have heq : i + 1 = n := by
        by_contra hne
        have hmul : (i + 1 + 1) * step ≤ n * step := Nat.mul_le_mul_right _ (by omega)
        rw [Nat.succ_mul] at hmul
        by_cases hlt : d.length < 2 ^ 32
        · rw [unsignedSize_of_lt hlt] at hlast
          omega
        · have hshort := pages_short (Nat.le_of_not_lt hlt) hlast
          omega
      exact ⟨heq, heq ▸ hsize, hsuffix⟩
    · rintro ⟨rfl, hsize, hsuffix⟩
      exact ⟨hsize, hsuffix⟩
  rw [later, laterCount, hn, Nat.add_sub_cancel]
  split
  · rename_i h
    refine takeWhile_pagesFrom (Nat.sub_le n 1) (fun i hi he => ?_) fun hlt => (hend _ hlt).mpr ⟨by omega, h⟩
    have := ((hend i (by omega)).mp he).1
    omega
  · rename_i h
    exact takeWhile_pagesFrom (Nat.le_refl n) (fun i hi he => h ((hend i hi).mp he).2) fun hlt => absurd hlt (Nat.lt_irrefl n)

theorem later_iff {step : Nat} (hs : 3 < step) : (later step d).flatten = d ↔ Skipped step d := by
  have hone : unsignedSize d.length ≤ step → later step d = [] := fun h => by
    rw [later, pageCount_one h]
    rfl
  constructor
  · intro h
    by_cases hd : d = []
    · exact Or.inl hd
    have hpos : 0 < d.length := List.length_pos_iff.mpr hd
    have hmore : step < unsignedSize d.length := by
      by_contra hle
      rw [hone (by omega)] at h
      exact hd h.symm
    rw [later_eq hs] at h
    refine Or.inr ⟨?_, hmore, (flatten_pagesFrom_iff _ _ _ _ _ _).mp h⟩
    -- a step that is not narrower gives no byte of the first page
    by_contra hwide
    have hlen := congrArg List.length h
    have hrest := length_flatten_le step chunkerReadSize d (by omega) (laterCount step d) step
    omega
  · rintro (rfl | ⟨-, -, h⟩)
    · rw [hone (Nat.zero_le _)]
      rfl
    · rw [later_eq hs]
      exact (flatten_pagesFrom_iff _ _ _ _ _ _).mpr h

/-! ## Replies that are misread -/

/-- What the client reads when the offset is not in its place: always the same. -/
def misread (pd : ProcessData) (d : Str) : Str :=
  if (fieldsBefore pd).length < 4 then [] else freadAt d (strtol 10 (StrProc.get (fieldsBefore pd) 4)).toNat

theorem At.getChunk_misread (h : At token w d pd) (he : Entered pd token) (hne : ¬ Intact pd)
    (hpos : 4 < (fieldsBefore pd).length → 0 ≤ strtol 10 (StrProc.get (fieldsBefore pd) 4)) :
    ∃ r w' pd', Paging.getChunk token chunkSize pd.user w = some (r, w') ∧ (r = [] ∨ r = misread pd d) ∧
      At token w' d pd' ∧ SameTexts pd' pd := by
  obtain ⟨w', hw', -, hget⟩ := h.getChunk chunkSize he
  have htexts := after_texts chunkSize d.length pd.atNext
  have hnext := atNext_texts pd
  have hsame : SameTexts (after chunkSize d.length pd.atNext) pd := ⟨htexts.start.trans hnext.start,
    htexts.command.trans hnext.command, htexts.token.trans hnext.token, htexts.user.trans hnext.user⟩
  have h4 : (fieldsBefore pd).length ≠ 4 := hne
  rw [posRead, hnext.fieldsBefore] at hget
  by_cases hlt : (fieldsBefore pd).length < 4
  · simp only [hlt, if_true] at hget
    exact ⟨[], w', _, hget, Or.inl rfl, hw', hsame⟩
  · simp only [hlt, h4, if_false] at hget
    obtain ⟨w'', hw'', hread⟩ := hw'.chunkFrom (hpos (by omega))
    refine ⟨_, w'', _, hget.trans hread, ?_, hw'', hsame⟩
    rw [misread, if_neg hlt]
    split
    · exact Or.inl rfl
    · exact Or.inr rfl

/-- The calls do not come to an end, unless what is always read is taken for it; they return
    nothing then. -/
theorem untilEnd_misread (he : Entered pd token) (hne : ¬ Intact pd)
    (hpos : 4 < (fieldsBefore pd).length → 0 ≤ strtol 10 (StrProc.get (fieldsBefore pd) 4)) :
    ∀ {n : Nat} {w : World} {e : ProcessData} {bodies : List Str}, At token w d e → SameTexts e pd →
      untilEnd token chunkSize pd.user n w = some bodies → misread pd d = str "END" ∧ bodies.flatten = [] := by
  intro n
  induction n with
  | zero => intro w e bodies _ _ h; cases h
  | succ n ih =>
    intro w e bodies hat htexts h
    have hfields := htexts.fieldsBefore
    have hsame : misread e d = misread pd d := by rw [misread, misread, hfields]
    obtain ⟨r, w', e', hget, hr, hat', htexts'⟩ := hat.getChunk_misread chunkSize (htexts.entered he)
      (by rw [Intact, hfields]; exact hne) (by rw [hfields]; exact hpos)
    rw [hsame] at hr
    rw [untilEnd, ← htexts.user, hget, Option.bind_some] at h
    by_cases hend : r = str "END"
    · simp only [hend, if_true, Option.some.injEq] at h
      subst h
      exact ⟨(hr.resolve_left (by rw [hend]; decide)).symm.trans hend, rfl⟩
    · simp only [hend, if_false] at h
      obtain ⟨rest, hrest, rfl⟩ := Option.map_eq_some_iff.mp h
      rw [htexts.user] at hrest
      obtain ⟨hmisread, hflat⟩ := ih hat' ⟨htexts'.start.trans htexts.start, htexts'.command.trans htexts.command,
        htexts'.token.trans htexts.token, htexts'.user.trans htexts.user⟩ hrest
      obtain rfl : r = [] := hr.resolve_right fun h => hend (h.trans hmisread)
      exact ⟨hmisread, hflat⟩

theorem misread_nil (pd : ProcessData) : misread pd [] = [] := by
  unfold misread
  split
  · rfl
  · simp [freadAt, page, cstr]

/-! ## Every chunk size, file and entry -/

/-- The pages of a new entry whose offset is in its place. -/
theorem untilEnd_intact (hc : 3 < chunkSize.toNat) (hc' : chunkSize.toNat ≤ 131072) (h : Running token w d pd 0)
    (h0 : (0 : UInt8) ∉ d) : untilEnd token chunkSize pd.user (pageCount chunkSize.toNat (unsignedSize d.length) + 1) w =
      some (if w.errno 0 = Server.einval then [] :: later chunkSize.toNat d else shown chunkSize.toNat d) := by
  obtain ⟨n, hn, hlast, hle⟩ := pageCount_bounds chunkSize.toNat (by omega) (unsignedSize d.length)
  have hchunks := h.getChunks chunkSize h0 hc' n (by omega) (by omega) (by decide)
  have hlen : ((if givenUp w (0 : Nat) then [] else page chunkerReadSize d 0) ::
      pagesFrom chunkSize.toNat chunkerReadSize d n (0 + chunkSize.toNat)).length = n + 1 := by
    rw [List.length_cons, length_pagesFrom]
  have hend := untilEnd_of_getChunks (by rw [hlen]; exact hchunks)
  rw [hlen] at hend
  rw [hn, hend]
  by_cases he : w.errno 0 = Server.einval
  · rw [if_pos he, if_pos ⟨rfl, he⟩, List.takeWhile_cons_of_pos (by decide), later, hn, Nat.zero_add]
    rfl
  · rw [if_neg he, if_neg fun hg => he hg.2, shown, hn]
    rfl

theorem untilEnd_iff (hc : 3 < chunkSize.toNat) (hc' : chunkSize.toNat ≤ 131072) (h : At token w d pd)
    (he : Entered pd token) (hnew : pd.readOffset = 0) (hrun : pd.status = .running) (h0 : (0 : UInt8) ∉ d) :
    (∃ calls bodies, untilEnd token chunkSize pd.user calls w = some bodies ∧ bodies.flatten = d) ↔
      Intact pd ∧ (if w.errno 0 = Server.einval then Skipped chunkSize.toNat d else Paged chunkSize.toNat d) ∨
      4 < (fieldsBefore pd).length ∧ strtol 10 (StrProc.get (fieldsBefore pd) 4) < 0 ∧ d = [] := by
  by_cases hintact : Intact pd
  · have h4 : (fieldsBefore pd).length = 4 := hintact
    have hend := untilEnd_intact chunkSize hc hc' ⟨h, he, hintact, hrun, by rw [hnew]; rfl⟩ h0
    have hpages : (if w.errno 0 = Server.einval then [] :: later chunkSize.toNat d else shown chunkSize.toNat d).flatten = d ↔
        if w.errno 0 = Server.einval then Skipped chunkSize.toNat d else Paged chunkSize.toNat d := by
      split
      · exact later_iff (by omega)
      · exact shown_iff hc
    constructor
    · rintro ⟨calls, bodies, hcalls, hflat⟩
      rw [untilEnd_unique hcalls hend] at hflat
      exact Or.inl ⟨hintact, hpages.mp hflat⟩
    · rintro (⟨-, hflat⟩ | ⟨hlt, -⟩)
      · exact ⟨_, _, hend, hpages.mpr hflat⟩
      · omega
  by_cases hneg : 4 < (fieldsBefore pd).length ∧ strtol 10 (StrProc.get (fieldsBefore pd) 4) < 0
  · -- The first call finds the end.
    obtain ⟨w', hw', -, hget⟩ := h.getChunk chunkSize he
    have hread : posRead pd.atNext = some (strtol 10 (StrProc.get (fieldsBefore pd.atNext) 4)) :=
      posRead_misread (by rw [(atNext_texts pd).fieldsBefore]; exact hneg.1)
    rw [hread, (atNext_texts pd).fieldsBefore] at hget
    obtain ⟨w'', hend⟩ := hw'.chunkFrom_end hneg.2
    have hone : untilEnd token chunkSize pd.user 1 w = some [] := by
      rw [untilEnd, hget.trans hend, Option.bind_some, if_pos rfl]
    constructor
    · rintro ⟨calls, bodies, hcalls, rfl⟩
      rw [untilEnd_unique hcalls hone]
      exact Or.inr ⟨hneg.1, hneg.2, rfl⟩
    · rintro (⟨hi, -⟩ | ⟨-, -, rfl⟩)
      · exact absurd hi hintact
      · exact ⟨1, [], hone, rfl⟩
  · constructor
    · rintro ⟨calls, bodies, hcalls, hflat⟩
      exfalso
      have hpos : 4 < (fieldsBefore pd).length → 0 ≤ strtol 10 (StrProc.get (fieldsBefore pd) 4) := fun h5 =>
        Int.not_lt.mp fun hlt => hneg ⟨h5, hlt⟩
      obtain ⟨hread, hnil⟩ := untilEnd_misread chunkSize he hintact hpos h ⟨rfl, rfl, rfl, rfl⟩ hcalls
      rw [← hflat, hnil, misread_nil] at hread
      exact absurd hread (by decide)
    · rintro (⟨hi, -⟩ | ⟨h1, h2, -⟩)
      · exact absurd hi hintact
      · exact absurd ⟨h1, h2⟩ hneg

/-- The pages of a new entry of a command that has finished. With a chunk size from the command
    line, they are the file exactly when step and page fit it; or, where the texts of the entry
    put a negative number in the place of the offset, when there is no output. -/
theorem paging_exact_iff (optarg : Str) {token : Str} {w : World} {d : Str} {pd : ProcessData} (h : At token w d pd)
    (he : Entered pd token) (hnew : pd.readOffset = 0) (hrun : pd.status = .running) (h0 : (0 : UInt8) ∉ d) :
    (∃ calls bodies, untilEnd token (sizeOption optarg) pd.user calls w = some bodies ∧ bodies.flatten = d) ↔
      Intact pd ∧ (if w.errno 0 = Server.einval then Skipped (sizeOption optarg).toNat d
        else Paged (sizeOption optarg).toNat d) ∨
      4 < (fieldsBefore pd).length ∧ strtol 10 (StrProc.get (fieldsBefore pd) 4) < 0 ∧ d = [] := by
  have hrange := sizeOption_range optarg
  exact untilEnd_iff _ (by omega) hrange.2 h he hnew hrun h0

/-- `show version` of the user `vyatta`, finished with an output. -/
def finished (d : Str) : World where
  table := OrdMap.empty.insert (str "0123456789ABCDEF")
    { startTime := 1568000000, lastUpdate := 1568000000, command := str "show 'version'"
      token := str "0123456789ABCDEF", user := str "vyatta", readOffset := 0, status := .running }
  data := some d
  ended := true
  reply := []
  errno := fun _ => 0

theorem finished_at (d : Str) : ∃ pd, At (str "0123456789ABCDEF") (finished d) d pd ∧
    Entered pd (str "0123456789ABCDEF") ∧ Intact pd ∧ pd.user = str "vyatta" ∧ pd.readOffset = 0 ∧ pd.status = .running :=
  ⟨_, ⟨rfl, rfl, rfl⟩, ⟨⟨rfl, by decide, by decide, by decide, by decide⟩, by decide, by decide, by decide⟩,
    by decide, rfl, rfl, rfl⟩

theorem a_short_output_is_one_page : ∃ calls bodies, untilEnd (str "0123456789ABCDEF") (sizeOption (str "1024"))
    (str "vyatta") calls (finished (str "Version")) = some bodies ∧ bodies.flatten = str "Version" := by
  obtain ⟨pd, hat, he, hintact, huser, hnew, hrun⟩ := finished_at (str "Version")
  rw [← huser]
  refine (paging_exact_iff (str "1024") hat he hnew hrun (by decide)).mpr (Or.inl ⟨hintact, Or.inl ⟨?_, ?_, ?_⟩⟩)
  all_goals decide

theorem an_output_is_drained : ∃ bodies, getChunks (str "0123456789ABCDEF") (UInt64.ofNat chunkerReadSize)
    (str "vyatta") 2 (finished (str "Version")) = some (bodies ++ [str "END"]) ∧ bodies.flatten = str "Version" := by
  obtain ⟨pd, hat, he, hintact, huser, hnew, hrun⟩ := finished_at (str "Version")
  obtain ⟨bodies, hchunks, -, -, -, hflat⟩ :=
    draining_is_exact hat he hintact hrun (by decide) (by decide) (by rw [hnew]; decide) (by decide)
  have hcount : pageCount chunkerReadSize ((str "Version").length - (0 : UInt64).toNat) = 1 := by decide
  rw [hnew, huser, hcount] at hchunks
  rw [hnew] at hflat
  exact ⟨bodies, hchunks, hflat⟩

/-- Every page but the last begins with what the one before it ended with. -/
theorem a_small_chunk_size_repeats :
    let d : Str := List.replicate 2048 97
    (∃ bodies, untilEnd (str "0123456789ABCDEF") (sizeOption (str "1024")) (str "vyatta") 3 (finished d) = some bodies ∧
      bodies.flatten.length = 3072) ∧
    ¬ ∃ calls bodies, untilEnd (str "0123456789ABCDEF") (sizeOption (str "1024")) (str "vyatta") calls (finished d) =
      some bodies ∧ bodies.flatten = d := by
  intro d
  have hc : (sizeOption (str "1024")).toNat = 1024 := by decide
  have hlen : d.length = 2048 := List.length_replicate
  have h0 : (0 : UInt8) ∉ d := by
    intro h
    exact absurd (List.eq_of_mem_replicate h) (by decide)
  obtain ⟨pd, hat, he, hintact, huser, hnew, hrun⟩ := finished_at d
  have hshown : untilEnd (str "0123456789ABCDEF") (sizeOption (str "1024")) (str "vyatta") 3 (finished d) =
      some (shown 1024 d) := by
    have hend := untilEnd_intact (sizeOption (str "1024")) (by omega) (by omega)
      ⟨hat, he, hintact, hrun, by rw [hnew]; rfl⟩ h0
    rw [huser, hc, hlen] at hend
    exact hend
  have hpages : shown 1024 d = [d, d.drop 1024] := by
    have hno : ∀ i < pageCount 1024 (unsignedSize d.length), page chunkerReadSize d (i * 1024) ≠ str "END" := by
      intro i hi he
      have := (page_end_iff.mp he).1
      omega
    have hcount : pageCount 1024 (unsignedSize 2048) = 2 := by decide
    rw [shown_self hno, hlen, hcount, pagesFrom, pagesFrom, pagesFrom, Nat.zero_add,
      page_of_le (by rw [hlen, chunkerReadSize_eq]; omega), page_of_le (by rw [hlen, chunkerReadSize_eq]; omega)]
    rfl
  have htotal : (shown 1024 d).flatten.length = 3072 := by
    rw [hpages]
    simp only [List.flatten_cons, List.flatten_nil, List.append_nil, List.length_append, List.length_drop, hlen]
  refine ⟨⟨_, hshown, htotal⟩, ?_⟩
  rintro ⟨calls, bodies, hcalls, hflat⟩
  rw [untilEnd_unique hcalls hshown] at hflat
  rw [hflat, hlen] at htotal
  exact absurd htotal (by decide)

end VyattaRest.Paging
