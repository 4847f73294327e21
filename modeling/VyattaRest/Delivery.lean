/-
  VyattaRest.Delivery — the output of a background command on its way to the REST client.

  Three parties share the data file of a token and its end marker. The processor appends
  blocks and then creates the marker (`ChunkerProcessor::reader`, chunker2_processor.cc). The
  manager answers `<next>` with the offset it has, looks at the size of the file and sets the
  offset for the next time (`nextEntry`). The client reads a chunk from the offset it was
  told, or finds the end (`chunkFrom`); it gives an offset of 0 up when `errno` says `EINVAL`,
  as some call before may have left it. Manager and client are run as the programs they are,
  one call at a time, and the processor may take a step before each of them.

  The manager moves the offset to the size it saw, and the client reads what is there later.
  - `delivery_is_exact`: if at every read the offset for the next time is where the chunk ends,
    or the entry is dead and the chunk is the last one, if no client that has not found the
    data file then finds the end marker, and if no client gives up an offset the manager has
    left, what was delivered is a prefix of the output, and all of it when the client is told
    `END`.
  - `output_comes_twice_or_not_at_all`: a file that grows between the two looks, one that
    appears between them, and a first poll with a stale `EINVAL`.
-/

import VyattaRest.Chunker.Manager
import VyattaRest.Lib.Machine
import VyattaRest.Server.OpMode

namespace VyattaRest.Delivery

open VyattaRest.Lib VyattaRest.Rest VyattaRest.Chunker VyattaRest.Server.MultiResponseCommand

/-! ## The processor -/

/-- `process_chunk`: what is appended, and what is kept for the next time. -/
def processChunk (text : Str) : Str × Str := (text, [])

/-- `process_chunk_end` appends what stands before the last newline of the rest. -/
def processChunkEnd (text : Str) : Str :=
  if (10 : UInt8) ∈ text then (text.reverse.dropWhile (· ≠ 10)).tail.reverse else text

/-- Reading blocks, with the text kept; about to create the marker; done. -/
inductive Writer where
  | running (kept : Str)
  | closing
  | done
  deriving DecidableEq

/-! ## The system -/

/-- Who has the turn: nobody, the manager with the offset it has put into its reply, or the
    client. -/
inductive Phase where
  | idle
  | manager (pos : Int) (p : Chunker.Act ProcessData)
  | client (p : Server.Act Str)

structure State where
  /-- The data file and the end marker. -/
  data : Option Str
  ended : Bool
  writer : Writer
  /-- The blocks the command has put out. -/
  output : Str
  entry : ProcessData
  /-- Of the server's process. -/
  errno : Int
  phase : Phase
  /-- The chunks that `get_chunk` has returned, and whether it has returned `END`. -/
  got : Str
  sawEnd : Bool

inductive Label where
  | append (block : Str)
  | close
  | mark
  | errno (e : Int)
  | next
  | manager
  | client

def chunkSize : UInt64 := UInt64.ofNat chunkerReadSize

variable (token : Str)

def fileSize (s : State) (file : Str) : Option Nat :=
  if file = chunkFile token then s.data.map List.length
  else if file = endFile token then (if s.ended then some (str "end").length else none)
  else none

/-- What the loop of `fread` reads, of a text without a NUL. -/
def chunkAt (d : Str) (pos : Nat) : Str := (d.drop pos).take chunkerReadSize

def managerCall (s : State) : (c : Chunker.Call) → Option c.Answer
  | .lstat file => some (fileSize token s file)
  | _ => none

def clientCall (s : State) : (c : Server.Call) → Option (c.Answer × State)
  | .lstat file => some ((fileSize token s file).map (·, true), s)
  | .errno => some (s.errno, s)
  | .fread file pos => some (if file = chunkFile token then s.data.map (chunkAt · pos) else none, s)
  | .unlink file =>
    some (true, if file = endFile token then { s with ended := false }
      else if file = chunkFile token then { s with data := none } else s)
  | _ => none

/-- `append` is `fopen(.., "a")` and the write: it creates the file. The size of a file is an
    `off_t`. -/
def step (s : State) : Label → Option State
  | .append block =>
    match s.writer with
    | .running kept =>
      let r := processChunk (kept ++ block)
      if 0 ∉ block ∧ (s.output ++ block).length < 2 ^ 63 then
        some { s with data := some (s.data.getD [] ++ r.1), writer := .running r.2, output := s.output ++ block }
      else none
    | _ => none
  | .close =>
    match s.writer with
    | .running kept => some { s with data := some (s.data.getD [] ++ processChunkEnd kept), writer := .closing }
    | _ => none
  | .mark => if s.writer = .closing then some { s with ended := true, writer := .done } else none
  | .errno e => some { s with errno := e }
  | .next =>
    match s.phase with
    | .idle =>
      let e := s.entry.atNext
      some { s with entry := e, phase := .manager (toSigned e.readOffset) (nextEntry chunkSize token e) }
    | _ => none
  | .manager =>
    match s.phase with
    | .manager pos (.ret e) => some { s with entry := e, phase := .client (chunkFrom token pos) }
    | .manager pos (.call c k) => (managerCall token s c).map fun a => { s with phase := .manager pos (k a) }
    | _ => none
  | .client =>
    match s.phase with
    | .client (.ret r) =>
      if r = str "END" then some { s with phase := .idle, sawEnd := true }
      else some { s with phase := .idle, got := s.got ++ r }
    | .client (.call c k) => (clientCall token s c).map fun r => { r.2 with phase := .client (k r.1) }
    | _ => none

/-- A command that has just been started under the token. -/
def start (user command : Str) (now : UInt64) : State where
  data := none
  ended := false
  writer := .running []
  output := []
  entry := { startTime := now, lastUpdate := now, command, token, user, readOffset := 0, status := .running }
  errno := 0
  phase := .idle
  got := []
  sawEnd := false

/-- The chunk about to be read ends where the next one will start, or, of an entry that is
    dead, at the end of the file; it does not read `END`. A client that looks for the end marker
    of an entry that is not dead, since it has not found the data file, finds none, or there was
    no output. A client that finds `EINVAL` in `errno` will be told the same offset again, or, of
    an entry that is dead, there was no output. -/
def undisturbed (s : State) : Label → Bool
  | .client =>
    match s.phase with
    | .client (.call (.fread _ pos) _) =>
      let d := s.data.getD []
      (if s.entry.status = .dead then d.length ≤ pos + chunkerReadSize
        else s.entry.readOffset.toNat = min d.length (pos + chunkerReadSize)) && chunkAt d pos ≠ str "END"
    | .client (.call .errno _) =>
      s.errno ≠ Server.einval || (if s.entry.status = .dead then s.output = [] else s.entry.readOffset = 0)
    | .client (.call (.lstat file) _) => file ≠ endFile token || s.entry.status = .dead || !s.ended || s.output = []
    | _ => true
  | _ => true

/-! ## The programs, call by call -/

def markProg (e : ProcessData) : Chunker.Act ProcessData :=
  .call (.lstat (endFile token)) fun found =>
    match found with
    | none => .ret e
    | some _ => .ret { e with status := .dead }

theorem nextEntry_eq (c : UInt64) (e : ProcessData) : nextEntry c token e =
    .call (.lstat (chunkFile token)) fun size =>
      match size with
      | none => .ret e
      | some n => if (e.advance c n).2 then markProg token (e.advance c n).1 else .ret (e.advance c n).1 := by
  refine congrArg (Prog.call _) (funext fun size => ?_)
  rcases size with _ | n
  · rfl
  · simp only [Prog.bind]
    obtain ⟨e', atEnd⟩ := e.advance c n
    cases atEnd with
    | false => rfl
    | true =>
      refine congrArg (Prog.call _) (funext fun found => ?_)
      rcases found with _ | _ <;> rfl

def freadProg (pos : Nat) : Server.Act Str := .call (.fread (chunkFile token) pos) fun chunk => .ret (chunk.getD [])

def unlinkDataProg : Server.Act Str := .call (.unlink (chunkFile token)) fun _ => .ret (str "END")

def unlinkProg : Server.Act Str := .call (.unlink (endFile token)) fun _ => unlinkDataProg token

def endProg : Server.Act Str :=
  .call (.lstat (endFile token)) fun found => if found.isSome then unlinkProg token else .ret []

theorem readChunk_eq (pos : Int) : readChunk token pos =
    .call (.lstat (chunkFile token)) fun found =>
      if found.any (·.2) ∧ 0 ≤ pos then freadProg token pos.toNat else endProg token := by
  refine congrArg (Prog.call _) (funext fun found => ?_)
  show (if found.any (·.2) ∧ 0 ≤ pos then _ else _) = _
  split
  · rfl
  · refine congrArg (Prog.call _) (funext fun found => ?_)
    show (if found.isSome = true then _ else _) = _
    split <;> rfl

def errnoProg : Server.Act Str :=
  .call .errno fun e => if e = Server.einval then .ret [] else readChunk token 0

theorem chunkFrom_eq (pos : Int) : chunkFrom token pos = if pos = 0 then errnoProg token else readChunk token pos := by
  unfold chunkFrom
  split
  · rename_i h
    rw [h]
    rfl
  · rfl

/-! ## The invariant -/

/-- What holds whoever has the turn. -/
structure Base (s : State) : Prop where
  data : ∀ d, s.data = some d → d = s.output
  ended : s.ended = true → s.writer = .done
  kept : ∀ k, s.writer = .running k → k = []
  size : s.output.length < 2 ^ 63
  unwritten : s.writer ≠ .done → s.data = none → s.output = []
  sawEnd : s.sawEnd = true → s.writer = .done ∧ s.got = s.output ∧ s.data = none

/-- The entry accounts for a text: it is all the output for one that is dead, and goes as far
    as the offset for one that is not. -/
structure Settled (s : State) (got : Str) : Prop where
  dead : s.entry.status = .dead → s.writer = .done ∧ got = s.output
  live : s.entry.status ≠ .dead → got = s.output.take s.entry.readOffset.toNat ∧
    s.entry.readOffset.toNat ≤ s.output.length ∧ (s.data = none → s.output = [])

/-- The client reads from an offset up to which it has everything. -/
structure Reading (s : State) (pos : Int) : Prop where
  past : pos < 0 → Settled s s.got
  from_pos : 0 ≤ pos → s.got = s.output.take pos.toNat ∧ pos.toNat ≤ s.output.length
  dead : s.entry.status = .dead → s.writer = .done
  missing : s.data = none → Settled s s.got

/-- The end has been found. -/
structure Ending (s : State) : Prop where
  settled : Settled s s.got
  done : s.writer = .done
  all : s.got = s.output
  live : s.entry.status ≠ .dead → s.output = []

/-- What the manager has put into its reply. -/
structure Replied (s : State) (pos : Int) : Prop where
  settled : Settled s s.got
  pos_eq : pos = toSigned s.entry.readOffset
  dead : s.entry.status = .dead → s.entry.readOffset = -1

/-- The entry the manager is about to leave. -/
structure Leaves (s : State) (e : ProcessData) : Prop where
  dead : s.entry.status = .dead → e.status = .dead
  done : e.status = .dead → s.writer = .done

/-- Where the manager or the client is in its program. -/
inductive Turn (s : State) : Prop where
  | idle (h : s.phase = .idle) (hs : Settled s s.got)
  | asked {pos : Int} (h : s.phase = .manager pos (nextEntry chunkSize token s.entry)) (hr : Replied s pos)
  | sized {pos : Int} {e : ProcessData} (h : s.phase = .manager pos (markProg token e)) (hr : Replied s pos)
      (he : Leaves s e) (hdata : s.data ≠ none)
  | decided {pos : Int} {e : ProcessData} (h : s.phase = .manager pos (.ret e)) (hr : Replied s pos)
      (he : Leaves s e) (hnone : s.data = none → e = s.entry)
  | entering (h : s.phase = .client (errnoProg token)) (hr : Reading s 0)
  | reading {pos : Int} (h : s.phase = .client (readChunk token pos)) (hr : Reading s pos)
  | freading {pos : Nat} (h : s.phase = .client (freadProg token pos)) (hr : Reading s pos) (hdata : s.data ≠ none)
  | checking (h : s.phase = .client (endProg token)) (hs : Settled s s.got)
  | unlinking (h : s.phase = .client (unlinkProg token)) (he : Ending s)
  | unlinkingData (h : s.phase = .client (unlinkDataProg token)) (he : Ending s)
  | ending (h : s.phase = .client (.ret (str "END"))) (he : Ending s) (hdata : s.data = none)
  | returning {r : Str} (h : s.phase = .client (.ret r)) (hne : r ≠ str "END") (hs : Settled s (s.got ++ r))

structure Inv (s : State) : Prop where
  base : Base s
  turn : Turn token s

/-! ## Steps of the processor -/

/-- The processor is not done, and the output grows; the data file is there then, unless
    nothing has happened. -/
structure Grows (s s' : State) : Prop where
  phase : s'.phase = s.phase
  entry : s'.entry = s.entry
  got : s'.got = s.got
  running : s.writer ≠ .done
  output : s.output <+: s'.output
  data : s'.data = none → s.data = none ∧ s'.output = s.output

variable {token} {s s' : State}

theorem Settled.grow {got : Str} (h : Settled s got) (hg : Grows s s') : Settled s' got := by
  constructor
  · intro hdead
    exact absurd (h.dead (hg.entry ▸ hdead)).1 hg.running
  · intro hlive
    rw [hg.entry] at hlive ⊢
    obtain ⟨hgot, hle, hnone⟩ := h.live hlive
    obtain ⟨r, hr⟩ := hg.output
    refine ⟨?_, ?_, fun hd => ?_⟩
    · rw [hgot, ← hr, List.take_append_of_le_length hle]
    · rw [← hr, List.length_append]
      omega
    · rw [(hg.data hd).2]
      exact hnone (hg.data hd).1

theorem Reading.grow {pos : Int} (h : Reading s pos) (hg : Grows s s') : Reading s' pos := by
  refine ⟨fun hp => hg.got ▸ (h.past hp).grow hg, fun hp => ?_, fun hdead => ?_, fun hd => ?_⟩
  · obtain ⟨hgot, hle⟩ := h.from_pos hp
    obtain ⟨r, hr⟩ := hg.output
    rw [hg.got, hgot, ← hr, List.take_append_of_le_length hle, List.length_append]
    exact ⟨rfl, by omega⟩
  · exact absurd (h.dead (hg.entry ▸ hdead)) hg.running
  · exact hg.got ▸ (h.missing (hg.data hd).1).grow hg

theorem Replied.grow {pos : Int} (h : Replied s pos) (hg : Grows s s') : Replied s' pos :=
  ⟨hg.got ▸ h.settled.grow hg, hg.entry ▸ h.pos_eq, hg.entry ▸ h.dead⟩

theorem Leaves.grow {e : ProcessData} (h : Leaves s e) (hg : Grows s s') : Leaves s' e :=
  ⟨hg.entry ▸ h.dead, fun hdead => absurd (h.done hdead) hg.running⟩

theorem Turn.grow (h : Turn token s) (hg : Grows s s') : Turn token s' := by
  have hdata : s.data ≠ none → s'.data ≠ none := fun h h' => h (hg.data h').1
  cases h with
  | idle h hs => exact .idle (hg.phase.trans h) (hg.got ▸ hs.grow hg)
  | asked h hr => exact .asked (hg.phase.trans (hg.entry ▸ h)) (hr.grow hg)
  | sized h hr he hd => exact .sized (hg.phase.trans h) (hr.grow hg) (he.grow hg) (hdata hd)
  | decided h hr he hnone =>
    exact .decided (hg.phase.trans h) (hr.grow hg) (he.grow hg) fun hd => hg.entry ▸ hnone (hg.data hd).1
  | entering h hr => exact .entering (hg.phase.trans h) (hr.grow hg)
  | reading h hr => exact .reading (hg.phase.trans h) (hr.grow hg)
  | freading h hr hd => exact .freading (hg.phase.trans h) (hr.grow hg) (hdata hd)
  | checking h hs => exact .checking (hg.phase.trans h) (hg.got ▸ hs.grow hg)
  | unlinking h he => exact absurd he.done hg.running
  | unlinkingData h he => exact absurd he.done hg.running
  | ending h he hd => exact absurd he.done hg.running
  | returning h hne hs => exact .returning (hg.phase.trans h) hne (hg.got ▸ hs.grow hg)

theorem Base.getD (h : Base s) (hw : s.writer ≠ .done) : s.data.getD [] = s.output := by
  rcases hd : s.data with _ | d
  · exact (h.unwritten hw hd).symm
  · exact h.data d hd

theorem append_step {block : Str} (hi : Inv token s) (h : step token s (.append block) = some s') : Inv token s' := by
  simp only [step] at h
  rcases hw : s.writer with kept | _ | _
  · have hrun : s.writer ≠ .done := by rw [hw]; simp
    have hkept := hi.base.kept kept hw
    subst hkept
    rw [hw] at h
    simp only at h
    split at h
    · rename_i hsize
      cases h
      refine ⟨?_, hi.turn.grow ⟨rfl, rfl, rfl, hrun, List.prefix_append _ _, fun hd => nomatch hd⟩⟩
      refine ⟨fun d hd => ?_, fun he => absurd (hi.base.ended he) hrun, fun k hk => ?_, hsize.2, fun _ hd => (nomatch hd),
        fun hsaw => absurd (hi.base.sawEnd hsaw).1 hrun⟩
      · cases hd
        rw [hi.base.getD hrun]
        rfl
      · cases hk
        rfl
    · cases h
  · rw [hw] at h
    cases h
  · rw [hw] at h
    cases h

theorem close_step (hi : Inv token s) (h : step token s .close = some s') : Inv token s' := by
  simp only [step] at h
  rcases hw : s.writer with kept | _ | _
  · have hrun : s.writer ≠ .done := by rw [hw]; simp
    have hkept := hi.base.kept kept hw
    subst hkept
    rw [hw] at h
    cases h
    refine ⟨?_, hi.turn.grow ⟨rfl, rfl, rfl, hrun, List.prefix_rfl, fun hd => nomatch hd⟩⟩
    refine ⟨fun d hd => ?_, fun he => absurd (hi.base.ended he) hrun, fun k hk => (nomatch hk), hi.base.size,
      fun _ hd => (nomatch hd), fun hsaw => absurd (hi.base.sawEnd hsaw).1 hrun⟩
    cases hd
    rw [hi.base.getD hrun]
    exact List.append_nil _
  · rw [hw] at h
    cases h
  · rw [hw] at h
    cases h

theorem mark_step (hi : Inv token s) (h : step token s .mark = some s') : Inv token s' := by
  simp only [step] at h
  split at h
  · rename_i hw
    have hrun : s.writer ≠ .done := by rw [hw]; simp
    cases h
    refine ⟨?_, hi.turn.grow ⟨rfl, rfl, rfl, hrun, List.prefix_rfl, fun hd => ⟨hd, rfl⟩⟩⟩
    exact ⟨hi.base.data, fun _ => rfl, fun k hk => (nomatch hk), hi.base.size, fun h => absurd rfl h,
      fun hsaw => absurd (hi.base.sawEnd hsaw).1 hrun⟩
  · cases h

/-! ## Steps that only set `errno` -/

theorem Settled.withErrno {got : Str} (h : Settled s got) (e : Int) : Settled { s with errno := e } got := ⟨h.dead, h.live⟩

theorem Reading.withErrno {pos : Int} (h : Reading s pos) (e : Int) : Reading { s with errno := e } pos :=
  ⟨fun hpos => (h.past hpos).withErrno e, h.from_pos, h.dead, fun hd => (h.missing hd).withErrno e⟩

theorem Ending.withErrno (h : Ending s) (e : Int) : Ending { s with errno := e } :=
  ⟨h.settled.withErrno e, h.done, h.all, h.live⟩

theorem Replied.withErrno {pos : Int} (h : Replied s pos) (e : Int) : Replied { s with errno := e } pos :=
  ⟨h.settled.withErrno e, h.pos_eq, h.dead⟩

theorem errno_step {e : Int} (hi : Inv token s) (h : step token s (.errno e) = some s') : Inv token s' := by
  cases h
  refine ⟨⟨hi.base.data, hi.base.ended, hi.base.kept, hi.base.size, hi.base.unwritten, hi.base.sawEnd⟩, ?_⟩
  cases hi.turn with
  | idle h hs => exact .idle h (hs.withErrno e)
  | asked h hr => exact .asked h (hr.withErrno e)
  | sized h hr he hd => exact .sized h (hr.withErrno e) ⟨he.dead, he.done⟩ hd
  | decided h hr he hnone => exact .decided h (hr.withErrno e) ⟨he.dead, he.done⟩ hnone
  | entering h hr => exact .entering h (hr.withErrno e)
  | reading h hr => exact .reading h (hr.withErrno e)
  | freading h hr hd => exact .freading h (hr.withErrno e) hd
  | checking h hs => exact .checking h (hs.withErrno e)
  | unlinking h he => exact .unlinking h (he.withErrno e)
  | unlinkingData h he => exact .unlinkingData h (he.withErrno e)
  | ending h he hd => exact .ending h (he.withErrno e) hd
  | returning h hne hs => exact .returning h hne (hs.withErrno e)

/-! ## Steps of the manager -/

theorem Base.withPhase (h : Base s) (p : Phase) : Base { s with phase := p } :=
  ⟨h.data, h.ended, h.kept, h.size, h.unwritten, h.sawEnd⟩

theorem Settled.withPhase {got : Str} (h : Settled s got) (p : Phase) : Settled { s with phase := p } got :=
  ⟨h.dead, h.live⟩

theorem Replied.withPhase {pos : Int} (h : Replied s pos) (p : Phase) : Replied { s with phase := p } pos :=
  ⟨h.settled.withPhase p, h.pos_eq, h.dead⟩

theorem Settled.offset (hb : Base s) {got : Str} (h : Settled s got) (hlive : s.entry.status ≠ .dead) :
    toSigned s.entry.readOffset = s.entry.readOffset.toNat := by
  have hsize := hb.size
  have hle := (h.live hlive).2.1
  rw [toSigned, if_pos (by omega)]

@[simp]
theorem fileSize_chunkFile : fileSize token s (chunkFile token) = s.data.map List.length := if_pos rfl

@[simp]
theorem fileSize_endFile : fileSize token s (endFile token) = if s.ended then some 3 else none := by
  rw [fileSize, if_neg (endFile_ne_chunkFile token), if_pos rfl]
  rfl

theorem advance_status (c : UInt64) (e : ProcessData) (n : Nat) : (e.advance c n).1.status = e.status := by
  unfold ProcessData.advance
  split <;> rfl

theorem Turn.settled_of_idle (h : Turn token s) (hidle : s.phase = .idle) : Settled s s.got := by
  cases h with
  | idle _ hs => exact hs
  | asked h | sized h | decided h | entering h | reading h | freading h | checking h | unlinking h | unlinkingData h | ending h
  | returning h => exact nomatch hidle.symm.trans h

theorem Settled.atNext {got : Str} (h : Settled s got) (p : Phase) :
    Settled { s with entry := s.entry.atNext, phase := p } got := by
  by_cases hdead : s.entry.status = .dead
  · have hstatus : s.entry.atNext.status = .dead := by rw [ProcessData.atNext, if_pos hdead]; exact hdead
    exact ⟨fun _ => h.dead hdead, fun hlive => absurd hstatus hlive⟩
  · rw [ProcessData.atNext, if_neg hdead]
    exact h.withPhase p

theorem next_step (hi : Inv token s) (h : step token s .next = some s') : Inv token s' := by
  simp only [step] at h
  split at h
  · rename_i hidle
    cases h
    have hb := hi.base
    refine ⟨⟨hb.data, hb.ended, hb.kept, hb.size, hb.unwritten, hb.sawEnd⟩, .asked rfl ⟨?_, rfl, ?_⟩⟩
    · exact (hi.turn.settled_of_idle hidle).atNext _
    · intro hdead
      simp only [ProcessData.atNext] at hdead ⊢
      split
      · rfl
      · rename_i hlive
        rw [if_neg hlive] at hdead
        exact absurd hdead hlive
  · cases h

/-- The entry is left, and the client starts from the offset it was told. -/
theorem Replied.reading {pos : Int} {e : ProcessData} (hb : Base s) (hr : Replied s pos) (he : Leaves s e)
    (hnone : s.data = none → e = s.entry) (p : Phase) : Reading { s with entry := e, phase := p } pos := by
  have hneg : s.entry.status = .dead → pos = -1 := by
    intro hdead
    rw [hr.pos_eq, hr.dead hdead]
    rfl
  have hoff : s.entry.status ≠ .dead → pos = s.entry.readOffset.toNat :=
    fun hlive => hr.pos_eq.trans (hr.settled.offset hb hlive)
  refine ⟨fun hpos => ?_, fun hpos => ?_, he.done, fun hd => ?_⟩
  · by_cases hdead : s.entry.status = .dead
    · exact ⟨fun _ => hr.settled.dead hdead, fun hlive => absurd (he.dead hdead) hlive⟩
    · have := hoff hdead
      omega
  · by_cases hdead : s.entry.status = .dead
    · have := hneg hdead
      omega
    · obtain ⟨hgot, hle, -⟩ := hr.settled.live hdead
      rw [hoff hdead]
      exact ⟨hgot, hle⟩
  · rw [hnone hd]
    exact ⟨hr.settled.dead, hr.settled.live⟩

theorem manager_step (hi : Inv token s) (h : step token s .manager = some s') : Inv token s' := by
  have hb := hi.base
  cases hi.turn with
  | idle hp => simp [step, hp] at h
  | asked hp hr =>
    rw [nextEntry_eq] at hp
    simp only [step, hp, managerCall, fileSize_chunkFile, Option.map_some, Option.some.injEq] at h
    subst h
    refine ⟨hb.withPhase _, ?_⟩
    have hdone : s.entry.status = .dead → s.writer = .done := fun hdead => (hr.settled.dead hdead).1
    rcases Option.eq_none_or_eq_some s.data with hd | ⟨d, hd⟩
    · exact .decided (by simp only [hd, Option.map_none]) (hr.withPhase _) ⟨id, hdone⟩ fun _ => rfl
    · have hstatus := advance_status chunkSize s.entry d.length
      have hleaves : Leaves s (s.entry.advance chunkSize d.length).1 :=
        ⟨fun hdead => hstatus.trans hdead, fun hdead => hdone (hstatus.symm.trans hdead)⟩
      have hne : s.data ≠ none := by simp [hd]
      by_cases hend : (s.entry.advance chunkSize d.length).2 = true
      · exact .sized (by simp only [hd, Option.map_some, hend, if_true]) (hr.withPhase _)
          ⟨hleaves.dead, hleaves.done⟩ hne
      · exact .decided (by simp only [hd, Option.map_some, hend]; rfl) (hr.withPhase _)
          ⟨hleaves.dead, hleaves.done⟩ fun h => absurd h hne
  | sized hp hr he hdata =>
    simp only [step, hp, markProg, managerCall, fileSize_endFile, Option.map_some, Option.some.injEq] at h
    subst h
    refine ⟨hb.withPhase _, ?_⟩
    by_cases hend : s.ended = true
    · refine .decided (by simp only [hend, if_true]; rfl) (hr.withPhase _) ⟨?_, ?_⟩ fun h => absurd h hdata
      · exact fun _ => rfl
      · exact fun _ => hb.ended hend
    · exact .decided (by simp only [hend]; rfl) (hr.withPhase _) ⟨he.dead, he.done⟩ fun h => absurd h hdata
  | decided hp hr he hnone =>
    simp only [step, hp, Option.some.injEq] at h
    subst h
    refine ⟨⟨hb.data, hb.ended, hb.kept, hb.size, hb.unwritten, hb.sawEnd⟩, ?_⟩
    rename_i pos e
    have hreading := hr.reading hb he hnone (.client (chunkFrom token pos))
    by_cases hpos : pos = 0
    · subst hpos
      exact .entering rfl hreading
    · exact .reading (congrArg Phase.client ((chunkFrom_eq token pos).trans (if_neg hpos))) hreading
  | entering hp | reading hp | freading hp | checking hp | unlinking hp | unlinkingData hp | ending hp | returning hp =>
    simp [step, hp] at h

/-! ## Steps of the client -/

theorem Reading.withPhase {pos : Int} (h : Reading s pos) (p : Phase) : Reading { s with phase := p } pos :=
  ⟨fun hpos => (h.past hpos).withPhase p, h.from_pos, h.dead, fun hd => (h.missing hd).withPhase p⟩

theorem Ending.withPhase (h : Ending s) (p : Phase) : Ending { s with phase := p } :=
  ⟨h.settled.withPhase p, h.done, h.all, h.live⟩

/-- The offset is given up, and the entry has not gone past it. -/
theorem Reading.giveUp (hr : Reading s 0)
    (hok : if s.entry.status = .dead then s.output = [] else s.entry.readOffset = 0) : Settled s s.got := by
  have hgot : s.got = [] := (hr.from_pos (Int.le_refl 0)).1
  constructor
  · intro hdead
    rw [if_pos hdead] at hok
    exact ⟨hr.dead hdead, hgot.trans hok.symm⟩
  · intro hlive
    rw [if_neg hlive] at hok
    rw [hok, hgot]
    exact ⟨rfl, Nat.zero_le _, fun hd => ((hr.missing hd).live hlive).2.2 hd⟩

/-- A chunk that ends where the entry says. -/
theorem Reading.read {pos : Nat} (hr : Reading s pos) (hd : s.data = some s.output)
    (hok : if s.entry.status = .dead then s.output.length ≤ pos + chunkerReadSize
      else s.entry.readOffset.toNat = min s.output.length (pos + chunkerReadSize)) :
    Settled s (s.got ++ chunkAt s.output pos) := by
  have hgot : s.got ++ chunkAt s.output pos = s.output.take (pos + chunkerReadSize) := by
    rw [(hr.from_pos (Int.natCast_nonneg pos)).1, Int.toNat_natCast, chunkAt, List.take_add]
  constructor
  · intro hdead
    rw [if_pos hdead] at hok
    exact ⟨hr.dead hdead, hgot.trans (List.take_of_length_le hok)⟩
  · intro hlive
    rw [if_neg hlive] at hok
    rw [hgot, hok, Nat.min_comm, List.take_eq_take_iff]
    refine ⟨by omega, by omega, fun h => ?_⟩
    rw [hd] at h
    cases h

/-- The end marker is there for an entry that is dead, or there was no output. -/
theorem Settled.ending (hb : Base s) (hs : Settled s s.got) (hended : s.ended = true)
    (hok : s.entry.status = .dead ∨ s.output = []) : Ending s := by
  refine ⟨hs, hb.ended hended, ?_, fun hlive => hok.resolve_left hlive⟩
  by_cases hdead : s.entry.status = .dead
  · exact (hs.dead hdead).2
  · rw [(hs.live hdead).1, hok.resolve_left hdead]
    exact List.take_nil

theorem Settled.length_le {got : Str} (h : Settled s got) : got.length ≤ s.output.length := by
  by_cases hdead : s.entry.status = .dead
  · rw [(h.dead hdead).2]
  · rw [(h.live hdead).1]
    exact List.length_take_le' _ _

theorem client_step (hi : Inv token s) (hok : undisturbed token s .client = true)
    (h : step token s .client = some s') : Inv token s' := by
  have hb := hi.base
  cases hi.turn with
  | idle hp | asked hp | sized hp | decided hp => simp [step, hp] at h
  | entering hp hr =>
    simp only [step, hp, errnoProg, clientCall, Option.map_some, Option.some.injEq] at h
    simp only [undisturbed, hp, errnoProg] at hok
    subst h
    refine ⟨hb.withPhase _, ?_⟩
    by_cases he : s.errno = Server.einval
    · refine .returning (by rw [if_pos he]) (by decide) ?_
      rw [List.append_nil]
      exact (hr.giveUp (by simpa [he] using hok)).withPhase _
    · exact .reading (by rw [if_neg he]) (hr.withPhase _)
  | reading hp hr =>
    rw [readChunk_eq] at hp
    simp only [step, hp, clientCall, fileSize_chunkFile, Option.map_some, Option.some.injEq] at h
    subst h
    refine ⟨hb.withPhase _, ?_⟩
    rename_i pos
    rcases Option.eq_none_or_eq_some s.data with hd | ⟨d, hd⟩
    · exact .checking (by simp [hd]) ((hr.missing hd).withPhase _)
    · by_cases hpos : 0 ≤ pos
      · refine .freading (by simp [hd, hpos]; rfl) ?_ (by simp [hd])
        rw [Int.toNat_of_nonneg hpos]
        exact hr.withPhase _
      · exact .checking (by simp [hpos]) ((hr.past (by omega)).withPhase _)
  | freading hp hr hdata =>
    rename_i pos
    obtain ⟨d, hd⟩ := Option.ne_none_iff_exists'.mp hdata
    obtain rfl := hb.data d hd
    simp only [step, hp, freadProg, clientCall, if_true, Option.map_some, Option.some.injEq] at h
    simp only [undisturbed, hp, freadProg, hd, Option.getD_some, Bool.and_eq_true, decide_eq_true_eq] at hok
    subst h
    refine ⟨hb.withPhase _, .returning (r := chunkAt s.output pos) ?_ hok.2 ((hr.read hd ?_).withPhase _)⟩
    · simp only [hd, Option.map_some, Option.getD_some]
    · simpa using hok.1
  | checking hp hs =>
    simp only [step, hp, endProg, clientCall, fileSize_endFile, Option.map_some, Option.some.injEq] at h
    simp only [undisturbed, hp, endProg] at hok
    subst h
    refine ⟨hb.withPhase _, ?_⟩
    by_cases hend : s.ended = true
    · have hor : s.entry.status = .dead ∨ s.output = [] := by simpa [hend] using hok
      exact .unlinking (by simp [hend]) ((hs.ending hb hend hor).withPhase _)
    · refine .returning (by simp [hend]; rfl) (by decide) ?_
      rw [List.append_nil]
      exact hs.withPhase _
  | unlinking hp he =>
    simp only [step, hp, unlinkProg, clientCall, Option.map_some, Option.some.injEq, if_true] at h
    subst h
    refine ⟨⟨hb.data, fun h => (nomatch h), hb.kept, hb.size, hb.unwritten, hb.sawEnd⟩, .unlinkingData rfl ?_⟩
    exact ⟨⟨he.settled.dead, he.settled.live⟩, he.done, he.all, he.live⟩
  | unlinkingData hp he =>
    simp only [step, hp, unlinkDataProg, clientCall, Option.map_some, Option.some.injEq,
      if_neg (endFile_ne_chunkFile token).symm, if_true] at h
    subst h
    refine ⟨⟨fun d hd => (nomatch hd), hb.ended, hb.kept, hb.size, fun hw => absurd he.done hw, fun hsaw => ?_⟩,
      .ending rfl ⟨⟨he.settled.dead, fun hlive => ?_⟩, he.done, he.all, he.live⟩ rfl⟩
    · exact ⟨he.done, he.all, rfl⟩
    · obtain ⟨hgot, hle, -⟩ := he.settled.live hlive
      exact ⟨hgot, hle, fun _ => he.live hlive⟩
  | ending hp he hdata =>
    simp only [step, hp, if_true, Option.some.injEq] at h
    subst h
    refine ⟨⟨hb.data, hb.ended, hb.kept, hb.size, hb.unwritten, fun _ => ⟨he.done, he.all, hdata⟩⟩, .idle rfl ?_⟩
    exact ⟨he.settled.dead, he.settled.live⟩
  | returning hp hne hs =>
    rename_i r
    simp only [step, hp, if_neg hne, Option.some.injEq] at h
    subst h
    refine ⟨⟨hb.data, hb.ended, hb.kept, hb.size, hb.unwritten, fun hsaw => ?_⟩, .idle rfl ⟨hs.dead, hs.live⟩⟩
    obtain ⟨hdone, hall, hd⟩ := hb.sawEnd hsaw
    have hlen := hs.length_le
    rw [hall, List.length_append] at hlen
    have hr : r = [] := List.eq_nil_of_length_eq_zero (by omega)
    refine ⟨hdone, ?_, hd⟩
    rw [hr, List.append_nil]
    exact hall

/-! ## Runs -/

theorem inv_start (user command : Str) (now : UInt64) : Inv token (start token user command now) := by
  refine ⟨⟨fun d hd => (nomatch hd), fun h => (nomatch h), ?_, Nat.two_pow_pos 63, fun _ _ => rfl, fun h => (nomatch h)⟩,
    .idle rfl ⟨fun h => (nomatch h), fun _ => ⟨?_, Nat.le_refl 0, fun _ => rfl⟩⟩⟩
  · intro k hk
    cases hk
    rfl
  · rfl

theorem inv_step {l : Label} (hi : Inv token s) (hok : undisturbed token s l = true) (h : step token s l = some s') :
    Inv token s' := by
  cases l with
  | append block => exact append_step hi h
  | close => exact close_step hi h
  | mark => exact mark_step hi h
  | errno e => exact errno_step hi h
  | next => exact next_step hi h
  | manager => exact manager_step hi h
  | client => exact client_step hi hok h

/-- What has been delivered, in every state the system can be in. -/
theorem Inv.got_prefix (hi : Inv token s) : s.got <+: s.output := by
  have settled : ∀ {got : Str}, Settled s got → got <+: s.output := by
    intro got hs
    by_cases hdead : s.entry.status = .dead
    · rw [(hs.dead hdead).2]
    · rw [(hs.live hdead).1]
      exact List.take_prefix _ _
  have reading : ∀ {pos : Int}, Reading s pos → s.got <+: s.output := by
    intro pos hr
    rcases Int.lt_or_le pos 0 with hpos | hpos
    · exact settled (hr.past hpos)
    · rw [(hr.from_pos hpos).1]
      exact List.take_prefix _ _
  cases hi.turn with
  | idle _ hs | checking _ hs => exact settled hs
  | asked _ hr | sized _ hr | decided _ hr => exact settled hr.settled
  | entering _ hr | reading _ hr | freading _ hr => exact reading hr
  | unlinking _ he | unlinkingData _ he | ending _ he => exact settled he.settled
  | returning _ _ hs => exact (List.prefix_append _ _).trans (settled hs)

theorem delivery_is_exact (token user command : Str) (now : UInt64) {tr : List Label} {s : State}
    (h : Run (step token) (fun s l => undisturbed token s l = true) (start token user command now) tr s) :
    s.got <+: s.output ∧ (s.sawEnd = true → s.writer = .done ∧ s.got = s.output) := by
  have hi : Inv token s := h.invariant (inv_start user command now) inv_step
  refine ⟨hi.got_prefix, fun hsaw => ?_⟩
  obtain ⟨hdone, hall, -⟩ := hi.base.sawEnd hsaw
  exact ⟨hdone, hall⟩

/-! ## Traces -/

def sampleToken : Str := str "0123456789ABCDEF"

def sampleStart : State := start sampleToken (str "bob") (str "ping") 0

def nextChunk : List Label := [.next, .manager, .manager, .manager, .client, .client, .client]

/-- The first poll, which looks at `errno`. -/
def firstChunk : List Label := nextChunk ++ [.client]

/-- Two blocks, each read before anything else happens, and the end. -/
def quietTrace : List Label :=
  .append (str "ab") :: firstChunk ++ [.append (str "cd"), .close, .mark] ++ nextChunk ++ nextChunk ++ [.client, .client]

theorem a_quiet_command_is_delivered : ∃ s,
    Run (step sampleToken) (fun s l => undisturbed sampleToken s l = true) sampleStart quietTrace s ∧
      s.output = str "abcd" ∧ s.got = s.output := by
  have hexec : ((execWhile (step sampleToken) (undisturbed sampleToken) sampleStart quietTrace).any fun s =>
      s.sawEnd && s.output = str "abcd") = true := by decide
  obtain ⟨s, hrun, hs⟩ := exists_run_of_exec (fun {_ _} h => h) hexec
  rw [Bool.and_eq_true, decide_eq_true_eq] at hs
  exact ⟨s, hrun, hs.2, ((delivery_is_exact sampleToken (str "bob") (str "ping") 0 hrun).2 hs.1).2⟩

/-- The second block is written between the manager's look at the file and the read. -/
def grownTrace : List Label :=
  [.append (str "ab"), .next, .manager, .manager, .manager, .append (str "cd"), .client, .client, .client, .client] ++
    nextChunk

/-- The manager and the client do not find the data file, and the client then finds the
    marker. -/
def lateTrace : List Label :=
  [.next, .manager, .manager, .client, .client, .append (str "ab"), .close, .mark, .client, .client, .client, .client]

/-- A call before the first poll has failed with `EINVAL`. -/
def staleTrace : List Label :=
  [.append (str "ab"), .errno Server.einval, .next, .manager, .manager, .manager, .client, .client, .append (str "cd"), .close,
    .mark] ++ nextChunk

theorem output_comes_twice_or_not_at_all :
    (∃ s, Run (step sampleToken) (fun _ _ => True) sampleStart grownTrace s ∧
      s.output = str "abcd" ∧ s.got = str "abcdcd") ∧
    (∃ s, Run (step sampleToken) (fun _ _ => True) sampleStart lateTrace s ∧
      s.output = str "ab" ∧ s.sawEnd = true ∧ s.got = []) ∧
    (∃ s, Run (step sampleToken) (fun _ _ => True) sampleStart staleTrace s ∧
      s.output = str "abcd" ∧ s.got = str "cd") := by
  refine ⟨?_, ?_, ?_⟩
  · have hexec : ((execWhile (step sampleToken) (fun _ _ => true) sampleStart grownTrace).any fun s =>
        decide (s.output = str "abcd" ∧ s.got = str "abcdcd")) = true := by decide
    obtain ⟨s, hrun, hs⟩ := exists_run_of_exec (fun {_ _} _ => trivial) hexec
    exact ⟨s, hrun, of_decide_eq_true hs⟩
  · have hexec : ((execWhile (step sampleToken) (fun _ _ => true) sampleStart lateTrace).any fun s =>
        decide (s.output = str "ab" ∧ s.sawEnd = true ∧ s.got = [])) = true := by decide
    obtain ⟨s, hrun, hs⟩ := exists_run_of_exec (fun {_ _} _ => trivial) hexec
    exact ⟨s, hrun, of_decide_eq_true hs⟩
  · have hexec : ((execWhile (step sampleToken) (fun _ _ => true) sampleStart staleTrace).any fun s =>
        decide (s.output = str "abcd" ∧ s.got = str "cd")) = true := by decide
    obtain ⟨s, hrun, hs⟩ := exists_run_of_exec (fun {_ _} _ => trivial) hexec
    exact ⟨s, hrun, of_decide_eq_true hs⟩

end VyattaRest.Delivery
