/-
  VyattaRest.Chunker.Manager — the chunker's handling of a message (`ChunkerManager::process`
  and `kill_process`, chunker2_manager.cc; the head of `ChunkerProcessor::start_new`,
  chunker2_processor.cc).

  The manager is a program over its calls: the clock, the files of a token, the processes it
  starts and kills, and the socket. It takes the table as it is and returns the table as it
  is then.
-/

import VyattaRest.Chunker.Table
import VyattaRest.Chunker.Wire
import VyattaRest.Lib.Prog

namespace VyattaRest.Chunker

open VyattaRest.Lib VyattaRest.Rest

inductive Call where
  | gettimeofday
  | startNew (token statement user : Str)
  | write (reply : Str)
  | lstat (file : Str)
  | readPid (file : Str)
  | unlink (file : Str)
  | runCmd (cmd : Str)
  | stat (file : Str)
  deriving DecidableEq

abbrev Call.Answer : Call → Type
  | .gettimeofday => UInt64
  -- a failed fork counts as a success
  | .startNew _ _ _ => Unit
  | .write _ => Bool
  -- the size of the file
  | .lstat _ => Option Nat
  -- the text in the buffer; `none` for no file or an empty one
  | .readPid _ => Option Str
  | .unlink _ | .runCmd _ => Unit
  -- whether it exists
  | .stat _ => Bool

abbrev Act := Prog Call Call.Answer

def perform (c : Call) : Act c.Answer := Prog.perform c

/-- A call, and how the program goes on with its answer. -/
theorem wp_then {env : (c : Call) → c.Answer → Prop} {ok : Call → Prop} {exc : Prop} {α : Type} (c : Call)
    (f : c.Answer → Act α) (Q : α → Prop) :
    Prog.wp env ok exc (perform c >>= f) Q ↔ ok c ∧ ∀ a, env c a → Prog.wp env ok exc (f a) Q := Iff.rfl

/-! ## Commands -/

/-- `start_new`: nothing is started without a command, a token and a user. -/
def startNew (token cmd user : Str) : Act Bool := do
  if cmd.isEmpty || token.isEmpty || user.isEmpty then return false
  perform (.startNew token cmd user)
  return true

/-- A command under a known token without a statement is a sign of life. Any other is started,
    and entered in the table unless the token is there. -/
def handleCommand (t : ProcColl) (now : UInt64) (f : Fields) : Act ProcColl := do
  if (t.find f.token).isSome ∧ f.statement = [] then
    return t.update f.token fun pd => { pd with lastUpdate := now }
  else
    let pd : ProcessData :=
      { startTime := now, lastUpdate := now, command := f.statement, token := f.token, user := f.user
        readOffset := 0, status := .running }
    if !(← startNew f.token f.statement f.user) then return t
    return t.insert f.token pd

/-- The table after a command. -/
def commandTable (t : ProcColl) (now : UInt64) (f : Fields) : ProcColl :=
  if (t.find f.token).isSome ∧ f.statement = [] then t.update f.token fun pd => { pd with lastUpdate := now }
  else if f.statement.isEmpty || f.token.isEmpty || f.user.isEmpty then t
  else t.insert f.token
    { startTime := now, lastUpdate := now, command := f.statement, token := f.token, user := f.user
      readOffset := 0, status := .running }

theorem handleCommand_table {env : (c : Call) → c.Answer → Prop} (t : ProcColl) (now : UInt64) (f : Fields) :
    Prog.wp env (fun _ => True) True (handleCommand t now f) fun t' => t' = commandTable t now f := by
  unfold handleCommand commandTable startNew
  split
  · rfl
  · rw [Prog.wp_bind]
    split
    · rfl
    · exact ⟨trivial, fun _ _ => rfl⟩

/-! ## Reading on -/

/-- `(unsigned)s.st_size` is a 32-bit number. -/
def unsignedSize (size : Nat) : Nat := size % 2 ^ 32

/-- What the size of the data file makes of an entry: the offset moves on by a chunk, or to the
    end of the file. -/
def ProcessData.advance (pd : ProcessData) (chunkSize : UInt64) (size : Nat) : ProcessData × Bool :=
  if (pd.readOffset + chunkSize).toNat < unsignedSize size then
    ({ pd with readOffset := pd.readOffset + chunkSize }, false)
  else ({ pd with readOffset := UInt64.ofNat size }, true)

/-- The entry after a `<next>` of its user. The reply is written with the offset as it was. -/
def nextEntry (chunkSize : UInt64) (token : Str) (pd : ProcessData) : Act ProcessData := do
  match ← perform (.lstat (chunkFile token)) with
  | none => return pd
  | some size =>
    match pd.advance chunkSize size with
    | (pd, false) => return pd
    | (pd, true) =>
      match ← perform (.lstat (endFile token)) with
      | none => return pd
      | some _ => return { pd with status := .dead }

def handleNext (chunkSize : UInt64) (t : ProcColl) (f : Fields) : Act ProcColl := do
  match t.find f.token with
  | none =>
    let _ ← perform (.write (nextReply t f.token f.user))
    return t
  | some pd =>
    if f.user ≠ pd.user then
      let _ ← perform (.write (nextReply t f.token f.user))
      return t
    else
      let pd ← nextEntry chunkSize f.token pd.atNext
      let _ ← perform (.write (nextReply t f.token f.user))
      return t.update f.token fun _ => pd

/-! ## Killing -/

def pidFile (key : Str) : Str := chunkerRespPid ++ str "/" ++ key

def termCmd (pid : Str) : Str := str "kill -15 -" ++ pid
def killCmd (pid : Str) : Str := str "kill -9 -" ++ pid

/-- Up to three attempts; whether the process is gone. -/
def terminate (pid : Str) : Nat → Act Bool
  | 0 => return false
  | ct + 1 => do
    perform (.runCmd (termCmd pid))
    if ← perform (.stat (str "/proc/" ++ pid ++ str "/stat")) then terminate pid ct else return true

def killProcess (t : ProcColl) (key : Str) : Act ProcColl := do
  match ← perform (.readPid (pidFile key)) with
  | none => return t
  | some pid =>
    perform (.unlink (pidFile key))
    let killed ← terminate (cstr pid) 3
    if !killed then perform (.runCmd (killCmd (cstr pid)))
    return t.erase key

/-! ## Messages -/

def handle (chunkSize : UInt64) (t : ProcColl) (now : UInt64) (f : Fields) : Kind → Act ProcColl
  | .command => handleCommand t now f
  | .process => do
    let _ ← perform (.write (processReply t f.user))
    return t
  | .details => do
    let _ ← perform (.write (detailsReply t f.token f.user))
    return t
  | .next => handleNext chunkSize t f
  | .delete => killProcess t f.token

def process (chunkSize : UInt64) (t : ProcColl) (command : Str) : Act ProcColl := do
  let now ← perform .gettimeofday
  match fields command, branch command with
  | some f, some k => handle chunkSize t now f k
  | _, _ => return t

end VyattaRest.Chunker
