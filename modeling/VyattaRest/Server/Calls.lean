/-
  VyattaRest.Server.Calls — what the REST server asks of the world: accounts, credentials and
  PAM, the session file, the configuration-session files under /tmp, shell commands, the
  chunker's socket and files, configd and opd.

  A call returns whatever the world makes of it (`Call.Answer`); the server's functions are
  programs over these calls (`Act`). `Call.isEffect` are the calls that do something for the
  user: a shell command, a chunker message, a configd or opd call, creating or removing a
  file.
-/

import VyattaRest.Lib.Prog
import VyattaRest.Server.Http

namespace VyattaRest.Server

open VyattaRest.Lib VyattaRest.Rest

structure Passwd where
  uid : Nat
  gid : Nat

structure Group where
  name : Str
  gid : Nat

/-- The database a configd query reads. -/
inductive Database where
  | running
  | candidate
  deriving DecidableEq

inductive NodeType where
  | leaf
  | multi
  | container
  | tag
  | error
  deriving DecidableEq

inductive NodeStatus where
  | unchanged
  | changed
  | added
  | deleted
  | error
  deriving DecidableEq

inductive Call where
  | getpwnam (user : Str)
  | getgrouplist (user : Str) (gid : Nat)
  | getgrgid (gid : Nat)
  | setgroups (groups : List Nat)
  | setegid (gid : Nat)
  | seteuid (uid : Nat)
  | setloginuid (uid : Nat)
  | setuid (uid : Nat)
  | setgid (gid : Nat)
  | base64Decode (s : Str)
  | pamStart (service user password : Str)
  | pamAuthenticate
  | pamAcctMgmt
  | pamEnd
  | lock
  | unlock
  | gettimeofday
  | sessionLines
  | fputsSession (line : Str)
  | fgets (file : Str)
  | fopenWrite (file : Str)
  | fputs (file content : Str)
  | unlink (file : Str)
  | readdir (dir : Str)
  | stat (file : Str)
  | popen (cmd : Str)
  | systemOut (cmd : Str)
  | generateToken
  | connect
  | send (message : Str)
  | recv
  | lstat (file : Str)
  | fread (file : Str) (pos : Nat)
  | errno
  | uninitialized
  | jsonDumps (objects : List (Str × List (Int × Str × Int)))
  | configdOpen
  | configdClose
  | configdSetSessionId (sid : Str)
  | configdSessSetup
  | configdSessTeardown
  | configdSessChanged
  | configdCommit
  | configdSave
  | configdDiscard
  | configdTmplValidatePath (path : Str)
  | configdTmplGet (path : Str)
  | configdTmplGetChildren (path : Str)
  | configdTmplGetAllowed (path : Str)
  | configdNodeGetType (path : Str)
  | configdNodeGetStatus (path : Str)
  | configdNodeExists (db : Database) (path : Str)
  | configdNodeGet (db : Database) (path : Str)
  | configdAuthGetperms
  | opdOpen
  | opdClose
  | opdExpand (path : Str)
  | opdTmpl (path : Str)
  | opdAllowed (path : Str)
  | opdChildren (path : Str)
  | opdGetperms
  deriving DecidableEq

/-- What comes back. A `Bool` is whether the call succeeded, unless said otherwise. -/
abbrev Call.Answer : Call → Type
  | .getpwnam _ => Option Passwd
  | .getgrouplist _ _ => Option (List Nat)
  | .getgrgid _ => Option Group
  | .setgroups _ | .setegid _ | .seteuid _ | .setloginuid _ | .setuid _ | .setgid _ => Bool
  -- the text found in the buffer, and the number of bytes `BIO_read` returned
  | .base64Decode _ => Str × Int
  | .pamStart _ _ _ | .pamAuthenticate | .pamAcctMgmt | .pamEnd => Bool
  -- the status of a constructed `Lock`
  | .lock => Bool
  | .unlock => Unit
  | .gettimeofday => Nat
  -- the buffers of `fgets`, line by line
  | .sessionLines => List Str
  | .fputsSession _ => Bool
  -- no file, an error in `fgets`, or the buffer
  | .fgets _ => Option (Option Str)
  | .fopenWrite _ | .fputs _ _ | .unlink _ => Bool
  | .readdir _ => Option (List Str)
  -- modification and change time
  | .stat _ => Option (Nat × Nat)
  -- the lines of the output and the exit status; `none` when `popen` fails
  | .popen _ => Option (List Str × Int)
  | .systemOut _ => Int × Str
  | .generateToken => Str
  | .connect | .send _ => Bool
  | .recv => Option Str
  -- size, and whether it is a regular file
  | .lstat _ => Option (Nat × Bool)
  -- what the loop of `fread` read; `none` when the file cannot be opened there
  | .fread _ _ => Option Str
  -- as the last call that failed has left it
  | .errno => Int
  -- a variable nobody has set
  | .uninitialized => Nat
  -- the text of an object of arrays of rules
  | .jsonDumps _ => Str
  | .configdOpen => Bool
  | .configdClose => Unit
  | .configdSetSessionId _ => Unit
  | .configdSessSetup => Bool
  | .configdSessTeardown => Bool
  -- whether the session has changed
  | .configdSessChanged => Bool
  -- the daemon's text, or that of its error
  | .configdCommit | .configdSave => Except Str Str
  | .configdDiscard => Bool
  | .configdTmplValidatePath _ => Bool
  | .configdTmplGet _ => Option (List Str)
  | .configdTmplGetChildren _ | .configdTmplGetAllowed _ => List Str
  | .configdNodeGetType _ => NodeType
  | .configdNodeGetStatus _ => NodeStatus
  | .configdNodeExists _ _ => Bool
  | .configdNodeGet _ _ => List Str
  | .configdAuthGetperms => List Str
  | .opdOpen => Bool
  | .opdClose => Unit
  -- whether the path is an operational command
  | .opdExpand _ => Bool
  | .opdTmpl _ => Option (List Str)
  | .opdAllowed _ | .opdChildren _ | .opdGetperms => List Str

def einval : Int := 22

def Call.isEffect : Call → Bool
  | .popen _ | .systemOut _ => true
  | .send _ => true
  | .fopenWrite _ | .fputs _ _ | .unlink _ => true
  | .configdOpen | .configdClose | .configdSetSessionId _ | .configdSessSetup | .configdSessTeardown
  | .configdSessChanged | .configdCommit | .configdSave | .configdDiscard | .configdTmplValidatePath _
  | .configdTmplGet _ | .configdTmplGetChildren _ | .configdTmplGetAllowed _ | .configdNodeGetType _
  | .configdNodeGetStatus _ | .configdNodeExists _ _ | .configdNodeGet _ _ | .configdAuthGetperms => true
  | .opdOpen | .opdClose | .opdExpand _ | .opdTmpl _ | .opdAllowed _ | .opdChildren _ | .opdGetperms => true
  | _ => false

/-- The questions about templates and nodes. -/
def Call.isQuery : Call → Bool
  | .configdTmplValidatePath _ | .configdTmplGet _ | .configdTmplGetChildren _ | .configdTmplGetAllowed _
  | .configdNodeGetType _ | .configdNodeGetStatus _ | .configdNodeExists _ _ | .configdNodeGet _ _ => true
  | _ => false

/-- A function of the server. -/
abbrev Act := Prog Call Call.Answer

def perform (c : Call) : Act c.Answer := Prog.perform c

/-- `s.substr(pos, n)`: an index past the end throws `std::out_of_range`. -/
def substrAt (s : Str) (pos : Nat) (n : Nat) : Act Str :=
  if pos ≤ s.length then pure (substr s pos n) else Prog.throw

/-- `s.substr(pos)`. -/
def substrFrom (s : Str) (pos : Nat) : Act Str := substrAt s pos s.length

/-! ## Rules -/

theorem substrAt_of_le {s : Str} {pos : Nat} (n : Nat) (h : pos ≤ s.length) : substrAt s pos n = pure (substr s pos n) :=
  if_pos h

theorem substrFrom_of_le {s : Str} {pos : Nat} (h : pos ≤ s.length) : substrFrom s pos = pure (s.drop pos) := by
  rw [substrFrom, substrAt_of_le _ h, substr, List.take_of_length_le (by simp)]

section

variable {env : (c : Call) → c.Answer → Prop} {ok : Call → Prop} {exc : Prop}

@[simp] theorem wp_perform (c : Call) (Q : c.Answer → Prop) :
    Prog.wp env ok exc (perform c) Q ↔ ok c ∧ ∀ a, env c a → Q a := Iff.rfl

/-- A call, and how the program goes on with its answer. -/
theorem wp_then {α : Type} (c : Call) (f : c.Answer → Act α) (Q : α → Prop) :
    Prog.wp env ok exc (perform c >>= f) Q ↔ ok c ∧ ∀ a, env c a → Prog.wp env ok exc (f a) Q := Iff.rfl

theorem wp_substrAt {s : Str} {pos : Nat} (n : Nat) {Q : Str → Prop} (h : pos ≤ s.length) (hQ : Q (substr s pos n)) :
    Prog.wp env ok exc (substrAt s pos n) Q := by
  rw [substrAt_of_le n h]
  exact hQ

theorem wp_substrFrom {s : Str} {pos : Nat} {Q : Str → Prop} (h : pos ≤ s.length) (hQ : Q (s.drop pos)) :
    Prog.wp env ok exc (substrFrom s pos) Q := by
  rw [substrFrom_of_le h]
  exact hQ

end

end VyattaRest.Server
