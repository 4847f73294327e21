/-
  VyattaRest.Chunker.StartNew — `ChunkerProcessor::start_new` in the processes it makes
  (chunker2_processor.cc), and the daemon they come from (`ChunkerManager::read`,
  chunker2_main.cc).

  The daemon forks a child for a command, the child forks a second one that becomes the user
  and runs the command, and both are to end in `exit`. Some of the error exits are a `return`,
  which leads back into `ChunkerManager::process` and from there to the next `accept`.
  - `one_manager_iff`: in any run, nobody but the daemon comes back from `start_new` exactly
    as long as every child finds its user and the list of groups, and every `setgroups`,
    `setgid` and `setuid` succeeds.
  - `an_unknown_user_makes_a_second_manager`: a command for a user without an account.
-/

import VyattaRest.Chunker.Entries

namespace VyattaRest.Chunker

open VyattaRest.Lib VyattaRest.Rest VyattaRest.Lib.Prog

/-! ## The program -/

/-- What `fork` returns: in the parent, with an error, or in the child. -/
inductive Forked where
  | parent
  | failed
  | child
  deriving DecidableEq

structure Account where
  uid : Nat
  gid : Nat

inductive Sys where
  | fork
  | setsid
  | pipe
  | exit (status : Nat)
  | getpwnam (user : Str)
  | setloginuid (uid : Nat)
  | getgrouplist (user : Str) (gid : Nat)
  | setgroups (groups : List Nat)
  | setgid (gid : Nat)
  | setuid (uid : Nat)
  | pidOutput (file : Str)
  | execve (cmd user : Str)
  | reader (token : Str)
  | wait
  deriving DecidableEq

/-- `exit` does not come back, `execve` only if it fails. -/
abbrev Sys.Answer : Sys → Type
  | .fork => Forked
  | .exit _ => Empty
  | .getpwnam _ => Option Account
  | .getgrouplist _ _ => Option (List Nat)
  | .pipe | .setloginuid _ | .setgroups _ | .setgid _ | .setuid _ | .pidOutput _ => Bool
  | .setsid | .execve _ _ | .reader _ | .wait => Unit

abbrev SysAct := Prog Sys Sys.Answer

def sys (c : Sys) : SysAct c.Answer := Prog.perform c

def exit (status : Nat) {α : Type} : SysAct α := .call (.exit status) fun a => nomatch a

/-- `writer`: the number of the process group goes to the pid file, then the command takes the
    place of the process. -/
def writer (token cmd user : Str) : SysAct Unit := do
  let _ ← sys (.pidOutput (pidFile token))
  sys (.execve cmd user)

/-- The second child: it becomes the user. -/
def secondChild (token cmd user : Str) (pw : Account) : SysAct Bool := do
  if !(← sys (.setloginuid pw.uid)) then exit 1
  else
    match ← sys (.getgrouplist user pw.gid) with
    | none => return false
    | some groups =>
      if !(← sys (.setgroups groups)) then return false
      if !(← sys (.setgid pw.gid)) then return false
      if !(← sys (.setuid pw.uid)) then return false
      writer token cmd user
      exit 0

/-- The first child, which goes on as the reader of the second one's output. -/
def firstChild (token cmd user : Str) : SysAct Bool := do
  sys .setsid
  if !(← sys .pipe) then exit 1
  else
    match ← sys (.getpwnam user) with
    | none => return false
    | some pw =>
      if (← sys .fork) = .child then secondChild token cmd user pw
      else
        sys (.reader token)
        sys .wait
        exit 0

/-- A failed `fork` is taken for the parent's. -/
def startNewForked (token cmd user : Str) : SysAct Bool := do
  if cmd.isEmpty || token.isEmpty || user.isEmpty then return false
  if (← sys .fork) ≠ .child then return true
  firstChild token cmd user

/-! ## The processes -/

inductive ProcState where
  | accepting
  /-- In `start_new`, called for the fields of a message. -/
  | starting (f : Fields) (now : UInt64) (p : SysAct Bool)
  | replaced
  | gone

def ProcState.isAccepting : ProcState → Bool
  | .accepting => true
  | _ => false

theorem ProcState.isAccepting_iff {st : ProcState} : st.isAccepting = true ↔ st = .accepting := by
  cases st <;> simp [isAccepting]

/-- A process and its copy of the table. -/
structure Proc where
  table : ProcColl
  state : ProcState

/-- A process accepts a connection and handles a message; forks; makes the call it is at, with
    an answer; ends in `exit` or is replaced by `execve`; or comes back from `start_new`. -/
inductive Event where
  | message (now : UInt64) (m : Handled)
  | fork
  | call (x : Sigma Sys.Answer)
  | leave
  | back

/-- The message makes the manager call `start_new`. -/
def starts (t : ProcColl) (m : Str) : Option Fields :=
  match fields m, branch m with
  | some f, some .command => if (t.find f.token).isSome ∧ f.statement = [] then none else some f
  | _, _ => none

def entryOf (f : Fields) (now : UInt64) : ProcessData :=
  { startTime := now, lastUpdate := now, command := f.statement, token := f.token, user := f.user
    readOffset := 0, status := .running }

/-- What the daemon makes of the table when it is back is what the command makes of it. -/
theorem commandTable_of_starts {t : ProcColl} {m : Str} {f : Fields} (h : starts t m = some f) (now : UInt64) :
    commandTable t now f = if f.statement.isEmpty || f.token.isEmpty || f.user.isEmpty then t
      else t.insert f.token (entryOf f now) := by
  unfold starts at h
  split at h
  · split at h
    · cases h
    · rename_i hlife
      cases h
      exact if_neg hlife
  · cases h

/-- The answers a process goes on with by itself: not those of a `fork` that has succeeded. -/
def single : Sigma Sys.Answer → Bool
  | ⟨.fork, r⟩ => r = .failed
  | _ => true

/-- The process after an event, and the one it has made. -/
def procStep (chunkSize : UInt64) (p : Proc) : Event → Option (Proc × Option Proc)
  | .message now m =>
    match p.state with
    | .accepting =>
      match starts p.table m.message with
      | some f => some ({ p with state := .starting f now (startNewForked f.token f.statement f.user) }, none)
      | none => (afterMessage chunkSize p.table m).map fun t => ({ p with table := t }, none)
    | _ => none
  | .fork =>
    match p.state with
    | .starting f now (.call .fork k) =>
      some ({ p with state := .starting f now (k .parent) }, some { p with state := .starting f now (k .child) })
    | _ => none
  | .call x =>
    match p.state with
    | .starting f now (.call c k) =>
      if h : x.1 = c ∧ single x then some ({ p with state := .starting f now (k (h.1 ▸ x.2)) }, none) else none
    | _ => none
  | .leave =>
    match p.state with
    | .starting _ _ (.call (.exit _) _) => some ({ p with state := .gone }, none)
    | .starting _ _ (.call (.execve _ _) _) => some ({ p with state := .replaced }, none)
    | _ => none
  | .back =>
    match p.state with
    | .starting f now (.ret started) =>
      some ({ table := if started then p.table.insert f.token (entryOf f now) else p.table, state := .accepting }, none)
    | _ => none

/-- The processes by the order they were made in; number 0 is the daemon. -/
structure Procs where
  count : Nat
  proc : Nat → Proc

def daemonStep (chunkSize : UInt64) (s : Procs) (l : Nat × Event) : Option Procs :=
  if s.count ≤ l.1 then none
  else
    (procStep chunkSize (s.proc l.1) l.2).map fun r =>
      match r.2 with
      | none => { s with proc := Function.update s.proc l.1 r.1 }
      | some child => { count := s.count + 1, proc := Function.update (Function.update s.proc l.1 r.1) s.count child }

/-- The daemon before the first message. -/
def daemonStart : Procs := { count := 1, proc := fun _ => { table := OrdMap.empty, state := .accepting } }

/-! ## What is asked of the children -/

def granted : Sigma Sys.Answer → Bool
  | ⟨.getpwnam _, a⟩ => a.isSome
  | ⟨.getgrouplist _ _, a⟩ => a.isSome
  | ⟨.setgroups _, a⟩ => a
  | ⟨.setgid _, a⟩ => a
  | ⟨.setuid _, a⟩ => a
  | _ => true

def eventGranted : Event → Bool
  | .call x => granted x
  | _ => true

/-- The process is back from `start_new`, or has gone on to the next connection. -/
def Proc.Manages (p : Proc) : Prop := p.state = .accepting ∨ ∃ f now b, p.state = .starting f now (.ret b)

/-- Nobody but the daemon comes back. -/
def OneManager (s : Procs) : Prop := ∀ j, j ≠ 0 → j < s.count → ¬ (s.proc j).Manages

/-- With these answers the program does not return. -/
def NeverReturns (p : SysAct Bool) : Prop := wp (fun c a => granted ⟨c, a⟩ = true) (fun _ => True) True p fun _ => False

/-- An answer that is not granted makes the program return at once. -/
def Falls : SysAct Bool → Prop
  | .ret _ => True
  | .call c k => ∀ a, (granted ⟨c, a⟩ = false → k a = .ret false) ∧ Falls (k a)
  | .throw => True

/-- The program of the daemon: it forks and returns. -/
def Outer (p : SysAct Bool) : Prop :=
  (∃ b, p = .ret b) ∨
    ∃ k, p = .call .fork k ∧ k .parent = .ret true ∧ k .failed = .ret true ∧ NeverReturns (k .child) ∧ Falls (k .child)

theorem wp_sys {env : (c : Sys) → c.Answer → Prop} {ok : Sys → Prop} {exc : Prop} {α : Type} (c : Sys)
    (f : c.Answer → SysAct α) (Q : α → Prop) :
    wp env ok exc (sys c >>= f) Q ↔ ok c ∧ ∀ a, env c a → wp env ok exc (f a) Q := Iff.rfl

theorem exit_neverReturns (n : Nat) : NeverReturns (exit n) := ⟨trivial, fun a => nomatch a⟩

theorem secondChild_neverReturns (token cmd user : Str) (pw : Account) : NeverReturns (secondChild token cmd user pw) := by
  refine (wp_sys _ _ _).mpr ⟨trivial, fun ok _ => ?_⟩
  refine (wp_ite _ _ _).mpr ⟨fun _ => exit_neverReturns 1, fun _ => ?_⟩
  refine (wp_sys _ _ _).mpr ⟨trivial, fun groups hgroups => ?_⟩
  rcases groups with _ | groups
  · cases hgroups
  refine (wp_sys _ _ _).mpr ⟨trivial, fun ok (hok : ok = true) => ?_⟩
  subst hok
  refine (wp_sys _ _ _).mpr ⟨trivial, fun ok (hok : ok = true) => ?_⟩
  subst hok
  refine (wp_sys _ _ _).mpr ⟨trivial, fun ok (hok : ok = true) => ?_⟩
  subst hok
  exact ⟨trivial, fun _ _ => ⟨trivial, fun _ _ => exit_neverReturns 0⟩⟩

theorem firstChild_neverReturns (token cmd user : Str) : NeverReturns (firstChild token cmd user) := by
  refine (wp_sys _ _ _).mpr ⟨trivial, fun _ _ => ?_⟩
  refine (wp_sys _ _ _).mpr ⟨trivial, fun ok _ => ?_⟩
  refine (wp_ite _ _ _).mpr ⟨fun _ => exit_neverReturns 1, fun _ => ?_⟩
  refine (wp_sys _ _ _).mpr ⟨trivial, fun pw hpw => ?_⟩
  rcases pw with _ | pw
  · cases hpw
  refine (wp_sys _ _ _).mpr ⟨trivial, fun r _ => ?_⟩
  refine (wp_ite _ _ _).mpr ⟨fun _ => secondChild_neverReturns token cmd user pw, fun _ => ?_⟩
  exact ⟨trivial, fun _ _ => ⟨trivial, fun _ _ => exit_neverReturns 0⟩⟩

theorem falls_sys (c : Sys) (f : c.Answer → SysAct Bool) :
    Falls (sys c >>= f) ↔ ∀ a, (granted ⟨c, a⟩ = false → f a = .ret false) ∧ Falls (f a) := Iff.rfl

theorem falls_exit (n : Nat) : Falls (exit n) := fun a => nomatch a

/-- A `return false` on an answer that is not granted. -/
theorem falls_check {c : Sys} (hc : c.Answer = Bool) (hg : ∀ a, granted ⟨c, a⟩ = cast hc a) {f : c.Answer → SysAct Bool}
    {p : SysAct Bool} (hf : ∀ a, f a = if !cast hc a then .ret false else p) (hp : Falls p) : Falls (sys c >>= f) := by
  refine (falls_sys _ _).mpr fun a => ⟨fun h => ?_, ?_⟩
  · rw [hf, ← hg, h]
    rfl
  · rw [hf]
    split
    · trivial
    · exact hp

theorem secondChild_falls (token cmd user : Str) (pw : Account) : Falls (secondChild token cmd user pw) := by
  refine (falls_sys _ _).mpr fun ok => ⟨fun h => (nomatch h), ?_⟩
  cases ok with
  | false => exact falls_exit 1
  | true =>
    refine (falls_sys _ _).mpr fun groups => ?_
    rcases groups with _ | groups
    · exact ⟨fun _ => rfl, trivial⟩
    refine ⟨fun h => (nomatch h), ?_⟩
    refine falls_check rfl (fun _ => rfl) (fun _ => rfl) ?_
    refine falls_check rfl (fun _ => rfl) (fun _ => rfl) ?_
    refine falls_check rfl (fun _ => rfl) (fun _ => rfl) ?_
    exact fun _ => ⟨fun h => (nomatch h), fun _ => ⟨fun h => (nomatch h), falls_exit 0⟩⟩

theorem firstChild_falls (token cmd user : Str) : Falls (firstChild token cmd user) := by
  refine (falls_sys _ _).mpr fun _ => ⟨fun h => (nomatch h), ?_⟩
  refine (falls_sys _ _).mpr fun ok => ⟨fun h => (nomatch h), ?_⟩
  cases ok with
  | false => exact falls_exit 1
  | true =>
    refine (falls_sys _ _).mpr fun pw => ?_
    rcases pw with _ | pw
    · exact ⟨fun _ => rfl, trivial⟩
    refine ⟨fun h => (nomatch h), (falls_sys _ _).mpr fun r => ⟨fun h => (nomatch h), ?_⟩⟩
    by_cases hr : r = .child
    · rw [if_pos hr]
      exact secondChild_falls token cmd user pw
    · rw [if_neg hr]
      exact fun _ => ⟨fun h => (nomatch h), fun _ => ⟨fun h => (nomatch h), falls_exit 0⟩⟩

theorem startNewForked_falls (token cmd user : Str) : Falls (startNewForked token cmd user) := by
  unfold startNewForked
  split
  · trivial
  · refine (falls_sys _ _).mpr fun r => ⟨fun h => (nomatch h), ?_⟩
    split
    · trivial
    · exact firstChild_falls token cmd user

theorem startNewForked_outer (token cmd user : Str) : Outer (startNewForked token cmd user) := by
  unfold startNewForked
  split
  · exact Or.inl ⟨false, rfl⟩
  · exact Or.inr ⟨_, rfl, rfl, rfl, firstChild_neverReturns token cmd user, firstChild_falls token cmd user⟩

/-! ## What an event does -/

inductive Moves (p : Proc) : Event → Proc × Option Proc → Prop where
  | start (now : UInt64) (m : Handled) (f : Fields) (h : p.state = .accepting) :
      Moves p (.message now m) ({ p with state := .starting f now (startNewForked f.token f.statement f.user) }, none)
  | handle (now : UInt64) (m : Handled) (t : ProcColl) (h : p.state = .accepting) :
      Moves p (.message now m) ({ p with table := t }, none)
  | fork (f : Fields) (now : UInt64) (k : Forked → SysAct Bool) (h : p.state = .starting f now (.call .fork k)) :
      Moves p .fork
        ({ p with state := .starting f now (k .parent) }, some { p with state := .starting f now (k .child) })
  | call (f : Fields) (now : UInt64) (c : Sys) (a : c.Answer) (k : c.Answer → SysAct Bool)
      (h : p.state = .starting f now (.call c k)) (hs : single ⟨c, a⟩ = true) :
      Moves p (.call ⟨c, a⟩) ({ p with state := .starting f now (k a) }, none)
  | leave (f : Fields) (now : UInt64) (c : Sys) (k : c.Answer → SysAct Bool) (st : ProcState)
      (h : p.state = .starting f now (.call c k)) (hc : c ≠ .fork) (hst : st = .gone ∨ st = .replaced) :
      Moves p .leave ({ p with state := st }, none)
  | back (f : Fields) (now : UInt64) (b : Bool) (t : ProcColl) (h : p.state = .starting f now (.ret b)) :
      Moves p .back ({ table := t, state := .accepting }, none)

theorem moves_of_procStep {chunkSize : UInt64} {p : Proc} {e : Event} {r : Proc × Option Proc}
    (h : procStep chunkSize p e = some r) : Moves p e r := by
  cases e with
  | message now m =>
    simp only [procStep] at h
    split at h
    · rename_i hp
      split at h
      · cases h
        exact .start now m _ hp
      · obtain ⟨t, -, rfl⟩ := Option.map_eq_some_iff.mp h
        exact .handle now m t hp
    · cases h
  | fork =>
    simp only [procStep] at h
    split at h
    · rename_i f now k hp
      cases h
      exact .fork f now k hp
    · cases h
  | call x =>
    simp only [procStep] at h
    split at h
    · rename_i f now c k hp
      split at h
      · rename_i hx
        obtain ⟨c', a⟩ := x
        obtain ⟨hc, hs⟩ := hx
        simp only at hc
        subst hc
        cases h
        exact .call f now c' a k hp hs
      · cases h
    · cases h
  | leave =>
    simp only [procStep] at h
    split at h
    · rename_i hp
      cases h
      exact .leave _ _ _ _ _ hp (fun e => nomatch e) (Or.inl rfl)
    · rename_i hp
      cases h
      exact .leave _ _ _ _ _ hp (fun e => nomatch e) (Or.inr rfl)
    · cases h
  | back =>
    simp only [procStep] at h
    split at h
    · rename_i f now b hp
      cases h
      exact .back f now b _ hp
    · cases h

/-- Process `i` moves, the others stay, and what it has made stands at the end. -/
theorem daemonStep_inv {chunkSize : UInt64} {s s' : Procs} {i : Nat} {e : Event}
    (h : daemonStep chunkSize s (i, e) = some s') : i < s.count ∧ ∃ r, Moves (s.proc i) e r ∧ s'.proc i = r.1 ∧
      s.count ≤ s'.count ∧ (∀ j, j < s.count → j ≠ i → s'.proc j = s.proc j) ∧
      ∀ j, s.count ≤ j → j < s'.count → r.2 = some (s'.proc j) := by
  unfold daemonStep at h
  split at h
  · cases h
  · rename_i hi
    simp only [Nat.not_le] at hi
    obtain ⟨⟨p', child⟩, hr, hs'⟩ := Option.map_eq_some_iff.mp h
    refine ⟨hi, (p', child), moves_of_procStep hr, ?_⟩
    rcases child with _ | child
    · subst hs'
      refine ⟨by simp, Nat.le_refl _, fun j _ hj => by simp [Function.update_of_ne hj], fun j h1 h2 => ?_⟩
      simp only at h2
      omega
    · subst hs'
      refine ⟨?_, Nat.le_succ _, fun j h1 hj => ?_, fun j h1 h2 => ?_⟩
      · simp only
        rw [Function.update_of_ne (by omega), Function.update_self]
      · simp only
        rw [Function.update_of_ne (by omega), Function.update_of_ne hj]
      · simp only at h2
        obtain rfl : j = s.count := by omega
        simp

/-! ## Invariants -/

/-- The daemon accepts, or is in its part of `start_new`. -/
def Proc.Daemon (p : Proc) : Prop := p.state = .accepting ∨ ∃ f now q, p.state = .starting f now q ∧ Outer q

/-- A child is over, or is in a program that does not come back. -/
def Proc.Bound (p : Proc) : Prop :=
  (p.state = .gone ∨ p.state = .replaced) ∨ ∃ f now q, p.state = .starting f now q ∧ NeverReturns q

def Proc.Fragile (p : Proc) : Prop := ∀ f now q, p.state = .starting f now q → Falls q

theorem Proc.Fragile.starting {t : ProcColl} {f : Fields} {now : UInt64} {q : SysAct Bool} (hq : Falls q) :
    Proc.Fragile ⟨t, .starting f now q⟩ := by
  intro f' now' q' hp
  cases hp
  exact hq

theorem Proc.Bound.not_manages {p : Proc} (h : p.Bound) : ¬ p.Manages := by
  rintro (hm | ⟨f', now', b, hm⟩)
  · rcases h with (h | h) | ⟨f, now, q, h, -⟩ <;> (rw [h] at hm; cases hm)
  · rcases h with (h | h) | ⟨f, now, q, h, hq⟩
    · rw [h] at hm; cases hm
    · rw [h] at hm; cases hm
    · rw [h] at hm
      cases hm
      exact hq

/-- The only call the daemon comes to is the first `fork`. -/
theorem Proc.Daemon.at_fork {p : Proc} (h : p.Daemon) {f : Fields} {now : UInt64} {c : Sys} {k : c.Answer → SysAct Bool}
    (hp : p.state = .starting f now (.call c k)) : c = .fork := by
  rcases h with h | ⟨f', now', q, h, ⟨b, rfl⟩ | ⟨k', rfl, -⟩⟩
  · rw [h] at hp; cases hp
  · rw [h] at hp; cases hp
  · rw [h] at hp; cases hp
    rfl

theorem Proc.Daemon.outer {p : Proc} (h : p.Daemon) {f : Fields} {now : UInt64} {q : SysAct Bool}
    (hp : p.state = .starting f now q) : Outer q := by
  rcases h with h | ⟨f', now', q', h, hq⟩
  · rw [h] at hp; cases hp
  · rw [h] at hp; cases hp
    exact hq

theorem Proc.Daemon.moves {p : Proc} {e : Event} {r : Proc × Option Proc} (h : p.Daemon) (hm : Moves p e r) :
    r.1.Daemon ∧ ∀ child, r.2 = some child → child.Bound ∧ child.Fragile := by
  cases hm with
  | start now m f hp =>
    exact ⟨Or.inr ⟨f, now, _, rfl, startNewForked_outer f.token f.statement f.user⟩, fun _ hc => nomatch hc⟩
  | handle now m t hp => exact ⟨Or.inl hp, fun _ hc => nomatch hc⟩
  | fork f now k hp =>
    rcases h.outer hp with ⟨b, hb⟩ | ⟨k', hk, hparent, -, hchild, hfalls⟩
    · cases hb
    · cases hk
      refine ⟨Or.inr ⟨f, now, _, rfl, Or.inl ⟨true, hparent⟩⟩, fun child hc => ?_⟩
      cases hc
      exact ⟨Or.inr ⟨f, now, _, rfl, hchild⟩, .starting hfalls⟩
  | call f now c a k hp hs =>
    obtain rfl := h.at_fork hp
    rcases h.outer hp with ⟨b, hb⟩ | ⟨k', hk, -, hfailed, -⟩
    · cases hb
    · cases hk
      have ha : a = .failed := by simpa [single] using hs
      subst ha
      exact ⟨Or.inr ⟨f, now, _, rfl, Or.inl ⟨true, hfailed⟩⟩, fun _ hc => nomatch hc⟩
  | leave f now c k st hp hc hst => exact absurd (h.at_fork hp) hc
  | back f now b t hp => exact ⟨Or.inl rfl, fun _ hc => nomatch hc⟩

theorem Proc.Bound.neverReturns {p : Proc} (h : p.Bound) {f : Fields} {now : UInt64} {q : SysAct Bool}
    (hp : p.state = .starting f now q) : NeverReturns q := by
  rcases h with (h | h) | ⟨f', now', q', h, hq⟩
  · rw [h] at hp; cases hp
  · rw [h] at hp; cases hp
  · rw [h] at hp; cases hp
    exact hq

theorem Proc.Bound.moves {p : Proc} {e : Event} {r : Proc × Option Proc} (h : p.Bound) (he : eventGranted e = true)
    (hm : Moves p e r) : r.1.Bound ∧ ∀ child, r.2 = some child → child.Bound := by
  cases hm with
  | start now m f hp => exact absurd (Or.inl hp) h.not_manages
  | handle now m t hp => exact absurd (Or.inl hp) h.not_manages
  | fork f now k hp =>
    have hq := (h.neverReturns hp).2
    refine ⟨Or.inr ⟨f, now, _, rfl, hq .parent rfl⟩, fun child hc => ?_⟩
    cases hc
    exact Or.inr ⟨f, now, _, rfl, hq .child rfl⟩
  | call f now c a k hp hs => exact ⟨Or.inr ⟨f, now, _, rfl, (h.neverReturns hp).2 a he⟩, fun _ hc => nomatch hc⟩
  | leave f now c k st hp hc hst => exact ⟨Or.inl hst, fun _ hc => nomatch hc⟩
  | back f now b t hp => exact absurd (Or.inr ⟨f, now, b, hp⟩) h.not_manages

theorem Proc.Fragile.moves {p : Proc} {e : Event} {r : Proc × Option Proc} (h : p.Fragile) (hm : Moves p e r) :
    r.1.Fragile ∧ ∀ child, r.2 = some child → child.Fragile := by
  cases hm with
  | start now m f hp => exact ⟨.starting (startNewForked_falls _ _ _), fun _ hc => nomatch hc⟩
  | handle now m t hp =>
    refine ⟨fun f now q hq => ?_, fun _ hc => nomatch hc⟩
    cases hp.symm.trans hq
  | fork f now k hp =>
    have hk := h f now _ hp
    refine ⟨.starting (hk .parent).2, fun child hc => ?_⟩
    cases hc
    exact .starting (hk .child).2
  | call f now c a k hp hs => exact ⟨.starting (h f now _ hp a).2, fun _ hc => nomatch hc⟩
  | leave f now c k st hp hc hst =>
    refine ⟨fun f now q hq => ?_, fun _ hc => nomatch hc⟩
    rcases hst with rfl | rfl <;> cases hq
  | back f now b t hp => exact ⟨fun f now q hq => (nomatch hq), fun _ hc => nomatch hc⟩

/-! ## Runs -/

/-- The daemon is number 0, and every other process has a property. -/
structure Under (P : Proc → Prop) (s : Procs) : Prop where
  pos : 0 < s.count
  daemon : (s.proc 0).Daemon
  rest : ∀ j, j ≠ 0 → j < s.count → P (s.proc j)

theorem under_step {P : Proc → Prop} {chunkSize : UInt64} {s s' : Procs} {i : Nat} {e : Event} (h : Under P s)
    (hstep : daemonStep chunkSize s (i, e) = some s')
    (hdaemon : ∀ p r child, p.Daemon → Moves p e r → r.2 = some child → P child)
    (hrest : ∀ p r, P p → Moves p e r → P r.1 ∧ ∀ child, r.2 = some child → P child) : Under P s' := by
  obtain ⟨hi, r, hm, hri, hle, hother, hnew⟩ := daemonStep_inv hstep
  have hchild : ∀ child, r.2 = some child → P child := by
    intro child hc
    by_cases e0 : i = 0
    · subst e0
      exact hdaemon _ r child h.daemon hm hc
    · exact (hrest _ r (h.rest i e0 hi) hm).2 child hc
  refine ⟨Nat.lt_of_lt_of_le h.pos hle, ?_, fun j hj hlt => ?_⟩
  · by_cases e0 : i = 0
    · subst e0
      rw [hri]
      exact (h.daemon.moves hm).1
    · rw [hother 0 h.pos (Ne.symm e0)]
      exact h.daemon
  · by_cases hold : j < s.count
    · by_cases e : j = i
      · subst e
        rw [hri]
        exact (hrest _ r (h.rest j hj hold) hm).1
      · rw [hother j hold e]
        exact h.rest j hj hold
    · exact hchild _ (hnew j (by omega) hlt)

theorem under_start (P : Proc → Prop) : Under P daemonStart :=
  ⟨Nat.one_pos, Or.inl rfl, fun _ h0 hj => absurd (Nat.lt_one_iff.mp hj) h0⟩

/-- Whatever the answers, a process that is not granted one falls back into the manager. -/
theorem fragile_of_run {chunkSize : UInt64} {s : Procs} {tr : List (Nat × Event)}
    (h : Run (daemonStep chunkSize) (fun _ _ => True) daemonStart tr s) : Under Proc.Fragile s := by
  refine h.invariant (under_start _) fun {s l s'} hu _ hstep => ?_
  refine under_step hu hstep (fun p r child hp hm hc => ((hp.moves hm).2 child hc).2) fun p r hp hm => hp.moves hm

theorem bound_of_run {chunkSize : UInt64} {s : Procs} {tr : List (Nat × Event)}
    (h : Run (daemonStep chunkSize) (fun _ l => eventGranted l.2 = true) daemonStart tr s) : Under Proc.Bound s := by
  refine h.invariant (under_start _) fun {s l s'} hu hok hstep => ?_
  refine under_step hu hstep (fun p r child hp hm hc => ((hp.moves hm).2 child hc).1) fun p r hp hm => hp.moves hok hm

/-- An answer that is not granted makes another manager at once. -/
theorem refused_makes_manager {chunkSize : UInt64} {s s' : Procs} {l : Nat × Event} (h : Under Proc.Fragile s)
    (hstep : daemonStep chunkSize s l = some s') (hl : eventGranted l.2 = false) : ¬ OneManager s' := by
  obtain ⟨i, e⟩ := l
  obtain ⟨hi, r, hm, hri, hle, -, -⟩ := daemonStep_inv hstep
  cases e with
  | call x =>
    cases hm with
    | call f now c a k hp hs =>
      have h0 : i ≠ 0 := by
        intro h0
        subst h0
        obtain rfl := h.daemon.at_fork hp
        cases hl
      have hret : k a = .ret false := (h.rest i h0 hi f now _ hp a).1 hl
      intro hone
      refine hone i h0 (Nat.lt_of_lt_of_le hi hle) (Or.inr ⟨f, now, false, ?_⟩)
      rw [hri, hret]
  | message now m => cases hl
  | fork => cases hl
  | leave => cases hl
  | back => cases hl

/-- In any run, nobody but the daemon comes back from `start_new`, at any time, exactly if
    every child is granted what it asks for. -/
theorem one_manager_iff (chunkSize : UInt64) {tr : List (Nat × Event)} {s : Procs}
    (h : Run (daemonStep chunkSize) (fun _ _ => True) daemonStart tr s) :
    (∀ tr₁ tr₂ s₁, tr = tr₁ ++ tr₂ → Run (daemonStep chunkSize) (fun _ _ => True) daemonStart tr₁ s₁ → OneManager s₁) ↔
      ∀ l ∈ tr, eventGranted l.2 = true := by
  constructor
  · intro hone l hl
    by_contra hn
    obtain ⟨a, b, rfl⟩ := List.append_of_mem hl
    have hsplit : a ++ l :: b = (a ++ [l]) ++ b := by simp
    rw [hsplit] at h
    obtain ⟨s₂, hfirst, -⟩ := h.split
    obtain ⟨s₁, hbefore, -, hstep⟩ := hfirst.last
    exact refused_makes_manager (fragile_of_run hbefore) hstep (by simpa using hn) (hone (a ++ [l]) b s₂ hsplit hfirst)
  · intro hall tr₁ tr₂ s₁ htr hrun j hj hlt
    have hgranted : ∀ l ∈ tr₁, eventGranted l.2 = true := fun l hl => hall l (htr ▸ List.mem_append_left _ hl)
    exact ((bound_of_run (hrun.of_labels hgranted)).rest j hj hlt).not_manages

/-! ## Two commands of alice -/

/-- A command arrives, and the first child gets as far as `getpwnam`. -/
def upToAccount (a : Option Account) : List (Nat × Event) :=
  [(0, .message 1000 aliceStarts), (0, .fork), (0, .back), (1, .call ⟨.setsid, ()⟩), (1, .call ⟨.pipe, true⟩),
    (1, .call ⟨.getpwnam (str "alice"), a⟩)]

/-- The second child becomes alice and runs the command. -/
def runsCommand : List (Nat × Event) :=
  upToAccount (some ⟨1001, 100⟩) ++
  [(1, .fork), (2, .call ⟨.setloginuid 1001, true⟩), (2, .call ⟨.getgrouplist (str "alice") 100, some [100]⟩),
    (2, .call ⟨.setgroups [100], true⟩), (2, .call ⟨.setgid 100, true⟩), (2, .call ⟨.setuid 1001, true⟩),
    (2, .call ⟨.pidOutput (pidFile aliceToken), true⟩), (2, .leave)]

theorem a_granted_command_has_one_manager : ∃ s,
    Run (daemonStep (UInt64.ofNat chunkerReadSize)) (fun _ _ => True) daemonStart runsCommand s ∧ s.count = 3 ∧
      OneManager s := by
  have hexec : ((execWhile (daemonStep (UInt64.ofNat chunkerReadSize)) (fun _ _ => true) daemonStart runsCommand).any
      fun s => s.count = 3) = true := by decide +kernel
  obtain ⟨s, hrun, hs⟩ := exists_run_of_exec (fun {_ _} _ => trivial) hexec
  refine ⟨s, hrun, of_decide_eq_true hs, ?_⟩
  exact (one_manager_iff _ hrun).mpr (by decide) runsCommand [] s (by simp) hrun

/-- The first child returns `false` into the manager's `process`, and accepts connections. -/
theorem an_unknown_user_makes_a_second_manager : ∃ s,
    Run (daemonStep (UInt64.ofNat chunkerReadSize)) (fun _ _ => True) daemonStart (upToAccount none ++ [(1, .back)]) s ∧
      (s.proc 0).state = .accepting ∧ (s.proc 1).state = .accepting ∧ ¬ OneManager s := by
  have hexec : ((execWhile (daemonStep (UInt64.ofNat chunkerReadSize)) (fun _ _ => true) daemonStart
      (upToAccount none ++ [(1, .back)])).any fun s =>
        s.count = 2 && (s.proc 0).state.isAccepting && (s.proc 1).state.isAccepting) = true := by decide +kernel
  obtain ⟨s, hrun, hs⟩ := exists_run_of_exec (fun {_ _} _ => trivial) hexec
  simp only [Bool.and_eq_true, decide_eq_true_eq] at hs
  have h0 := ProcState.isAccepting_iff.mp hs.1.2
  have h1 := ProcState.isAccepting_iff.mp hs.2
  exact ⟨s, hrun, h0, h1, fun hone => hone 1 (by decide) (by rw [hs.1.1]; decide) (Or.inl h1)⟩

end VyattaRest.Chunker
