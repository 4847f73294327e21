/-
  VyattaRest.SessionLock — the lock on the session file: `Lock` (authsession.cc) and `get_key`
  (SessionKey.pm).

  Both take the lock by creating `session.lck` exclusively and give it back by removing it.
  Every call on a file is a step, and any number of processes take steps in any order. A
  process that gives up is not done: the destructor of a `Lock` that was not acquired renames
  and removes what it finds, after its constructor has emptied `session_tmp`, and `get_key`
  removes the lock file.
  - `lock_is_exclusive`: as long as nobody gives up, one process at a time holds the lock.
  - `giving_up_removes_the_lock`: whoever gives up removes it from under its holder.
  - `two_processes_hold_the_lock`: a holder, one that gives up, and a third.
-/

import VyattaRest.Lib.Bytes
import VyattaRest.Lib.Machine

namespace VyattaRest.SessionLock

open VyattaRest.Lib

/-! ## Files -/

/-- The directory: the two names with the inode each stands for, and the bytes of every
    inode. An inode keeps its bytes when its name goes. -/
structure Files where
  lck : Bool
  session : Option Nat
  tmp : Option Nat
  data : Nat → Str
  /-- No inode from here on is in use. -/
  fresh : Nat

namespace Files

def setData (f : Files) (n : Nat) (d : Str) : Files := { f with data := Function.update f.data n d }

/-- `open(.., O_CREAT)`: an empty file where there is none. -/
def createSession (f : Files) : Files :=
  match f.session with
  | some _ => f
  | none => { f.setData f.fresh [] with session := some f.fresh, fresh := f.fresh + 1 }

def createTmp (f : Files) : Nat × Files :=
  match f.tmp with
  | some n => (n, f)
  | none => (f.fresh, { f.setData f.fresh [] with tmp := some f.fresh, fresh := f.fresh + 1 })

/-- `fopen(.., "w")`. -/
def truncateTmp (f : Files) : Nat × Files :=
  let (n, f) := f.createTmp
  (n, f.setData n [])

/-- A write at an offset; a gap in front of it reads as zeros. -/
def write (f : Files) (n off : Nat) (text : Str) : Files :=
  let d := f.data n
  f.setData n (d.take off ++ List.replicate (off - d.length) 0 ++ text ++ d.drop (off + text.length))

/-- `rename(session_tmp, session)`, which fails where there is nothing to rename. -/
def renameTmp (f : Files) : Files :=
  match f.tmp with
  | some n => { f with session := some n, tmp := none }
  | none => f

def unlinkTmp (f : Files) : Files := { f with tmp := none }

def unlinkLck (f : Files) : Files := { f with lck := false }

end Files

/-! ## Processes -/

/-- `Lock::_retry_lock_count`, and the tries of `get_key`. -/
def retryLockCount : Nat := 5

def keyTries : Nat := 5

/-- Where a process is: what it does next. `held` is `_lck_fd > -1`, `failed` the negation of
    `status()`. -/
inductive Proc where
  | idle
  | lockTry (ct : Nat)
  | lockSession (held : Bool)
  | lockTmp (held : Bool) (fp : Option Nat)
  | lockUse (tmp off : Nat)
  | lockRename (held failed : Bool)
  | lockUnlink (held failed : Bool)
  | keyTry (left : Nat)
  | keyGiveUp
  | keySession
  | keyTmp
  | keyUse (tmp off : Nat)
  | keyRename
  | keyUnlinkTmp
  | keyUnlink
  | keyAbort
  deriving DecidableEq, Repr

/-- A call, which may be `broken`: fail for a reason of its own. `die` is the `exit` in
    `gen_key`, which leaves the lock where it is. -/
inductive Move where
  | lock
  | getKey
  | call (broken : Bool)
  | write (text : Str)
  | die
  deriving DecidableEq, Repr

namespace Proc

def step (f : Files) : Proc → Move → Option (Proc × Files)
  -- the constructor of a Lock
  | idle, .lock => some (lockTry 0, f)
  | lockTry ct, .call broken =>
    if f.lck || broken then some (if ct + 1 < retryLockCount then lockTry (ct + 1) else lockSession false, f)
    else some (lockSession true, { f with lck := true })
  | lockSession held, .call broken => some (lockTmp held (if broken then none else f.session), f)
  | lockTmp held fp, .call broken =>
    if broken then some (lockRename held true, f)
    else if held && fp.isSome then some (lockUse f.truncateTmp.1 0, f.truncateTmp.2)
    else some (lockRename held true, f.truncateTmp.2)
  -- AuthSession::authorized reads the one file and writes the other
  | lockUse tmp off, .write text => some (lockUse tmp (off + text.length), f.write tmp off text)
  | lockUse _ _, .call _ => some (lockRename true false, f)
  -- the destructor
  | lockRename held failed, .call _ => some (lockUnlink held failed, f.renameTmp)
  | lockUnlink _ _, .call _ => some (idle, f.unlinkLck)
  -- get_key
  | idle, .getKey => some (keyTry keyTries, f)
  | keyTry left, .call broken =>
    if f.lck || broken then some (if 1 < left then keyTry (left - 1) else keyGiveUp, f)
    else some (keySession, { f with lck := true })
  | keyGiveUp, .call _ => some (idle, f.unlinkLck)
  | keySession, .call broken => if broken then some (keyAbort, f) else some (keyTmp, f.createSession)
  | keyTmp, .call broken => if broken then some (keyAbort, f) else some (keyUse f.createTmp.1 0, f.createTmp.2)
  | keyUse tmp off, .write text => some (keyUse tmp (off + text.length), f.write tmp off text)
  | keyUse _ _, .die => some (idle, f)
  | keyUse _ _, .call _ => some (keyRename, f)
  | keyRename, .call _ => some (keyUnlinkTmp, f.renameTmp)
  | keyUnlinkTmp, .call _ => some (keyUnlink, f.unlinkTmp)
  | keyUnlink, .call _ => some (idle, f.unlinkLck)
  | keyAbort, .call _ => some (idle, f.unlinkLck)
  | _, _ => none

/-- Between a successful acquisition and its release. -/
def holds : Proc → Bool
  | lockSession held => held
  | lockTmp held _ => held
  | lockUse _ _ => true
  | lockRename held _ => held
  | lockUnlink held _ => held
  | keySession | keyTmp | keyUse _ _ | keyRename | keyUnlinkTmp | keyUnlink | keyAbort => true
  | idle | lockTry _ | keyTry _ | keyGiveUp => false

/-- `status()` is false, or will be; all tries of `get_key` are used up. -/
def gaveUp : Proc → Bool
  | lockSession held => !held
  | lockTmp held fp => !held || fp.isNone
  | lockRename held failed => !held || failed
  | lockUnlink held failed => !held || failed
  | keyGiveUp => true
  | _ => false

/-- The process does not give up here: its last try finds no lock file, a `Lock` finds the
    session file, and these calls do not break. -/
def carriesOn (f : Files) : Proc → Move → Bool
  | lockTry ct, .call broken => ct + 1 < retryLockCount || (!f.lck && !broken)
  | lockSession _, .call broken => f.session.isSome && !broken
  | lockTmp _ _, .call broken => !broken
  | keyTry left, .call broken => 1 < left || (!f.lck && !broken)
  | _, _ => true

end Proc

structure State (ι : Type) where
  files : Files
  procs : ι → Proc

variable {ι : Type} [DecidableEq ι]

/-- A process makes a move. -/
def step (s : State ι) (l : ι × Move) : Option (State ι) :=
  ((s.procs l.1).step s.files l.2).map fun r => { files := r.2, procs := Function.update s.procs l.1 r.1 }

/-- The move is one with which nobody gives up. -/
def carriesOn (s : State ι) (l : ι × Move) : Bool := (s.procs l.1).carriesOn s.files l.2

/-- At most one process is between acquisition and release. -/
def Exclusive (s : State ι) : Prop :=
  ∀ i j, (s.procs i).holds = true → (s.procs j).holds = true → i = j

/-- A process that gives up, or has given up, leaves the files as they were. -/
def Harmless (s : State ι) (l : ι × Move) (s' : State ι) : Prop :=
  (s.procs l.1).gaveUp = true ∨ (s'.procs l.1).gaveUp = true → s'.files = s.files

/-! ## As long as nobody gives up -/

namespace Files

@[simp] theorem createTmp_lck (f : Files) : f.createTmp.2.lck = f.lck := by
  unfold createTmp
  split <;> rfl

@[simp] theorem truncateTmp_lck (f : Files) : f.truncateTmp.2.lck = f.lck := f.createTmp_lck

@[simp] theorem createSession_lck (f : Files) : f.createSession.lck = f.lck := by
  unfold createSession
  split <;> rfl

@[simp] theorem renameTmp_lck (f : Files) : f.renameTmp.lck = f.lck := by
  unfold renameTmp
  split <;> rfl

end Files

/-- What a move does to the lock: nothing, or it takes it where there is none, or it is the
    holder's last. -/
inductive Effect (p : Proc) (f : Files) (p' : Proc) (f' : Files) : Prop where
  | stays (h : p'.holds = p.holds) (hlck : f'.lck = f.lck)
  | takes (hfree : f.lck = false) (hlck : f'.lck = true)
  | ends (h : p.holds = true) (h' : p'.holds = false)

theorem step_effect {p p' : Proc} {f f' : Files} {m : Move} (h : p.step f m = some (p', f'))
    (hok : p.carriesOn f m = true) (hgave : p.gaveUp = false) : p'.gaveUp = false ∧ Effect p f p' f' := by
  cases p with
  | idle => cases m <;> cases h <;> exact ⟨rfl, .stays rfl rfl⟩
  | lockTry ct =>
    cases m with
    | call broken =>
      simp only [Proc.step] at h
      split at h
      · rename_i hfail
        -- a try that fails is not the last one
        have hmore : ct + 1 < retryLockCount := by
          simp only [Proc.carriesOn, Bool.or_eq_true, Bool.and_eq_true, Bool.not_eq_true', decide_eq_true_eq] at hok hfail
          rcases hok with hok | ⟨hlck, hbroken⟩
          · exact hok
          · simp [hlck, hbroken] at hfail
        rw [if_pos hmore] at h
        cases h
        exact ⟨rfl, .stays rfl rfl⟩
      · rename_i hfree
        cases h
        exact ⟨rfl, .takes (by simp_all) rfl⟩
    | _ => cases h
  | lockSession held =>
    cases m with
    | call broken =>
      simp only [Proc.carriesOn, Bool.and_eq_true, Bool.not_eq_true'] at hok
      cases h
      refine ⟨?_, .stays rfl rfl⟩
      simp only [Proc.gaveUp] at hgave ⊢
      rw [hok.2, hgave, if_neg (by decide), ← Option.not_isSome, hok.1]
      rfl
    | _ => cases h
  | lockTmp held fp =>
    cases m with
    | call broken =>
      have hopen : (held && fp.isSome) = true := by
        simp only [Proc.gaveUp, Bool.or_eq_false_iff] at hgave
        cases fp with
        | none => cases hgave.2
        | some n => simpa using hgave.1
      have hheld : held = true := (Bool.and_eq_true_iff.mp hopen).1
      simp only [Proc.carriesOn, Bool.not_eq_true'] at hok
      simp only [Proc.step, hok, Bool.false_eq_true, if_false, hopen, if_true] at h
      cases h
      exact ⟨rfl, .stays hheld.symm f.truncateTmp_lck⟩
    | _ => cases h
  | lockUse tmp off => cases m <;> cases h <;> exact ⟨rfl, .stays rfl rfl⟩
  | lockRename held failed =>
    cases m <;> cases h
    exact ⟨hgave, .stays rfl f.renameTmp_lck⟩
  | lockUnlink held failed =>
    have hheld : held = true := by simpa using (Bool.or_eq_false_iff.mp hgave).1
    cases m <;> cases h
    exact ⟨rfl, .ends hheld rfl⟩
  | keyTry left =>
    cases m with
    | call broken =>
      simp only [Proc.step] at h
      split at h
      · rename_i hfail
        have hmore : 1 < left := by
          simp only [Proc.carriesOn, Bool.or_eq_true, Bool.and_eq_true, Bool.not_eq_true', decide_eq_true_eq] at hok hfail
          rcases hok with hok | ⟨hlck, hbroken⟩
          · exact hok
          · simp [hlck, hbroken] at hfail
        rw [if_pos hmore] at h
        cases h
        exact ⟨rfl, .stays rfl rfl⟩
      · rename_i hfree
        cases h
        exact ⟨rfl, .takes (by simp_all) rfl⟩
    | _ => cases h
  | keyGiveUp => cases hgave
  | keySession =>
    cases m with
    | call broken =>
      cases broken with
      | false =>
        cases h
        exact ⟨rfl, .stays rfl f.createSession_lck⟩
      | true =>
        cases h
        exact ⟨rfl, .stays rfl rfl⟩
    | _ => cases h
  | keyTmp =>
    cases m with
    | call broken =>
      cases broken with
      | false =>
        cases h
        exact ⟨rfl, .stays rfl f.createTmp_lck⟩
      | true =>
        cases h
        exact ⟨rfl, .stays rfl rfl⟩
    | _ => cases h
  | keyUse tmp off =>
    cases m with
    | write text =>
      cases h
      exact ⟨rfl, .stays rfl rfl⟩
    | die =>
      cases h
      exact ⟨rfl, .ends rfl rfl⟩
    | call broken =>
      cases h
      exact ⟨rfl, .stays rfl rfl⟩
    | _ => cases h
  | keyRename =>
    cases m <;> cases h
    exact ⟨rfl, .stays rfl f.renameTmp_lck⟩
  | keyUnlinkTmp =>
    cases m <;> cases h
    exact ⟨rfl, .stays rfl rfl⟩
  | keyUnlink =>
    cases m <;> cases h
    exact ⟨rfl, .ends rfl rfl⟩
  | keyAbort =>
    cases m <;> cases h
    exact ⟨rfl, .ends rfl rfl⟩

structure Inv (s : State ι) : Prop where
  exclusive : Exclusive s
  locked : ∀ i, (s.procs i).holds = true → s.files.lck = true
  nobody : ∀ i, (s.procs i).gaveUp = false

theorem inv_step {s s' : State ι} {l : ι × Move} (hi : Inv s) (hok : carriesOn s l = true) (h : step s l = some s') :
    Inv s' := by
  obtain ⟨⟨p', f'⟩, hp, rfl⟩ := Option.map_eq_some_iff.mp h
  obtain ⟨hgave, heffect⟩ := step_effect hp hok (hi.nobody l.1)
  have hself : Function.update s.procs l.1 p' l.1 = p' := Function.update_self ..
  have hother : ∀ {i}, i ≠ l.1 → Function.update s.procs l.1 p' i = s.procs i := fun h => Function.update_of_ne h ..
  have hnobody : ∀ i, (Function.update s.procs l.1 p' i).gaveUp = false := by
    intro i
    by_cases e : i = l.1
    · rw [e, hself]
      exact hgave
    · rw [hother e]
      exact hi.nobody i
  cases heffect with
  | stays hsame hlck =>
    have hholds : ∀ i, (Function.update s.procs l.1 p' i).holds = (s.procs i).holds := by
      intro i
      by_cases e : i = l.1
      · rw [e, hself, hsame]
      · rw [hother e]
    refine ⟨fun i j hj hk => ?_, fun i hh => ?_, hnobody⟩
    · exact hi.exclusive i j (hholds i ▸ hj) (hholds j ▸ hk)
    · exact hlck.trans (hi.locked i (hholds i ▸ hh))
  | takes hfree hlck =>
    -- nobody else holds a lock that was free
    have honly : ∀ i, (Function.update s.procs l.1 p' i).holds = true → i = l.1 := by
      intro i hh
      by_contra e
      rw [hother e] at hh
      rw [hi.locked i hh] at hfree
      cases hfree
    exact ⟨fun i j hj hk => (honly i hj).trans (honly j hk).symm, fun _ _ => hlck, hnobody⟩
  | ends hheld hrel =>
    have hnone : ∀ i, (Function.update s.procs l.1 p' i).holds = false := by
      intro i
      by_cases e : i = l.1
      · rw [e, hself, hrel]
      · rw [hother e]
        by_contra hh
        exact e (hi.exclusive i l.1 (Bool.not_eq_false _ ▸ hh) hheld)
    refine ⟨fun i j hj _ => ?_, fun i hh => ?_, hnobody⟩
    · rw [hnone i] at hj
      cases hj
    · rw [hnone i] at hh
      cases hh

/-- The move with which a process gives up is a call that fails. -/
theorem giving_up_is_harmless {p p' : Proc} {f f' : Files} {m : Move} (h : p.step f m = some (p', f'))
    (hgave : p.gaveUp = false) (hgave' : p'.gaveUp = true) : f' = f := by
  cases p with
  | idle => cases m <;> cases h <;> cases hgave'
  | lockTry ct =>
    cases m with
    | call broken =>
      simp only [Proc.step] at h
      split at h
      · cases h
        rfl
      · cases h
        cases hgave'
    | _ => cases h
  | lockSession held =>
    cases m <;> cases h
    rfl
  | lockTmp held fp =>
    cases m with
    | call broken =>
      simp only [Proc.step] at h
      split at h
      · cases h
        rfl
      split at h
      · cases h
        cases hgave'
      · rename_i hopen
        simp only [Proc.gaveUp, Bool.or_eq_false_iff] at hgave
        cases fp with
        | none => cases hgave.2
        | some n => exact absurd (by simpa using hgave.1) hopen
    | _ => cases h
  | lockUse tmp off => cases m <;> cases h <;> cases hgave'
  | lockRename held failed =>
    cases m <;> cases h
    exact absurd hgave' (by simpa [Proc.gaveUp] using hgave)
  | lockUnlink held failed =>
    cases m <;> cases h
    cases hgave'
  | keyTry left =>
    cases m with
    | call broken =>
      simp only [Proc.step] at h
      split at h
      · cases h
        rfl
      · cases h
        cases hgave'
    | _ => cases h
  | keyGiveUp => cases hgave
  | keySession =>
    cases m with
    | call broken => cases broken <;> cases h <;> cases hgave'
    | _ => cases h
  | keyTmp =>
    cases m with
    | call broken => cases broken <;> cases h <;> cases hgave'
    | _ => cases h
  | keyUse tmp off => cases m <;> cases h <;> cases hgave'
  | keyRename =>
    cases m <;> cases h
    cases hgave'
  | keyUnlinkTmp =>
    cases m <;> cases h
    cases hgave'
  | keyUnlink =>
    cases m <;> cases h
    cases hgave'
  | keyAbort =>
    cases m <;> cases h
    cases hgave'

/-- In every run in which nobody gives up, one process at a time holds the lock, and a process
    that gives up next does so without touching a file. -/
theorem lock_is_exclusive {s₀ s : State ι} {tr : List (ι × Move)} (hinit : ∀ i, s₀.procs i = .idle)
    (h : Run step (fun s l => carriesOn s l = true) s₀ tr s) :
    Exclusive s ∧ ∀ l s', step s l = some s' → Harmless s l s' := by
  have hinv : Inv s := by
    refine h.invariant ⟨fun i j hi _ => ?_, fun i hi => ?_, fun i => ?_⟩ inv_step
    · rw [hinit i] at hi
      cases hi
    · rw [hinit i] at hi
      cases hi
    · rw [hinit i]
      rfl
  refine ⟨hinv.exclusive, fun l s' hstep hgave => ?_⟩
  obtain ⟨⟨p', f'⟩, hp, rfl⟩ := Option.map_eq_some_iff.mp hstep
  have hnot := hinv.nobody l.1
  rcases hgave with hgave | hgave
  · rw [hnot] at hgave
    cases hgave
  · change (Function.update s.procs l.1 p' l.1).gaveUp = true at hgave
    rw [Function.update_self] at hgave
    exact giving_up_is_harmless hp hnot hgave

/-! ## Giving up -/

/-- Left alone, the process removes the lock file, whoever holds the lock. -/
def Removes (i : ι) (s : State ι) : Prop :=
  ∃ n s', Run step (fun _ _ => True) s (List.replicate n (i, .call false)) s' ∧ s'.files.lck = false ∧
    ∀ j ≠ i, s'.procs j = s.procs j

theorem Removes.before {s : State ι} {i : ι} {p p' : Proc} {f' : Files} (hp : s.procs i = p)
    (h : p.step s.files (.call false) = some (p', f')) (hnext : Removes i ⟨f', Function.update s.procs i p'⟩) :
    Removes i s := by
  obtain ⟨n, s', hrun, hlck, hother⟩ := hnext
  have hstep : step s (i, .call false) = some ⟨f', Function.update s.procs i p'⟩ := by
    rw [step, show s.procs (i, Move.call false).1 = p from hp, h]
    rfl
  refine ⟨n + 1, s', ?_, hlck, fun j hj => (hother j hj).trans (Function.update_of_ne hj ..)⟩
  rw [List.replicate_succ]
  exact Run.append (.snoc .nil trivial hstep) hrun

/-- The last step of a process that gives up. -/
theorem removes_of_unlink {s : State ι} {i : ι} (h : (s.procs i).step s.files (.call false) = some (.idle, s.files.unlinkLck)) :
    Removes i s :=
  .before rfl h ⟨0, _, .nil, rfl, fun _ _ => rfl⟩

theorem giving_up_removes_the_lock {s : State ι} {i : ι} (hlck : s.files.lck = true)
    (hlast : s.procs i = .lockTry (retryLockCount - 1) ∨ s.procs i = .keyTry 1) : Removes i s := by
  have hself : ∀ (s : State ι) (f : Files) (p : Proc), (⟨f, Function.update s.procs i p⟩ : State ι).procs i = p :=
    fun s f p => Function.update_self ..
  rcases hlast with hlast | hlast
  · refine .before hlast (by simp only [Proc.step, hlck]; rfl) ?_
    refine .before (hself _ _ _) rfl ?_
    refine .before (hself _ _ _) rfl ?_
    refine .before (hself _ _ _) rfl ?_
    refine removes_of_unlink ?_
    rw [hself]
    rfl
  · refine .before hlast (by simp only [Proc.step, hlck]; rfl) ?_
    refine removes_of_unlink ?_
    rw [hself]
    rfl

/-! ## Traces -/

/-- An empty session file, and nobody there. -/
def start : State Nat := ⟨⟨false, some 0, none, fun _ => [], 1⟩, fun _ => .idle⟩

/-- A `Lock` is taken while another is held, which is released in time. -/
def inTurn : List (Nat × Move) :=
  [(0, .lock), (0, .call false), (1, .lock), (1, .call false), (0, .call false), (0, .call false),
   (0, .write (str "0123456789ABCDEF,vyatta,1000,127.0.0.1,\n")), (0, .call false), (0, .call false), (0, .call false),
   (1, .call false)]

theorem the_second_lock_is_exclusive : ∃ s, Run step (fun s l => carriesOn s l = true) start inTurn s ∧
    (s.procs 1).holds = true ∧ Exclusive s := by
  obtain ⟨s, hrun, hholds⟩ := exists_run_of_exec (P := fun s : State Nat => (s.procs 1).holds)
    (fun {_ _} h => h) (show (execWhile step carriesOn start inTurn).any _ = true by decide)
  exact ⟨s, hrun, hholds, (lock_is_exclusive (fun _ => rfl) hrun).1⟩

/-- Process 0 holds the lock, and `get_key` of process 1 runs out of tries. -/
def outOfTries : List (Nat × Move) :=
  [(0, .lock), (0, .call false), (1, .getKey)] ++ List.replicate keyTries (1, .call false)

/-- Process 1 removes the lock file, and process 2 takes the lock. -/
def stolen : List (Nat × Move) := outOfTries ++ [(1, .call false), (2, .lock), (2, .call false)]

theorem two_processes_hold_the_lock :
    (∃ s, Run step (fun _ _ => True) start stolen s ∧ ¬ Exclusive s) ∧
    ∃ s s', Run step (fun _ _ => True) start outOfTries s ∧ step s (1, .call false) = some s' ∧
      ¬ Harmless s (1, .call false) s' := by
  constructor
  · obtain ⟨s, hrun, hholds⟩ := exists_run_of_exec (P := fun s : State Nat => (s.procs 0).holds && (s.procs 2).holds)
      (fun {_ _} _ => trivial) (show (execWhile step (fun _ _ => true) start stolen).any _ = true by decide)
    rw [Bool.and_eq_true] at hholds
    exact ⟨s, hrun, fun h => absurd (h 0 2 hholds.1 hholds.2) (by decide)⟩
  · obtain ⟨s, hrun, hs⟩ := exists_run_of_exec
      (P := fun s : State Nat => (s.procs 1 = .keyGiveUp) && s.files.lck)
      (fun {_ _} _ => trivial) (show (execWhile step (fun _ _ => true) start outOfTries).any _ = true by decide)
    simp only [Bool.and_eq_true, decide_eq_true_eq] at hs
    have hstep : step s (1, .call false) = some ⟨s.files.unlinkLck, Function.update s.procs 1 .idle⟩ := by
      rw [step, show s.procs ((1 : Nat), Move.call false).1 = .keyGiveUp from hs.1]
      rfl
    refine ⟨s, _, hrun, hstep, fun h => ?_⟩
    have hsame := congrArg Files.lck (h (Or.inl (by rw [show s.procs ((1 : Nat), Move.call false).1 = _ from hs.1]; rfl)))
    rw [hs.2] at hsame
    cases hsame

end VyattaRest.SessionLock
