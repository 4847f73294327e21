/-
  VyattaRest.Chunker.Kill — a `<delete>` on its way to the process group it is to kill
  (`kill_process`, chunker2_manager.cc; `writer` and `pid_output`, chunker2_processor.cc).

  The entry is in the table from the fork on, the pid file that `kill_process` goes by is
  written later, by the second child. Manager and children are run as their programs, a call at
  a time, in any order. `kill_process` returns at once when it finds no pid file.
  - `deletes_reach_their_groups`: if every delete of an owner finds a pid file, and the file
    names every group of the token that may still run the command, then at the end of each
    such delete the entry is gone and the groups have been signalled.
  - `an_early_delete_is_lost`: a delete that comes before the pid file leaves the entry in the
    table, and the command runs.
-/

import VyattaRest.Chunker.StartNew

namespace VyattaRest.Chunker.Kill

open VyattaRest.Lib VyattaRest.Rest VyattaRest.Lib.Prog

/-! ## The system -/

/-- A process group that `start_new` has made: its number, the programs its two processes are
    at, whether the command runs in place of the second one, and whether it has been sent a
    signal. -/
structure Group where
  pgid : Nat
  token : Str
  lead : SysAct Bool
  writer : Option (SysAct Bool)
  running : Bool
  signalled : Bool

structure State where
  table : ProcColl
  groups : Nat → Option Group
  /-- The numbers in the pid files. -/
  pid : Str → Option Nat
  /-- The message the manager handles, and where it is. -/
  phase : Option (Str × Act ProcColl)

def start : State where
  table := OrdMap.empty
  groups := fun _ => none
  pid := fun _ => none
  phase := none

/-- What `pid_output` writes. -/
def pidText (pgid : Nat) : Str := dec pgid ++ str "\n"

/-- The shell runs the first line of a command first, whatever stands behind it. -/
def signals (cmd : Str) (pgid : Nat) : Bool :=
  (termCmd (pidText pgid)).isPrefixOf cmd || (killCmd (pidText pgid)).isPrefixOf cmd

/-- What a call of the manager finds and does. `new` is the place and number of the group that
    a command gets, if the fork succeeds. Nothing ends the text that `fread` puts into the
    buffer of `kill_process`. -/
def managerCall (s : State) (new : Option (Nat × Nat)) : Sigma Call.Answer → Option State
  | ⟨.startNew token cmd user, _⟩ =>
    match new with
    | none => some s
    | some (i, pgid) =>
      if (s.groups i).isSome then none
      else
        let g : Group :=
          { pgid, token, lead := firstChild token cmd user, writer := none, running := false, signalled := false }
        some { s with groups := Function.update s.groups i (some g) }
  | ⟨.readPid file, a⟩ =>
    match s.pid file, a with
    | none, none => some s
    | some pgid, some text => if (pidText pgid).isPrefixOf text then some s else none
    | _, _ => none
  | ⟨.unlink file, _⟩ => some { s with pid := Function.update s.pid file none }
  | ⟨.runCmd cmd, _⟩ =>
    some { s with groups := fun i => (s.groups i).map fun g => { g with signalled := g.signalled || signals cmd g.pgid } }
  | _ => some s

/-- What a call of a child does: only `pid_output` leaves something behind. -/
def childCall (s : State) (g : Group) : Sigma Sys.Answer → State
  | ⟨.pidOutput file, true⟩ => { s with pid := Function.update s.pid file (some g.pgid) }
  | _ => s

def State.setGroup (s : State) (i : Nat) (g : Group) : State := { s with groups := Function.update s.groups i (some g) }

/-- The program after an answer, for one process alone. -/
def resume (p : SysAct Bool) (x : Sigma Sys.Answer) : Option (SysAct Bool) :=
  match p with
  | .call c k => if h : single x ∧ x.1 = c then some (k (h.2 ▸ x.2)) else none
  | _ => none

inductive Label where
  | receive (m : Str)
  | manager (x : Sigma Call.Answer) (new : Option (Nat × Nat))
  | finish
  | lead (i : Nat) (x : Sigma Sys.Answer)
  | fork (i : Nat)
  | writer (i : Nat) (x : Sigma Sys.Answer)
  | exec (i : Nat)
  /-- The command comes to its end. -/
  | ended (i : Nat)

def stepGroup (s : State) (i : Nat) (f : Group → Option (State × Group)) : Option State :=
  (s.groups i).bind fun g => (f g).map fun r => r.1.setGroup i r.2

def step (chunkSize : UInt64) (s : State) : Label → Option State
  | .receive m => if s.phase.isSome then none else some { s with phase := some (m, process chunkSize s.table m) }
  | .manager x new =>
    match s.phase with
    | some (m, .call c k) =>
      if h : x.1 = c then (managerCall s new x).map fun s' => { s' with phase := some (m, k (h ▸ x.2)) } else none
    | _ => none
  | .finish =>
    match s.phase with
    | some (_, .ret t) => some { s with table := t, phase := none }
    | _ => none
  | .lead i x => stepGroup s i fun g => (resume g.lead x).map fun p => (childCall s g x, { g with lead := p })
  | .fork i => stepGroup s i fun g =>
    match g.lead with
    | .call .fork k => some (s, { g with lead := k .parent, writer := some (k .child) })
    | _ => none
  | .writer i x => stepGroup s i fun g =>
    (g.writer.bind fun w => resume w x).map fun p => (childCall s g x, { g with writer := some p })
  | .exec i => stepGroup s i fun g =>
    match g.writer with
    | some (.call (.execve _ _) _) => some (s, { g with writer := none, running := true })
    | _ => none
  | .ended i => stepGroup s i fun g => if g.running then some (s, { g with running := false }) else none

/-! ## The property -/

/-- Some run of a program comes to `execve`. -/
def Execs (p : SysAct Bool) : Prop := ∃ tr cmd user k, Exec (fun _ _ => True) p tr (.call (.execve cmd user) k)

/-- The command runs, or may be going to. -/
def Group.MayRun (g : Group) : Prop := g.running = true ∨ Execs g.lead ∨ ∃ w, g.writer = some w ∧ Execs w

/-- A delete that the owner of the entry has sent. -/
def OwnDelete (s : State) (m : Str) (f : Fields) : Prop :=
  fields m = some f ∧ branch m = some .delete ∧ ∃ pd, s.table.find f.token = some pd ∧ pd.user = f.user

/-- Every group of the token has been signalled, or is not going to run the command. -/
def Settled (s : State) (token : Str) : Prop :=
  ∀ i g, s.groups i = some g → g.token = token → g.signalled = true ∨ ¬ g.MayRun

/-- A delete that has been handled. -/
def Delivered (s : State) : Prop :=
  ∀ m t f, s.phase = some (m, .ret t) → OwnDelete s m f → t.find f.token = none ∧ Settled s f.token

/-- The number is that of every group of the token that may still run the command. -/
def Names (s : State) (token : Str) (pgid : Nat) : Prop :=
  ∀ i g, s.groups i = some g → g.token = token → g.pgid = pgid ∨ g.signalled = true ∨ ¬ g.MayRun

/-- When an owner's delete looks for the pid file, the file is there and names the group. -/
def Findable (s : State) : Label → Prop
  | .manager ⟨.readPid _, _⟩ _ => ∀ m p f, s.phase = some (m, p) → OwnDelete s m f →
      ∃ pgid, s.pid (pidFile f.token) = some pgid ∧ Names s f.token pgid
  | _ => True

/-! ## The program of a kill -/

/-- From the first signal on. -/
def signalFrom (t : ProcColl) (key pid : Str) : Act ProcColl := do
  let killed ← terminate (cstr pid) 3
  if !killed then perform (.runCmd (killCmd (cstr pid)))
  return t.erase key

def killFrom (t : ProcColl) (key pid : Str) : Act ProcColl := .call (.unlink (pidFile key)) fun _ => signalFrom t key pid

theorem killProcess_eq (t : ProcColl) (key : Str) : killProcess t key =
    .call (.readPid (pidFile key)) fun pid =>
      match pid with
      | none => .ret t
      | some pid => killFrom t key pid := by
  refine congrArg (Prog.call _) (funext fun pid => ?_)
  rcases pid with _ | pid <;> rfl

/-- The program after the first signal. -/
def afterSignal (t : ProcColl) (key pid : Str) : Act ProcColl :=
  (do
    if ← perform (.stat (str "/proc/" ++ cstr pid ++ str "/stat")) then terminate (cstr pid) 2
    else return true) >>= fun killed => do
      if !killed then perform (.runCmd (killCmd (cstr pid)))
      return t.erase key

theorem signalFrom_eq (t : ProcColl) (key pid : Str) :
    signalFrom t key pid = .call (.runCmd (termCmd (cstr pid))) fun _ => afterSignal t key pid := rfl

def startsNothing (c : Call) : Prop := ∀ token cmd user, c ≠ .startNew token cmd user

/-- Every way through the rest of a kill erases the entry. -/
def Erases (token : Str) (p : Act ProcColl) : Prop :=
  wp (fun _ _ => True) startsNothing True p fun t => t.find token = none

theorem terminate_any (pid : Str) : ∀ n : Nat,
    wp (fun _ _ => True) startsNothing True (terminate pid n) fun _ => True := by
  intro n
  induction n with
  | zero => trivial
  | succ n ih =>
    refine ⟨fun _ _ _ h => (nomatch h), fun _ _ => ⟨fun _ _ _ h => (nomatch h), fun _ _ => ?_⟩⟩
    exact (wp_ite _ _ _).mpr ⟨fun _ => ih, fun _ => trivial⟩

theorem afterSignal_erases (t : ProcColl) (key pid : Str) : Erases key (afterSignal t key pid) := by
  have hgone : (t.erase key).find key = none := by rw [OrdMap.find_erase, if_pos rfl]
  refine (wp_bind _ _ _).mpr ⟨fun _ _ _ h => (nomatch h), fun alive _ => ?_⟩
  refine (wp_mono (Q := fun _ => True) ?_ fun killed _ => ?_)
  · exact (wp_ite _ _ _).mpr ⟨fun _ => terminate_any _ 2, fun _ => trivial⟩
  · cases killed with
    | true => exact hgone
    | false => exact ⟨fun _ _ _ h => (nomatch h), fun _ _ => hgone⟩

/-! ## What a step leaves as it was -/

theorem Execs.of_call {c : Sys} {k : c.Answer → SysAct Bool} {a : c.Answer} (h : Execs (k a)) : Execs (.call c k) := by
  obtain ⟨tr, cmd, user, k', hexec⟩ := h
  exact ⟨_, cmd, user, k', Exec.cons trivial hexec⟩

theorem Execs.of_resume {p p' : SysAct Bool} {x : Sigma Sys.Answer} (hr : resume p x = some p') (h : Execs p') : Execs p := by
  unfold resume at hr
  split at hr
  · split at hr
    · cases hr
      exact .of_call h
    · cases hr
  · cases hr

/-- A group later: it keeps its number, token and signal, and what cannot run the command any
    more does not come to it. -/
structure Group.Goes (g g' : Group) : Prop where
  pgid : g'.pgid = g.pgid
  token : g'.token = g.token
  signalled : g.signalled = true → g'.signalled = true
  mayRun : g'.MayRun → g.MayRun

/-- The manager is not touched, and no group is new. -/
structure Goes (s s' : State) : Prop where
  table : s'.table = s.table
  groups : ∀ i g', s'.groups i = some g' → ∃ g, s.groups i = some g ∧ g.Goes g'

theorem Goes.settled {s s' : State} (h : Goes s s') {token : Str} (hs : Settled s token) : Settled s' token := by
  intro i g' hg' htok
  obtain ⟨g, hg, hgoes⟩ := h.groups i g' hg'
  exact (hs i g hg (hgoes.token ▸ htok)).imp hgoes.signalled fun hn hr => hn (hgoes.mayRun hr)

theorem Goes.names {s s' : State} (h : Goes s s') {token : Str} {n : Nat} (hs : Names s token n) : Names s' token n := by
  intro i g' hg' htok
  obtain ⟨g, hg, hgoes⟩ := h.groups i g' hg'
  rcases hs i g hg (hgoes.token ▸ htok) with h1 | h1 | h1
  · exact Or.inl (hgoes.pgid.trans h1)
  · exact Or.inr (Or.inl (hgoes.signalled h1))
  · exact Or.inr (Or.inr fun hr => h1 (hgoes.mayRun hr))

theorem Goes.of_stepGroup {s s' : State} {i : Nat} {f : Group → Option (State × Group)} (h : stepGroup s i f = some s')
    (hf : ∀ g r, f g = some r → r.1.table = s.table ∧ r.1.phase = s.phase ∧ r.1.groups = s.groups ∧ g.Goes r.2) :
    Goes s s' ∧ s'.phase = s.phase := by
  obtain ⟨g, hg, h⟩ := Option.bind_eq_some_iff.mp h
  obtain ⟨r, hr, rfl⟩ := Option.map_eq_some_iff.mp h
  obtain ⟨htable, hphase, hgroups, hgoes⟩ := hf g r hr
  refine ⟨⟨htable, fun j g' hg' => ?_⟩, hphase⟩
  simp only [State.setGroup] at hg'
  by_cases e : j = i
  · subst e
    rw [Function.update_self] at hg'
    cases hg'
    exact ⟨g, hg, hgoes⟩
  · rw [Function.update_of_ne e, hgroups] at hg'
    exact ⟨g', hg', ⟨rfl, rfl, id, id⟩⟩

theorem childCall_frame (s : State) (g : Group) (x : Sigma Sys.Answer) : (childCall s g x).table = s.table ∧
    (childCall s g x).phase = s.phase ∧ (childCall s g x).groups = s.groups := by
  unfold childCall
  split <;> exact ⟨rfl, rfl, rfl⟩

/-- A step of a child. -/
def Label.ofChild : Label → Bool
  | .receive _ | .manager _ _ | .finish => false
  | _ => true

theorem child_goes {chunkSize : UInt64} {s s' : State} {l : Label} (hl : l.ofChild = true)
    (h : step chunkSize s l = some s') : Goes s s' ∧ s'.phase = s.phase := by
  cases l with
  | receive m => cases hl
  | manager x new => cases hl
  | finish => cases hl
  | lead i x =>
    refine Goes.of_stepGroup h fun g r hr => ?_
    obtain ⟨p, hp, rfl⟩ := Option.map_eq_some_iff.mp hr
    obtain ⟨h1, h2, h3⟩ := childCall_frame s g x
    refine ⟨h1, h2, h3, rfl, rfl, id, ?_⟩
    rintro (h | h | h)
    · exact Or.inl h
    · exact Or.inr (Or.inl (.of_resume hp h))
    · exact Or.inr (Or.inr h)
  | fork i =>
    refine Goes.of_stepGroup h fun g r hr => ?_
    split at hr
    · rename_i k hlead
      cases hr
      refine ⟨rfl, rfl, rfl, rfl, rfl, id, ?_⟩
      have hexecs : ∀ a, Execs (k a) → Execs g.lead := fun a ha => hlead ▸ .of_call ha
      rintro (h | h | ⟨w, hw, h⟩)
      · exact Or.inl h
      · exact Or.inr (Or.inl (hexecs _ h))
      · cases hw
        exact Or.inr (Or.inl (hexecs _ h))
    · cases hr
  | writer i x =>
    refine Goes.of_stepGroup h fun g r hr => ?_
    obtain ⟨p, hp, rfl⟩ := Option.map_eq_some_iff.mp hr
    obtain ⟨w, hw, hresume⟩ := Option.bind_eq_some_iff.mp hp
    obtain ⟨h1, h2, h3⟩ := childCall_frame s g x
    refine ⟨h1, h2, h3, rfl, rfl, id, ?_⟩
    rintro (h | h | ⟨w', hw', h⟩)
    · exact Or.inl h
    · exact Or.inr (Or.inl h)
    · cases hw'
      exact Or.inr (Or.inr ⟨w, hw, .of_resume hresume h⟩)
  | exec i =>
    refine Goes.of_stepGroup h fun g r hr => ?_
    split at hr
    · rename_i cmd user k hw
      cases hr
      refine ⟨rfl, rfl, rfl, rfl, rfl, id, ?_⟩
      rintro (h | h | ⟨w, hw', h⟩)
      · exact Or.inr (Or.inr ⟨_, hw, [], cmd, user, k, Exec.nil _⟩)
      · exact Or.inr (Or.inl h)
      · cases hw'
    · cases hr
  | ended i =>
    refine Goes.of_stepGroup h fun g r hr => ?_
    split at hr
    · cases hr
      refine ⟨rfl, rfl, rfl, rfl, rfl, id, ?_⟩
      rintro (h | h | h)
      · cases h
      · exact Or.inr (Or.inl h)
      · exact Or.inr (Or.inr h)
    · cases hr

/-! ## The invariant -/

/-- Where the manager is in an owner's delete. -/
inductive Turn (chunkSize : UInt64) (s : State) (m : Str) (token : Str) (p : Act ProcColl) : Prop where
  | begun (h : p = process chunkSize s.table m)
  | reading (h : p = killProcess s.table token)
  | unlinking (n : Nat) (pid : Str) (h : p = killFrom s.table token pid) (hpid : pidText n <+: pid) (hn : Names s token n)
  | signalling (n : Nat) (pid : Str) (h : p = signalFrom s.table token pid) (hpid : pidText n <+: pid) (hn : Names s token n)
  | signalled (h : Erases token p) (hs : Settled s token)

def Inv (chunkSize : UInt64) (s : State) : Prop :=
  ∀ m p f, s.phase = some (m, p) → OwnDelete s m f → Turn chunkSize s m f.token p

theorem Turn.goes {chunkSize : UInt64} {s s' : State} {m token : Str} {p : Act ProcColl} (h : Turn chunkSize s m token p)
    (hg : Goes s s') : Turn chunkSize s' m token p := by
  cases h with
  | begun h => exact .begun (hg.table ▸ h)
  | reading h => exact .reading (hg.table ▸ h)
  | unlinking n pid h hpid hn => exact .unlinking n pid (hg.table ▸ h) hpid (hg.names hn)
  | signalling n pid h hpid hn => exact .signalling n pid (hg.table ▸ h) hpid (hg.names hn)
  | signalled h hs => exact .signalled h (hg.settled hs)

/-- A call of the manager leaves the groups as they were, but for a command and a signal. -/
theorem managerCall_goes {s s' : State} {new : Option (Nat × Nat)} {x : Sigma Call.Answer}
    (h : managerCall s new x = some s') (hx : startsNothing x.1) : Goes s s' := by
  obtain ⟨c, a⟩ := x
  have same : ∀ {s'' : State}, s''.table = s.table → s''.groups = s.groups → Goes s s'' := by
    intro s'' ht hg
    exact ⟨ht, fun i g' hg' => ⟨g', hg ▸ hg', ⟨rfl, rfl, id, id⟩⟩⟩
  cases c with
  | startNew token cmd user => exact absurd rfl (hx token cmd user)
  | readPid file =>
    simp only [managerCall] at h
    split at h
    · cases h
      exact same rfl rfl
    · split at h
      · cases h
        exact same rfl rfl
      · cases h
    · cases h
  | unlink file =>
    cases h
    exact same rfl rfl
  | runCmd cmd =>
    cases h
    refine ⟨rfl, fun i g' hg' => ?_⟩
    obtain ⟨g, hg, rfl⟩ := Option.map_eq_some_iff.mp hg'
    exact ⟨g, hg, ⟨rfl, rfl, fun h => by simp [h], id⟩⟩
  | gettimeofday => cases h; exact same rfl rfl
  | write reply => cases h; exact same rfl rfl
  | lstat file => cases h; exact same rfl rfl
  | stat file => cases h; exact same rfl rfl

theorem zero_notMem_pidText (n : Nat) : (0 : UInt8) ∉ pidText n := by
  rw [pidText, List.mem_append, not_or]
  exact ⟨fun h => absurd (mem_dec 0 h) (by decide), by decide⟩

/-- The first signal reaches the groups that the pid file names. -/
theorem settled_of_signal {s s' : State} {new : Option (Nat × Nat)} {token pid : Str} {n : Nat} {a : Unit}
    (hn : Names s token n) (hpid : pidText n <+: pid)
    (h : managerCall s new ⟨.runCmd (termCmd (cstr pid)), a⟩ = some s') : Settled s' token := by
  have hsignals : signals (termCmd (cstr pid)) n = true := by
    obtain ⟨r, rfl⟩ := hpid
    rw [signals, Bool.or_eq_true, List.isPrefixOf_iff_prefix, cstr_append_left (zero_notMem_pidText n)]
    exact Or.inl ⟨cstr r, by simp [termCmd]⟩
  cases h
  intro i g' hg' htok
  obtain ⟨g, hg, rfl⟩ := Option.map_eq_some_iff.mp hg'
  rcases hn i g hg htok with rfl | h1 | h1
  · left
    rw [hsignals]
    simp
  · left
    simp [h1]
  · exact Or.inr h1

theorem managerCall_table {s s' : State} {new : Option (Nat × Nat)} {x : Sigma Call.Answer}
    (h : managerCall s new x = some s') : s'.table = s.table := by
  unfold managerCall at h
  split at h
  · split at h
    · cases h; rfl
    · split at h
      · cases h
      · cases h; rfl
  · split at h
    · cases h; rfl
    · split at h
      · cases h; rfl
      · cases h
    · cases h
  · cases h; rfl
  · cases h; rfl
  · cases h; rfl

theorem process_delete {m : Str} {f : Fields} (hf : fields m = some f) (hb : branch m = some .delete) (chunkSize : UInt64)
    (t : ProcColl) : process chunkSize t m = .call .gettimeofday fun _ => killProcess t f.token := by
  unfold process
  rw [hf, hb]
  rfl

theorem manager_step {chunkSize : UInt64} {s s' : State} {x : Sigma Call.Answer} {new : Option (Nat × Nat)}
    (hi : Inv chunkSize s) (hok : Findable s (.manager x new)) (h : step chunkSize s (.manager x new) = some s') :
    Inv chunkSize s' := by
  obtain ⟨c, a⟩ := x
  simp only [step] at h
  split at h
  · rename_i m c' k hphase
    split at h
    · rename_i hc
      subst hc
      obtain ⟨s₁, hcall, rfl⟩ := Option.map_eq_some_iff.mp h
      have htable := managerCall_table hcall
      intro m' p f hp hown
      cases hp
      have hown' : OwnDelete s m f := ⟨hown.1, hown.2.1, htable ▸ hown.2.2⟩
      have hkeep : startsNothing c → Goes s s₁ := managerCall_goes hcall
      cases hi m _ f hphase hown' with
      | begun hp =>
        rw [process_delete hown.1 hown.2.1] at hp
        cases hp
        exact .reading (congrArg (killProcess · f.token) htable.symm)
      | reading hp =>
        rw [killProcess_eq] at hp
        cases hp
        obtain ⟨n, hpid, hn⟩ := hok m _ f hphase hown'
        have hn' := (hkeep fun _ _ _ e => nomatch e).names hn
        simp only [managerCall, hpid] at hcall
        rcases a with _ | text
        · cases hcall
        · simp only at hcall
          split at hcall
          · rename_i hprefix
            exact .unlinking n text (congrArg (killFrom · f.token text) htable.symm) (List.isPrefixOf_iff_prefix.mp hprefix) hn'
          · cases hcall
      | unlinking n pid hp hpid hn =>
        cases hp
        have hn' := (hkeep fun _ _ _ e => nomatch e).names hn
        exact .signalling n pid (congrArg (signalFrom · f.token pid) htable.symm) hpid hn'
      | signalling n pid hp hpid hn =>
        rw [signalFrom_eq] at hp
        cases hp
        have hsettled : Settled s₁ f.token := settled_of_signal hn hpid hcall
        exact .signalled (afterSignal_erases s.table f.token pid) hsettled
      | signalled hp hs => exact .signalled (hp.2 a trivial) ((hkeep hp.1).settled hs)
    · cases h
  · cases h

/-! ## Runs -/

theorem inv_step {chunkSize : UInt64} {s s' : State} {l : Label} (hi : Inv chunkSize s) (hok : Findable s l)
    (h : step chunkSize s l = some s') : Inv chunkSize s' := by
  have child : l.ofChild = true → Inv chunkSize s' := by
    intro hl m p f hp hown
    obtain ⟨hgoes, hphase⟩ := child_goes hl h
    exact (hi m p f (hphase ▸ hp) ⟨hown.1, hown.2.1, hgoes.table ▸ hown.2.2⟩).goes hgoes
  cases l with
  | receive m =>
    simp only [step] at h
    split at h
    · cases h
    · cases h
      intro m' p f hp _
      cases hp
      exact .begun rfl
  | manager x new => exact manager_step hi hok h
  | finish =>
    simp only [step] at h
    split at h
    · cases h
      intro m p f hp
      cases hp
    · cases h
  | lead i x => exact child rfl
  | fork i => exact child rfl
  | writer i x => exact child rfl
  | exec i => exact child rfl
  | ended i => exact child rfl

theorem Inv.delivered {chunkSize : UInt64} {s : State} (hi : Inv chunkSize s) : Delivered s := by
  intro m t f hp hown
  cases hi m _ f hp hown with
  | begun h =>
    rw [process_delete hown.1 hown.2.1] at h
    cases h
  | reading h =>
    rw [killProcess_eq] at h
    cases h
  | unlinking n pid h => cases h
  | signalling n pid h =>
    rw [signalFrom_eq] at h
    cases h
  | signalled h hs => exact ⟨h, hs⟩

theorem deletes_reach_their_groups (chunkSize : UInt64) {tr : List Label} {s : State}
    (h : Run (step chunkSize) Findable start tr s) : Delivered s := by
  have hi : Inv chunkSize s := h.invariant (fun _ _ _ hp => nomatch hp) inv_step
  exact hi.delivered

/-! ## Alice deletes her command -/

/-- The manager handles alice's command, and starts group 4711. -/
def aliceCommand : List Label :=
  [.receive aliceStarts.message, .manager ⟨.gettimeofday, (1000 : UInt64)⟩ none,
    .manager ⟨.startNew aliceToken (str "show 'version'") (str "alice"), ()⟩ (some (0, 4711)), .finish]

/-- The children up to the pid file. -/
def childrenToPid : List Label :=
  [.lead 0 ⟨.setsid, ()⟩, .lead 0 ⟨.pipe, true⟩, .lead 0 ⟨.getpwnam (str "alice"), some ⟨1001, 100⟩⟩, .fork 0,
    .writer 0 ⟨.setloginuid 1001, true⟩, .writer 0 ⟨.getgrouplist (str "alice") 100, some [100]⟩,
    .writer 0 ⟨.setgroups [100], true⟩, .writer 0 ⟨.setgid 100, true⟩, .writer 0 ⟨.setuid 1001, true⟩,
    .writer 0 ⟨.pidOutput (pidFile aliceToken), true⟩]

def aliceDeletes : Str := message .delete aliceToken [] (str "alice")

/-- The delete comes after the pid file: one signal, and the group is gone. -/
def lateDelete : List Label :=
  aliceCommand ++ childrenToPid ++
  [.receive aliceDeletes, .manager ⟨.gettimeofday, (1001 : UInt64)⟩ none,
    .manager ⟨.readPid (pidFile aliceToken), some (pidText 4711)⟩ none, .manager ⟨.unlink (pidFile aliceToken), ()⟩ none,
    .manager ⟨.runCmd (termCmd (pidText 4711)), ()⟩ none,
    .manager ⟨.stat (str "/proc/" ++ pidText 4711 ++ str "/stat"), false⟩ none]

/-- The delete comes before it. -/
def earlyDelete : List Label :=
  aliceCommand ++ [.receive aliceDeletes, .manager ⟨.gettimeofday, (1001 : UInt64)⟩ none,
    .manager ⟨.readPid (pidFile aliceToken), none⟩ none]

/-- Only group `n` is started, and its pid file is there for a delete. -/
def onlyGroup (n : Nat) (s : State) : Label → Bool
  | .manager ⟨.readPid _, _⟩ _ => s.phase.all fun q => (fields q.1).all fun f => s.pid (pidFile f.token) = some n
  | .manager _ (some q) => q.2 = n
  | _ => true

def Numbered (n : Nat) (s : State) : Prop := ∀ i g, s.groups i = some g → g.pgid = n

theorem Numbered.goes {n : Nat} {s s' : State} (h : Numbered n s) (hg : Goes s s') : Numbered n s' := by
  intro i g' hg'
  obtain ⟨g, hi, hgoes⟩ := hg.groups i g' hg'
  exact hgoes.pgid.trans (h i g hi)

theorem Numbered.managerCall {n : Nat} {s s' : State} {x : Sigma Call.Answer} {new : Option (Nat × Nat)}
    (h : Numbered n s) (hok : onlyGroup n s (.manager x new) = true) (hcall : managerCall s new x = some s') :
    Numbered n s' := by
  obtain ⟨c, a⟩ := x
  by_cases hc : startsNothing c
  · exact h.goes (managerCall_goes hcall hc)
  · simp only [startsNothing, not_forall, not_not] at hc
    obtain ⟨token, cmd, user, rfl⟩ := hc
    rcases new with _ | ⟨i, pgid⟩
    · cases hcall
      exact h
    · simp only [Kill.managerCall] at hcall
      split at hcall
      · cases hcall
      · cases hcall
        intro j g hg
        simp only at hg
        by_cases e : j = i
        · subst e
          rw [Function.update_self] at hg
          cases hg
          exact of_decide_eq_true hok
        · rw [Function.update_of_ne e] at hg
          exact h j g hg

theorem Numbered.step {chunkSize : UInt64} {n : Nat} {s s' : State} {l : Label} (h : Numbered n s)
    (hok : onlyGroup n s l = true) (hstep : step chunkSize s l = some s') : Numbered n s' := by
  have child : l.ofChild = true → Numbered n s' := fun hl => h.goes (child_goes hl hstep).1
  cases l with
  | receive m =>
    simp only [Kill.step] at hstep
    split at hstep
    · cases hstep
    · cases hstep
      exact h
  | manager x new =>
    simp only [Kill.step] at hstep
    split at hstep
    · split at hstep
      · obtain ⟨s₁, hcall, rfl⟩ := Option.map_eq_some_iff.mp hstep
        have hn : Numbered n s₁ := h.managerCall hok hcall
        exact hn
      · cases hstep
    · cases hstep
  | finish =>
    simp only [Kill.step] at hstep
    split at hstep
    · cases hstep
      exact h
    · cases hstep
  | lead i x => exact child rfl
  | fork i => exact child rfl
  | writer i x => exact child rfl
  | exec i => exact child rfl
  | ended i => exact child rfl

theorem Numbered.findable {n : Nat} {s : State} {l : Label} (h : Numbered n s) (hok : onlyGroup n s l = true) :
    Findable s l := by
  unfold Findable
  split
  · intro m p f hp hown
    simp only [onlyGroup, hp, Option.all_some, hown.1, decide_eq_true_eq] at hok
    exact ⟨n, hok, fun i g hg _ => Or.inl (h i g hg)⟩
  · trivial

theorem findable_of_onlyGroup {chunkSize : UInt64} {n : Nat} {tr : List Label} {s : State}
    (h : Run (step chunkSize) (fun s l => onlyGroup n s l = true) start tr s) : Run (step chunkSize) Findable start tr s :=
  h.strengthen (fun _ _ hg => nomatch hg) fun hn hok hstep => ⟨Numbered.step hn hok hstep, Numbered.findable hn hok⟩

/-- The manager is through with alice's delete, and her entry was there before it. -/
def deleteIsOver (s : State) : Bool :=
  match s.phase with
  | some (m, .ret _) => m == aliceDeletes && (s.table.find aliceToken).any fun pd => pd.user == str "alice"
  | _ => false

theorem own_of_deleteIsOver {s : State} (h : deleteIsOver s = true) :
    ∃ t f, s.phase = some (aliceDeletes, .ret t) ∧ OwnDelete s aliceDeletes f ∧ f.token = aliceToken := by
  have hfields : fields aliceDeletes = some ⟨aliceToken, [], str "alice"⟩ := by decide
  have hbranch : branch aliceDeletes = some .delete := by decide
  unfold deleteIsOver at h
  split at h
  · rename_i m t hphase
    simp only [Bool.and_eq_true, beq_iff_eq, Option.any_eq_true] at h
    obtain ⟨rfl, pd, hfind, huser⟩ := h
    exact ⟨t, _, hphase, ⟨hfields, hbranch, pd, hfind, huser⟩, rfl⟩
  · cases h

theorem a_late_delete_is_delivered : ∃ s t f,
    Run (step (UInt64.ofNat chunkerReadSize)) Findable start lateDelete s ∧ s.phase = some (aliceDeletes, .ret t) ∧
      OwnDelete s aliceDeletes f ∧ Delivered s := by
  have hexec : ((execWhile (step (UInt64.ofNat chunkerReadSize)) (onlyGroup 4711) start lateDelete).any deleteIsOver) =
      true := by decide +kernel
  obtain ⟨s, hrun, hs⟩ := exists_run_of_exec (fun {_ _} h => h) hexec
  obtain ⟨t, f, hphase, hown, -⟩ := own_of_deleteIsOver hs
  have hfound := findable_of_onlyGroup hrun
  exact ⟨s, t, f, hfound, hphase, hown, deletes_reach_their_groups _ hfound⟩

/-- The table that a message has left. -/
def leftTable (s : State) : Option ProcColl :=
  match s.phase with
  | some (_, .ret t) => some t
  | _ => none

/-- The delete is over, the entry is still in the table, and the command then runs. -/
theorem an_early_delete_is_lost :
    (∃ s, Run (step (UInt64.ofNat chunkerReadSize)) (fun _ _ => True) start earlyDelete s ∧ ¬ Delivered s) ∧
      ∃ s g, Run (step (UInt64.ofNat chunkerReadSize)) (fun _ _ => True) start
          (earlyDelete ++ [.finish] ++ childrenToPid ++ [.exec 0]) s ∧
        (s.table.find aliceToken).isSome ∧ s.groups 0 = some g ∧ g.running = true ∧ g.signalled = false := by
  constructor
  · have hexec : ((execWhile (step (UInt64.ofNat chunkerReadSize)) (fun _ _ => true) start earlyDelete).any fun s =>
        deleteIsOver s && (leftTable s).any fun t => (t.find aliceToken).isSome) = true := by decide +kernel
    obtain ⟨s, hrun, hs⟩ := exists_run_of_exec (fun {_ _} _ => trivial) hexec
    obtain ⟨hover, hleft⟩ := (Bool.and_eq_true _ _).mp hs
    obtain ⟨t, f, hphase, hown, htoken⟩ := own_of_deleteIsOver hover
    refine ⟨s, hrun, fun hd => ?_⟩
    have hgone := (hd aliceDeletes t f hphase hown).1
    simp only [leftTable, hphase, Option.any_some, ← htoken, hgone] at hleft
    cases hleft
  · have hexec : ((execWhile (step (UInt64.ofNat chunkerReadSize)) (fun _ _ => true) start
        (earlyDelete ++ [.finish] ++ childrenToPid ++ [.exec 0])).any fun s =>
          (s.table.find aliceToken).isSome && (s.groups 0).any fun g => g.running && !g.signalled) = true := by
      decide +kernel
    obtain ⟨s, hrun, hs⟩ := exists_run_of_exec (fun {_ _} _ => trivial) hexec
    simp only [Bool.and_eq_true, Option.any_eq_true, Bool.not_eq_true'] at hs
    obtain ⟨hfind, g, hg, hrunning, hsignalled⟩ := hs
    exact ⟨s, g, hrun, hfind, hg, hrunning, hsignalled⟩

end VyattaRest.Chunker.Kill
