/-
  VyattaRest.Chunker.Isolation — what a message of one user can do to the processes of
  another.

  `<next>`, `<process>` and `<details>` compare the user of the message with that of an entry,
  `<command>` and `<delete>` go by the token alone. `Respects` is what the sender has to see
  to: a command under a token that is there is its own, or changes nothing, and a delete finds
  its own entry and its own process behind the pid file, or no pid file.
  - `messages_isolated_iff`: a message leaves other users alone exactly when it respects them,
    and what belongs to a user who sends nothing survives any number of such messages.
  - `a_delete_kills_for_another_user`: bob deletes what alice has started.
-/

import VyattaRest.Chunker.Manager

namespace VyattaRest.Chunker

open VyattaRest.Lib VyattaRest.Rest VyattaRest.Lib.Prog

/-! ## What belongs to whom -/

/-- The world while a message is handled: the clock, the texts of the pid files, and the user
    each process group runs for. -/
structure World where
  now : UInt64
  pid : Str → Option Str
  owner : Str → Option Str

/-- Nothing is said of the other answers. -/
def World.answers (w : World) : (c : Call) → c.Answer → Prop
  | .gettimeofday, a => a = w.now
  | .readPid file, a => a = w.pid file
  | _, _ => True

/-- The user a message carries. -/
def messageUser (m : Str) : Str := ((fields m).map (·.user)).getD []

/-- No process is started on the data file of another user's token, and no process group of
    another user is signalled. -/
def Harmless (w : World) (t : ProcColl) (u : Str) : Call → Prop
  | .startNew token _ _ => ∀ key pd, t.find key = some pd → chunkFile token = chunkFile key → pd.user = u
  | .runCmd cmd => ∀ pid v, cmd = termCmd pid ∨ cmd = killCmd pid → w.owner pid = some v → v = u
  | _ => True

/-- Every entry of another user is there and as it was. -/
def Keeps (t : ProcColl) (u : Str) (t' : ProcColl) : Prop :=
  ∀ key pd, t.find key = some pd → pd.user ≠ u → t'.find key = some pd

def Isolated (chunkSize : UInt64) (w : World) (t : ProcColl) (m : Str) : Prop :=
  (∀ tr c k, Exec w.answers (process chunkSize t m) tr (.call c k) → Harmless w t (messageUser m) c) ∧
  ∀ tr t', Exec w.answers (process chunkSize t m) tr (.ret t') → Keeps t (messageUser m) t'

/-! ## The condition -/

def Respects (w : World) (t : ProcColl) (m : Str) : Prop :=
  match fields m, branch m with
  | some f, some .command => ∀ pd, t.find f.token = some pd → pd.user = f.user ∨
      (if f.statement = [] then pd.lastUpdate = w.now else f.token = [] ∨ f.user = [])
  | some f, some .delete => ∀ pid, w.pid (pidFile f.token) = some pid →
      (∀ pd, t.find f.token = some pd → pd.user = f.user) ∧ ∀ v, w.owner (cstr pid) = some v → v = f.user
  | _, _ => True

theorem chunkFile_inj {a b : Str} (h : chunkFile a = chunkFile b) : a = b := List.append_cancel_left h

theorem termCmd_inj {a b : Str} (h : termCmd a = termCmd b) : a = b := List.append_cancel_left h

theorem killCmd_inj {a b : Str} (h : killCmd a = killCmd b) : a = b := List.append_cancel_left h

theorem termCmd_ne_killCmd (a b : Str) : termCmd a ≠ killCmd b := by
  intro h
  have hbyte := congrArg (fun s : Str => s[6]?) h
  have h1 : (termCmd a)[6]? = some 49 := rfl
  have h2 : (killCmd b)[6]? = some 57 := rfl
  simp only [h1, h2] at hbyte
  cases hbyte

/-- The signals of a process group. -/
theorem harmless_runCmd {w : World} {t : ProcColl} {u cmd pid : Str} (h : cmd = termCmd pid ∨ cmd = killCmd pid) :
    Harmless w t u (.runCmd cmd) ↔ ∀ v, w.owner pid = some v → v = u := by
  constructor
  · exact fun hh v hv => hh pid v h hv
  · intro hh pid' v h' hv
    have hpid : pid' = pid := by
      rcases h with rfl | rfl <;> rcases h' with h' | h'
      · exact (termCmd_inj h').symm
      · exact absurd h' (termCmd_ne_killCmd _ _)
      · exact absurd h'.symm (termCmd_ne_killCmd _ _)
      · exact (killCmd_inj h').symm
    exact hh v (hpid ▸ hv)

theorem keeps_refl (t : ProcColl) (u : Str) : Keeps t u t := fun _ _ h _ => h

section

variable {w : World} {t : ProcColl} {u : Str}

/-- An entry that is changed is the user's own, or the change is none. -/
theorem keeps_update_iff (token : Str) (g : ProcessData → ProcessData) :
    Keeps t u (t.update token g) ↔ ∀ pd, t.find token = some pd → pd.user = u ∨ g pd = pd := by
  constructor
  · intro h pd hf
    by_cases hu : pd.user = u
    · exact Or.inl hu
    · have := h token pd hf hu
      rw [OrdMap.find_update, if_pos rfl, hf, Option.map_some, Option.some.injEq] at this
      exact Or.inr this
  · intro h key pd hf hu
    rw [OrdMap.find_update]
    by_cases e : key = token
    · subst e
      rw [if_pos rfl, hf, Option.map_some, (h pd hf).resolve_left hu]
    · rw [if_neg e]
      exact hf

theorem keeps_erase_iff (token : Str) :
    Keeps t u (t.erase token) ↔ ∀ pd, t.find token = some pd → pd.user = u := by
  constructor
  · intro h pd hf
    by_contra hu
    have := h token pd hf hu
    rw [OrdMap.find_erase, if_pos rfl] at this
    cases this
  · intro h key pd hf hu
    rw [OrdMap.find_erase]
    by_cases e : key = token
    · subst e
      exact absurd (h pd hf) hu
    · rw [if_neg e]
      exact hf

/-- `insert` never replaces an entry. -/
theorem keeps_insert (token : Str) (pd : ProcessData) : Keeps t u (t.insert token pd) := by
  intro key pd' hf _
  rw [OrdMap.find_insert]
  by_cases e : key = token
  · subst e
    rw [if_pos rfl, hf]
    rfl
  · rw [if_neg e]
    exact hf

theorem harmless_startNew {token stmt user : Str} :
    Harmless w t u (.startNew token stmt user) ↔ ∀ pd, t.find token = some pd → pd.user = u := by
  constructor
  · exact fun h pd hf => h token pd hf rfl
  · intro h key pd hf hfile
    exact h pd (chunkFile_inj hfile ▸ hf)

/-! ## The branches -/

theorem handleCommand_iff (f : Fields) :
    wp w.answers (Harmless w t f.user) True (handleCommand t w.now f) (Keeps t f.user) ↔
      ∀ pd, t.find f.token = some pd → pd.user = f.user ∨
        (if f.statement = [] then pd.lastUpdate = w.now else f.token = [] ∨ f.user = []) := by
  unfold handleCommand startNew
  by_cases hlife : (t.find f.token).isSome ∧ f.statement = []
  · rw [if_pos hlife, wp_pure, keeps_update_iff]
    refine forall_congr' fun pd => imp_congr_right fun _ => or_congr_right ?_
    rw [if_pos hlife.2]
    constructor
    · exact fun h => (congrArg ProcessData.lastUpdate h).symm
    · exact fun h => by rw [← h]
  rw [if_neg hlife, wp_bind]
  by_cases hempty : (f.statement.isEmpty || f.token.isEmpty || f.user.isEmpty) = true
  · rw [if_pos hempty]
    refine iff_of_true (keeps_refl t _) fun pd hf => Or.inr ?_
    simp only [Bool.or_eq_true, List.isEmpty_iff] at hempty
    have hstmt : f.statement ≠ [] := fun e => hlife ⟨by rw [hf]; rfl, e⟩
    rw [if_neg hstmt]
    tauto
  · rw [if_neg hempty]
    simp only [Bool.or_eq_true, List.isEmpty_iff, not_or] at hempty
    show Harmless w t f.user (.startNew f.token f.statement f.user) ∧ (∀ a : Unit, True → Keeps t f.user (t.insert f.token _)) ↔ _
    rw [harmless_startNew, and_iff_left fun _ _ => keeps_insert _ _]
    refine forall_congr' fun pd => imp_congr_right fun _ => ?_
    rw [if_neg hempty.1.1]
    simp [hempty.1.2, hempty.2]

theorem nextEntry_keeps_user (chunkSize : UInt64) (token : Str) (pd : ProcessData) :
    wp w.answers (Harmless w t u) True (nextEntry chunkSize token pd) fun _ => True := by
  unfold nextEntry
  refine (wp_then _ _ _).mpr ⟨trivial, fun size _ => ?_⟩
  rcases size with _ | size
  · trivial
  simp only
  rcases pd.advance chunkSize size with ⟨pd', atEnd⟩
  cases atEnd with
  | false => trivial
  | true =>
    refine (wp_then _ _ _).mpr ⟨trivial, fun size' _ => ?_⟩
    rcases size' with _ | size' <;> trivial

/-- Another user's entry is not read on. -/
theorem handleNext_isolated (chunkSize : UInt64) (f : Fields) :
    wp w.answers (Harmless w t f.user) True (handleNext chunkSize t f) (Keeps t f.user) := by
  unfold handleNext
  rcases hf : t.find f.token with _ | pd
  · exact ⟨trivial, fun _ _ => keeps_refl t _⟩
  · refine (wp_ite _ _ _).mpr ⟨fun _ => ⟨trivial, fun _ _ => keeps_refl t _⟩, fun huser => ?_⟩
    refine (wp_bind _ _ _).mpr (wp_mono (nextEntry_keeps_user _ _ _) fun pd' _ => ⟨trivial, fun _ _ => ?_⟩)
    show Keeps t f.user (t.update f.token fun _ => pd')
    rw [keeps_update_iff]
    intro pd'' hf'
    cases hf.symm.trans hf'
    exact Or.inl (not_not.mp huser).symm

/-- The attempts signal no other group. -/
theorem terminate_wp {pid : Str} (howner : ∀ v, w.owner pid = some v → v = u) : ∀ n : Nat,
    wp w.answers (Harmless w t u) True (terminate pid n) fun _ => True := by
  intro n
  induction n with
  | zero => trivial
  | succ n ih =>
    refine (wp_then _ _ _).mpr ⟨(harmless_runCmd (Or.inl rfl)).mpr howner, fun _ _ => ?_⟩
    exact (wp_then _ _ _).mpr ⟨trivial, fun alive _ => (wp_ite _ _ _).mpr ⟨fun _ => ih, fun _ => trivial⟩⟩

theorem killProcess_iff (f : Fields) :
    wp w.answers (Harmless w t f.user) True (killProcess t f.token) (Keeps t f.user) ↔
      ∀ pid, w.pid (pidFile f.token) = some pid →
        (∀ pd, t.find f.token = some pd → pd.user = f.user) ∧ ∀ v, w.owner (cstr pid) = some v → v = f.user := by
  unfold killProcess
  rw [wp_then]
  rcases hpid : w.pid (pidFile f.token) with _ | pid
  · refine iff_of_true ⟨trivial, fun a ha => ?_⟩ fun pid h => nomatch h
    have ha : a = none := ha.trans hpid
    subst ha
    exact keeps_refl t _
  constructor
  · intro h pid' hpid'
    cases hpid'
    have hrest := (wp_bind _ _ _).mp ((h.2 (some pid) hpid.symm).2 () trivial)
    -- the first attempt is a signal, and it may be the only one
    refine ⟨(keeps_erase_iff f.token).mp (hrest.2 () trivial |>.2 false trivial), ?_⟩
    exact (harmless_runCmd (Or.inl rfl)).mp hrest.1
  · intro h
    obtain ⟨hentry, howner⟩ := h pid rfl
    refine ⟨trivial, fun a ha => ?_⟩
    have ha : a = some pid := ha.trans hpid
    subst ha
    have hkeeps : Keeps t f.user (t.erase f.token) := (keeps_erase_iff f.token).mpr hentry
    refine (wp_then _ _ _).mpr ⟨trivial, fun _ _ => (wp_bind _ _ _).mpr (wp_mono (terminate_wp howner 3) fun killed _ => ?_)⟩
    cases killed with
    | true => exact hkeeps
    | false => exact ⟨(harmless_runCmd (Or.inr rfl)).mpr howner, fun _ _ => hkeeps⟩

theorem isolated_iff_respects (chunkSize : UInt64) (w : World) (t : ProcColl) (m : Str) :
    Isolated chunkSize w t m ↔ Respects w t m := by
  have hsilent : ∀ {u reply : Str}, wp w.answers (Harmless w t u) True
      (do let _ ← perform (.write reply); return t : Act ProcColl) (Keeps t u) := ⟨trivial, fun _ _ => keeps_refl t _⟩
  unfold Isolated Respects messageUser
  rw [← wp_iff_exec]
  unfold process
  rw [wp_then, and_iff_right (show Harmless w t _ .gettimeofday from trivial)]
  have hnow : ∀ P : UInt64 → Prop, (∀ a, w.answers .gettimeofday a → P a) ↔ P w.now :=
    fun P => ⟨fun h => h _ rfl, fun h a ha => (show a = w.now from ha) ▸ h⟩
  rw [hnow]
  rcases fields m with _ | f
  · exact iff_of_true (keeps_refl t _) trivial
  rcases branch m with _ | k
  · exact iff_of_true (keeps_refl t _) trivial
  simp only [Option.map_some, Option.getD_some]
  cases k with
  | command => exact handleCommand_iff f
  | process => exact iff_of_true hsilent trivial
  | details => exact iff_of_true hsilent trivial
  | next => exact iff_of_true (handleNext_isolated chunkSize f) trivial
  | delete => exact killProcess_iff f

end

/-! ## Many messages -/

/-- The manager has handled the messages, each in its world. -/
inductive Served (chunkSize : UInt64) (ok : World → ProcColl → Str → Prop) (t₀ : ProcColl) :
    List (World × Str) → ProcColl → Prop where
  | nil : Served chunkSize ok t₀ [] t₀
  | snoc {ms : List (World × Str)} {t t' : ProcColl} {w : World} {m : Str} {tr : List (Sigma Call.Answer)}
      (h : Served chunkSize ok t₀ ms t) (hok : ok w t m) (hexec : Exec w.answers (process chunkSize t m) tr (.ret t')) :
      Served chunkSize ok t₀ (ms ++ [(w, m)]) t'

/-- What belongs to a user who sends nothing is there after any number of messages. -/
theorem entries_survive {chunkSize : UInt64} {t₀ t : ProcColl} {ms : List (World × Str)}
    (h : Served chunkSize Respects t₀ ms t) {v : Str} (hv : ∀ x ∈ ms, messageUser x.2 ≠ v) {key : Str} {pd : ProcessData}
    (hf : t₀.find key = some pd) (hu : pd.user = v) : t.find key = some pd := by
  induction h with
  | nil => exact hf
  | @snoc ms t t' w m tr _ hok hexec ih =>
    have hold := ih fun x hx => hv x (List.mem_append_left _ hx)
    have hother : pd.user ≠ messageUser m := fun e => hv (w, m) (by simp) (e ▸ hu)
    exact ((isolated_iff_respects chunkSize w t m).mpr hok).2 tr t' hexec key pd hold hother

/-- A message leaves other users alone exactly when it respects them; in every run of messages
    that do, a user who sends none of them keeps all entries as they are. -/
theorem messages_isolated_iff (chunkSize : UInt64) :
    (∀ w t m, Isolated chunkSize w t m ↔ Respects w t m) ∧
    ∀ t₀ ms t v, Served chunkSize Respects t₀ ms t → (∀ x ∈ ms, messageUser x.2 ≠ v) →
      ∀ key pd, t₀.find key = some pd → pd.user = v → t.find key = some pd :=
  ⟨isolated_iff_respects chunkSize, fun _ _ _ _ h hv _ _ hf hu => entries_survive h hv hf hu⟩

/-! ## Alice and bob -/

def aliceToken : Str := str "0123456789ABCDEF"

/-- Alice's process runs in group 4711, and its pid file is there. -/
def aliceWorld : World where
  now := 1000
  pid := fun file => if file = pidFile aliceToken then some (str "4711") else none
  owner := fun pid => if pid = str "4711" then some (str "alice") else none

/-- The table once alice has started `show 'version'`. -/
def aliceTable : ProcColl :=
  OrdMap.empty.insert aliceToken
    { startTime := 1000, lastUpdate := 1000, command := str "show 'version'", token := aliceToken
      user := str "alice", readOffset := 0, status := .running }

theorem alice_is_served : Served (UInt64.ofNat chunkerReadSize) (fun _ _ _ => True) OrdMap.empty
    [(aliceWorld, message .command aliceToken (str "show 'version'") (str "alice"))] aliceTable := by
  have hfields : fields (message .command aliceToken (str "show 'version'") (str "alice")) =
      some ⟨aliceToken, str "show 'version'", str "alice"⟩ := by decide +kernel
  have hbranch : branch (message .command aliceToken (str "show 'version'") (str "alice")) = some .command := by
    decide
  have hexec : Exec aliceWorld.answers (process (UInt64.ofNat chunkerReadSize) OrdMap.empty
      (message .command aliceToken (str "show 'version'") (str "alice")))
      [⟨.gettimeofday, (1000 : UInt64)⟩, ⟨.startNew aliceToken (str "show 'version'") (str "alice"), ()⟩] (.ret aliceTable) := by
    unfold process
    rw [hfields, hbranch]
    exact Exec.cons rfl (Exec.cons trivial (Exec.nil _))
  exact Served.snoc .nil trivial hexec

/-- Bob asks for the next chunk of alice's process. -/
theorem a_next_of_bob_is_isolated :
    Isolated (UInt64.ofNat chunkerReadSize) aliceWorld aliceTable (message .next aliceToken [] (str "bob")) := by
  have hbranch : branch (message .next aliceToken [] (str "bob")) = some .next := by decide
  refine ((messages_isolated_iff _).1 aliceWorld aliceTable _).mpr ?_
  unfold Respects
  rw [hbranch]
  rcases fields (message .next aliceToken [] (str "bob")) with _ | f <;> trivial

theorem a_delete_kills_for_another_user :
    ∃ t, Served (UInt64.ofNat chunkerReadSize) (fun _ _ _ => True) OrdMap.empty
        [(aliceWorld, message .command aliceToken (str "show 'version'") (str "alice"))] t ∧
      ¬ Isolated (UInt64.ofNat chunkerReadSize) aliceWorld t (message .delete aliceToken [] (str "bob")) := by
  have hfields : fields (message .delete aliceToken [] (str "bob")) = some ⟨aliceToken, [], str "bob"⟩ := by decide
  have hbranch : branch (message .delete aliceToken [] (str "bob")) = some .delete := by decide
  refine ⟨aliceTable, alice_is_served, fun h => ?_⟩
  rw [isolated_iff_respects] at h
  unfold Respects at h
  rw [hfields, hbranch] at h
  exact absurd ((h (str "4711") rfl).2 (str "alice") rfl) (by decide)

end VyattaRest.Chunker
