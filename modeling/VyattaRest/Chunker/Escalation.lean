/-
  VyattaRest.Chunker.Escalation — from TERM to KILL (`kill_process`, chunker2_manager.cc;
  `pid_output`, chunker2_processor.cc).

  The number of the group is written with a newline behind it and read back with it. In the
  shell commands the newline ends the line; in the path that is probed it is a part of the name.
  A `System` is the group, after how many TERMs it is gone, and the files there are besides its
  own under /proc; no entry of /proc has a newline in its name.
  - `terminate_runs`: a run of the loop is some attempts that found the group alive and one that
    did not, or as many as it has.
  - `escalates_without_newline`: had the number been written alone, every run would go on until
    a probe finds the group gone or KILL is sent.
  - `never_escalates`: as it is written, every run ends after the first TERM. The file that is
    probed is not there, and KILL is not sent whatever the group does.
-/

import VyattaRest.Chunker.Kill
import VyattaRest.Lib.Shell

namespace VyattaRest.Chunker.Escalation

open VyattaRest.Lib VyattaRest.Rest VyattaRest.Lib.Prog

/-! ## The system -/

structure System where
  pgid : Nat
  /-- The number of TERMs after which the group is gone; `none` if it ignores them. -/
  diesAfter : Option Nat
  /-- The files there are, but for the one of the group. -/
  other : Str → Bool
  other_proc : ∀ name : Str, (10 : UInt8) ∈ name → (47 : UInt8) ∉ name → other (str "/proc/" ++ name ++ str "/stat") = false

/-- What has been sent to the group. -/
structure Target where
  terms : Nat := 0
  killed : Bool := false
  deriving DecidableEq, Repr

def System.alive (y : System) (t : Target) : Bool := !t.killed && y.diesAfter.all (t.terms < ·)

def statFile (pgid : Nat) : Str := str "/proc/" ++ dec pgid ++ str "/stat"

def System.hasFile (y : System) (t : Target) (file : Str) : Bool :=
  if file = statFile y.pgid then y.alive t else y.other file

/-- The shell finds one command in the text, `kill -SIG -N`, on a line of its own. -/
def sends (sig : Str) (pgid : Nat) (cmd : Str) : Bool :=
  let words := [str "kill", str "-" ++ sig, str "-" ++ dec pgid].map fun w => Shell.Tok.word (Shell.own w)
  Shell.lex (Shell.own cmd) = some words || Shell.lex (Shell.own cmd) = some (words ++ [.op (10, .own)])

abbrev sendsTerm := sends (str "15")
abbrev sendsKill := sends (str "9")

/-- The buffer of `kill_process`, with zeros behind what was read. -/
def buffer (content : Str) : Str := content ++ List.replicate (81 - content.length) 0

/-- What a call finds and does, when the pid file has the content. -/
def System.next (y : System) (content : Str) (t : Target) : Sigma Call.Answer → Option Target
  | ⟨.readPid _, a⟩ => if a = some (buffer content) then some t else none
  | ⟨.runCmd cmd, _⟩ =>
    if sendsTerm y.pgid cmd then some { t with terms := t.terms + 1 }
    else if sendsKill y.pgid cmd then some { t with killed := true }
    else some t
  | ⟨.stat file, a⟩ => if a = y.hasFile t file then some t else none
  | _ => some t

/-- A kill that has come to its end, and the calls and answers on the way. -/
def Killed (y : System) (content : Str) (table : ProcColl) (key : Str) (tr : List (Sigma Call.Answer)) (table' : ProcColl)
    (t : Target) : Prop :=
  Exec (fun _ _ => True) (killProcess table key) tr (.ret table') ∧ Prog.after (y.next content) {} tr = some t

/-! ## The property -/

/-- Every TERM is followed by a probe of the file of the group. -/
def Probed (pgid : Nat) : List (Sigma Call.Answer) → Prop
  | [] => True
  | x :: tr => (∀ cmd, x.1 = .runCmd cmd → sendsTerm pgid cmd = true →
      ∃ a, tr.head? = some ⟨.stat (statFile pgid), a⟩) ∧ Probed pgid tr

def Sent (sends : Str → Bool) (tr : List (Sigma Call.Answer)) : Prop := ∃ cmd, ⟨.runCmd cmd, ()⟩ ∈ tr ∧ sends cmd = true

structure Escalates (y : System) (tr : List (Sigma Call.Answer)) : Prop where
  term : Sent (sendsTerm y.pgid) tr
  probed : Probed y.pgid tr
  /-- It has returned because a probe found the group gone, or with KILL sent. -/
  ends : ⟨.stat (statFile y.pgid), false⟩ ∈ tr ∨ Sent (sendsKill y.pgid) tr
  survivor : (∀ k, y.diesAfter = some k → 3 < k) → Sent (sendsKill y.pgid) tr

/-! ## The commands -/

/-- A line that starts with `kill -SIG -` goes on to the end of the number. -/
theorem run_kill {pre : Str} {out : List Shell.Tok}
    (hpre : Shell.start.run (Shell.own pre) = ⟨.word, Shell.own (str "-"), out⟩) (pgid : Nat) :
    Shell.start.run (Shell.own (pre ++ dec pgid)) = ⟨.word, Shell.own (str "-" ++ dec pgid), out⟩ := by
  rw [Shell.own, List.map_append]
  show Shell.start.run (Shell.own pre ++ Shell.own (dec pgid)) = _
  rw [Shell.Lexer.run_append, hpre, Shell.Lexer.run_in_word fun b hb => Shell.isPlain_digit (mem_dec b hb)]
  rfl

/-- The first two words of such a line. -/
def killWords (sig : Str) : List Shell.Tok := [.word (Shell.own (str "kill")), .word (Shell.own (str "-" ++ sig))]

/-- The number alone, or with a newline behind it. -/
theorem lex_kill {sig pre : Str} (hpre : Shell.start.run (Shell.own pre) = ⟨.word, Shell.own (str "-"), killWords sig⟩)
    (pgid : Nat) :
    Shell.lex (Shell.own (pre ++ dec pgid)) = some (killWords sig ++ [.word (Shell.own (str "-" ++ dec pgid))]) ∧
    Shell.lex (Shell.own (pre ++ Kill.pidText pgid)) =
      some (killWords sig ++ [.word (Shell.own (str "-" ++ dec pgid)), .op (10, .own)]) := by
  have hrun := run_kill hpre pgid
  constructor
  · rw [Shell.lex, hrun]
    rfl
  · rw [Kill.pidText, ← List.append_assoc, Shell.lex, Shell.own, List.map_append]
    show (Shell.start.run (Shell.own (pre ++ dec pgid) ++ Shell.own (str "\n"))).finish = _
    rw [Shell.Lexer.run_append, hrun]
    rfl

theorem sendsTerm_termCmd (pgid : Nat) : sendsTerm pgid (termCmd (dec pgid)) = true ∧
    sendsTerm pgid (termCmd (Kill.pidText pgid)) = true ∧ sendsKill pgid (termCmd (Kill.pidText pgid)) = false := by
  obtain ⟨h, h'⟩ := lex_kill (by decide : Shell.start.run (Shell.own (str "kill -15 -")) = ⟨_, _, killWords (str "15")⟩) pgid
  refine ⟨?_, ?_, ?_⟩
  · rw [termCmd, sendsTerm, sends, h]
    simp [killWords]
  · rw [termCmd, sendsTerm, sends, h']
    simp [killWords]
  · have hsig : Shell.own (str "-" ++ str "15") ≠ Shell.own (str "-" ++ str "9") := by decide
    rw [termCmd, sendsKill, sends, h']
    simp [killWords, hsig]

theorem sendsKill_killCmd (pgid : Nat) :
    sendsKill pgid (killCmd (dec pgid)) = true ∧ sendsTerm pgid (killCmd (dec pgid)) = false := by
  obtain ⟨h, _⟩ := lex_kill (by decide : Shell.start.run (Shell.own (str "kill -9 -")) = ⟨_, _, killWords (str "9")⟩) pgid
  constructor
  · rw [killCmd, sendsKill, sends, h]
    simp [killWords]
  · have hsig : Shell.own (str "-" ++ str "9") ≠ Shell.own (str "-" ++ str "15") := by decide
    rw [killCmd, sendsTerm, sends, h]
    simp [killWords, hsig]

theorem cstr_buffer {content : Str} (h : (0 : UInt8) ∉ content) : cstr (buffer content) = content := by
  have hzeros : ∀ n, cstr (List.replicate n 0) = [] := by
    intro n
    cases n <;> rfl
  rw [buffer, cstr_append_left h, hzeros, List.append_nil]

/-! ## The runs -/

/-- One TERM and the probe behind it. -/
def attempt (pid : Str) (found : Bool) : List (Sigma Call.Answer) :=
  [⟨.runCmd (termCmd pid), ()⟩, ⟨.stat (str "/proc/" ++ pid ++ str "/stat"), found⟩]

/-- Attempts that found the process alive. -/
def tried (pid : Str) (n : Nat) : List (Sigma Call.Answer) := (List.replicate n (attempt pid true)).flatten

theorem terminate_runs {env : (c : Call) → c.Answer → Prop} (pid : Str) :
    ∀ {n : Nat} {tr : List (Sigma Call.Answer)} {killed : Bool},
    Exec env (terminate pid n) tr (.ret killed) →
      (killed = false ∧ tr = tried pid n) ∨ ∃ k < n, killed = true ∧ tr = tried pid k ++ attempt pid false := by
  intro n
  induction n with
  | zero =>
    intro tr killed h
    obtain ⟨rfl, rfl⟩ := h.ret_inv
    exact Or.inl ⟨rfl, rfl⟩
  | succ n ih =>
    intro tr killed h
    obtain ⟨_, tr₁, _, rfl, hprobe⟩ := h.call_inv
    obtain ⟨found, tr₂, _, rfl, hrest⟩ := hprobe.call_inv
    cases found with
    | false =>
      obtain ⟨rfl, rfl⟩ := hrest.ret_inv
      exact Or.inr ⟨0, by omega, rfl, rfl⟩
    | true =>
      rcases ih hrest with ⟨hk, rfl⟩ | ⟨k, hlt, hk, rfl⟩
      · exact Or.inl ⟨hk, rfl⟩
      · exact Or.inr ⟨k + 1, by omega, hk, rfl⟩

/-- The calls behind `unlink`, with the content of the pid file for the number. -/
inductive Signals (pid : Str) : List (Sigma Call.Answer) → Prop where
  | gone (k : Nat) (h : k < 3) : Signals pid (tried pid k ++ attempt pid false)
  | killed : Signals pid (tried pid 3 ++ [⟨.runCmd (killCmd pid), ()⟩])

theorem killProcess_runs {y : System} {content : Str} {table table' : ProcColl} {key : Str} {tr : List (Sigma Call.Answer)}
    {t : Target} (hnul : (0 : UInt8) ∉ content) (h : Killed y content table key tr table' t) : ∃ tr',
      tr = ⟨.readPid (pidFile key), some (buffer content)⟩ :: ⟨.unlink (pidFile key), ()⟩ :: tr' ∧
      Prog.after (y.next content) {} tr' = some t ∧ table' = table.erase key ∧ Signals content tr' := by
  obtain ⟨hrun, hafter⟩ := h
  obtain ⟨a, tr₁, _, rfl, hread⟩ := hrun.call_inv
  obtain ⟨t₁, hnext, hafter⟩ := Option.bind_eq_some_iff.mp hafter
  have ha : a = some (buffer content) ∧ t₁ = {} := by
    simp only [System.next] at hnext
    split at hnext
    · cases hnext
      exact ⟨‹_›, rfl⟩
    · cases hnext
  obtain ⟨rfl, rfl⟩ := ha
  obtain ⟨_, tr₂, _, rfl, hsignal⟩ := hread.call_inv
  refine ⟨tr₂, rfl, hafter, ?_⟩
  have hsignal : Exec _ (Kill.signalFrom table key (buffer content)) tr₂ (.ret table') := hsignal
  rw [Kill.signalFrom, cstr_buffer hnul] at hsignal
  obtain ⟨tr₃, tr₄, killed, rfl, hterm, hlast⟩ := hsignal.bind_ret_inv
  rcases terminate_runs content hterm with ⟨rfl, rfl⟩ | ⟨k, hk, rfl, rfl⟩
  · obtain ⟨_, tr₅, _, rfl, hret⟩ := hlast.call_inv
    obtain ⟨rfl, rfl⟩ := hret.ret_inv
    exact ⟨rfl, .killed⟩
  · obtain ⟨rfl, rfl⟩ := hlast.ret_inv
    rw [List.append_nil]
    exact ⟨rfl, .gone k hk⟩

/-- One attempt counts as a TERM, and its probe is answered from then on. -/
theorem after_attempt {y : System} {content pid : Str} (hterm : sendsTerm y.pgid (termCmd pid) = true)
    {t t' : Target} {found : Bool}
    {rest : List (Sigma Call.Answer)} (h : Prog.after (y.next content) t (attempt pid found ++ rest) = some t') :
    found = y.hasFile { t with terms := t.terms + 1 } (str "/proc/" ++ pid ++ str "/stat") ∧
      Prog.after (y.next content) { t with terms := t.terms + 1 } rest = some t' := by
  obtain ⟨t₁, hcmd, h⟩ := Option.bind_eq_some_iff.mp h
  obtain ⟨t₂, hstat, h⟩ := Option.bind_eq_some_iff.mp h
  simp only [System.next, hterm, if_true, Option.some.injEq] at hcmd
  subst hcmd
  simp only [System.next] at hstat
  split at hstat
  · cases hstat
    exact ⟨‹_›, h⟩
  · cases hstat

/-! ## With the number alone -/

theorem probed_tried {pgid : Nat} {rest : List (Sigma Call.Answer)} (h : Probed pgid rest) :
    ∀ k, Probed pgid (tried (dec pgid) k ++ rest) := by
  intro k
  induction k with
  | zero => exact h
  | succ k ih =>
    show Probed pgid (attempt (dec pgid) true ++ (tried (dec pgid) k ++ rest))
    exact ⟨fun _ _ _ => ⟨true, rfl⟩, fun _ hx => (by cases hx), ih⟩

theorem after_tried {y : System} {content pid : Str} (hterm : sendsTerm y.pgid (termCmd pid) = true) {t' : Target}
    {rest : List (Sigma Call.Answer)} : ∀ {k : Nat} {t : Target},
    Prog.after (y.next content) t (tried pid k ++ rest) = some t' →
      Prog.after (y.next content) { t with terms := t.terms + k } rest = some t' := by
  intro k
  induction k with
  | zero => exact fun h => h
  | succ k ih =>
    intro t h
    have hrest := ih (after_attempt hterm h).2
    rw [Nat.add_comm k 1, ← Nat.add_assoc]
    exact hrest

/-- What the loop and its probe are written for. -/
theorem escalates_without_newline {y : System} {table table' : ProcColl} {key : Str} {tr : List (Sigma Call.Answer)} {t : Target}
    (h : Killed y (dec y.pgid) table key tr table' t) : Escalates y tr := by
  have hnul : (0 : UInt8) ∉ dec y.pgid := fun hmem => absurd (mem_dec 0 hmem) (by decide)
  have hterm := (sendsTerm_termCmd y.pgid).1
  have hkill := sendsKill_killCmd y.pgid
  obtain ⟨tr', rfl, hafter, _, hsignals⟩ := killProcess_runs hnul h
  have hprobed : Probed y.pgid tr' → Probed y.pgid
      (⟨.readPid (pidFile key), some (buffer (dec y.pgid))⟩ :: ⟨.unlink (pidFile key), ()⟩ :: tr') :=
    fun h => ⟨fun _ hx => (by cases hx), fun _ hx => (by cases hx), h⟩
  have hmem : ∀ {x : Sigma Call.Answer}, x ∈ tr' →
      x ∈ ⟨.readPid (pidFile key), some (buffer (dec y.pgid))⟩ :: ⟨.unlink (pidFile key), ()⟩ :: tr' :=
    fun hx => List.mem_cons_of_mem _ (List.mem_cons_of_mem _ hx)
  cases hsignals with
  | gone k hk =>
    refine ⟨⟨_, hmem (List.mem_append_right _ List.mem_cons_self), hterm⟩, hprobed (probed_tried ?_ k),
      Or.inl ?_, fun hlong => ?_⟩
    · exact ⟨fun _ _ _ => ⟨false, rfl⟩, fun _ hx => (by cases hx), trivial⟩
    · exact hmem (List.mem_append_right _ (List.mem_cons_of_mem _ List.mem_cons_self))
    · -- the probe behind at most three TERMs would have found it
      have hlast := after_tried hterm hafter
      rw [← List.append_nil (attempt (dec y.pgid) false)] at hlast
      have hgone := (after_attempt hterm hlast).1
      rw [← statFile, System.hasFile, if_pos rfl, System.alive] at hgone
      rcases hd : y.diesAfter with _ | n
      · simp [hd] at hgone
      · have := hlong n hd
        simp [hd] at hgone
        omega
  | killed =>
    have hsent : Sent (sendsKill y.pgid) (⟨.readPid (pidFile key), some (buffer (dec y.pgid))⟩ :: ⟨.unlink (pidFile key), ()⟩ ::
        (tried (dec y.pgid) 3 ++ [⟨.runCmd (killCmd (dec y.pgid)), ()⟩])) :=
      ⟨_, hmem (List.mem_append_right _ List.mem_cons_self), hkill.1⟩
    refine ⟨⟨_, hmem (List.mem_append_left _ List.mem_cons_self), hterm⟩, hprobed (probed_tried ?_ 3),
      Or.inr hsent, fun _ => hsent⟩
    refine ⟨fun cmd hx hsends => ?_, trivial⟩
    cases hx
    rw [hkill.2] at hsends
    cases hsends

/-! ## As it is written -/

/-- The newline is a part of the name that is looked for under /proc. -/
theorem hasFile_pidText (y : System) (t : Target) : y.hasFile t (str "/proc/" ++ Kill.pidText y.pgid ++ str "/stat") = false := by
  have hne : str "/proc/" ++ Kill.pidText y.pgid ++ str "/stat" ≠ statFile y.pgid := by
    intro h
    have hlen := congrArg List.length h
    simp [statFile, Kill.pidText, str] at hlen
  rw [System.hasFile, if_neg hne]
  refine y.other_proc _ (List.mem_append_right _ List.mem_cons_self) fun hslash => ?_
  rcases List.mem_append.mp hslash with h | h
  · exact absurd (mem_dec _ h) (by decide)
  · exact absurd h (by decide)

/-- The run of a kill: one TERM, and a probe that finds nothing. -/
def killRun (pgid : Nat) (key : Str) : List (Sigma Call.Answer) :=
  ⟨.readPid (pidFile key), some (buffer (Kill.pidText pgid))⟩ :: ⟨.unlink (pidFile key), ()⟩ :: attempt (Kill.pidText pgid) false

theorem killed_killRun (y : System) (table : ProcColl) (key : Str) :
    Killed y (Kill.pidText y.pgid) table key (killRun y.pgid key) (table.erase key) { terms := 1 } := by
  constructor
  · refine Exec.cons trivial (Exec.cons trivial ?_)
    show Exec _ (Kill.signalFrom table key (buffer (Kill.pidText y.pgid))) _ _
    rw [Kill.signalFrom, cstr_buffer (Kill.zero_notMem_pidText y.pgid)]
    exact Exec.cons trivial (Exec.cons trivial (Exec.nil _))
  · simp [killRun, attempt, Prog.after, System.next, (sendsTerm_termCmd y.pgid).2.1, hasFile_pidText, -List.append_assoc]

/-- There is no other. -/
theorem eq_killRun {y : System} {table table' : ProcColl} {key : Str} {tr : List (Sigma Call.Answer)} {t : Target}
    (h : Killed y (Kill.pidText y.pgid) table key tr table' t) : tr = killRun y.pgid key ∧ t = { terms := 1 } := by
  have hterm := (sendsTerm_termCmd y.pgid).2.1
  obtain ⟨tr', rfl, hafter, _, hsignals⟩ := killProcess_runs (Kill.zero_notMem_pidText y.pgid) h
  -- an attempt that found the group would have found the file
  have hfound : ∀ {rest : List (Sigma Call.Answer)},
      Prog.after (y.next (Kill.pidText y.pgid)) {} (attempt (Kill.pidText y.pgid) true ++ rest) ≠ some t := by
    intro rest hrest
    have := (after_attempt hterm hrest).1
    rw [hasFile_pidText] at this
    cases this
  cases hsignals with
  | killed => exact absurd hafter hfound
  | gone k hk =>
    cases k with
    | succ k => exact absurd hafter hfound
    | zero =>
      refine ⟨rfl, ?_⟩
      change Prog.after _ _ (attempt _ false ++ []) = some t at hafter
      cases (after_attempt hterm hafter).2
      rfl

theorem mem_killRun {pgid : Nat} {key cmd : Str} (h : (⟨.runCmd cmd, ()⟩ : Sigma Call.Answer) ∈ killRun pgid key) :
    cmd = termCmd (Kill.pidText pgid) := by
  simpa [killRun, attempt] using h

theorem killRun_never_kills (pgid : Nat) (key : Str) : ¬ Sent (sendsKill pgid) (killRun pgid key) := by
  rintro ⟨cmd, hmem, hsends⟩
  rw [mem_killRun hmem, (sendsTerm_termCmd pgid).2.2] at hsends
  cases hsends

theorem not_probed_killRun (pgid : Nat) (key : Str) : ¬ Probed pgid (killRun pgid key) := by
  rintro ⟨_, _, hterm, _⟩
  obtain ⟨a, ha⟩ := hterm _ rfl (sendsTerm_termCmd pgid).2.1
  have hfile : str "/proc/" ++ Kill.pidText pgid ++ str "/stat" = statFile pgid := by
    simp only [List.head?_cons, Option.some.injEq, Sigma.mk.injEq, Call.stat.injEq] at ha
    exact ha.1
  have hlen := congrArg List.length hfile
  simp [statFile, Kill.pidText, str] at hlen

/-- Whatever the number of the group and however it takes a TERM: a kill has exactly one run, it
    sends one TERM to the group, probes a file that is not the group's and never there, and
    returns without a KILL. -/
theorem never_escalates (y : System) (table : ProcColl) (key : Str) :
    (∃ tr table' t, Killed y (Kill.pidText y.pgid) table key tr table' t) ∧
    ∀ tr table' t, Killed y (Kill.pidText y.pgid) table key tr table' t →
      tr = killRun y.pgid key ∧ Sent (sendsTerm y.pgid) tr ∧ ¬ Sent (sendsKill y.pgid) tr ∧ ¬ Escalates y tr := by
  refine ⟨⟨_, _, _, killed_killRun y table key⟩, fun tr table' t h => ?_⟩
  obtain ⟨rfl, _⟩ := eq_killRun h
  refine ⟨rfl, ⟨_, ?_, (sendsTerm_termCmd y.pgid).2.1⟩, killRun_never_kills y.pgid key, fun he => ?_⟩
  · exact List.mem_cons_of_mem _ (List.mem_cons_of_mem _ List.mem_cons_self)
  · exact not_probed_killRun y.pgid key he.probed

/-- A group that ignores TERM. -/
def survivor : System where
  pgid := 1234
  diesAfter := none
  other := fun _ => false
  other_proc := fun _ _ _ => rfl

/-- It is alive when the kill is over, and has not been sent KILL. -/
theorem a_survivor_is_left_alive : ∃ tr table t, Killed survivor (str "1234\n") OrdMap.empty (str "tok") tr table t ∧
    survivor.alive t = true ∧ ¬ Sent (sendsKill 1234) tr ∧ ¬ Escalates survivor tr := by
  refine ⟨_, _, _, killed_killRun survivor OrdMap.empty (str "tok"), rfl, killRun_never_kills 1234 _, fun he => ?_⟩
  exact not_probed_killRun 1234 _ he.probed

end VyattaRest.Chunker.Escalation
