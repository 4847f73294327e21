/-
  VyattaRest.ClientBatch — a batch of configuration commands
  (lib/Vyatta/RestClient.pm: batch_conf_cmds).

  The batch calls configure, set for every command, commit, save and configure_exit, and stops
  at the first of them that returns something. It calls them in scalar context, so of a list it
  gets the last element: a failed configure returns `($err, undef)` and passes, and the next
  method finds no session. A commit returns the text of the server also when it has succeeded.
  What is no error passes, a redirection for one.
  - `batch_undef_iff`: the batch returns undef exactly when no reply is an error, the first one
    names a session, and the commit's carries no message.
  - `batch_reports_iff`: so it tells the truth exactly when a commit that succeeds, among
    replies that all do, has nothing to say, and what passes is a success.
  - `a_batch_misreports`: a commit with a message, and a set that was not done.
-/

import VyattaRest.ClientSession

namespace VyattaRest.RestClient.Batch

open VyattaRest.Lib VyattaRest.Lib.Prog

/-! ## The batch -/

/-- What a method returns in scalar context. -/
def scalar (ret : Returned) : Option Str := ret.getLast?.join

/-- `return "what error: $err" if defined $err`, behind a method. -/
def check (what : Str) (next : Client → Wire (Client × Option Str)) (r : Client × Returned) : Wire (Client × Option Str) :=
  match scalar r.2 with
  | some err => return (r.1, some (what ++ str " error: " ++ err))
  | none => next r.1

def exitBatch (c : Client) : Wire (Client × Option Str) := do
  check (str "configure_exit") (fun c => return (c, none)) (← configureExit c)

def saveBatch (c : Client) : Wire (Client × Option Str) := do check (str "save") exitBatch (← save c)

def commitBatch (c : Client) : Wire (Client × Option Str) := do check (str "commit") saveBatch (← commit c)

def setBatch (safe : UInt8 → Bool) : List Str → Client → Wire (Client × Option Str)
  | [], c => commitBatch c
  | cmd :: cmds, c => do check (str "set") (setBatch safe cmds) (← RestClient.set safe cmd c)

/-- `batch_conf_cmds`, each step with what follows it. -/
def batchConfCmds (safe : UInt8 → Bool) (cmds : List Str) (c : Client) : Wire (Client × Option Str) := do
  check (str "configure") (setBatch safe cmds) (← configure c)

/-! ## The replies -/

/-- The replies to a batch: to the DELETE of a session the client still has, to the create, to
    each command, and to the last three requests. -/
structure Replies where
  stale : Response
  create : Response
  sets : List (Str × Response)
  commit : Response
  save : Response
  exit : Response

def Replies.cmds (rp : Replies) : List Str := rp.sets.map (·.1)

/-- The replies to the requests of the batch itself. -/
def Replies.own (rp : Replies) : List Response := rp.create :: (rp.sets.map (·.2) ++ [rp.commit, rp.save, rp.exit])

def Replies.list (rp : Replies) (c : Client) : List Response := (if c.confLoc.isSome then [rp.stale] else []) ++ rp.own

/-- Every request of the batch is answered with a success. -/
def Replies.Succeed (rp : Replies) : Prop := ∀ r ∈ rp.own, r.isSuccess = true

/-- None is answered with an error. -/
def Replies.Pass (rp : Replies) : Prop := ∀ r ∈ rp.own, r.isError = false

instance (rp : Replies) : Decidable rp.Succeed := by unfold Replies.Succeed; infer_instance

instance (rp : Replies) : Decidable rp.Pass := by unfold Replies.Pass; infer_instance

/-- The replies are given out one after another. -/
def feed (rs : List Response) (_ : Request) : Option (Response × List Response) :=
  match rs with
  | [] => none
  | r :: rs => some (r, rs)

/-- What the batch returns. -/
def report (safe : UInt8 → Bool) (c : Client) (rp : Replies) : Option (Option Str) :=
  ((batchConfCmds safe rp.cmds c).interp feed (rp.list c)).map (·.1.2)

/-! ## The steps -/

/-- The program comes back with a result in `Q`. -/
def Yields (rs : List Response) (p : Wire (Client × Option Str)) (Q : Option Str → Prop) : Prop :=
  ∃ c e rs', p.interp feed rs = some ((c, e), rs') ∧ Q e

theorem yields_check {m : Wire (Client × Returned)} {what : Str} {next : Client → Wire (Client × Option Str)}
    {rs rs' : List Response} {c : Client} {returned : Returned} {ok P : Prop} (hm : m.interp feed rs = some ((c, returned), rs'))
    (hok : scalar returned = none ↔ ok) (hnext : ok → Yields rs' (next c) (fun e => e = none ↔ P)) :
    Yields rs (m >>= check what next) (fun e => e = none ↔ ok ∧ P) := by
  unfold Yields
  rw [interp_bind, hm]
  show ∃ c' e rs'', (check what next (c, returned)).interp feed rs' = _ ∧ _
  unfold check
  rcases hs : scalar returned with _ | err
  · have h := hok.mp hs
    obtain ⟨c', e, rs'', hrun, he⟩ := hnext h
    exact ⟨c', e, rs'', hrun, he.trans (and_iff_right h).symm⟩
  · refine ⟨_, _, _, rfl, iff_of_false (Option.some_ne_none _) fun h => ?_⟩
    rw [hok.mpr h.1] at hs
    cases hs

theorem scalar_failure (what url : Str) (r : Response) : scalar (failure what url r) ≠ none := by
  unfold failure
  rcases getErrorMessage r with _ | message <;> exact Option.some_ne_none _

theorem interp_send {α : Type} (method url : Str) (f : Response → Wire α) (r : Response) (rs : List Response) :
    (send method url >>= f).interp feed (r :: rs) = (f r).interp feed rs := rfl

/-- What a method makes of a reply, when the client has a session. -/
def Answered (m : Wire (Client × Returned)) (r : Response) (rs : List Response) (c : Client) (ok : Prop) : Prop :=
  ∃ c' returned, m.interp feed (r :: rs) = some ((c', returned), rs) ∧ (scalar returned = none ↔ ok) ∧ (ok → c' = c)

section

variable {c : Client} {loc : Str} (hloc : c.confLoc = some loc) (r : Response) (rs : List Response)
include hloc

theorem set_answered (safe : UInt8 → Bool) (cmd : Str) : Answered (RestClient.set safe cmd c) r rs
    { c with uncommitted := some (c.uncommitted.getD 0 + 1) } (r.isError = false) := by
  unfold Answered RestClient.set
  rw [hloc]
  simp only [interp_send]
  rcases he : r.isError with _ | _
  · exact ⟨_, [], rfl, iff_of_true rfl rfl, fun _ => rfl⟩
  · exact ⟨c, _, rfl, iff_of_false (scalar_failure _ _ r) (by decide), fun h => (by cases h)⟩

theorem commit_answered : Answered (commit c) r rs { c with uncommitted := some 0 }
    (r.isError = false ∧ getErrorMessage r = none) := by
  unfold Answered commit
  rw [hloc]
  simp only [interp_send]
  rcases he : r.isError with _ | _ <;> rcases hm : getErrorMessage r with _ | message
  · exact ⟨_, [], rfl, iff_of_true rfl ⟨rfl, rfl⟩, fun _ => rfl⟩
  · exact ⟨_, [some (message ++ str "\n")], rfl, iff_of_false (Option.some_ne_none _) (fun h => by cases h.2),
      fun h => by cases h.2⟩
  · exact ⟨c, [_, some r.statusLine], rfl, iff_of_false (Option.some_ne_none _) (fun h => by cases h.1), fun h => by cases h.1⟩
  · exact ⟨c, [some message], rfl, iff_of_false (Option.some_ne_none _) (fun h => by cases h.1), fun h => by cases h.1⟩

theorem save_answered : Answered (save c) r rs c (r.isError = false) := by
  unfold Answered save
  rw [hloc]
  simp only [interp_send]
  rcases he : r.isError with _ | _
  · exact ⟨c, [], rfl, iff_of_true rfl rfl, fun _ => rfl⟩
  · exact ⟨c, _, rfl, iff_of_false (scalar_failure _ _ r) (by decide), fun h => (by cases h)⟩

theorem exit_answered (hcount : c.uncommitted = some 0) :
    Answered (configureExit c) r rs { c with confLoc := none, uncommitted := none } (r.isError = false) := by
  unfold Answered configureExit
  rw [hloc]
  simp only [hcount, Option.getD_some, Nat.lt_irrefl, if_false, interp_send]
  rcases he : r.isError with _ | _
  · exact ⟨_, [], rfl, iff_of_true rfl rfl, fun _ => rfl⟩
  · exact ⟨_, _, rfl, iff_of_false (scalar_failure _ _ r) (by decide), fun h => (by cases h)⟩

end

/-- A method of the batch and what follows it. -/
theorem Answered.yields {m : Wire (Client × Returned)} {r : Response} {rs : List Response} {c : Client} {ok : Prop}
    (h : Answered m r rs c ok) {what : Str} {next : Client → Wire (Client × Option Str)} {P : Prop}
    (hnext : Yields rs (next c) (fun e => e = none ↔ P)) :
    Yields (r :: rs) (m >>= check what next) (fun e => e = none ↔ ok ∧ P) := by
  obtain ⟨c', returned, hrun, hok, hc⟩ := h
  refine yields_check hrun hok fun h => ?_
  rw [hc h]
  exact hnext

/-- Without a session the next method returns a text of its own. -/
theorem yields_without_session (safe : UInt8 → Bool) (cmds : List Str) {c : Client} (hloc : c.confLoc = none)
    (rs : List Response) :
    Yields rs (setBatch safe cmds c) (fun e => e ≠ none) := by
  cases cmds with
  | nil =>
    simp only [setBatch, commitBatch, commit, hloc]
    exact ⟨c, _, rs, rfl, Option.some_ne_none _⟩
  | cons cmd cmds =>
    simp only [setBatch, RestClient.set, hloc]
    exact ⟨c, _, rs, rfl, Option.some_ne_none _⟩

theorem yields_exit {c : Client} {loc : Str} (hloc : c.confLoc = some loc) (hcount : c.uncommitted = some 0) (r : Response) :
    Yields [r] (exitBatch c) (fun e => e = none ↔ r.isError = false ∧ True) :=
  (exit_answered hloc r [] hcount).yields ⟨_, none, [], rfl, iff_of_true rfl trivial⟩

theorem yields_commit {c : Client} {loc : Str} (hloc : c.confLoc = some loc) (r₁ r₂ r₃ : Response) :
    Yields [r₁, r₂, r₃] (commitBatch c) (fun e => e = none ↔
      (r₁.isError = false ∧ getErrorMessage r₁ = none) ∧ r₂.isError = false ∧ r₃.isError = false ∧ True) := by
  have hkept : ({ c with uncommitted := some 0 } : Client).confLoc = some loc := hloc
  exact (commit_answered hloc r₁ _).yields ((save_answered hkept r₂ _).yields (yields_exit hkept rfl r₃))

theorem yields_sets (safe : UInt8 → Bool) {loc : Str} {rs : List Response} {P : Prop}
    (hcommit : ∀ c : Client, c.confLoc = some loc → Yields rs (commitBatch c) (fun e => e = none ↔ P)) :
    ∀ (sets : List (Str × Response)) (c : Client), c.confLoc = some loc →
      Yields (sets.map (·.2) ++ rs) (setBatch safe (sets.map (·.1)) c)
        (fun e => e = none ↔ (∀ x ∈ sets, x.2.isError = false) ∧ P) := by
  intro sets
  induction sets with
  | nil =>
    intro c hloc
    simpa [setBatch] using hcommit c hloc
  | cons x sets ih =>
    intro c hloc
    have hkept : ({ c with uncommitted := some (c.uncommitted.getD 0 + 1) } : Client).confLoc = some loc := hloc
    have hstep : Yields (x.2 :: (sets.map (·.2) ++ rs)) (setBatch safe (x.1 :: sets.map (·.1)) c) _ :=
      (set_answered hloc x.2 _ safe x.1).yields (ih _ hkept)
    simp only [← and_assoc, List.forall_mem_cons] at hstep ⊢
    exact hstep

/-! ## The batch -/

/-- A configure passes whatever the reply, and keeps the location of a success. -/
theorem configure_passes (c : Client) (rp : Replies) : ∃ c' returned,
    (configure c).interp feed (rp.list c) = some ((c', returned), rp.sets.map (·.2) ++ [rp.commit, rp.save, rp.exit]) ∧
      scalar returned = none ∧ c'.confLoc = if rp.create.isError then none else rp.create.location := by
  unfold configure Replies.list Replies.own
  rcases hloc : c.confLoc with _ | loc
  · simp only [Option.isSome_none, Bool.false_eq_true, if_false, List.nil_append, interp_send]
    rcases rp.create.isError with _ | _ <;> exact ⟨_, _, rfl, rfl, rfl⟩
  · have hdelete : ∀ rs, (sendDelete (base c.target ++ str "rest/conf" ++ str "/" ++ loc)).interp feed (rp.stale :: rs) =
        some (deleteError (base c.target ++ str "rest/conf" ++ str "/" ++ loc) rp.stale, rs) := fun _ => rfl
    simp only [Option.isSome_some, if_true, List.singleton_append]
    rw [interp_bind, hdelete]
    simp only [Option.bind_some, interp_send]
    rcases rp.create.isError with _ | _ <;> exact ⟨_, _, rfl, rfl, rfl⟩

theorem Replies.pass_iff (rp : Replies) : rp.Pass ↔ rp.create.isError = false ∧ (∀ x ∈ rp.sets, x.2.isError = false) ∧
    rp.commit.isError = false ∧ rp.save.isError = false ∧ rp.exit.isError = false := by
  unfold Replies.Pass Replies.own
  rw [List.forall_mem_cons, List.forall_mem_append, List.forall_mem_map]
  simp

/-- A success is no error. -/
theorem Replies.Succeed.pass {rp : Replies} (h : rp.Succeed) : rp.Pass := by
  intro r hr
  have hsuccess := h r hr
  simp only [Response.isSuccess, Bool.and_eq_true, decide_eq_true_eq] at hsuccess
  simp only [Response.isError, Bool.and_eq_false_iff, decide_eq_false_iff_not]
  omega

/-- Undef, exactly: no reply is an error, the first one names a session, and the commit's says
    nothing. -/
theorem batch_undef_iff (safe : UInt8 → Bool) (c : Client) (rp : Replies) : ∃ e, report safe c rp = some e ∧
    (e = none ↔ rp.Pass ∧ rp.create.location ≠ none ∧ getErrorMessage rp.commit = none) := by
  rw [rp.pass_iff]
  obtain ⟨c', returned, hrun, hpass, hloc⟩ := configure_passes c rp
  have hbatch : ∀ {Q : Option Str → Prop},
    Yields (rp.sets.map (·.2) ++ [rp.commit, rp.save, rp.exit]) (setBatch safe rp.cmds c') Q →
      ∃ e, report safe c rp = some e ∧ Q e := by
    rintro Q ⟨c'', e, rs, hyields, he⟩
    refine ⟨e, ?_, he⟩
    rw [report, batchConfCmds, interp_bind, hrun]
    show ((check (str "configure") (setBatch safe rp.cmds) (c', returned)).interp feed _).map _ = _
    rw [check, hpass, hyields]
    rfl
  rcases hsession : c'.confLoc with _ | loc
  · -- a failed create, or one without a location
    obtain ⟨e, hreport, he⟩ := hbatch (yields_without_session safe rp.cmds hsession _)
    refine ⟨e, hreport, iff_of_false he fun h => ?_⟩
    rw [hloc, h.1.1] at hsession
    exact h.2.1 hsession
  · have hcreate : rp.create.isError = false ∧ rp.create.location = some loc := by
      rw [hloc] at hsession
      rcases he : rp.create.isError with _ | _
      · rw [he] at hsession
        exact ⟨rfl, hsession⟩
      · rw [he] at hsession
        cases hsession
    obtain ⟨e, hreport, he⟩ :=
      hbatch (yields_sets safe (fun c hc => yields_commit hc rp.commit rp.save rp.exit) rp.sets c' hsession)
    refine ⟨e, hreport, he.trans ?_⟩
    rw [hcreate.1, hcreate.2]
    constructor
    · rintro ⟨hsets, ⟨hcommit, hquiet⟩, hsave, hexit, _⟩
      exact ⟨⟨rfl, hsets, hcommit, hsave, hexit⟩, Option.some_ne_none _, hquiet⟩
    · rintro ⟨⟨_, hsets, hcommit, hsave, hexit⟩, _, hquiet⟩
      exact ⟨hsets, ⟨hcommit, hquiet⟩, hsave, hexit, trivial⟩

/-- The batch tells whether every request was answered with a success, but for replies that are
    all successes and of which the first names no session or the commit's has a message, and for
    replies that are not, but no errors either, with a session and without a message. -/
theorem batch_reports_iff (safe : UInt8 → Bool) (c : Client) (rp : Replies) : ∃ e, report safe c rp = some e ∧
    ((e = none ↔ rp.Succeed) ↔
      ¬ (rp.Succeed ∧ (rp.create.location = none ∨ getErrorMessage rp.commit ≠ none)) ∧
      ¬ (rp.Pass ∧ ¬ rp.Succeed ∧ rp.create.location ≠ none ∧ getErrorMessage rp.commit = none)) := by
  obtain ⟨e, hreport, he⟩ := batch_undef_iff safe c rp
  refine ⟨e, hreport, ?_⟩
  have hpass : rp.Succeed → rp.Pass := Replies.Succeed.pass
  rw [he]
  tauto

/-- One command, and a commit with output, as the server answers it. -/
def withOutput : Replies where
  stale := failed
  create := created (str "0000000000000001")
  sets := [(str "set system host-name r1", success)]
  commit := saying (str "[ system host-name r1 ]")
  save := saying (str "Saving configuration ... Done")
  exit := success

/-- And a set that is answered with a redirection, by a proxy on the way. -/
def redirected : Replies :=
  { withOutput with
    sets := [(str "set system host-name r1", { failed with code := 302, statusLine := str "302 Found" })]
    commit := success }

/-- A commit that has succeeded is reported as an error, and nothing is saved; a set that was not
    done is not reported. -/
theorem a_batch_misreports :
    (withOutput.Succeed ∧
      report isUnreserved ⟨str "router", none, none⟩ withOutput = some (some (str "commit error: [ system host-name r1 ]\n"))) ∧
    (¬ redirected.Succeed ∧ report isUnreserved ⟨str "router", none, none⟩ redirected = some none) := by
  decide

end VyattaRest.RestClient.Batch
