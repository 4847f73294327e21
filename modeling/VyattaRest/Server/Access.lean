/-
  VyattaRest.Server.Access — who gets how far.

  `Call.isEffect` are the calls that do something for a user. Every mode looks at the kind of
  authentication first and makes no call without one (`process_unauthenticated`), so the
  request that `main` dispatches without authentication, after a failed `parse`, has no
  effect. Otherwise a mode is reached after `validate` has returned true, and what `validate`
  leaves in the session is backed by the answers it got: the access level of vyattacfg by a
  group of that name (`validate_backed`). A session file with two records of one key would
  break this: the second record replaces the user, and leaves the access level of the first.
  - `effects_are_authorized`: every effect of a request.
-/

import VyattaRest.Server.Main

namespace VyattaRest.Server

open VyattaRest.Lib VyattaRest.Rest VyattaRest.Lib.Prog

/-- The answers of a run: calls with what came back. -/
abbrev Trace := List (Sigma Call.Answer)

/-- The answers show that the user is in group vyattacfg. -/
def InVyattacfg (tr : Trace) (user : Str) : Prop :=
  ∃ gid groups g gr, (⟨.getgrouplist user gid, some groups⟩ : Sigma Call.Answer) ∈ tr ∧ g ∈ groups ∧
    (⟨.getgrgid g, some gr⟩ : Sigma Call.Answer) ∈ tr ∧ gr.name = str "vyattacfg"

/-- The key of a line of the session file. -/
def recordKey (buf : Str) : Str := StrProc.get (strProc (cstr buf) (str ",")) 0

def DistinctKeys (lines : List Str) : Prop :=
  lines.Pairwise fun a b => recordKey a ≠ [] → recordKey a ≠ recordKey b

/-! ## What authentication leaves behind -/

/-- An access level that is not claimed without reason. -/
def Backed (tr : Trace) (s : Session) : Prop := s.accessLevel = .vyattaCfg → InVyattacfg tr s.user

/-- The world answers as in the trace. -/
def answersOf (tr : Trace) (c : Call) (a : c.Answer) : Prop := (⟨c, a⟩ : Sigma Call.Answer) ∈ tr

/-- A program without effects. -/
abbrev Quiet {α : Type} (tr : Trace) (p : Act α) (Q : α → Prop) : Prop :=
  wp (answersOf tr) (fun c => c.isEffect = false) True p Q

section

variable {tr : Trace}

theorem checkGroups_backed : ∀ (gs : List Nat) (s : Session) (primary : Nat),
    Quiet tr (checkGroups gs s primary) fun r => r.1.user = s.user ∧ r.1.serviceUser = s.serviceUser ∧
      (r.1.accessLevel = .vyattaCfg → s.accessLevel = .vyattaCfg ∨
        ∃ g ∈ gs, ∃ gr, answersOf tr (.getgrgid g) (some gr) ∧ gr.name = str "vyattacfg") := by
  intro gs
  induction gs with
  | nil =>
    intro s primary
    exact ⟨rfl, rfl, Or.inl⟩
  | cons g gs ih =>
    intro s primary
    refine (wp_then _ _ _).mpr ⟨rfl, fun a ha => ?_⟩
    cases a with
    | none =>
      refine wp_mono (ih s primary) fun r hr => ⟨hr.1, hr.2.1, fun hc => ?_⟩
      rcases hr.2.2 hc with h | ⟨g', hg', h⟩
      · exact Or.inl h
      · exact Or.inr ⟨g', List.mem_cons_of_mem _ hg', h⟩
    | some gr =>
      simp only
      split
      · rename_i hname
        refine wp_mono (ih _ gr.gid) fun r hr => ⟨hr.1, hr.2.1, fun _ => ?_⟩
        exact Or.inr ⟨g, List.mem_cons_self, gr, ha, hname⟩
      · refine wp_mono (ih s primary) fun r hr => ⟨hr.1, hr.2.1, fun hc => ?_⟩
        rcases hr.2.2 hc with h | ⟨g', hg', h⟩
        · exact Or.inl h
        · exact Or.inr ⟨g', List.mem_cons_of_mem _ hg', h⟩

theorem pam_quiet (service user password : Str) : Quiet tr (AuthBasic.pam service user password) fun _ => True := by
  unfold AuthBasic.pam
  refine (wp_then _ _ _).mpr ⟨rfl, fun a _ => ?_⟩
  cases a with
  | false => exact trivial
  | true =>
    refine (wp_then _ _ _).mpr ⟨rfl, fun a _ => ?_⟩
    cases a with
    | false => exact trivial
    | true =>
      refine (wp_then _ _ _).mpr ⟨rfl, fun a _ => ?_⟩
      cases a with
      | false => exact trivial
      | true => exact ⟨rfl, fun _ _ => trivial⟩

theorem basic_become_quiet (pw : Passwd) (primary : Nat) : Quiet tr (AuthBasic.become pw primary) fun _ => True := by
  unfold AuthBasic.become
  refine (wp_then _ _ _).mpr ⟨rfl, fun a _ => ?_⟩
  cases a with
  | false => exact trivial
  | true =>
    refine (wp_then _ _ _).mpr ⟨rfl, fun a _ => ?_⟩
    cases a with
    | false => exact trivial
    | true => exact ⟨rfl, fun _ _ => trivial⟩

/-- The evidence for a group found in the list of the user's groups. -/
theorem backed_of_groups {s s' : Session} {gid : Nat} {groups : List Nat} (hs : s.accessLevel ≠ .vyattaCfg)
    (hgroups : answersOf tr (.getgrouplist s.user gid) (some groups)) (hu : s'.user = s.user)
    (hc : s'.accessLevel = .vyattaCfg → s.accessLevel = .vyattaCfg ∨
      ∃ g ∈ groups, ∃ gr, answersOf tr (.getgrgid g) (some gr) ∧ gr.name = str "vyattacfg") : Backed tr s' := by
  intro hlevel
  rcases hc hlevel with h | ⟨g, hg, gr, hgr, hname⟩
  · exact absurd h hs
  · exact ⟨gid, groups, g, gr, hu ▸ hgroups, hg, hgr, hname⟩

theorem basic_account_backed {s : Session} (hs : s.accessLevel ≠ .vyattaCfg) :
    Quiet tr (AuthBasic.account s) fun r => Backed tr r.2 := by
  have hb : Backed tr s := fun h => absurd h hs
  unfold AuthBasic.account
  refine (wp_then _ _ _).mpr ⟨rfl, fun pw _ => ?_⟩
  cases pw with
  | none => exact hb
  | some pw =>
    refine (wp_then _ _ _).mpr ⟨rfl, fun groups hgroups => ?_⟩
    cases groups with
    | none => exact hb
    | some groups =>
      refine (wp_bind _ _ _).mpr (wp_mono (checkGroups_backed groups s pw.gid) fun r hr => ?_)
      have hr' : Backed tr r.1 := backed_of_groups hs hgroups hr.1 hr.2.2
      refine (wp_then _ _ _).mpr ⟨rfl, fun a _ => ?_⟩
      cases a <;> exact hr'

theorem substrAt_quiet (s : Str) (pos n : Nat) : Quiet tr (substrAt s pos n) fun _ => True := by
  unfold substrAt
  split <;> trivial

theorem basic_authorized_backed (val : Str) {s : Session} (hs : s.accessLevel ≠ .vyattaCfg) :
    Quiet tr (AuthBasic.authorized val s) fun r => Backed tr r.2 := by
  have hb : Backed tr s := fun h => absurd h hs
  unfold AuthBasic.authorized
  split
  · exact hb
  refine (wp_bind _ _ _).mpr (wp_mono (substrAt_quiet _ _ _) fun auth _ => ?_)
  split
  · exact hb
  refine (wp_then _ _ _).mpr ⟨rfl, fun out _ => ?_⟩
  simp only
  split
  · exact hb
  refine (wp_bind _ _ _).mpr (wp_mono (substrAt_quiet _ _ _) fun username _ => ?_)
  refine (wp_bind _ _ _).mpr (wp_mono (substrAt_quiet _ _ _) fun password _ => ?_)
  split
  · refine (wp_bind _ _ _).mpr (wp_mono (pam_quiet _ _ _) fun ok _ => ?_)
    cases ok <;> exact fun h => by cases h
  refine (wp_bind _ _ _).mpr (wp_mono (basic_account_backed (s := { s with user := username }) hs) fun r hr => ?_)
  rcases r with ⟨_ | ⟨pw, primary⟩, s'⟩
  · exact hr
  refine (wp_bind _ _ _).mpr (wp_mono (pam_quiet _ _ _) fun ok _ => ?_)
  cases ok with
  | false => exact hr
  | true =>
    refine (wp_bind _ _ _).mpr (wp_mono (basic_become_quiet pw primary) fun ok _ => ?_)
    cases ok <;> exact hr

/-! ### The session file -/

theorem keyAfter_quiet (val marker : Str) : Quiet tr (AuthSession.keyAfter val marker) fun _ => True := by
  unfold AuthSession.keyAfter
  split
  · trivial
  · exact substrAt_quiet _ _ _

theorem session_account_backed {st : AuthSession.Scan} (hs : st.session.accessLevel ≠ .vyattaCfg) :
    Quiet tr (AuthSession.account st) fun r => Backed tr r.2 ∧ ∀ st', r.1 = some st' → st'.session = r.2 := by
  have hb : Backed tr st.session := fun h => absurd h hs
  unfold AuthSession.account
  refine (wp_then _ _ _).mpr ⟨rfl, fun pw _ => ?_⟩
  cases pw with
  | none => exact ⟨hb, fun _ h => nomatch h⟩
  | some pw =>
    refine (wp_then _ _ _).mpr ⟨rfl, fun groups hgroups => ?_⟩
    cases groups with
    | none => exact ⟨hb, fun _ h => nomatch h⟩
    | some groups =>
      refine (wp_bind _ _ _).mpr (wp_mono (checkGroups_backed groups st.session pw.gid) fun r hr => ?_)
      refine ⟨backed_of_groups hs hgroups hr.1 hr.2.2, fun st' h => ?_⟩
      cases h
      rfl

theorem matched_level (fields : List Str) {s : Session} (hs : s.accessLevel ≠ .vyattaCfg) :
    (AuthSession.matched fields s).accessLevel ≠ .vyattaCfg := by
  unfold AuthSession.matched
  split
  · simp
  · exact hs

/-- The loop over the session file: a level that was given by one record meets no other
    record of the key. -/
theorem scan_backed {auth : Str} (hauth : auth ≠ []) (now : Nat) : ∀ (lines : List Str) (st : AuthSession.Scan),
    DistinctKeys lines → Backed tr st.session →
    (st.session.accessLevel ≠ .vyattaCfg ∨ ∀ l ∈ lines, recordKey l ≠ auth) →
    Quiet tr (AuthSession.scan auth now lines st) fun r => ∀ st', r = .inr st' → Backed tr st'.session := by
  intro lines
  induction lines with
  | nil =>
    intro st _ hb _ st' h
    cases h
    exact hb
  | cons buf lines ih =>
    intro st hd hb hfree
    have hd' : DistinctKeys lines := List.Pairwise.of_cons hd
    have hfree' : st.session.accessLevel ≠ .vyattaCfg ∨ ∀ l ∈ lines, recordKey l ≠ auth :=
      hfree.imp_right fun h l hl => h l (List.mem_cons_of_mem _ hl)
    rw [AuthSession.scan]
    refine (wp_ite _ _ _).mpr ⟨fun _ => ih st hd' hb hfree', fun _ => ?_⟩
    refine (wp_ite _ _ _).mpr ⟨fun _ => ?_, fun hkey => ?_⟩
    · refine (wp_then _ _ _).mpr ⟨rfl, fun a _ => ?_⟩
      cases a with
      | false =>
        intro st' h
        cases h
        exact hb
      | true => exact ih st hd' hb hfree'
    · have hkey : recordKey buf = auth := not_not.mp hkey
      have hlater : ∀ l ∈ lines, recordKey l ≠ auth := by
        intro l hl heq
        exact (List.pairwise_cons.mp hd).1 l hl (hkey ▸ hauth) (hkey.trans heq.symm)
      have hlevel : st.session.accessLevel ≠ .vyattaCfg :=
        hfree.resolve_right fun h => h buf List.mem_cons_self hkey
      have hm := matched_level (strProc (cstr buf) (str ",")) hlevel
      have hacc : Quiet tr (if (AuthSession.matched (strProc (cstr buf) (str ",")) st.session).serviceUser then
            pure (some { st with session := AuthSession.matched (strProc (cstr buf) (str ",")) st.session },
              AuthSession.matched (strProc (cstr buf) (str ",")) st.session)
          else AuthSession.account { st with session := AuthSession.matched (strProc (cstr buf) (str ",")) st.session })
          fun r => Backed tr r.2 ∧ ∀ st', r.1 = some st' → st'.session = r.2 := by
        refine (wp_ite _ _ _).mpr ⟨fun _ => ?_, fun _ => session_account_backed hm⟩
        exact ⟨fun h => absurd h hm, fun st' h => by cases h; rfl⟩
      refine (wp_bind _ _ _).mpr (wp_mono hacc fun r hr => ?_)
      obtain ⟨_ | st', s'⟩ := r
      · intro st' h
        cases h
      · refine (wp_then _ _ _).mpr ⟨rfl, fun a _ => ?_⟩
        cases a with
        | false => exact ih st' hd' (hr.2 st' rfl ▸ hr.1) (Or.inr hlater)
        | true => exact ih _ hd' hr.1 (Or.inr hlater)

theorem session_become_quiet (pw : Passwd) (groups : List Nat) :
    Quiet tr (AuthSession.become pw groups) fun _ => True := by
  unfold AuthSession.become
  refine (wp_then _ _ _).mpr ⟨rfl, fun a _ => ?_⟩
  cases a with
  | false => exact trivial
  | true =>
    refine (wp_then _ _ _).mpr ⟨rfl, fun a _ => ?_⟩
    cases a with
    | false => exact trivial
    | true =>
      refine (wp_then _ _ _).mpr ⟨rfl, fun a _ => ?_⟩
      cases a with
      | false => exact trivial
      | true => exact ⟨rfl, fun _ _ => trivial⟩

section

variable (hlines : ∀ lines, answersOf tr .sessionLines lines → DistinctKeys lines)
include hlines

theorem underLock_backed {auth : Str} (hauth : auth ≠ []) {s : Session} (hs : s.accessLevel ≠ .vyattaCfg) :
    Quiet tr (AuthSession.underLock auth s) fun r => r.1 = true → Backed tr r.2 := by
  unfold AuthSession.underLock
  refine (wp_then _ _ _).mpr ⟨rfl, fun now _ => (wp_then _ _ _).mpr ⟨rfl, fun lines hl => ?_⟩⟩
  have hb : Backed tr s := fun h => absurd h hs
  refine (wp_bind _ _ _).mpr (wp_mono (scan_backed hauth now lines _ (hlines lines hl) hb (Or.inl hs)) fun r hr => ?_)
  cases r with
  | inl s' =>
    intro h
    cases h
  | inr st =>
    have hb : Backed tr st.session := hr st rfl
    refine (wp_ite _ _ _).mpr ⟨fun _ => ?_, fun _ _ => hb⟩
    split
    · exact fun _ => hb
    · exact (wp_bind _ _ _).mpr (wp_mono (session_become_quiet _ _) fun _ _ _ => hb)

theorem session_authorized_backed (val : Str) {s : Session} (hs : s.accessLevel ≠ .vyattaCfg) :
    Quiet tr (AuthSession.authorized val s) fun r => r.1 = true → Backed tr r.2 := by
  unfold AuthSession.authorized
  refine (wp_ite _ _ _).mpr ⟨fun _ h => (nomatch h), fun _ => ?_⟩
  refine (wp_bind _ _ _).mpr (wp_mono (keyAfter_quiet _ _) fun key _ => ?_)
  refine (wp_bind _ _ _).mpr (wp_mono (keyAfter_quiet _ _) fun auth _ => ?_)
  refine (wp_ite _ _ _).mpr ⟨fun _ h => (nomatch h), fun hne => ?_⟩
  have hauth : (if auth.isEmpty then key else auth) ≠ [] := by
    rcases auth with _ | ⟨b, r⟩
    · rcases key with _ | ⟨b, r⟩
      · exact absurd rfl hne
      · simp
    · simp
  refine (wp_then _ _ _).mpr ⟨rfl, fun locked _ => ?_⟩
  cases locked with
  | false => exact ⟨rfl, fun _ _ h => (nomatch h)⟩
  | true =>
    refine (wp_bind _ _ _).mpr (wp_mono (underLock_backed hlines hauth hs) fun r hr => ?_)
    exact ⟨rfl, fun _ _ => hr⟩

theorem validate_backed {s : Session} (hs : s.accessLevel ≠ .vyattaCfg) :
    Quiet tr (validate s) fun r => r.1 = true → Backed tr r.2 := by
  unfold validate
  refine (wp_ite _ _ _).mpr ⟨fun _ h => (nomatch h), fun _ => ?_⟩
  refine (wp_ite _ _ _).mpr ⟨fun _ => wp_mono (basic_authorized_backed _ hs) fun _ h _ => h, fun _ => ?_⟩
  exact (wp_ite _ _ _).mpr ⟨fun _ => session_authorized_backed hlines _ hs, fun _ h => (nomatch h)⟩

end

end

/-! ## What a mode does with it -/

/-- No mode makes a call for a session that was not authenticated. -/
theorem process_unauthenticated (fuel : Nat) (r : Route) {s : Session} (hs : s.authType = .none) :
    r.process fuel s = pure (s.error .authorizationFailure) := by
  cases r <;> simp [Route.process, ServiceMode.process, AppMode.process, OpMode.process, ConfMode.process,
    Permissions.process, hs]

theorem dispatch_unauthenticated (fuel : Nat) {s : Session} (hs : s.authType = .none) :
    ∃ s', dispatch fuel s = pure s' := by
  unfold dispatch
  split
  · exact ⟨_, process_unauthenticated fuel _ hs⟩
  · exact ⟨_, rfl⟩

/-- Configuration mode makes no call below the access level of vyattacfg. -/
theorem conf_unprivileged {s : Session} (hs : s.accessLevel ≠ .vyattaCfg) :
    ∃ s', ConfMode.process s = pure s' := by
  unfold ConfMode.process
  simp only [hs, ne_eq, not_false_eq_true, if_true]
  repeat' split
  all_goals exact ⟨_, rfl⟩

theorem route_service {s : Session} {r : Route} (h : route s = some r) :
    s.accessLevel = .vyattaServiceUser ↔ r = .service := by
  unfold route at h
  simp only at h
  split at h
  · cases h
  split at h
  · rename_i hl
    split at h
    · cases h
      simp [hl]
    · cases h
  · rename_i hl
    have hr : r ≠ .service := by
      rintro rfl
      repeat' split at h
      all_goals simp at h
    simp [hl, hr]

/-! ## The request -/

theorem parse_level (rq : RequestEnv) : (parse rq Session.new).2.accessLevel = .vyattaOp ∧
    (parse rq Session.new).2.authType = .none := by
  unfold parse
  simp only
  split
  · exact ⟨rfl, rfl⟩
  split <;> exact ⟨rfl, rfl⟩

section

variable {env : (c : Call) → c.Answer → Prop} {tr : Trace} {e : Call} (he : e.isEffect = true)
include he

/-- What `main` does after a request is no effect. -/
theorem effect_in_answer {fuel gUid gGid : Nat} {rq : RequestEnv} {k : e.Answer → Act Http}
    (h : Exec env (serve fuel gUid gGid rq) tr (.call e k)) : ∃ k', Exec env (answer fuel rq) tr (.call e k') := by
  rcases h.bind_call with hans | ⟨tr₁, tr₂, s, -, -, hrest⟩
  · exact hans
  · have hquiet : wp env (fun c => c.isEffect = false) True (finish gUid gGid s) fun _ => True :=
      ⟨rfl, fun _ _ => ⟨rfl, fun _ _ => ⟨rfl, fun _ _ => trivial⟩⟩⟩
    have hq := hrest.allowed hquiet
    rw [he] at hq
    cases hq

theorem effect_after_validate {fuel : Nat} {rq : RequestEnv} {k : e.Answer → Act Session}
    (hkeys : ∀ lines, env .sessionLines lines → DistinctKeys lines) (h : Exec env (answer fuel rq) tr (.call e k)) :
    ∃ s s' tr₁ tr₂, parse rq Session.new = (true, s) ∧ tr = tr₁ ++ tr₂ ∧ Exec env (validate s) tr₁ (.ret (true, s')) ∧
      Backed tr₁ s' ∧ Exec env (dispatch fuel s') tr₂ (.call e k) := by
  obtain ⟨hlevel, hauth⟩ := parse_level rq
  unfold answer at h
  rcases hp : parse rq Session.new with ⟨parsed, s⟩
  rw [hp] at h hlevel hauth
  cases parsed with
  | false =>
    obtain ⟨s', hd⟩ := dispatch_unauthenticated fuel hauth
    change Exec env (dispatch fuel s) tr _ at h
    rw [hd] at h
    cases h
  | true =>
    change Exec env (validate s >>= _) tr _ at h
    have hs : s.accessLevel ≠ .vyattaCfg := hlevel ▸ by decide
    have hlines : ∀ {tr' : Trace} {q : Act (Bool × Session)}, Exec env (validate s) tr' q →
        ∀ lines, answersOf tr' .sessionLines lines → DistinctKeys lines :=
      fun hv lines hl => hkeys lines (hv.answered _ hl)
    rcases h.bind_call with ⟨k', hv⟩ | ⟨tr₁, tr₂, ⟨ok, s'⟩, htr, hv, hrest⟩
    · -- authentication itself has no effect
      have hq := hv.self.allowed (validate_backed (hlines hv) hs)
      rw [he] at hq
      cases hq
    · cases ok with
      | false => cases hrest
      | true => exact ⟨s, s', tr₁, tr₂, rfl, htr, hv, hv.self.wp (validate_backed (hlines hv) hs) rfl, hrest⟩

end

/-- An effect of a request comes from the one mode its session is sent to, after
    `validate` has returned true; in configuration mode the answers have shown the user in
    group vyattacfg. Sessions of a service user, and only those, go to service mode. -/
theorem effects_are_authorized (env : (c : Call) → c.Answer → Prop)
    (hkeys : ∀ lines, env .sessionLines lines → DistinctKeys lines) (fuel gUid gGid : Nat) (rq : RequestEnv) :
    (∀ (tr : Trace) (e : Call) (k : e.Answer → Act Http), Exec env (serve fuel gUid gGid rq) tr (.call e k) →
      e.isEffect = true →
      ∃ s s' tr₁ tr₂ r k', parse rq Session.new = (true, s) ∧ tr = tr₁ ++ tr₂ ∧
        Exec env (validate s) tr₁ (.ret (true, s')) ∧ route s' = some r ∧
        Exec env (r.process fuel s') tr₂ (.call e k') ∧ (r = .conf → InVyattacfg tr₁ s'.user)) ∧
    ∀ s r, route s = some r → (s.accessLevel = .vyattaServiceUser ↔ r = .service) := by
  refine ⟨fun tr e k h he => ?_, fun s r => route_service⟩
  obtain ⟨k', hans⟩ := effect_in_answer he h
  obtain ⟨s, s', tr₁, tr₂, hp, htr, hv, hb, hd⟩ := effect_after_validate he hkeys hans
  unfold dispatch at hd
  rcases hr : route s' with _ | r
  · rw [hr] at hd
    cases hd
  rw [hr] at hd
  refine ⟨s, s', tr₁, tr₂, r, k', hp, htr, hv, hr, hd, fun hconf => hb ?_⟩
  by_contra hlevel
  subst hconf
  obtain ⟨s'', hq⟩ := conf_unprivileged hlevel
  change Exec env (ConfMode.process s') tr₂ _ at hd
  rw [hq] at hd
  cases hd

/-- A request with the key of a session. -/
def keyedRequest (method uri key : Str) : RequestEnv where
  requestUri := some uri
  queryString := none
  requestMethod := some method
  accept := none
  contentLength := none
  httpAuthorization := some (str "Vyatta-Session " ++ key)
  httpCookie := none
  vyattaSpecificationVersion := none
  host := none
  httpPragma := none
  stdin := []

/-- An administrator's request for the list of configuration sessions, up to the first call
    of configd. -/
def listingAnswers : Trace :=
  [⟨.lock, true⟩, ⟨.gettimeofday, (1000 : Nat)⟩,
   ⟨.sessionLines, [str "0123456789ABCDEF,vyatta,900,127.0.0.1,\n"]⟩,
   ⟨.getpwnam (str "vyatta"), some ⟨1000, 100⟩⟩, ⟨.getgrouplist (str "vyatta") 100, some [100, 101]⟩,
   ⟨.getgrgid 100, some ⟨str "users", 100⟩⟩, ⟨.getgrgid 101, some ⟨str "vyattacfg", 101⟩⟩,
   ⟨.fputsSession (str "0123456789ABCDEF,vyatta,1000,127.0.0.1,\n"), true⟩,
   ⟨.setloginuid 1000, true⟩, ⟨.setgroups [100, 101], true⟩, ⟨.setegid 100, true⟩, ⟨.seteuid 1000, true⟩, ⟨.unlock, ()⟩,
   ⟨.readdir (str "/tmp/"), some [str ".vyattamodify_0000000000000001"]⟩,
   ⟨.fgets (str "/tmp/.vyattamodify_0000000000000001"), some (some (str "vyatta/edit"))⟩,
   ⟨.stat (str "/tmp/.vyattamodify_0000000000000001"), some (7, 8)⟩]

def listingRequest : RequestEnv := keyedRequest (str "GET") (str "/rest/conf") (str "0123456789ABCDEF")

theorem a_listing_is_authorized : ∃ k s s' tr₁ tr₂ r k',
    Exec (answersOf listingAnswers) (serve 0 0 0 listingRequest) listingAnswers (.call .configdOpen k) ∧
    parse listingRequest Session.new = (true, s) ∧ listingAnswers = tr₁ ++ tr₂ ∧
    Exec (answersOf listingAnswers) (validate s) tr₁ (.ret (true, s')) ∧ route s' = some r ∧
    Exec (answersOf listingAnswers) (r.process 0 s') tr₂ (.call .configdOpen k') ∧
    (r = .conf → InVyattacfg tr₁ s'.user) := by
  have hrun : ((serve 0 0 0 listingRequest).replay listingAnswers).bind next? = some .configdOpen := by decide +kernel
  have hanswers : ∀ x ∈ listingAnswers, answersOf listingAnswers x.1 x.2 := fun _ hx => hx
  obtain ⟨k, hk⟩ := exec_call_of_replay hanswers hrun
  have hkeys : ∀ lines, answersOf listingAnswers .sessionLines lines → DistinctKeys lines := by
    intro lines h
    simp only [answersOf, listingAnswers, List.mem_cons, List.not_mem_nil, Sigma.mk.injEq, reduceCtorEq, false_and,
      false_or, or_false, true_and, heq_eq_eq] at h
    subst h
    exact List.pairwise_singleton _ _
  obtain ⟨s, s', tr₁, tr₂, r, k', h⟩ := (effects_are_authorized _ hkeys 0 0 0 listingRequest).1 _ _ k hk rfl
  exact ⟨k, s, s', tr₁, tr₂, r, k', hk, h⟩

end VyattaRest.Server
