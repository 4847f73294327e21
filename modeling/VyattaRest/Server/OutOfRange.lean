/-
  VyattaRest.Server.OutOfRange — `std::out_of_range`, which nobody catches.

  An index of `substr` past the end of its string ends the server. Three of them are computed
  as the position of a marker and a constant, with nothing to say that the string goes on
  behind the marker: the key in an Authorization or Cookie value, the help in a line of
  `val_help`, and the path in a permission entry. Every other index is in range.
  - `no_request_throws_iff`: exactly which values, templates and entries throw.
  - `a_cookie_ends_the_server`: before authentication.
-/

import VyattaRest.Server.ConfCalls
import VyattaRest.Server.Main

namespace VyattaRest.Server.OutOfRange

open VyattaRest.Lib VyattaRest.Rest VyattaRest.Lib.Prog

/-! ## Authorization and Cookie -/

/-- The first of a marker is the end of the value. -/
def endsAtMarker (marker val : Str) : Bool := find marker val == some (val.length - marker.length)

theorem keyAfter_throws {val marker : Str} (h : endsAtMarker marker val = true) :
    AuthSession.keyAfter val marker = Prog.throw := by
  have hf : find marker val = some (val.length - marker.length) := by simpa [endsAtMarker] using h
  have hle := find_le hf
  unfold AuthSession.keyAfter
  rw [hf]
  exact if_neg (by omega)

theorem keyAfter_returns {val marker : Str} (h : endsAtMarker marker val = false) :
    ∃ key, AuthSession.keyAfter val marker = pure key := by
  unfold AuthSession.keyAfter
  rcases hf : find marker val with _ | pos
  · exact ⟨_, rfl⟩
  · have hle := find_le hf
    have hne : pos ≠ val.length - marker.length := by
      intro e
      rw [endsAtMarker, hf, e] at h
      simp at h
    exact ⟨_, substrAt_of_le _ (by omega)⟩

section

variable {env : (c : Call) → c.Answer → Prop}

/-- No run of the program throws. -/
abbrev Safe {α : Type} (env : (c : Call) → c.Answer → Prop) (p : Act α) : Prop :=
  wp env (fun _ => True) False p fun _ => True

theorem checkGroups_safe : ∀ (gs : List Nat) (s : Session) (primary : Nat), Safe env (checkGroups gs s primary) := by
  intro gs
  induction gs with
  | nil => exact fun _ _ => trivial
  | cons g gs ih =>
    intro s primary
    refine (wp_then _ _ _).mpr ⟨trivial, fun a _ => ?_⟩
    rcases a with _ | gr
    · exact ih s primary
    · exact (wp_ite _ _ _).mpr ⟨fun _ => ih _ _, fun _ => ih _ _⟩

theorem account_safe (st : AuthSession.Scan) : Safe env (AuthSession.account st) := by
  unfold AuthSession.account
  refine (wp_then _ _ _).mpr ⟨trivial, fun pw _ => ?_⟩
  rcases pw with _ | pw
  · trivial
  refine (wp_then _ _ _).mpr ⟨trivial, fun groups _ => ?_⟩
  rcases groups with _ | groups
  · trivial
  exact (wp_bind _ _ _).mpr (wp_mono (checkGroups_safe groups _ _) fun _ _ => trivial)

theorem scan_safe (auth : Str) (now : Nat) : ∀ (lines : List Str) (st : AuthSession.Scan),
    Safe env (AuthSession.scan auth now lines st) := by
  intro lines
  induction lines with
  | nil => exact fun _ => trivial
  | cons buf lines ih =>
    intro st
    rw [AuthSession.scan]
    refine (wp_ite _ _ _).mpr ⟨fun _ => ih st, fun _ => ?_⟩
    refine (wp_ite _ _ _).mpr ⟨fun _ => (wp_then _ _ _).mpr ⟨trivial, fun written _ => ?_⟩, fun _ => ?_⟩
    · exact (wp_ite _ _ _).mpr ⟨fun _ => ih st, fun _ => trivial⟩
    have haccount : ∀ st : AuthSession.Scan, Safe env
        (if st.session.serviceUser then pure (some st, st.session) else AuthSession.account st) := fun st =>
      (wp_ite _ _ _).mpr ⟨fun _ => trivial, fun _ => account_safe st⟩
    refine (wp_bind _ _ _).mpr (wp_mono (haccount _) fun r _ => ?_)
    obtain ⟨st', s⟩ := r
    rcases st' with _ | st'
    · trivial
    refine (wp_then _ _ _).mpr ⟨trivial, fun written _ => ?_⟩
    exact (wp_ite _ _ _).mpr ⟨fun _ => ih _, fun _ => ih _⟩

theorem become_safe (pw : Passwd) (groups : List Nat) : Safe env (AuthSession.become pw groups) := by
  unfold AuthSession.become
  refine (wp_then _ _ _).mpr ⟨trivial, fun _ _ => (wp_ite _ _ _).mpr ⟨fun _ => trivial, fun _ => ?_⟩⟩
  refine (wp_then _ _ _).mpr ⟨trivial, fun _ _ => (wp_ite _ _ _).mpr ⟨fun _ => trivial, fun _ => ?_⟩⟩
  refine (wp_then _ _ _).mpr ⟨trivial, fun _ _ => (wp_ite _ _ _).mpr ⟨fun _ => trivial, fun _ => ?_⟩⟩
  exact ⟨trivial, fun _ _ => trivial⟩

theorem underLock_safe (auth : Str) (s : Session) : Safe env (AuthSession.underLock auth s) := by
  unfold AuthSession.underLock
  refine (wp_then _ _ _).mpr ⟨trivial, fun now _ => (wp_then _ _ _).mpr ⟨trivial, fun lines _ => ?_⟩⟩
  refine (wp_bind _ _ _).mpr (wp_mono (scan_safe auth now lines _) fun r _ => ?_)
  rcases r with s | st
  · trivial
  refine (wp_ite _ _ _).mpr ⟨fun _ => ?_, fun _ => trivial⟩
  rcases st.pw with _ | pw
  · trivial
  · exact (wp_bind _ _ _).mpr (wp_mono (become_safe pw _) fun _ _ => trivial)

/-- The two markers, as `authorized` looks for them in a value that is long enough. -/
def endsAtKey (val : Str) : Bool :=
  authVyattaPathLoc.length + 1 ≤ val.length && (endsAtMarker authVyattaPathLoc val || endsAtMarker authVyattaSession val)

theorem authorized_throws {val : Str} (h : endsAtKey val = true) (s : Session) :
    AuthSession.authorized val s = Prog.throw := by
  have hlengths : authVyattaSession.length ≤ authVyattaPathLoc.length := by decide
  simp only [endsAtKey, Bool.and_eq_true, Bool.or_eq_true, decide_eq_true_eq] at h
  unfold AuthSession.authorized
  rw [if_neg (by omega)]
  rcases hpath : endsAtMarker authVyattaPathLoc val with _ | _
  · obtain ⟨key, hkey⟩ := keyAfter_returns hpath
    rw [hkey, keyAfter_throws (h.2.resolve_left (by rw [hpath]; decide))]
    rfl
  · rw [keyAfter_throws hpath]
    rfl

theorem authorized_safe {val : Str} (h : endsAtKey val = false) (s : Session) :
    Safe env (AuthSession.authorized val s) := by
  have hlengths : authVyattaSession.length ≤ authVyattaPathLoc.length := by decide
  unfold AuthSession.authorized
  refine (wp_ite _ _ _).mpr ⟨fun _ => trivial, fun hlen => ?_⟩
  rw [endsAtKey, decide_eq_true (by omega), Bool.true_and, Bool.or_eq_false_iff] at h
  obtain ⟨key, hkey⟩ := keyAfter_returns h.1
  obtain ⟨auth, hauth⟩ := keyAfter_returns h.2
  rw [hkey, hauth]
  refine (wp_bind _ _ _).mpr ((wp_pure _ _).mpr ((wp_bind _ _ _).mpr ((wp_pure _ _).mpr ?_)))
  refine (wp_ite _ _ _).mpr ⟨fun _ => trivial, fun _ => (wp_then _ _ _).mpr ⟨trivial, fun locked _ => ?_⟩⟩
  refine (wp_ite _ _ _).mpr ⟨fun _ => ?_, fun _ => ⟨trivial, fun _ _ => trivial⟩⟩
  exact (wp_bind _ _ _).mpr (wp_mono (underLock_safe _ s) fun r _ => ⟨trivial, fun _ _ => trivial⟩)

end

/-! ## Permission entries -/

/-- The first `:` of the rule is its last byte. -/
def endsAtRule (entry : Str) : Bool :=
  match find (str "=") entry with
  | none => false
  | some eq =>
    entry.take eq ≠ str "DEFAULT" && find (str ":") (entry.take eq) == some (eq - 1)

theorem mapEntry_throws {entry : Str} (h : endsAtRule entry = true) : Permissions.mapEntry entry = Prog.throw := by
  unfold endsAtRule at h
  unfold Permissions.mapEntry
  rcases hf : find (str "=") entry with _ | eq
  · rw [hf] at h
    cases h
  have hle := find_le hf
  rw [show (str "=").length = 1 from rfl] at hle
  simp only [hf, Bool.and_eq_true, decide_eq_true_eq, beq_iff_eq] at h
  have hcolon := find_le h.2
  rw [show (str ":").length = 1 from rfl, List.length_take] at hcolon
  simp only
  rw [substrAt_of_le _ (Nat.zero_le _), substrAt_of_le _ hle]
  show (if substr entry 0 eq ≠ str "DEFAULT" then _ else _) = _
  rw [show substr entry 0 eq = entry.take eq from rfl, if_pos h.1, h.2]
  simp only
  rw [substrAt_of_le _ (Nat.zero_le _)]
  show (substrAt (entry.take eq) (eq - 1 + 2) _ >>= _) = _
  rw [substrAt, if_neg (by rw [List.length_take]; omega)]
  rfl

theorem mapEntry_returns {entry : Str} (h : endsAtRule entry = false) : ∃ r, Permissions.mapEntry entry = pure r := by
  unfold endsAtRule at h
  unfold Permissions.mapEntry
  rcases hf : find (str "=") entry with _ | eq
  · exact ⟨none, rfl⟩
  have hle := find_le hf
  rw [show (str "=").length = 1 from rfl] at hle
  simp only [hf] at h
  simp only
  rw [substrAt_of_le _ (Nat.zero_le _), substrAt_of_le _ hle]
  show ∃ r, (if substr entry 0 eq ≠ str "DEFAULT" then _ else _) = (pure r : Act (Option (Int × Str × Int)))
  rw [show substr entry 0 eq = entry.take eq from rfl]
  by_cases hdefault : entry.take eq = str "DEFAULT"
  · rw [if_neg (not_not.mpr hdefault)]
    exact ⟨_, rfl⟩
  rw [if_pos hdefault]
  rcases hcolon : find (str ":") (entry.take eq) with _ | pos
  · exact ⟨none, rfl⟩
  have hle' := find_le hcolon
  rw [show (str ":").length = 1 from rfl, List.length_take] at hle'
  have hne : pos ≠ eq - 1 := by
    intro e
    rw [hcolon, e, decide_eq_true hdefault, Bool.true_and] at h
    simp at h
  simp only
  rw [substrAt_of_le _ (Nat.zero_le _)]
  show ∃ r, (substrAt (entry.take eq) (pos + 2) _ >>= _) = (pure r : Act (Option (Int × Str × Int)))
  rw [substrAt_of_le _ (by rw [List.length_take]; omega)]
  exact ⟨_, rfl⟩

/-- The daemon's entries are written unless one of them ends at its rule. -/
theorem mapToJson_throws : ∀ {entries : List Str}, (∃ e ∈ entries, endsAtRule e = true) →
    Permissions.mapToJson entries = Prog.throw := by
  intro entries
  induction entries with
  | nil => exact fun ⟨e, he, _⟩ => nomatch he
  | cons e entries ih =>
    intro ⟨e', he', hbad⟩
    rw [Permissions.mapToJson]
    rcases hend : endsAtRule e with _ | _
    · obtain ⟨r, hr⟩ := mapEntry_returns hend
      have hrest := ih ((List.mem_cons.mp he').elim (fun h => by rw [h, hend] at hbad; cases hbad)
        fun he' => ⟨e', he', hbad⟩)
      rw [hr]
      rcases r with _ | obj
      · exact hrest
      · show (Permissions.mapToJson entries >>= fun objs => (pure (obj :: objs) : Act _)) = _
        rw [hrest]
        rfl
    · rw [mapEntry_throws hend]
      rfl

theorem mapToJson_returns : ∀ {entries : List Str}, (∀ e ∈ entries, endsAtRule e = false) →
    ∃ objs, Permissions.mapToJson entries = pure objs := by
  intro entries
  induction entries with
  | nil => exact fun _ => ⟨[], rfl⟩
  | cons e entries ih =>
    intro h
    obtain ⟨objs, hobjs⟩ := ih fun e' he' => h e' (List.mem_cons_of_mem _ he')
    obtain ⟨r, hr⟩ := mapEntry_returns (h e List.mem_cons_self)
    rw [Permissions.mapToJson, hr]
    rcases r with _ | obj
    · exact ⟨objs, hobjs⟩
    · refine ⟨obj :: objs, ?_⟩
      show (Permissions.mapToJson entries >>= fun objs => (pure (obj :: objs) : Act _)) = _
      rw [hobjs]
      rfl

/-! ## Templates -/

/-- Templates are the one given, or missing; nothing is said of any other answer. -/
def templateWorld (entries : List Str) : (c : Call) → c.Answer → Prop
  | .configdTmplGet _, a => a = none ∨ a = some entries
  | _, _ => True

/-- The answers that bring a request for a node to the lines of its template. -/
def nodeWorld (entries : List Str) : (c : Call) → c.Answer → Prop
  | .fgets _, a => a = some none
  | .configdTmplValidatePath _, a => a = true
  | .configdTmplGet _, a => a = some entries
  | .configdTmplGetChildren _, a => a = []
  | _, _ => True

theorem nodeWorld_sub (entries : List Str) : ∀ c a, nodeWorld entries c a → templateWorld entries c a := by
  intro c a h
  cases c <;> first | trivial | exact Or.inr h

theorem nodeWorld_answers (entries : List Str) : ∀ c, ∃ a, nodeWorld entries c a := by
  intro c
  cases c <;> first | exact ⟨_, rfl⟩ | exact ⟨default, trivial⟩ | exact ⟨.container, trivial⟩ | exact ⟨.deleted, trivial⟩

section

variable {entries₀ : List Str}

/-- Without children a known entry makes the node an end. -/
theorem templateEntries_end (cpath : Str) : ∀ (entries : List Str) (p : TemplateParams) (isValue : Bool),
    wp (nodeWorld entries₀) (fun _ => True) True (Configuration.templateEntries cpath entries p isValue) fun r =>
      p.isEnd = true ∨ valHelpLines entries ≠ [] → r.1.isEnd = true := by
  intro entries
  induction entries with
  | nil =>
    intro p isValue h
    exact h.resolve_right fun h => h rfl
  | cons entry rest ih =>
    intro p isValue
    rw [Configuration.templateEntries]
    rcases hs : templateStep entry p isValue with _ | ⟨p', v'⟩
    · rw [valHelpLines_skip rest hs]
      exact ih p isValue
    · refine (wp_then _ _ _).mpr ⟨trivial, fun children hchildren => wp_mono (ih _ v') fun r hr _ => hr (Or.inl ?_)⟩
      have hnone : children = [] := hchildren
      subst hnone
      rfl

theorem settle_end {p : TemplateParams} (h : p.isEnd = true) (isValue noEntries : Bool) :
    (p.settle isValue noEntries).valHelp = p.valHelp := by
  unfold TemplateParams.settle
  simp only [h, Bool.not_true, Bool.and_false, Bool.false_eq_true, if_false]
  split
  · rfl
  · split <;> rfl

theorem getTemplateNode_lines (cpath : Str) (hlines : valHelpLines entries₀ ≠ []) :
    wp (nodeWorld entries₀) (fun _ => True) True (Configuration.getTemplateNode cpath {}) fun r =>
      ∃ p, r = some p ∧ ∀ l, l ∈ p.valHelp.toList ↔ l ∈ valHelpLines entries₀ := by
  unfold Configuration.getTemplateNode
  refine (wp_then _ _ _).mpr ⟨trivial, fun valid hvalid => ?_⟩
  have hvalid : valid = true := hvalid
  refine (wp_ite _ _ _).mpr ⟨fun h => absurd h (by simp [hvalid]), fun _ => ?_⟩
  refine (wp_then _ _ _).mpr ⟨trivial, fun entries hentries => ?_⟩
  have hentries : entries = some entries₀ := hentries
  subst hentries
  have hall := wp_and (Configuration.templateEntries_wp (fun _ _ => trivial) cpath entries₀ {} false)
    (@templateEntries_end entries₀ cpath entries₀ {} false)
  refine (wp_bind _ _ _).mpr (wp_mono hall fun r hr => ?_)
  have hend : r.1.isEnd = true := hr.2 (Or.inr hlines)
  have hmem : ∀ l, l ∈ r.1.valHelp.toList ↔ l ∈ valHelpLines entries₀ := by
    intro l
    rw [hr.1 l]
    exact or_iff_right fun h => nomatch h
  refine (wp_then _ _ _).mpr ⟨trivial, fun nodeType _ => ?_⟩
  refine (wp_ite _ _ _).mpr ⟨fun _ => ⟨_, rfl, ?_⟩, fun _ => (wp_then _ _ _).mpr ⟨trivial, fun allowed _ => ⟨_, rfl, ?_⟩⟩⟩
  all_goals
    rw [settle_end (by exact hend)]
    exact hmem

/-- A request for a node whose template has a bad line does not return. -/
theorem getNode_never_returns {s : Session} {t : ConfMode.Target} (hlen : confReqRoot.length < s.uri.length)
    (hrest : t.confPathWithId = s.uri.drop confReqRoot.length) (huser : t.user = s.user)
    (hbad : ∃ l ∈ valHelpLines entries₀, ConfMode.endsAtHelp l = true) :
    wp (nodeWorld entries₀) (fun _ => True) True (ConfMode.getNode s t) fun _ => False := by
  obtain ⟨l, hl, hend⟩ := hbad
  unfold ConfMode.getNode
  refine (wp_ite _ _ _).mpr ⟨fun h => absurd huser h, fun _ => ?_⟩
  rw [hrest, ConfMode.pathAfterId_eq hlen]
  refine (wp_bind _ _ _).mpr ((wp_pure _ _).mpr ?_)
  unfold Configuration.withConnections
  refine (wp_then _ _ _).mpr ⟨trivial, fun _ _ => (wp_then _ _ _).mpr ⟨trivial, fun _ _ => (wp_bind _ _ _).mpr ?_⟩⟩
  unfold Configuration.getConfiguredNode
  refine (wp_bind _ _ _).mpr ((wp_then _ _ _).mpr ⟨trivial, fun _ _ => (wp_bind _ _ _).mpr ?_⟩)
  refine wp_mono (getTemplateNode_lines _ (List.ne_nil_of_mem hl)) fun r hr => ?_
  obtain ⟨p, rfl, hmem⟩ := hr
  refine (wp_bind _ _ _).mpr (wp_mono (Configuration.parseValueAndState_wp (fun _ _ => trivial) _ p) fun p' hp' => ?_)
  show wp _ _ _ (ConfMode.nodeJson _ >>= _) _
  rw [ConfMode.nodeJson_throws ⟨l, by simpa [hp', hmem] using hl, hend⟩]
  trivial

theorem process_never_returns {s : Session} (hroot_le : confReqRoot <+: s.uri) (hshows : ConfMode.showsNode s = true)
    (hbad : ∃ l ∈ valHelpLines entries₀, ConfMode.endsAtHelp l = true) :
    wp (nodeWorld entries₀) (fun _ => True) True (ConfMode.process s) fun _ => False := by
  simp only [ConfMode.showsNode, ConfMode.admitted, Bool.and_eq_true, decide_eq_true_eq] at hshows
  obtain ⟨⟨⟨hauth, hlevel⟩, hget⟩, hroot⟩ := hshows
  have hlen : confReqRoot.length < s.uri.length :=
    hroot_le.length_le.lt_of_ne fun e => hroot (hroot_le.eq_of_length e).symm
  have hdrop := ConfMode.drop_root_length hlen
  unfold ConfMode.process
  refine (wp_ite _ _ _).mpr ⟨fun h => absurd h hauth, fun _ => ?_⟩
  refine (wp_ite _ _ _).mpr ⟨fun h => ?_, fun _ => ?_⟩
  · rw [show s.uri = [] from List.isEmpty_iff.mp h] at hdrop
    cases hdrop
  refine (wp_ite _ _ _).mpr ⟨fun h => absurd h hlen.le.not_gt, fun _ => ?_⟩
  refine (wp_ite _ _ _).mpr ⟨fun h => ?_, fun _ => ?_⟩
  · change s.method.isEmpty = true at h
    rw [hget] at h
    cases h
  refine (wp_ite _ _ _).mpr ⟨fun h => absurd hlevel h, fun _ => (wp_bind _ _ _).mpr ?_⟩
  unfold ConfMode.lookup
  rw [if_neg (show ¬ s.uri.length ≤ confReqRoot.length by omega)]
  refine (wp_bind _ _ _).mpr (wp_substrFrom hlen.le ((wp_bind _ _ _).mpr (wp_substrFrom hdrop ?_)))
  refine (wp_bind _ _ _).mpr (wp_substrAt _ hdrop ((wp_bind _ _ _).mpr ?_))
  unfold readConfModifyFile
  refine (wp_then _ _ _).mpr ⟨trivial, fun a ha => ?_⟩
  have ha : a = some none := ha
  subst ha
  show wp _ _ _ (ConfMode.handle s s.uri s.method _) _
  unfold ConfMode.handle
  rw [if_pos hget, if_neg hroot]
  exact getNode_never_returns hlen rfl rfl hbad

end

theorem process_safe_iff {s : Session} (hroot_le : confReqRoot <+: s.uri) (entries : List Str) :
    (∀ tr, ¬ Exec (templateWorld entries) (ConfMode.process s) tr .throw) ↔
      (ConfMode.showsNode s = true → ∀ l ∈ valHelpLines entries, ConfMode.endsAtHelp l = false) := by
  constructor
  · intro h hshows l hl
    by_contra hend
    have hbad : ∃ l ∈ valHelpLines entries, ConfMode.endsAtHelp l = true := ⟨l, hl, Bool.not_eq_false _ ▸ hend⟩
    obtain ⟨tr, htr⟩ := exec_throw (nodeWorld_answers entries) (process_never_returns hroot_le hshows hbad)
    exact h tr (htr.mono (nodeWorld_sub entries))
  · intro h tr htr
    have hv : ConfMode.Vouched (templateWorld entries) fun _ _ => True := ⟨fun _ _ => trivial, fun _ _ => trivial⟩
    have hgood : ConfMode.showsNode s = true → ConfMode.BadTemplate (templateWorld entries) → False := by
      intro hshows ⟨path, entries', henv, l, hl, hend⟩
      rcases henv with henv | henv
      · cases henv
      · cases henv
        rw [h hshows l hl] at hend
        cases hend
    exact htr.wp (ConfMode.process_wp hv hgood hroot_le)

/-! ## All three -/

/-- Which values of Authorization and Cookie, which requests and templates, and which
    permission entries throw. -/
theorem no_request_throws_iff (env : (c : Call) → c.Answer → Prop) (val : Str) (s : Session) (entries rules : List Str) :
    ((∀ tr, ¬ Exec env (AuthSession.authorized val s) tr .throw) ↔ endsAtKey val = false) ∧
    (route s = some .conf → ((∀ tr, ¬ Exec (templateWorld entries) (ConfMode.process s) tr .throw) ↔
      (ConfMode.showsNode s = true → ∀ l ∈ valHelpLines entries, ConfMode.endsAtHelp l = false))) ∧
    ((∀ tr, ¬ Exec env (Permissions.mapToJson rules) tr .throw) ↔ ∀ entry ∈ rules, endsAtRule entry = false) := by
  refine ⟨?_, fun hroute => process_safe_iff (route_conf hroute) entries, ?_⟩
  · constructor
    · intro h
      by_contra hend
      rw [authorized_throws (Bool.not_eq_false _ ▸ hend)] at h
      exact h [] (Exec.nil _)
    · exact fun h => never_throws_iff.mpr (authorized_safe h s)
  · constructor
    · intro h entry hentry
      by_contra hend
      rw [mapToJson_throws ⟨entry, hentry, Bool.not_eq_false _ ▸ hend⟩] at h
      exact h [] (Exec.nil _)
    · intro h tr htr
      obtain ⟨objs, hobjs⟩ := mapToJson_returns h
      rw [hobjs] at htr
      cases htr

/-- A key, a node with a line of `val_help` and two rules, all in range. -/
theorem a_key_a_node_and_rules_are_safe :
    (∀ tr, ¬ Exec (fun _ _ => True) (AuthSession.authorized (str "Vyatta-Session 0123456789ABCDEF") Session.new) tr .throw) ∧
    (∀ tr, ¬ Exec (templateWorld [str "val_help=u32:1-9; a number"])
      (ConfMode.process (confSession (str "GET") (str "/rest/conf/0000000000000001/system") (str "vyatta"))) tr .throw) ∧
    ∀ tr, ¬ Exec (fun _ _ => True) (Permissions.mapToJson [str "10: interfaces=15", str "DEFAULT=0"]) tr .throw := by
  have hall := no_request_throws_iff (fun _ _ => True) (str "Vyatta-Session 0123456789ABCDEF")
  obtain ⟨hauth, -, hperm⟩ := hall Session.new [] [str "10: interfaces=15", str "DEFAULT=0"]
  have hconf := (hall (confSession (str "GET") (str "/rest/conf/0000000000000001/system") (str "vyatta"))
    [str "val_help=u32:1-9; a number"] []).2.1
  refine ⟨hauth.mpr (by decide), (hconf (by decide)).mpr fun _ => ?_, hperm.mpr ?_⟩
  · decide
  · decide

/-- A request with a cookie and no other header. -/
def cookieRequest (cookie : Str) : RequestEnv where
  requestUri := some (str "/rest/conf")
  queryString := none
  requestMethod := some (str "GET")
  accept := none
  contentLength := none
  httpAuthorization := none
  httpCookie := some cookie
  vyattaSpecificationVersion := none
  host := none
  httpPragma := none
  stdin := []

theorem a_cookie_ends_the_server :
    Exec (fun _ _ => True) (serve 0 0 0 (cookieRequest (str "lang=en; vyatta2_path_loc"))) [] .throw ∧
    (∃ tr, Exec (templateWorld [str "val_help=txt;"])
      (ConfMode.process (confSession (str "GET") (str "/rest/conf/0000000000000001/system") (str "vyatta"))) tr .throw) ∧
    Exec (fun _ _ => True) (Permissions.mapToJson [str "10:=15"]) [] .throw := by
  have hserve : serve 0 0 0 (cookieRequest (str "lang=en; vyatta2_path_loc")) = Prog.throw := by rfl
  have hperm : Permissions.mapToJson [str "10:=15"] = Prog.throw := mapToJson_throws (by decide)
  have hroot_le : confReqRoot.isPrefixOf
      (confSession (str "GET") (str "/rest/conf/0000000000000001/system") (str "vyatta")).uri = true := by decide
  refine ⟨hserve ▸ Exec.nil _, ?_, hperm ▸ Exec.nil _⟩
  obtain ⟨tr, htr⟩ := exec_throw (nodeWorld_answers [str "val_help=txt;"]) (process_never_returns
    (List.isPrefixOf_iff_prefix.mp hroot_le) (by decide) (by decide))
  exact ⟨tr, htr.mono (nodeWorld_sub _)⟩

end VyattaRest.Server.OutOfRange
