/-
  VyattaRest.Server.Effects — what a response of configuration mode says about what was done
  (`ConfMode::process`, `setup_session`, `discard_session`, confmode.cc; `Rest::execute`,
  common.cc).

  A response without a status is a success. Most of the calls on the way can fail, and several
  of these failures are only logged, or not noticed: a shell command that `popen` cannot start,
  a connection to configd, a set-up, discard or teardown that does not work, a file that is not
  removed.
  - `success_is_effect_iff`: which answers make a response say what happened.
  - `a_success_without_effect`: each request with an answer that goes unnoticed.
-/

import VyattaRest.Server.ConfCalls
import VyattaRest.Server.Access

namespace VyattaRest.Server.Effects

open VyattaRest.Lib VyattaRest.Rest VyattaRest.Lib.Prog VyattaRest.Server.ConfMode
open scoped List

/-! ## What is asked for -/

inductive Kind where
  | create
  | delete
  | commit
  | save
  | discard
  /-- A PUT, and the actions that are commands. -/
  | shell
  deriving DecidableEq

def kindOf (s : Session) : Kind :=
  if s.method = str "DELETE" then .delete
  else if s.method = str "POST" then
    if !hasConfPath s.uri then .create
    else if confPath s.uri = str "commit" then .commit
    else if confPath s.uri = str "save" then .save
    else if confPath s.uri = str "discard" then .discard
    else .shell
  else .shell

/-- The session that a request names. -/
def resolve (s : Session) : Act (Option Str) := do
  match ← lookup s.uri s.method s.user with
  | none => return none
  | some t => if s.method = str "POST" then actionId t else return some t.id

/-- No session has an empty id: a create takes none of fewer than 16 bytes. -/
def world : (c : Call) → c.Answer → Prop
  | .fgets file, a => file = vyattaModifyFile → a = none
  | _, _ => True

/-- The calls that have the effect on a session, with answers that say so. -/
def Done (s : Session) (id : Str) (tr : Trace) : Kind → Prop
  | .create => [⟨.configdSetSessionId (Configuration.convConfId id), ()⟩, ⟨.configdSessSetup, true⟩,
      ⟨.fopenWrite (vyattaModifyFile ++ id), true⟩,
      ⟨.fputs (vyattaModifyFile ++ id) (cstr (s.user ++ str "/" ++ confRest s.uri)), true⟩] <+ tr
  | .delete => [⟨.configdSetSessionId (Configuration.convConfId id), ()⟩, ⟨.configdDiscard, true⟩,
      ⟨.configdSessTeardown, true⟩, ⟨.unlink (vyattaModifyFile ++ id), true⟩] <+ tr
  | .commit => ∃ text, [⟨.configdSetSessionId (Configuration.convConfId id), ()⟩, ⟨.configdCommit, .ok text⟩] <+ tr
  | .save => ∃ text, [⟨.configdSetSessionId (Configuration.convConfId id), ()⟩, ⟨.configdSave, .ok text⟩] <+ tr
  | .discard => [⟨.configdSetSessionId (Configuration.convConfId id), ()⟩, ⟨.configdDiscard, true⟩] <+ tr
  | .shell => ∃ cmd lines, shellCommand s.method s.uri = some cmd ∧
      [⟨.popen (cstr (commandLine id cmd)), some (lines, 0)⟩] <+ tr

/-- The effect that was asked for has been had: on a new session, or on the one that is named. -/
def Effect (s : Session) (tr : Trace) : Prop :=
  if kindOf s = .create then ∃ id, Done s id tr .create
  else ∃ tr₁ tr₂ id, tr = tr₁ ++ tr₂ ∧ Exec world (resolve s) tr₁ (.ret (some id)) ∧ Done s id tr₂ (kindOf s)

/-- A session of configd, or a modify file, that is there and was not taken back. -/
def LeftBehind (tr : Trace) : Prop :=
  ((⟨.configdSessSetup, true⟩ : Sigma Call.Answer) ∈ tr ∧ (⟨.configdSessTeardown, true⟩ : Sigma Call.Answer) ∉ tr) ∨
    ∃ file, (⟨.fopenWrite file, true⟩ : Sigma Call.Answer) ∈ tr ∧ (⟨.unlink file, true⟩ : Sigma Call.Answer) ∉ tr

/-- A status of 4xx or 5xx. -/
def isError (s : Session) : Bool :=
  match (s.response.get .respCode).head? with
  | some b => b = 52 || b = 53
  | none => false

/-- A success has had its effect, and a create that failed has left nothing. -/
def Honest (s : Session) (tr : Trace) (s' : Session) : Prop :=
  (isError s' = false → Effect s tr) ∧ (kindOf s = .create → isError s' = true → ¬ LeftBehind tr)

/-! ## When it holds -/

/-- The failures that the code does not report. -/
def heeded : Sigma Call.Answer → Bool
  | ⟨.popen _, none⟩ => false
  | ⟨.configdOpen, false⟩ => false
  | ⟨.configdDiscard, false⟩ => false
  | ⟨.configdSessTeardown, false⟩ => false
  | ⟨.unlink _, false⟩ => false
  | _ => true

/-- What the answers have to be: nothing goes wrong that is not reported. A create has to get both
    its session and its file, or neither. -/
def Carried (s : Session) (tr : Trace) : Prop :=
  match kindOf s with
  | .create => ((⟨.configdSessSetup, true⟩ : Sigma Call.Answer) ∈ tr ↔
        ∃ file, (⟨.fopenWrite file, true⟩ : Sigma Call.Answer) ∈ tr) ∧
      ∀ file content, (⟨.fputs file content, false⟩ : Sigma Call.Answer) ∉ tr
  | .delete => s.uri ≠ confReqRoot ∧ ∀ x ∈ tr, heeded x = true
  | _ => ∀ x ∈ tr, heeded x = true

/-! ## The session that is named -/

theorem readConfModifyFile_named (id user description : Str) :
    wp world isRead True (readConfModifyFile id user description) fun r => r.1 = true → id ≠ [] := by
  refine (wp_then _ _ _).mpr ⟨trivial, fun a ha => ?_⟩
  have hne : a ≠ none → id ≠ [] := by
    rintro hsome rfl
    exact hsome (ha (List.append_nil _))
  rcases a with _ | _ | buf
  · exact fun h => (nomatch h)
  · exact fun _ => hne (by simp)
  · simp only
    rcases hf : find (str "/") (cstr buf) with _ | pos
    · exact fun h => (nomatch h)
    · have hle := find_le hf
      rw [show (str "/").length = 1 from rfl] at hle
      refine (wp_bind _ _ _).mpr (wp_substrAt _ (Nat.zero_le _) ?_)
      exact (wp_bind _ _ _).mpr (wp_substrFrom hle fun _ => hne (by simp))

theorem findTag_named (tag user : Str) : ∀ names : List Str,
    wp world isRead True (findTag tag user names) fun r => ∀ id, r = some id → id ≠ [] := by
  intro names
  induction names with
  | nil => exact fun _ h => nomatch h
  | cons name names ih =>
    rw [findTag]
    refine (wp_ite _ _ _).mpr ⟨fun _ => ih, fun hlen => ?_⟩
    refine (wp_bind _ _ _).mpr (wp_substrFrom (by omega) ?_)
    refine (wp_bind _ _ _).mpr (wp_mono (readConfModifyFile_named _ [] []) fun r _ => ?_)
    refine (wp_ite _ _ _).mpr ⟨fun _ id h => ?_, fun _ => ih⟩
    cases h
    exact List.ne_nil_of_length_pos (by rw [List.length_drop]; omega)

theorem fromTag_named (tag user : Str) :
    wp world isRead True (readConfModifyFileFromTag tag user) fun r => ∀ id, r = some id → id ≠ [] := by
  refine (wp_then _ _ _).mpr ⟨trivial, fun names _ => ?_⟩
  rcases names with _ | names
  · exact fun _ h => nomatch h
  · exact findTag_named tag user names

/-- What the head of `process` leaves behind for a path under the root. -/
structure Named (t : Target) (path method : Str) : Prop where
  rest : t.confPathWithId = path.drop confReqRoot.length
  id : t.id ≠ [] ∨ method = str "POST" ∧ t.tag = t.id

theorem lookup_named {path : Str} (hlen : confReqRoot.length < path.length) (method user : Str) :
    wp world isRead True (lookup path method user) fun r => ∀ t, r = some t → Named t path method := by
  have hdrop := drop_root_length hlen
  unfold lookup
  rw [if_neg (by omega)]
  refine (wp_bind _ _ _).mpr (wp_substrFrom hlen.le ?_)
  refine (wp_bind _ _ _).mpr (wp_substrFrom hdrop ?_)
  refine (wp_bind _ _ _).mpr (wp_substrAt _ hdrop ?_)
  refine (wp_bind _ _ _).mpr (wp_mono (readConfModifyFile_named _ user []) fun r hr => ?_)
  obtain ⟨found, user', tag⟩ := r
  cases found with
  | true =>
    intro t ht
    cases ht
    exact ⟨rfl, Or.inl (hr rfl)⟩
  | false =>
    refine (wp_ite _ _ _).mpr ⟨fun hpost t ht => ?_, fun _ => ?_⟩
    · cases ht
      exact ⟨rfl, Or.inr ⟨hpost, rfl⟩⟩
    · refine (wp_bind _ _ _).mpr (wp_mono (fromTag_named _ _) fun r hr => ?_)
      rcases r with _ | fId
      · exact fun t ht => nomatch ht
      · intro t ht
        cases ht
        exact ⟨rfl, Or.inl (hr fId rfl)⟩

theorem actionId_named {t : Target} {path : Str} (ht : Named t path (str "POST")) :
    wp world isRead True (actionId t) fun r => ∀ id, r = some id → id ≠ [] := by
  refine (wp_ite _ _ _).mpr ⟨fun _ => fromTag_named _ _, fun hne id h => ?_⟩
  cases h
  exact ht.id.resolve_right fun h => hne h.2

/-! ## Requests that end early -/

def Quiet (tr : Trace) : Prop := ∀ x ∈ tr, isRead x.1

theorem Quiet.append {a b : Trace} (ha : Quiet a) (hb : Quiet b) : Quiet (a ++ b) :=
  fun x hx => (List.mem_append.mp hx).elim (ha x) (hb x)

theorem Quiet.heeded {tr : Trace} (h : Quiet tr) : ∀ x ∈ tr, heeded x = true := by
  intro x hx
  obtain ⟨c, a⟩ := x
  have hc := h _ hx
  cases c <;> first | rfl | cases hc

/-- After reading, a call that does not read is one of the later ones. -/
theorem Quiet.mem_append {a b : Trace} (ha : Quiet a) {x : Sigma Call.Answer} (hx : ¬ isRead x.1) : x ∈ a ++ b ↔ x ∈ b := by
  rw [List.mem_append, or_iff_right fun h => hx (ha x h)]

/-- How a program that is left of a request ends, after the calls it has made. -/
def Meets (s : Session) (made : Trace) (p : Act Session) : Prop :=
  ∀ tr s', Exec world p tr (.ret s') → (Honest s (made ++ tr) s' ↔ Carried s (made ++ tr))

section Rules

variable {s : Session} {made : Trace} {α : Type}

theorem Meets.ret {s' : Session} (h : Honest s made s' ↔ Carried s made) : Meets s made (pure s') := by
  intro tr s'' hr
  obtain ⟨rfl, rfl⟩ := Exec.ret_inv hr
  rwa [List.append_nil]

theorem Meets.ite {c : Prop} [Decidable c] {p q : Act Session} (hp : c → Meets s made p) (hq : ¬ c → Meets s made q) :
    Meets s made (if c then p else q) := by
  split
  · exact hp ‹_›
  · exact hq ‹_›

theorem Meets.reading {p : Act α} {f : α → Act Session} {Q : α → Prop} (hmade : Quiet made) (hp : wp world isRead True p Q)
    (h : ∀ tr a, Exec world p tr (.ret a) → Quiet (made ++ tr) → Q a → Meets s (made ++ tr) (f a)) :
    Meets s made (p >>= f) := by
  intro tr s' hr
  obtain ⟨tr₁, tr₂, a, rfl, hfirst, hrest⟩ := hr.bind_ret_inv
  rw [← List.append_assoc]
  exact h tr₁ a hfirst (hmade.append (hfirst.made hp)) (hfirst.wp hp) tr₂ s' hrest

/-- An error before anything was done. -/
theorem Meets.refused {s' : Session} (hmade : Quiet made) (herror : isError s' = true)
    (hroot : kindOf s = .delete → s.uri ≠ confReqRoot) : Meets s made (pure s') := by
  have hno : ∀ {x : Sigma Call.Answer}, ¬ isRead x.1 → x ∉ made := fun hx h => hx (hmade _ h)
  refine .ret (iff_of_true ⟨fun h => absurd h (by simp [herror]), fun _ _ hleft => ?_⟩ ?_)
  · rcases hleft with ⟨h, -⟩ | ⟨file, h, -⟩
    · exact hno id h
    · exact hno id h
  · unfold Carried
    split
    · exact ⟨iff_of_false (hno id) fun ⟨_, h⟩ => hno id h, fun _ _ => hno id⟩
    · rename_i h
      exact ⟨hroot h, hmade.heeded⟩
    · exact hmade.heeded

end Rules

/-! ## Commands and calls of configd -/

theorem isError_errorMsg (s : Session) (e : ErrorType) (m : Str) : isError (s.errorMsg e m) =
    (match e.response.1.head? with
    | some b => b = 52 || b = 53
    | none => false) := rfl

theorem isError_setResponse {s : Session} {key : Key} (hkey : key ≠ .respCode) (val : Str) :
    isError (s.setResponse key val) = isError s := by
  simp [isError, Session.setResponse, Http.get, Http.set, Ne.symm hkey]

/-- configd has committed or saved. -/
def isReply : Sigma Call.Answer → Bool
  | ⟨.configdCommit, .ok _⟩ | ⟨.configdSave, .ok _⟩ => true
  | _ => false

section Tails

variable {s : Session} {made : Trace} {id : Str}

theorem Effect.of_done (hk : kindOf s ≠ .create) (hid : Exec world (resolve s) made (.ret (some id))) {tr : Trace}
    (h : Done s id tr (kindOf s)) : Effect s (made ++ tr) := by
  rw [Effect, if_neg hk]
  exact ⟨made, tr, id, rfl, hid, h⟩

/-- What the calls of an effect are known by. -/
theorem Effect.mem {tr : Trace} {P : Sigma Call.Answer → Prop} (hk : kindOf s ≠ .create) (h : Effect s tr)
    (hP : ∀ id tr', Done s id tr' (kindOf s) → ∃ x ∈ tr', P x) : ∃ x ∈ tr, P x := by
  rw [Effect, if_neg hk] at h
  obtain ⟨tr₁, tr₂, id, rfl, -, hdone⟩ := h
  obtain ⟨x, hx, hPx⟩ := hP id tr₂ hdone
  exact ⟨x, List.mem_append_right _ hx, hPx⟩

/-- A success, where the effect is what the answers say. -/
theorem Meets.success {s' : Session} {tr : Trace} (hk : kindOf s ≠ .create) (hmade : Quiet made)
    (hroot : kindOf s = .delete → s.uri ≠ confReqRoot) (hs : isError s' = false)
    (hid : Exec world (resolve s) made (.ret (some id))) (hdone : (∀ x ∈ tr, heeded x = true) → Done s id tr (kindOf s))
    (heffect : Effect s (made ++ tr) → ∀ x ∈ tr, heeded x = true) : Honest s (made ++ tr) s' ↔ Carried s (made ++ tr) := by
  have hall : (∀ x ∈ made ++ tr, heeded x = true) ↔ ∀ x ∈ tr, heeded x = true :=
    ⟨fun h x hx => h x (List.mem_append_right _ hx), fun h x hx => (List.mem_append.mp hx).elim (hmade.heeded x) (h x)⟩
  have hcarried : Carried s (made ++ tr) ↔ ∀ x ∈ tr, heeded x = true := by
    unfold Carried
    split
    · rename_i h
      exact absurd h hk
    · rename_i h
      rw [hall, and_iff_right (hroot h)]
    · exact hall
  rw [hcarried]
  constructor
  · exact fun h => heffect (h.1 hs)
  · exact fun h => ⟨fun _ => .of_done hk hid (hdone h), fun _ he => absurd he (by simp [hs])⟩

/-- An error after something was done, and all that failed was reported. -/
theorem Meets.failed {s' : Session} {tr : Trace} (hk : kindOf s ≠ .create) (hmade : Quiet made)
    (hroot : kindOf s = .delete → s.uri ≠ confReqRoot) (hs : isError s' = true) (hall : ∀ x ∈ tr, heeded x = true) :
    Honest s (made ++ tr) s' ↔ Carried s (made ++ tr) := by
  have hall' : ∀ x ∈ made ++ tr, heeded x = true := fun x hx => (List.mem_append.mp hx).elim (hmade.heeded x) (hall x)
  refine iff_of_true ⟨fun h => absurd h (by simp [hs]), fun h => absurd h hk⟩ ?_
  unfold Carried
  split
  · rename_i h
    exact absurd h hk
  · rename_i h
    exact ⟨hroot h, hall'⟩
  · exact hall'

variable (hmade : Quiet made) (hid : Exec world (resolve s) made (.ret (some id)))
include hmade hid

theorem execute_meets {cmd out : Str} (hk : kindOf s = .shell) (hcmd : shellCommand s.method s.uri = some cmd)
    {f : Int × Str → Act Session} {g : Int × Str → Session} (hf : ∀ r, f r = pure (g r))
    (hg : ∀ r, isError (g r) = decide (r.1 ≠ 0)) : Meets s made (execute (commandLine id cmd) out >>= f) := by
  have hk' : kindOf s ≠ .create := by rw [hk]; decide
  have hroot : kindOf s = .delete → s.uri ≠ confReqRoot := fun h => absurd (hk.symm.trans h) (by decide)
  intro tr s' hr
  obtain ⟨a, tr', -, rfl, hrest⟩ := Exec.call_inv hr
  rcases a with _ | ⟨lines, status⟩
  · change Exec world (f (0, out)) tr' (ret s') at hrest
    rw [hf] at hrest
    obtain ⟨rfl, rfl⟩ := Exec.ret_inv hrest
    refine Meets.success hk' hmade hroot (by rw [hg]; rfl) hid (fun h => ?_) fun h => ?_
    · exact absurd (h _ List.mem_cons_self) Bool.false_ne_true
    · -- nothing was run
      obtain ⟨x, hx, lines, file, rfl⟩ :=
        h.mem (P := fun x => ∃ lines cmd, x = ⟨.popen cmd, some (lines, 0)⟩) hk' fun id tr h => by
        rw [hk] at h
        obtain ⟨cmd, lines, -, hsub⟩ := h
        exact ⟨_, hsub.subset List.mem_cons_self, lines, _, rfl⟩
      rw [hmade.mem_append (x := ⟨.popen file, some (lines, 0)⟩) fun h => h] at hx
      simp at hx
  · change Exec world (f (status, _)) tr' (ret s') at hrest
    rw [hf] at hrest
    obtain ⟨rfl, rfl⟩ := Exec.ret_inv hrest
    by_cases hst : status = 0
    · subst hst
      refine Meets.success hk' hmade hroot (by rw [hg]; rfl) hid (fun _ => ?_) fun _ x hx => ?_
      · rw [hk]
        exact ⟨cmd, lines, hcmd, .refl _⟩
      · rw [List.mem_singleton.mp hx]
        rfl
    · refine Meets.failed hk' hmade hroot (by rw [hg]; exact decide_eq_true hst) fun x hx => ?_
      rw [List.mem_singleton.mp hx]
      rfl

theorem discard_meets (hk : kindOf s = .discard) (hne : id ≠ []) (hs : isError s = false) :
    Meets s made (discardSession id false >>= fun _ => pure s) := by
  have hk' : kindOf s ≠ .create := by rw [hk]; decide
  have hroot : kindOf s = .delete → s.uri ≠ confReqRoot := fun h => absurd (hk.symm.trans h) (by decide)
  have heffect : ∀ {tr : Trace}, Effect s (made ++ tr) → (⟨.configdDiscard, true⟩ : Sigma Call.Answer) ∈ tr := by
    intro tr h
    obtain ⟨x, hx, rfl⟩ := h.mem (P := fun x => x = ⟨.configdDiscard, true⟩) hk' fun id tr h => by
      rw [hk] at h
      exact ⟨_, h.subset (List.mem_cons_of_mem _ List.mem_cons_self), rfl⟩
    exact (hmade.mem_append (x := ⟨.configdDiscard, true⟩) fun h => h).mp hx
  intro tr s' hr
  rw [discardSession, if_neg (by simpa using hne)] at hr
  obtain ⟨opened, tr₁, -, rfl, h₁⟩ := Exec.call_inv hr
  cases opened with
  | false =>
    obtain ⟨rfl, rfl⟩ := Exec.ret_inv h₁
    refine Meets.success hk' hmade hroot hs hid (fun h => ?_) fun h => ?_
    · exact absurd (h _ List.mem_cons_self) Bool.false_ne_true
    · exact absurd (heffect h) (by simp)
  | true =>
    obtain ⟨_, tr₂, -, rfl, h₂⟩ := Exec.call_inv h₁
    obtain ⟨done, tr₃, -, rfl, h₃⟩ := Exec.call_inv h₂
    obtain ⟨_, tr₄, -, rfl, h₄⟩ := Exec.call_inv h₃
    obtain ⟨rfl, rfl⟩ := Exec.ret_inv h₄
    refine Meets.success hk' hmade hroot hs hid (fun h => ?_) fun h => ?_
    · have hdone : done = true := by
        have := h ⟨.configdDiscard, done⟩ (by simp)
        cases done with
        | true => rfl
        | false => cases this
      rw [hk, hdone]
      exact .cons _ (.cons_cons _ (.cons_cons _ (List.nil_sublist _)))
    · have hdone : true = done := by simpa using heffect h
      subst hdone
      simp [heeded]

theorem delete_meets (hk : kindOf s = .delete) (hne : id ≠ []) (hroot : s.uri ≠ confReqRoot) {s' : Session}
    (hs : isError s' = false) : Meets s made (discardSession id true >>= fun _ => pure s') := by
  have hk' : kindOf s ≠ .create := by rw [hk]; decide
  have heffect : ∀ {tr : Trace}, Effect s (made ++ tr) → (⟨.configdDiscard, true⟩ : Sigma Call.Answer) ∈ tr ∧
      (⟨.configdSessTeardown, true⟩ : Sigma Call.Answer) ∈ tr ∧ ∃ file, (⟨.unlink file, true⟩ : Sigma Call.Answer) ∈ tr := by
    intro tr h
    refine ⟨?_, ?_, ?_⟩
    · obtain ⟨x, hx, rfl⟩ := h.mem (P := fun x => x = ⟨.configdDiscard, true⟩) hk' fun id tr h => by
        rw [hk] at h
        exact ⟨_, h.subset (by simp), rfl⟩
      exact (hmade.mem_append (x := ⟨.configdDiscard, true⟩) fun h => h).mp hx
    · obtain ⟨x, hx, rfl⟩ := h.mem (P := fun x => x = ⟨.configdSessTeardown, true⟩) hk' fun id tr h => by
        rw [hk] at h
        exact ⟨_, h.subset (by simp), rfl⟩
      exact (hmade.mem_append (x := ⟨.configdSessTeardown, true⟩) fun h => h).mp hx
    · obtain ⟨x, hx, file, rfl⟩ := h.mem (P := fun x => ∃ file, x = ⟨.unlink file, true⟩) hk' fun id tr h => by
        rw [hk] at h
        exact ⟨_, h.subset (List.mem_cons_of_mem _ (List.mem_cons_of_mem _ (List.mem_cons_of_mem _ List.mem_cons_self))), _, rfl⟩
      exact ⟨file, (hmade.mem_append (x := ⟨.unlink file, true⟩) fun h => h).mp hx⟩
  intro tr s'' hr
  rw [discardSession, if_neg (by simpa using hne)] at hr
  obtain ⟨opened, tr₁, -, rfl, h₁⟩ := Exec.call_inv hr
  cases opened with
  | false =>
    obtain ⟨rfl, rfl⟩ := Exec.ret_inv h₁
    refine Meets.success hk' hmade (fun _ => hroot) hs hid (fun h => ?_) fun h => ?_
    · exact absurd (h _ List.mem_cons_self) Bool.false_ne_true
    · exact absurd (heffect h).1 (by simp)
  | true =>
    obtain ⟨_, tr₂, -, rfl, h₂⟩ := Exec.call_inv h₁
    obtain ⟨discarded, tr₃, -, rfl, h₃⟩ := Exec.call_inv h₂
    obtain ⟨down, tr₄, -, rfl, h₄⟩ := Exec.call_inv h₃
    obtain ⟨_, tr₅, -, rfl, h₅⟩ := Exec.call_inv h₄
    obtain ⟨removed, tr₆, -, rfl, h₆⟩ := Exec.call_inv h₅
    obtain ⟨rfl, rfl⟩ := Exec.ret_inv h₆
    refine Meets.success hk' hmade (fun _ => hroot) hs hid (fun h => ?_) fun h => ?_
    · obtain ⟨rfl, rfl, rfl⟩ : discarded = true ∧ down = true ∧ removed = true := by
        have h₁ := h ⟨.configdDiscard, discarded⟩ (by simp)
        have h₂ := h ⟨.configdSessTeardown, down⟩ (by simp)
        have h₃ := h ⟨.unlink (vyattaModifyFile ++ id), removed⟩ (by simp)
        revert h₁ h₂ h₃
        cases discarded <;> cases down <;> cases removed <;> simp [heeded]
      rw [hk]
      exact .cons _ (.cons_cons _ (.cons_cons _ (.cons_cons _ (.cons _ (.refl _)))))
    · obtain ⟨h₁, h₂, file, h₃⟩ := heffect h
      obtain rfl : true = discarded := by simpa using h₁
      obtain rfl : true = down := by simpa using h₂
      obtain ⟨-, rfl⟩ : file = vyattaModifyFile ++ id ∧ true = removed := by simpa using h₃
      simp [heeded]

theorem commitOrSave_meets {act : Str} (hk : (act = str "commit" ∧ kindOf s = .commit) ∨ (act = str "save" ∧ kindOf s = .save))
    (hs : isError s = false) : Meets s made (commitOrSave s (Configuration.convConfId id) act) := by
  have hk' : kindOf s ≠ .create := by rcases hk with ⟨-, hk⟩ | ⟨-, hk⟩ <;> (rw [hk]; decide)
  have hroot : kindOf s = .delete → s.uri ≠ confReqRoot := by
    rcases hk with ⟨-, hk⟩ | ⟨-, hk⟩ <;> exact fun h => absurd (hk.symm.trans h) (by decide)
  have heffect : ∀ {tr : Trace}, Effect s (made ++ tr) → ∃ x ∈ tr, isReply x = true := by
    intro tr h
    obtain ⟨x, hx, hreply⟩ := h.mem (P := fun x => isReply x = true) hk' fun id tr h => by
      rcases hk with ⟨-, hk⟩ | ⟨-, hk⟩ <;> rw [hk] at h <;> obtain ⟨text, hsub⟩ := h <;>
        exact ⟨_, hsub.subset (List.mem_cons_of_mem _ List.mem_cons_self), rfl⟩
    refine ⟨x, (hmade.mem_append fun h => ?_).mp hx, hreply⟩
    obtain ⟨c, a⟩ := x
    cases c <;> first | exact False.elim h | cases hreply
  intro tr s' hr
  obtain ⟨opened, tr₁, -, rfl, h₁⟩ := Exec.call_inv hr
  cases opened with
  | false =>
    obtain ⟨rfl, rfl⟩ := Exec.ret_inv h₁
    refine Meets.success hk' hmade hroot hs hid (fun h => ?_) fun h => ?_
    · exact absurd (h _ List.mem_cons_self) Bool.false_ne_true
    · obtain ⟨x, hx, hreply⟩ := heffect h
      rw [List.mem_singleton.mp hx] at hreply
      cases hreply
  | true =>
    obtain ⟨_, tr₂, -, rfl, h₂⟩ := Exec.call_inv h₁
    rcases hk with ⟨rfl, hk⟩ | ⟨rfl, hk⟩ <;> (
      obtain ⟨reply, tr₃, -, rfl, h₃⟩ := Exec.call_inv h₂
      cases reply with
      | ok text =>
        obtain ⟨_, tr₄, -, rfl, h₄⟩ := Exec.call_inv h₃
        obtain ⟨rfl, rfl⟩ := Exec.ret_inv h₄
        refine Meets.success hk' hmade hroot ((isError_setResponse (by decide) _).trans hs) hid (fun _ => ?_) fun _ => ?_
        · rw [hk]
          exact ⟨text, .cons _ (.cons_cons _ (.cons_cons _ (List.nil_sublist _)))⟩
        · simp [heeded]
      | error text =>
        obtain ⟨_, tr₄, -, rfl, h₄⟩ := Exec.call_inv h₃
        obtain ⟨rfl, rfl⟩ := Exec.ret_inv h₄
        refine Meets.failed hk' hmade hroot ((isError_setResponse (by decide) _).trans rfl) ?_
        simp [heeded])

end Tails

/-! ## A create -/

/-- The set-up of a session, as a run leaves it. -/
theorem setupSession_runs {sid : Str} {tr : Trace} {ok : Bool} (h : Exec world (setupSession sid) tr (.ret ok)) :
    (tr = [⟨.configdOpen, false⟩] ∧ ok = false) ∨
      tr = [⟨.configdOpen, true⟩, ⟨.configdSetSessionId sid, ()⟩, ⟨.configdSessSetup, ok⟩, ⟨.configdClose, ()⟩] := by
  obtain ⟨opened, tr₁, -, rfl, h₁⟩ := Exec.call_inv h
  cases opened with
  | false =>
    obtain ⟨rfl, rfl⟩ := Exec.ret_inv h₁
    exact Or.inl ⟨rfl, rfl⟩
  | true =>
    obtain ⟨_, tr₂, -, rfl, h₂⟩ := Exec.call_inv h₁
    obtain ⟨result, tr₃, -, rfl, h₃⟩ := Exec.call_inv h₂
    obtain ⟨_, tr₄, -, rfl, h₄⟩ := Exec.call_inv h₃
    obtain ⟨rfl, rfl⟩ := Exec.ret_inv h₄
    exact Or.inr rfl

theorem createConfModifyFile_runs {id user description : Str} {tr : Trace} {ok : Bool}
    (h : Exec world (createConfModifyFile id user description) tr (.ret ok)) :
    (tr = [⟨.fopenWrite (vyattaModifyFile ++ id), false⟩] ∧ ok = false) ∨
      tr = [⟨.fopenWrite (vyattaModifyFile ++ id), true⟩,
        ⟨.fputs (vyattaModifyFile ++ id) (cstr (user ++ str "/" ++ description)), ok⟩] := by
  obtain ⟨opened, tr₁, -, rfl, h₁⟩ := Exec.call_inv h
  cases opened with
  | false =>
    obtain ⟨rfl, rfl⟩ := Exec.ret_inv h₁
    exact Or.inl ⟨rfl, rfl⟩
  | true =>
    obtain ⟨written, tr₂, -, rfl, h₂⟩ := Exec.call_inv h₁
    obtain ⟨rfl, rfl⟩ := Exec.ret_inv h₂
    exact Or.inr rfl

theorem knownDescription_reading (description user : Str) :
    wp world isRead True (knownDescription description user) fun _ => True :=
  (wp_ite _ _ _).mpr ⟨fun _ => trivial, fun _ => wp_mono (fromTag_named _ _) fun _ _ => trivial⟩

section Create

variable {s : Session} {made : Trace} (hk : kindOf s = .create)
include hk

/-- What a response to a create is worth, by the three things that happened. -/
theorem create_verdict {s' : Session} {tr : Trace} (setup opened written : Bool)
    (hsetup : (⟨.configdSessSetup, true⟩ : Sigma Call.Answer) ∈ tr ↔ setup = true)
    (hopened : (∃ file, (⟨.fopenWrite file, true⟩ : Sigma Call.Answer) ∈ tr) ↔ opened = true)
    (hfailed : (∃ file content, (⟨.fputs file content, false⟩ : Sigma Call.Answer) ∈ tr) ↔ opened = true ∧ written = false)
    (hdown : (⟨.configdSessTeardown, true⟩ : Sigma Call.Answer) ∉ tr)
    (hunlink : ∀ file, (⟨.unlink file, true⟩ : Sigma Call.Answer) ∉ tr) (herror : isError s' = !(opened && written))
    (hdone : setup = true → opened = true → written = true → ∃ id, Done s id tr .create) :
    Honest s tr s' ↔ Carried s tr := by
  have hcarried : Carried s tr ↔ (setup = true ↔ opened = true) ∧ ¬ (opened = true ∧ written = false) := by
    unfold Carried
    rw [hk, ← hfailed, ← hsetup, ← hopened]
    simp only [not_exists]
  have hleft : LeftBehind tr ↔ setup = true ∨ opened = true := by
    rw [LeftBehind, and_iff_left hdown, hsetup, ← hopened]
    exact or_congr_right (exists_congr fun file => and_iff_left (hunlink file))
  have heffect : Effect s tr → setup = true := by
    rw [Effect, if_pos hk]
    rintro ⟨id, h⟩
    exact hsetup.mp (h.subset (List.mem_cons_of_mem _ List.mem_cons_self))
  rw [hcarried, Honest, hleft, herror]
  cases opened with
  | false => cases setup <;> simp [hk]
  | true =>
    cases written with
    | false => simp [hk]
    | true =>
      cases setup with
      | false => simpa using heffect
      | true =>
        have heff : Effect s tr := by
          rw [Effect, if_pos hk]
          exact hdone rfl rfl rfl
        simpa using heff

theorem create_meets {t : Target} (hmade : Quiet made) (hdesc : newDescription t.confPathWithId = pure (confRest s.uri)) :
    Meets s made (create s t) := by
  have hroot : kindOf s = .delete → s.uri ≠ confReqRoot := fun h => absurd (hk.symm.trans h) (by decide)
  unfold create
  rw [hdesc]
  show Meets s made (knownDescription (confRest s.uri) t.user >>= _)
  refine .reading hmade (knownDescription_reading _ _) fun tr known _ hmade _ => .ite (fun _ => ?_) fun _ => ?_
  · exact .refused hmade rfl hroot
  generalize made ++ tr = made at hmade ⊢
  intro tr s' hr
  have hno : ∀ {x : Sigma Call.Answer}, ¬ isRead x.1 → x ∉ made := fun hx h => hx (hmade _ h)
  have hno₁ : (⟨.configdSessSetup, true⟩ : Sigma Call.Answer) ∉ made := hno id
  have hno₂ : ∀ file, (⟨.fopenWrite file, true⟩ : Sigma Call.Answer) ∉ made := fun _ => hno id
  have hno₃ : ∀ file content, (⟨.fputs file content, false⟩ : Sigma Call.Answer) ∉ made := fun _ _ => hno id
  have hno₄ : (⟨.configdSessTeardown, true⟩ : Sigma Call.Answer) ∉ made := hno id
  have hno₅ : ∀ file, (⟨.unlink file, true⟩ : Sigma Call.Answer) ∉ made := fun _ => hno id
  obtain ⟨id, tr₁, -, rfl, h₁⟩ := Exec.call_inv hr
  change Exec world (if id.length < 16 then pure (s.error .validationFailure) else _) tr₁ (ret s') at h₁
  split at h₁
  · obtain ⟨rfl, rfl⟩ := Exec.ret_inv h₁
    refine create_verdict hk false false false ?_ ?_ ?_ ?_ ?_ rfl (fun h => nomatch h)
    all_goals simp [*]
  · obtain ⟨tr₂, tr₃, ok, rfl, hsetup, h₂⟩ := h₁.bind_ret_inv
    obtain ⟨tr₄, tr₅, written, rfl, hfile, h₃⟩ := h₂.bind_ret_inv
    obtain ⟨rfl, herror⟩ : tr₅ = [] ∧ isError s' = !written := by
      cases written with
      | false =>
        obtain ⟨rfl, rfl⟩ := Exec.ret_inv h₃
        exact ⟨rfl, rfl⟩
      | true =>
        obtain ⟨rfl, rfl⟩ := Exec.ret_inv h₃
        exact ⟨rfl, rfl⟩
    rcases setupSession_runs hsetup with ⟨rfl, rfl⟩ | rfl <;>
      rcases createConfModifyFile_runs hfile with ⟨rfl, rfl⟩ | rfl
    · refine create_verdict hk false false false ?_ ?_ ?_ ?_ ?_ herror (fun h => nomatch h)
      all_goals simp [*]
    · refine create_verdict hk false true written ?_ ?_ ?_ ?_ ?_ herror (fun h => nomatch h)
      all_goals simp [*]
    · refine create_verdict hk ok false false ?_ ?_ ?_ ?_ ?_ herror (fun _ h => nomatch h)
      all_goals simp [*, eq_comm]
    · refine create_verdict hk ok true written ?_ ?_ ?_ ?_ ?_ herror fun hok _ hwritten => ⟨id, ?_⟩
      · simp [*, eq_comm]
      · simp [*]
      · simp [*, eq_comm]
      · simp [*]
      · simp [*]
      · subst hok hwritten
        refine List.Sublist.trans ?_ (List.sublist_append_right _ _)
        exact .cons _ (.cons _ (.cons_cons _ (.cons_cons _ (.cons _ (.refl _)))))

end Create

/-! ## The mode -/

section Process

variable {s : Session} (hs : isError s = false)
include hs

theorem isError_putReply (r : Int × Str) : isError (putReply s r) = decide (r.1 ≠ 0) := by
  unfold putReply
  split
  · rename_i h
    rw [isError_errorMsg, decide_eq_true h]
    rfl
  · rename_i h
    rw [hs, decide_eq_false h]

variable (hlen : confReqRoot.length < s.uri.length) {t : Target} {made : Trace} (hmade : Quiet made)
  (hlookup : Exec world (lookup s.uri s.method s.user) made (.ret (some t))) (ht : Named t s.uri s.method)
include hlen hmade hlookup ht

omit hs hlen hmade ht in
/-- A method other than POST works on the session that was looked up. -/
theorem resolve_other (hpost : s.method ≠ str "POST") : Exec world (resolve s) made (.ret (some t.id)) := by
  have h : Exec world (resolve s) (made ++ []) (.ret (some t.id)) := by
    unfold resolve
    refine Exec.bind hlookup ?_
    simp only [if_neg hpost]
    exact Exec.nil _
  rwa [List.append_nil] at h

omit hs hlen hmade ht in
theorem resolve_post {tr : Trace} {id : Str} (hpost : s.method = str "POST") (h : Exec world (actionId t) tr (.ret (some id))) :
    Exec world (resolve s) (made ++ tr) (.ret (some id)) := by
  unfold resolve
  refine Exec.bind hlookup ?_
  simp only [if_pos hpost]
  exact h

theorem put_meets (hmethod : s.method = str "PUT") : Meets s made (put s t) := by
  have hk : kindOf s = .shell := by
    rw [kindOf, hmethod]
    rfl
  rcases put_cases hlen ht.rest hmethod with ⟨e, he, heq⟩ | ⟨-, cmd, hcmd, heq⟩
  · rw [heq]
    refine .refused hmade ?_ fun h => absurd (hk.symm.trans h) (by decide)
    simp only [List.mem_cons, List.not_mem_nil, or_false] at he
    rcases he with rfl | rfl | rfl <;> rfl
  · rw [heq]
    have hid := resolve_other hlookup (by rw [hmethod]; decide)
    exact execute_meets hmade hid hk hcmd (fun _ => rfl) (isError_putReply hs)

omit hlen in
theorem deleting_meets (hmethod : s.method = str "DELETE") (hroot : s.uri ≠ confReqRoot) : Meets s made (delete s t) := by
  have hk : kindOf s = .delete := by
    rw [kindOf, hmethod]
    rfl
  have hid := resolve_other hlookup (by rw [hmethod]; decide)
  have hne : t.id ≠ [] := ht.id.resolve_right fun h => absurd (hmethod.symm.trans h.1) (by decide)
  refine .ite (fun _ => .refused hmade rfl fun _ => hroot) fun _ => ?_
  exact delete_meets hmade hid hk hne hroot ((isError_setResponse (by decide) _).trans hs)

theorem action_meets (hmethod : s.method = str "POST") (hslash : hasConfPath s.uri = true) : Meets s made (action s t) := by
  have hkind : kindOf s = if confPath s.uri = str "commit" then .commit
      else if confPath s.uri = str "save" then .save else if confPath s.uri = str "discard" then .discard else .shell := by
    rw [kindOf, hmethod, if_neg (by decide), if_pos rfl, hslash]
    rfl
  have hroot : kindOf s = .delete → s.uri ≠ confReqRoot := fun _ e => by
    rw [e] at hlen
    exact absurd hlen (lt_irrefl _)
  unfold action
  refine .reading hmade (actionId_named (hmethod ▸ ht)) fun tr r hr hmade hne => ?_
  rcases r with _ | id
  · exact .refused hmade rfl hroot
  have hid := resolve_post hlookup hmethod hr
  have hne : id ≠ [] := hne id rfl
  refine .ite (fun _ => .refused hmade rfl hroot) fun _ => ?_
  rw [ht.rest, pathAfterId_eq hlen, ret_bind]
  refine .ite (fun hact => ?_) fun hact => .ite (fun hdiscard => ?_) fun hdiscard => ?_
  · refine commitOrSave_meets hmade hid (hact.imp (fun h => ⟨h, ?_⟩) fun h => ⟨h, ?_⟩) hs
    · rw [hkind, if_pos h]
    · rw [hkind, h]
      rfl
  · refine discard_meets hmade hid ?_ hne hs
    rw [hkind, hdiscard]
    rfl
  · obtain ⟨hcommit, hsave⟩ := not_or.mp hact
    have hk : kindOf s = .shell := by rw [hkind, if_neg hcommit, if_neg hsave, if_neg hdiscard]
    rcases ha : ShellAction.find? (confPath s.uri) with _ | a
    · exact .refused hmade rfl hroot
    have hcmd : shellCommand s.method s.uri = some (a.text (confPath s.uri)) := by
      rw [shellCommand, if_neg (by rw [hmethod]; decide), if_pos hmethod, ha]
      rfl
    simp only
    rw [a.command_eq, ret_bind]
    refine execute_meets hmade hid hk hcmd (fun _ => rfl) fun r => ?_
    rw [isError_setResponse (by decide)]
    split
    · rename_i h
      rw [decide_eq_true h]
      rfl
    · rename_i h
      rw [hs, decide_eq_false h]

theorem post_meets (hmethod : s.method = str "POST") : Meets s made (post s t) := by
  have hdrop := drop_root_length hlen
  have hne : t.confPathWithId ≠ [] := by
    rw [ht.rest]
    exact List.ne_nil_of_length_pos hdrop
  unfold post
  rw [if_neg hne, ht.rest, substrFrom_of_le hdrop, ret_bind, drop_root_rest]
  refine .ite (fun hnone => ?_) fun hsome => ?_
  · have hslash : hasConfPath s.uri = false := by
      rw [hasConfPath, contains, Option.isNone_iff_eq_none.mp hnone]
      rfl
    refine create_meets ?_ hmade ?_
    · rw [kindOf, hmethod, if_neg (by decide), if_pos rfl, hslash]
      rfl
    · rw [newDescription, if_neg hne, ht.rest, substrFrom_of_le hdrop, drop_root_rest]
  · refine action_meets hs hlen hmade hlookup ht hmethod ?_
    rw [hasConfPath, contains]
    exact Option.isSome_iff_ne_none.mpr (by simpa using hsome)

end Process

theorem kindOf_delete {s : Session} (h : kindOf s = .delete) : s.method = str "DELETE" := by
  unfold kindOf at h
  split at h
  · assumption
  · repeat' split at h
    all_goals cases h

/-- A request to the root names no session: a DELETE does nothing there, and says nothing. -/
theorem handle_root_meets {s : Session} (hs : isError s = false) (hget : s.method ≠ str "GET") (hroot : s.uri = confReqRoot) :
    Meets s [] (handle s s.uri s.method ⟨[], [], [], s.user⟩) := by
  have hnil : Quiet [] := fun x hx => nomatch hx
  unfold handle
  rw [if_neg hget]
  refine .ite (fun hput => ?_) fun _ => .ite (fun hdelete => ?_) fun hdelete => ?_
  · have hk : kindOf s ≠ .delete := fun h => absurd (hput.symm.trans (kindOf_delete h)) (by decide)
    refine .ite (fun h => absurd rfl h) fun _ => ?_
    exact .ite (fun _ => .refused hnil rfl fun h => absurd h hk) fun h => absurd rfl h
  · have hk : kindOf s = .delete := by
      rw [kindOf, hdelete]
      rfl
    refine .ite (fun h => absurd rfl h) fun _ => .ret (iff_of_false (fun h => ?_) fun h => ?_)
    · have heffect := h.1 ((isError_setResponse (by decide) _).trans hs)
      obtain ⟨x, hx, -⟩ := heffect.mem (P := fun _ => True) (by rw [hk]; decide) fun id tr h => by
        rw [hk] at h
        exact ⟨_, h.subset List.mem_cons_self, trivial⟩
      cases hx
    · rw [Carried, hk] at h
      exact h.1 hroot
  · refine .ite (fun hpost => ?_) fun _ => .refused hnil rfl fun h => absurd (kindOf_delete h) hdelete
    unfold post
    rw [if_pos rfl]
    refine create_meets ?_ hnil ?_
    · rw [kindOf, hpost, if_neg (by decide), if_pos rfl, hroot]
      rfl
    · rw [hroot]
      rfl

/-- In the mode, a request that is let in. -/
theorem process_meets {s : Session} (hs : isError s = false) (hin : admitted s = true) (hget : s.method ≠ str "GET")
    (hroot_le : confReqRoot <+: s.uri) : Meets s [] (process s) := by
  have hnil : Quiet [] := fun x hx => nomatch hx
  obtain ⟨hauth, hlevel⟩ : s.authType ≠ .none ∧ s.accessLevel = .vyattaCfg := by simpa [admitted] using hin
  have hempty : s.uri.isEmpty = false := by
    obtain ⟨r, hr⟩ := hroot_le
    rw [← hr]
    rfl
  unfold process
  rw [if_neg hauth]
  refine .ite (fun h => absurd h (by simp [hempty])) fun _ => ?_
  refine .ite (fun h => absurd h hroot_le.length_le.not_gt) fun _ => ?_
  refine .ite (fun hm => .refused hnil rfl fun hk => ?_) fun _ => ?_
  · have hdelete := kindOf_delete hk
    rw [show s.request.get .reqMethod = str "DELETE" from hdelete] at hm
    cases hm
  rw [if_neg (not_not.mpr hlevel)]
  show Meets s [] (lookup s.uri s.method s.user >>= _)
  rcases hroot_le.length_le.lt_or_eq with hlen | hlen
  · have hroot : s.uri ≠ confReqRoot := fun e => by rw [e] at hlen; exact absurd hlen (lt_irrefl _)
    refine .reading hnil (lookup_named hlen s.method s.user) fun tr r hr hmade hnamed => ?_
    rw [List.nil_append] at hmade ⊢
    rcases r with _ | t
    · exact .refused hmade rfl fun _ => hroot
    have ht := hnamed t rfl
    show Meets s tr (handle s s.uri s.method t)
    unfold handle
    rw [if_neg hget]
    refine .ite (fun hput => put_meets hs hlen hmade hr ht hput) fun _ => ?_
    refine .ite (fun hdelete => deleting_meets hs hmade hr ht hdelete hroot) fun _ => ?_
    exact .ite (fun hpost => post_meets hs hlen hmade hr ht hpost) fun _ => .refused hmade rfl fun _ => hroot
  · have hroot : s.uri = confReqRoot := (hroot_le.eq_of_length hlen).symm
    have hlookup : lookup s.uri s.method s.user = pure (some ⟨[], [], [], s.user⟩) := by
      rw [lookup, if_pos hlen.ge]
    rw [hlookup, ret_bind]
    exact handle_root_meets hs hget hroot

/-- For a PUT, a DELETE or a POST of a configuration user, and any answers: the response says what
    happened, and a failed create leaves nothing, exactly if nothing fails that goes unnoticed, a
    DELETE names a session, and a create gets its session and its file or neither. -/
theorem success_is_effect_iff {s s' : Session} (hs : isError s = false) (hin : admitted s = true)
    (hget : s.method ≠ str "GET") (hroute : route s = some .conf) {tr : Trace}
    (h : Exec world (process s) tr (.ret s')) : Honest s tr s' ↔ Carried s tr :=
  process_meets hs hin hget (route_conf hroute) tr s' h

/-! ## Requests of vyatta -/

def vyattaSession : Str := str "0123456789ABCDEF"

def ask (method text : Str) : Session := confSession method (str "/rest/conf" ++ text) (str "vyatta")

def readFile : Sigma Call.Answer := ⟨.fgets (vyattaModifyFile ++ vyattaSession), some (some (str "vyatta/"))⟩

theorem readFile_world : world readFile.1 readFile.2 := fun h => absurd h (by decide)

def chosen : Sigma Call.Answer := ⟨.configdSetSessionId (Configuration.convConfId vyattaSession), ()⟩

def putRequest : Session := ask (str "PUT") (str "/0123456789ABCDEF/set/system")

def putCall (a : Option (List Str × Int)) : Sigma Call.Answer :=
  ⟨.popen (cstr (commandLine vyattaSession ((putCommand (str "set/system")).getD []))), a⟩

def commitRequest : Session := ask (str "POST") (str "/0123456789ABCDEF/commit")

def deleteRequest : Session := ask (str "DELETE") (str "/0123456789ABCDEF")

def createRequest : Session := ask (str "POST") []

/-- A create whose session is set up or not, and whose file cannot be opened or is written. -/
def createCalls (setup opened : Bool) : Trace :=
  [⟨.generateToken, vyattaSession⟩, ⟨.configdOpen, true⟩, chosen, ⟨.configdSessSetup, setup⟩, ⟨.configdClose, ()⟩,
    ⟨.fopenWrite (vyattaModifyFile ++ vyattaSession), opened⟩] ++
  if opened then [⟨.fputs (vyattaModifyFile ++ vyattaSession) (str "vyatta/"), true⟩] else []

theorem createRequest_kind : kindOf createRequest = .create := by decide

theorem createCalls_world (setup opened : Bool) : ∀ x ∈ createCalls setup opened, world x.1 x.2 := by
  intro x hx
  obtain ⟨c, a⟩ := x
  cases c with
  | fgets file => cases opened <;> simp [createCalls, chosen] at hx
  | _ => trivial

def deleteCalls : Trace :=
  [readFile, ⟨.configdOpen, true⟩, chosen, ⟨.configdDiscard, true⟩, ⟨.configdSessTeardown, true⟩, ⟨.configdClose, ()⟩,
    ⟨.unlink (vyattaModifyFile ++ vyattaSession), true⟩]

theorem a_delete_is_done : ∃ s', Exec world (process deleteRequest) deleteCalls (.ret s') ∧ isError s' = false ∧
    Honest deleteRequest deleteCalls s' := by
  have hrun : (((process deleteRequest).replay deleteCalls).bind result?).any (fun s' => !isError s') = true := by decide
  have hworld : ∀ x ∈ deleteCalls, world x.1 x.2 := by
    simp only [deleteCalls, List.forall_mem_cons]
    exact ⟨readFile_world, trivial, trivial, trivial, trivial, trivial, trivial, fun _ h => nomatch h⟩
  obtain ⟨s', hexec, hs'⟩ := exec_ret_of_replay hworld hrun
  refine ⟨s', hexec, by simpa using hs', ?_⟩
  refine (success_is_effect_iff rfl rfl (by decide) (by decide) hexec).mpr ?_
  refine ⟨by decide, ?_⟩
  simp [deleteCalls, readFile, chosen, heeded]

/-- A success that the answers do not bear out. -/
theorem unnoticed {s : Session} {tr : Trace} (hs : isError s = false) (hin : admitted s = true) (hget : s.method ≠ str "GET")
    (hroot_le : confReqRoot <+: s.uri) (hworld : ∀ x ∈ tr, world x.1 x.2)
    (hrun : (((process s).replay tr).bind result?).any (fun s' => !isError s') = true) (h : ¬ Carried s tr) :
    ∃ s', Exec world (process s) tr (.ret s') ∧ isError s' = false ∧ ¬ Honest s tr s' := by
  obtain ⟨s', hexec, hs'⟩ := exec_ret_of_replay hworld hrun
  exact ⟨s', hexec, by simpa using hs', fun hh => h ((process_meets hs hin hget hroot_le tr s' hexec).mp hh)⟩

/-- A PUT that `popen` does not start, a commit without configd and a create without a session
    are successes; a create without a file is an error and leaves its session. -/
theorem a_success_without_effect :
    (∃ s', Exec world (process putRequest) [readFile, putCall none] (.ret s') ∧ isError s' = false ∧
      ¬ Honest putRequest [readFile, putCall none] s') ∧
    (∃ s', Exec world (process commitRequest) [readFile, ⟨.configdOpen, false⟩] (.ret s') ∧ isError s' = false ∧
      ¬ Honest commitRequest [readFile, ⟨.configdOpen, false⟩] s') ∧
    (∃ s', Exec world (process createRequest) (createCalls false true) (.ret s') ∧ isError s' = false ∧
      ¬ Honest createRequest (createCalls false true) s') ∧
    ∃ s', Exec world (process createRequest) (createCalls true false) (.ret s') ∧ isError s' = true ∧
      ¬ Honest createRequest (createCalls true false) s' := by
  refine ⟨?_, ?_, ?_, ?_⟩
  · refine unnoticed rfl rfl (by decide) ⟨_, rfl⟩ ?_ (by decide +kernel) fun h => ?_
    · simp only [List.forall_mem_cons]
      exact ⟨readFile_world, trivial, fun _ h => nomatch h⟩
    · have := h (putCall none) (by simp)
      cases this
  · refine unnoticed rfl rfl (by decide) ⟨_, rfl⟩ ?_ (by decide) fun h => ?_
    · simp only [List.forall_mem_cons]
      exact ⟨readFile_world, trivial, fun _ h => nomatch h⟩
    · have := h ⟨.configdOpen, false⟩ (by simp)
      cases this
  · refine unnoticed rfl rfl (by decide) ⟨_, rfl⟩ (createCalls_world false true) (by decide) fun h => ?_
    rw [Carried, createRequest_kind] at h
    have hsetup := h.1.mpr ⟨vyattaModifyFile ++ vyattaSession, by simp [createCalls]⟩
    simp [createCalls, chosen] at hsetup
  · have hrun : (((process createRequest).replay (createCalls true false)).bind result?).any isError = true := by decide
    obtain ⟨s', hexec, hs'⟩ := exec_ret_of_replay (createCalls_world true false) hrun
    refine ⟨s', hexec, hs', fun h => h.2 createRequest_kind hs' (Or.inl ⟨?_, ?_⟩)⟩
    · simp [createCalls]
    · simp [createCalls, chosen]

end VyattaRest.Server.Effects
