/-
  VyattaRest.Server.SessionFile — what a session check leaves of the session file
  (`AuthSession::authorized` and `Lock`, authsession.cc).

  The check copies the file line by line into a temporary one, and the destructor of the lock
  puts that in place of the file, whatever was copied. The loop drops expired records, writes
  the matching ones anew and the others as they are; an account that is not found leaves the
  function from inside it.
  - `refresh_is_exact`: without failures the file is the old one less the expired records, and
    the matching ones have the new time.
  - `a_record_with_a_nul_is_dropped`: which is not so for a record with a NUL in it.
  - `failed_check_keeps_iff`: a check that fails loses no session exactly when no account was
    missing.
  - `a_missing_account_loses_sessions`: the account of the first of two records.
-/

import VyattaRest.SessionKey

namespace VyattaRest.Server.AuthSession

open VyattaRest.Lib VyattaRest.Lib.Prog VyattaRest.Rest VyattaRest.SessionKey

/-! ## The file -/

/-- A byte with a meaning in the file. -/
def isSeparator (b : UInt8) : Bool := b = 44 || b = 9 || b = 10 || b = 126

/-- A record as a line of the session file. -/
structure Entry where
  key : Str
  user : Str
  time : Nat
  address : Str
  level : Str
  key_ne : key ≠ []
  user_ne : user ≠ []
  address_ne : address ≠ []
  separators : ∀ f ∈ [key, user, address, level], ∀ b ∈ f, isSeparator b = false
  time_lt : time < 2 ^ 62
  short : (recordText key user time address level).length < 1000

def Entry.text (e : Entry) : Str := recordText e.key e.user e.time e.address e.level

def entriesText (es : List Entry) : Str := (es.map Entry.text).flatten

def Entry.live (e : Entry) (now : Nat) : Bool := now < e.time + sessionTimeout

/-- The line written for a record that has not expired: with the time `time` if it has the key. -/
def Entry.refreshed (e : Entry) (key : Str) (time : Nat → Nat) : Str :=
  if e.key = key then recordText e.key e.user (time e.time) e.address e.level else e.text

/-- The time that is written: the old one if the pragma says so. -/
def newTime (s : Session) (now time : Nat) : Nat :=
  if contains (s.request.get .reqPragma) pragmaNoVyattaSessionUpdate then time else now

/-- The key that a header or cookie shows, as the server cuts it out. -/
def Presents (val key : Str) : Prop :=
  17 ≤ val.length ∧ key.length = 16 ∧ ∃ k a, keyAfter val authVyattaPathLoc = pure k ∧
    keyAfter val authVyattaSession = pure a ∧ (if a.isEmpty then k else a) = key

/-! ## The world -/

/-- The session file, its copy, and whether an account was missing or an id refused. -/
structure Store where
  file : Str
  tmp : Str
  missing : Bool
  refused : Bool
  deriving DecidableEq

/-- The lock is taken and the writes succeed; accounts and ids fail only if they `may`. -/
def store (may : Bool) (now : Nat) (w : Store) : Sigma Call.Answer → Option Store
  | ⟨.lock, a⟩ => if a then some { w with tmp := [] } else none
  | ⟨.gettimeofday, a⟩ => if a = now then some w else none
  | ⟨.sessionLines, a⟩ => if a = reads 10 bufferSize w.file then some w else none
  | ⟨.fputsSession text, a⟩ => if a then some { w with tmp := w.tmp ++ text } else none
  | ⟨.unlock, _⟩ => some { w with file := w.tmp }
  | ⟨.getpwnam _, a⟩ => if a.isSome then some w else if may then some { w with missing := true } else none
  | ⟨.getgrouplist _ _, a⟩ => if a.isSome then some w else if may then some { w with missing := true } else none
  | ⟨.setloginuid _, a⟩ | ⟨.setgroups _, a⟩ | ⟨.setegid _, a⟩ | ⟨.seteuid _, a⟩ =>
    if a then some w else if may then some { w with refused := true } else none
  | _ => some w

/-- Before the check. -/
def Store.of (file : Str) : Store := ⟨file, [], false, false⟩

/-! ## Lines -/

/-- Without a NUL the fields are what both sides take them for. -/
theorem Entry.fields (e : Entry) (hnul : (0 : UInt8) ∉ e.text) : ∀ f ∈ [e.key, e.user, e.address, e.level], Field f := by
  intro f hf b hb
  have hsep := e.separators f hf b hb
  simp only [isSeparator, Bool.or_eq_false_iff, decide_eq_false_iff_not] at hsep
  refine ⟨hsep.1.1.1, hsep.1.1.2, hsep.1.2, hsep.2, ?_⟩
  rintro rfl
  refine hnul ?_
  simp only [List.mem_cons, List.not_mem_nil, or_false] at hf
  simp only [Entry.text, recordText, recordBody, List.mem_append, List.mem_cons]
  rcases hf with rfl | rfl | rfl | rfl <;> simp [hb]

theorem Entry.clean (e : Entry) (hnul : (0 : UInt8) ∉ e.text) (time : Nat) :
    Clean (recordBody e.key e.user time e.address e.level) :=
  recordBody_clean time (e.fields hnul _ (by simp)) (e.fields hnul _ (by simp)) (e.fields hnul _ (by simp))
    (e.fields hnul _ (by simp))

/-- What the server finds in the line. -/
theorem Entry.bufferFields_text (e : Entry) (hnul : (0 : UInt8) ∉ e.text) :
    bufferFields e.text = e.key :: e.user :: dec e.time :: e.address :: fieldsOf e.level := by
  rw [Entry.text, recordText, bufferFields_line (e.clean hnul _), recordBody, fieldsOf_comma, fieldsOf_comma,
    fieldsOf_comma, fieldsOf_comma, fieldsOf_field (e.fields hnul _ (by simp)) e.key_ne,
    fieldsOf_field (e.fields hnul _ (by simp)) e.user_ne, fieldsOf_field (dec_field _) (dec_ne_nil _),
    fieldsOf_field (e.fields hnul _ (by simp)) e.address_ne]
  rfl

theorem Entry.level_eq (e : Entry) (hnul : (0 : UInt8) ∉ e.text) :
    StrProc.get (e.key :: e.user :: dec e.time :: e.address :: fieldsOf e.level) 4 = e.level := by
  by_cases h : e.level = []
  · rw [h]
    rfl
  · rw [fieldsOf_field (e.fields hnul _ (by simp)) h]
    rfl

theorem Entry.cstr_text (e : Entry) (hnul : (0 : UInt8) ∉ e.text) : cstr e.text = e.text := cstr_of_notMem hnul

theorem Entry.updatedRecord_eq (e : Entry) (hnul : (0 : UInt8) ∉ e.text) {time : Nat} (ht : time < 2 ^ 63) :
    updatedRecord (bufferFields e.text) time = recordText e.key e.user time e.address e.level := by
  rw [e.bufferFields_text hnul, updatedRecord, e.level_eq hnul]
  have hld : ld (UInt64.ofNat time) = dec time := by
    have hto : (UInt64.ofNat time).toNat = time := UInt64.toNat_ofNat_of_lt' (by simp only [UInt64.size]; omega)
    rw [ld, hto, if_pos ht]
  rw [hld]
  simp [StrProc.get, recordText, recordBody, show str "," = [44] by decide, show str "\n" = [10] by decide]

theorem reads_entries {es : List Entry} (hnul : ∀ e ∈ es, (0 : UInt8) ∉ e.text) :
    reads 10 bufferSize (entriesText es) = es.map Entry.text := by
  induction es with
  | nil => rfl
  | cons e es ih =>
    have hshort := e.short
    rw [recordText, List.length_append, List.length_singleton] at hshort
    have hnl : (10 : UInt8) ∉ recordBody e.key e.user e.time e.address e.level :=
      fun hm => (e.clean (hnul e List.mem_cons_self) e.time 10 hm).2.1 rfl
    have hline : entriesText (e :: es) = recordBody e.key e.user e.time e.address e.level ++ 10 :: entriesText es := by
      simp [entriesText, Entry.text, recordText]
    rw [hline, reads_fits hnl (by rw [bufferSize]; omega), ih fun e' he' => hnul e' (List.mem_cons_of_mem _ he')]
    rfl

/-! ## The calls of the loop -/

section Loop

variable {may : Bool} {now : Nat} {w : Store}

theorem checkGroups_ensures : ∀ (gs : List Nat) (s : Session) (primary : Nat),
    ensures (store may now) (checkGroups gs s primary)
      (fun r w' => w' = w ∧ r.1.request = s.request ∧ r.1.serviceUser = s.serviceUser) w := by
  intro gs
  induction gs with
  | nil => exact fun _ _ => ⟨rfl, rfl, rfl⟩
  | cons g gs ih =>
    intro s primary
    refine ⟨⟨none, w, rfl⟩, fun gr w' hw' => ?_⟩
    cases hw'
    rcases gr with _ | gr
    · exact ih s primary
    · refine (ensures_ite _ _ _ _).mpr ⟨fun _ => ?_, fun _ => ih s primary⟩
      exact ih { s with accessLevel := .vyattaCfg } gr.gid

/-- An account is found, or one is missing. -/
theorem account_ensures (st : Scan) :
    ensures (store may now) (account st) (fun r w' =>
      (∃ s, r = (none, s) ∧ w' = { w with missing := true }) ∨
      ∃ st', r = (some st', st'.session) ∧ w' = w ∧ st'.pw ≠ none ∧ st'.session.request = st.session.request ∧
        st'.session.serviceUser = st.session.serviceUser) w := by
  refine ⟨⟨some ⟨0, 0⟩, w, rfl⟩, fun pw w' hw' => ?_⟩
  rcases pw with _ | pw
  · cases may with
    | false => cases hw'
    | true =>
      cases hw'
      exact Or.inl ⟨_, rfl, rfl⟩
  · cases hw'
    refine ⟨⟨some [], w, rfl⟩, fun groups w' hw' => ?_⟩
    rcases groups with _ | groups
    · cases may with
      | false => cases hw'
      | true =>
        cases hw'
        exact Or.inl ⟨_, rfl, rfl⟩
    · cases hw'
      show ensures _ (checkGroups groups st.session pw.gid >>= _) _ _
      refine (ensures_bind _ _ _ _).mpr (ensures_mono (checkGroups_ensures groups st.session pw.gid) ?_)
      rintro r w' ⟨rfl, hreq, hservice⟩
      exact Or.inr ⟨_, rfl, rfl, by simp, hreq, hservice⟩

theorem matched_request (fields : List Str) (s : Session) : (matched fields s).request = s.request := by
  unfold matched
  simp only
  split <;> rfl

/-- A record that was found has left its account, unless it is a service user's. -/
def Scan.Known (st : Scan) : Prop := st.found = true → st.session.serviceUser = true ∨ st.pw ≠ none

/-- The end of the loop: the copy has all records, or an account was missing and it has the
    ones before. -/
def Copied (key : Str) (now : Nat) (es : List Entry) (st : Scan) (w : Store) : Session ⊕ Scan → Store → Prop
  | .inl _, w' => w'.file = w.file ∧ w'.missing = true ∧ ∃ n < (es.filter (·.live now)).length,
      w'.tmp = w.tmp ++ (((es.filter (·.live now)).take n).map (·.refreshed key (newTime st.session now))).flatten
  | .inr st', w' => w' = { w with
        tmp := w.tmp ++ ((es.filter (·.live now)).map (·.refreshed key (newTime st.session now))).flatten } ∧
      st'.Known ∧ (st'.found = true ↔ st.found = true ∨ ∃ e ∈ es, e.key = key ∧ e.live now = true)

/-- The account of a matching record, which a service user has no need of. -/
theorem lookup_ensures (st : Scan) :
    ensures (store may now) (if st.session.serviceUser then pure (some st, st.session) else account st) (fun r w' =>
      (∃ s, r = (none, s) ∧ w' = { w with missing := true }) ∨
      ∃ st', r = (some st', st'.session) ∧ w' = w ∧ (st'.session.serviceUser = true ∨ st'.pw ≠ none) ∧
        st'.session.request = st.session.request) w := by
  refine (ensures_ite _ _ _ _).mpr ⟨fun hs => Or.inr ⟨_, rfl, rfl, Or.inl hs, rfl⟩, fun _ => ?_⟩
  refine ensures_mono (account_ensures st) ?_
  rintro r w' (⟨s, rfl, rfl⟩ | ⟨st', rfl, rfl, hpw, hreq, -⟩)
  · exact Or.inl ⟨s, rfl, rfl⟩
  · exact Or.inr ⟨st', rfl, rfl, Or.inr hpw, hreq⟩

theorem Entry.expired_iff (e : Entry) (hnul : (0 : UInt8) ∉ e.text) :
    addSz (strtoul 10 (StrProc.get (bufferFields e.text) 2)) sessionTimeout ≤ now ↔ e.live now = false := by
  have htime := e.time_lt
  have hout : sessionTimeout = 1800 := rfl
  have hget : StrProc.get (e.key :: e.user :: dec e.time :: e.address :: fieldsOf e.level) 2 = dec e.time := rfl
  rw [e.bufferFields_text hnul, hget, strtoul_dec (by omega), addSz_of_lt (by omega), Entry.live, decide_eq_false_iff_not,
    Nat.not_lt]

theorem Copied.skip {key : Str} {es : List Entry} {st : Scan} {e : Entry} (he : e.live now = false)
    {r : Session ⊕ Scan} {w' : Store} (h : Copied key now es st w r w') : Copied key now (e :: es) st w r w' := by
  have hfilter : (e :: es).filter (·.live now) = es.filter (·.live now) := List.filter_cons_of_neg (by simp [he])
  rcases r with s | st'
  · rw [Copied, hfilter]
    exact h
  · rw [Copied, hfilter]
    refine ⟨h.1, h.2.1, h.2.2.trans (or_congr_right ?_)⟩
    simp [he]

/-- A record that is written is the first of those written. -/
theorem Copied.write {key : Str} {es : List Entry} {st st₁ : Scan} {e : Entry} (he : e.live now = true)
    (hreq : st₁.session.request = st.session.request) (hfound : st₁.found = true ↔ st.found = true ∨ e.key = key)
    {r : Session ⊕ Scan} {w' : Store}
    (h : Copied key now es st₁ { w with tmp := w.tmp ++ e.refreshed key (newTime st.session now) } r w') :
    Copied key now (e :: es) st w r w' := by
  have hfilter : (e :: es).filter (·.live now) = e :: es.filter (·.live now) := List.filter_cons_of_pos (by simp [he])
  have htime : newTime st₁.session now = newTime st.session now := by
    funext time
    rw [newTime, newTime, hreq]
  rcases r with s | st'
  · rw [Copied, hfilter]
    obtain ⟨hfile, hmissing, n, hn, htmp⟩ := h
    refine ⟨hfile, hmissing, n + 1, by rw [List.length_cons]; omega, ?_⟩
    rw [htmp, htime, List.take_succ_cons, List.map_cons, List.flatten_cons, List.append_assoc]
  · rw [Copied, hfilter]
    obtain ⟨rfl, hknown, hiff⟩ := h
    refine ⟨?_, hknown, hiff.trans ?_⟩
    · rw [htime, List.map_cons, List.flatten_cons, List.append_assoc]
    · rw [hfound, or_assoc]
      simp [he]

/-- What is written for a record of the key. -/
theorem Entry.updated_eq {key : Str} (e : Entry) (hnul : (0 : UInt8) ∉ e.text) (hnow : now < 2 ^ 63) (hkey : e.key = key)
    {s s' : Session} (hreq : s'.request = s.request) :
    updatedRecord (bufferFields e.text) (if contains (s'.request.get .reqPragma) pragmaNoVyattaSessionUpdate then
      strtoul 10 (StrProc.get (bufferFields e.text) 2) else now) = e.refreshed key (newTime s now) := by
  have htime := e.time_lt
  have hget : StrProc.get (bufferFields e.text) 2 = dec e.time := by
    rw [e.bufferFields_text hnul]
    rfl
  rw [hreq, hget, strtoul_dec (by omega), Entry.refreshed, if_pos hkey, newTime]
  split
  · exact e.updatedRecord_eq hnul (by omega)
  · exact e.updatedRecord_eq hnul hnow

theorem scan_ensures (key : Str) (hnow : now < 2 ^ 63) : ∀ (es : List Entry), (∀ e ∈ es, (0 : UInt8) ∉ e.text) →
    ∀ (st : Scan) (w : Store), st.Known →
      ensures (store may now) (scan key now (es.map Entry.text) st) (Copied key now es st w) w := by
  intro es
  induction es with
  | nil =>
    intro _ st w hst
    refine ⟨?_, hst, by simp⟩
    simp
  | cons e es ih =>
    intro hnul st w hst
    have hnul' := hnul e List.mem_cons_self
    have ih := ih fun e' he' => hnul e' (List.mem_cons_of_mem _ he')
    have hkey : StrProc.get (bufferFields e.text) 0 = e.key := by
      rw [e.bufferFields_text hnul']
      rfl
    rw [List.map_cons, scan]
    refine (ensures_ite _ _ _ _).mpr ⟨fun hexpired => ?_, fun hlive => (ensures_ite _ _ _ _).mpr ⟨fun hne => ?_, fun heq => ?_⟩⟩
    · exact ensures_mono (ih st w hst) fun r w' h => h.skip ((e.expired_iff hnul').mp hexpired)
    · have hlive : e.live now = true := by simpa using mt (e.expired_iff hnul').mpr hlive
      have hne : e.key ≠ key := fun h => hne (hkey.trans h)
      refine ⟨⟨true, _, rfl⟩, fun ok w' hw' => ?_⟩
      cases ok with
      | false => cases hw'
      | true =>
        cases hw'
        have hline : cstr e.text = e.refreshed key (newTime st.session now) := by
          rw [e.cstr_text hnul', Entry.refreshed, if_neg hne]
        rw [hline]
        exact ensures_mono (ih st _ hst) fun r w' h => h.write hlive rfl (by simp [hne])
    · have hlive : e.live now = true := by simpa using mt (e.expired_iff hnul').mpr hlive
      have hkey : e.key = key := hkey.symm.trans (not_not.mp heq)
      have hreq := matched_request (bufferFields e.text) st.session
      refine (ensures_bind _ _ _ _).mpr (ensures_mono (lookup_ensures _) ?_)
      rintro r w' (⟨s, rfl, rfl⟩ | ⟨st', rfl, rfl, hknown, hreq'⟩)
      · -- the record is not written, nor is any behind it
        refine ⟨rfl, rfl, 0, ?_, by simp⟩
        rw [List.filter_cons_of_pos (by simp [hlive]), List.length_cons]
        exact Nat.succ_pos _
      · refine ⟨⟨true, _, rfl⟩, fun ok w'' hw'' => ?_⟩
        cases ok with
        | false => cases hw''
        | true =>
          cases hw''
          have hline := e.updated_eq hnul' hnow hkey (hreq'.trans hreq)
          rw [bufferFields] at hline
          rw [hline]
          refine ensures_mono (ih _ _ fun _ => hknown) fun r w' h => ?_
          refine h.write hlive ?_ (iff_of_true rfl (Or.inr hkey))
          exact hreq'.trans hreq


/-- The ids are taken on, or one is refused. -/
theorem become_ensures (pw : Passwd) (groups : List Nat) :
    ensures (store may now) (become pw groups) (fun r w' =>
      (r = true ∧ w' = w) ∨ w' = { w with refused := true }) w := by
  have hrefused : ∀ {w' : Store} {b : Bool}, (if b then some w else if may then some { w with refused := true } else none) =
      some w' → b = true ∧ w' = w ∨ b = false ∧ w' = { w with refused := true } := by
    intro w' b h
    cases b with
    | true =>
      cases h
      exact Or.inl ⟨rfl, rfl⟩
    | false =>
      cases may with
      | false => cases h
      | true =>
        cases h
        exact Or.inr ⟨rfl, rfl⟩
  refine ⟨⟨true, w, rfl⟩, fun b w' hw' => ?_⟩
  obtain ⟨rfl, rfl⟩ | ⟨rfl, rfl⟩ := hrefused hw'
  case inr => exact Or.inr rfl
  refine ⟨⟨true, _, rfl⟩, fun b w' hw' => ?_⟩
  obtain ⟨rfl, rfl⟩ | ⟨rfl, rfl⟩ := hrefused hw'
  case inr => exact Or.inr rfl
  refine ⟨⟨true, _, rfl⟩, fun b w' hw' => ?_⟩
  obtain ⟨rfl, rfl⟩ | ⟨rfl, rfl⟩ := hrefused hw'
  case inr => exact Or.inr rfl
  refine ⟨⟨true, _, rfl⟩, fun b w' hw' => ?_⟩
  obtain ⟨rfl, rfl⟩ | ⟨rfl, rfl⟩ := hrefused hw'
  case inr => exact Or.inr rfl
  exact Or.inl ⟨rfl, rfl⟩

/-- What the check leaves, and what it says. -/
structure Left (key : Str) (now : Nat) (es : List Entry) (s : Session) (w : Store) (r : Bool × Session) (w' : Store) : Prop where
  copied : w'.missing = false →
    w'.tmp = w.tmp ++ ((es.filter (·.live now)).map (·.refreshed key (newTime s now))).flatten ∧
    (w'.refused = false → (r.1 = true ↔ ∃ e ∈ es, e.key = key ∧ e.live now = true))
  lost : w'.missing = true → ∃ n < (es.filter (·.live now)).length,
    w'.tmp = w.tmp ++ (((es.filter (·.live now)).take n).map (·.refreshed key (newTime s now))).flatten

theorem underLock_ensures {es : List Entry} (hnul : ∀ e ∈ es, (0 : UInt8) ∉ e.text) (hnow : now < 2 ^ 63)
    (hfile : w.file = entriesText es) (hw : w.missing = false) (key : Str) (s : Session) :
    ensures (store may now) (underLock key s) (Left key now es s w) w := by
  refine ⟨⟨now, w, if_pos rfl⟩, fun a w₁ hw₁ => ?_⟩
  obtain ⟨rfl, rfl⟩ : now = a ∧ w₁ = w := by
    by_cases ha : a = now
    · exact ⟨ha.symm, by simpa [store, ha] using hw₁.symm⟩
    · simp [store, ha] at hw₁
  refine ⟨⟨reads 10 bufferSize w₁.file, w₁, if_pos rfl⟩, fun ls w₂ hw₂ => ?_⟩
  obtain ⟨rfl, rfl⟩ : ls = es.map Entry.text ∧ w₂ = w₁ := by
    rw [← reads_entries hnul, ← hfile]
    by_cases hls : ls = reads 10 bufferSize w₁.file
    · exact ⟨hls, by simpa [store, hls] using hw₂.symm⟩
    · simp [store, hls] at hw₂
  have hknown : Scan.Known { session := s, found := false, pw := none, groups := [] } := fun h => nomatch h
  show ensures _ (scan _ _ _ _ >>= _) _ _
  refine (ensures_bind _ _ _ _).mpr (ensures_mono (scan_ensures key hnow es hnul _ w₂ hknown) fun r w' h => ?_)
  rcases r with s' | st
  · obtain ⟨-, hmissing, hlost⟩ := h
    refine ⟨fun hno => ?_, fun _ => hlost⟩
    rw [hmissing] at hno
    cases hno
  · obtain ⟨rfl, hst, hfound⟩ := h
    have hfound : st.found = true ↔ ∃ e ∈ es, e.key = key ∧ e.live now = true := by simpa using hfound
    refine (ensures_ite _ _ _ _).mpr ⟨fun hcond => ?_, fun hcond => ?_⟩
    · obtain ⟨hf, hservice⟩ : st.found = true ∧ st.session.serviceUser = false := by simpa using hcond
      obtain ⟨pw, hpw⟩ := Option.ne_none_iff_exists'.mp ((hst hf).resolve_left (by simp [hservice]))
      simp only [hpw]
      refine (ensures_bind _ _ _ _).mpr (ensures_mono (become_ensures pw st.groups) ?_)
      rintro b w' (⟨rfl, rfl⟩ | rfl)
      · exact ⟨fun _ => ⟨rfl, fun _ => iff_of_true rfl (hfound.mp hf)⟩, fun hno => absurd hno (by simp [hw])⟩
      · exact ⟨fun _ => ⟨rfl, fun hno => nomatch hno⟩, fun hno => absurd hno (by simp [hw])⟩
    · exact ⟨fun _ => ⟨rfl, fun _ => hfound⟩, fun hno => absurd hno (by simp [hw])⟩

/-- The check with its lock: the copy takes the place of the file. -/
theorem authorized_ensures {es : List Entry} (hnul : ∀ e ∈ es, (0 : UInt8) ∉ e.text) (hnow : now < 2 ^ 63) {val key : Str}
    (hval : Presents val key) (s : Session) :
    ensures (store may now) (authorized val s) (fun r w' =>
      ∃ w₀, w₀.tmp = [] ∧ Left key now es s w₀ r w' ∧ w'.file = w'.tmp) (Store.of (entriesText es)) := by
  obtain ⟨hlen, hkey, k, a, hk, ha, hauth⟩ := hval
  have h₁ : authVyattaSession.length = 14 := by decide
  have h₂ : authVyattaPathLoc.length = 16 := by decide
  have hempty : ¬ (a.isEmpty && k.isEmpty) = true := by
    intro h
    obtain ⟨rfl, rfl⟩ : a = [] ∧ k = [] := by simpa using h
    rw [← hauth] at hkey
    cases hkey
  rw [authorized, if_neg (by rw [h₁, h₂]; omega), hk, ret_bind, ha, ret_bind, if_neg hempty, hauth]
  refine ⟨⟨true, _, rfl⟩, fun ok w' hw' => ?_⟩
  cases ok with
  | false => cases hw'
  | true =>
    cases hw'
    show ensures _ (underLock _ _ >>= _) _ _
    refine (ensures_bind _ _ _ _).mpr (ensures_mono (underLock_ensures hnul hnow rfl rfl key s) fun r w' h => ?_)
    refine ⟨⟨(), _, rfl⟩, fun _ w'' hw'' => ?_⟩
    cases hw''
    exact ⟨_, rfl, ⟨h.copied, h.lost⟩, rfl⟩


end Loop

/-! ## A check that succeeds -/

/-- Nothing is missing or refused where nothing may be. -/
theorem store_false {now : Nat} {w w' : Store} {x : Sigma Call.Answer} (hw : w.missing = false ∧ w.refused = false)
    (h : store false now w x = some w') : w'.missing = false ∧ w'.refused = false := by
  obtain ⟨c, a⟩ := x
  unfold store at h
  split at h
  all_goals first
    | (cases h; exact hw)
    | (split at h
       · cases h
         exact hw
       · cases h)

/-- The server answers and says whether the key has a record that has not expired; the file is
    then the old one without the expired records, and with the new time in those of the key. -/
theorem refresh_is_exact {es : List Entry} (hnul : ∀ e ∈ es, (0 : UInt8) ∉ e.text) {now : Nat} (hnow : now < 2 ^ 63)
    {val key : Str} (hval : Presents val key) (s : Session) :
    ensures (store false now) (authorized val s) (fun r w =>
      (r.1 = true ↔ ∃ e ∈ es, e.key = key ∧ now < e.time + sessionTimeout) ∧
      w.file = ((es.filter fun e => now < e.time + sessionTimeout).map fun e =>
        if e.key = key then recordText e.key e.user (newTime s now e.time) e.address e.level else e.text).flatten)
      (Store.of (entriesText es)) := by
  refine ensures_mono (ensures_invariant store_false (authorized_ensures hnul hnow hval s) ⟨rfl, rfl⟩) ?_
  rintro r w ⟨⟨w₀, htmp, hleft, hfile⟩, hmissing, hrefused⟩
  obtain ⟨hcopy, hiff⟩ := hleft.copied hmissing
  refine ⟨?_, ?_⟩
  · simpa [Entry.live] using hiff hrefused
  · rw [hfile, hcopy, htmp]
    rfl

/-- A header with a key. -/
def shownHeader : Str := str "Vyatta-Session 0123456789ABCDEF"

theorem shownHeader_presents : Presents shownHeader (str "0123456789ABCDEF") :=
  ⟨by decide, by decide, [], str "0123456789ABCDEF", rfl, rfl, by decide⟩

def shownEntry : Entry where
  key := str "0123456789ABCDEF"
  user := str "vyatta"
  time := 5000
  address := str "127.0.0.1"
  level := []
  key_ne := by decide
  user_ne := by decide
  address_ne := by decide
  separators := by decide
  time_lt := by decide
  short := by decide

def otherEntry : Entry where
  key := str "AAAAAAAAAAAAAAAA"
  user := str "root"
  time := 5000
  address := str "127.0.0.1"
  level := str "service-user"
  key_ne := by decide
  user_ne := by decide
  address_ne := by decide
  separators := by decide
  time_lt := by decide
  short := by decide

theorem a_session_is_refreshed : ensures (store false 5100) (authorized shownHeader Session.new) (fun r w =>
      (r.1 = true ↔ ∃ e ∈ [shownEntry, otherEntry], e.key = str "0123456789ABCDEF" ∧ 5100 < e.time + sessionTimeout) ∧
      w.file = (([shownEntry, otherEntry].filter fun e => 5100 < e.time + sessionTimeout).map fun e =>
        if e.key = str "0123456789ABCDEF" then recordText e.key e.user (newTime Session.new 5100 e.time) e.address e.level
        else e.text).flatten)
      (Store.of (entriesText [shownEntry, otherEntry])) := by
  refine refresh_is_exact ?_ (by decide) shownHeader_presents Session.new
  simp only [List.forall_mem_cons]
  exact ⟨by decide, by decide, fun _ h => nomatch h⟩

/-- The user has a NUL in his name. -/
def nulEntry : Entry where
  key := str "AAAAAAAAAAAAAAAA"
  user := str "a\x00b"
  time := 5000
  address := str "127.0.0.1"
  level := []
  key_ne := by decide
  user_ne := by decide
  address_ne := by decide
  separators := by decide
  time_lt := by decide
  short := by decide

/-- The splitter ends at the NUL, so that the record has no time and counts as expired. -/
theorem a_record_with_a_nul_is_dropped : ¬ ensures (store false 5100) (authorized shownHeader Session.new) (fun r w =>
      (r.1 = true ↔ ∃ e ∈ [nulEntry], e.key = str "0123456789ABCDEF" ∧ 5100 < e.time + sessionTimeout) ∧
      w.file = (([nulEntry].filter fun e => 5100 < e.time + sessionTimeout).map fun e =>
        if e.key = str "0123456789ABCDEF" then recordText e.key e.user (newTime Session.new 5100 e.time) e.address e.level
        else e.text).flatten)
      (Store.of (entriesText [nulEntry])) := by
  intro h
  have hrun : (((authorized shownHeader Session.new).replay [⟨.lock, true⟩, ⟨.gettimeofday, (5100 : Nat)⟩,
      ⟨.sessionLines, [nulEntry.text]⟩, ⟨.unlock, ()⟩]).bind result?).any (fun r => !r.1) = true := by decide +kernel
  have hafter : after (store false 5100) (Store.of (entriesText [nulEntry])) [⟨.lock, true⟩, ⟨.gettimeofday, (5100 : Nat)⟩,
      ⟨.sessionLines, [nulEntry.text]⟩, ⟨.unlock, ()⟩] = some (Store.of []) := by decide
  obtain ⟨r, hexec, -⟩ := exec_ret_free hrun
  have hfile := (hexec.within h.within hafter).2
  exact absurd hfile (by decide)

/-! ## A check that fails -/

/-- An account or its groups were not found. -/
def LookupFailed : Sigma Call.Answer → Prop
  | ⟨.getpwnam _, none⟩ | ⟨.getgrouplist _ _, none⟩ => True
  | _ => False

theorem store_missing {may : Bool} {now : Nat} {w w' : Store} {x : Sigma Call.Answer} (h : store may now w x = some w') :
    w'.missing = true ↔ w.missing = true ∨ LookupFailed x := by
  obtain ⟨c, a⟩ := x
  cases c with
  | getpwnam user =>
    rcases a with _ | pw
    · cases may with
      | false => cases h
      | true =>
        cases h
        exact iff_of_true rfl (Or.inr trivial)
    · cases h
      simp [LookupFailed]
  | getgrouplist user gid =>
    rcases a with _ | groups
    · cases may with
      | false => cases h
      | true =>
        cases h
        exact iff_of_true rfl (Or.inr trivial)
    · cases h
      simp [LookupFailed]
  | _ =>
    simp only [store] at h
    simp only [LookupFailed, or_false]
    first
      | (cases h; rfl)
      | (split at h
         · cases h
           rfl
         · first
           | cases h
           | (split at h
              · cases h
                rfl
              · cases h))

theorem after_missing {may : Bool} {now : Nat} : ∀ {tr : List (Sigma Call.Answer)} {w w' : Store},
    after (store may now) w tr = some w' → (w'.missing = true ↔ w.missing = true ∨ ∃ x ∈ tr, LookupFailed x) := by
  intro tr
  induction tr with
  | nil =>
    intro w w' h
    cases h
    simp
  | cons x tr ih =>
    intro w w' h
    obtain ⟨w₁, hx, hrest⟩ := Option.bind_eq_some_iff.mp h
    rw [ih hrest, store_missing hx, or_assoc]
    simp

/-- A line that keeps a record: as it was, or for the key with another time. -/
def Entry.Keeps (key : Str) (e : Entry) (l : Str) : Prop :=
  l = e.text ∨ e.key = key ∧ ∃ time, l = recordText e.key e.user time e.address e.level

/-- The records that have not expired are still there, in their order, and those of other keys
    unchanged. -/
def Survive (es : List Entry) (now : Nat) (key file : Str) : Prop :=
  ∃ ls, ls.Sublist (lines 10 file) ∧ List.Forall₂ (Entry.Keeps key) (es.filter (·.live now)) ls

theorem lines_refreshed {es : List Entry} (hnul : ∀ e ∈ es, (0 : UInt8) ∉ e.text) (key : Str) (time : Nat → Nat) :
    lines 10 (es.map (·.refreshed key time)).flatten = es.map (·.refreshed key time) := by
  refine lines_flatten fun l hl => ?_
  obtain ⟨e, he, rfl⟩ := List.mem_map.mp hl
  have hnl : ∀ t, (10 : UInt8) ∉ recordBody e.key e.user t e.address e.level :=
    fun t hm => (e.clean (hnul e he) t 10 hm).2.1 rfl
  unfold Entry.refreshed
  split
  · exact ⟨_, rfl, hnl _⟩
  · exact ⟨_, rfl, hnl _⟩

theorem keeps_refreshed (key : Str) (time : Nat → Nat) : ∀ es : List Entry,
    List.Forall₂ (Entry.Keeps key) es (es.map (·.refreshed key time)) := by
  intro es
  induction es with
  | nil => exact .nil
  | cons e es ih =>
    refine .cons ?_ ih
    show Entry.Keeps key e (e.refreshed key time)
    unfold Entry.refreshed
    split
    · exact Or.inr ⟨‹_›, _, rfl⟩
    · exact Or.inl rfl

/-- After a check that says no: every session is still there exactly when no account was
    missing. An account is looked up before its record is written, so that at least this record
    is lost. -/
theorem failed_check_keeps_iff {es : List Entry} (hnul : ∀ e ∈ es, (0 : UInt8) ∉ e.text) {now : Nat} (hnow : now < 2 ^ 63)
    {val key : Str} (hval : Presents val key) (s s' : Session) {env : (c : Call) → c.Answer → Prop}
    {tr : List (Sigma Call.Answer)} (hrun : Exec env (authorized val s) tr (.ret (false, s'))) {w : Store}
    (hw : after (store true now) (Store.of (entriesText es)) tr = some w) :
    Survive es now key w.file ↔ ∀ x ∈ tr, ¬ LookupFailed x := by
  have hmissing : w.missing = true ↔ ∃ x ∈ tr, LookupFailed x := by simpa [Store.of] using after_missing hw
  have hlive : ∀ e ∈ es.filter (·.live now), (0 : UInt8) ∉ e.text := fun e he => hnul e (List.mem_of_mem_filter he)
  obtain ⟨w₀, htmp, hleft, hfile⟩ := hrun.within (authorized_ensures hnul hnow hval s).within hw
  constructor
  · rintro ⟨ls, hsub, hkeeps⟩ x hx hfailed
    obtain ⟨n, hn, hcopy⟩ := hleft.lost (hmissing.mpr ⟨x, hx, hfailed⟩)
    have htake : ∀ e ∈ (es.filter (·.live now)).take n, (0 : UInt8) ∉ e.text := fun e he => hlive e (List.mem_of_mem_take he)
    rw [hfile, hcopy, htmp, List.nil_append, lines_refreshed htake] at hsub
    have hle := hsub.length_le
    rw [List.length_map, List.length_take, ← hkeeps.length_eq] at hle
    omega
  · intro hno
    have hfound : w.missing = false := by
      rw [← Bool.not_eq_true, hmissing]
      rintro ⟨x, hx, hfailed⟩
      exact hno x hx hfailed
    refine ⟨_, ?_, keeps_refreshed key (newTime s now) _⟩
    rw [hfile, (hleft.copied hfound).1, htmp, List.nil_append, lines_refreshed hlive]

/-- The ids of the record's user are refused. -/
def refusedAnswers : List (Sigma Call.Answer) :=
  [⟨.lock, true⟩, ⟨.gettimeofday, (5100 : Nat)⟩, ⟨.sessionLines, [shownEntry.text, otherEntry.text]⟩,
   ⟨.getpwnam (str "vyatta"), some ⟨1000, 100⟩⟩, ⟨.getgrouplist (str "vyatta") 100, some []⟩,
   ⟨.fputsSession (str "0123456789ABCDEF,vyatta,5100,127.0.0.1,\n"), true⟩, ⟨.fputsSession otherEntry.text, true⟩,
   ⟨.setloginuid 1000, false⟩, ⟨.unlock, ()⟩]

theorem refused_ids_lose_nothing :
    ∃ s' w, Exec (fun _ _ => True) (authorized shownHeader Session.new) refusedAnswers (.ret (false, s')) ∧
    after (store true 5100) (Store.of (entriesText [shownEntry, otherEntry])) refusedAnswers = some w ∧
    Survive [shownEntry, otherEntry] 5100 (str "0123456789ABCDEF") w.file := by
  have hrun : (((authorized shownHeader Session.new).replay refusedAnswers).bind result?).any (fun r => !r.1) = true := by
    decide +kernel
  have hafter : after (store true 5100) (Store.of (entriesText [shownEntry, otherEntry])) refusedAnswers = some
      ⟨str "0123456789ABCDEF,vyatta,5100,127.0.0.1,\n" ++ otherEntry.text,
       str "0123456789ABCDEF,vyatta,5100,127.0.0.1,\n" ++ otherEntry.text, false, true⟩ := by decide
  have hnul : ∀ e ∈ [shownEntry, otherEntry], (0 : UInt8) ∉ e.text := by
    simp only [List.forall_mem_cons]
    exact ⟨by decide, by decide, fun _ h => nomatch h⟩
  obtain ⟨⟨b, s'⟩, hexec, hb⟩ := exec_ret_free hrun
  obtain rfl : b = false := by simpa using hb
  refine ⟨s', _, hexec, hafter, (failed_check_keeps_iff hnul (by decide) shownHeader_presents _ _ hexec hafter).mpr ?_⟩
  simp only [refusedAnswers, List.forall_mem_cons]
  simp [LookupFailed]

def missingAnswers : List (Sigma Call.Answer) :=
  [⟨.lock, true⟩, ⟨.gettimeofday, (5100 : Nat)⟩, ⟨.sessionLines, [shownEntry.text, otherEntry.text]⟩,
   ⟨.getpwnam (str "vyatta"), none⟩, ⟨.unlock, ()⟩]

/-- The account of the first record is gone: the file is empty afterwards. -/
theorem a_missing_account_loses_sessions : ∃ s' w,
    Exec (fun _ _ => True) (authorized shownHeader Session.new) missingAnswers (.ret (false, s')) ∧
    after (store true 5100) (Store.of (entriesText [shownEntry, otherEntry])) missingAnswers = some w ∧
    ¬ Survive [shownEntry, otherEntry] 5100 (str "0123456789ABCDEF") w.file := by
  have hrun : (((authorized shownHeader Session.new).replay missingAnswers).bind result?).any (fun r => !r.1) = true := by
    decide +kernel
  have hafter : after (store true 5100) (Store.of (entriesText [shownEntry, otherEntry])) missingAnswers = some
      ⟨[], [], true, false⟩ := by decide
  obtain ⟨⟨b, s'⟩, hexec, hb⟩ := exec_ret_free hrun
  obtain rfl : b = false := by simpa using hb
  refine ⟨s', _, hexec, hafter, ?_⟩
  rintro ⟨ls, hsub, hkeeps⟩
  have hlive : ([shownEntry, otherEntry].filter (·.live 5100)).length = 2 := by decide
  have hnil : ls = [] := List.sublist_nil.mp hsub
  have hlen := hkeeps.length_eq
  rw [hlive, hnil] at hlen
  cases hlen

end VyattaRest.Server.AuthSession
