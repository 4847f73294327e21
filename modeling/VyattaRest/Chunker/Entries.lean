/-
  VyattaRest.Chunker.Entries — the process table over any number of messages: whom it shows
  its entries, and what becomes of them.

  Every branch that replies filters by the user of the message, and `<next>`, which changes
  an entry while it reads it, touches the offset and the status alone.
  - `entries_are_private_and_stable`: in every table that messages lead to, the entries are
    registered under their tokens; a reply shows rows of the asking user's entries and nothing
    that depends on others; and an entry keeps its token, command, user and start time for as
    long as it is there, and is marked dead only where the end marker was found.
-/

import VyattaRest.Chunker.Isolation
import VyattaRest.Lib.Machine

namespace VyattaRest.Chunker

open VyattaRest.Lib VyattaRest.Rest VyattaRest.Lib.Prog

/-! ## What a message may do -/

structure ProcessData.Registered (pd : ProcessData) (key : Str) : Prop where
  token_eq : pd.token = key
  token_ne_nil : pd.token ≠ []
  command_ne_nil : pd.command ≠ []
  user_ne_nil : pd.user ≠ []
  status_ne_none : pd.status ≠ .none

def ProcColl.Registered (t : ProcColl) : Prop := ∀ key pd, t.find key = some pd → pd.Registered key

/-- The reply is made of rows of the user's entries. -/
def Shows (t : ProcColl) (u reply : Str) : Prop :=
  ∃ pds : List ProcessData, (∀ pd ∈ pds, pd.user = u ∧ ∃ key, t.find key = some pd) ∧
    (reply = pds.flatMap (fun pd => pd.row ++ str "%2C") ∨ (∃ pd ∈ pds, reply = pd.atNext.row ++ str "\n") ∨
      reply = str "  ")

/-- What an entry has become; `marked` says that the end marker of its token was found. -/
structure ProcessData.Later (marked : Prop) (pd pd' : ProcessData) : Prop where
  startTime_eq : pd'.startTime = pd.startTime
  command_eq : pd'.command = pd.command
  token_eq : pd'.token = pd.token
  user_eq : pd'.user = pd.user
  status : pd'.status = pd.status ∨ pd.status = .running ∧ pd'.status = .dead ∧ marked

theorem ProcessData.Later.refl (marked : Prop) (pd : ProcessData) : pd.Later marked pd := ⟨rfl, rfl, rfl, rfl, Or.inl rfl⟩

theorem ProcessData.Later.trans {marked marked' : Prop} {pd₁ pd₂ pd₃ : ProcessData} (h : pd₁.Later marked pd₂)
    (h' : pd₂.Later marked' pd₃) : pd₁.Later (marked ∨ marked') pd₃ := by
  refine ⟨h'.startTime_eq.trans h.startTime_eq, h'.command_eq.trans h.command_eq, h'.token_eq.trans h.token_eq,
    h'.user_eq.trans h.user_eq, ?_⟩
  rcases h.status with e | ⟨hrun, hdead, hm⟩ <;> rcases h'.status with e' | ⟨hrun', hdead', hm'⟩
  · exact Or.inl (e'.trans e)
  · exact Or.inr ⟨e ▸ hrun', hdead', Or.inr hm'⟩
  · exact Or.inr ⟨hrun, e'.trans hdead, Or.inl hm⟩
  · exact absurd (hdead.symm.trans hrun') (by decide)

theorem ProcessData.Later.mono {marked marked' : Prop} {pd pd' : ProcessData} (h : pd.Later marked pd')
    (hsub : marked → marked') : pd.Later marked' pd' :=
  ⟨h.startTime_eq, h.command_eq, h.token_eq, h.user_eq, h.status.imp_right fun ⟨h1, h2, h3⟩ => ⟨h1, h2, hsub h3⟩⟩

section

variable {env : (c : Call) → c.Answer → Prop} {t : ProcColl}

/-- The world has shown the end marker of a token. -/
def Marked (env : (c : Call) → c.Answer → Prop) (token : Str) : Prop := ∃ size, env (.lstat (endFile token)) (some size)

/-- The table after a message. -/
structure Follows (env : (c : Call) → c.Answer → Prop) (t t' : ProcColl) : Prop where
  registered : t'.Registered
  later : ∀ key pd pd', t.find key = some pd → t'.find key = some pd' → pd.Later (Marked env pd.token) pd'

def Discreet (t : ProcColl) (u : Str) : Call → Prop
  | .write reply => Shows t u reply
  | _ => True

theorem Follows.refl (ht : t.Registered) : Follows env t t := by
  refine ⟨ht, fun key pd pd' h h' => ?_⟩
  cases h.symm.trans h'
  exact .refl _ _

theorem ProcessData.Registered.later {pd pd' : ProcessData} {key : Str} {marked : Prop} (h : pd.Registered key)
    (hl : pd.Later marked pd') : pd'.Registered key := by
  refine ⟨hl.token_eq.trans h.token_eq, hl.token_eq ▸ h.token_ne_nil, hl.command_eq ▸ h.command_ne_nil,
    hl.user_eq ▸ h.user_ne_nil, ?_⟩
  rcases hl.status with e | ⟨-, e, -⟩
  · exact e ▸ h.status_ne_none
  · rw [e]
    decide

/-- A change of the entry of one token. -/
theorem Follows.update (ht : t.Registered) {token : Str} {g : ProcessData → ProcessData}
    (hg : ∀ pd, t.find token = some pd → pd.Later (Marked env pd.token) (g pd)) : Follows env t (t.update token g) := by
  have later : ∀ key pd pd', t.find key = some pd → (t.update token g).find key = some pd' →
      pd.Later (Marked env pd.token) pd' := by
    intro key pd pd' h h'
    rw [OrdMap.find_update] at h'
    by_cases e : key = token
    · subst e
      rw [if_pos rfl, h, Option.map_some, Option.some.injEq] at h'
      exact h' ▸ hg pd h
    · rw [if_neg e] at h'
      cases h.symm.trans h'
      exact .refl _ _
  refine ⟨fun key pd' h' => ?_, later⟩
  have hold : ∃ pd, t.find key = some pd := by
    rw [OrdMap.find_update] at h'
    by_cases e : key = token
    · subst e
      rw [if_pos rfl, Option.map_eq_some_iff] at h'
      obtain ⟨pd, hpd, -⟩ := h'
      exact ⟨pd, hpd⟩
    · rw [if_neg e] at h'
      exact ⟨pd', h'⟩
  obtain ⟨pd, hpd⟩ := hold
  exact (ht key pd hpd).later (later key pd pd' hpd h')

/-- An entry under a token that is there already is not inserted. -/
theorem Follows.insert (ht : t.Registered) {token : Str} {pd : ProcessData} (hpd : pd.Registered token) :
    Follows env t (t.insert token pd) := by
  constructor
  · intro key pd' h'
    rw [OrdMap.find_insert] at h'
    by_cases e : key = token
    · subst e
      rw [if_pos rfl, Option.some.injEq] at h'
      rcases hf : t.find key with _ | old
      · rw [hf] at h'
        cases h'
        exact hpd
      · rw [hf] at h'
        cases h'
        exact ht key _ hf
    · rw [if_neg e] at h'
      exact ht key pd' h'
  · intro key old pd' h h'
    rw [OrdMap.find_insert] at h'
    by_cases e : key = token
    · subst e
      rw [if_pos rfl, h] at h'
      cases h'
      exact .refl _ _
    · rw [if_neg e] at h'
      cases h.symm.trans h'
      exact .refl _ _

theorem Follows.erase (ht : t.Registered) (token : Str) : Follows env t (t.erase token) := by
  have hold : ∀ key pd, (t.erase token).find key = some pd → t.find key = some pd := by
    intro key pd h
    rw [OrdMap.find_erase] at h
    by_cases e : key = token
    · rw [if_pos e] at h
      cases h
    · rw [if_neg e] at h
      exact h
  refine ⟨fun key pd h => ht key pd (hold key pd h), fun key pd pd' h h' => ?_⟩
  cases h.symm.trans (hold key pd' h')
  exact .refl _ _

/-! ## The branches -/

theorem handleCommand_follows (ht : t.Registered) (u : Str) (now : UInt64) (f : Fields) :
    wp env (Discreet t u) True (handleCommand t now f) (Follows env t) := by
  unfold handleCommand
  refine (wp_ite _ _ _).mpr ⟨fun _ => ?_, fun _ => ?_⟩
  · exact Follows.update ht fun pd _ => ⟨rfl, rfl, rfl, rfl, Or.inl rfl⟩
  unfold startNew
  rw [wp_bind]
  refine (wp_ite _ _ _).mpr ⟨fun _ => Follows.refl ht, fun hne => ⟨trivial, fun _ _ => ?_⟩⟩
  simp only [Bool.or_eq_true, List.isEmpty_iff, not_or] at hne
  exact Follows.insert ht ⟨rfl, hne.1.2, hne.1.1, hne.2, fun h => nomatch h⟩

theorem advance_later (marked : Prop) (pd : ProcessData) (chunkSize : UInt64) (size : Nat) :
    pd.Later marked (pd.advance chunkSize size).1 := by
  unfold ProcessData.advance
  split <;> exact ⟨rfl, rfl, rfl, rfl, Or.inl rfl⟩

theorem atNext_later (marked : Prop) (pd : ProcessData) : pd.Later marked pd.atNext := by
  unfold ProcessData.atNext
  split <;> exact ⟨rfl, rfl, rfl, rfl, Or.inl rfl⟩

theorem nextEntry_later {token : Str} {pd : ProcessData} (hpd : pd.Registered token) (u : Str) (chunkSize : UInt64) :
    wp env (Discreet t u) True (nextEntry chunkSize token pd) fun pd' => pd.Later (Marked env pd.token) pd' := by
  unfold nextEntry
  refine (wp_then _ _ _).mpr ⟨trivial, fun size _ => ?_⟩
  rcases size with _ | size
  · exact .refl _ _
  have hl := advance_later (Marked env pd.token) pd chunkSize size
  simp only
  revert hl
  rcases pd.advance chunkSize size with ⟨pd', atEnd⟩
  intro hl
  cases atEnd with
  | false => exact hl
  | true =>
    refine (wp_then _ _ _).mpr ⟨trivial, fun found hfound => ?_⟩
    rcases found with _ | found
    · exact hl
    · refine ⟨hl.startTime_eq, hl.command_eq, hl.token_eq, hl.user_eq, ?_⟩
      have hmarked : Marked env pd.token := ⟨found, hpd.token_eq ▸ hfound⟩
      rcases hs : pd.status with _ | _ | _
      · exact absurd hs hpd.status_ne_none
      · exact Or.inr ⟨rfl, rfl, hmarked⟩
      · exact Or.inl rfl

theorem nextReply_shows (t : ProcColl) (token u : Str) : Shows t u (nextReply t token u) := by
  unfold nextReply
  rcases hf : t.find token with _ | pd
  · exact ⟨[], by simp, Or.inr (Or.inr rfl)⟩
  · simp only
    split
    · exact ⟨[], by simp, Or.inl rfl⟩
    · rename_i hu
      refine ⟨[pd], fun pd' h => ?_, Or.inr (Or.inl ⟨pd, by simp, rfl⟩)⟩
      rw [List.mem_singleton.mp h]
      exact ⟨(not_not.mp hu).symm, token, hf⟩

theorem handleNext_follows (ht : t.Registered) (chunkSize : UInt64) (f : Fields) :
    wp env (Discreet t f.user) True (handleNext chunkSize t f) (Follows env t) := by
  have hshows := nextReply_shows t f.token f.user
  unfold handleNext
  rcases hf : t.find f.token with _ | pd
  · exact ⟨hshows, fun _ _ => Follows.refl ht⟩
  · refine (wp_ite _ _ _).mpr ⟨fun _ => ⟨hshows, fun _ _ => Follows.refl ht⟩, fun _ => ?_⟩
    have hat := atNext_later False pd
    have hnext : wp env (Discreet t f.user) True (nextEntry chunkSize f.token pd.atNext) _ :=
      nextEntry_later ((ht _ _ hf).later hat) f.user chunkSize
    refine (wp_bind _ _ _).mpr (wp_mono hnext fun pd' hl => ⟨hshows, fun _ _ => Follows.update ht fun old hold => ?_⟩)
    cases hf.symm.trans hold
    exact (hat.trans hl).mono fun h => h.elim False.elim (hat.token_eq ▸ ·)

theorem terminate_quiet (u pid : Str) : ∀ n : Nat, wp env (Discreet t u) True (terminate pid n) fun _ => True := by
  intro n
  induction n with
  | zero => trivial
  | succ n ih => exact ⟨trivial, fun _ _ => ⟨trivial, fun alive _ => (wp_ite _ _ _).mpr ⟨fun _ => ih, fun _ => trivial⟩⟩⟩

theorem killProcess_follows (ht : t.Registered) (u key : Str) :
    wp env (Discreet t u) True (killProcess t key) (Follows env t) := by
  unfold killProcess
  refine (wp_then _ _ _).mpr ⟨trivial, fun pid _ => ?_⟩
  rcases pid with _ | pid
  · exact Follows.refl ht
  refine (wp_then _ _ _).mpr ⟨trivial, fun _ _ => (wp_bind _ _ _).mpr (wp_mono (terminate_quiet u _ 3) fun killed _ => ?_)⟩
  cases killed with
  | true => exact Follows.erase ht key
  | false => exact ⟨trivial, fun _ _ => Follows.erase ht key⟩

theorem ofUser_shown {u : Str} {pd : ProcessData} (h : pd ∈ t.ofUser u) : pd.user = u ∧ ∃ key, t.find key = some pd := by
  rw [ProcColl.ofUser, List.mem_filter, List.mem_map] at h
  obtain ⟨⟨⟨key, pd'⟩, hmem, rfl⟩, hu⟩ := h
  exact ⟨by simpa using hu, key, OrdMap.mem_entries.mp hmem⟩

theorem process_follows (ht : t.Registered) (chunkSize : UInt64) (m : Str) :
    wp env (Discreet t (messageUser m)) True (process chunkSize t m) (Follows env t) := by
  unfold process messageUser
  refine (wp_then _ _ _).mpr ⟨trivial, fun now _ => ?_⟩
  rcases fields m with _ | f
  · exact Follows.refl ht
  rcases branch m with _ | k
  · exact Follows.refl ht
  simp only [Option.map_some, Option.getD_some]
  cases k with
  | command => exact handleCommand_follows ht f.user now f
  | process => exact ⟨⟨t.ofUser f.user, fun _ h => ofUser_shown h, Or.inl rfl⟩, fun _ _ => Follows.refl ht⟩
  | details =>
    refine ⟨⟨(t.ofUser f.user).filter (·.token = f.token), fun _ h => ?_, Or.inl rfl⟩, fun _ _ => Follows.refl ht⟩
    exact ofUser_shown (List.mem_filter.mp h).1
  | next => exact handleNext_follows ht chunkSize f
  | delete => exact killProcess_follows ht f.user f.token

end

/-! ## Replies -/

/-- The manager may write a reply to a message. -/
def Replies (chunkSize : UInt64) (t : ProcColl) (m reply : Str) : Prop :=
  ∃ tr k, Exec (fun _ _ => True) (process chunkSize t m) tr (.call (.write reply) k)

theorem reply_shows {t : ProcColl} (ht : t.Registered) {chunkSize : UInt64} {m reply : Str}
    (h : Replies chunkSize t m reply) : Shows t (messageUser m) reply := by
  obtain ⟨tr, k, hexec⟩ := h
  exact hexec.allowed (process_follows ht chunkSize m)

/-- The tables hold the same entries of a user. -/
def AgreeOn (u : Str) (t₁ t₂ : ProcColl) : Prop :=
  ∀ key pd, pd.user = u → (t₁.find key = some pd ↔ t₂.find key = some pd)

theorem ofUser_congr {u : Str} {t₁ t₂ : ProcColl} (h : AgreeOn u t₁ t₂) : t₁.ofUser u = t₂.ofUser u := by
  have hfilter : ∀ t : ProcColl, t.ofUser u = (t.entries.filter (·.2.user = u)).map (·.2) := by
    intro t
    rw [ProcColl.ofUser, List.filter_map]
    rfl
  rw [hfilter, hfilter]
  exact congrArg _ (OrdMap.filter_congr fun key pd hu => h key pd (by simpa using hu))

theorem replies_iff {chunkSize : UInt64} {t : ProcColl} {m text : Str}
    (h : process chunkSize t m = do let _ ← perform .gettimeofday; let _ ← perform (.write text); return t) (reply : Str) :
    Replies chunkSize t m reply ↔ reply = text := by
  unfold Replies
  rw [h]
  constructor
  · intro ⟨tr, k, hexec⟩
    have hwp : wp (fun _ _ => True) (fun c => ∀ r, c = .write r → r = text) True
        (do let _ ← perform .gettimeofday; let _ ← perform (.write text); return t : Act ProcColl) fun _ => True := by
      refine ⟨fun r hr => (nomatch hr), fun _ _ => ⟨fun r hr => (Call.write.inj hr).symm, fun _ _ => trivial⟩⟩
    exact hexec.allowed hwp reply rfl
  · intro e
    subst e
    exact ⟨[⟨.gettimeofday, (0 : UInt64)⟩], _, Exec.cons trivial (Exec.nil _)⟩

/-- What another user has does not show in a listing or in details. -/
theorem replies_congr {u : Str} {t₁ t₂ : ProcColl} (h : AgreeOn u t₁ t₂) (chunkSize : UInt64) {m : Str}
    (hu : messageUser m = u) (hkind : branch m = some .process ∨ branch m = some .details) (reply : Str) :
    Replies chunkSize t₁ m reply ↔ Replies chunkSize t₂ m reply := by
  subst hu
  rcases hf : fields m with _ | f
  · -- without a token nothing is answered
    have hnone : ∀ t, ¬ Replies chunkSize t m reply := by
      intro t ⟨tr, k, hexec⟩
      have hwp : wp (fun _ _ => True) (fun c => c = .gettimeofday) True (process chunkSize t m) fun _ => True := by
        unfold process
        rw [hf]
        exact ⟨rfl, fun _ _ => trivial⟩
      exact nomatch hexec.allowed hwp
    exact iff_of_false (hnone t₁) (hnone t₂)
  have huser : messageUser m = f.user := by rw [messageUser, hf]; rfl
  rw [huser] at h
  rcases hkind with hk | hk
  · have hprocess : ∀ t, process chunkSize t m =
        do let _ ← perform .gettimeofday; let _ ← perform (.write (processReply t f.user)); return t := by
      intro t
      unfold process
      rw [hf, hk]
      rfl
    rw [replies_iff (hprocess t₁), replies_iff (hprocess t₂), processReply, processReply, ofUser_congr h]
  · have hdetails : ∀ t, process chunkSize t m =
        do let _ ← perform .gettimeofday; let _ ← perform (.write (detailsReply t f.token f.user)); return t := by
      intro t
      unfold process
      rw [hf, hk]
      rfl
    rw [replies_iff (hdetails t₁), replies_iff (hdetails t₂), detailsReply, detailsReply, ofUser_congr h]

/-! ## Many messages -/

/-- A message, and the answers that the calls made for it got. -/
structure Handled where
  message : Str
  answers : List (Sigma Call.Answer)

/-- The table after a message. -/
def afterMessage (chunkSize : UInt64) (t : ProcColl) (m : Handled) : Option ProcColl :=
  match (process chunkSize t m.message).replay m.answers with
  | some (.ret t') => some t'
  | _ => none

/-- The end marker of a token was found for the message. -/
def Handled.Marks (m : Handled) (token : Str) : Prop := Marked (fun c a => ⟨c, a⟩ ∈ m.answers) token

theorem follows_of_message {chunkSize : UInt64} {t t' : ProcColl} {m : Handled} (ht : t.Registered)
    (h : afterMessage chunkSize t m = some t') : Follows (fun c a => ⟨c, a⟩ ∈ m.answers) t t' := by
  unfold afterMessage at h
  split at h
  · rename_i hreplay
    cases h
    have hexec : Exec (fun c a => (⟨c, a⟩ : Sigma Call.Answer) ∈ m.answers) (process chunkSize t m.message) m.answers (.ret t') :=
      exec_of_replay (fun x hx => hx) hreplay
    exact hexec.wp (process_follows ht chunkSize m.message)
  · cases h

theorem registered_of_run {chunkSize : UInt64} {ok : ProcColl → Handled → Prop} {t₀ t : ProcColl} {tr : List Handled}
    (h : Run (afterMessage chunkSize) ok t₀ tr t) (h₀ : t₀.Registered) : t.Registered :=
  h.invariant h₀ fun ht _ hstep => (follows_of_message ht hstep).registered

/-- An entry that is there all the time. -/
theorem later_of_run {chunkSize : UInt64} {t t' : ProcColl} {tr : List Handled} {key : Str} {pd : ProcessData}
    (ht : t.Registered) (hf : t.find key = some pd)
    (h : Run (afterMessage chunkSize) (fun t _ => (t.find key).isSome = true) t tr t') :
    ∀ pd', t'.find key = some pd' → pd.Later (∃ m ∈ tr, m.Marks pd.token) pd' := by
  induction h with
  | nil =>
    intro pd' hf'
    cases hf.symm.trans hf'
    exact .refl _ _
  | @snoc tr t₁ m t₂ hrun hok hstep ih =>
    intro pd₂ hf₂
    obtain ⟨pd₁, hf₁⟩ := Option.isSome_iff_exists.mp hok
    have hsofar := ih pd₁ hf₁
    have hlast := (follows_of_message (registered_of_run hrun ht) hstep).later key pd₁ pd₂ hf₁ hf₂
    rw [hsofar.token_eq] at hlast
    refine (hsofar.trans hlast).mono fun hm => ?_
    rcases hm with ⟨m', hm', hmarks⟩ | hmarks
    · exact ⟨m', List.mem_append_left _ hm', hmarks⟩
    · exact ⟨m, by simp, hmarks⟩

theorem registered_empty : ProcColl.Registered OrdMap.empty := fun _ _ h => nomatch h

theorem entries_are_private_and_stable (chunkSize : UInt64) (tr : List Handled) (t : ProcColl)
    (h : Run (afterMessage chunkSize) (fun _ _ => True) OrdMap.empty tr t) :
    t.Registered ∧
    (∀ m reply, Replies chunkSize t m reply → Shows t (messageUser m) reply) ∧
    (∀ t₁ t₂ m, AgreeOn (messageUser m) t₁ t₂ → branch m = some .process ∨ branch m = some .details →
      ∀ reply, Replies chunkSize t₁ m reply ↔ Replies chunkSize t₂ m reply) ∧
    (∀ key pd tr' t' pd', t.find key = some pd →
      Run (afterMessage chunkSize) (fun t _ => (t.find key).isSome = true) t tr' t' → t'.find key = some pd' →
      pd.Later (∃ m ∈ tr', m.Marks pd.token) pd') := by
  have ht := registered_of_run h registered_empty
  refine ⟨ht, fun m reply hr => reply_shows ht hr, fun t₁ t₂ m hagree hkind => ?_, fun key pd tr' t' pd' hf hrun hf' => ?_⟩
  · exact replies_congr hagree chunkSize rfl hkind
  · exact later_of_run ht hf hrun pd' hf'

/-- Alice starts `show 'version'`. -/
def aliceStarts : Handled where
  message := message .command aliceToken (str "show 'version'") (str "alice")
  answers := [⟨.gettimeofday, (1000 : UInt64)⟩, ⟨.startNew aliceToken (str "show 'version'") (str "alice"), ()⟩]

theorem alices_entry_is_registered :
    Run (afterMessage (UInt64.ofNat chunkerReadSize)) (fun _ _ => True) OrdMap.empty [aliceStarts] aliceTable ∧
      (aliceTable.find aliceToken).isSome = true ∧ aliceTable.Registered := by
  have hfields : fields aliceStarts.message = some ⟨aliceToken, str "show 'version'", str "alice"⟩ := by decide +kernel
  have hbranch : branch aliceStarts.message = some .command := by decide
  have hafter : afterMessage (UInt64.ofNat chunkerReadSize) OrdMap.empty aliceStarts = some aliceTable := by
    unfold afterMessage process
    rw [hfields, hbranch]
    rfl
  have hrun : Run (afterMessage (UInt64.ofNat chunkerReadSize)) (fun _ _ => True) OrdMap.empty [aliceStarts] aliceTable :=
    .snoc .nil trivial hafter
  exact ⟨hrun, by decide, (entries_are_private_and_stable _ _ _ hrun).1⟩

end VyattaRest.Chunker
