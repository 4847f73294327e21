/-
  VyattaRest.Server.Descriptions — the descriptions of a user's configuration sessions
  (`ConfMode::process`, confmode.cc; the modify files, common.cc).

  The text behind `/rest/conf/` of a POST that creates a session is its description, but it is
  first looked up as an id. If there is a session of that id, the duplicate check then asks
  for a session of its owner, not of the user who is asking.
  - `descriptions_stay_unique`: as long as nobody takes the id of another user's session for a
    description, a user's descriptions are distinct, and a refused one is in use.
  - `an_id_as_description_is_taken_twice`: two sessions of bob with one description, and a
    refusal of one that carol does not have.
-/

import VyattaRest.Server.Ownership
import VyattaRest.Lib.Machine

namespace VyattaRest.Server.Descriptions

open VyattaRest.Lib VyattaRest.Rest VyattaRest.Lib.Prog VyattaRest.Server.ConfMode VyattaRest.Server.Ownership

/-! ## The files -/

/-- What is in the file of each live session, by id. -/
abbrev Files := OrdMap Str Str

/-- The id in the name of a modify file. -/
def fileId (file : Str) : Option Str :=
  if vyattaModifyFile.isPrefixOf (cstr file) then some ((cstr file).drop vyattaModifyFile.length) else none

/-- The answers that the files allow: a file reads as it was written, the directory lists them
    all and a new id is not in use. Files may fail to open, unless the world is `strict`. A create
    that failed may have left an empty file. -/
def answers (strict : Bool) (f : Files) : Sigma Call.Answer → Bool
  | ⟨.fgets file, a⟩ =>
    match (fileId file).bind f.find with
    | some content => a == some (fgetsLine content) || (!strict && a == none)
    | none => a == none || a == some none
  | ⟨.readdir _, none⟩ => !strict
  | ⟨.readdir _, some names⟩ => f.entries.all fun p => names.contains (str ".vyattamodify_" ++ p.1)
  | ⟨.generateToken, id⟩ => decide (id.length < 16) || (Chunker.isHexToken id && (f.find id).isNone)
  | _ => true

/-- What a call leaves in the files. -/
def written (f : Files) : Sigma Call.Answer → Files
  | ⟨.fputs file content, true⟩ =>
    match fileId file with
    | some id => (f.erase id).insert id content
    | none => f
  | ⟨.unlink file, true⟩ =>
    match fileId file with
    | some id => f.erase id
    | none => f
  | _ => f

def next (strict : Bool) (f : Files) (x : Sigma Call.Answer) : Option Files :=
  if answers strict f x then some (written f x) else none

/-! ## Requests -/

/-- A request to configuration mode by an authenticated user, and what was asked and answered.
    Path and user are C strings, and a user name has neither a `/` nor a newline. -/
structure Request where
  session : Session
  calls : List (Sigma Call.Answer)
  conf : confReqRoot <+: session.uri
  nul : (0 : UInt8) ∉ session.uri
  user : PlainUser session.user

def Request.creates (l : Request) : Bool := isCreate l.session.method l.session.uri

def Request.description (l : Request) : Str := confRest l.session.uri

/-- The response to the request. -/
def Request.answer (l : Request) : Option Session :=
  match (process l.session).replay l.calls with
  | some (.ret s) => some s
  | _ => none

def step (f : Files) (l : Request) : Option Files := if l.answer.isSome then after (next false) f l.calls else none

/-! ## The property -/

/-- What `create_conf_modify_file` writes. -/
def line (user description : Str) : Str := user ++ str "/" ++ description

/-- The user has a live session of that description. -/
def Has (f : Files) (user description : Str) : Prop := ∃ id, f.find id = some (line user description)

def Unique (f : Files) : Prop := ∀ id₁ id₂ user description, (47 : UInt8) ∉ user → description ≠ [] →
  f.find id₁ = some (line user description) → f.find id₂ = some (line user description) → id₁ = id₂

/-- The response of `CONFMODE_DUP_DESC_ERROR`. -/
def isDuplicate (s : Session) : Bool :=
  s.response.get .respCode == str "400" &&
    s.response.get .body == (Session.new.error .confmodeDupDescError).response.get .body

/-- A create whose description is not the id of another user's session, and fits a line of
    `fgets`, in a world where every file can be opened. -/
def Clear (f : Files) (l : Request) : Prop := l.creates = true →
  (∀ content, f.find l.description = some content → l.session.user ++ str "/" <+: content) ∧
    (10 : UInt8) ∉ l.description ∧ (line l.session.user l.description).length < chunkerReadSize ∧
    (after (next true) f l.calls).isSome

/-- No create of the kind is refused as a duplicate of a description that the user does not
    have. -/
def Justified (f : Files) : Prop := ∀ l s f', Clear f l → l.creates = true → step f l = some f' → l.answer = some s →
  isDuplicate s = true → Has f l.session.user l.description

/-! ## Reading a file back -/

/-- The content of a file that one `fgets` reads back. -/
structure Whole (content user description : Str) : Prop where
  eq : content = line user description
  user : PlainUser user
  newline : (10 : UInt8) ∉ description
  nul : (0 : UInt8) ∉ description
  length : content.length < chunkerReadSize

theorem line_eq (user description : Str) : line user description = user ++ 47 :: description := by
  rw [line, slash_eq, List.append_assoc]
  rfl

theorem line_inj {u u' d d' : Str} (hu : (47 : UInt8) ∉ u) (hu' : (47 : UInt8) ∉ u') (h : line u d = line u' d') :
    u = u' ∧ d = d' := by
  rw [line_eq, line_eq] at h
  have hall : ∀ {v : Str}, (47 : UInt8) ∉ v → ∀ b ∈ v, decide (b ≠ 47) = true :=
    fun hv b hb => decide_eq_true fun e => hv (e ▸ hb)
  have hfirst := congrArg (List.takeWhile fun b : UInt8 => decide (b ≠ 47)) h
  rw [List.takeWhile_append_of_pos (hall hu), List.takeWhile_append_of_pos (hall hu'),
    List.takeWhile_cons_of_neg (by decide), List.takeWhile_cons_of_neg (by decide), List.append_nil, List.append_nil] at hfirst
  subst hfirst
  exact ⟨rfl, (List.cons.inj (List.append_cancel_left h)).2⟩

section Whole

variable {content user description : Str} (h : Whole content user description)
include h

theorem Whole.fgetsLine : fgetsLine content = some content := by
  have hne : content ≠ [] := by
    rw [h.eq, line_eq]
    simp
  have hall : ∀ b ∈ content, decide (b ≠ 10) = true := by
    intro b hb
    refine decide_eq_true fun e => ?_
    subst e
    rw [h.eq, line_eq, List.mem_append, List.mem_cons] at hb
    rcases hb with hb | hb | hb
    · exact h.user.newline hb
    · exact absurd hb (by decide)
    · exact h.newline hb
  have hlen := h.length
  rw [Ownership.fgetsLine, if_neg (by simpa using hne), List.takeWhile_eq_self_iff.mpr hall, List.dropWhile_eq_nil_iff.mpr hall,
    List.take_nil, List.append_nil, List.take_of_length_le (by omega)]

theorem Whole.cstr : cstr content = content := by
  refine cstr_of_notMem ?_
  rw [h.eq, line_eq, List.mem_append, List.mem_cons]
  rintro (hb | hb | hb)
  · exact h.user.nul hb
  · exact absurd hb (by decide)
  · exact h.nul hb

theorem Whole.find : Lib.find (str "/") content = some user.length := by
  have htag : Tag (str "/") 47 := ⟨[], slash_eq, by simp⟩
  have hno : ¬ str "/" <:+: user := find_eq_none_iff.mp (find_none_of_notMem htag h.user.slash)
  rw [h.eq, line, List.append_assoc]
  exact find_at_tag htag hno description

end Whole

/-! ## The lookups -/

structure Inv (f : Files) : Prop where
  id : ∀ {id content}, f.find id = some content → Chunker.isHexToken id = true
  whole : ∀ {id content}, f.find id = some content → ∃ user description, Whole content user description
  unique : Unique f

/-- The answers of a strict world. -/
def reads (f : Files) (c : Call) (a : c.Answer) : Prop := answers true f ⟨c, a⟩ = true

theorem fileId_modify (id : Str) : fileId (vyattaModifyFile ++ id) = some (cstr id) := by
  rw [fileId, cstr_append_left (by decide), if_pos (by simp [List.isPrefixOf_iff_prefix]), List.drop_left]

section Lookup

variable {f : Files} (hf : Inv f)
include hf

/-- A file that is there gives its user and description, any other changes neither. -/
theorem readConfModifyFile_reads (id user description : Str) :
    wp (reads f) isRead True (readConfModifyFile id user description) fun r =>
      (∀ u d, f.find (cstr id) = some (line u d) → (47 : UInt8) ∉ u → r = (true, u, d)) ∧
        (f.find (cstr id) = none → r.2 = (user, description)) := by
  refine (wp_then _ _ _).mpr ⟨trivial, fun a ha => ?_⟩
  simp only [reads, answers, fileId_modify, Option.bind_some] at ha
  rcases hfind : f.find (cstr id) with _ | content
  · simp only [hfind, Bool.or_eq_true, beq_iff_eq] at ha
    rcases ha with rfl | rfl <;> exact ⟨fun _ _ h => (by cases h), fun _ => rfl⟩
  · simp only [hfind, Bool.not_true, Bool.false_and, Bool.or_false, beq_iff_eq] at ha
    obtain ⟨u, d, hw⟩ := hf.whole hfind
    have hlen : content.length = u.length + (d.length + 1) := by
      rw [hw.eq, line_eq, List.length_append, List.length_cons]
    rw [hw.fgetsLine] at ha
    subst ha
    simp only [hw.cstr, hw.find]
    refine (wp_bind _ _ _).mpr (wp_substrAt _ (Nat.zero_le _) ?_)
    refine (wp_bind _ _ _).mpr (wp_substrFrom (by omega) ?_)
    refine ⟨fun u' d' h hu' => ?_, fun h => by cases h⟩
    obtain ⟨rfl, rfl⟩ := line_inj hw.user.slash hu' (hw.eq.symm.trans (Option.some.inj h))
    have htake : substr content 0 u.length = u := by
      rw [substr, List.drop_zero, hw.eq, line, List.append_assoc, List.take_left]
    have hdrop : content.drop (u.length + 1) = d := by
      rw [hw.eq, line_eq, List.drop_append]
      simp
    show (true, substr content 0 u.length, content.drop (u.length + 1)) = _
    rw [htake, hdrop]

/-- The loop finds a session of the description exactly if it comes by one. -/
theorem findTag_reads {tag user : Str} (htag : tag ≠ []) (huser : (47 : UInt8) ∉ user) : ∀ names : List Str,
    wp (reads f) isRead True (findTag tag user names) fun r =>
      (∀ id, r = some id → Has f user tag) ∧
        (r = none → ∀ name ∈ names, 22 ≤ name.length → f.find (cstr (name.drop 14)) ≠ some (line user tag)) := by
  intro names
  induction names with
  | nil => exact ⟨fun _ h => (by cases h), fun _ _ h => absurd h List.not_mem_nil⟩
  | cons name names ih =>
    have hskip : ∀ {r : Option Str}, (22 ≤ name.length → f.find (cstr (name.drop 14)) ≠ some (line user tag)) →
        (∀ id, r = some id → Has f user tag) ∧
          (r = none → ∀ n ∈ names, 22 ≤ n.length → f.find (cstr (n.drop 14)) ≠ some (line user tag)) →
        (∀ id, r = some id → Has f user tag) ∧
          (r = none → ∀ n ∈ name :: names, 22 ≤ n.length → f.find (cstr (n.drop 14)) ≠ some (line user tag)) := by
      intro r hname hr
      exact ⟨hr.1, fun h n hn => (List.mem_cons.mp hn).elim (fun e => e ▸ hname) (hr.2 h n)⟩
    rw [findTag]
    refine (wp_ite _ _ _).mpr ⟨fun hlt => wp_mono ih fun r hr => hskip (fun hle => absurd hlt (by omega)) hr, fun hge => ?_⟩
    refine (wp_bind _ _ _).mpr (wp_substrFrom (by omega) ?_)
    refine (wp_bind _ _ _).mpr (wp_mono (readConfModifyFile_reads hf _ [] []) fun r hr => ?_)
    refine (wp_ite _ _ _).mpr ⟨fun hmatch => ?_, fun hmiss => wp_mono ih fun r' hr' => hskip (fun _ hfind => ?_) hr'⟩
    · refine ⟨fun _ _ => ?_, fun h => by cases h⟩
      rcases hfind : f.find (cstr (name.drop 14)) with _ | content
      · have hr2 := hr.2 hfind
        exact absurd (congrArg Prod.snd hr2) hmatch.1
      · obtain ⟨u, d, hw⟩ := hf.whole hfind
        rw [hw.eq] at hfind
        obtain rfl := hr.1 u d hfind hw.user.slash
        obtain ⟨-, rfl, rfl⟩ := hmatch
        exact ⟨_, hfind⟩
    · obtain rfl := hr.1 user tag hfind huser
      exact hmiss ⟨htag, rfl, rfl⟩

/-- The duplicate check is right about the user it is given. -/
theorem knownDescription_reads {tag user : Str} (huser : (47 : UInt8) ∉ user) :
    wp (reads f) isRead True (knownDescription tag user) fun r =>
      (r.isSome = true → Has f user tag) ∧ (r = none → tag ≠ [] → ¬ Has f user tag) := by
  refine (wp_ite _ _ _).mpr ⟨fun h => ⟨fun h' => (nomatch h'), fun _ hne => absurd h hne⟩, fun htag => ?_⟩
  refine (wp_then _ _ _).mpr ⟨trivial, fun names hnames => ?_⟩
  rcases names with _ | names
  · cases hnames
  refine wp_mono (findTag_reads hf htag huser names) fun r hr => ⟨fun h => ?_, fun h _ ⟨id, hid⟩ => ?_⟩
  · obtain ⟨id, hid⟩ := Option.isSome_iff_exists.mp h
    exact hr.1 id hid
  · -- the directory lists every live session
    have hhex := hf.id hid
    have hlength : id.length = 16 := by
      rw [Chunker.isHexToken, Bool.and_eq_true, beq_iff_eq] at hhex
      exact hhex.1
    have hmem : str ".vyattamodify_" ++ id ∈ names := by
      have hall := List.all_eq_true.mp hnames _ (OrdMap.mem_entries.mpr hid)
      simpa using hall
    refine hr.2 h _ hmem (by rw [List.length_append, hlength]; decide) ?_
    have hdrop : (str ".vyattamodify_" ++ id).drop 14 = id := List.drop_left' (by decide)
    rw [hdrop, cstr_of_notMem (Chunker.isHexToken_plain hhex).2]
    exact hid

/-- A create goes on with the user who is asking, unless the description is the id of
    another's session. -/
theorem lookup_reads {path user : Str} (hslash : hasConfPath path = false) (hnul : (0 : UInt8) ∉ path)
    (hfits : (confRest path).length < chunkerReadSize) (hplain : (47 : UInt8) ∉ user)
    (huser : ∀ content, f.find (confRest path) = some content → user ++ str "/" <+: content) :
    wp (reads f) isRead True (lookup path (str "POST") user) fun r => ∃ t, r = some t ∧ t.user = user ∧
      t.confPathWithId = path.drop confReqRoot.length := by
  unfold lookup
  refine (wp_ite _ _ _).mpr ⟨fun hle => ⟨_, rfl, rfl, (List.drop_eq_nil_of_le hle).symm⟩, fun hlt => ?_⟩
  have hlen : confReqRoot.length < path.length := by omega
  have hdrop := drop_root_length hlen
  have hnone : find (str "/") (confRest path) = none := by
    rw [hasConfPath, contains] at hslash
    exact Option.not_isSome_iff_eq_none.mp (by simp [hslash])
  refine (wp_bind _ _ _).mpr (wp_substrFrom hlen.le ?_)
  refine (wp_bind _ _ _).mpr (wp_substrFrom hdrop ?_)
  refine (wp_bind _ _ _).mpr (wp_substrAt _ hdrop ?_)
  have hid : substr (path.drop confReqRoot.length) 1 ((find (str "/") ((path.drop confReqRoot.length).drop 1)).getD npos) =
      confRest path := by
    rw [drop_root_rest, hnone, Option.getD_none, substr, drop_root_rest]
    exact List.take_of_length_le (hfits.le.trans (by decide))
  rw [hid]
  have hcstr : cstr (confRest path) = confRest path := cstr_of_notMem fun h => hnul (List.mem_of_mem_drop h)
  refine (wp_bind _ _ _).mpr (wp_mono (readConfModifyFile_reads hf (confRest path) user []) fun r hr => ?_)
  rw [hcstr] at hr
  have hsame : r.2.1 = user := by
    rcases hfind : f.find (confRest path) with _ | content
    · exact congrArg Prod.fst (hr.2 hfind)
    · obtain ⟨u, d, hw⟩ := hf.whole hfind
      have hu : user = u := by
        obtain ⟨r, hr'⟩ := huser content hfind
        exact (line_inj hplain hw.user.slash (hr'.trans hw.eq)).1
      rw [hw.eq] at hfind
      rw [hr.1 u d hfind hw.user.slash, hu]
  obtain ⟨ok, user', tag⟩ := r
  obtain rfl : user' = user := hsame
  cases ok with
  | true => exact ⟨_, rfl, rfl, rfl⟩
  | false => exact (wp_ite _ _ _).mpr ⟨fun _ => ⟨_, rfl, rfl, rfl⟩, fun h => absurd rfl h⟩

end Lookup

/-! ## A create -/

/-- What a create may leave. -/
structure Outcome (f : Files) (user description : Str) (s : Session) (f' : Files) : Prop where
  files : f' = f ∨ ∃ id, Chunker.isHexToken id = true ∧ f.find id = none ∧
    f' = (f.erase id).insert id (line user description) ∧ (description ≠ [] → ¬ Has f user description)
  refused : isDuplicate s = true → Has f user description

theorem isDuplicate_validationFailure (s : Session) : isDuplicate (s.error .validationFailure) = false := rfl

theorem isDuplicate_authorizationFailure (s : Session) : isDuplicate (s.error .authorizationFailure) = false := rfl

theorem isDuplicate_serverError (s : Session) : isDuplicate (s.error .serverError) = false := rfl

theorem isDuplicate_created (s : Session) : isDuplicate (s.error .created) = false := rfl

/-- A response that is not a refusal, and no new file. -/
theorem Outcome.same {f : Files} {user description : Str} {s : Session} (h : isDuplicate s = false) :
    Outcome f user description s f := ⟨Or.inl rfl, fun h' => by rw [h] at h'; cases h'⟩

theorem within_reads {α : Type} {f : Files} {p : Act α} {Q : α → Prop} (h : wp (reads f) isRead True p Q) :
    within (next true) (fun _ _ => True) p (fun a f' => Q a ∧ f' = f) f := by
  refine within_of_reads h (fun _ _ => trivial) fun {c a f'} hc hnext => ?_
  unfold next at hnext
  split at hnext
  · rename_i ha
    cases hnext
    cases c <;> first | exact ⟨ha, rfl⟩ | cases hc
  · cases hnext

theorem setupSession_within {f : Files} (sid : Str) :
    within (next true) (fun _ _ => True) (setupSession sid) (fun _ f' => f' = f) f := by
  refine ⟨trivial, fun opened f₁ h₁ => ?_⟩
  obtain rfl : f = f₁ := Option.some.inj h₁
  refine (within_ite _ _ _ _).mpr ⟨fun _ => rfl, fun _ => ⟨trivial, fun _ f₂ h₂ => ?_⟩⟩
  obtain rfl : f = f₂ := Option.some.inj h₂
  refine ⟨trivial, fun _ f₃ h₃ => ?_⟩
  obtain rfl : f = f₃ := Option.some.inj h₃
  exact ⟨trivial, fun _ f₄ h₄ => (Option.some.inj h₄).symm⟩

theorem create_within {f : Files} {s : Session} {t : Target} {description : Str} (hf : Inv f) (hs : PlainUser s.user)
    (ht : t.user = s.user) (hdesc : newDescription t.confPathWithId = pure description) (hnul : (0 : UInt8) ∉ description) :
    within (next true) (fun _ _ => True) (create s t) (Outcome f s.user description) f := by
  unfold create
  rw [hdesc, ht]
  show within _ _ (knownDescription description s.user >>= _) _ _
  refine (within_bind _ _ _ _).mpr (within_mono (within_reads (knownDescription_reads hf hs.slash)) fun known f' hknown => ?_)
  obtain ⟨⟨hhas, hfree⟩, rfl⟩ := hknown
  refine (within_ite _ _ _ _).mpr ⟨fun h => ⟨Or.inl rfl, fun _ => hhas h⟩, fun hnew => ?_⟩
  refine ⟨trivial, fun id f₁ hid => ?_⟩
  unfold next at hid
  split at hid
  · rename_i hfresh
    obtain rfl : f' = f₁ := Option.some.inj hid
    refine (within_ite _ _ _ _).mpr ⟨fun _ => .same (isDuplicate_validationFailure s), fun hlen => ?_⟩
    obtain ⟨hhex, hnone⟩ : Chunker.isHexToken id = true ∧ (f'.find id).isNone = true := by
      simpa [answers, hlen] using hfresh
    refine (within_bind _ _ _ _).mpr (within_mono (setupSession_within _) fun _ f₂ h₂ => ?_)
    subst h₂
    have hcontent : cstr (s.user ++ str "/" ++ description) = line s.user description := by
      refine cstr_of_notMem fun h => ?_
      simp only [List.mem_append] at h
      rcases h with (h | h) | h
      · exact hs.nul h
      · exact absurd h (by decide)
      · exact hnul h
    refine ⟨trivial, fun opened f₃ h₃ => ?_⟩
    obtain rfl : f₂ = f₃ := Option.some.inj h₃
    cases opened with
    | false => exact .same (isDuplicate_serverError s)
    | true =>
    refine ⟨trivial, fun ok f₃ h₃ => ?_⟩
    cases ok with
    | false =>
      obtain rfl : f₂ = f₃ := Option.some.inj h₃
      exact .same (isDuplicate_serverError s)
    | true =>
      have hfile : f₃ = (f₂.erase id).insert id (line s.user description) := by
        have h₃ := (Option.some.inj h₃).symm
        simp only [written, fileId_modify, cstr_of_notMem (Chunker.isHexToken_plain hhex).2, hcontent] at h₃
        exact h₃
      refine ⟨Or.inr ⟨id, hhex, Option.isNone_iff_eq_none.mp hnone, hfile, fun hne => ?_⟩, fun h => ?_⟩
      · exact hfree (by simpa using hnew) hne
      · exact absurd h (by rw [isDuplicate_created]; decide)
  · cases hid

/-- A POST without a second `/`. -/
theorem process_within {f : Files} {l : Request} (hf : Inv f) (hc : l.creates = true) (hclear : Clear f l) :
    within (next true) (fun _ _ => True) (process l.session) (Outcome f l.session.user l.description) f := by
  obtain ⟨hother, -, hlen, -⟩ := hclear hc
  obtain ⟨hmethod, hslash⟩ : l.session.method = str "POST" ∧ hasConfPath l.session.uri = false := by
    simpa [Request.creates, isCreate] using hc
  unfold process
  refine (within_ite _ _ _ _).mpr ⟨fun _ => .same (isDuplicate_authorizationFailure _), fun _ => ?_⟩
  refine (within_ite _ _ _ _).mpr ⟨fun _ => .same (isDuplicate_validationFailure _), fun _ => ?_⟩
  refine (within_ite _ _ _ _).mpr ⟨fun _ => .same (isDuplicate_validationFailure _), fun _ => ?_⟩
  refine (within_ite _ _ _ _).mpr ⟨fun _ => .same (isDuplicate_validationFailure _), fun _ => ?_⟩
  refine (within_ite _ _ _ _).mpr ⟨fun _ => .same (isDuplicate_authorizationFailure _), fun _ => ?_⟩
  show within _ _ (lookup l.session.uri l.session.method l.session.user >>= _) _ _
  rw [hmethod]
  have hfits : (confRest l.session.uri).length < chunkerReadSize := by
    rw [line_eq, List.length_append, List.length_cons] at hlen
    exact Nat.lt_of_le_of_lt (by rw [Request.description]; omega) hlen
  have hlookup := lookup_reads hf hslash l.nul hfits l.user.slash hother
  refine (within_bind _ _ _ _).mpr (within_mono (within_reads hlookup) fun r f' hr => ?_)
  obtain ⟨⟨t, rfl, ht, hrest⟩, rfl⟩ := hr
  have hdesc : newDescription t.confPathWithId = pure l.description := by
    rw [hrest, newDescription, Request.description, ← drop_root_rest]
    split
    · rename_i h
      rw [h]
      rfl
    · rename_i h
      exact substrFrom_of_le (List.length_pos_of_ne_nil h)
  have hcreate := create_within hf l.user ht hdesc fun h => l.nul (List.mem_of_mem_drop h)
  have hpost : post l.session t = create l.session t := by
    unfold post
    split
    · rfl
    · rename_i h
      have hnone : find (str "/") (t.confPathWithId.drop 1) = none := by
        rw [hrest, drop_root_rest]
        exact Option.not_isSome_iff_eq_none.mp (by simpa [hasConfPath, contains] using hslash)
      rw [substrFrom_of_le (List.length_pos_of_ne_nil h)]
      show (if (find (str "/") (t.confPathWithId.drop 1)).isNone = true then _ else _) = _
      rw [hnone]
      rfl
  show within _ _ (handle l.session l.session.uri l.session.method t) _ _
  rw [hmethod]
  unfold handle
  rw [if_neg (by decide), if_neg (by decide), if_neg (by decide), if_pos rfl, hpost]
  exact hcreate

/-! ## Every other request -/

/-- No file is new. -/
def Shrinks (f f' : Files) : Prop := ∀ id content, f'.find id = some content → f.find id = some content

theorem erase_shrinks (f : Files) (id : Str) : Shrinks f (f.erase id) := by
  intro id' content h
  rw [OrdMap.find_erase] at h
  split at h
  · cases h
  · exact h

theorem written_shrinks {f : Files} {c : Call} (hc : ∀ file content, c ≠ .fputs file content) (a : c.Answer) :
    Shrinks f (written f ⟨c, a⟩) := by
  unfold written
  split
  · rename_i heq
    cases heq
    exact absurd rfl (hc _ _)
  · split
    · exact erase_shrinks f _
    · exact fun _ _ h => h
  · exact fun _ _ h => h

/-- A request that does not create a session makes no file. -/
theorem other_within {f : Files} {l : Request} (hc : l.creates = false) :
    within (next false) (fun _ _ => True) (process l.session) (fun _ f' => Shrinks f f') f := by
  have hv : Vouched (fun _ _ => True) fun _ _ => True := ⟨fun _ _ => trivial, fun _ _ => trivial⟩
  have hwp := process_wp hv (fun _ _ => trivial) l.conf
  refine within_mono (within_of_wp (R := Shrinks) hwp (fun _ _ _ h => h) (fun h h' id c hid => h id c (h' id c hid))
    (fun _ _ _ => trivial) fun {f f' c a} hallowed hnext => ?_) fun _ _ => And.right
  have hfputs : ∀ file content, c ≠ .fputs file content := by
    rintro file content rfl
    rw [Request.creates] at hc
    exact absurd hallowed (by simp [Allowed, hc])
  unfold next at hnext
  split at hnext
  · cases hnext
    exact written_shrinks hfputs a
  · cases hnext

/-! ## Runs -/

theorem Inv.shrink {f f' : Files} (hf : Inv f) (h : Shrinks f f') : Inv f' where
  id hid := hf.id (h _ _ hid)
  whole hid := hf.whole (h _ _ hid)
  unique id₁ id₂ user description hu hd h₁ h₂ := hf.unique id₁ id₂ user description hu hd (h _ _ h₁) (h _ _ h₂)

theorem find_written (f : Files) (id id' content : Str) :
    ((f.erase id).insert id content).find id' = if id' = id then some content else f.find id' := by
  rw [OrdMap.find_insert, OrdMap.find_erase, OrdMap.find_erase, if_pos rfl, Option.getD_none]
  split <;> rfl

theorem Inv.created {f : Files} (hf : Inv f) {id user description : Str} (hid : Chunker.isHexToken id = true)
    (hwhole : Whole (line user description) user description) (hnew : description ≠ [] → ¬ Has f user description) :
    Inv ((f.erase id).insert id (line user description)) := by
  constructor
  · intro id' content h
    rw [find_written] at h
    split at h
    · rename_i e
      exact e ▸ hid
    · exact hf.id h
  · intro id' content h
    rw [find_written] at h
    split at h
    · cases h
      exact ⟨user, description, hwhole⟩
    · exact hf.whole h
  · intro id₁ id₂ u d hu hd h₁ h₂
    rw [find_written] at h₁ h₂
    -- the description is new, so no other session has it
    have hother : ∀ id', f.find id' = some (line u d) → line user description ≠ line u d := by
      intro id' hid' e
      obtain ⟨rfl, rfl⟩ := line_inj hwhole.user.slash hu e
      exact hnew hd ⟨id', hid'⟩
    split at h₁
    · rename_i e₁
      split at h₂
      · rename_i e₂
        rw [e₁, e₂]
      · exact absurd (Option.some.inj h₁) (hother id₂ h₂)
    · split at h₂
      · exact absurd (Option.some.inj h₂) (hother id₁ h₁)
      · exact hf.unique id₁ id₂ u d hu hd h₁ h₂

/-- The strict world gives no answers that the other does not give. -/
theorem answers_of_strict {f : Files} {x : Sigma Call.Answer} (h : answers true f x = true) : answers false f x = true := by
  unfold answers at h ⊢
  split
  · simp only at h ⊢
    split
    · rename_i hfind
      simp only [hfind, Bool.not_true, Bool.false_and, Bool.or_false] at h
      simp [h]
    · rename_i hfind
      simpa only [hfind] using h
  · rfl
  · exact h
  · exact h
  · rfl

theorem after_of_strict : ∀ (tr : List (Sigma Call.Answer)) {f f' : Files}, after (next true) f tr = some f' →
    after (next false) f tr = some f' := by
  intro tr
  induction tr with
  | nil => exact fun h => h
  | cons x tr ih =>
    intro f f' h
    obtain ⟨f₁, hx, hrest⟩ := Option.bind_eq_some_iff.mp h
    have hx' : next false f x = some f₁ := by
      unfold next at hx ⊢
      split at hx
      · rename_i ha
        rw [if_pos (answers_of_strict ha)]
        exact hx
      · cases hx
    exact Option.bind_eq_some_iff.mpr ⟨f₁, hx', ih hrest⟩

theorem step_inv {f f' : Files} {l : Request} (h : step f l = some f') : after (next false) f l.calls = some f' ∧
    ∃ s, l.answer = some s ∧ Exec (fun _ _ => True) (process l.session) l.calls (.ret s) := by
  unfold step at h
  split at h
  · rename_i hsome
    obtain ⟨s, hs⟩ := Option.isSome_iff_exists.mp hsome
    refine ⟨h, s, hs, ?_⟩
    unfold Request.answer at hs
    split at hs
    · rename_i hreplay
      cases hs
      exact exec_of_replay (fun _ _ => trivial) hreplay
    · cases hs
  · cases h

theorem create_outcome {f f' : Files} {l : Request} (hf : Inv f) (hclear : Clear f l) (hc : l.creates = true)
    (h : step f l = some f') : ∃ s, l.answer = some s ∧ Outcome f l.session.user l.description s f' := by
  obtain ⟨hafter, s, hs, hexec⟩ := step_inv h
  obtain ⟨-, -, -, hstrict⟩ := hclear hc
  obtain ⟨f'', hf''⟩ := Option.isSome_iff_exists.mp hstrict
  obtain rfl : f' = f'' := Option.some.inj (hafter.symm.trans (after_of_strict _ hf''))
  exact ⟨s, hs, hexec.within (process_within hf hc hclear) hf''⟩

theorem inv_step {f f' : Files} {l : Request} (hf : Inv f) (hclear : Clear f l) (h : step f l = some f') : Inv f' := by
  by_cases hc : l.creates = true
  · obtain ⟨s, -, hfiles, -⟩ := create_outcome hf hclear hc h
    rcases hfiles with rfl | ⟨id, hid, -, rfl, hnew⟩
    · exact hf
    · obtain ⟨-, hnewline, hlen, -⟩ := hclear hc
      exact hf.created hid ⟨rfl, l.user, hnewline, fun h => l.nul (List.mem_of_mem_drop h), hlen⟩ hnew
  · obtain ⟨hafter, s, -, hexec⟩ := step_inv h
    exact hf.shrink (hexec.within (other_within (by simpa using hc)) hafter)

theorem inv_empty : Inv OrdMap.empty := ⟨fun h => (nomatch h), fun h => (nomatch h), fun _ _ _ _ _ _ h => (nomatch h)⟩

/-- In every run of clear requests, no user has two sessions of one description, and no
    description is refused that the user does not have. -/
theorem descriptions_stay_unique {tr : List Request} {f : Files} (h : Run step Clear OrdMap.empty tr f) :
    Unique f ∧ Justified f := by
  have hf : Inv f := h.invariant inv_empty inv_step
  refine ⟨hf.unique, fun l s f' hclear hc hstep hs hdup => ?_⟩
  obtain ⟨s', hs', hout⟩ := create_outcome hf hclear hc hstep
  cases hs.symm.trans hs'
  exact hout.refused hdup

/-! ## Alice, bob and carol -/

/-- A POST with the text as its description. -/
def post (user text : Str) (calls : List (Sigma Call.Answer)) (hu : PlainUser user) (ht : (0 : UInt8) ∉ text) : Request where
  session := confSession (str "POST") (str "/rest/conf/" ++ text) user
  calls := calls
  conf := ⟨str "/" ++ text, rfl⟩
  nul := fun h => (List.mem_append.mp h).elim (by decide) ht
  user := hu

/-- The new session, and its file. -/
def newSession (id content : Str) : List (Sigma Call.Answer) :=
  [⟨.generateToken, id⟩, ⟨.configdOpen, true⟩, ⟨.configdSetSessionId (Configuration.convConfId id), ()⟩,
    ⟨.configdSessSetup, true⟩, ⟨.configdClose, ()⟩, ⟨.fopenWrite (vyattaModifyFile ++ id), true⟩,
    ⟨.fputs (vyattaModifyFile ++ id) content, true⟩]

def look (id : Str) (content : Option Str) : Sigma Call.Answer := ⟨.fgets (vyattaModifyFile ++ id), content.map some⟩

def listing (ids : List Str) : Sigma Call.Answer := ⟨.readdir configTmpDir, some (ids.map (str ".vyattamodify_" ++ ·))⟩

def id₁ : Str := str "0123456789ABCDEF"
def id₂ : Str := str "0123456789ABCDE0"
def id₃ : Str := str "0123456789ABCDE1"

def alice : Str := str "alice"
def bob : Str := str "bob"
def carol : Str := str "carol"

theorem alice_plain : PlainUser alice := ⟨by decide, by decide, by decide⟩

theorem bob_plain : PlainUser bob := ⟨by decide, by decide, by decide⟩

theorem carol_plain : PlainUser carol := ⟨by decide, by decide, by decide⟩

def bobTakesLan : Request :=
  post bob (str "lan") ([look (str "lan") none, listing []] ++ newSession id₁ (str "bob/lan")) bob_plain (by decide)

def bobTakesLanAgain : Request :=
  post bob (str "lan") [look (str "lan") none, listing [id₁], look id₁ (some (str "bob/lan"))] bob_plain (by decide)

/-- A clear request, decided. -/
def clear (f : Files) (l : Request) : Bool :=
  l.creates && ((f.find l.description).all fun content => (l.session.user ++ str "/").isPrefixOf content) &&
    decide ((10 : UInt8) ∉ l.description) && decide ((line l.session.user l.description).length < chunkerReadSize) &&
    (after (next true) f l.calls).isSome

theorem clear_of_check {f : Files} {l : Request} (h : clear f l = true) : Clear f l := by
  simp only [clear, Bool.and_eq_true, decide_eq_true_eq, Option.all_eq_true, List.isPrefixOf_iff_prefix] at h
  exact fun _ => ⟨h.1.1.1.2, h.1.1.2, h.1.2, h.2⟩

theorem a_description_in_use_is_refused : ∃ f, Run step Clear OrdMap.empty [bobTakesLan, bobTakesLanAgain] f ∧
    (∃ s, bobTakesLanAgain.answer = some s ∧ isDuplicate s = true) ∧ Unique f ∧ Justified f := by
  have hexec : ((execWhile step clear OrdMap.empty [bobTakesLan, bobTakesLanAgain]).any fun _ => true) = true := by
    decide
  obtain ⟨f, hrun, -⟩ := exists_run_of_exec clear_of_check hexec
  have hdup : (bobTakesLanAgain.answer.any isDuplicate) = true := by decide
  exact ⟨f, hrun, (Option.any_eq_true _ _).mp hdup, descriptions_stay_unique hrun⟩

/-- Alice's session has no description; bob takes its id for one, twice. -/
def takenTwice : List Request :=
  [post alice [] ([look [] none] ++ newSession id₁ (str "alice/")) alice_plain (by decide),
    post bob id₁ ([look id₁ (some (str "alice/")), listing [id₁], look id₁ (some (str "alice/"))] ++
      newSession id₂ (line bob id₁)) bob_plain (by decide),
    post bob id₁ ([look id₁ (some (str "alice/")), listing [id₁, id₂], look id₁ (some (str "alice/")),
      look id₂ (some (line bob id₁))] ++ newSession id₃ (line bob id₁)) bob_plain (by decide)]

/-- Alice takes it herself. -/
def takenByOwner : List Request :=
  [post alice [] ([look [] none] ++ newSession id₁ (str "alice/")) alice_plain (by decide),
    post alice id₁ ([look id₁ (some (str "alice/")), listing [id₁], look id₁ (some (str "alice/"))] ++
      newSession id₂ (line alice id₁)) alice_plain (by decide)]

def carolAsks : Request :=
  post carol id₁ [look id₁ (some (str "alice/")), listing [id₁, id₂], look id₁ (some (str "alice/")),
    look id₂ (some (line alice id₁))] carol_plain (by decide)

theorem an_id_as_description_is_taken_twice :
    (∃ f, Run step (fun _ _ => True) OrdMap.empty takenTwice f ∧ ¬ Unique f) ∧
      ∃ f f' s, Run step (fun _ _ => True) OrdMap.empty takenByOwner f ∧ step f carolAsks = some f' ∧
        carolAsks.creates = true ∧ carolAsks.answer = some s ∧ isDuplicate s = true ∧
        ¬ Has f carolAsks.session.user carolAsks.description := by
  constructor
  · have hexec : ((execWhile step (fun _ _ => true) OrdMap.empty takenTwice).any fun f =>
        f.find id₂ == some (line bob id₁) && f.find id₃ == some (line bob id₁)) = true := by decide
    obtain ⟨f, hrun, hf⟩ := exists_run_of_exec (fun {_ _} _ => trivial) hexec
    simp only [Bool.and_eq_true, beq_iff_eq] at hf
    refine ⟨f, hrun, fun hu => ?_⟩
    exact absurd (hu id₂ id₃ bob id₁ (by decide) (by decide) hf.1 hf.2) (by decide)
  · have hexec : ((execWhile step (fun _ _ => true) OrdMap.empty takenByOwner).any fun f =>
        (step f carolAsks).isSome && f.entries.all fun p => p.2 != line carol id₁) = true := by decide
    obtain ⟨f, hrun, hf⟩ := exists_run_of_exec (fun {_ _} _ => trivial) hexec
    obtain ⟨hstep, hnone⟩ := (Bool.and_eq_true _ _).mp hf
    obtain ⟨f', hf'⟩ := Option.isSome_iff_exists.mp hstep
    have hdup : (carolAsks.answer.any isDuplicate) = true := by decide
    obtain ⟨s, hs, hs'⟩ := (Option.any_eq_true _ _).mp hdup
    refine ⟨f, f', s, hrun, hf', by decide, hs, hs', fun hhas => ?_⟩
    obtain ⟨id, hid⟩ := hhas
    have hne := List.all_eq_true.mp hnone _ (OrdMap.mem_entries.mpr hid)
    exact absurd rfl (bne_iff_ne.mp hne)

end VyattaRest.Server.Descriptions
