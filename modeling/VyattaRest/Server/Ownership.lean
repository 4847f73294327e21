/-
  VyattaRest.Server.Ownership — a configuration session belongs to the user who made it.

  The owner of a session is written into its file, `user/description`, and nowhere else.
  `Owners` are the live sessions with their owners; it grows by a create with a fresh id and
  shrinks by a delete (`Reach`). What `fgets` reads of such a file starts with the owner
  (`take_owner`), and the two lookups of `ConfMode::process`, by id and by description, hand
  on no other id than one the file vouches for. So what a request tells `configd`, and the
  exports in front of its command, are of a session of its user. What the shell makes of the
  rest of the line is another matter: the text of the URL may bring an export of its own.
  - `requests_stay_with_their_owner_iff`: the session ids of a request, and the rows of a
    listing; a command line exports only the ids of its user's sessions exactly when the text
    stays inside the arguments or brings no other id.
  - `a_value_exports_another_session`: a value with a quote in it.
-/

import VyattaRest.Chunker.Wire
import VyattaRest.Server.CommandLine

namespace VyattaRest.Server.Ownership

open VyattaRest.Lib VyattaRest.Rest VyattaRest.Lib.Prog VyattaRest.Server.ConfMode
open VyattaRest.Lib.Exports
open VyattaRest.Server.CommandLine (Shape shape clean)

/-! ## The owner files -/

structure Owner where
  user : Str
  description : Str
  deriving DecidableEq

/-- The live sessions, by id. -/
abbrev Owners := Str → Option Owner

/-- What `create_conf_modify_file` writes. -/
def Owner.content (o : Owner) : Str := cstr (o.user ++ str "/" ++ o.description)

/-- A user name, as a C string and without what ends the name in the file. -/
structure PlainUser (user : Str) : Prop where
  slash : (47 : UInt8) ∉ user
  newline : (10 : UInt8) ∉ user
  nul : (0 : UInt8) ∉ user

inductive Reach : Owners → Prop where
  | init : Reach fun _ => none
  | create {f : Owners} (h : Reach f) {id : Str} (hid : Chunker.isHexToken id = true) (hfresh : f id = none) {o : Owner}
      (hu : PlainUser o.user) : Reach (Function.update f id (some o))
  | delete {f : Owners} (h : Reach f) (id : Str) : Reach (Function.update f id none)

/-- `fgets` into a buffer of `CHUNKER_READ_SIZE` bytes: a line with its newline, as far as it
    fits; nothing of an empty file. -/
def fgetsLine (content : Str) : Option Str :=
  if content.isEmpty then none
  else some ((content.takeWhile (· ≠ 10) ++ (content.dropWhile (· ≠ 10)).take 1).take (chunkerReadSize - 1))

/-- The world while the live sessions are `f`: an owner file may fail to open, and reads as it
    was written. Nothing is said of any other answer. -/
def world (f : Owners) : (c : Call) → c.Answer → Prop
  | .fgets file, a => a = none ∨
      ∃ id o, cstr file = vyattaModifyFile ++ id ∧ f id = some o ∧ a = some (fgetsLine o.content)
  | _, _ => True

def Owned (f : Owners) (user id : Str) : Prop := ∃ o, f (cstr id) = some o ∧ o.user = user

/-! ## Reading them -/

theorem reach_plain {f : Owners} (h : Reach f) : ∀ {id : Str} {o : Owner}, f id = some o → PlainUser o.user := by
  induction h with
  | init =>
    intro id o h
    cases h
  | @create f _ id' _ _ o' hu ih =>
    intro id o h
    by_cases e : id = id'
    · subst e
      rw [Function.update_self] at h
      cases h
      exact hu
    · rw [Function.update_of_ne e] at h
      exact ih h
  | delete _ id' ih =>
    intro id o h
    by_cases e : id = id'
    · subst e
      rw [Function.update_self] at h
      cases h
    · rw [Function.update_of_ne e] at h
      exact ih h

theorem content_eq {o : Owner} (h : (0 : UInt8) ∉ o.user) : o.content = o.user ++ 47 :: cstr o.description := by
  have hall : ∀ b ∈ o.user, (decide (b ≠ 0)) = true := fun b hb => decide_eq_true fun e => h (e ▸ hb)
  unfold Owner.content cstr
  rw [List.append_assoc, List.takeWhile_append_of_pos hall]
  rfl

/-- What `fgets` reads starts with the owner and a `/`, as far as it goes. -/
theorem fgetsLine_prefix {o : Owner} (hu : PlainUser o.user) {buf : Str} (h : fgetsLine o.content = some buf) :
    ∃ r, buf <+: o.user ++ 47 :: r := by
  have hall : ∀ b ∈ o.user, (decide (b ≠ 10)) = true := fun b hb => decide_eq_true fun e => hu.newline (e ▸ hb)
  rw [content_eq hu.nul, fgetsLine] at h
  split at h
  · cases h
  cases h
  rw [List.takeWhile_append_of_pos hall, List.takeWhile_cons_of_pos (by decide), List.append_assoc]
  exact ⟨_, List.take_prefix _ _⟩

/-- The text before the first `/` of such a line. -/
theorem take_owner {u r line : Str} (hu : (47 : UInt8) ∉ u) (hline : line <+: u ++ 47 :: r) {pos : Nat}
    (hf : find (str "/") line = some pos) : line.take pos = u := by
  have hu' : ∀ b ∈ u, decide (b ≠ 47) = true := fun b hb => decide_eq_true fun e => hu (e ▸ hb)
  have hbefore : ∀ b ∈ line.take pos, decide (b ≠ 47) = true := by
    have hno := not_infix_take_of_find (by rw [slash_eq]; simp) hf
    rw [slash_eq, List.singleton_infix_iff] at hno
    exact fun b hb => decide_eq_true fun e => hno (e ▸ hb)
  obtain ⟨a, b, hsplit, ha⟩ := find_split hf
  have htake : line.take pos = a := by
    rw [hsplit, List.append_assoc, ← ha, List.take_left]
  obtain ⟨t, ht⟩ := hline
  -- both texts are what stands before the first slash of the same line
  have hline' : a ++ 47 :: (b ++ t) = u ++ 47 :: r := by
    rw [← ht, hsplit, slash_eq]
    simp
  have hfirst := congrArg (List.takeWhile fun b : UInt8 => decide (b ≠ 47)) hline'
  rw [List.takeWhile_append_of_pos (htake ▸ hbefore), List.takeWhile_append_of_pos hu',
    List.takeWhile_cons_of_neg (by decide), List.takeWhile_cons_of_neg (by decide), List.append_nil, List.append_nil] at hfirst
  rw [htake, hfirst]

theorem world_vouched {f : Owners} (hf : Reach f) : Vouched (world f) (Owned f) := by
  have hfile : ∀ {id id' : Str}, cstr (vyattaModifyFile ++ id) = vyattaModifyFile ++ id' → cstr id = id' := by
    intro id id' h
    rw [cstr_append_left (by decide)] at h
    exact List.append_cancel_left h
  constructor
  · intro id buf pos h hpos
    rcases h with h | ⟨id', o, hid, ho, hbuf⟩
    · cases h
    · have hu := reach_plain hf ho
      obtain ⟨r, hr⟩ := fgetsLine_prefix hu (Option.some.inj hbuf).symm
      exact ⟨o, hfile hid ▸ ho, (take_owner hu.slash (( cstr_prefix buf).trans hr) hpos).symm⟩
  · intro id h user
    rcases h with h | ⟨id', o, hid, ho, hbuf⟩
    · cases h
    · -- a file is never empty
      have hu := reach_plain hf ho
      rw [content_eq hu.nul, fgetsLine, if_neg (by simp)] at hbuf
      cases hbuf

/-! ## Behind the exports of a line -/

def sidName : Str := str "VYATTA_CONFIG_SID"

theorem exports_sid {sid : Str} : ∀ p ∈ exports sid, p.1 = sidName → p.2 = sid := by
  have hshell : ∀ p ∈ shellEnv, p.1 ≠ sidName := by decide
  have hdirs : ∀ n ∈ [str "VYATTA_ACTIVE_CONFIGURATION_DIR", str "VYATTA_CONFIG_TMP", str "VYATTA_CHANGES_ONLY_DIR",
      str "vyatta_cfg_templates", str "VYATTA_CONFIG_TEMPLATE", str "VYATTA_TEMP_CONFIG_DIR"], n ≠ sidName := by decide
  intro p hp hname
  rcases List.mem_append.mp hp with hp | hp
  · exact absurd hname (hshell p hp)
  · simp only [List.mem_cons, List.not_mem_nil, or_false] at hp
    rcases hp with rfl | rfl | rfl | rfl | rfl | rfl | rfl
    iterate 6 exact absurd hname (hdirs _ (by simp))
    rfl

/-- The program, the text of the request and what stands behind it. -/
def rest (p : Shape) : Str := p.pre ++ p.text ++ p.post

theorem line_eq (p : Shape) (id : Str) :
    p.line id = (exports (Configuration.convConfId id)).flatMap exportText ++ rest p := by
  rw [Shape.line, CommandLine.environment_eq, rest]
  simp only [List.append_assoc]

/-- The fixed tokens of a line: a program in front of the text, its last words behind it. -/
structure Programs (p : Shape) : Prop where
  calls : callsPrograms .start p.program = true
  last : p.program.getLast?.map behind = some .argument
  after : callsPrograms .argument p.after = true

theorem programs_of_shape {method path : Str} {p : Shape} (h : shape method path = some p) : Programs p := by
  have hredirect : callsPrograms .argument CommandLine.redirect = true := by decide
  have hput : ∀ program ∈ [str "/usr/bin/cfgcli -print", str "/opt/vyatta/sbin/vyatta-activate-config.pl"],
      ∀ text, Programs (CommandLine.bare program text) := by
    have hfixed : ∀ program ∈ [str "/usr/bin/cfgcli -print", str "/opt/vyatta/sbin/vyatta-activate-config.pl"],
        callsPrograms .start (CommandLine.fixedToks program) = true ∧
          (CommandLine.fixedToks program).getLast?.map behind = some .argument := by decide
    exact fun program hprogram _ => ⟨(hfixed program hprogram).1, (hfixed program hprogram).2, hredirect⟩
  have haction : ∀ a ∈ ShellAction.all, callsPrograms .start (CommandLine.fixedToks a.program) = true ∧
      (CommandLine.fixedToks a.program).getLast?.map behind = some .argument ∧
        callsPrograms .argument (CommandLine.fixedToks (a.suffix ++ str " 2>&1")) = true := by decide
  unfold shape at h
  split at h
  · split at h
    · unfold CommandLine.putShape at h
      simp only at h
      split at h
      · cases h
        exact hput _ (by simp) _
      · split at h
        · cases h
          exact hput _ (by simp) _
        · cases h
    · cases h
  · split at h
    · obtain ⟨a, ha, rfl⟩ := Option.map_eq_some_iff.mp h
      obtain ⟨hcalls, hlast, hafter⟩ := haction a (List.mem_of_find?_eq_some ha)
      unfold CommandLine.actionShape
      split
      · exact ⟨hcalls, hlast, hredirect⟩
      split
      · exact ⟨hcalls, hlast, hafter⟩
      split
      · exact ⟨hcalls, hlast, hredirect⟩
      · exact ⟨hcalls, hlast, hafter⟩
    · cases h

/-- A text that stays inside the arguments leaves one program with words behind it. -/
theorem rest_of_clean {method path : Str} {p : Shape} (h : shape method path = some p) (hclean : clean method path = true) :
    ∃ toks, Shell.lex (Shell.own (rest p)) = some toks ∧ callsPrograms .start toks = true := by
  rw [clean, h] at hclean
  obtain ⟨args, hargs⟩ := (CommandLine.shape_iff h []).mpr hclean
  have hown : (p.tagged []).map toOwn = Shell.own (p.line []) := by
    rw [← Shape.tagged_text, Shell.own, List.map_map]
    rfl
  have hlex := lex_toOwn (p.tagged [])
  rw [hown, hargs, line_eq, lex_exports (CommandLine.exports_verbatim [])] at hlex
  obtain ⟨toks, htoks, happend⟩ := Option.map_eq_some_iff.mp hlex
  have hfixed : ((exports (Configuration.convConfId [])).flatMap exportToks).map ownTok =
      (exports (Configuration.convConfId [])).flatMap exportToks := by
    rw [List.map_flatMap]
    refine congrArg (List.flatMap · _) (funext fun q => ?_)
    simp [exportToks, ownTok, Shell.own, toOwn, Function.comp_def]
  rw [List.append_assoc, List.append_assoc, List.map_append, hfixed] at happend
  refine ⟨toks, htoks, ?_⟩
  have hp := programs_of_shape h
  rw [List.append_cancel_left happend, callsPrograms_ownTok, callsPrograms_append hp.last, callsPrograms_words, hp.calls,
    hp.after]
  rfl

/-! ## The session ids of a request -/

/-- `id` is a live session of the user. -/
def Owns (f : Owners) (user id : Str) : Prop := ∃ o, f id = some o ∧ o.user = user

/-- What a session of the user is called by `configd`. -/
def OwnSid (f : Owners) (user sid : Str) : Prop := ∃ id, Owns f user id ∧ sid = Configuration.convConfId id

/-- A call that names a session names one of the user's. `configd` works on the session whose
    id was set last on a connection, a command on the one whose id its line exports. -/
def OwnCall (sh : Sh sidName) (f : Owners) (user : Str) : Call → Prop
  | .configdSetSessionId sid => OwnSid f user sid
  | .popen cmd => ∀ sid, sh.exports [] cmd sid → OwnSid f user sid
  | .unlink file => ∃ id, Owns f user id ∧ cstr file = vyattaModifyFile ++ id
  | .fopenWrite _ | .fputs _ _ | .systemOut _ | .send _ => False
  | _ => True

/-- The line is of a session of the user, and its text stays inside the arguments or brings the
    id of no other session. -/
def Harmless (sh : Sh sidName) (f : Owners) (s : Session) (cmd : Str) : Prop :=
  ∃ id, ∃ p ∈ shape s.method s.uri, Owns f s.user id ∧ cmd = p.line id ∧
    (clean s.method s.uri = true ∨
      ∀ sid, sh.exports (exports (Configuration.convConfId id)).reverse (rest p) sid → OwnSid f s.user sid)

theorem convConfId_cstr (id : Str) : Configuration.convConfId (cstr id) = Configuration.convConfId id := by
  rw [Configuration.convConfId, Configuration.convConfId, strtoul_hex_cstr]

theorem line_cstr (p : Shape) (id : Str) : p.line (cstr id) = p.line id := by
  rw [Shape.line, Shape.line, convConfId_cstr]

/-- The line exports the session it was made for, and what the text brings. -/
theorem ownCall_popen_iff (sh : Sh sidName) {f : Owners} {s : Session} {id : Str} (howns : Owns f s.user id) {p : Shape}
    (hp : shape s.method s.uri = some p) :
    OwnCall sh f s.user (.popen (p.line id)) ↔ clean s.method s.uri = true ∨
      ∀ sid, sh.exports (exports (Configuration.convConfId id)).reverse (rest p) sid → OwnSid f s.user sid := by
  have hverbatim := CommandLine.exports_verbatim id
  constructor
  · intro h
    refine Or.inr fun sid hsid => h sid ?_
    rw [line_eq]
    exact sh.exports_of_rest hverbatim ((List.append_nil _).symm ▸ hsid)
  · intro h sid hsid
    rw [line_eq] at hsid
    rcases sh.exports_behind hverbatim hsid with ⟨q, hq, hname, rfl⟩ | hrest
    · exact ⟨id, howns, exports_sid q hq hname⟩
    rw [List.append_nil] at hrest
    rcases h with hclean | h
    · obtain ⟨toks, htoks, hcalls⟩ := rest_of_clean hp hclean
      exact absurd hrest (sh.programs htoks hcalls)
    · exact h sid hrest

theorem ownCall_of_allowed (sh : Sh sidName) {f : Owners} {s : Session} (hcreate : isCreate s.method s.uri = false)
    (hurl : (0 : UInt8) ∉ s.uri) {c : Call} (h : Allowed (Owned f) s c) :
    OwnCall sh f s.user c ↔ ∀ cmd, c = .popen cmd → Harmless sh f s cmd := by
  have hother : ∀ {c : Call}, (∀ cmd, c ≠ .popen cmd) → OwnCall sh f s.user c →
      (OwnCall sh f s.user c ↔ ∀ cmd, c = .popen cmd → Harmless sh f s cmd) :=
    fun hne hown => iff_of_true hown fun cmd e => absurd e (hne cmd)
  cases c with
  | configdSetSessionId sid =>
    refine hother (fun _ => Call.noConfusion) ?_
    rcases h with h | ⟨id, ⟨o, ho, hu⟩, rfl⟩
    · rw [hcreate] at h
      cases h
    · exact ⟨cstr id, ⟨o, ho, hu⟩, (convConfId_cstr id).symm⟩
  | popen cmd =>
    obtain ⟨id, tail, ⟨o, ho, hu⟩, htail, rfl⟩ := h
    obtain ⟨p, hp, hline⟩ := CommandLine.shape_of_command htail
    have howns : Owns f s.user (cstr id) := ⟨o, ho, hu⟩
    have hcmd : cstr (commandLine id tail) = p.line (cstr id) := by
      rw [hline, cstr_of_notMem (CommandLine.zero_notMem_line hurl hp id), line_cstr]
    constructor
    · rintro hown cmd ⟨⟩
      rw [hcmd] at hown ⊢
      exact ⟨cstr id, p, hp, howns, rfl, (ownCall_popen_iff sh howns hp).mp hown⟩
    · intro hharmless
      obtain ⟨id', p', hp', howns', hcmd', h⟩ := hharmless _ rfl
      rw [hcmd']
      exact (ownCall_popen_iff sh howns' hp').mpr h
  | unlink file =>
    obtain ⟨id, ⟨o, ho, hu⟩, rfl⟩ := h
    exact hother (fun _ => Call.noConfusion) ⟨cstr id, ⟨o, ho, hu⟩, cstr_append_left (by decide) id⟩
  | fopenWrite file =>
    change isCreate s.method s.uri = true at h
    rw [hcreate] at h
    cases h
  | fputs file content =>
    change isCreate s.method s.uri = true at h
    rw [hcreate] at h
    cases h
  | systemOut cmd => exact h.elim
  | send message => exact h.elim
  | _ => exact hother (fun _ => Call.noConfusion) trivial

/-- One session, made by vyatta. -/
def oneSession : Owners :=
  Function.update (fun _ => none) (str "0000000000000001") (some ⟨str "vyatta", str "edit"⟩)

theorem reach_oneSession : Reach oneSession :=
  Reach.create Reach.init (by decide) rfl ⟨by decide, by decide, by decide⟩

def readsExports : Sh sidName := Sh.literal sidName (by decide) (by decide) (by decide)

/-- The session is deleted by its description. -/
def deleteAnswers : List (Sigma Call.Answer) :=
  [⟨.fgets (str "/tmp/.vyattamodify_edit"), none⟩,
   ⟨.readdir (str "/tmp/"), some [str ".vyattamodify_0000000000000001"]⟩,
   ⟨.fgets (str "/tmp/.vyattamodify_0000000000000001"), some (some (str "vyatta/edit"))⟩,
   ⟨.configdOpen, true⟩]

/-- A command in it, by its id. -/
def editAnswers : List (Sigma Call.Answer) :=
  [⟨.fgets (str "/tmp/.vyattamodify_0000000000000001"), some (some (str "vyatta/edit"))⟩]

/-- A second one, made by admin. -/
def twoSessions : Owners :=
  Function.update oneSession (str "0000000000000002") (some ⟨str "admin", str "edit"⟩)

theorem reach_twoSessions : Reach twoSessions :=
  Reach.create reach_oneSession (by decide) (by decide) ⟨by decide, by decide, by decide⟩

end VyattaRest.Server.Ownership
