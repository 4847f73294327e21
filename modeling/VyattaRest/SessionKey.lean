/-
  VyattaRest.SessionKey — the login library and the server: `gen_key` and `get_key`
  (SessionKey.pm) store a session, `AuthSession::authorized` (authsession.cc) looks it up.

  The two sides agree on a line `key,user,time,address,level`, on nothing else: `get_key`
  leaves a blank line behind each record it copies, the server reads 1023 bytes at a time and
  compares sixteen bytes of what it is shown with the whole first field. `gen_key` writes an
  octet with two digits, but takes the parts of any address for octets: `2001:db8::1` gives
  the octet 2001 and a key of seventeen digits, which stays in the file and is refused for ever.
  - `usable_iff`: a key stands for the user of the last buffer that holds it in time.
  - `reads_record`: what the server makes of a record, however long.
  - `stored_session_works_iff`: when a stored session and the others in the file work.
  - `a_v4_session_works` and `a_v6_session_is_refused`: one of each kind.
-/

import VyattaRest.Lib.Lines
import VyattaRest.Lib.Decimal
import VyattaRest.Server.Auth

namespace VyattaRest.SessionKey

open VyattaRest.Lib VyattaRest.Rest VyattaRest.Server

/-! ## The login library -/

/-- Perl's `split` at one byte: empty fields at the end go. -/
def perlSplit (c : UInt8) (s : Str) : List Str := ((s.splitOn c).reverse.dropWhile (· = [])).reverse

/-- A part of an address taken as a number: its leading digits, with an exponent if there is
    one (`1e5` is a part of an address), at most what an unsigned integer holds. -/
def numify (s : Str) : Nat :=
  let v := scanDigits 10 s 0
  match s.dropWhile isDigit with
  | e :: r => if (e = 69 ∨ e = 101) ∧ r.takeWhile isDigit ≠ [] then min (v * 10 ^ scanDigits 10 r 0) (2 ^ 64 - 1)
      else min v (2 ^ 64 - 1)
  | [] => min v (2 ^ 64 - 1)

/-- `%02X`. -/
def hex2 (n : Nat) : Str :=
  let digits := (Nat.toDigits 16 n).map fun c => c.toUpper.toNat.toUInt8
  if n < 16 then 48 :: digits else digits

/-- `$octets[0]` to `$octets[3]`; one that is not there counts as zero. -/
def octets (srcIp : Str) : List Nat := (List.range 4).map fun i => numify ((perlSplit 46 srcIp).getD i [])

/-- The digits of the octets and of four drawn bytes. -/
def drawnKey (srcIp string : Str) : Str := (octets srcIp ++ (string.take 4).map UInt8.toNat).flatMap hex2

/-- `string` is the line read from /dev/urandom. `none` is `exit(1)`. -/
def genKey (srcIp string : Str) : Option Str := if string.length < 4 then none else some (drawnKey srcIp string)

/-- A line of the session file, without its newline. -/
def recordBody (key user : Str) (time : Nat) (address level : Str) : Str :=
  key ++ 44 :: (user ++ 44 :: (dec time ++ 44 :: (address ++ 44 :: level)))

def recordText (key user : Str) (time : Nat) (address level : Str) : Str := recordBody key user time address level ++ [10]

/-- One round of the loop over the session file, on the key found so far and the text of the
    temporary file. -/
def keyRound (name accessLevel srcIp : Str) (epochseconds : Nat) (st : Option Str × Str) (line : Str) : Option Str × Str :=
  match perlSplit 44 line with
  | [f0, f1, _, f3, _] =>
    if name = f1 ∧ srcIp = f3 then (some f0, st.2 ++ recordText f0 name epochseconds srcIp accessLevel)
    else (st.1, st.2 ++ (line ++ [10]))
  | _ => st

/-- `get_key` once it has the lock: the key it reports and the session file it leaves, or an
    exit without either. -/
def getKey (name accessLevel srcIp string : Str) (epochseconds : Nat) (file : Str) : Option (Str × Str) :=
  if name = [] ∨ srcIp = [] then none
  else match (lines 10 file).foldl (keyRound name accessLevel srcIp epochseconds) (none, []) with
    | (some key, tmp) => some (key, tmp)
    | (none, tmp) =>
      match genKey srcIp string with
      | none => none
      | some key => some (key, tmp ++ recordText key name epochseconds srcIp accessLevel)

/-! ## The session file -/

/-- Bytes with no meaning for either side, and none that ends a C string. -/
def Field (s : Str) : Prop := ∀ b ∈ s, b ≠ 44 ∧ b ≠ 9 ∧ b ≠ 10 ∧ b ≠ 126 ∧ b ≠ 0

instance (s : Str) : Decidable (Field s) := by unfold Field; infer_instance

/-- What `fgets(buf, 1024, fp)` reads at most. -/
def bufferSize : Nat := 1023

/-- An IPv4 or IPv6 address as text, as far as the two sides look at it. -/
structure Address (s : Str) : Prop where
  ne : s ≠ []
  bytes : ∀ b ∈ s, isHex b = true ∨ b = 58 ∨ b = 46
  leading : (s.takeWhile isDigit).length ≤ 4

/-- A well-formed record: a key that `gen_key` can have made, and one buffer, or what `get_key`
    writes for a user with a long name. -/
structure Record where
  key : Str
  user : Str
  time : Nat
  address : Str
  level : Str
  key_ge : 16 ≤ key.length
  key_lt : key.length < bufferSize
  key_hex : ∀ b ∈ key, isHex b = true
  user_ne : user ≠ []
  user_field : Field user
  time_lt : time < 2 ^ 63
  address_ne : address ≠ []
  address_field : Field address
  level_field : Field level
  tame : (recordBody key user time address level).length < bufferSize ∨
    (Address address ∧ 12000 ≤ time ∧ time < 10 ^ 15)

/-- `get_key` leaves blank lines. -/
inductive Line where
  | blank
  | record (r : Record)

def Record.body (r : Record) : Str := recordBody r.key r.user r.time r.address r.level

def Line.text : Line → Str
  | blank => [10]
  | record r => r.body ++ [10]

def fileText (file : List Line) : Str := (file.map Line.text).flatten

def records (file : List Line) : List Record := file.filterMap fun
  | .blank => none
  | .record r => some r

/-- Not timed out. -/
def Record.live (r : Record) (now : Nat) : Prop := now < r.time + sessionTimeout

/-- A record of more than one buffer is not from the future. -/
def Record.past (r : Record) (now : Nat) : Prop := r.body.length < bufferSize ∨ r.time ≤ now

/-- The records `get_key` takes for the session of a user at an address. -/
def Record.isOf (r : Record) (name srcIp : Str) : Prop := name = r.user ∧ srcIp = r.address

/-! ## The server -/

/-- The machine that a session is presented to: the file and the time are as given, and the
    lock, the account, the group and the id calls and the writes succeed. -/
def machine (file : Str) (now : Nat) : (c : Call) → c.Answer → Prop
  | .lock, a => a = true
  | .gettimeofday, a => a = now
  | .sessionLines, a => a = reads 10 bufferSize file
  | .fputsSession _, a => a = true
  | .getpwnam _, a => a.isSome = true
  | .getgrouplist _ _, a => a.isSome = true
  | .setloginuid _, a => a = true
  | .setgroups _, a => a = true
  | .setegid _, a => a = true
  | .seteuid _, a => a = true
  | _, _ => True

/-- Whoever shows `val` is let in as `user`. -/
def Accepted (file : Str) (now : Nat) (val user : Str) : Prop :=
  ∀ s, Prog.wp (machine file now) (fun _ => True) False (AuthSession.authorized val s) fun r => r.1 = true ∧ r.2.user = user

/-- The key works, in the header and as a cookie. -/
def Usable (file : Str) (now : Nat) (key user : Str) : Prop :=
  Accepted file now (authVyattaSession ++ 32 :: key) user ∧ Accepted file now (authVyattaPathLoc ++ 61 :: key) user

/-! ## Who a key stands for -/

/-- The fields the server finds in a buffer. -/
def bufferFields (buf : Str) : List Str := strProc (cstr buf) (str ",")

/-- The server passes over these fields: timed out, or of another key. -/
def Ignored (auth : Str) (now : Nat) (fields : List Str) : Prop :=
  addSz (strtoul 10 (StrProc.get fields 2)) sessionTimeout ≤ now ∨ StrProc.get fields 0 ≠ auth

instance (auth : Str) (now : Nat) (fields : List Str) : Decidable (Ignored auth now fields) := by
  unfold Ignored; infer_instance

/-- The last buffer with the key that has not timed out decides. -/
def holderStep (auth : Str) (now : Nat) (u : Option Str) (buf : Str) : Option Str :=
  if Ignored auth now (bufferFields buf) then u else some (StrProc.get (bufferFields buf) 1)

def holder (auth : Str) (now : Nat) (file : Str) : Option Str := (reads 10 bufferSize file).foldl (holderStep auth now) none

theorem holderStep_ignored {auth : Str} {now : Nat} (u : Option Str) {buf : Str} (h : Ignored auth now (bufferFields buf)) :
    holderStep auth now u buf = u := if_pos h

theorem holderStep_taken {auth : Str} {now : Nat} (u : Option Str) {buf : Str} (h : ¬ Ignored auth now (bufferFields buf)) :
    holderStep auth now u buf = some (StrProc.get (bufferFields buf) 1) := if_neg h

theorem matched_user (fields : List Str) (s : Session) : (AuthSession.matched fields s).user = StrProc.get fields 1 := by
  unfold AuthSession.matched
  simp only
  split <;> rfl

/-- What the loop of the server knows of the holder, and that it has his account. -/
def Tracks (st : AuthSession.Scan) : Option Str → Prop
  | some u => st.found = true ∧ st.session.user = u ∧ (st.session.serviceUser = true ∨ st.pw ≠ none)
  | none => st.found = false

section Server

variable {file : Str} {now : Nat}

theorem checkGroups_keeps : ∀ (gs : List Nat) (s : Session) (primary : Nat),
    Prog.wp (machine file now) (fun _ => True) False (checkGroups gs s primary) fun r =>
      r.1.user = s.user ∧ r.1.serviceUser = s.serviceUser := by
  intro gs
  induction gs with
  | nil => exact fun _ _ => ⟨rfl, rfl⟩
  | cons g gs ih =>
    intro s primary
    rw [checkGroups, wp_then]
    refine ⟨trivial, fun gr _ => ?_⟩
    cases gr with
    | none => exact ih s primary
    | some gr =>
      simp only
      split
      · exact ih { s with accessLevel := .vyattaCfg } gr.gid
      · exact ih s primary

theorem account_found (st : AuthSession.Scan) :
    Prog.wp (machine file now) (fun _ => True) False (AuthSession.account st) fun r =>
      ∃ st', r = (some st', st'.session) ∧ st'.session.user = st.session.user ∧ st'.pw ≠ none := by
  rw [AuthSession.account, wp_then]
  refine ⟨trivial, fun pw hpw => ?_⟩
  obtain ⟨pw, rfl⟩ := Option.isSome_iff_exists.mp hpw
  simp only
  rw [wp_then]
  refine ⟨trivial, fun groups hgroups => ?_⟩
  obtain ⟨groups, rfl⟩ := Option.isSome_iff_exists.mp hgroups
  simp only
  rw [Prog.wp_bind]
  refine Prog.wp_mono (checkGroups_keeps groups st.session pw.gid) fun r hr => ?_
  exact ⟨_, rfl, hr.1, by simp⟩

theorem scan_tracks (auth : Str) : ∀ (buffers : List Str) {st : AuthSession.Scan} {u : Option Str}, Tracks st u →
    Prog.wp (machine file now) (fun _ => True) False (AuthSession.scan auth now buffers st) fun r =>
      ∃ st', r = .inr st' ∧ Tracks st' (buffers.foldl (holderStep auth now) u) := by
  intro buffers
  induction buffers with
  | nil => exact fun h => ⟨_, rfl, h⟩
  | cons buf buffers ih =>
    intro st u h
    unfold AuthSession.scan
    rw [List.foldl_cons]
    refine (Prog.wp_ite _ _ _).mpr ⟨fun htime => ?_, fun htime => (Prog.wp_ite _ _ _).mpr ⟨fun hkey => ?_, fun hkey => ?_⟩⟩
    · rw [holderStep_ignored u (Or.inl htime)]
      exact ih h
    · rw [holderStep_ignored u (Or.inr hkey), wp_then]
      refine ⟨trivial, fun a ha => ?_⟩
      cases ha
      exact ih h
    · rw [holderStep_taken u (not_or.mpr ⟨htime, hkey⟩), Prog.wp_bind]
      generalize hm : AuthSession.matched (strProc (cstr buf) (str ",")) st.session = m
      have huser : m.user = StrProc.get (bufferFields buf) 1 := by
        rw [← hm]
        exact matched_user _ _
      refine Prog.wp_mono (Q := fun r => ∃ st', r = (some st', st'.session) ∧ st'.session.user = m.user ∧
        (st'.session.serviceUser = true ∨ st'.pw ≠ none)) ?_ fun r hr => ?_
      · refine (Prog.wp_ite _ _ _).mpr ⟨fun hs => ⟨_, rfl, rfl, Or.inl hs⟩, fun _ => ?_⟩
        refine Prog.wp_mono (account_found _) fun r hr => ?_
        obtain ⟨st', rfl, hu, hpw⟩ := hr
        exact ⟨st', rfl, hu, Or.inr hpw⟩
      · obtain ⟨st', rfl, hu, hpw⟩ := hr
        refine ⟨trivial, fun a ha => ?_⟩
        cases ha
        exact ih ⟨rfl, hu.trans huser, hpw⟩

theorem become_succeeds (pw : Passwd) (groups : List Nat) :
    Prog.wp (machine file now) (fun _ => True) False (AuthSession.become pw groups) fun r => r = true := by
  refine ⟨trivial, fun a ha => ?_⟩
  cases ha
  refine ⟨trivial, fun a ha => ?_⟩
  cases ha
  refine ⟨trivial, fun a ha => ?_⟩
  cases ha
  exact ⟨trivial, fun a ha => ha⟩

/-- What the server says of a key: it has a holder, and the session is his, or it has none. -/
def Verdict (u : Option Str) (r : Bool × Session) : Prop :=
  match u with
  | some u => r.1 = true ∧ r.2.user = u
  | none => r.1 = false

theorem underLock_verdict (auth : Str) (s : Session) :
    Prog.wp (machine file now) (fun _ => True) False (AuthSession.underLock auth s) (Verdict (holder auth now file)) := by
  rw [AuthSession.underLock, wp_then]
  refine ⟨trivial, fun a ha => ?_⟩
  cases ha
  rw [wp_then]
  refine ⟨trivial, fun buffers hb => ?_⟩
  cases hb
  have hnone : Tracks { session := s, found := false, pw := none, groups := [] } none := rfl
  refine (Prog.wp_bind _ _ _).mpr (Prog.wp_mono (scan_tracks auth _ hnone) fun r hr => ?_)
  obtain ⟨st, rfl, hst⟩ := hr
  change Tracks st (holder auth now file) at hst
  rcases hu : holder auth now file with _ | u
  · rw [hu] at hst
    have hf : st.found = false := hst
    simp [hf, Verdict]
  · rw [hu] at hst
    obtain ⟨hf, huser, hpw⟩ := hst
    refine (Prog.wp_ite _ _ _).mpr ⟨fun hcond => ?_, fun hcond => ⟨hf, huser⟩⟩
    have hs : st.session.serviceUser ≠ true := by
      intro h
      simp [h] at hcond
    obtain ⟨pw, hp⟩ := Option.ne_none_iff_exists'.mp (hpw.resolve_left hs)
    simp only [hp]
    refine (Prog.wp_bind _ _ _).mpr (Prog.wp_mono (become_succeeds pw st.groups) fun b hb => ?_)
    exact ⟨hb, huser⟩

theorem authorized_verdict (file : Str) (now : Nat) {val key auth : Str} (hlen : 17 ≤ val.length)
    (hk : AuthSession.keyAfter val authVyattaPathLoc = pure key) (ha : AuthSession.keyAfter val authVyattaSession = pure auth)
    (hne : auth ≠ [] ∨ key ≠ []) (s : Session) :
    Prog.wp (machine file now) (fun _ => True) False (AuthSession.authorized val s)
      (Verdict (holder (if auth.isEmpty then key else auth) now file)) := by
  have h₁ : authVyattaSession.length = 14 := by decide
  have h₂ : authVyattaPathLoc.length = 16 := by decide
  have hempty : ¬ (auth.isEmpty && key.isEmpty) = true := by
    rcases hne with h | h <;> simp [h]
  rw [AuthSession.authorized, if_neg (by rw [h₁, h₂]; omega), hk, Prog.ret_bind, ha, Prog.ret_bind, if_neg hempty, wp_then]
  refine ⟨trivial, fun a hlock => ?_⟩
  cases hlock
  rw [if_pos rfl]
  exact (Prog.wp_bind _ _ _).mpr (Prog.wp_mono (underLock_verdict _ s) fun r hr => ⟨trivial, fun _ _ => hr⟩)

theorem keyAfter_at_start {marker rest : Str} (sep : UInt8) (h : marker ≠ []) :
    AuthSession.keyAfter (marker ++ sep :: rest) marker = pure (rest.take 16) := by
  have hfind : find marker (marker ++ sep :: rest) = some 0 := by
    obtain ⟨c, p, rfl⟩ := List.exists_cons_of_ne_nil h
    have hpre : (c :: p).isPrefixOf (c :: (p ++ sep :: rest)) = true := List.isPrefixOf_iff_prefix.mpr (by simp)
    rw [List.cons_append, find]
    simp [hpre]
  have hle : 0 + marker.length + 1 ≤ (marker ++ sep :: rest).length := by simp
  rw [AuthSession.keyAfter, hfind]
  simp only
  rw [substrAt_of_le 16 hle, substr]
  congr 2
  simp [List.drop_append]

theorem keyAfter_absent {marker val : Str} {c : UInt8} (h : Tag marker c) (hc : c ∉ val) :
    AuthSession.keyAfter val marker = pure [] := by
  rw [AuthSession.keyAfter, find_none_of_notMem h hc]

/-- The two ways to show a key. -/
theorem shown_verdict (file : Str) (now : Nat) {key : Str} (hhex : ∀ b ∈ key, isHex b = true) (hlen : 2 ≤ key.length) {val : Str}
    (hval : val = authVyattaSession ++ 32 :: key ∨ val = authVyattaPathLoc ++ 61 :: key) (s : Session) :
    Prog.wp (machine file now) (fun _ => True) False (AuthSession.authorized val s)
      (Verdict (holder (key.take 16) now file)) := by
  have h₁ : authVyattaSession.length = 14 := by decide
  have h₂ : authVyattaPathLoc.length = 16 := by decide
  have hne : key.take 16 ≠ [] := by
    intro h
    have := congrArg List.length h
    rw [List.length_take, List.length_nil] at this
    omega
  have habsent : ∀ c : UInt8, isHex c = false → c ∉ key := by
    intro c hc hm
    rw [hhex c hm] at hc
    cases hc
  have hV : (86 : UInt8) ∉ key := habsent 86 (by decide)
  have hv : (118 : UInt8) ∉ key := habsent 118 (by decide)
  rcases hval with rfl | rfl
  · have hk : AuthSession.keyAfter (authVyattaSession ++ 32 :: key) authVyattaPathLoc = pure [] := by
      refine keyAfter_absent (c := 118) ⟨str "yatta2_path_loc", by decide, by decide⟩ ?_
      rw [List.mem_append, List.mem_cons, not_or, not_or]
      exact ⟨by decide, by decide, hv⟩
    have h := authorized_verdict file now (by simp [h₁]; omega) hk
      (keyAfter_at_start 32 (by decide)) (Or.inl hne) s
    rwa [if_neg (by simpa using hne)] at h
  · have ha : AuthSession.keyAfter (authVyattaPathLoc ++ 61 :: key) authVyattaSession = pure [] := by
      refine keyAfter_absent (c := 86) ⟨str "yatta-Session", by decide, by decide⟩ ?_
      rw [List.mem_append, List.mem_cons, not_or, not_or]
      exact ⟨by decide, by decide, hV⟩
    have h := authorized_verdict file now (by simp [h₂]; omega) (keyAfter_at_start 61 (by decide)) ha
      (Or.inr hne) s
    exact h

theorem machine_answers (c : Call) : ∃ a, machine file now c a := by
  cases c with
  | getpwnam user => exact ⟨some ⟨0, 0⟩, rfl⟩
  | getgrouplist user gid => exact ⟨some [], rfl⟩
  | configdNodeGetType path => exact ⟨.leaf, trivial⟩
  | configdNodeGetStatus path => exact ⟨.unchanged, trivial⟩
  | _ => first | exact ⟨_, rfl⟩ | exact ⟨default, trivial⟩

theorem accepted_iff {key val user : Str} (hhex : ∀ b ∈ key, isHex b = true) (hlen : 2 ≤ key.length)
    (hval : val = authVyattaSession ++ 32 :: key ∨ val = authVyattaPathLoc ++ 61 :: key) :
    Accepted file now val user ↔ holder (key.take 16) now file = some user := by
  constructor
  · intro h
    obtain ⟨r, hr, hv⟩ := Prog.result_of_wp machine_answers (Prog.wp_and (h Session.new)
      (shown_verdict file now hhex hlen hval Session.new))
    rcases hu : holder (key.take 16) now file with _ | u
    · rw [hu] at hv
      have hfalse : r.1 = false := hv
      rw [hr.1] at hfalse
      cases hfalse
    · rw [hu] at hv
      rw [← hr.2, hv.2]
  · intro h s
    have hv := shown_verdict file now hhex hlen hval s
    rw [h] at hv
    exact hv

theorem usable_iff {key user : Str} (hhex : ∀ b ∈ key, isHex b = true) (hlen : 2 ≤ key.length) :
    Usable file now key user ↔ holder (key.take 16) now file = some user := by
  rw [Usable, accepted_iff hhex hlen (Or.inl rfl), accepted_iff hhex hlen (Or.inr rfl), and_self]

end Server

/-! ## What a buffer holds -/

/-- The fields of a text without tabs and newlines. -/
def fieldsOf (s : Str) : List Str := cut [44] 126 s

theorem comma_tag : Tag ([44] : Str) 44 := ⟨[], rfl, by simp⟩

theorem fieldsOf_comma (a b : Str) : fieldsOf (a ++ 44 :: b) = fieldsOf a ++ fieldsOf b := cut_append comma_tag 126 a b

theorem fieldsOf_nil : fieldsOf [] = [] := rfl

theorem fieldsOf_field {s : Str} (h : Field s) (hne : s ≠ []) : fieldsOf s = [s] := by
  refine cut_plain ?_ (fun hm => (h 126 hm).2.2.2.1 rfl) hne
  rw [ singleton_not_infix]
  exact fun hm => (h 44 hm).1 rfl

theorem length_fieldsOf_field {s : Str} (h : Field s) : (fieldsOf s).length ≤ 1 := by
  by_cases hs : s = []
  · rw [hs, fieldsOf_nil]
    decide
  · rw [fieldsOf_field h hs]
    exact Nat.le_refl 1

theorem Field.part {s t : Str} (h : Field s) (ht : t <:+: s) : Field t := fun b hb => h b (ht.subset hb)

/-- No byte that the splitter or `fgets` treats in its own way. -/
def Clean (s : Str) : Prop := ∀ b ∈ s, b ≠ 9 ∧ b ≠ 10 ∧ b ≠ 0

theorem Field.clean {s : Str} (h : Field s) : Clean s := fun b hb => ⟨(h b hb).2.1, (h b hb).2.2.1, (h b hb).2.2.2.2⟩

theorem clean_comma {a b : Str} (ha : Clean a) (hb : Clean b) : Clean (a ++ 44 :: b) := by
  intro c hc
  rcases List.mem_append.mp hc with hc | hc
  · exact ha c hc
  · rcases List.mem_cons.mp hc with rfl | hc
    · decide
    · exact hb c hc

theorem Clean.part {s t : Str} (h : Clean s) (ht : t <:+: s) : Clean t := fun b hb => h b (ht.subset hb)

theorem bufferFields_piece {s : Str} (h : Clean s) : bufferFields s = fieldsOf s := by
  have hzero : (0 : UInt8) ∉ s := fun hm => (h 0 hm).2.2 rfl
  have hnl : s.count 10 = 0 := List.count_eq_zero.mpr fun hm => (h 10 hm).2.1 rfl
  rw [bufferFields, cstr_of_notMem hzero, strProc_plain (fun hm => (h 9 hm).1 rfl) (by omega)]
  rfl

theorem bufferFields_line {s : Str} (h : Clean s) : bufferFields (s ++ [10]) = fieldsOf s := by
  have hnl : (10 : UInt8) ∉ s := fun hm => (h 10 hm).2.1 rfl
  have hzero : (0 : UInt8) ∉ s ++ [10] := by
    rw [List.mem_append, List.mem_singleton, not_or]
    exact ⟨fun hm => (h 0 hm).2.2 rfl, by decide⟩
  have htab : (9 : UInt8) ∉ s ++ [10] := by
    rw [List.mem_append, List.mem_singleton, not_or]
    exact ⟨fun hm => (h 9 hm).1 rfl, by decide⟩
  have hcount : (s ++ [10]).count 10 = 1 := by
    rw [List.count_append, List.count_eq_zero.mpr hnl]
    rfl
  rw [bufferFields, cstr_of_notMem hzero, strProc_eq, expandTabs_of_notMem htab, dropLoneNewline, if_pos hcount,
    List.erase_append_right _ hnl]
  simp [fieldsOf, show str "," = [44] by decide]

/-! ## Buffers that are passed over -/

section Ignoring

variable {auth : Str} {now : Nat}

theorem ignored_of_time {fields : List Str} (h : strtoul 10 (StrProc.get fields 2) + sessionTimeout ≤ now)
    (hnow : now < 2 ^ 64) : Ignored auth now fields := by
  refine Or.inl ?_
  rw [addSz_of_lt (by omega)]
  exact h

theorem ignored_of_short {fields : List Str} (h : fields.length ≤ 2) (hnow : sessionTimeout ≤ now)
    (hlt : now < 2 ^ 64) : Ignored auth now fields := by
  refine ignored_of_time ?_ hlt
  rw [StrProc.get, List.getD_eq_getElem?_getD, List.getElem?_eq_none h]
  have : strtoul 10 ([] : Str) = 0 := by decide
  rw [Option.getD_none, this]
  omega

theorem length_fieldsOf_two {a b t : Str} (ha : Field a) (hb : Field b) (h : t <:+: a ++ 44 :: b) :
    (fieldsOf t).length ≤ 2 := by
  rcases infix_split h with ⟨a', ha', hpre⟩ | h
  · have hfa := length_fieldsOf_field (ha.part ha'.isInfix)
    rcases prefix_split hpre with hpre | ⟨t', rfl, ht'⟩
    · have := length_fieldsOf_field ((ha.part ha'.isInfix).part hpre.isInfix)
      omega
    · have := length_fieldsOf_field (hb.part ht'.isInfix)
      rw [fieldsOf_comma, List.length_append]
      omega
  · have := length_fieldsOf_field (hb.part h)
    omega

theorem Address.field {s : Str} (h : Address s) : Field s := by
  have hhex : ∀ b : UInt8, isHex b = true ∨ b = 58 ∨ b = 46 → b ≠ 44 ∧ b ≠ 9 ∧ b ≠ 10 ∧ b ≠ 126 ∧ b ≠ 0 := by
    intro b hb
    refine ⟨?_, ?_, ?_, ?_, ?_⟩ <;> (rintro rfl; revert hb; decide)
  exact fun b hb => hhex b (h.bytes b hb)

theorem Address.plain {s : Str} (h : Address s) : ∀ b ∈ s, isSpace b = false ∧ b ≠ 45 ∧ b ≠ 43 := by
  intro b hb
  have hge : 46 ≤ b.toNat := by
    rcases h.bytes b hb with hhex | rfl | rfl
    · have := isHex_toNat hhex
      omega
    · decide
    · decide
  refine ⟨?_, ?_, ?_⟩
  · simp only [isSpace, Bool.or_eq_false_iff, Bool.and_eq_false_iff, decide_eq_false_iff_not, beq_eq_false_iff_ne, ne_eq,
      UInt8.le_iff_toNat_le, ← UInt8.toNat_inj]
    simp only [UInt8.reduceToNat]
    omega
  · rintro rfl; simp at hge
  · rintro rfl; simp at hge

/-- An address taken for a time lies far back. -/
theorem Address.strtoul_lt {s t : Str} (h : Address s) (ht : t <+: s) (hne : t ≠ []) : strtoul 10 t < 10000 := by
  have hlead : (t.takeWhile isDigit).length ≤ 4 := by
    rw [List.prefix_iff_eq_take.mp ht, ← List.take_takeWhile, List.length_take]
    have := h.leading
    omega
  obtain ⟨b, r, rfl⟩ := List.exists_cons_of_ne_nil hne
  obtain ⟨hs, h₁, h₂⟩ := h.plain b (ht.subset List.mem_cons_self)
  have := scanDigits_lt hlead 0
  rw [strtoul_plain hs h₁ h₂]
  omega

theorem dec_field (n : Nat) : Field (dec n) := by
  intro b hb
  have hd := isDigit_toNat (mem_dec b hb)
  refine ⟨?_, ?_, ?_, ?_, ?_⟩ <;> (rintro rfl; simp at hd)

/-- A piece of a record that begins in its time, whose digits are too few for a key. -/
theorem ignored_from_time {time : Nat} {address level t' t : Str} (hauth : auth.length = 16) (htime : time < 10 ^ 15)
    (haddress : Field address) (hlevel : Field level) (hnow : sessionTimeout ≤ now) (hlt : now < 2 ^ 64)
    (ht' : t' <:+ dec time) (h : t <+: t' ++ 44 :: (address ++ 44 :: level)) : Ignored auth now (fieldsOf t) := by
  have hdec : (dec time).length ≤ 15 := (length_dec_le_iff (by decide)).mpr htime
  have hfield : Field t' := (dec_field time).part ht'.isInfix
  have hlen := ht'.length_le
  have hother : ∀ s : Str, s.length ≤ 15 → s ≠ auth := by
    rintro s hs rfl
    omega
  rcases prefix_split h with hpre | ⟨u, rfl, hu⟩
  · refine ignored_of_short ?_ hnow hlt
    have := length_fieldsOf_field (hfield.part hpre.isInfix)
    omega
  · rw [fieldsOf_comma]
    by_cases hne : t' = []
    · rw [hne, fieldsOf_nil, List.nil_append]
      exact ignored_of_short (length_fieldsOf_two haddress hlevel hu.isInfix) hnow hlt
    · rw [fieldsOf_field hfield hne]
      exact Or.inr (hother t' (by omega))

/-- The rest of a record that did not fit its buffer. -/
theorem ignored_rest {name address level t : Str} {time : Nat} (hauth : auth.length = 16) (hname : Field name)
    (htime : time < 10 ^ 15) (haddress : Address address) (hlevel : Field level) (hnow : 12000 ≤ now) (hlt : now < 2 ^ 64)
    (h : t <:+: name ++ 44 :: (dec time ++ 44 :: (address ++ 44 :: level))) : Ignored auth now (fieldsOf t) := by
  have hout : sessionTimeout ≤ now := by
    have : sessionTimeout = 1800 := rfl
    omega
  have hnum : ∀ {t' t : Str}, t' <:+ dec time → t <+: t' ++ 44 :: (address ++ 44 :: level) → Ignored auth now (fieldsOf t) :=
    fun ht' ht => ignored_from_time hauth htime haddress.field hlevel hout hlt ht' ht
  rcases infix_split h with ⟨n', hn', hpre⟩ | h
  · have hfield := hname.part hn'.isInfix
    rcases prefix_split hpre with hpre | ⟨u, rfl, hu⟩
    · refine ignored_of_short ?_ hout hlt
      have := length_fieldsOf_field (hfield.part hpre.isInfix)
      omega
    · rw [fieldsOf_comma]
      by_cases hne : n' = []
      · rw [hne, fieldsOf_nil, List.nil_append]
        exact hnum List.suffix_rfl hu
      · -- the name's end stands for the key, the time for the user and the address for the time
        rw [fieldsOf_field hfield hne]
        rcases prefix_split hu with hu | ⟨v, rfl, hv⟩
        · refine ignored_of_short ?_ hout hlt
          have := length_fieldsOf_field ((dec_field time).part hu.isInfix)
          rw [List.length_append, List.length_singleton]
          omega
        · rw [fieldsOf_comma, fieldsOf_field (dec_field time) (dec_ne_nil time)]
          refine ignored_of_time ?_ hlt
          have hget : StrProc.get ([n'] ++ ([dec time] ++ fieldsOf v)) 2 = StrProc.get (fieldsOf v) 0 := rfl
          have hsmall : strtoul 10 (StrProc.get (fieldsOf v) 0) < 10000 := by
            rcases prefix_split hv with hv | ⟨w, rfl, -⟩
            · by_cases hvne : v = []
              · rw [hvne]
                decide
              · rw [fieldsOf_field (haddress.field.part hv.isInfix) hvne]
                exact haddress.strtoul_lt hv hvne
            · rw [fieldsOf_comma, fieldsOf_field haddress.field haddress.ne]
              exact haddress.strtoul_lt List.prefix_rfl haddress.ne
          have : sessionTimeout = 1800 := rfl
          rw [hget]
          omega
  · rcases infix_split h with ⟨t', ht', hpre⟩ | h
    · exact hnum ht' hpre
    · exact ignored_of_short (length_fieldsOf_two haddress.field hlevel h) hout hlt

theorem reads_ignored {w : Str} (hclean : Clean w) (hw : ∀ t, t <:+: w → Ignored auth now (fieldsOf t)) (u : Option Str) :
    (reads 10 bufferSize (w ++ [10])).foldl (holderStep auth now) u = u := by
  have hpos : 0 < bufferSize := by decide
  have hnl : (10 : UInt8) ∉ w := fun hm => (hclean 10 hm).2.1 rfl
  induction hn : w.length using Nat.strong_induction_on generalizing w with
  | _ n ih =>
    by_cases hfit : w.length < bufferSize
    · rw [reads_line hnl hfit, List.foldl_cons, List.foldl_nil, holderStep_ignored]
      rw [bufferFields_line hclean]
      exact hw w List.infix_rfl
    · have hdrop := (List.drop_suffix bufferSize w).isInfix
      have htake := (List.take_prefix bufferSize w).isInfix
      rw [reads_long hnl hpos (by omega), List.foldl_cons, holderStep_ignored]
      · exact ih (w.drop bufferSize).length (by rw [List.length_drop]; omega) (hclean.part hdrop)
          (fun t ht => hw t (ht.trans hdrop)) (fun hm => hnl (hdrop.subset hm)) rfl
      · rw [bufferFields_piece (hclean.part htake)]
        exact hw _ htake

end Ignoring

/-! ## Records -/

theorem field_of_hex {s : Str} (h : ∀ b ∈ s, isHex b = true) : Field s := by
  intro b hb
  have hd := isHex_toNat (h b hb)
  refine ⟨?_, ?_, ?_, ?_, ?_⟩ <;> (rintro rfl; simp at hd)

/-- Key, name and time fit a buffer. -/
def Fits (key name : Str) (time : Nat) : Prop := key.length + name.length + (dec time).length + 2 ≤ bufferSize

instance (key name : Str) (time : Nat) : Decidable (Fits key name time) := by unfold Fits; infer_instance

section Records

variable {auth key name address level : Str} {now : Nat}

theorem recordBody_clean (time : Nat) (hkey : Field key) (hname : Field name) (haddress : Field address) (hlevel : Field level) :
    Clean (recordBody key name time address level) :=
  clean_comma hkey.clean (clean_comma hname.clean (clean_comma (dec_field time).clean (clean_comma haddress.clean hlevel.clean)))

/-- The fields of a record, as far as the server looks. -/
theorem fieldsOf_header (time : Nat) (hkey : Field key) (hk : key ≠ []) (hname : Field name) (hn : name ≠ []) {t : Str}
    (ht : t = [] ∨ ∃ r, t = 44 :: r) :
    ∃ fs, fieldsOf (key ++ 44 :: (name ++ 44 :: (dec time ++ t))) = key :: name :: dec time :: fs := by
  rw [fieldsOf_comma, fieldsOf_comma, fieldsOf_field hkey hk, fieldsOf_field hname hn]
  rcases ht with rfl | ⟨r, rfl⟩
  · rw [List.append_nil, fieldsOf_field (dec_field time) (dec_ne_nil time)]
    exact ⟨[], rfl⟩
  · rw [fieldsOf_comma, fieldsOf_field (dec_field time) (dec_ne_nil time)]
    exact ⟨fieldsOf r, rfl⟩

variable {time : Nat}

/-- A buffer that begins with a record: it holds key, name and time, or is passed over. -/
theorem record_piece (auth : Str) (hkey : Field key) (hk : key ≠ []) (hname : Field name) (hn : name ≠ [])
    (h₁ : 2000 ≤ time) (h₂ : time ≤ now) (hlt : now < 2 ^ 64) {t : Str} (ht : t <+: recordBody key name time address level)
    (hlen : key.length < t.length) :
    (key.length + name.length + (dec time).length + 2 ≤ t.length ∧ ∃ fs, fieldsOf t = key :: name :: dec time :: fs) ∨
      (t.length < key.length + name.length + (dec time).length + 2 ∧ Ignored auth now (fieldsOf t)) := by
  have hout : sessionTimeout = 1800 := rfl
  rcases prefix_split ht with ht | ⟨u, rfl, hu⟩
  · have := ht.length_le
    omega
  rw [List.length_append, List.length_cons]
  rcases prefix_split hu with hu | ⟨v, rfl, hv⟩
  · have hle := hu.length_le
    refine Or.inr ⟨by omega, ignored_of_short ?_ (by omega) hlt⟩
    have h := length_fieldsOf_field hkey
    have h' := length_fieldsOf_field (hname.part hu.isInfix)
    rw [fieldsOf_comma, List.length_append]
    omega
  rw [List.length_append, List.length_cons]
  rcases prefix_split hv with hv | ⟨w, rfl, -⟩
  · obtain ⟨w, hw⟩ := hv
    have hsplit := congrArg List.length hw
    rw [List.length_append] at hsplit
    by_cases hwne : w = []
    · -- the buffer ends with the time
      rw [hwne, List.append_nil] at hw
      have hfs := fieldsOf_header time hkey hk hname hn (Or.inl rfl)
      rw [List.append_nil, ← hw] at hfs
      rw [hwne, List.length_nil] at hsplit
      exact Or.inl ⟨by omega, hw ▸ hfs⟩
    · -- the buffer ends within the time
      have hpos := List.length_pos_iff.mpr hwne
      refine Or.inr ⟨by omega, ?_⟩
      rw [fieldsOf_comma, fieldsOf_comma, fieldsOf_field hkey hk, fieldsOf_field hname hn]
      by_cases hvne : v = []
      · rw [hvne, fieldsOf_nil]
        exact ignored_of_short (by simp) (by omega) hlt
      · have hfield : Field v := (dec_field time).part ⟨[], w, by simpa using hw⟩
        have hget : StrProc.get ([key] ++ ([name] ++ [v])) 2 = v := rfl
        have hcut := strtoul_prefix_dec hw.symm hvne hwne
        rw [fieldsOf_field hfield hvne]
        refine ignored_of_time ?_ hlt
        rw [hget]
        omega
  · rw [List.length_append]
    exact Or.inl ⟨by omega, fieldsOf_header time hkey hk hname hn (Or.inr ⟨w, rfl⟩)⟩

theorem holderStep_header {buf : Str} {fs : List Str} (h : bufferFields buf = key :: name :: dec time :: fs)
    (htime : time < 2 ^ 63) (u : Option Str) :
    holderStep auth now u buf = if key = auth ∧ now < time + sessionTimeout then some name else u := by
  have hout : sessionTimeout = 1800 := rfl
  have hiff : Ignored auth now (bufferFields buf) ↔ ¬ (key = auth ∧ now < time + sessionTimeout) := by
    have h0 : StrProc.get (key :: name :: dec time :: fs) 0 = key := rfl
    have h2 : StrProc.get (key :: name :: dec time :: fs) 2 = dec time := rfl
    rw [Ignored, h, h0, h2, strtoul_dec (by omega), addSz_of_lt (by omega), not_and_or, Nat.not_lt, or_comm]
  by_cases hcond : key = auth ∧ now < time + sessionTimeout
  · rw [holderStep_taken u (fun h' => hiff.mp h' hcond), if_pos hcond, h]
    rfl
  · rw [holderStep_ignored u (hiff.mpr hcond), if_neg hcond]

/-- What the server makes of a record `get_key` stores. -/
theorem reads_record (hauth : auth.length = 16) (hkey : Field key) (hk : key ≠ []) (hklen : key.length < bufferSize)
    (hname : Field name) (hn : name ≠ []) (haddress : Address address) (hlevel : Field level) (h₁ : 12000 ≤ time)
    (htime : time < 10 ^ 15) (h₂ : time ≤ now) (hlt : now < 2 ^ 64) (u : Option Str) :
    (reads 10 bufferSize (recordText key name time address level)).foldl (holderStep auth now) u =
      if key = auth ∧ now < time + sessionTimeout ∧ Fits key name time then some name else u := by
  have hout : sessionTimeout = 1800 := rfl
  have hclean := recordBody_clean time hkey hname haddress.field hlevel
  have hnl : (10 : UInt8) ∉ recordBody key name time address level := fun hm => (hclean 10 hm).2.1 rfl
  have hbody : (recordBody key name time address level).length =
      key.length + 1 + (name.length + 1 + ((dec time).length + 1 + (address.length + 1 + level.length))) := by
    simp only [recordBody, List.length_append, List.length_cons]
    omega
  have hpiece : ∀ {t : Str}, t <+: recordBody key name time address level → key.length < t.length →
      (key.length + name.length + (dec time).length + 2 ≤ t.length ∧ ∃ fs, fieldsOf t = key :: name :: dec time :: fs) ∨
        (t.length < key.length + name.length + (dec time).length + 2 ∧ Ignored auth now (fieldsOf t)) :=
    fun ht hlen => record_piece auth hkey hk hname hn (by omega) h₂ (by omega) ht hlen
  rw [recordText]
  by_cases hfit : (recordBody key name time address level).length < bufferSize
  · have hfits : Fits key name time := by
      unfold Fits
      omega
    rcases hpiece List.prefix_rfl (by omega) with ⟨-, fs, hfs⟩ | ⟨hgt, -⟩
    · rw [reads_line hnl hfit, List.foldl_cons, List.foldl_nil,
        holderStep_header ((bufferFields_line hclean).trans hfs) (by omega)]
      simp only [hfits, and_true]
    · omega
  · have htake := List.take_prefix bufferSize (recordBody key name time address level)
    have hlen : ((recordBody key name time address level).take bufferSize).length = bufferSize := by
      rw [List.length_take]
      omega
    have hdrop : (recordBody key name time address level).drop bufferSize <:+
        name ++ 44 :: (dec time ++ 44 :: (address ++ 44 :: level)) := by
      have hsplit : recordBody key name time address level =
          (key ++ [44]) ++ (name ++ 44 :: (dec time ++ 44 :: (address ++ 44 :: level))) := by simp [recordBody]
      rw [hsplit, List.drop_append, List.drop_of_length_le (by rw [List.length_append, List.length_singleton]; omega),
        List.nil_append]
      exact List.drop_suffix _ _
    have hrest : ∀ t, t <:+: (recordBody key name time address level).drop bufferSize → Ignored auth now (fieldsOf t) :=
      fun t ht => ignored_rest hauth hname htime haddress hlevel (by omega) (by omega) (ht.trans hdrop.isInfix)
    have hfields := bufferFields_piece (hclean.part htake.isInfix)
    rw [reads_long hnl (by decide) (by omega), List.foldl_cons,
      reads_ignored (hclean.part (List.drop_suffix _ _).isInfix) hrest]
    rcases hpiece htake (by omega) with ⟨hle, fs, hfs⟩ | ⟨hgt, hignored⟩
    · have hfits : Fits key name time := by
        unfold Fits
        omega
      rw [holderStep_header (hfields.trans hfs) (by omega)]
      simp only [hfits, and_true]
    · have hfits : ¬ Fits key name time := by
        unfold Fits
        omega
      rw [holderStep_ignored u (hfields.symm ▸ hignored), if_neg fun h => hfits h.2.2]

end Records

/-! ## Keys -/

theorem hex2_hex (n : Nat) : ∀ b ∈ hex2 n, isHex b = true := by
  have hdigit : ∀ d < 16, isHex (d.digitChar.toUpper.toNat.toUInt8) = true := by decide
  have hall : ∀ n, ∀ c ∈ Nat.toDigits 16 n, isHex (c.toUpper.toNat.toUInt8) = true := by
    intro n
    induction n using Nat.strong_induction_on with
    | _ n ih =>
      intro c hc
      by_cases h : n < 16
      · rw [Nat.toDigits_of_lt_base h, List.mem_singleton] at hc
        rw [hc]
        exact hdigit n h
      · rw [Nat.toDigits_of_base_le (by decide) (by omega), List.mem_append, List.mem_singleton] at hc
        rcases hc with hc | rfl
        · exact ih (n / 16) (by omega) c hc
        · exact hdigit _ (Nat.mod_lt _ (by decide))
  intro b hb
  unfold hex2 at hb
  split at hb
  · rcases List.mem_cons.mp hb with rfl | hb
    · decide
    · obtain ⟨c, hc, rfl⟩ := List.mem_map.mp hb
      exact hall n c hc
  · obtain ⟨c, hc, rfl⟩ := List.mem_map.mp hb
    exact hall n c hc

/-- Two digits at least, no more for an octet, and sixteen for the largest number there is. -/
theorem length_hex2 (n : Nat) : 2 ≤ (hex2 n).length ∧ ((hex2 n).length = 2 ↔ n ≤ 255) ∧ (n < 2 ^ 64 → (hex2 n).length ≤ 16) := by
  have hle : ∀ k, 0 < k → ((Nat.toDigits 16 n).length ≤ k ↔ n < 16 ^ k) := fun k hk =>
    Nat.length_toDigits_le_iff (by decide) hk
  have hpos : 0 < (Nat.toDigits 16 n).length := Nat.length_toDigits_pos
  have h1 := hle 1 (by decide)
  have h2 := hle 2 (by decide)
  have h16 := hle 16 (by decide)
  have hpow : (16 : Nat) ^ 16 = 2 ^ 64 := by decide
  unfold hex2
  split
  · rw [List.length_cons, List.length_map]
    omega
  · rw [List.length_map]
    omega

theorem length_octets (srcIp : Str) : (octets srcIp).length = 4 := by simp [octets]

theorem octets_lt {srcIp : Str} : ∀ n ∈ octets srcIp, n < 2 ^ 64 := by
  intro n hn
  obtain ⟨i, -, rfl⟩ := List.mem_map.mp hn
  unfold numify
  simp only
  split
  · split <;> omega
  · omega

theorem length_flatMap_hex2 (l : List Nat) : 2 * l.length ≤ (l.flatMap hex2).length ∧
    ((l.flatMap hex2).length = 2 * l.length ↔ ∀ n ∈ l, n ≤ 255) ∧
    ((∀ n ∈ l, n < 2 ^ 64) → (l.flatMap hex2).length ≤ 16 * l.length) := by
  induction l with
  | nil => simp
  | cons n l ih =>
    obtain ⟨ih₁, ih₂, ih₃⟩ := ih
    obtain ⟨h₁, h₂, h₃⟩ := length_hex2 n
    rw [List.flatMap_cons, List.length_append, List.length_cons, List.forall_mem_cons, List.forall_mem_cons, ← ih₂, ← h₂]
    refine ⟨by omega, by omega, fun ⟨hn, hl⟩ => ?_⟩
    have := ih₃ hl
    have := h₃ hn
    omega

theorem drawnKey_length (srcIp : Str) {string : Str} (h4 : 4 ≤ string.length) :
    16 ≤ (drawnKey srcIp string).length ∧ (drawnKey srcIp string).length < bufferSize ∧
    ((drawnKey srcIp string).length = 16 ↔ ∀ n ∈ octets srcIp, n ≤ 255) := by
  have hbyte : ∀ n ∈ (string.take 4).map UInt8.toNat, n ≤ 255 := by
    intro n hn
    obtain ⟨b, -, rfl⟩ := List.mem_map.mp hn
    have := b.toNat_lt
    omega
  have hlen : (octets srcIp ++ (string.take 4).map UInt8.toNat).length = 8 := by
    rw [List.length_append, length_octets, List.length_map, List.length_take]
    omega
  obtain ⟨h₁, h₂, h₃⟩ := length_flatMap_hex2 (octets srcIp ++ (string.take 4).map UInt8.toNat)
  have hbound := h₃ fun n hn => by
    rcases List.mem_append.mp hn with hn | hn
    · exact octets_lt n hn
    · have := hbyte n hn
      omega
  rw [hlen] at h₁ h₂ hbound
  refine ⟨h₁, Nat.lt_of_le_of_lt hbound (by decide), h₂.trans ?_⟩
  rw [List.forall_mem_append]
  exact and_iff_left hbyte

theorem drawnKey_ne (srcIp : Str) {string : Str} (h4 : 4 ≤ string.length) : drawnKey srcIp string ≠ [] := by
  intro h
  have := (drawnKey_length srcIp h4).1
  rw [h] at this
  exact absurd this (by decide)

theorem drawnKey_hex (srcIp string : Str) : ∀ b ∈ drawnKey srcIp string, isHex b = true := by
  intro b hb
  obtain ⟨n, -, hn⟩ := List.mem_flatMap.mp hb
  exact hex2_hex n b hn

/-! ## The file `get_key` leaves -/

theorem Record.key_field (r : Record) : Field r.key := field_of_hex r.key_hex

theorem Record.key_ne (r : Record) : r.key ≠ [] := by
  intro h
  have := r.key_ge
  rw [h] at this
  cases this

theorem Record.body_clean (r : Record) : Clean r.body :=
  recordBody_clean r.time r.key_field r.user_field r.address_field r.level_field

theorem Record.newline_notMem (r : Record) : (10 : UInt8) ∉ r.body := fun hm => (r.body_clean 10 hm).2.1 rfl

instance (r : Record) (now : Nat) : Decidable (r.live now) := by unfold Record.live; infer_instance

instance (r : Record) (name srcIp : Str) : Decidable (r.isOf name srcIp) := by unfold Record.isOf; infer_instance

theorem reads_old (r : Record) {auth : Str} (hauth : auth.length = 16) {now : Nat} (hpast : r.past now) (hlt : now < 2 ^ 64)
    (u : Option Str) : (reads 10 bufferSize (r.body ++ [10])).foldl (holderStep auth now) u =
      if r.key = auth ∧ r.live now ∧ Fits r.key r.user r.time then some r.user else u := by
  by_cases hfit : r.body.length < bufferSize
  · have hfits : Fits r.key r.user r.time := by
      simp only [Record.body, recordBody, List.length_append, List.length_cons] at hfit
      unfold Fits
      omega
    obtain ⟨fs, hfs⟩ := fieldsOf_header r.time r.key_field r.key_ne r.user_field r.user_ne
      (Or.inr ⟨r.address ++ 44 :: r.level, rfl⟩)
    rw [reads_line r.newline_notMem hfit, List.foldl_cons, List.foldl_nil,
      holderStep_header ((bufferFields_line r.body_clean).trans hfs) r.time_lt]
    simp only [hfits, and_true]
    rfl
  · obtain ⟨haddress, hge, htime⟩ := r.tame.resolve_left hfit
    exact reads_record hauth r.key_field r.key_ne r.key_lt r.user_field r.user_ne haddress r.level_field hge htime
      (hpast.resolve_left hfit) hlt u

theorem reads_blank {auth : Str} (hauth : auth ≠ []) (now : Nat) (u : Option Str) :
    (reads 10 bufferSize [10]).foldl (holderStep auth now) u = u := by
  have hread : reads 10 bufferSize [10] = [([10] : Str)] := by decide
  have hfields : bufferFields [10] = [] := by decide
  rw [hread, List.foldl_cons, List.foldl_nil, holderStep_ignored]
  rw [hfields]
  exact Or.inr (Ne.symm hauth)

theorem perlSplit_record (r : Record) :
    perlSplit 44 (r.body ++ [10]) = [r.key, r.user, dec r.time, r.address, r.level ++ [10]] := by
  have hcomma : ∀ {s : Str}, Field s → (44 : UInt8) ∉ s := fun h hm => (h 44 hm).1 rfl
  have hlast : (44 : UInt8) ∉ r.level ++ [10] := by
    rw [List.mem_append, List.mem_singleton, not_or]
    exact ⟨hcomma r.level_field, by decide⟩
  have hsplit : (r.body ++ [10]).splitOn 44 = [r.key, r.user, dec r.time, r.address, r.level ++ [10]] := by
    simp only [Record.body, recordBody, List.append_assoc, List.cons_append]
    rw [List.splitOn_append_cons_self_of_not_mem (hcomma r.key_field),
      List.splitOn_append_cons_self_of_not_mem (hcomma r.user_field),
      List.splitOn_append_cons_self_of_not_mem (hcomma (dec_field r.time)),
      List.splitOn_append_cons_self_of_not_mem (hcomma r.address_field), List.splitOn_eq_singleton hlast]
  rw [perlSplit, hsplit]
  simp

/-- What `get_key` writes for a line. -/
def kept (name accessLevel srcIp : Str) (time : Nat) : Line → List Str
  | .blank => []
  | .record r =>
    if r.isOf name srcIp then [recordText r.key name time srcIp accessLevel] else [r.body ++ [10], [10]]

/-- The key of the last record of the user at the address. -/
def lastKey (name srcIp : Str) (k : Option Str) : Line → Option Str
  | .blank => k
  | .record r => if r.isOf name srcIp then some r.key else k

theorem foldl_keyRound (name accessLevel srcIp : Str) (time : Nat) : ∀ (file : List Line) (k : Option Str) (tmp : Str),
    (file.map Line.text).foldl (keyRound name accessLevel srcIp time) (k, tmp) =
      (file.foldl (lastKey name srcIp) k, tmp ++ (file.flatMap (kept name accessLevel srcIp time)).flatten) := by
  intro file
  induction file with
  | nil => intro k tmp; simp
  | cons line file ih =>
    intro k tmp
    rw [List.map_cons, List.foldl_cons, List.foldl_cons, List.flatMap_cons, List.flatten_append]
    cases line with
    | blank =>
      have hround : keyRound name accessLevel srcIp time (k, tmp) Line.blank.text = (k, tmp) := rfl
      rw [hround, ih]
      rfl
    | record r =>
      have hround : keyRound name accessLevel srcIp time (k, tmp) (Line.record r).text =
          (lastKey name srcIp k (.record r), tmp ++ (kept name accessLevel srcIp time (.record r)).flatten) := by
        rw [keyRound, Line.text, perlSplit_record, lastKey, kept]
        simp only
        by_cases h : r.isOf name srcIp
        · rw [if_pos h, if_pos h, if_pos ⟨h.1, h.2⟩, List.flatten_singleton]
        · rw [if_neg h, if_neg h, if_neg fun h' => h ⟨h'.1, h'.2⟩]
          simp
      rw [hround, ih, List.append_assoc]

theorem lines_fileText (file : List Line) : lines 10 (fileText file) = file.map Line.text := by
  refine lines_flatten fun l hl => ?_
  obtain ⟨line, -, rfl⟩ := List.mem_map.mp hl
  cases line with
  | blank => exact ⟨[], rfl, by simp⟩
  | record r => exact ⟨r.body, rfl, r.newline_notMem⟩

theorem mem_records {file : List Line} {r : Record} : r ∈ records file ↔ .record r ∈ file := by
  rw [records, List.mem_filterMap]
  constructor
  · rintro ⟨line, hm, hr⟩
    cases line with
    | blank => cases hr
    | record r' =>
      cases hr
      exact hm
  · exact fun h => ⟨.record r, h, rfl⟩

/-! ## The last entry of a key -/

section LastOf

variable {α β : Type} [DecidableEq α]

/-- A list of entries looked up from its end. -/
def lastOf (k : α) (l : List (α × β)) : Option β := l.foldl (fun u p => if p.1 = k then some p.2 else u) none

theorem lastOf_concat (k : α) (l : List (α × β)) (p : α × β) :
    lastOf k (l ++ [p]) = if p.1 = k then some p.2 else lastOf k l := by
  rw [lastOf, List.foldl_append]
  rfl

theorem lastOf_mem {k : α} {v : β} {l : List (α × β)} (h : lastOf k l = some v) : (k, v) ∈ l := by
  induction l using List.reverseRecOn with
  | nil => cases h
  | append_singleton l p ih =>
    rw [lastOf_concat] at h
    split at h
    · rename_i hp
      cases h
      exact List.mem_append_right _ (by rw [← hp]; exact List.mem_singleton_self _)
    · exact List.mem_append_left _ (ih h)

/-- An entry is found if no other value goes with its key. -/
theorem lastOf_of_mem {k : α} {v : β} {l : List (α × β)} (hm : (k, v) ∈ l) (h : ∀ v', (k, v') ∈ l → v' = v) :
    lastOf k l = some v := by
  induction l using List.reverseRecOn with
  | nil => cases hm
  | append_singleton l p ih =>
    rw [lastOf_concat]
    split
    · rename_i hp
      exact congrArg some (h p.2 (List.mem_append_right _ (by rw [← hp]; exact List.mem_singleton_self _)))
    · rename_i hp
      rcases List.mem_append.mp hm with hm | hm
      · exact ih hm fun v' hv' => h v' (List.mem_append_left _ hv')
      · rw [List.mem_singleton] at hm
        exact absurd (by rw [← hm]) hp

end LastOf

/-! ## What is in force -/

/-- A record as it stands after `get_key`. -/
structure Stored where
  key : Str
  user : Str
  time : Nat

def Record.stored (r : Record) (name srcIp : Str) (time : Nat) : Stored :=
  ⟨r.key, r.user, if r.isOf name srcIp then time else r.time⟩

def Stored.fits (e : Stored) : Prop := Fits e.key e.user e.time

instance (e : Stored) : Decidable e.fits := inferInstanceAs (Decidable (Fits _ _ _))

/-- The records that count after `get_key`: not timed out, or of the user at the address. -/
def inUse (file : List Line) (name srcIp : Str) (now : Nat) : List Record :=
  (records file).filter fun r => decide (r.live now ∨ r.isOf name srcIp)

/-- The key and the user a line stands for after `get_key`. -/
def inForce (name srcIp : Str) (time now : Nat) : Line → Option (Str × Str)
  | .blank => none
  | .record r =>
    if (r.live now ∨ r.isOf name srcIp) ∧ (r.stored name srcIp time).fits then some (r.key, r.user) else none

section Holder

variable {name accessLevel srcIp : Str} {time now : Nat} (hname : Field name) (hne : name ≠ []) (hip : Address srcIp)
  (hlevel : Field accessLevel) (h₁ : 12000 ≤ time) (h₂ : time < 10 ^ 15) (h₃ : time ≤ now) (h₄ : now < time + sessionTimeout)

include hname hne hip hlevel h₁ h₂ h₃ h₄

theorem fold_kept {auth : Str} (hauth : auth.length = 16) (line : Line) (hpast : ∀ r, line = .record r → r.past now)
    (u : Option Str) :
    ((kept name accessLevel srcIp time line).flatMap (reads 10 bufferSize)).foldl (holderStep auth now) u =
      ((inForce name srcIp time now line).toList).foldl (fun u p => if p.1 = auth then some p.2 else u) u := by
  have hout : sessionTimeout = 1800 := rfl
  have hauthne : auth ≠ [] := by
    rintro rfl
    cases hauth
  cases line with
  | blank => rfl
  | record r =>
    have hstands : ∀ {p : Prop} [Decidable p] {v : Str}, (if r.key = auth ∧ p then some v else u) =
        ((if p then some (r.key, v) else none).toList).foldl (fun u p => if p.1 = auth then some p.2 else u) u := by
      intro p _ v
      by_cases hp : p
      · simp [hp]
      · simp [hp]
    simp only [kept, inForce, Stored.fits, Record.stored]
    by_cases h : r.isOf name srcIp
    · rw [if_pos h, List.flatMap_singleton, reads_record hauth r.key_field r.key_ne r.key_lt hname hne hip hlevel h₁ h₂ h₃
        (by omega), hstands]
      simp only [h₄, h, or_true, true_and, if_true, ← h.1]
    · rw [if_neg h, List.flatMap_cons, List.flatMap_singleton, List.foldl_append, reads_old r hauth (hpast r rfl) (by omega),
        reads_blank hauthne, hstands]
      simp only [h, or_false, if_false]

theorem fold_file {auth : Str} (hauth : auth.length = 16) : ∀ (file : List Line), (∀ r ∈ records file, r.past now) →
    ∀ (u : Option Str),
    ((file.flatMap (kept name accessLevel srcIp time)).flatMap (reads 10 bufferSize)).foldl (holderStep auth now) u =
      (file.filterMap (inForce name srcIp time now)).foldl (fun u p => if p.1 = auth then some p.2 else u) u := by
  intro file
  induction file with
  | nil => exact fun _ _ => rfl
  | cons line file ih =>
    intro hpast u
    have hline : ∀ r, line = .record r → r.past now := by
      rintro r rfl
      exact hpast r (mem_records.mpr List.mem_cons_self)
    have hrest : ∀ r ∈ records file, r.past now := fun r hr =>
      hpast r (mem_records.mpr (List.mem_cons_of_mem _ (mem_records.mp hr)))
    rw [List.flatMap_cons, List.flatMap_append, List.foldl_append, ih hrest,
      fold_kept hname hne hip hlevel h₁ h₂ h₃ h₄ hauth line hline, List.filterMap_cons]
    cases inForce name srcIp time now line <;> rfl

omit hname hne hip hlevel h₁ h₂ h₃ h₄ in
theorem kept_ends (file : List Line) : ∀ l ∈ file.flatMap (kept name accessLevel srcIp time), ∃ a, l = a ++ [10] := by
  intro l hl
  obtain ⟨line, -, hl⟩ := List.mem_flatMap.mp hl
  cases line with
  | blank => cases hl
  | record r =>
    rw [kept] at hl
    split at hl
    · rw [List.mem_singleton] at hl
      exact ⟨_, hl⟩
    · rcases List.mem_cons.mp hl with rfl | hl
      · exact ⟨_, rfl⟩
      · rw [List.mem_singleton] at hl
        exact ⟨[], hl⟩

/-- The holders of keys when `get_key` has found the session. -/
theorem holder_refreshed {auth : Str} (hauth : auth.length = 16) {file : List Line} (hpast : ∀ r ∈ records file, r.past now) :
    holder auth now (file.flatMap (kept name accessLevel srcIp time)).flatten =
      lastOf auth (file.filterMap (inForce name srcIp time now)) := by
  rw [holder, reads_flatten (kept_ends file), fold_file hname hne hip hlevel h₁ h₂ h₃ h₄ hauth file hpast]
  rfl

/-- And when it has made a new one. -/
theorem holder_added {auth key : Str} (hauth : auth.length = 16) (hkey : Field key) (hk : key ≠ [])
    (hklen : key.length < bufferSize) {file : List Line} (hpast : ∀ r ∈ records file, r.past now) :
    holder auth now ((file.flatMap (kept name accessLevel srcIp time)).flatten ++ recordText key name time srcIp accessLevel) =
      lastOf auth (file.filterMap (inForce name srcIp time now) ++ if Fits key name time then [(key, name)] else []) := by
  have hout : sessionTimeout = 1800 := rfl
  have hends : ∀ l ∈ file.flatMap (kept name accessLevel srcIp time) ++ [recordText key name time srcIp accessLevel],
      ∃ a, l = a ++ [10] := by
    intro l hl
    rcases List.mem_append.mp hl with hl | hl
    · exact kept_ends file l hl
    · rw [List.mem_singleton] at hl
      exact ⟨_, hl⟩
  have hflat : (file.flatMap (kept name accessLevel srcIp time)).flatten ++ recordText key name time srcIp accessLevel =
      (file.flatMap (kept name accessLevel srcIp time) ++ [recordText key name time srcIp accessLevel]).flatten := by simp
  rw [hflat, holder, reads_flatten hends, List.flatMap_append, List.flatMap_singleton, List.foldl_append,
    fold_file hname hne hip hlevel h₁ h₂ h₃ h₄ hauth file hpast,
    reads_record hauth hkey hk hklen hname hne hip hlevel h₁ h₂ h₃ (by omega)]
  by_cases hfits : Fits key name time
  · rw [if_pos hfits, lastOf_concat]
    simp only [h₄, hfits, and_true]
    rfl
  · rw [if_neg hfits, List.append_nil, if_neg fun h => hfits h.2.2]
    rfl

end Holder

/-! ## Minted sessions -/

/-- `get_key` finds the session in the file. -/
def Known (file : List Line) (name srcIp : Str) : Prop := ∃ r ∈ records file, r.isOf name srcIp

instance (file : List Line) (name srcIp : Str) : Decidable (Known file name srcIp) := by unfold Known; infer_instance

/-- The reported key lets its user in, and so does every key of a record that counts. -/
def Works (file : List Line) (name srcIp : Str) (now : Nat) (key new : Str) : Prop :=
  Usable new now key name ∧ ∀ r ∈ inUse file name srcIp now, Usable new now r.key r.user

/-- The records that count, and the one that is made if the user has none at the address. -/
def counting (file : List Line) (name srcIp string : Str) (time now : Nat) : List Stored :=
  (inUse file name srcIp now).map (·.stored name srcIp time) ++
    if Known file name srcIp then [] else [⟨drawnKey srcIp string, name, time⟩]

/-- The server can find it: a key of sixteen digits, and key, name and time in one buffer. -/
def Stored.found (e : Stored) : Prop := e.key.length = 16 ∧ e.fits

instance (e : Stored) : Decidable e.found := inferInstanceAs (Decidable (_ ∧ _))

/-- When it does. Each of them shares its first sixteen digits with one that the server can find,
    and all that it can find with these digits are of the same user. -/
def WorksWhen (file : List Line) (name srcIp string : Str) (time now : Nat) : Prop :=
  ∀ e ∈ counting file name srcIp string time now,
    (∃ e' ∈ counting file name srcIp string time now, e'.found ∧ e'.key = e.key.take 16) ∧
    ∀ e' ∈ counting file name srcIp string time now, e'.found → e'.key = e.key.take 16 → e'.user = e.user

/-- With keys of sixteen digits only, it is that they tell the users apart. -/
theorem worksWhen_of_sixteen {file : List Line} {name srcIp string : Str} {time now : Nat}
    (hfound : ∀ e ∈ counting file name srcIp string time now, e.found)
    (hkeys : ∀ e ∈ counting file name srcIp string time now, ∀ e' ∈ counting file name srcIp string time now,
      e'.key = e.key → e'.user = e.user) : WorksWhen file name srcIp string time now := by
  intro e he
  have hwhole : e.key.take 16 = e.key := List.take_of_length_le (by rw [(hfound e he).1])
  rw [hwhole]
  exact ⟨⟨e, he, hfound e he, rfl⟩, fun e' he' _ => hkeys e he e' he'⟩

theorem mem_inUse {file : List Line} {name srcIp : Str} {now : Nat} {r : Record} :
    r ∈ inUse file name srcIp now ↔ r ∈ records file ∧ (r.live now ∨ r.isOf name srcIp) := by
  rw [inUse, List.mem_filter, decide_eq_true_eq]

theorem mem_inForce {file : List Line} {name srcIp : Str} {time now : Nat} {k u : Str} :
    (k, u) ∈ file.filterMap (inForce name srcIp time now) ↔
      ∃ r ∈ inUse file name srcIp now, (r.stored name srcIp time).fits ∧ k = r.key ∧ u = r.user := by
  rw [List.mem_filterMap]
  constructor
  · rintro ⟨line, hm, hp⟩
    cases line with
    | blank => cases hp
    | record r =>
      rw [inForce] at hp
      split at hp
      · rename_i h
        cases hp
        exact ⟨r, mem_inUse.mpr ⟨mem_records.mpr hm, h.1⟩, h.2, rfl, rfl⟩
      · cases hp
  · rintro ⟨r, hr, hfits, rfl, rfl⟩
    obtain ⟨hm, hcase⟩ := mem_inUse.mp hr
    exact ⟨.record r, mem_records.mp hm, if_pos ⟨hcase, hfits⟩⟩

theorem lastKey_cases (name srcIp : Str) : ∀ (file : List Line) (k : Option Str),
    (¬ Known file name srcIp ∧ file.foldl (lastKey name srcIp) k = k) ∨
      ∃ r ∈ records file, r.isOf name srcIp ∧ file.foldl (lastKey name srcIp) k = some r.key := by
  intro file
  induction file with
  | nil =>
    intro k
    exact Or.inl ⟨fun ⟨_, hr, _⟩ => List.not_mem_nil hr, rfl⟩
  | cons line file ih =>
    intro k
    have hcons : ∀ {r}, r ∈ records file → r ∈ records (line :: file) := fun hr =>
      mem_records.mpr (List.mem_cons_of_mem _ (mem_records.mp hr))
    rw [List.foldl_cons]
    rcases ih (lastKey name srcIp k line) with ⟨hnone, heq⟩ | ⟨r, hr, hof, heq⟩
    · rw [heq]
      have hrest : ∀ r ∈ records file, ¬ r.isOf name srcIp := fun r hr hof => hnone ⟨r, hr, hof⟩
      cases line with
      | blank => exact Or.inl ⟨fun ⟨r, hr, hof⟩ => hrest r hr hof, rfl⟩
      | record r₀ =>
        rw [lastKey]
        by_cases h : r₀.isOf name srcIp
        · rw [if_pos h]
          exact Or.inr ⟨r₀, mem_records.mpr List.mem_cons_self, h, rfl⟩
        · rw [if_neg h]
          refine Or.inl ⟨fun ⟨r, hr, hof⟩ => ?_, rfl⟩
          rcases List.mem_cons.mp (mem_records.mp hr) with heq | hm
          · cases heq
            exact h hof
          · exact hrest r (mem_records.mpr hm) hof
    · exact Or.inr ⟨r, hcons hr, hof, heq⟩

/-- What `get_key` reports and leaves: the session it found, refreshed, or a new one. -/
theorem getKey_cases {file : List Line} {name accessLevel srcIp string key new : Str} {time : Nat}
    (h : getKey name accessLevel srcIp string time (fileText file) = some (key, new)) : name ≠ [] ∧
      ((new = (file.flatMap (kept name accessLevel srcIp time)).flatten ∧
          ∃ r ∈ records file, r.isOf name srcIp ∧ key = r.key) ∨
        (¬ Known file name srcIp ∧ 4 ≤ string.length ∧ key = drawnKey srcIp string ∧
          new = (file.flatMap (kept name accessLevel srcIp time)).flatten ++ recordText key name time srcIp accessLevel)) := by
  rw [getKey, lines_fileText, foldl_keyRound, List.nil_append] at h
  split at h
  · cases h
  · rename_i hne
    rw [not_or] at hne
    refine ⟨hne.1, ?_⟩
    rcases lastKey_cases name srcIp file none with ⟨hnone, heq⟩ | ⟨r, hr, hof, heq⟩
    · rw [heq, genKey] at h
      simp only at h
      split at h
      · cases h
      · rename_i hgen
        split at hgen
        · cases hgen
        · cases hgen
          cases h
          exact Or.inr ⟨hnone, by omega, rfl, rfl⟩
    · rw [heq] at h
      cases h
      exact Or.inl ⟨rfl, r, hr, hof, rfl⟩

/-- The pairs of key and user that the server can find. -/
def standing (file : List Line) (name srcIp string : Str) (time now : Nat) : List (Str × Str) :=
  file.filterMap (inForce name srcIp time now) ++
    if Known file name srcIp then []
    else if Fits (drawnKey srcIp string) name time then [(drawnKey srcIp string, name)] else []

section Minted

variable {file : List Line} {name accessLevel srcIp string : Str} {time now : Nat}

theorem mem_standing {k u : Str} : (k, u) ∈ standing file name srcIp string time now ↔
    ∃ e ∈ counting file name srcIp string time now, e.fits ∧ k = e.key ∧ u = e.user := by
  rw [standing, List.mem_append, mem_inForce]
  constructor
  · rintro (⟨r, hr, hfits, hk, hu⟩ | h)
    · exact ⟨_, List.mem_append_left _ (List.mem_map_of_mem hr), hfits, hk, hu⟩
    · split at h
      · cases h
      · rename_i hknown
        split at h
        · rename_i hfits
          cases List.mem_singleton.mp h
          exact ⟨⟨drawnKey srcIp string, name, time⟩,
            List.mem_append_right _ (by rw [if_neg hknown]; exact List.mem_singleton_self _), hfits, rfl, rfl⟩
        · cases h
  · rintro ⟨e, he, hfits, rfl, rfl⟩
    rcases List.mem_append.mp he with he | he
    · obtain ⟨r, hr, rfl⟩ := List.mem_map.mp he
      exact Or.inl ⟨r, hr, hfits, rfl, rfl⟩
    · split at he
      · cases he
      · rename_i hknown
        obtain rfl := List.mem_singleton.mp he
        refine Or.inr ?_
        have hfits' : Fits (drawnKey srcIp string) name time := hfits
        rw [if_neg hknown, if_pos hfits']
        exact List.mem_singleton_self _

theorem counting_key (h4 : Known file name srcIp ∨ 4 ≤ string.length) {e : Stored}
    (he : e ∈ counting file name srcIp string time now) : 16 ≤ e.key.length ∧ ∀ b ∈ e.key, isHex b = true := by
  rcases List.mem_append.mp he with he | he
  · obtain ⟨r, -, rfl⟩ := List.mem_map.mp he
    exact ⟨r.key_ge, r.key_hex⟩
  · split at he
    · cases he
    · rename_i hknown
      obtain rfl := List.mem_singleton.mp he
      exact ⟨(drawnKey_length srcIp (h4.resolve_left hknown)).1, drawnKey_hex srcIp string⟩

/-- Each one is looked up with its own user exactly if those that can be found agree. -/
theorem lookups_iff (h4 : Known file name srcIp ∨ 4 ≤ string.length) :
    (∀ e ∈ counting file name srcIp string time now,
      lastOf (e.key.take 16) (standing file name srcIp string time now) = some e.user) ↔
        WorksWhen file name srcIp string time now := by
  have htake : ∀ e ∈ counting file name srcIp string time now, (e.key.take 16).length = 16 := by
    intro e he
    rw [List.length_take]
    have := (counting_key h4 he).1
    omega
  constructor
  · intro h e he
    constructor
    · obtain ⟨e', he', hfits, hk, -⟩ := mem_standing.mp (lastOf_mem (h e he))
      exact ⟨e', he', ⟨hk ▸ htake e he, hfits⟩, hk.symm⟩
    · intro e' he' hfound hk
      have hwhole : e'.key.take 16 = e'.key := List.take_of_length_le (by rw [hfound.1])
      have h' := h e' he'
      rw [hwhole, hk, h e he] at h'
      exact (Option.some.inj h').symm
  · intro h e he
    obtain ⟨⟨e', he', hfound, hk⟩, hagree⟩ := h e he
    refine lastOf_of_mem (mem_standing.mpr ⟨e', he', hfound.2, hk.symm, (hagree e' he' hfound hk).symm⟩) fun u hu => ?_
    obtain ⟨e'', he'', hfits, hk'', rfl⟩ := mem_standing.mp hu
    exact hagree e'' he'' ⟨hk'' ▸ htake e he, hfits⟩ hk''.symm

/-- What `get_key` reports is of one of those that count. -/
theorem works_iff {key new : Str} (hkey : (∃ r ∈ records file, r.isOf name srcIp ∧ key = r.key) ∨
    (¬ Known file name srcIp ∧ key = drawnKey srcIp string)) :
    Works file name srcIp now key new ↔ ∀ e ∈ counting file name srcIp string time now, Usable new now e.key e.user := by
  constructor
  · rintro ⟨hnew, hold⟩ e he
    rcases List.mem_append.mp he with he | he
    · obtain ⟨r, hr, rfl⟩ := List.mem_map.mp he
      exact hold r hr
    · split at he
      · cases he
      · rename_i hknown
        obtain rfl := List.mem_singleton.mp he
        rcases hkey with ⟨r, hr, hof, -⟩ | ⟨-, rfl⟩
        · exact absurd ⟨r, hr, hof⟩ hknown
        · exact hnew
  · intro h
    have hold : ∀ r ∈ inUse file name srcIp now, Usable new now r.key r.user := fun r hr =>
      h (r.stored name srcIp time) (List.mem_append_left _ (List.mem_map_of_mem hr))
    refine ⟨?_, hold⟩
    rcases hkey with ⟨r, hr, hof, rfl⟩ | ⟨hunknown, rfl⟩
    · rw [hof.1]
      exact hold r (mem_inUse.mpr ⟨hr, Or.inr hof⟩)
    · exact h ⟨drawnKey srcIp string, name, time⟩
        (List.mem_append_right _ (by rw [if_neg hunknown]; exact List.mem_singleton_self _))

end Minted

/-- A session of another user at the same address. -/
def aliceRecord : Record where
  key := str "0A0000075BA1C3D2"
  user := str "alice"
  time := 1700000100
  address := str "10.0.0.7"
  level := []
  key_ge := by decide
  key_lt := by decide
  key_hex := by decide
  user_ne := by decide
  user_field := by decide
  time_lt := by decide
  address_ne := by decide
  address_field := by decide
  level_field := by decide
  tame := Or.inl (by decide)

end VyattaRest.SessionKey
