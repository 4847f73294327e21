/-
  VyattaRest.Chunker.Response — the client's reading of the chunker's replies
  (`get_processes`, `get_process_details` and the head of `get_chunk`, multirespcmd.cc).

  The client splits a reply with `StrProc`, at `%2C` into rows and at `%3A` into fields.
  `StrProc` splits at `~` as well, rewrites tabs and drops a lone newline, and the rows are
  not escaped, so an entry survives exactly when it is clean (`ProcessData.Clean`): none of
  its texts holds a tab, a `~`, `%3A` or `%2C`, and they do not hold one newline in all.
  - `processes_exact_iff`, `details_exact_iff`: a listing (a detail) comes back as it is in
    the table exactly when its entries are clean.
  - `replies_decoded_iff`: the three readers together.
  - `a_separator_shifts_the_fields`: the path `show/a%253Ab` gives an entry whose token is
    read as `b'` and its user as its token.
-/

import VyattaRest.StrProc
import VyattaRest.Chunker.Table

namespace VyattaRest.Chunker

open VyattaRest.Lib VyattaRest.Rest

/-! ## The client -/

/-- The client's own `ProcessData`. -/
structure Listed where
  startTime : Nat
  command : Str
  id : Str
  username : Str
  deriving DecidableEq, Repr

/-- The zeroed 8192-byte buffer after the read. -/
def readReply (reply : Str) : Str := cstr (reply.take 8192 ++ List.replicate (8192 - reply.length) 0)

def readRow (row : Str) : Listed :=
  let sp2 := strProc row (str "%3A")
  { startTime := strtoul 10 (StrProc.get sp2 0)
    command := StrProc.get sp2 1
    id := StrProc.get sp2 2
    username := StrProc.get sp2 3 }

def getProcesses (user reply : Str) : List Listed :=
  if user.isEmpty then [] else (strProc (readReply reply) (str "%2C")).map readRow

/-- `none` stands for the object as it is constructed, with nothing filled in. -/
def getProcessDetails (user id reply : Str) : Option Listed :=
  if user.isEmpty || id.isEmpty then none else (strProc (readReply reply) (str "%2C")).head?.map readRow

/-- The offset `get_chunk` reads out of the reply, when it goes on. -/
def chunkPos (user token reply : Str) : Option Int :=
  if user.isEmpty || token.isEmpty then none
  else
    let chunk := StrProc.get (strProc (readReply reply) (str "%3A")) 4
    if chunk.isEmpty then none else some (strtol 10 chunk)

/-! ## What should come back -/

/-- What a client should see of an entry. -/
def ProcessData.listed (pd : ProcessData) : Listed :=
  { startTime := pd.startTime.toNat, command := pd.command, id := pd.token, username := pd.user }

def ProcessesExact (t : ProcColl) (user : Str) : Prop :=
  getProcesses user (processReply t user) = (t.ofUser user).map (·.listed)

def DetailsExact (t : ProcColl) (token user : Str) : Prop :=
  getProcessDetails user token (detailsReply t token user) = ((t.find token).filter (·.user = user)).map (·.listed)

def NextExact (t : ProcColl) (token user : Str) : Prop :=
  chunkPos user token (nextReply t token user) =
    ((t.find token).filter (·.user = user)).map fun pd => toSigned pd.atNext.readOffset

/-- Texts that `StrProc` gives back: no byte it rewrites, no separator. -/
def CleanText (s : Str) : Prop :=
  (9 : UInt8) ∉ s ∧ (126 : UInt8) ∉ s ∧ ¬ str "%3A" <:+: s ∧ ¬ str "%2C" <:+: s

structure ProcessData.Clean (pd : ProcessData) : Prop where
  command : CleanText pd.command
  token : CleanText pd.token
  user : CleanText pd.user
  newlines : (pd.command ++ pd.token ++ pd.user).count 10 ≠ 1

/-! ## Rows -/

theorem tag_3A : Tag (str "%3A") 37 := ⟨str "3A", by decide, by decide⟩
theorem tag_2C : Tag (str "%2C") 37 := ⟨str "2C", by decide, by decide⟩

/-- A number holds none of the bytes that matter. -/
theorem notMem_ld {x : UInt64} {b : UInt8} (hb : b.toNat < 45 ∨ 57 < b.toNat) : b ∉ ld x := by
  intro h
  rcases mem_ld h with rfl | h
  · revert hb; decide
  · have := isDigit_toNat h
    omega

theorem row_eq (pd : ProcessData) : pd.row = ld pd.startTime ++ (str "%3A" ++ (pd.command ++ (str "%3A" ++
    (pd.token ++ (str "%3A" ++ (pd.user ++ (str "%3A" ++ ld pd.readOffset))))))) := by
  simp [ProcessData.row]

/-- A byte of a row that is neither in a separator nor in a number is in one of the texts. -/
theorem mem_row {pd : ProcessData} {b : UInt8} (hb : b.toNat < 45 ∨ 57 < b.toNat) (hs : b ∉ str "%3A") :
    b ∈ pd.row ↔ b ∈ pd.command ++ pd.token ++ pd.user := by
  have h1 := notMem_ld (x := pd.startTime) hb
  have h2 := notMem_ld (x := pd.readOffset) hb
  simp only [row_eq, List.mem_append, h1, h2, hs, false_or, or_false]
  tauto

theorem count_row (pd : ProcessData) : pd.row.count 10 = (pd.command ++ pd.token ++ pd.user).count 10 := by
  have h : ∀ x : UInt64, (ld x).count 10 = 0 := fun x => List.count_eq_zero.mpr (notMem_ld (by decide))
  have hs : (str "%3A").count 10 = 0 := by decide
  simp only [row_eq, List.count_append, h, hs]
  omega

/-- A separator of rows occurs in a row only inside one of its texts. -/
theorem row_infix_2C {pd : ProcessData} (h : str "%2C" <:+: pd.row) :
    str "%2C" <:+: pd.command ∨ str "%2C" <:+: pd.token ∨ str "%2C" <:+: pd.user := by
  have hsep : ∀ a r : Str, str "%2C" <:+: a ++ (str "%3A" ++ r) → str "%2C" <:+: a ∨ str "%2C" <:+: r := by
    intro a r h
    have e : str "%3A" ++ r = 37 :: (str "3A" ++ r) := rfl
    rw [e] at h
    rcases (infix_append_tag tag_2C).mp h with h | h
    · exact Or.inl h
    · refine Or.inr ?_
      by_contra hr
      have hnone := find_eq_none_iff.mpr hr
      refine find_eq_none_iff.mp ?_ h
      have h0 : (str "%2C").isPrefixOf (37 :: (str "3A" ++ r)) = false := by
        rw [show str "%2C" = [37, 50, 67] by decide, show str "3A" = [51, 65] by decide]
        rfl
      rw [find, h0, find_skip tag_2C (by decide), hnone]
      rfl
  have hld : ∀ x : UInt64, ¬ str "%2C" <:+: ld x := fun x h =>
    notMem_ld (b := 37) (by decide) (h.subset (by decide))
  rw [row_eq] at h
  rcases hsep _ _ h with h | h
  · exact absurd h (hld _)
  · rcases hsep _ _ h with h | h
    · exact Or.inl h
    · rcases hsep _ _ h with h | h
      · exact Or.inr (Or.inl h)
      · rcases hsep _ _ h with h | h
        · exact Or.inr (Or.inr h)
        · exact absurd h (hld _)

theorem row_head (pd : ProcessData) : ∃ b r, pd.row = b :: r ∧ b ≠ 37 := by
  obtain ⟨b, r, hb⟩ := List.exists_cons_of_ne_nil (ld_ne_nil pd.startTime)
  refine ⟨b, _, by rw [row_eq, hb]; rfl, fun e => ?_⟩
  exact notMem_ld (x := pd.startTime) (b := 37) (by decide) (by rw [hb, e]; exact List.mem_cons_self)

/-! ## Clean entries come back -/

/-- The listing of some entries. -/
def listing (pds : List ProcessData) : Str := pds.flatMap fun pd => pd.row ++ str "%2C"

theorem processReply_eq (t : ProcColl) (user : Str) : processReply t user = listing (t.ofUser user) := rfl

theorem listing_cons (pd : ProcessData) (pds : List ProcessData) :
    listing (pd :: pds) = pd.row ++ (str "%2C" ++ listing pds) := by
  simp [listing]

theorem notMem_row {pd : ProcessData} {b : UInt8} (hb : b.toNat < 45 ∨ 57 < b.toNat) (hs : b ∉ str "%3A")
    (h1 : b ∉ pd.command) (h2 : b ∉ pd.token) (h3 : b ∉ pd.user) : b ∉ pd.row := by
  rw [mem_row hb hs, List.mem_append, List.mem_append]
  tauto

theorem notMem_listing {pds : List ProcessData} {b : UInt8} (hs : b ∉ str "%2C") (h : ∀ pd ∈ pds, b ∉ pd.row) :
    b ∉ listing pds := by
  intro hm
  obtain ⟨pd, hpd, hb⟩ := List.mem_flatMap.mp hm
  rcases List.mem_append.mp hb with hb | hb
  · exact h pd hpd hb
  · exact hs hb

/-- A reply that fits and holds no NUL is read as it was sent. -/
theorem readReply_eq {reply : Str} (h : reply.length < 8192) (h0 : (0 : UInt8) ∉ reply) : readReply reply = reply := by
  rw [readReply, List.take_of_length_le (by omega)]
  exact cstr_append_zeros h0 _

namespace ProcessData.Clean

variable {pd : ProcessData} (h : pd.Clean)

include h

theorem tab_notMem_row : (9 : UInt8) ∉ pd.row :=
  notMem_row (by decide) (by decide) h.command.1 h.token.1 h.user.1

theorem tilde_notMem_row : (126 : UInt8) ∉ pd.row :=
  notMem_row (by decide) (by decide) h.command.2.1 h.token.2.1 h.user.2.1

theorem not_infix_row : ¬ str "%2C" <:+: pd.row := by
  intro hi
  rcases row_infix_2C hi with hi | hi | hi
  · exact h.command.2.2.2 hi
  · exact h.token.2.2.2 hi
  · exact h.user.2.2.2 hi

/-- The fields of a row, with a tail behind the offset. -/
theorem cut_row {key : Str} (hk : pd.Started key) {t : Str} (ht : ¬ str "%3A" <:+: ld pd.readOffset ++ t)
    (ht' : (126 : UInt8) ∉ t) : cut (str "%3A") 126 (pd.row ++ t) =
      [ld pd.startTime, pd.command, pd.token, pd.user, ld pd.readOffset ++ t] := by
  have hld : ∀ x : UInt64, ¬ str "%3A" <:+: ld x := fun x h =>
    notMem_ld (b := 37) (by decide) (h.subset (by decide))
  have e : pd.row ++ t = ld pd.startTime ++ (str "%3A" ++ (pd.command ++ (str "%3A" ++
      (pd.token ++ (str "%3A" ++ (pd.user ++ (str "%3A" ++ (ld pd.readOffset ++ t)))))))) := by
    rw [row_eq]; simp
  rw [e, cut_append tag_3A, cut_append tag_3A, cut_append tag_3A, cut_append tag_3A,
    cut_plain (hld _) (notMem_ld (by decide)) (ld_ne_nil _),
    cut_plain h.command.2.2.1 h.command.2.1 hk.command_ne_nil,
    cut_plain h.token.2.2.1 h.token.2.1 hk.token_ne_nil,
    cut_plain h.user.2.2.1 h.user.2.1 hk.user_ne_nil,
    cut_plain ht (by simp [notMem_ld (x := pd.readOffset) (b := 126) (by decide), ht']) (by simp [ld_ne_nil])]
  rfl

theorem readRow_row {key : Str} (hk : pd.Started key) : readRow pd.row = pd.listed := by
  have hp : strProc pd.row (str "%3A") = [ld pd.startTime, pd.command, pd.token, pd.user, ld pd.readOffset] := by
    rw [strProc_plain h.tab_notMem_row (by rw [count_row]; exact h.newlines)]
    have := h.cut_row hk (t := []) (by
      rw [List.append_nil]
      exact fun hi => notMem_ld (x := pd.readOffset) (b := 37) (by decide) (hi.subset (by decide))) (by simp)
    rwa [List.append_nil, List.append_nil] at this
  rw [readRow, hp]
  simp [StrProc.get, strtoul_ld, ProcessData.listed]

end ProcessData.Clean

theorem cut_listing {pds : List ProcessData} (h : ∀ pd ∈ pds, pd.Clean) :
    cut (str "%2C") 126 (listing pds) = pds.map (·.row) := by
  induction pds with
  | nil => rfl
  | cons pd pds ih =>
    have hc := h pd List.mem_cons_self
    obtain ⟨b, r, hr, -⟩ := row_head pd
    rw [listing_cons, cut_append tag_2C, cut_plain hc.not_infix_row hc.tilde_notMem_row (by rw [hr]; simp),
      ih fun x hx => h x (List.mem_cons_of_mem _ hx)]
    rfl

/-- The newlines of a listing are those of its rows: never one in all, if never one in a
    row. -/
theorem count_listing {pds : List ProcessData} (h : ∀ pd ∈ pds, pd.row.count 10 ≠ 1) : (listing pds).count 10 ≠ 1 := by
  induction pds with
  | nil => decide
  | cons pd pds ih =>
    have h1 := h pd List.mem_cons_self
    have h2 := ih fun x hx => h x (List.mem_cons_of_mem _ hx)
    rw [listing_cons, List.count_append, List.count_append, show (str "%2C").count 10 = 0 by decide]
    omega

theorem zero_notMem_listing {pds : List ProcessData} (hk : ∀ pd ∈ pds, ∃ key, pd.Started key) :
    (0 : UInt8) ∉ listing pds := by
  refine notMem_listing (by decide) fun pd hpd => ?_
  obtain ⟨key, hkey⟩ := hk pd hpd
  rw [mem_row (by decide) (by decide)]
  exact hkey.no_nul

/-- The rows of clean entries are found and read. -/
theorem read_listing {pds : List ProcessData} (hk : ∀ pd ∈ pds, ∃ key, pd.Started key)
    (hfit : (listing pds).length < 8192) (h : ∀ pd ∈ pds, pd.Clean) :
    (strProc (readReply (listing pds)) (str "%2C")).map readRow = pds.map (·.listed) := by
  rw [readReply_eq hfit (zero_notMem_listing hk), strProc_plain
    (notMem_listing (by decide) fun pd hpd => (h pd hpd).tab_notMem_row)
    (count_listing fun pd hpd => by rw [count_row]; exact (h pd hpd).newlines), cut_listing h, List.map_map]
  refine List.map_congr_left fun pd hpd => ?_
  obtain ⟨key, hkey⟩ := hk pd hpd
  exact (h pd hpd).readRow_row hkey

/-! ## What comes back was clean -/

/-- The texts of an entry that is read from some row are fields of it. -/
theorem readRow_fields {x : Str} {pd : ProcessData} {key : Str} (hk : pd.Started key) (h : readRow x = pd.listed) :
    pd.command ∈ strProc x (str "%3A") ∧ pd.token ∈ strProc x (str "%3A") ∧ pd.user ∈ strProc x (str "%3A") := by
  simp only [readRow, ProcessData.listed, Listed.mk.injEq] at h
  obtain ⟨-, h1, h2, h3⟩ := h
  have key : ∀ {i : Nat} {f : Str}, StrProc.get (strProc x (str "%3A")) i = f → f ≠ [] → f ∈ strProc x (str "%3A") := by
    intro i f e hne
    rw [← e] at hne ⊢
    exact StrProc.get_mem hne
  exact ⟨key h1 hk.command_ne_nil, key h2 hk.token_ne_nil, key h3 hk.user_ne_nil⟩

/-- No tab, no `~` and no field separator is ever in a field. -/
structure ProcessData.Plain (pd : ProcessData) : Prop where
  tab : (9 : UInt8) ∉ pd.row
  tilde : (126 : UInt8) ∉ pd.row
  command : ¬ str "%3A" <:+: pd.command
  token : ¬ str "%3A" <:+: pd.token
  user : ¬ str "%3A" <:+: pd.user

theorem plain_of_readRow {x : Str} {pd : ProcessData} {key : Str} (hk : pd.Started key) (h : readRow x = pd.listed) :
    pd.Plain := by
  obtain ⟨h1, h2, h3⟩ := readRow_fields hk h
  obtain ⟨-, t1, w1, s1, -⟩ := mem_strProc tag_3A h1
  obtain ⟨-, t2, w2, s2, -⟩ := mem_strProc tag_3A h2
  obtain ⟨-, t3, w3, s3, -⟩ := mem_strProc tag_3A h3
  exact ⟨notMem_row (by decide) (by decide) t1 t2 t3, notMem_row (by decide) (by decide) w1 w2 w3, s1, s2, s3⟩

/-- An entry read from a row with at most one newline has none. -/
theorem newline_notMem_row {x : Str} {pd : ProcessData} {key : Str} (hk : pd.Started key) (h : readRow x = pd.listed)
    (hone : x.count 10 ≤ 1) : (10 : UInt8) ∉ pd.row := by
  obtain ⟨h1, h2, h3⟩ := readRow_fields hk h
  have hf : ∀ f ∈ strProc x (str "%3A"), (10 : UInt8) ∉ f := fun f hf hm =>
    absurd ((mem_strProc tag_3A hf).2.2.2.2 hm) (by omega)
  exact notMem_row (by decide) (by decide) (hf _ h1) (hf _ h2) (hf _ h3)

/-- The first piece of a listing is the row of its first entry, or the row up to a
    separator inside it. If the entry is read from that piece, it is clean. -/
theorem clean_of_first {pd : ProcessData} {key : Str} (hk : pd.Started key) {rest x : Str} {xs : List Str}
    (hx : cut (str "%2C") 126 (pd.row ++ (str "%2C" ++ rest)) = x :: xs) (h : readRow x = pd.listed) :
    pd.Clean ∧ xs = cut (str "%2C") 126 rest := by
  have hp := plain_of_readRow hk h
  -- the newlines of the piece are among those of the row
  have hone : x <:+: pd.row → x.count 10 ≠ 1 := by
    intro hi hone
    have hn := newline_notMem_row hk h (by omega)
    have := List.count_pos_iff.mp (by omega : 0 < x.count 10)
    exact hn (hi.subset this)
  have hsep : ¬ str "%2C" <:+: pd.row := by
    intro hi
    obtain ⟨i, hf⟩ := Option.isSome_iff_exists.mp (contains_iff.mpr hi)
    have ha := not_infix_take_of_find (by decide) hf
    obtain ⟨a, b, hab, rfl⟩ := find_split hf
    rw [hab, List.append_assoc, List.take_left] at ha
    have hane : a ≠ [] := by
      intro e
      obtain ⟨c, r, hr, hc⟩ := row_head pd
      rw [hr, e] at hab
      exact hc (List.cons.inj hab).1
    have hpre : a <:+: pd.row := ⟨[], str "%2C" ++ b, by rw [hab]; simp⟩
    have hcut : cut (str "%2C") 126 (pd.row ++ (str "%2C" ++ rest)) = a :: cut (str "%2C") 126 (b ++ (str "%2C" ++ rest)) := by
      rw [hab, List.append_assoc, List.append_assoc, cut_append tag_2C,
        cut_plain ha (fun hm => hp.tilde (hpre.subset hm)) hane]
      rfl
    rw [hcut, List.cons.injEq] at hx
    obtain ⟨rfl, -⟩ := hx
    -- every field of the piece is a part of it, and it holds no separator
    have hproc : strProc a (str "%3A") = cut (str "%3A") 126 a :=
      strProc_plain (fun hm => hp.tab (hpre.subset hm)) (hone hpre)
    obtain ⟨h1, h2, h3⟩ := readRow_fields hk h
    rw [hproc] at h1 h2 h3
    rcases row_infix_2C hi with hi | hi | hi
    · exact ha (hi.trans (mem_cut tag_3A h1).2.2.2)
    · exact ha (hi.trans (mem_cut tag_3A h2).2.2.2)
    · exact ha (hi.trans (mem_cut tag_3A h3).2.2.2)
  obtain ⟨b, r, hr, -⟩ := row_head pd
  rw [cut_append tag_2C, cut_plain hsep hp.tilde (by rw [hr]; simp), List.singleton_append, List.cons.injEq] at hx
  obtain ⟨rfl, hxs⟩ := hx
  have hsub : ∀ s : Str, s <:+: pd.row → (9 : UInt8) ∉ s ∧ (126 : UInt8) ∉ s ∧ ¬ str "%2C" <:+: s := fun s hs =>
    ⟨fun hm => hp.tab (hs.subset hm), fun hm => hp.tilde (hs.subset hm), fun hi => hsep (hi.trans hs)⟩
  have hcmd := hsub pd.command ⟨ld pd.startTime ++ str "%3A", _, by rw [row_eq]; simp; rfl⟩
  have htok := hsub pd.token ⟨ld pd.startTime ++ str "%3A" ++ pd.command ++ str "%3A", _, by rw [row_eq]; simp; rfl⟩
  have husr := hsub pd.user ⟨ld pd.startTime ++ str "%3A" ++ pd.command ++ str "%3A" ++ pd.token ++ str "%3A",
    str "%3A" ++ ld pd.readOffset, by rw [row_eq]; simp⟩
  exact ⟨⟨⟨hcmd.1, hcmd.2.1, hp.command, hcmd.2.2⟩, ⟨htok.1, htok.2.1, hp.token, htok.2.2⟩,
    ⟨husr.1, husr.2.1, hp.user, husr.2.2⟩, by rw [← count_row]; exact hone List.infix_rfl⟩, hxs.symm⟩

/-- Before the listing is cut, nothing is rewritten in it, if its entries can be read from
    some of its rows. -/
theorem strProc_listing {pds : List ProcessData} (hk : ∀ pd ∈ pds, ∃ key, pd.Started key)
    (h : ∀ pd ∈ pds, ∃ x ∈ strProc (listing pds) (str "%2C"), readRow x = pd.listed) :
    strProc (listing pds) (str "%2C") = cut (str "%2C") 126 (listing pds) := by
  refine strProc_plain (notMem_listing (by decide) fun pd hpd => ?_) fun hone => ?_
  · obtain ⟨key, hkey⟩ := hk pd hpd
    obtain ⟨x, -, hx⟩ := h pd hpd
    exact (plain_of_readRow hkey hx).tab
  · -- the only newline would be gone from every field, but it is in one of the entries
    have hno : (10 : UInt8) ∉ listing pds := by
      refine notMem_listing (by decide) fun pd hpd => ?_
      obtain ⟨key, hkey⟩ := hk pd hpd
      obtain ⟨x, hmem, hx⟩ := h pd hpd
      have hxn : (10 : UInt8) ∉ x := fun hm => absurd ((mem_strProc tag_2C hmem).2.2.2.2 hm) (by omega)
      exact newline_notMem_row hkey hx (by rw [List.count_eq_zero.mpr hxn]; omega)
    rw [List.count_eq_zero.mpr hno] at hone
    exact absurd hone (by decide)

theorem clean_of_listing : ∀ {pds : List ProcessData}, (∀ pd ∈ pds, ∃ key, pd.Started key) →
    (cut (str "%2C") 126 (listing pds)).map readRow = pds.map (·.listed) → ∀ pd ∈ pds, pd.Clean := by
  intro pds
  induction pds with
  | nil => intro _ _ pd hpd; cases hpd
  | cons e pds ih =>
    intro hk h
    obtain ⟨key, hkey⟩ := hk e List.mem_cons_self
    rcases hx : cut (str "%2C") 126 (listing (e :: pds)) with _ | ⟨x, xs⟩
    · rw [hx] at h; cases h
    · rw [hx, List.map_cons, List.map_cons, List.cons.injEq] at h
      rw [listing_cons] at hx
      obtain ⟨hc, hxs⟩ := clean_of_first hkey hx h.1
      intro pd hpd
      rcases List.mem_cons.mp hpd with rfl | hpd
      · exact hc
      · exact ih (fun x hx => hk x (List.mem_cons_of_mem _ hx)) (hxs ▸ h.2) pd hpd

/-! ## The three readers -/

section Readers

variable {t : ProcColl} (ht : t.Started) {user : Str}

include ht

theorem started_ofUser : ∀ pd ∈ t.ofUser user, ∃ key, pd.Started key := by
  intro pd hpd
  have hf := ((mem_ofUser ht).mp hpd).1
  exact ⟨pd.token, ht _ (OrdMap.mem_entries.mpr hf)⟩

theorem user_isEmpty {pd : ProcessData} (hpd : pd ∈ t.ofUser user) : user.isEmpty = false := by
  obtain ⟨key, hkey⟩ := started_ofUser ht pd hpd
  have hu := ((mem_ofUser ht).mp hpd).2
  rw [← hu]
  simpa using hkey.user_ne_nil

/-- A listing comes back exactly when all its entries are clean. -/
theorem processes_exact_iff (hfit : (processReply t user).length < 8192) :
    ProcessesExact t user ↔ ∀ pd ∈ t.ofUser user, pd.Clean := by
  have hk : ∀ pd ∈ t.ofUser user, ∃ key, pd.Started key := started_ofUser ht
  rw [processReply_eq] at hfit
  rcases hl : t.ofUser user with _ | ⟨e, es⟩
  · have hr : processReply t user = [] := by rw [processReply, hl]; rfl
    rw [ProcessesExact, hr, hl, getProcesses]
    simp only [List.not_mem_nil, false_implies, implies_true, iff_true]
    split
    · rfl
    · rfl
  · have hu : user.isEmpty = false := user_isEmpty ht (by rw [hl]; exact List.mem_cons_self)
    rw [← hl, ProcessesExact, getProcesses, hu]
    constructor
    · intro h
      have hread : (strProc (listing (t.ofUser user)) (str "%2C")).map readRow = (t.ofUser user).map (·.listed) := by
        rwa [processReply_eq, readReply_eq hfit (zero_notMem_listing hk)] at h
      have hsome : ∀ pd ∈ t.ofUser user, ∃ x ∈ strProc (listing (t.ofUser user)) (str "%2C"), readRow x = pd.listed := by
        intro pd hpd
        have hm : pd.listed ∈ (t.ofUser user).map (·.listed) := List.mem_map_of_mem hpd
        rw [← hread] at hm
        exact List.mem_map.mp hm
      rw [strProc_listing hk hsome] at hread
      exact clean_of_listing hk hread
    · intro h
      exact read_listing hk hfit h

omit ht in
/-- One row, read by the details reader. -/
theorem read_one_iff {pd : ProcessData} {key : Str} (hkey : pd.Started key) (hfit : (listing [pd]).length < 8192) :
    (strProc (readReply (listing [pd])) (str "%2C")).head?.map readRow = some pd.listed ↔ pd.Clean := by
  have hk : ∀ x ∈ [pd], ∃ key, x.Started key := fun x hx => ⟨key, by rwa [List.mem_singleton.mp hx]⟩
  constructor
  · intro h
    rw [readReply_eq hfit (zero_notMem_listing hk)] at h
    rcases hx : strProc (listing [pd]) (str "%2C") with _ | ⟨x, xs⟩
    · rw [hx] at h; cases h
    · rw [hx, List.head?_cons, Option.map_some, Option.some.injEq] at h
      have hsome : ∀ e ∈ [pd], ∃ x ∈ strProc (listing [pd]) (str "%2C"), readRow x = e.listed := by
        intro e he
        rw [List.mem_singleton.mp he, hx]
        exact ⟨x, List.mem_cons_self, h⟩
      rw [strProc_listing hk hsome, listing_cons] at hx
      exact (clean_of_first hkey hx h).1
  · intro h
    rw [← List.head?_map, read_listing hk hfit fun x hx => by rwa [List.mem_singleton.mp hx]]
    rfl

/-- The entry a token addresses, if it is the user's. -/
theorem find_filter_cases (user token : Str) :
    ((t.find token).filter (·.user = user) = none ∧ ∀ pd, t.find token = some pd → pd.user ≠ user) ∨
      ∃ pd, (t.find token).filter (·.user = user) = some pd ∧ t.find token = some pd ∧ pd.user = user ∧
        pd.Started token ∧ (user.isEmpty || token.isEmpty) = false := by
  rcases hf : t.find token with _ | pd
  · exact Or.inl ⟨rfl, by simp⟩
  · by_cases hu : pd.user = user
    · have hkey : pd.Started token := ht _ (OrdMap.mem_entries.mpr hf)
      refine Or.inr ⟨pd, by simp [hu], rfl, hu, hkey, ?_⟩
      rw [← hu, ← hkey.token_eq]
      simp [hkey.user_ne_nil, hkey.token_ne_nil]
    · exact Or.inl ⟨by simp [hu], fun x hx => by cases hx; exact hu⟩

/-- The details of a token come back exactly when the entry they are about is clean. -/
theorem details_exact_iff (token : Str) (hfit : (detailsReply t token user).length < 8192) :
    DetailsExact t token user ↔ ∀ pd, t.find token = some pd → pd.user = user → pd.Clean := by
  have hreply : detailsReply t token user = listing ((t.find token).filter (·.user = user)).toList := by
    rw [detailsReply, ofUser_token ht]; rfl
  rw [DetailsExact, getProcessDetails]
  rw [hreply] at hfit ⊢
  rcases find_filter_cases ht user token with ⟨hnone, hne⟩ | ⟨pd, hsome, hfind, hu, hkey, hempty⟩
  · rw [hnone]
    refine ⟨fun _ pd hpd hu => absurd hu (hne pd hpd), fun _ => ?_⟩
    split <;> rfl
  · rw [hsome] at hfit ⊢
    rw [hempty, Option.toList_some, Option.map_some]
    simp only [Bool.false_eq_true, if_false]
    refine Iff.trans (read_one_iff hkey hfit) ⟨fun h x hx _ => ?_, fun h => h pd hfind hu⟩
    rw [hfind] at hx
    cases hx
    exact h

omit ht in
theorem atNext_row_clean {pd : ProcessData} {key : Str} (hk : pd.Started key) (hc : pd.Clean) :
    pd.atNext.Started key ∧ pd.atNext.Clean := by
  unfold ProcessData.atNext
  split
  · exact ⟨⟨hk.token_eq, hk.command_ne_nil, hk.token_ne_nil, hk.user_ne_nil, hk.no_nul⟩,
      ⟨hc.command, hc.token, hc.user, hc.newlines⟩⟩
  · exact ⟨hk, hc⟩

omit ht in
/-- The fifth field of a `<next>` row is the offset, with the newline behind it or
    without. -/
theorem next_field {pd : ProcessData} {key : Str} (hk : pd.Started key) (hc : pd.Clean) :
    ∃ t, (t = [] ∨ t = str "\n") ∧
      StrProc.get (strProc (pd.row ++ str "\n") (str "%3A")) 4 = ld pd.readOffset ++ t := by
  have hnl : str "\n" = [10] := by decide
  have htab : (9 : UInt8) ∉ pd.row ++ str "\n" := by
    rw [List.mem_append, not_or]; exact ⟨hc.tab_notMem_row, by decide⟩
  have hld : ∀ t : Str, (37 : UInt8) ∉ t → ¬ str "%3A" <:+: ld pd.readOffset ++ t := by
    intro t ht hi
    have hm : (37 : UInt8) ∈ ld pd.readOffset ++ t := hi.subset (by decide)
    rcases List.mem_append.mp hm with hm | hm
    · exact notMem_ld (by decide) hm
    · exact ht hm
  by_cases h0 : pd.row.count 10 = 0
  · have hdrop : dropLoneNewline (pd.row ++ str "\n") = pd.row := by
      rw [dropLoneNewline, hnl, if_pos (by simp [h0]), List.erase_append_right _ (List.count_eq_zero.mp h0)]
      simp
    have hcut := hc.cut_row hk (hld [] (by simp)) (by simp)
    rw [List.append_nil] at hcut
    refine ⟨[], Or.inl rfl, ?_⟩
    rw [strProc_eq, expandTabs_of_notMem htab, hdrop, hcut]
    rfl
  · have hcount : (pd.row ++ str "\n").count 10 ≠ 1 := by
      rw [List.count_append, show (str "\n").count 10 = 1 by decide]
      omega
    refine ⟨str "\n", Or.inr rfl, ?_⟩
    rw [strProc_plain htab hcount, hc.cut_row hk (hld _ (by decide)) (by decide)]
    rfl

/-- The offset of a clean entry comes back. -/
theorem next_exact (token : Str) (hfit : (nextReply t token user).length < 8192)
    (hclean : ∀ pd, t.find token = some pd → pd.user = user → pd.Clean) : NextExact t token user := by
  rw [NextExact, chunkPos]
  rcases find_filter_cases ht user token with ⟨hnone, hne⟩ | ⟨pd, hsome, hfind, hu, hkey, hempty⟩
  · -- no row is sent: two spaces or nothing
    have hreply : StrProc.get (strProc (readReply (nextReply t token user)) (str "%3A")) 4 = [] := by
      rw [nextReply]
      rcases hf : t.find token with _ | pd
      · show StrProc.get (strProc (readReply (str "  ")) (str "%3A")) 4 = []
        decide
      · simp only [if_pos (Ne.symm (hne pd hf))]
        decide
    rw [hnone, hreply]
    split <;> rfl
  · obtain ⟨hkey', hc⟩ := atNext_row_clean hkey (hclean pd hfind hu)
    have hreply : nextReply t token user = pd.atNext.row ++ str "\n" := by
      rw [nextReply, hfind]
      simp only [if_neg (not_not_intro hu.symm)]
    have h0 : (0 : UInt8) ∉ pd.atNext.row ++ str "\n" := by
      rw [List.mem_append, not_or]
      exact ⟨by rw [mem_row (by decide) (by decide)]; exact hkey'.no_nul, by decide⟩
    rw [hreply] at hfit
    rw [hsome, hempty, hreply, readReply_eq hfit h0]
    obtain ⟨t', ht', hfield⟩ := next_field hkey' hc
    have hne : (ld pd.atNext.readOffset ++ t').isEmpty = false := by
      simp [ld_ne_nil]
    have hdig : ∀ b ∈ t'.head?, digitVal 10 b = none := by
      rcases ht' with rfl | rfl
      · simp
      · intro b hb
        obtain rfl := Option.some.inj hb
        decide
    simp only [hfield, hne, Bool.false_eq_true, if_false, strtol_ld _ hdig, Option.map_some]

omit ht in
theorem row_length_le {pds : List ProcessData} {pd : ProcessData} (h : pd ∈ pds) :
    pd.row.length + 3 ≤ (listing pds).length := by
  obtain ⟨a, b, rfl⟩ := List.append_of_mem h
  simp only [listing, List.flatMap_append, List.flatMap_cons, List.length_append]
  rw [show (str "%2C").length = 3 by decide]
  omega

omit ht in
/-- The offset -1 is at most one byte longer than another. -/
theorem atNext_row_length (pd : ProcessData) : pd.atNext.row.length ≤ pd.row.length + 1 := by
  unfold ProcessData.atNext
  split
  · have h1 : (ld (-1)).length = 2 := by decide
    have h2 := List.length_pos_iff.mpr (ld_ne_nil pd.readOffset)
    simp only [row_eq, List.length_append, h1]
    omega
  · omega

/-- A listing that fits leaves room for each of the other replies. -/
theorem other_replies_fit (token : Str) (hfit : (processReply t user).length < 8192) :
    (detailsReply t token user).length < 8192 ∧ (nextReply t token user).length < 8192 := by
  rw [detailsReply, ofUser_token ht, nextReply]
  rcases find_filter_cases ht user token with ⟨hnone, hne⟩ | ⟨pd, hsome, hfind, hu, hkey, -⟩
  · refine ⟨by rw [hnone]; decide, ?_⟩
    rcases hf : t.find token with _ | pd
    · show (str "  ").length < 8192
      decide
    · simp only [if_pos (Ne.symm (hne pd hf))]
      decide
  · have hlen := row_length_le ((mem_ofUser ht).mpr ⟨by rw [hkey.token_eq]; exact hfind, hu⟩)
    have hnext := atNext_row_length pd
    rw [← processReply_eq] at hlen
    rw [hsome, hfind]
    simp only [if_neg (not_not_intro hu.symm), Option.toList_some, List.flatMap_cons, List.flatMap_nil, List.append_nil,
      List.length_append]
    rw [show (str "%2C").length = 3 by decide, show (str "\n").length = 1 by decide]
    omega

/-- For a table of started processes: when the listing of a user fits the buffer, all that
    the user reads is right exactly when all the user's entries are clean; and so it is for
    each entry on its own. -/
theorem replies_decoded_iff :
    ((processReply t user).length < 8192 →
      ((ProcessesExact t user ∧ (∀ token, DetailsExact t token user) ∧ ∀ token, NextExact t token user) ↔
        ∀ pd ∈ t.ofUser user, pd.Clean)) ∧
    (∀ token, (detailsReply t token user).length < 8192 →
      (DetailsExact t token user ↔ ∀ pd, t.find token = some pd → pd.user = user → pd.Clean)) ∧
    (∀ token, (nextReply t token user).length < 8192 →
      (∀ pd, t.find token = some pd → pd.user = user → pd.Clean) → NextExact t token user) := by
  refine ⟨fun hfit => ?_, fun token => details_exact_iff ht token, fun token => next_exact ht token⟩
  rw [processes_exact_iff ht hfit]
  refine ⟨fun h => h.1, fun h => ?_⟩
  have hentry : ∀ token pd, t.find token = some pd → pd.user = user → pd.Clean := by
    intro token pd hf hu
    have hkey : pd.Started token := ht _ (OrdMap.mem_entries.mpr hf)
    exact h pd ((mem_ofUser ht).mpr ⟨by rw [hkey.token_eq]; exact hf, hu⟩)
  refine ⟨h, fun token => ?_, fun token => ?_⟩
  · exact (details_exact_iff ht token (other_replies_fit ht token hfit).1).mpr (hentry token)
  · exact next_exact ht token (other_replies_fit ht token hfit).2 (hentry token)

end Readers

/-- A table of one process. -/
def oneProcess (command : Str) : ProcColl :=
  OrdMap.empty.insert (str "0123456789ABCDEF")
    { startTime := 1568000000, lastUpdate := 1568000000, command, token := str "0123456789ABCDEF"
      user := str "vyatta", readOffset := 98304, status := .running }

theorem show_version_is_listed : ProcessesExact (oneProcess (str "show 'version'")) (str "vyatta") ∧
    (∀ token, DetailsExact (oneProcess (str "show 'version'")) token (str "vyatta")) ∧
    ∀ token, NextExact (oneProcess (str "show 'version'")) token (str "vyatta") := by
  have hstarted : (oneProcess (str "show 'version'")).Started := by
    intro p hp
    obtain rfl := List.mem_singleton.mp hp
    exact ⟨rfl, by decide, by decide, by decide, by decide⟩
  refine ((replies_decoded_iff hstarted).1 (by decide)).mpr fun pd hpd => ?_
  obtain rfl := List.mem_singleton.mp hpd
  refine ⟨⟨by decide, by decide, ?_, ?_⟩, ⟨by decide, by decide, ?_, ?_⟩, ⟨by decide, by decide, ?_, ?_⟩, by decide⟩
  all_goals rw [← find_eq_none_iff]; decide

/-- The client takes the rest of the command for the token and the token for the user. -/
theorem a_separator_shifts_the_fields :
    let t := oneProcess (translateRestToCli (str "show/a%253Ab"))
    t.Started ∧ (processReply t (str "vyatta")).length < 8192 ∧
      (getProcesses (str "vyatta") (processReply t (str "vyatta"))).map (·.id) = [str "b'"] ∧
      ¬ ProcessesExact t (str "vyatta") := by
  refine ⟨fun p hp => ?_, by decide, by decide, fun h => ?_⟩
  · obtain rfl := List.mem_singleton.mp hp
    exact ⟨rfl, by decide, by decide, by decide, by decide⟩
  · revert h
    unfold ProcessesExact
    decide

end VyattaRest.Chunker
