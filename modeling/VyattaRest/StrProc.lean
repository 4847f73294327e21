/-
  VyattaRest.StrProc — `StrProc` (rl_str_proc.cc), the splitter behind the session file and
  the chunker's replies.

  The constructor does more than split: it turns tabs into four spaces, removes a newline
  that is the only one, writes `~` for each separator and then splits at `~`, so a `~` of
  the text separates too, and it drops empty fields. `strProc` says so in one go, and
  `Constructs` is the constructor loop by loop.
  - `strProc_pieces`: the loops come to an end, for a separator without `~`, and leave the
    pieces that are not empty.
  - `strProc_eq`: the fields are the `Lib.cut` of the text after the first two steps.
  - `strProc_plain`: which they leave alone without tabs and without a lone newline.
  - `mem_strProc`: whatever the text, a field is not empty and holds no tab, no `~` and no
    separator, and a newline only if the text had two.
-/

import VyattaRest.Common

namespace VyattaRest.Rest

open VyattaRest.Lib

/-- The first loop: tabs to spaces. -/
def expandTabs (s : Str) : Str := s.flatMap fun b => if b = 9 then str "    " else [b]

/-- `find("\n") == rfind("\n")`: a newline that is the only one goes. -/
def dropLoneNewline (s : Str) : Str := if s.count 10 = 1 then s.erase 10 else s

/-- The last loop: `find_first_not_of("~")`, then up to `find_first_of("~")`. -/
def collect : Nat → Str → List Str
  | 0, _ => []
  | fuel + 1, tmp =>
    match tmp.dropWhile (· == 126) with
    | [] => []
    | t => t.takeWhile (· != 126) :: (match t.dropWhile (· != 126) with
      | [] => []
      | _ :: rest => collect fuel rest)

/-- `StrProc(in_str, token).get()`. Each round of the last loop takes a byte at least. -/
def strProc (inStr token : Str) : List Str :=
  let tmp := replaceAll token 126 0 (dropLoneNewline (expandTabs inStr))
  collect (tmp.length + 1) tmp

/-- `get(i)`: empty past the end. -/
def StrProc.get (coll : List Str) (i : Nat) : Str := coll.getD i []

/-- `get(start, end)`: the fields from `start` on, a space after each but the last. -/
def StrProc.getRange (coll : List Str) (first last : Nat) : Str :=
  ((coll.take last).drop first |>.flatMap (· ++ str " ")).dropLast

theorem StrProc.get_mem {coll : List Str} {i : Nat} (h : StrProc.get coll i ≠ []) : StrProc.get coll i ∈ coll := by
  unfold StrProc.get at h ⊢
  rcases hi : coll[i]? with _ | f
  · rw [List.getD_eq_getElem?_getD, hi] at h; exact absurd rfl h
  · rw [List.getD_eq_getElem?_getD, hi]
    exact List.mem_of_getElem? hi

/-! ## What the loops compute -/

theorem collect_eq : ∀ (fuel : Nat) (s : Str), s.length < fuel → collect fuel s = (s.splitOn 126).filter (· ≠ []) := by
  intro fuel
  induction fuel with
  | zero => intro s h; omega
  | succ fuel ih =>
    intro s
    induction s with
    | nil => intro _; rfl
    | cons b r ihr =>
      intro h
      rw [List.length_cons] at h
      by_cases hb : b = 126
      · -- A leading `~` is skipped in the same round.
        subst hb
        have hskip : collect (fuel + 1) (126 :: r) = collect (fuel + 1) r := by
          rw [collect, collect, List.dropWhile_cons_of_pos (by simp)]
        rw [hskip, ihr (by omega), ← List.nil_append (126 :: r), List.splitOn_append_cons_self]
        simp
      · have hdrop : (b :: r).dropWhile (· == 126) = b :: r := List.dropWhile_cons_of_neg (by simpa using hb)
        have hsplit := List.takeWhile_append_dropWhile (p := fun d : UInt8 => d != 126) (l := b :: r)
        have hmem : (126 : UInt8) ∉ (b :: r).takeWhile (· != 126) := by
          intro hm
          have := List.mem_takeWhile_imp hm
          simp at this
        have hne : (b :: r).takeWhile (· != 126) ≠ [] := by
          rw [List.takeWhile_cons_of_pos (by simpa using hb)]; simp
        rw [collect, hdrop]
        simp only
        generalize ht : (b :: r).takeWhile (· != 126) = t at *
        rcases hd : (b :: r).dropWhile (· != 126) with _ | ⟨d, rest⟩
        · rw [hd, List.append_nil] at hsplit
          rw [← hsplit, List.splitOn_eq_singleton hmem]
          simp [hne]
        · have hd126 : d = 126 := by
            have := List.head?_dropWhile_not (fun d : UInt8 => d != 126) (b :: r)
            rw [hd] at this
            simpa using this
          rw [hd, hd126] at hsplit
          have hlen := congrArg List.length hsplit
          rw [List.length_append, List.length_cons, List.length_cons] at hlen
          rw [← hsplit, List.splitOn_append_cons_self_of_not_mem hmem, List.filter_cons_of_pos (by simpa using hne)]
          exact congrArg (t :: ·) (ih rest (by omega))

theorem strProc_eq (s token : Str) : strProc s token = cut token 126 (dropLoneNewline (expandTabs s)) :=
  collect_eq _ _ (Nat.lt_succ_self _)

theorem expandTabs_of_notMem {s : Str} (h : (9 : UInt8) ∉ s) : expandTabs s = s := by
  induction s with
  | nil => rfl
  | cons b s ih =>
    simp only [List.mem_cons, not_or] at h
    have hs := ih h.2
    rw [expandTabs] at hs ⊢
    rw [List.flatMap_cons, hs, if_neg (Ne.symm h.1)]
    rfl

theorem tab_notMem_expandTabs (s : Str) : (9 : UInt8) ∉ expandTabs s := by
  intro h
  obtain ⟨b, -, hb⟩ := List.mem_flatMap.mp h
  split at hb
  · revert hb; decide
  · rename_i hne
    exact hne (List.mem_singleton.mp hb).symm

/-- The expansion adds no newline and takes none. -/
theorem count_newline_expandTabs (s : Str) : (expandTabs s).count 10 = s.count 10 := by
  induction s with
  | nil => rfl
  | cons b s ih =>
    rw [expandTabs] at ih ⊢
    rw [List.flatMap_cons, List.count_append, ih, List.count_cons]
    by_cases hb : b = 9
    · subst hb; simp; decide
    · simp [hb, List.count_cons]; omega

theorem strProc_plain {s token : Str} (ht : (9 : UInt8) ∉ s) (hn : s.count 10 ≠ 1) :
    strProc s token = cut token 126 s := by
  rw [strProc_eq, expandTabs_of_notMem ht, dropLoneNewline, if_neg hn]

theorem mem_strProc {s token : Str} {c : UInt8} (h : Tag token c) {f : Str} (hf : f ∈ strProc s token) :
    f ≠ [] ∧ (9 : UInt8) ∉ f ∧ (126 : UInt8) ∉ f ∧ ¬ token <:+: f ∧ ((10 : UInt8) ∈ f → 1 < s.count 10) := by
  rw [strProc_eq] at hf
  obtain ⟨h1, h2, h3, h4⟩ := mem_cut h hf
  have hsub : ∀ b ∈ dropLoneNewline (expandTabs s), b ∈ expandTabs s := by
    intro b hb
    unfold dropLoneNewline at hb
    split at hb
    · exact List.mem_of_mem_erase hb
    · exact hb
  refine ⟨h1, fun hm => tab_notMem_expandTabs s (hsub 9 (h4.subset hm)), h2, h3, fun hm => ?_⟩
  have hm := h4.subset hm
  have hpos := List.count_pos_iff.mpr (hsub 10 hm)
  rw [count_newline_expandTabs] at hpos
  by_contra hle
  have hone : s.count 10 = 1 := by omega
  rw [dropLoneNewline, if_pos (by rw [count_newline_expandTabs]; exact hone)] at hm
  have := List.count_erase_self (a := (10 : UInt8)) (l := expandTabs s)
  rw [count_newline_expandTabs, hone] at this
  exact absurd (List.count_pos_iff.mpr hm) (by omega)

/-! ## Loop by loop -/

/-- `rfind`: the last place of a byte. -/
def rfind (c : UInt8) : Str → Option Nat
  | [] => none
  | b :: s =>
    match rfind c s with
    | some i => some (i + 1)
    | none => if b = c then some 0 else none

/-- Tabs to spaces: `pos` moves over what has been put in. -/
def tabRound : Str × Nat → Option (Str × Nat) := rewriteRound (str "\t") (str "    ") (str "    ").length

/-- `find("\n")`, and no other from the right. -/
def dropNewline (tmp : Str) : Str :=
  match find (str "\n") tmp with
  | none => tmp
  | some pos => if rfind 10 tmp = some pos then tmp.take pos ++ tmp.drop (pos + 1) else tmp

/-- Separators to `~`: `start` stays where it is, at the `~`. -/
def tokenRound (token : Str) : Str × Nat → Option (Str × Nat) := rewriteRound token (str "~") 0

/-- What the last loop works on; `broken` is the `break`. -/
structure Collecting where
  tmp : Str
  strColl : List Str
  broken : Bool

/-- `end + 1`, where `npos` wraps around to 0. -/
def afterEnd : Option Nat → Nat
  | none => 0
  | some i => i + 1

def collectRound (st : Collecting) : Option Collecting :=
  if st.broken then none
  else
    (st.tmp.findIdx? (· != 126)).map fun start =>
      let tmp := substr st.tmp start (st.tmp.length - start)
      let last := tmp.findIdx? (· == 126)
      { tmp := substr tmp (afterEnd last) (tmp.length - afterEnd last)
        strColl := st.strColl ++ [substr tmp 0 (last.getD tmp.length)]
        broken := last.isNone }

/-- The constructor, from its arguments to `_str_coll`. -/
def Constructs (inStr token : Str) (strColl : List Str) : Prop :=
  ∃ tabs tokens collected, Ends tabRound (inStr, 0) tabs ∧ Ends (tokenRound token) (dropNewline tabs.1, 0) tokens ∧
    Ends collectRound ⟨tokens.1, [], false⟩ collected ∧ collected.strColl = strColl

/-- `get(i)` for an `int`: as a `size_t`, a negative one is beyond every size. -/
def StrProc.getInt (strColl : List Str) (i : Int) : Str :=
  if i < 0 ∨ (strColl.length : Int) ≤ i then [] else StrProc.get strColl i.toNat

/-- A round of `get(start, end)`: `i` and `tmp`. -/
def rangeRound (strColl : List Str) (last : Int) (st : Nat × Str) : Option (Nat × Str) :=
  if (st.1 : Int) < last ∧ st.1 < strColl.length then some (st.1 + 1, st.2 ++ (StrProc.get strColl st.1 ++ str " ")) else none

/-- `get(start, end)` comes to an end with `text`. -/
def StrProc.GetsRange (strColl : List Str) (start last : Int) (text : Str) : Prop :=
  if start < 0 ∨ (strColl.length : Int) ≤ start then text = []
  else ∃ st, Ends (rangeRound strColl last) (start.toNat, []) st ∧ text = st.2.dropLast

/-- At `npos` the two arguments of `substr(end+1, tmp.length()-end-1)` are the whole text's. -/
theorem afterEnd_npos {n : Nat} (h : n < 2 ^ 64) :
    addSz npos 1 = afterEnd none ∧ subSz (subSz n npos) 1 = n - afterEnd none := by
  simp only [addSz, subSz, npos, afterEnd]
  omega

theorem tabs_end (s : Str) : ∃ pos, Ends tabRound (s, 0) (expandTabs s, pos) := by
  have hkeep : ∀ b ∈ (str "    ").drop (str "    ").length, b ∉ str "\t" := by decide
  obtain ⟨pos, h⟩ := rewrite_ends (show str "\t" ≠ [] by decide) (Nat.le_refl _) hkeep s [] [] (by simp)
  rw [show str "\t" = [9] by decide, substAll_byte] at h
  exact ⟨pos, h⟩

/-- The separator is not read again in the `~` that stands for it. -/
theorem tokens_end {token : Str} (hne : token ≠ []) (htilde : (126 : UInt8) ∉ token) (s : Str) :
    ∃ pos, Ends (tokenRound token) (s, 0) (replaceAll token 126 0 s, pos) := by
  have hkeep : ∀ b ∈ (str "~").drop 0, b ∉ token := by
    intro b hb
    rw [show (str "~").drop 0 = [126] by decide, List.mem_singleton] at hb
    rwa [hb]
  rw [replaceAll_eq_substAll]
  exact rewrite_ends hne (Nat.zero_le _) hkeep s [] [] (by simp)

theorem rfind_of_notMem {c : UInt8} {s : Str} (h : c ∉ s) : rfind c s = none := by
  induction s with
  | nil => rfl
  | cons b s ih =>
    rw [List.mem_cons, not_or] at h
    rw [rfind, ih h.2]
    exact if_neg (Ne.symm h.1)

theorem rfind_of_mem {c : UInt8} {s : Str} (h : c ∈ s) : ∃ i, rfind c s = some i := by
  induction s with
  | nil => cases h
  | cons b s ih =>
    rw [rfind]
    rcases hs : rfind c s with _ | i
    · rcases List.mem_cons.mp h with rfl | h
      · exact ⟨0, if_pos rfl⟩
      · obtain ⟨i, hi⟩ := ih h
        rw [hi] at hs
        cases hs
    · exact ⟨i + 1, rfl⟩

/-- The last place is here if it is not behind. -/
theorem rfind_append (c : UInt8) (a s : Str) : rfind c (a ++ c :: s) = some (((rfind c s).map (· + 1)).getD 0 + a.length) := by
  induction a with
  | nil =>
    rw [List.nil_append, rfind]
    rcases rfind c s with _ | i
    · exact if_pos rfl
    · rfl
  | cons b a ih =>
    rw [List.cons_append, rfind, ih]
    rfl

theorem dropNewline_eq (s : Str) : dropNewline s = dropLoneNewline s := by
  have hne : str "\n" ≠ [] := by decide
  have hstr : str "\n" = [10] := by decide
  rcases hf : find (str "\n") s with _ | pos
  · have hno : (10 : UInt8) ∉ s := singleton_not_infix.mp (hstr ▸ find_eq_none_iff.mp hf)
    rw [dropNewline, hf, dropLoneNewline, if_neg (by rw [List.count_eq_zero_of_not_mem hno]; decide)]
  · have hbefore := not_infix_take_of_find hne hf
    obtain ⟨a, b, rfl, rfl⟩ := find_split hf
    rw [dropNewline, hf]
    simp only
    rw [hstr] at hbefore ⊢
    rw [List.append_assoc, List.take_left, singleton_not_infix] at hbefore
    have hcount : (a ++ [10] ++ b).count 10 = b.count 10 + 1 := by
      rw [List.append_assoc, List.count_append, List.count_eq_zero_of_not_mem hbefore, List.singleton_append,
        List.count_cons_self, Nat.zero_add]
    rw [dropLoneNewline, hcount, List.append_assoc, List.singleton_append, rfind_append]
    by_cases hb : (10 : UInt8) ∈ b
    · obtain ⟨i, hi⟩ := rfind_of_mem hb
      have hpos := List.count_pos_iff.mpr hb
      have hlater : some (((some i).map (· + 1)).getD 0 + a.length) ≠ some a.length := by
        rw [Option.map_some, Option.getD_some]
        exact fun e => absurd (Option.some.inj e) (by omega)
      rw [hi, if_neg hlater, if_neg (by omega)]
    · have hdrop : (a ++ 10 :: b).drop (a.length + 1) = b := by
        rw [List.drop_append, List.drop_of_length_le (by omega), Nat.add_sub_cancel_left]
        rfl
      rw [rfind_of_notMem hb, List.count_eq_zero_of_not_mem hb, if_pos (by simp), if_pos rfl, List.take_left, hdrop,
        List.erase_append_right _ hbefore, List.erase_cons_head]

/-! ### The last loop -/

theorem substr_end (s : Str) (i : Nat) : substr s i (s.length - i) = s.drop i := by
  rw [substr, ← List.length_drop, List.take_length]

theorem findIdx?_split {p : UInt8 → Bool} {s : Str} {i : Nat} (h : s.findIdx? p = some i) :
    s.take i = s.takeWhile (fun b => !p b) ∧ s.drop i = s.dropWhile (fun b => !p b) := by
  obtain ⟨-, rfl⟩ := List.findIdx?_eq_some_iff_findIdx_eq.mp h
  constructor
  · rw [List.takeWhile_eq_take_findIdx_not]
    simp
  · rw [List.dropWhile_eq_drop_findIdx_not]
    simp

theorem notMem_of_findIdx? {c : UInt8} {s : Str} (h : s.findIdx? (· == c) = none) : ∀ b ∈ s, (b != c) = true := by
  intro b hb
  rw [bne, List.findIdx?_eq_none_iff.mp h b hb]
  rfl

/-- A round on the text behind the `~`s in front, if there is any. -/
theorem collectRound_eq (tmp : Str) (strColl : List Str) :
    let t := tmp.dropWhile (· == 126)
    let last := t.findIdx? (· == 126)
    collectRound ⟨tmp, strColl, false⟩ =
      if t = [] then none else some ⟨t.drop (afterEnd last), strColl ++ [t.take (last.getD t.length)], last.isNone⟩ := by
  intro t last
  rw [collectRound, if_neg Bool.false_ne_true]
  rcases hstart : tmp.findIdx? (· != 126) with _ | start
  · have hnone : t = [] := by
      rw [List.dropWhile_eq_nil_iff]
      intro b hb
      have hno := List.findIdx?_eq_none_iff.mp hstart b hb
      rwa [bne, Bool.not_eq_false'] at hno
    rw [if_pos hnone]
    rfl
  · have hrest : tmp.drop start = t := by
      have h := (findIdx?_split hstart).2
      simpa [bne] using h
    have hne : t ≠ [] := by
      rw [← hrest]
      exact fun e => absurd (List.findIdx?_eq_some_iff_findIdx_eq.mp hstart).1 (by simpa using e)
    rw [if_neg hne, Option.map_some]
    simp only [substr_end, hrest]
    rfl

/-- What `collect` does in a round is what the loop does. -/
theorem collect_ends : ∀ (fuel : Nat) (tmp : Str) (strColl : List Str), tmp.length < fuel →
    ∃ st, Ends collectRound ⟨tmp, strColl, false⟩ st ∧ st.strColl = strColl ++ collect fuel tmp := by
  intro fuel
  induction fuel with
  | zero => exact fun tmp _ h => absurd h (Nat.not_lt_zero _)
  | succ fuel ih =>
    intro tmp strColl hlen
    have hround := collectRound_eq tmp strColl
    have hle : (tmp.dropWhile (· == 126)).length ≤ tmp.length := (List.dropWhile_sublist _).length_le
    rw [collect]
    generalize tmp.dropWhile (· == 126) = t at *
    cases t with
    | nil => exact ⟨_, .stop hround, (List.append_nil _).symm⟩
    | cons b t =>
      simp only [if_neg (List.cons_ne_nil b t)] at hround ⊢
      rcases hlast : (b :: t).findIdx? (· == 126) with _ | last
      · -- The last piece, with `npos` for its end.
        have hall := notMem_of_findIdx? hlast
        rw [hlast] at hround
        rw [List.takeWhile_eq_self_iff.mpr hall, List.dropWhile_eq_nil_iff.mpr hall]
        refine ⟨_, .step hround (.stop rfl), ?_⟩
        simp only [Option.getD_none, List.take_length]
      · obtain ⟨htake, hdrop⟩ := findIdx?_split hlast
        have hlt := (List.findIdx?_eq_some_iff_findIdx_eq.mp hlast).1
        have htail : (b :: t).drop last = (b :: t)[last] :: (b :: t).drop (last + 1) := List.drop_eq_getElem_cons hlt
        rw [hlast] at hround
        obtain ⟨st, hst, hcoll⟩ := ih ((b :: t).drop (last + 1)) (strColl ++ [(b :: t).take last]) (by
          rw [List.length_drop]
          omega)
        have htake' : (b :: t).takeWhile (· != 126) = (b :: t).take last := htake.symm
        have hdrop' : (b :: t).dropWhile (· != 126) = (b :: t).drop last := hdrop.symm
        refine ⟨st, .step hround hst, ?_⟩
        rw [hcoll, htake', hdrop', htail, List.append_assoc]
        rfl

/-! ### The pieces -/

/-- The constructor ends, and with the fields of `strProc` only. -/
theorem constructs_iff {token : Str} (hne : token ≠ []) (htilde : (126 : UInt8) ∉ token) (inStr : Str) (strColl : List Str) :
    Constructs inStr token strColl ↔ strColl = strProc inStr token := by
  obtain ⟨tabPos, htabs⟩ := tabs_end inStr
  obtain ⟨tokenPos, htokens⟩ := tokens_end hne htilde (dropNewline (expandTabs inStr))
  obtain ⟨st, hst, hcoll⟩ := collect_ends _ (replaceAll token 126 0 (dropNewline (expandTabs inStr))) [] (Nat.lt_succ_self _)
  have hfields : st.strColl = strProc inStr token := by
    rw [hcoll, dropNewline_eq, List.nil_append]
    rfl
  constructor
  · rintro ⟨tabs, tokens, collected, h₁, h₂, h₃, rfl⟩
    rw [h₁.unique htabs] at h₂
    rw [h₂.unique htokens] at h₃
    rw [h₃.unique hst, hfields]
  · rintro rfl
    exact ⟨_, _, st, htabs, htokens, hst, hfields⟩

theorem range_ends (strColl : List Str) (last : Int) : ∀ (n i : Nat) (tmp : Str), n = strColl.length - i →
    ∃ st, Ends (rangeRound strColl last) (i, tmp) st ∧
      st.2 = tmp ++ ((strColl.take last.toNat).drop i).flatMap (· ++ str " ") := by
  intro n
  induction n with
  | zero =>
    intro i tmp hn
    refine ⟨_, .stop (if_neg fun h => ?_), ?_⟩
    · exact absurd h.2 (by omega)
    · rw [List.drop_of_length_le (by rw [List.length_take]; omega), List.flatMap_nil, List.append_nil]
  | succ n ih =>
    intro i tmp hn
    by_cases hlast : (i : Int) < last
    · obtain ⟨st, hst, htext⟩ := ih (i + 1) (tmp ++ (StrProc.get strColl i ++ str " ")) (by omega)
      refine ⟨st, .step (if_pos ⟨hlast, by omega⟩) hst, ?_⟩
      have hi : i < (strColl.take last.toNat).length := by
        rw [List.length_take]
        omega
      have hget : (strColl.take last.toNat)[i] = StrProc.get strColl i := by
        rw [List.getElem_take, StrProc.get, List.getD_eq_getElem?_getD, List.getElem?_eq_getElem (by omega), Option.getD_some]
      rw [htext, List.drop_eq_getElem_cons hi, hget, List.flatMap_cons, List.append_assoc]
    · refine ⟨_, .stop (if_neg fun h => hlast h.1), ?_⟩
      rw [List.drop_of_length_le (by rw [List.length_take]; omega), List.flatMap_nil, List.append_nil]

/-- `get(start, end)` is `getRange` where `start` is no negative number. -/
theorem getsRange_iff (strColl : List Str) {start : Int} (h : 0 ≤ start) (last : Int) (text : Str) :
    StrProc.GetsRange strColl start last text ↔ text = StrProc.getRange strColl start.toNat last.toNat := by
  rw [StrProc.GetsRange, StrProc.getRange]
  split
  · rename_i hout
    rw [List.drop_of_length_le (by rw [List.length_take]; omega)]
    rfl
  · obtain ⟨st, hst, htext⟩ := range_ends strColl last _ start.toNat [] rfl
    rw [List.nil_append] at htext
    rw [← htext]
    constructor
    · rintro ⟨st', hst', rfl⟩
      rw [hst'.unique hst]
    · exact fun e => ⟨st, hst, e⟩

/-- The pieces that are not empty, of the text without tabs and without a lone newline. -/
def StrProc.fields (inStr token : Str) : List Str := pieces token 126 (dropLoneNewline (expandTabs inStr))

/-- The separator and `~` cut the text without its tabs and its lone newline, and what is not empty between
    the cuts is there to be got, by its number and from number to number. -/
theorem strProc_pieces (inStr : Str) {token : Str} (hne : token ≠ []) (htilde : (126 : UInt8) ∉ token) :
    let fields := StrProc.fields inStr token
    (∀ strColl, Constructs inStr token strColl ↔ strColl = fields) ∧
      (∀ (i : Nat) (f : Str), fields[i]? = some f → StrProc.getInt fields i = f) ∧
      (∀ i : Int, i < 0 ∨ (fields.length : Int) ≤ i → StrProc.getInt fields i = []) ∧
      (∀ a b : Int, 0 ≤ a → ∀ text, StrProc.GetsRange fields a b text ↔
        text = (str " ").intercalate ((fields.take b.toNat).drop a.toNat)) ∧
      ∀ a b : Int, a < 0 → ∀ text, StrProc.GetsRange fields a b text ↔ text = [] := by
  intro fields
  refine ⟨fun strColl => ?_, fun i f hf => ?_, fun i hi => if_pos hi, fun a b ha text => ?_, fun a b ha text => ?_⟩
  · rw [constructs_iff hne htilde, strProc_eq, cut_eq_pieces]
    rfl
  · obtain ⟨hi, -⟩ := List.getElem?_eq_some_iff.mp hf
    rw [StrProc.getInt, if_neg (by omega), StrProc.get, Int.toNat_natCast, List.getD_eq_getElem?_getD, hf]
    rfl
  · rw [getsRange_iff fields ha, StrProc.getRange, show str " " = [32] by decide, dropLast_separated]
  · rw [StrProc.GetsRange, if_pos (Or.inl ha)]

/-- A tab, the only newline, a `~` of the text and an empty field. -/
theorem a_text_with_all_of_them : ∃ strColl, Constructs (str "a\tb~c::::d\n") (str "::") strColl ∧
    strColl = [str "a    b", str "c", str "d"] ∧ StrProc.getInt strColl 1 = str "c" ∧ StrProc.getInt strColl (-1) = [] ∧
    StrProc.GetsRange strColl 1 3 (str "c d") := by
  obtain ⟨hconstructs, hget, hout, hrange, -⟩ := strProc_pieces (str "a\tb~c::::d\n") (show str "::" ≠ [] by decide) (by decide)
  exact ⟨_, (hconstructs _).mpr rfl, by decide, hget 1 (str "c") (by decide), hout (-1) (Or.inl (by decide)),
    (hrange 1 3 (by decide) (str "c d")).mpr (by decide)⟩

end VyattaRest.Rest
