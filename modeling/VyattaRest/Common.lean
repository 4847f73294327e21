/-
  VyattaRest.Common — constants and string helpers shared by the REST server and the
  chunker (`class Rest`, common.cc).

  `replaces_all`: the loop of `mass_replace` ends, and has replaced every victim that is found
  from left to right in the source, whether or not the replacement holds victims.

  `translateRestToCli` turns the path of a REST command into a CLI line: the first path
  segment is copied as it stands, every later one is percent-decoded and quoted
  (`quoteToken`). The source is a loop over the positions of `/` that starts searching
  at position 1; `translateRestToCli_eq` says what the loop computes: nothing for a path
  without a `/` after its first byte, otherwise the segments around the `/`s
  (`segments`), the first one raw. `translate_ends_quoted`: a non-empty result ends in a
  single quote, whatever the path holds.
-/

import VyattaRest.Lib.Loop
import VyattaRest.Lib.Percent
import VyattaRest.Lib.Split

namespace VyattaRest.Rest

open VyattaRest.Lib

/-! ## Constants -/

def confReqRoot : Str := str "/rest/conf"
def opReqRoot : Str := str "/rest/op"
def appReqRoot : Str := str "/rest/app"
def permReqRoot : Str := str "/rest/perm"
def serviceReqRoot : Str := str "/rest/service"

def maxBodySize : Nat := 33554432

def configTmpDir : Str := str "/tmp/"
def localChangesOnly : Str := str "/rw/"
def localConfigDir : Str := str "/u/"
def confCommandDir : Str := str "/opt/vyatta/share/vyatta-cfg/templates"
def serviceCommandDir : Str := str "/opt/vyatta/share/vyatta-service/templates"

def chunkerRespTokDir : Str := str "/opt/vyatta/tmp/webgui2/"
def chunkerRespTokBase : Str := str "multi_"
def chunkerRespPid : Str := str "/tmp"
def chunkerReadSize : Nat := 98304

def chunkerCommandFormat : Str :=
  str "<vyatta><command><token>%s</token><statement>%s</statement><user>%s</user></command></vyatta>"
def chunkerProcessFormat : Str := str "<vyatta><process><token>%s</token><user>%s</user></process></vyatta>"
def chunkerDetailsFormat : Str := str "<vyatta><details><token>%s</token><user>%s</user></details></vyatta>"
def chunkerNextFormat : Str := str "<vyatta><next><token>%s</token><user>%s</user></next></vyatta>"
def chunkerDeleteFormat : Str := str "<vyatta><delete><token>%s</token><user>%s</user></delete></vyatta>"

/-- The data file of a token, and the file that marks its end. -/
def chunkFile (token : Str) : Str := chunkerRespTokDir ++ chunkerRespTokBase ++ token
def endFile (token : Str) : Str := chunkerRespTokDir ++ chunkerRespTokBase ++ token ++ str "_end"

theorem endFile_ne_chunkFile (token : Str) : endFile token ≠ chunkFile token := by
  intro h
  have := congrArg List.length h
  simp [endFile, chunkFile, show (str "_end").length = 4 from rfl] at this

/-! ## Strings -/

/-- `mass_replace`: `answer` is searched from behind the last replacement on. Without an
    empty victim each round takes a byte of the source at least. -/
def massReplaceLoop (victim replacement : Str) : Nat → Str → Nat → Str
  | 0, answer, _ => answer
  | fuel + 1, answer, start =>
    match findFrom victim answer start with
    | none => answer
    | some j =>
      massReplaceLoop victim replacement fuel (answer.take j ++ replacement ++ answer.drop (j + victim.length))
        (j + replacement.length)

def massReplace (source victim replacement : Str) : Str :=
  massReplaceLoop victim replacement (source.length + 1) source 0

/-- `trim`: spaces and tabs at both ends. -/
def trim (s : Str) : Str :=
  let blank (b : UInt8) : Bool := b == 32 || b == 9
  ((s.dropWhile blank).reverse.dropWhile blank).reverse

/-- The variables of the loop. -/
structure Replacing where
  answer : Str
  j : Nat
  offset : Nat

/-- A round of it: `j` is where a victim is found, and `offset` what is stepped over from there. -/
def replaceRound (victim replacement : Str) (st : Replacing) : Option Replacing :=
  (findFrom victim st.answer (st.j + st.offset)).map fun j =>
    { answer := st.answer.take j ++ replacement ++ st.answer.drop (j + victim.length), j, offset := replacement.length }

/-- What is replaced is not searched again. -/
theorem massReplaceLoop_eq {victim : Str} (hne : victim ≠ []) (w : Str) (rest : Str) :
    ∀ (fuel : Nat) (done : Str), rest.length < fuel →
    massReplaceLoop victim w fuel (done ++ rest) done.length = done ++ substAll victim w 0 rest := by
  induction rest using first_induction hne with
  | base rest hf =>
    intro fuel done hfuel
    cases fuel with
    | zero => cases hfuel
    | succ fuel =>
      rw [massReplaceLoop, findFrom, if_pos (by simp), List.drop_left, hf, substAll_of_none w hf]
      rfl
  | step a b hf ih =>
    intro fuel done hfuel
    cases fuel with
    | zero => cases hfuel
    | succ fuel =>
      obtain ⟨hfind, hreplaced⟩ := replace_first done w hf
      have hpos := List.length_pos_iff.mpr hne
      have hrest := ih fuel (done ++ a ++ w) (by simp only [List.length_append] at hfuel; omega)
      rw [List.length_append, List.length_append, Nat.add_comm done.length] at hrest
      rw [massReplaceLoop, hfind]
      simp only
      rw [hreplaced, hrest, substAll_of_first hne w hf, List.append_assoc, List.append_assoc]

theorem massReplace_eq (s : Str) {victim : Str} (hne : victim ≠ []) (w : Str) : massReplace s victim w = substAll victim w 0 s :=
  massReplaceLoop_eq hne w s (s.length + 1) [] (Nat.lt_succ_self _)

theorem replace_ends {victim : Str} (hne : victim ≠ []) (w : Str) (rest : Str) :
    ∀ (done : Str) (j offset : Nat), j + offset = done.length →
    ∃ st, Ends (replaceRound victim w) ⟨done ++ rest, j, offset⟩ st ∧ st.answer = done ++ substAll victim w 0 rest := by
  induction rest using first_induction hne with
  | base rest hf =>
    intro done j offset hj
    refine ⟨_, .stop ?_, ?_⟩
    · rw [replaceRound, hj, findFrom, if_pos (by simp), List.drop_left, hf]
      rfl
    · rw [substAll_of_none w hf]
  | step a b hf ih =>
    intro done j offset hj
    obtain ⟨hfind, hreplaced⟩ := replace_first done w hf
    obtain ⟨st, hst, hanswer⟩ := ih (done ++ a ++ w) (a.length + done.length) w.length (by simp; omega)
    refine ⟨st, .step ?_ hst, ?_⟩
    · rw [replaceRound, hj, hfind, Option.map_some, hreplaced]
    · rw [hanswer, substAll_of_first hne w hf, List.append_assoc, List.append_assoc]

/-- The loop comes to an end, with every victim replaced that is found from left to right. -/
theorem replaces_all (source : Str) {victim : Str} (hne : victim ≠ []) (replacement : Str) :
    (∃ st, Ends (replaceRound victim replacement) ⟨source, 0, 0⟩ st) ∧
      ∀ st, Ends (replaceRound victim replacement) ⟨source, 0, 0⟩ st →
        st.answer = substAll victim replacement 0 source ∧ massReplace source victim replacement = st.answer := by
  obtain ⟨st, hst, hanswer⟩ := replace_ends hne replacement source [] 0 0 rfl
  refine ⟨⟨st, hst⟩, fun st' hst' => ?_⟩
  rw [hst'.unique hst, massReplace_eq source hne, hanswer]
  exact ⟨rfl, rfl⟩

/-- A victim that overlaps itself, and a replacement that holds it. -/
theorem a_victim_that_overlaps : ∃ st, Ends (replaceRound (str "aa") (str "baa")) ⟨str "aaaab", 0, 0⟩ st ∧
    st.answer = str "baabaab" := by
  obtain ⟨⟨st, hst⟩, hall⟩ := replaces_all (str "aaaab") (show str "aa" ≠ [] by decide) (str "baa")
  exact ⟨st, hst, (hall st hst).1⟩

theorem substAll_byte (a : UInt8) (w s : Str) : substAll [a] w 0 s = s.flatMap fun x => if x = a then w else [x] := by
  induction s with
  | nil => rfl
  | cons b s ih =>
    rw [substAll, List.flatMap_cons, ← ih]
    by_cases e : b = a
    · rw [if_pos (by simp [e]), if_pos e]
      rfl
    · rw [if_neg (by simp [Ne.symm e]), if_neg e]
      rfl

/-- Replacing a byte by a text. -/
theorem massReplace_flatMap (s : Str) (a : UInt8) (w : Str) :
    massReplace s [a] w = s.flatMap fun x => if x = a then w else [x] := by
  rw [massReplace_eq s (List.cons_ne_nil _ _), substAll_byte]

/-- Replacing a byte by a byte. -/
theorem massReplace_byte (s : Str) (a b : UInt8) :
    massReplace s [a] [b] = s.map fun x => if x = a then b else x := by
  have hone : (fun x => if x = a then [b] else [x]) = fun x : UInt8 => [if x = a then b else x] := by
    funext x
    split <;> rfl
  rw [massReplace_flatMap, hone, ← List.map_eq_flatMap]

/-! ## From a REST path to a CLI line -/

/-- `string(curl_easy_unescape(..))`: decoded, and cut at the first NUL. -/
def unescape (s : Str) : Str := cstr (percentDecode s)

/-- A decoded value as the CLI line carries it: already in single quotes, in double
    quotes (rewritten), or bare. A lone `"` is in double quotes too: `size() - 2` wraps
    there, and nothing is left to take. -/
def quoteToken (t : Str) : Str :=
  if t.head? = some 39 ∧ t.getLast? = some 39 then str " " ++ t
  else if t.head? = some 34 ∧ t.getLast? = some 34 then str " '" ++ substr t 1 (t.length - 2) ++ str "'"
  else str " '" ++ t ++ str "'"

/-- The `while` over the `/`s: the position of the last one, how many there were, and
    the line so far. -/
def translateLoop (inCmd : Str) : Nat → Nat → Nat → Str → Nat × Nat × Str
  | 0, oldPos, ct, cmd => (oldPos, ct, cmd)
  | fuel + 1, oldPos, ct, cmd =>
    match findFrom (str "/") inCmd (oldPos + 1) with
    | none => (oldPos, ct, cmd)
    | some curPos =>
      let token := unescape (substr inCmd (oldPos + 1) (curPos - (oldPos + 1)))
      translateLoop inCmd fuel curPos (ct + 1) (if ct = 0 then substr inCmd 0 curPos else cmd ++ quoteToken token)

/-- `Rest::translate_rest_to_cli`. Each round moves at least one byte on, so the length
    of the path bounds the rounds. -/
def translateRestToCli (inCmd : Str) : Str :=
  match translateLoop inCmd inCmd.length 0 0 [] with
  | (oldPos, ct, cmd) => if 0 < ct then cmd ++ quoteToken (unescape (inCmd.drop (oldPos + 1))) else cmd

/-! ### What the loop computes -/

/-- The segments around the `/`s, where a leading `/` is no separator. -/
def segments : Str → List Str
  | [] => [[]]
  | b :: r => (r.splitOn 47).modifyHead (b :: ·)

theorem slash_eq : str "/" = [47] := by decide

theorem find_slash_none {s : Str} (h : find (str "/") s = none) : s.splitOn 47 = [s] := by
  rw [slash_eq, find_eq_none_iff] at h
  refine List.splitOn_eq_singleton fun hm => h ?_
  obtain ⟨a, b, rfl⟩ := List.append_of_mem hm
  exact ⟨a, b, by simp⟩

theorem find_slash_some {s : Str} {i : Nat} (h : find (str "/") s = some i) :
    s.splitOn 47 = s.take i :: (s.drop (i + 1)).splitOn 47 ∧ i < s.length := by
  rw [slash_eq] at h
  have hni := not_infix_take_of_find (by simp) h
  obtain ⟨a, b, rfl, rfl⟩ := find_split h
  have ha : (47 : UInt8) ∉ a := by
    intro hm
    obtain ⟨x, y, hxy⟩ := List.append_of_mem hm
    have ht : (a ++ [47] ++ b).take a.length = a := by simp
    exact hni ⟨x, y, by rw [ht, hxy]; simp⟩
  refine ⟨?_, by simp⟩
  have := List.splitOn_append_cons_of_beq (a := (47 : UInt8)) a b (beq_self_eq_true 47)
  rw [List.append_assoc, List.singleton_append, this, List.splitOn_eq_singleton ha]
  simp

/-- From a `/` on, the rest of the loop and the tail after it quote every segment. -/
theorem translateLoop_tail (inCmd : Str) : ∀ (fuel oldPos ct : Nat) (cmd : Str), 0 < ct →
    inCmd.length ≤ fuel + oldPos → oldPos < inCmd.length →
    (match translateLoop inCmd fuel oldPos ct cmd with
      | (p, n, c) => 0 < n ∧ c ++ quoteToken (unescape (inCmd.drop (p + 1))) =
          cmd ++ (((inCmd.drop (oldPos + 1)).splitOn 47).map (quoteToken ∘ unescape)).flatten) := by
  intro fuel
  induction fuel with
  | zero => intro oldPos ct cmd hct hf hp; omega
  | succ fuel ih =>
    intro oldPos ct cmd hct hf hp
    simp only [translateLoop, findFrom]
    rw [if_pos (by omega)]
    rcases hfind : find (str "/") (inCmd.drop (oldPos + 1)) with _ | i
    · simp only [Option.map_none]
      exact ⟨hct, by rw [find_slash_none hfind]; simp⟩
    · obtain ⟨hsplit, hi⟩ := find_slash_some hfind
      rw [List.length_drop] at hi
      simp only [Option.map_some]
      have := ih (i + (oldPos + 1)) (ct + 1)
        (if ct = 0 then substr inCmd 0 (i + (oldPos + 1))
          else cmd ++ quoteToken (unescape (substr inCmd (oldPos + 1) (i + (oldPos + 1) - (oldPos + 1)))))
        (by omega) (by omega) (by omega)
      revert this
      rcases translateLoop inCmd fuel (i + (oldPos + 1)) (ct + 1) _ with ⟨p, n, c⟩
      rintro ⟨hn, heq⟩
      refine ⟨hn, ?_⟩
      rw [heq, if_neg (by omega), hsplit, List.drop_drop]
      simp only [substr, Nat.add_sub_cancel, List.map_cons, List.flatten_cons, Function.comp, List.append_assoc]
      rw [show oldPos + 1 + (i + 1) = i + (oldPos + 1) + 1 by omega]

theorem translateRestToCli_eq (inCmd : Str) : translateRestToCli inCmd =
    match segments inCmd with
    | f :: t :: ts => f ++ ((t :: ts).map (quoteToken ∘ unescape)).flatten
    | _ => [] := by
  rcases inCmd with _ | ⟨b, r⟩
  · rfl
  · rw [translateRestToCli, List.length_cons, translateLoop, findFrom, if_pos (by simp)]
    simp only [Nat.zero_add, List.drop_succ_cons, List.drop_zero, segments]
    rcases hfind : find (str "/") r with _ | i
    · simp [find_slash_none hfind]
    · obtain ⟨hsplit, hi⟩ := find_slash_some hfind
      simp only [Option.map_some, if_true]
      have := translateLoop_tail (b :: r) r.length (i + 1) 1 (substr (b :: r) 0 (i + 1)) (by omega)
        (by simp) (by simp; omega)
      revert this
      rcases translateLoop (b :: r) r.length (i + 1) 1 _ with ⟨p, n, c⟩
      rintro ⟨hn, heq⟩
      simp only [hn, if_true, hsplit, List.modifyHead_cons]
      simp only [List.drop_succ_cons] at heq
      rw [heq]
      have hne := List.splitOn_ne_nil 47 (r.drop (i + 1))
      revert hne
      rcases (r.drop (i + 1)).splitOn 47 with _ | ⟨t, ts⟩
      · exact fun h => absurd rfl h
      · intro _; simp [substr]

/-- The segments of joined pieces are the pieces. -/
theorem segments_intercalate {f : Str} {rest : List Str} (hf : f ≠ []) (h : ∀ l ∈ f :: rest, (47 : UInt8) ∉ l) :
    segments ([47].intercalate (f :: rest)) = f :: rest := by
  obtain ⟨b, g, rfl⟩ := List.exists_cons_of_ne_nil hf
  have hg : ∀ l ∈ g :: rest, (47 : UInt8) ∉ l := by
    intro l hl
    rcases List.mem_cons.mp hl with rfl | hl
    · exact fun hm => h _ List.mem_cons_self (List.mem_cons_of_mem _ hm)
    · exact h l (List.mem_cons_of_mem _ hl)
  rw [List.intercalate_cons_cons_left, segments, List.splitOn_intercalate 47 hg (by simp)]
  rfl

theorem quoteToken_getLast (t : Str) : (quoteToken t).getLast? = some 39 := by
  unfold quoteToken
  split
  · rename_i h
    rw [List.getLast?_append, h.2]; rfl
  · split <;> rw [List.getLast?_append] <;> rfl

/-- A non-empty line ends in the quote that closes its last value. -/
theorem translate_ends_quoted (inCmd : Str) :
    translateRestToCli inCmd = [] ∨ (translateRestToCli inCmd).getLast? = some 39 := by
  rw [translateRestToCli_eq]
  split
  · rename_i f t ts _
    right
    rcases List.eq_nil_or_concat (t :: ts) with h | ⟨us, u, h⟩
    · cases h
    · rw [h]
      simp [List.getLast?_append, quoteToken_getLast]
  · exact Or.inl rfl

theorem zero_notMem_quoteToken {t : Str} (h : (0 : UInt8) ∉ t) : (0 : UInt8) ∉ quoteToken t := by
  have h1 : (0 : UInt8) ∉ str " '" := by decide
  have h2 : (0 : UInt8) ∉ str "'" := by decide
  have h3 : (0 : UInt8) ∉ str " " := by decide
  have h4 : (0 : UInt8) ∉ substr t 1 (t.length - 2) := fun hm =>
    h (List.mem_of_mem_drop (List.mem_of_mem_take hm))
  unfold quoteToken
  split
  · simp [h, h3]
  · split <;> simp [h, h1, h2, h4]

theorem zero_notMem_segments {s : Str} (h : (0 : UInt8) ∉ s) : ∀ f ∈ (segments s).head?, (0 : UInt8) ∉ f := by
  intro f hf
  rcases s with _ | ⟨b, r⟩
  · simp [segments] at hf; subst hf; simp
  · rcases hsp : find (str "/") r with _ | i
    · simp [segments, find_slash_none hsp] at hf; subst hf; exact h
    · simp only [segments, (find_slash_some hsp).1, List.modifyHead_cons, List.head?_cons, Option.mem_some_iff] at hf
      subst hf
      simp only [List.mem_cons, not_or] at h ⊢
      exact ⟨h.1, fun hm => h.2 (List.mem_of_mem_take hm)⟩

/-- A path without a NUL gives a line without one: decoded values are cut at a NUL. -/
theorem zero_notMem_translate {inCmd : Str} (h : (0 : UInt8) ∉ inCmd) : (0 : UInt8) ∉ translateRestToCli inCmd := by
  rw [translateRestToCli_eq]
  split
  · rename_i f t ts hseg
    have hf : (0 : UInt8) ∉ f := zero_notMem_segments h f (by rw [hseg]; rfl)
    simp only [List.mem_append, List.mem_flatten, List.mem_map, not_or, not_exists]
    refine ⟨hf, ?_⟩
    rintro l ⟨⟨x, -, rfl⟩, hl⟩
    exact zero_notMem_quoteToken (zero_notMem_cstr _) hl
  · simp

end VyattaRest.Rest
