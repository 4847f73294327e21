/-
  VyattaRest.Server.Token — `Rest::generate_token` (common.cc), which names configuration sessions
  and processes.

  Eight bytes of /dev/urandom go through two 32-bit words into sixteen digits. Each byte is kept
  as a `char` and compared with `EOF`, so the byte 255 is taken for the end of the file. An
  opening that comes to an end too early is tried again; `ct` counts only the openings that fail.
  - `session_ids`: a token is sixteen digits that stand for its eight bytes, and so does the
    decimal number that configd knows the session by.
  - `five_openings_iff`: five openings do exactly when one of them gives eight bytes, or all fail.
  - `no_end`: without any of the two in the whole run there is no end.
  - `generates_isToken`: an end, whenever it comes, is a token or nothing.
  - `a_sixth_opening`: five times the byte 255.
-/

import VyattaRest.Lib.Loop
import VyattaRest.Lib.Word
import VyattaRest.Server.Configuration

namespace VyattaRest.Rest

open VyattaRest.Lib VyattaRest.Server

/-! ## The code -/

/-- What `fgetc` answers in one opening, call by call; `none` is `EOF`. -/
abbrev Reads := Nat → Option UInt8

/-- `EOF` in a `char`. -/
def eofChar : UInt8 := 255

/-- `*(ptr+k) = fgetc(fp)` and the comparison, from the place `k` on. The error is a read that equals
    `EOF`, with the word as it is then. -/
def drawWord (val k : Nat) : List (Option UInt8) → Except Nat Nat
  | [] => .ok val
  | c :: cs =>
    let b := c.getD eofChar
    let val := setByte val k b
    if b = eofChar then .error val else drawWord val (k + 1) cs

/-- `%.8lX` of a 32-bit number. -/
def hexWord (v : UInt32) : Str := (List.range 8).map fun i => hexDigit (v.toNat / 16 ^ (7 - i) % 16)

/-- What is done with an open file; `UInt32.ofNat` is `unsigned(val)`. -/
def attempt (val : Nat) (reads : Reads) : Except Nat Str := do
  let val ← drawWord val 0 [reads 0, reads 1, reads 2, reads 3]
  let id1 := UInt32.ofNat val
  let val ← drawWord val 0 [reads 4, reads 5, reads 6, reads 7]
  let id2 := UInt32.ofNat val
  return hexWord id1 ++ hexWord id2

/-- The variables of the loop, how often `fopen` has been called, and what is returned from within. -/
structure Trying where
  ct : Nat
  val : Nat
  opens : Nat
  ret : Option Str
  deriving DecidableEq

/-- The body of the loop, on what `fopen` gives. Nothing leaves `fp` open but the `return`. -/
def Trying.next (st : Trying) : Option Reads → Trying
  | none => { st with ct := st.ct - 1, opens := st.opens + 1 }
  | some reads =>
    match attempt st.val reads with
    | .error val => { st with val, opens := st.opens + 1 }
    | .ok token => { st with opens := st.opens + 1, ret := some token }

def tryRound (source : Nat → Option Reads) (st : Trying) : Option Trying :=
  if st.ret.isSome = true ∨ st.ct = 0 then none else some (st.next (source st.opens))

/-- The call comes to an end in `st`. `val` is not initialised. -/
def Generates (source : Nat → Option Reads) (val : Nat) (st : Trying) : Prop := Ends (tryRound source) ⟨5, val, 0, none⟩ st

/-- What it returns then. -/
def Trying.token (st : Trying) : Str := st.ret.getD []

/-- The digits of two words, or nothing if they could not be read. -/
def IsToken (token : Str) : Prop := token = [] ∨ ∃ v w, token = hexWord v ++ hexWord w

/-- Sixteen upper-case digits. -/
def SixteenDigits (token : Str) : Prop := token.length = 16 ∧ ∀ b ∈ token, b ∈ str "0123456789ABCDEF"

/-- Eight bytes, and none that is taken for the end. -/
def Gives (reads : Reads) : Prop := ∀ i < 8, reads i ≠ none ∧ reads i ≠ some eofChar

/-- The eight bytes. -/
def Draws (reads : Reads) (bs : Str) : Prop := (List.range 8).map reads = bs.map some ∧ eofChar ∉ bs

/-! ## One opening -/

/-- All bytes are there, and none equals `EOF`. -/
theorem drawWord_eq_ok_iff {cs : List (Option UInt8)} : ∀ {val k val' : Nat},
    drawWord val k cs = .ok val' ↔ ∃ bs, cs = bs.map some ∧ eofChar ∉ bs ∧ val' = setBytes val k bs := by
  induction cs with
  | nil =>
    intro val k val'
    constructor
    · intro h
      cases h
      exact ⟨[], rfl, List.not_mem_nil, rfl⟩
    · rintro ⟨bs, hbs, -, rfl⟩
      rw [List.map_eq_nil_iff.mp hbs.symm]
      rfl
  | cons c cs ih =>
    intro val k val'
    rw [drawWord]
    split
    · rename_i hc
      constructor
      · intro h
        cases h
      · rintro ⟨bs, hbs, hno, -⟩
        obtain ⟨b, bs, rfl, rfl, -⟩ := List.map_eq_cons_iff.mp hbs.symm
        rw [Option.getD_some] at hc
        exact absurd (hc ▸ List.mem_cons_self) hno
    · rename_i hc
      rw [ih]
      constructor
      · rintro ⟨bs, rfl, hno, rfl⟩
        rcases c with _ | b
        · exact absurd rfl hc
        · exact ⟨b :: bs, rfl, List.not_mem_cons_of_ne_of_not_mem (Ne.symm hc) hno, rfl⟩
      · rintro ⟨bs, hbs, hno, rfl⟩
        obtain ⟨b, bs, rfl, rfl, rfl⟩ := List.map_eq_cons_iff.mp hbs.symm
        exact ⟨bs, rfl, fun hmem => hno (List.mem_cons_of_mem _ hmem), rfl⟩

/-- The digits of eight bytes: each word with its last byte first. -/
def tokenOf (bs : Str) : Str := hexWord (UInt32.ofNat (leValue (bs.take 4))) ++ hexWord (UInt32.ofNat (leValue (bs.drop 4)))

/-- What stood in the upper half of the word is cut off. -/
theorem ofNat_setBytes (val : Nat) {bs : Str} (h : bs.length = 4) :
    UInt32.ofNat (setBytes val 0 bs) = UInt32.ofNat (leValue bs) := by
  have hmod := setBytes_mod bs val 0
  rw [h, Nat.pow_zero, Nat.mod_one, Nat.one_mul, Nat.zero_add, Nat.zero_add] at hmod
  rw [← UInt32.toNat_inj, UInt32.toNat_ofNat', UInt32.toNat_ofNat', ← hmod]
  omega

theorem bind_eq_ok_iff {ε α β : Type} {x : Except ε α} {f : α → Except ε β} {r : β} :
    (x >>= f) = .ok r ↔ ∃ a, x = .ok a ∧ f a = .ok r := by
  cases x with
  | error e =>
    constructor
    · intro h
      cases h
    · rintro ⟨a, h, -⟩
      cases h
  | ok a =>
    constructor
    · exact fun h => ⟨a, rfl, h⟩
    · rintro ⟨b, h, hf⟩
      cases h
      exact hf

/-- An opening gives a token when eight bytes come out of it, none of them taken for the end. -/
theorem attempt_eq_ok_iff {val : Nat} {reads : Reads} {token : Str} : attempt val reads = .ok token ↔
    ∃ bs, Draws reads bs ∧ token = tokenOf bs := by
  have hrange : (List.range 8).map reads = [reads 0, reads 1, reads 2, reads 3] ++ [reads 4, reads 5, reads 6, reads 7] := rfl
  rw [attempt, bind_eq_ok_iff]
  simp only [Draws, hrange, bind_eq_ok_iff, drawWord_eq_ok_iff]
  constructor
  · rintro ⟨_, ⟨low, hlow, hno, rfl⟩, _, ⟨high, hhigh, hno', rfl⟩, htoken⟩
    have hlen : low.length = 4 := by rw [← List.length_map some, ← hlow]; rfl
    have hlen' : high.length = 4 := by rw [← List.length_map some, ← hhigh]; rfl
    refine ⟨low ++ high, ⟨by rw [hlow, hhigh, List.map_append], ?_⟩, ?_⟩
    · rw [List.mem_append, not_or]
      exact ⟨hno, hno'⟩
    · rw [tokenOf, List.take_left' hlen, List.drop_left' hlen, ← ofNat_setBytes val hlen,
        ← ofNat_setBytes (setBytes val 0 low) hlen']
      exact (Except.ok.inj htoken).symm
  · rintro ⟨bs, ⟨hbs, hno⟩, rfl⟩
    have hlen : bs.length = 8 := by rw [← List.length_map some, ← hbs]; rfl
    have hlow : (bs.take 4).length = 4 := by rw [List.length_take, hlen]; rfl
    have hhigh : (bs.drop 4).length = 4 := by rw [List.length_drop, hlen]
    rw [← List.take_append_drop 4 bs, List.map_append] at hbs
    obtain ⟨hreads, hreads'⟩ := List.append_inj hbs (by rw [List.length_map, hlow]; rfl)
    refine ⟨_, ⟨_, hreads, fun h => hno (List.mem_of_mem_take h), rfl⟩, _,
      ⟨_, hreads', fun h => hno (List.mem_of_mem_drop h), rfl⟩, ?_⟩
    rw [ofNat_setBytes val hlow, ofNat_setBytes _ hhigh]
    rfl

theorem gives_iff (reads : Reads) : Gives reads ↔ ∃ bs, Draws reads bs := by
  constructor
  · intro h
    refine ⟨(List.range 8).map fun i => (reads i).getD 0, ?_, ?_⟩
    · rw [List.map_map]
      refine List.map_congr_left fun i hi => ?_
      obtain ⟨b, hb⟩ := Option.ne_none_iff_exists'.mp (h i (List.mem_range.mp hi)).1
      rw [Function.comp, hb]
      rfl
    · intro hmem
      obtain ⟨i, hi, hb⟩ := List.mem_map.mp hmem
      obtain ⟨hnone, heof⟩ := h i (List.mem_range.mp hi)
      obtain ⟨b, hread⟩ := Option.ne_none_iff_exists'.mp hnone
      rw [hread, Option.getD_some] at hb
      exact heof (hb ▸ hread)
  · rintro ⟨bs, hbs, hno⟩ i hi
    have hread : reads i ∈ bs.map some := hbs ▸ List.mem_map_of_mem (List.mem_range.mpr hi)
    obtain ⟨b, hb, hsome⟩ := List.mem_map.mp hread
    rw [← hsome]
    exact ⟨Option.some_ne_none b, fun e => hno (Option.some.inj e ▸ hb)⟩

/-! ## Its digits -/

theorem scanDigits_hexDigit {d : Nat} (h : d < 16) (t : Str) (acc : Nat) :
    scanDigits 16 (hexDigit d :: t) acc = scanDigits 16 t (16 * acc + d) := by
  have hval : digitVal 16 (hexDigit d) = some d := by
    rw [digitVal, hexVal_hexDigit d h, Option.filter, if_pos (by simpa using h)]
  rw [scanDigits, hval]

theorem scanDigits_hexDigits (n : Nat) (t : Str) : ∀ k acc,
    scanDigits 16 ((List.range k).map (fun i => hexDigit (n / 16 ^ (k - 1 - i) % 16)) ++ t) acc =
    scanDigits 16 t (16 ^ k * acc + n % 16 ^ k) := by
  intro k
  induction k with
  | zero => exact fun acc => by rw [Nat.pow_zero, Nat.mod_one, Nat.one_mul]; rfl
  | succ k ih =>
    intro acc
    have hrest : (List.range k).map ((fun i => hexDigit (n / 16 ^ (k + 1 - 1 - i) % 16)) ∘ Nat.succ) =
        (List.range k).map fun i => hexDigit (n / 16 ^ (k - 1 - i) % 16) := by
      refine List.map_congr_left fun i _ => ?_
      rw [Function.comp, show k + 1 - 1 - i.succ = k - 1 - i by omega]
    rw [List.range_succ_eq_map, List.map_cons, List.map_map, hrest, List.cons_append,
      scanDigits_hexDigit (Nat.mod_lt _ (by decide)), ih,
      Nat.mod_pow_succ, Nat.mul_add, Nat.pow_succ, Nat.mul_assoc, Nat.add_assoc, Nat.add_comm (n % 16 ^ k)]
    rfl

theorem scanDigits_hexWord (v : UInt32) (t : Str) (acc : Nat) :
    scanDigits 16 (hexWord v ++ t) acc = scanDigits 16 t (16 ^ 8 * acc + v.toNat) := by
  have h := scanDigits_hexDigits v.toNat t 8 acc
  rwa [Nat.mod_eq_of_lt (show v.toNat < 16 ^ 8 from v.toNat_lt)] at h

theorem Draws.length {reads : Reads} {bs : Str} (h : Draws reads bs) : bs.length = 8 := by
  rw [← List.length_map some, ← h.1]
  rfl

/-- The number that a token stands for. -/
def tokenValue (bs : Str) : Nat := 2 ^ 32 * leValue (bs.take 4) + leValue (bs.drop 4)

section Value

variable {bs cs : Str} (hb : bs.length = 8) (hc : cs.length = 8)

include hb in
theorem length_words : (bs.take 4).length = 4 ∧ (bs.drop 4).length = 4 := by
  rw [List.length_take, List.length_drop, hb]
  exact ⟨rfl, rfl⟩

include hb in
theorem words_lt : leValue (bs.take 4) < 2 ^ 32 ∧ leValue (bs.drop 4) < 2 ^ 32 := by
  obtain ⟨hlow, hhigh⟩ := length_words hb
  have h := leValue_lt (bs.take 4)
  have h' := leValue_lt (bs.drop 4)
  rw [hlow] at h
  rw [hhigh] at h'
  exact ⟨h, h'⟩

include hb in
theorem scanDigits_tokenOf : scanDigits 16 (tokenOf bs) 0 = tokenValue bs := by
  obtain ⟨hlow, hhigh⟩ := words_lt hb
  have h := scanDigits_hexWord (UInt32.ofNat (leValue (bs.drop 4))) [] (leValue (bs.take 4))
  rw [List.append_nil, UInt32.toNat_ofNat', Nat.mod_eq_of_lt hhigh] at h
  rw [tokenOf, scanDigits_hexWord, Nat.mul_zero, Nat.zero_add, UInt32.toNat_ofNat', Nat.mod_eq_of_lt hlow, h]
  rfl

include hb in
/-- Sixteen digits are just what an `unsigned long long` holds. -/
theorem strtoul_tokenOf : strtoul 0 (str "0x" ++ tokenOf bs) = tokenValue bs := by
  obtain ⟨hlow, hhigh⟩ := words_lt hb
  have hvalue : ¬ 2 ^ 64 ≤ tokenValue bs := by
    unfold tokenValue
    omega
  rw [strtoul, scanInteger_hex, scanDigits_tokenOf hb]
  simp only [if_neg hvalue, if_neg Bool.false_ne_true]

include hb hc in
theorem tokenValue_injective (h : tokenValue bs = tokenValue cs) : bs = cs := by
  obtain ⟨-, hlt⟩ := words_lt hb
  obtain ⟨-, hlt'⟩ := words_lt hc
  obtain ⟨hlen, hlen'⟩ := length_words hb
  obtain ⟨hclen, hclen'⟩ := length_words hc
  unfold tokenValue at h
  have hlow := leValue_injective (hlen.trans hclen.symm) (show leValue (bs.take 4) = leValue (cs.take 4) by omega)
  have hhigh := leValue_injective (hlen'.trans hclen'.symm) (show leValue (bs.drop 4) = leValue (cs.drop 4) by omega)
  rw [← List.take_append_drop 4 bs, hlow, hhigh, List.take_append_drop]

end Value

theorem sixteenDigits_tokenOf (bs : Str) : SixteenDigits (tokenOf bs) := by
  have hdigit : ∀ d < 16, hexDigit d ∈ str "0123456789ABCDEF" := by decide
  have hword : ∀ v, ∀ b ∈ hexWord v, b ∈ str "0123456789ABCDEF" := by
    intro v b hb
    obtain ⟨i, -, rfl⟩ := List.mem_map.mp hb
    exact hdigit _ (Nat.mod_lt _ (by decide))
  refine ⟨rfl, fun b hb => ?_⟩
  rcases List.mem_append.mp hb with hb | hb
  · exact hword _ b hb
  · exact hword _ b hb

theorem dec_injective {m n : Nat} (h : dec m = dec n) : m = n := by
  rw [← scanDigits_dec m, h, scanDigits_dec]

/-- Two openings that give the same token, or the same decimal number, have given the same bytes; and
    the conversion is exact, not at the largest number there is. -/
theorem session_ids {val : Nat} {reads : Reads} {token : Str} (h : attempt val reads = .ok token) :
    SixteenDigits token ∧ strtoul 0 (str "0x" ++ token) = scanDigits 16 token 0 ∧ scanDigits 16 token 0 < 2 ^ 64 ∧
      ∀ val' reads' token', attempt val' reads' = .ok token' →
        (token = token' → ∀ i < 8, reads i = reads' i) ∧
        (Configuration.convConfId token = Configuration.convConfId token' → token = token') := by
  obtain ⟨bs, hbs, rfl⟩ := attempt_eq_ok_iff.mp h
  have hlen := hbs.length
  obtain ⟨hlow, hhigh⟩ := words_lt hlen
  refine ⟨sixteenDigits_tokenOf bs, ?_, ?_, fun val' reads' token' h' => ?_⟩
  · rw [strtoul_tokenOf hlen, scanDigits_tokenOf hlen]
  · rw [scanDigits_tokenOf hlen, tokenValue]
    omega
  · obtain ⟨cs, hcs, rfl⟩ := attempt_eq_ok_iff.mp h'
    constructor
    · intro htoken i hi
      have hvalue : tokenValue bs = tokenValue cs := by rw [← scanDigits_tokenOf hlen, htoken, scanDigits_tokenOf hcs.length]
      have hreads := hbs.1.trans (tokenValue_injective hlen hcs.length hvalue ▸ hcs.1.symm)
      exact List.map_inj_left.mp hreads i (List.mem_range.mpr hi)
    · intro hconv
      rw [Configuration.convConfId, Configuration.convConfId, strtoul_tokenOf hlen, strtoul_tokenOf hcs.length] at hconv
      rw [tokenValue_injective hlen hcs.length (dec_injective hconv)]

/-- The largest bytes that can be drawn, with a word that is full of ones before them, and others
    that differ in the last byte. -/
theorem the_largest_token : attempt (2 ^ 64 - 1) (fun _ => some 254) = .ok (str "FEFEFEFEFEFEFEFE") ∧
    attempt 0 (fun i => some (if i < 7 then 254 else 253)) = .ok (str "FEFEFEFEFDFEFEFE") ∧
    SixteenDigits (str "FEFEFEFEFEFEFEFE") ∧ Configuration.convConfId (str "FEFEFEFEFEFEFEFE") = str "18374403900871474942" ∧
    Configuration.convConfId (str "FEFEFEFEFEFEFEFE") ≠ Configuration.convConfId (str "FEFEFEFEFDFEFEFE") := by
  have h : attempt (2 ^ 64 - 1) (fun _ => some 254) = .ok (str "FEFEFEFEFEFEFEFE") := rfl
  have h' : attempt 0 (fun i => some (if i < 7 then 254 else 253)) = .ok (str "FEFEFEFEFDFEFEFE") := rfl
  obtain ⟨hdigits, -, -, hother⟩ := session_ids h
  obtain ⟨hreads, hids⟩ := hother _ _ _ h'
  have hne : str "FEFEFEFEFEFEFEFE" ≠ str "FEFEFEFEFDFEFEFE" := fun heq => absurd (hreads heq 7 (by decide)) (by decide)
  exact ⟨h, h', hdigits, by decide, fun heq => hne (hids heq)⟩

/-! ## The openings -/

/-- An opening that gives its eight bytes. -/
def Good (opened : Option Reads) : Prop := ∃ reads, opened = some reads ∧ Gives reads

section Openings

variable {source : Nat → Option Reads} {st t : Trying}

/-- What one round does, for each of the three ways an opening can go. -/
theorem next_cases (st : Trying) (opened : Option Reads) :
    (opened = none ∧ st.next opened = { st with ct := st.ct - 1, opens := st.opens + 1 }) ∨
      (Good opened ∧ ∃ bs, st.next opened = { st with opens := st.opens + 1, ret := some (tokenOf bs) }) ∨
      (opened ≠ none ∧ ¬ Good opened ∧ ∃ val, st.next opened = { st with val, opens := st.opens + 1 }) := by
  rcases opened with _ | reads
  · exact Or.inl ⟨rfl, rfl⟩
  · rcases hattempt : attempt st.val reads with val | token
    · have hbad : ¬ Good (some reads) := by
        rintro ⟨reads', hreads, hgives⟩
        obtain ⟨bs, hbs⟩ := (gives_iff reads').mp hgives
        rw [← Option.some.inj hreads] at hbs
        cases hattempt.symm.trans (attempt_eq_ok_iff.mpr ⟨bs, hbs, rfl⟩)
      exact Or.inr (Or.inr ⟨Option.some_ne_none reads, hbad, val, by rw [Trying.next, hattempt]⟩)
    · obtain ⟨bs, hbs, rfl⟩ := attempt_eq_ok_iff.mp hattempt
      exact Or.inr (Or.inl ⟨⟨reads, rfl, (gives_iff reads).mpr ⟨bs, hbs⟩⟩, bs, by rw [Trying.next, hattempt]⟩)

theorem tryRound_next (source : Nat → Option Reads) (hret : st.ret = none) (hct : 0 < st.ct) :
    tryRound source st = some (st.next (source st.opens)) := by
  rw [tryRound, hret, if_neg fun h => by
    rcases h with h | h
    · cases h
    · omega]

theorem tryRound_some {st' : Trying} (h : tryRound source st = some st') : 0 < st.ct ∧ st' = st.next (source st.opens) := by
  unfold tryRound at h
  split at h
  · cases h
  · rename_i hgo
    rw [not_or] at hgo
    exact ⟨Nat.pos_of_ne_zero hgo.2, (Option.some.inj h).symm⟩

/-- A token comes out of a good opening, if fewer have gone by than may fail. -/
theorem ends_of_good : ∀ (n : Nat) (st : Trying), st.ret = none → n < st.ct → Good (source (st.opens + n)) →
    ∃ t, Ends (tryRound source) st t ∧ t.opens ≤ st.opens + n + 1 ∧ ∃ bs, t.ret = some (tokenOf bs) := by
  intro n
  induction n with
  | zero =>
    intro st hret hct hgood
    have hround := tryRound_next source hret hct
    rcases next_cases st (source st.opens) with ⟨hnone, -⟩ | ⟨-, bs, hnext⟩ | ⟨-, hbad, -⟩
    · obtain ⟨reads, hreads, -⟩ := hgood
      cases hnone.symm.trans hreads
    · rw [hnext] at hround
      exact ⟨_, .step hround (.stop (if_pos (Or.inl rfl))), Nat.le_refl _, bs, rfl⟩
    · exact absurd hgood hbad
  | succ n ih =>
    intro st hret hct hgood
    have hround := tryRound_next source hret (Nat.zero_lt_of_lt hct)
    rw [show st.opens + (n + 1) = st.opens + 1 + n by omega] at hgood
    rcases next_cases st (source st.opens) with ⟨-, hnext⟩ | ⟨-, bs, hnext⟩ | ⟨-, -, val, hnext⟩
    · rw [hnext] at hround
      obtain ⟨t, ht, hopens, hbs⟩ := ih { st with ct := st.ct - 1, opens := st.opens + 1 } hret (Nat.lt_sub_of_add_lt hct) hgood
      exact ⟨t, .step hround ht, Nat.le_trans hopens (by simp only; omega), hbs⟩
    · rw [hnext] at hround
      exact ⟨_, .step hround (.stop (if_pos (Or.inl rfl))), by simp only; omega, bs, rfl⟩
    · rw [hnext] at hround
      obtain ⟨t, ht, hopens, hbs⟩ := ih { st with val, opens := st.opens + 1 } hret (Nat.lt_of_succ_lt hct) hgood
      exact ⟨t, .step hround ht, Nat.le_trans hopens (by simp only; omega), hbs⟩

/-- Nothing comes out of as many failures as are counted. -/
theorem ends_of_failures : ∀ (n : Nat) (st : Trying), st.ct = n → st.ret = none → (∀ k < n, source (st.opens + k) = none) →
    Ends (tryRound source) st { st with ct := 0, opens := st.opens + n } := by
  intro n
  induction n with
  | zero =>
    rintro ⟨ct, val, opens, ret⟩ rfl hret hfail
    exact .stop (if_pos (Or.inr rfl))
  | succ n ih =>
    intro st hct hret hfail
    have hround := tryRound_next source hret (by omega)
    rw [show source st.opens = none from hfail 0 (Nat.succ_pos n)] at hround
    have hrest := ih { st with ct := st.ct - 1, opens := st.opens + 1 } (Nat.sub_eq_of_eq_add hct) hret fun k hk => by
      have hk := hfail (k + 1) (Nat.succ_lt_succ hk)
      rwa [show st.opens + (k + 1) = st.opens + 1 + k by omega] at hk
    rw [show st.opens + (n + 1) = st.opens + 1 + n by omega]
    exact .step hround hrest

theorem opens_le (h : Ends (tryRound source) st t) : st.opens ≤ t.opens := by
  induction h with
  | stop => exact Nat.le_refl _
  | @step st st' t h _ ih =>
    obtain ⟨-, rfl⟩ := tryRound_some h
    rcases next_cases st (source st.opens) with ⟨-, hnext⟩ | ⟨-, bs, hnext⟩ | ⟨-, -, val, hnext⟩ <;>
      · rw [hnext] at ih
        exact Nat.le_of_succ_le ih

/-- Without a good opening the loop ends when all that are counted have failed, and the others have gone by besides. -/
theorem ends_without_good (h : Ends (tryRound source) st t) : st.ret = none →
    (∀ k, st.opens ≤ k → k < t.opens → ¬ Good (source k)) → st.opens + st.ct ≤ t.opens ∧
      (t.opens = st.opens + st.ct → ∀ k, st.opens ≤ k → k < t.opens → source k = none) := by
  induction h with
  | @stop st h =>
    intro hret _
    have hct : st.ct = 0 := by
      by_contra hct
      cases (tryRound_next source hret (Nat.pos_of_ne_zero hct)).symm.trans h
    exact ⟨by omega, fun _ k hle hlt => absurd hlt (Nat.not_lt.mpr hle)⟩
  | @step st st' t h rest ih =>
    intro hret hbad
    obtain ⟨hct, rfl⟩ := tryRound_some h
    have hle := opens_le rest
    rcases next_cases st (source st.opens) with ⟨hnone, hnext⟩ | ⟨hgood, bs, hnext⟩ | ⟨-, -, val, hnext⟩
    · rw [hnext] at ih hle
      obtain ⟨ih₁, ih₂⟩ := ih hret fun k hk => hbad k (Nat.le_of_succ_le hk)
      simp only at ih₁ ih₂ hle
      refine ⟨by omega, fun hopens k hk hlt => ?_⟩
      rcases Nat.eq_or_lt_of_le hk with rfl | hk
      · exact hnone
      · exact ih₂ (by omega) k hk hlt
    · rw [hnext] at hle
      exact absurd hgood (hbad st.opens (Nat.le_refl _) hle)
    · rw [hnext] at ih hle
      obtain ⟨ih₁, ih₂⟩ := ih hret fun k hk => hbad k (Nat.le_of_succ_le hk)
      simp only at ih₁
      exact ⟨by omega, fun hopens => absurd hopens (by omega)⟩

/-- Openings that succeed and give no token are not counted. -/
theorem no_end (hbad : ∀ k, source k ≠ none ∧ ¬ Good (source k)) (val : Nat) : ¬ ∃ t, Generates source val t := by
  have hcount : ∀ {st t : Trying}, Ends (tryRound source) st t → st.ret = none → 0 < st.ct → False := by
    intro st t h
    induction h with
    | stop h =>
      intro hret hct
      cases (tryRound_next source hret hct).symm.trans h
    | @step st st' t h _ ih =>
      intro hret hct
      obtain ⟨-, rfl⟩ := tryRound_some h
      rcases next_cases st (source st.opens) with ⟨hnone, -⟩ | ⟨hgood, -⟩ | ⟨-, -, val, hnext⟩
      · exact (hbad st.opens).1 hnone
      · exact (hbad st.opens).2 hgood
      · rw [hnext] at ih
        exact ih hret hct
  rintro ⟨t, ht⟩
  exact hcount ht rfl (Nat.succ_pos 4)

/-- What is returned from within the loop are the digits of some bytes. -/
theorem ret_of_ends (h : Ends (tryRound source) st t) :
    (∀ token, st.ret = some token → ∃ bs, token = tokenOf bs) → ∀ token, t.ret = some token → ∃ bs, token = tokenOf bs := by
  induction h with
  | stop => exact id
  | @step st st' t h _ ih =>
    intro hst
    obtain ⟨-, rfl⟩ := tryRound_some h
    rcases next_cases st (source st.opens) with ⟨-, hnext⟩ | ⟨-, bs, hnext⟩ | ⟨-, -, val, hnext⟩
    · rw [hnext] at ih
      exact ih hst
    · rw [hnext] at ih
      exact ih fun token htoken => ⟨bs, (Option.some.inj htoken).symm⟩
    · rw [hnext] at ih
      exact ih hst

/-- What a caller may take for granted of the call. -/
theorem generates_isToken {val : Nat} (h : Generates source val t) : IsToken t.token := by
  unfold Trying.token
  rcases hret : t.ret with _ | token
  · exact Or.inl rfl
  · obtain ⟨bs, rfl⟩ := ret_of_ends h (fun _ hnone => by cases hnone) token hret
    exact Or.inr ⟨_, _, rfl⟩

end Openings

/-- What the comment promises: five openings at most, and a token or nothing. -/
def WithinFive (source : Nat → Option Reads) (val : Nat) : Prop :=
  ∃ t, Generates source val t ∧ t.opens ≤ 5 ∧ (t.token = [] ∨ SixteenDigits t.token)

/-- The bound holds when one of the first five openings gives its bytes, or all five fail. -/
theorem five_openings_iff (source : Nat → Option Reads) (val : Nat) :
    WithinFive source val ↔ (∃ k < 5, Good (source k)) ∨ ∀ k < 5, source k = none := by
  constructor
  · rintro ⟨t, ht, hopens, -⟩
    rw [or_iff_not_imp_left]
    intro hbad k hk
    obtain ⟨hle, hall⟩ := ends_without_good ht rfl fun k _ hk hgood => hbad ⟨k, Nat.lt_of_lt_of_le hk hopens, hgood⟩
    have hfive : t.opens = 5 := Nat.le_antisymm hopens hle
    exact hall hfive k (Nat.zero_le k) (hfive ▸ hk)
  · rintro (⟨k, hk, hgood⟩ | hfail)
    · rw [← Nat.zero_add k] at hgood
      obtain ⟨t, ht, hopens, bs, hbs⟩ := ends_of_good k ⟨5, val, 0, none⟩ rfl hk hgood
      refine ⟨t, ht, Nat.le_trans hopens (by simp only; omega), Or.inr ?_⟩
      rw [Trying.token, hbs]
      exact sixteenDigits_tokenOf bs
    · have h : Ends (tryRound source) ⟨5, val, 0, none⟩ ⟨0, val, 5, none⟩ :=
        ends_of_failures 5 ⟨5, val, 0, none⟩ rfl rfl fun k hk => by
        rw [Nat.zero_add]
        exact hfail k hk
      exact ⟨_, h, Nat.le_refl 5, Or.inl rfl⟩

/-- The first byte is 255 in each of five openings, and a sixth one gives eight bytes. -/
def lateSource (k : Nat) : Option Reads := some fun _ => if k < 5 then some 255 else some 7

theorem a_sixth_opening :
    (∃ t, Generates lateSource 0 t ∧ t.opens = 6 ∧ t.token = str "0707070707070707") ∧ ¬ WithinFive lateSource 0 := by
  have hfirst : tryRound lateSource ⟨5, 0, 0, none⟩ = some ⟨5, 255, 1, none⟩ := rfl
  have hmore : ∀ k < 5, tryRound lateSource ⟨5, 255, k, none⟩ = some ⟨5, 255, k + 1, none⟩ := by decide
  have hsixth : tryRound lateSource ⟨5, 255, 5, none⟩ = some ⟨5, 255, 6, some (str "0707070707070707")⟩ := rfl
  have hrun : Generates lateSource 0 ⟨5, 255, 6, some (str "0707070707070707")⟩ :=
    .step hfirst (.step (hmore 1 (by decide))
      (.step (hmore 2 (by decide)) (.step (hmore 3 (by decide)) (.step (hmore 4 (by decide))
      (.step hsixth (.stop rfl))))))
  refine ⟨⟨_, hrun, rfl, rfl⟩, ?_⟩
  rintro ⟨t, ht, hopens, -⟩
  rw [ht.unique hrun] at hopens
  exact absurd hopens (by decide)

end VyattaRest.Rest
