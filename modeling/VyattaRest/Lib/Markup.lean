/-
  VyattaRest.Lib.Markup — flat tagged messages searched by first occurrence.

  A message is a sequence of pieces, each a tag `<..>` followed by a text (`render`). A
  tag is found in it at the first piece that is this tag or whose text holds the tag
  (`find_render`): texts are not escaped, so a text can hide every later tag.
  `between` is the reader's way to take a field out: the slice from the first opening
  tag to the first closing tag, computed with `size_t` arithmetic. `between_render`: it
  is the field's text when neither tag occurs earlier.
-/

import VyattaRest.Lib.Bytes
import Mathlib.Tactic.Tauto

namespace VyattaRest.Lib

/-- `<`, bytes that are neither `<` nor `>`, `>`. -/
def isMarkup (t : Str) : Bool :=
  match t with
  | [] => false
  | b :: r => b == 60 && r.getLast? == some 62 && !r.dropLast.contains 60 && !r.dropLast.contains 62

theorem isMarkup_iff {t : Str} : isMarkup t = true ↔ ∃ w, t = 60 :: (w ++ [62]) ∧ (60 : UInt8) ∉ w ∧ (62 : UInt8) ∉ w := by
  rcases t with _ | ⟨b, r⟩
  · simp [isMarkup]
  · simp only [isMarkup, Bool.and_eq_true, beq_iff_eq, Bool.not_eq_true', List.contains_eq_mem, decide_eq_false_iff_not,
      List.cons.injEq]
    constructor
    · rintro ⟨⟨⟨rfl, hl⟩, h1⟩, h2⟩
      exact ⟨r.dropLast, ⟨rfl, (List.dropLast_append_getLast? 62 hl).symm⟩, h1, h2⟩
    · rintro ⟨w, ⟨rfl, rfl⟩, h1, h2⟩
      simp [h1, h2]

theorem isMarkup_tag {t : Str} (h : isMarkup t = true) : Tag t 60 := by
  obtain ⟨w, rfl, h1, -⟩ := isMarkup_iff.mp h
  exact ⟨w ++ [62], rfl, by simp [h1]⟩

/-- A tag is a prefix of a text that starts with a tag only when they are the same tag. -/
theorem isMarkup_prefix {pat t : Str} (hp : isMarkup pat = true) (ht : isMarkup t = true) (x : Str) :
    pat.isPrefixOf (t ++ x) = decide (pat = t) := by
  obtain ⟨v, rfl, -, hv⟩ := isMarkup_iff.mp hp
  obtain ⟨w, rfl, -, hw⟩ := isMarkup_iff.mp ht
  have key : ∀ v w : Str, (62 : UInt8) ∉ v → (62 : UInt8) ∉ w →
      (v ++ [62]).isPrefixOf (w ++ [62] ++ x) = decide (v = w) := by
    intro v
    induction v with
    | nil =>
      intro w _ hw
      rcases w with _ | ⟨b, w⟩
      · simp [List.isPrefixOf]
      · simp only [List.mem_cons, not_or] at hw
        simp [List.isPrefixOf, hw.1]
    | cons a v ih =>
      intro w hv hw
      simp only [List.mem_cons, not_or] at hv
      rcases w with _ | ⟨b, w⟩
      · simp [List.isPrefixOf, Ne.symm hv.1]
      · simp only [List.mem_cons, not_or] at hw
        have := ih w hv.2 hw.2
        by_cases e : a = b <;> simp_all [List.isPrefixOf]
  have := key v w hv hw
  simpa [List.isPrefixOf] using this

/-! ## Messages -/

def render (ps : List (Str × Str)) : Str := (ps.map fun p => p.1 ++ p.2).flatten

@[simp] theorem render_nil : render [] = [] := rfl

@[simp] theorem render_cons (t x : Str) (ps : List (Str × Str)) : render ((t, x) :: ps) = t ++ (x ++ render ps) := by
  simp [render]

theorem render_append (ps qs : List (Str × Str)) : render (ps ++ qs) = render ps ++ render qs := by
  simp [render]

/-- Where the first occurrence of a tag lies: at a piece of this tag, or inside a text. -/
def findPieces (pat : Str) : List (Str × Str) → Option Nat
  | [] => none
  | (t, x) :: ps =>
    if pat = t then some 0
    else ((find pat x).map (· + t.length)).or ((findPieces pat ps).map (· + (t.length + x.length)))

/-- Every piece starts with a tag. -/
def Tagged (ps : List (Str × Str)) : Prop := ∀ p ∈ ps, isMarkup p.1 = true

instance (ps : List (Str × Str)) : Decidable (Tagged ps) := inferInstanceAs (Decidable (∀ p ∈ ps, _))

theorem find_render {pat : Str} (hp : isMarkup pat = true) {ps : List (Str × Str)} (hps : Tagged ps) :
    find pat (render ps) = findPieces pat ps := by
  induction ps with
  | nil => simp [render, find, findPieces, (isMarkup_tag hp).ne_nil]
  | cons p ps ih =>
    obtain ⟨t, x⟩ := p
    have ht : isMarkup t = true := hps (t, x) List.mem_cons_self
    have hrest : find pat (render ps) = findPieces pat ps := ih fun q hq => hps q (List.mem_cons_of_mem _ hq)
    have hpre := isMarkup_prefix hp ht (x ++ render ps)
    rw [render_cons, findPieces]
    -- A tag starts at the piece itself, else it starts with one of the later `<`s.
    obtain ⟨w, rfl, hw, -⟩ := isMarkup_iff.mp ht
    rw [List.cons_append, find, ← List.cons_append, hpre]
    by_cases e : pat = 60 :: (w ++ [62])
    · rw [if_pos (decide_eq_true e), if_pos e]
    · rw [if_neg (by simpa using e), if_neg e, find_skip (isMarkup_tag hp) (by simp [hw])]
      have happ : find pat (x ++ render ps) = (find pat x).or ((findPieces pat ps).map (· + x.length)) := by
        rcases ps with _ | ⟨⟨t', x'⟩, ps⟩
        · simp [findPieces]
        · obtain ⟨w', rfl, -, -⟩ := isMarkup_iff.mp (hps (t', x') (by simp))
          rw [← hrest, render_cons, List.cons_append, find_append_tag (isMarkup_tag hp)]
      rw [happ]
      cases find pat x <;> cases findPieces pat ps <;> simp
      all_goals omega

theorem findPieces_append {pat : Str} (ps qs : List (Str × Str)) :
    findPieces pat (ps ++ qs) = (findPieces pat ps).or ((findPieces pat qs).map (· + (render ps).length)) := by
  induction ps with
  | nil => simp [findPieces]
  | cons p ps ih =>
    obtain ⟨t, x⟩ := p
    rw [List.cons_append, findPieces, findPieces, ih]
    split
    · rfl
    · cases find pat x <;> cases findPieces pat ps <;> cases findPieces pat qs <;> simp
      omega

theorem findPieces_isSome_of_mem {pat : Str} {ps : List (Str × Str)} (h : pat ∈ ps.map (·.1)) :
    (findPieces pat ps).isSome = true := by
  induction ps with
  | nil => cases h
  | cons p ps ih =>
    obtain ⟨t, x⟩ := p
    rw [List.map_cons, List.mem_cons] at h
    rw [findPieces]
    split
    · rfl
    · rename_i hne
      have := ih (h.resolve_left hne)
      simp [this]

/-- With no `<` in the texts, only the pieces' own tags are found. -/
theorem findPieces_plain {pat : Str} (hp : isMarkup pat = true) {ps : List (Str × Str)}
    (hx : ∀ p ∈ ps, (60 : UInt8) ∉ p.2) (h : pat ∉ ps.map (·.1)) : findPieces pat ps = none := by
  induction ps with
  | nil => rfl
  | cons p ps ih =>
    obtain ⟨t, x⟩ := p
    simp only [List.map_cons, List.mem_cons, not_or] at h
    rw [findPieces, if_neg h.1, find_none_of_notMem (isMarkup_tag hp) (hx (t, x) List.mem_cons_self),
      ih (fun q hq => hx q (List.mem_cons_of_mem _ hq)) h.2]
    rfl

/-! ## Taking a field out -/

/-- The slice from the first opening tag to the first closing tag. -/
def between (s opening closing : Str) : Option Str :=
  match find opening s, find closing s with
  | some start, some stop => some (substr s (start + opening.length) (subSz (subSz stop start) opening.length))
  | _, _ => none

/-- The first tags enclose a slice of the string. -/
theorem between_slice {s opening closing a m b : Str} (hs : s = a ++ opening ++ m ++ b) (hlen : s.length < 2 ^ 64)
    (ho : find opening s = some a.length) (hc : find closing s = some (a.length + opening.length + m.length)) :
    between s opening closing = some m := by
  have hl := congrArg List.length hs
  simp only [List.length_append] at hl
  rw [between, ho, hc]
  simp only [Option.some.injEq]
  have hsz : subSz (subSz (a.length + opening.length + m.length) a.length) opening.length = m.length := by
    rw [subSz_of_le (b := a.length) (by omega) (by omega), subSz_of_le (by omega) (by omega)]; omega
  rw [hsz, hs,
    show a.length + opening.length = (a ++ opening).length by simp]
  exact substr_mid (a ++ opening) m b

/-- A closing tag before the opening one makes the count wrap around: the slice runs to
    the end of the string. -/
theorem between_wrap {s opening closing a b : Str} {stop : Nat} (hs : s = a ++ opening ++ b) (hlen : s.length < 2 ^ 63)
    (ho : find opening s = some a.length) (hc : find closing s = some stop) (hlt : stop < a.length) :
    between s opening closing = some b := by
  have hl := congrArg List.length hs
  simp only [List.length_append] at hl
  rw [between, ho, hc]
  simp only [Option.some.injEq]
  have hsz : b.length ≤ subSz (subSz stop a.length) opening.length := by
    rw [subSz_of_lt hlt (by omega), subSz_of_le (by omega) (by omega)]; omega
  rw [hs, show a.length + opening.length = (a ++ opening).length by simp, substr, List.drop_left]
  exact List.take_of_length_le hsz

/-- The slice holds no closing tag, or it is all that follows the opening one. -/
theorem between_cases {s opening closing r : Str} (hne : closing ≠ []) (hlen : s.length < 2 ^ 63)
    (h : between s opening closing = some r) :
    ¬ closing <:+: r ∨ ∃ start, find opening s = some start ∧ r = s.drop (start + opening.length) := by
  rw [between] at h
  rcases ho : find opening s with _ | i
  · rw [ho] at h
    cases h
  rcases hc : find closing s with _ | j
  · rw [ho, hc] at h
    cases h
  rw [ho, hc] at h
  have hi := find_le ho
  have hj := find_le hc
  by_cases hij : i + opening.length ≤ j
  · left
    have hsz : subSz (subSz j i) opening.length = j - (i + opening.length) := by
      rw [subSz_of_le (b := i) (by omega) (by omega), subSz_of_le (by omega) (by omega)]
      omega
    have hr : r = (s.take j).drop (i + opening.length) := by
      rw [List.drop_take, ← hsz]
      exact (Option.some.inj h).symm
    intro hin
    exact not_infix_take_of_find hne hc (hin.trans (hr ▸ (List.drop_suffix _ _).isInfix))
  · right
    have hsz : s.length ≤ subSz (subSz j i) opening.length := by
      rcases Nat.lt_or_ge j i with hlt | hge
      · rw [subSz_of_lt hlt (by omega), subSz_of_le (by omega) (by omega)]
        omega
      · rw [subSz_of_le hge (by omega), subSz_of_lt (by omega) (by omega)]
        omega
    refine ⟨i, rfl, ?_⟩
    rw [← Option.some.inj h, substr]
    exact List.take_of_length_le (by rw [List.length_drop]; omega)

theorem between_render {opening closing x y : Str} {ps qs : List (Str × Str)} (ho : isMarkup opening = true)
    (hc : isMarkup closing = true) (hne : closing ≠ opening) (hps : Tagged ps) (hqs : Tagged qs)
    (h1 : findPieces opening ps = none) (h2 : findPieces closing ps = none) (h3 : find closing x = none)
    (hlen : (render (ps ++ (opening, x) :: (closing, y) :: qs)).length < 2 ^ 64) :
    between (render (ps ++ (opening, x) :: (closing, y) :: qs)) opening closing = some x := by
  have ht : Tagged (ps ++ (opening, x) :: (closing, y) :: qs) := by
    intro p hp
    simp only [List.mem_append, List.mem_cons] at hp
    rcases hp with hp | rfl | rfl | hp
    · exact hps p hp
    · exact ho
    · exact hc
    · exact hqs p hp
  refine between_slice (a := render ps) (m := x) (b := closing ++ (y ++ render qs)) ?_ hlen ?_ ?_
  · simp [render_append]
  · rw [find_render ho ht, findPieces_append, h1]; simp [findPieces]
  · rw [find_render hc ht, findPieces_append, h2]
    simp only [findPieces, hne, if_false, h3, if_true, Option.map_none, Option.none_or, Option.map_some,
      Option.some.injEq]
    omega

end VyattaRest.Lib
