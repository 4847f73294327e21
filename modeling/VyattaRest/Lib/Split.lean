/-
  VyattaRest.Lib.Split — cutting a text at the occurrences of a tag.

  `replaceAll pat x` puts the single element `x` in the place of every occurrence of `pat`,
  left to right (`std::string::find` and `replace` in a loop); `cut pat x` then cuts at
  `x` and drops empty pieces. An `x` that stood in the text cuts it as well.

  For a tag the pieces go text by text (`cut_append`), a text that holds neither the tag
  nor `x` is its own piece (`cut_plain`), and every piece is a part of the text that
  holds neither (`mem_cut`). `find_induction` is the induction over the occurrences.
  Pieces that are put together again with one separator between them are the text with
  the superfluous separators taken out (`squeeze_cut`). At a single element the pieces are
  those of `splitOn` (`cut_singleton`): a separator that the text does not hold can stand
  for another one.
-/

import VyattaRest.Lib.Bytes
import VyattaRest.Lib.Loop

namespace VyattaRest.Lib

variable {α : Type} [DecidableEq α]

/-- The `Nat` counts the rest of an occurrence that has been replaced already. -/
def replaceAll (pat : List α) (x : α) : Nat → List α → List α
  | _, [] => []
  | k + 1, _ :: r => replaceAll pat x k r
  | 0, b :: r => if pat.isPrefixOf (b :: r) then x :: replaceAll pat x (pat.length - 1) r else b :: replaceAll pat x 0 r

def cut (pat : List α) (x : α) (s : List α) : List (List α) :=
  ((replaceAll pat x 0 s).splitOn x).filter (· ≠ [])

/-- Every occurrence of `pat`, left to right, makes way for `w`; what is put in is not read again. -/
def substAll (pat w : List α) : Nat → List α → List α
  | _, [] => []
  | k + 1, _ :: r => substAll pat w k r
  | 0, b :: r => if pat.isPrefixOf (b :: r) then w ++ substAll pat w (pat.length - 1) r else b :: substAll pat w 0 r

/-- A text is cut where `pat` is found from left to right, and at every `x`; `cur` is the piece so far. -/
def piecesFrom (pat : List α) (x : α) : Nat → List α → List α → List (List α)
  | _, cur, [] => [cur]
  | k + 1, cur, _ :: r => piecesFrom pat x k cur r
  | 0, cur, b :: r =>
    if pat.isPrefixOf (b :: r) then cur :: piecesFrom pat x (pat.length - 1) [] r
    else if b = x then cur :: piecesFrom pat x 0 [] r
    else piecesFrom pat x 0 (cur ++ [b]) r

/-- The pieces of a text that are not empty. -/
def pieces (pat : List α) (x : α) (s : List α) : List (List α) := (piecesFrom pat x 0 [] s).filter (· ≠ [])

/-- A text has no occurrence, or a first one and a rest. -/
theorem first_induction {pat : List α} (hp : pat ≠ []) {motive : List α → Prop}
    (base : ∀ s, find pat s = none → motive s)
    (step : ∀ a b, find pat (a ++ (pat ++ b)) = some a.length → motive b → motive (a ++ (pat ++ b))) : ∀ s, motive s := by
  intro s
  induction hn : s.length using Nat.strong_induction_on generalizing s with
  | _ n ih =>
    rcases hf : find pat s with _ | i
    · exact base s hf
    · obtain ⟨a, b, rfl, rfl⟩ := find_split hf
      have hpos := List.length_pos_iff.mpr hp
      rw [List.append_assoc] at hf ⊢
      exact step a b hf (ih b.length (by simp only [List.length_append] at hn; omega) b rfl)

/-- A text has no occurrence, or a part without one, an occurrence and a rest. -/
theorem find_induction {pat : List α} (hp : pat ≠ []) {motive : List α → Prop}
    (base : ∀ s, ¬ pat <:+: s → motive s)
    (step : ∀ a b, ¬ pat <:+: a → motive b → motive (a ++ (pat ++ b))) : ∀ s, motive s := by
  intro s
  induction s using first_induction hp with
  | base s hs => exact base s (find_eq_none_iff.mp hs)
  | step a b hf ih =>
    have ha := not_infix_take_of_find hp hf
    rw [List.take_left] at ha
    exact step a b ha ih

/-! ## Replacing -/

variable {pat : List α} {c x : α}

theorem replaceAll_skip (pat : List α) (x : α) (u r : List α) :
    replaceAll pat x u.length (u ++ r) = replaceAll pat x 0 r := by
  induction u with
  | nil => rfl
  | cons b u ih => exact ih

theorem replaceAll_tag (h : Tag pat c) (x : α) (b : List α) :
    replaceAll pat x 0 (pat ++ b) = x :: replaceAll pat x 0 b := by
  obtain ⟨p, rfl, -⟩ := h
  have hpre : (c :: p).isPrefixOf (c :: (p ++ b)) = true := List.isPrefixOf_iff_prefix.mpr (by simp)
  rw [List.cons_append, replaceAll, if_pos hpre]
  exact congrArg (x :: ·) (replaceAll_skip (c :: p) x p b)

theorem replaceAll_append (h : Tag pat c) (x : α) (r : List α) : ∀ (a : List α) (k : Nat), k ≤ a.length →
    replaceAll pat x k (a ++ c :: r) = replaceAll pat x k a ++ replaceAll pat x 0 (c :: r) := by
  intro a
  induction a with
  | nil =>
    intro k hk
    rw [List.length_nil] at hk
    rw [show k = 0 by omega]
    rfl
  | cons b a ih =>
    intro k hk
    rcases k with _ | k
    · have hpre : pat.isPrefixOf (b :: (a ++ c :: r)) = pat.isPrefixOf (b :: a) := h.prefix_append
      rw [List.cons_append, replaceAll, replaceAll, hpre]
      split
      · rename_i hp
        have hle := (List.isPrefixOf_iff_prefix.mp hp).length_le
        rw [ih _ (by rw [List.length_cons] at hle; omega), List.cons_append]
      · rw [ih 0 (Nat.zero_le _), List.cons_append]
    · rw [List.length_cons] at hk
      exact ih k (by omega)

theorem replaceAll_of_not_infix (x : α) {s : List α} (hs : ¬ pat <:+: s) : replaceAll pat x 0 s = s := by
  induction s with
  | nil => rfl
  | cons b r ih =>
    rw [List.infix_cons_iff, not_or] at hs
    rw [replaceAll, if_neg fun hp => hs.1 (List.isPrefixOf_iff_prefix.mp hp), ih hs.2]

theorem substAll_skip (pat w u r : List α) : substAll pat w u.length (u ++ r) = substAll pat w 0 r := by
  induction u with
  | nil => rfl
  | cons b u ih => exact ih

theorem substAll_of_none (w : List α) {s : List α} (hs : find pat s = none) : substAll pat w 0 s = s := by
  induction s with
  | nil => rfl
  | cons b r ih =>
    rw [find] at hs
    split at hs
    · cases hs
    · rename_i hp
      rw [substAll, if_neg hp, ih (Option.map_eq_none_iff.mp hs)]

/-- The first occurrence is replaced, and the rest is a text of its own. -/
theorem substAll_of_first (hp : pat ≠ []) (w : List α) {b : List α} : ∀ {a : List α}, find pat (a ++ (pat ++ b)) = some a.length →
    substAll pat w 0 (a ++ (pat ++ b)) = a ++ (w ++ substAll pat w 0 b) := by
  intro a
  induction a with
  | nil =>
    intro _
    obtain ⟨c, p, rfl⟩ := List.exists_cons_of_ne_nil hp
    have hpre : (c :: p).isPrefixOf (c :: (p ++ b)) = true := List.isPrefixOf_iff_prefix.mpr (List.prefix_append (c :: p) b)
    rw [List.nil_append, List.nil_append, List.cons_append, substAll, if_pos hpre]
    exact congrArg (w ++ ·) (substAll_skip (c :: p) w p b)
  | cons x a ih =>
    intro hf
    rw [List.cons_append, find] at hf
    split at hf
    · cases hf
    · rename_i hno
      obtain ⟨i, hi, hlen⟩ := Option.map_eq_some_iff.mp hf
      rw [List.cons_append, substAll, if_neg hno, ih (by rw [hi, Nat.succ.inj hlen])]
      rfl

theorem replaceAll_eq_substAll (pat : List α) (x : α) :
    ∀ (s : List α) (k : Nat), replaceAll pat x k s = substAll pat [x] k s := by
  intro s
  induction s with
  | nil => exact fun k => by cases k <;> rfl
  | cons b r ih =>
    intro k
    cases k with
    | zero => rw [replaceAll, substAll, ih, ih]; rfl
    | succ k => exact ih k

/-! ## Replacing in place -/

/-- A round of a loop that replaces in place: what is found from a position on makes way for `w`, and
    the search goes on `skip` elements behind the beginning of `w`. -/
def rewriteRound (pat w : List α) (skip : Nat) (st : List α × Nat) : Option (List α × Nat) :=
  (findFrom pat st.1 st.2).map fun i => (st.1.take i ++ w ++ st.1.drop (i + pat.length), i + skip)

/-- The first occurrence behind `done`, and the text around it. -/
theorem replace_first (done : List α) {a b : List α} (w : List α) (hf : find pat (a ++ (pat ++ b)) = some a.length) :
    findFrom pat (done ++ (a ++ (pat ++ b))) done.length = some (a.length + done.length) ∧
      (done ++ (a ++ (pat ++ b))).take (a.length + done.length) ++ w ++
        (done ++ (a ++ (pat ++ b))).drop (a.length + done.length + pat.length) = (done ++ a ++ w) ++ b := by
  constructor
  · rw [findFrom, if_pos (by simp), List.drop_left, hf]
    rfl
  · rw [← List.append_assoc, List.take_left' (by simp; omega), ← List.append_assoc, List.drop_left' (by simp; omega)]

/-- What holds no element of the pattern is passed over. -/
theorem findFrom_skip (hp : pat ≠ []) (done : List α) {u : List α} (hu : ∀ b ∈ u, b ∉ pat) (rest : List α) :
    findFrom pat (done ++ u ++ rest) done.length = findFrom pat (done ++ u ++ rest) (done ++ u).length := by
  obtain ⟨c, p, rfl⟩ := List.exists_cons_of_ne_nil hp
  have hc : c ∉ u := fun hc => hu c hc List.mem_cons_self
  rw [findFrom, findFrom, if_pos (by simp), if_pos (by simp), List.drop_left, List.append_assoc, List.drop_left,
    find_skip_head hc, Option.map_map, List.length_append]
  exact congrArg (fun f => Option.map f (find (c :: p) rest)) (funext fun i => by simp only [Function.comp]; omega)

/-- Such a loop ends with every occurrence replaced, if what it reads again of `w` holds no element of the pattern. -/
theorem rewrite_ends (hp : pat ≠ []) {w : List α} {skip : Nat} (hskip : skip ≤ w.length) (hw : ∀ b ∈ w.drop skip, b ∉ pat)
    (rest : List α) : ∀ done u : List α, (∀ b ∈ u, b ∉ pat) →
    ∃ pos, Ends (rewriteRound pat w skip) (done ++ u ++ rest, done.length) (done ++ u ++ substAll pat w 0 rest, pos) := by
  induction rest using first_induction hp with
  | base rest hf =>
    intro done u hu
    rw [substAll_of_none w hf]
    refine ⟨_, .stop ?_⟩
    rw [rewriteRound, findFrom_skip hp done hu, findFrom, if_pos (by simp), List.drop_left, hf]
    rfl
  | step a b hf ih =>
    intro done u hu
    obtain ⟨hfind, hreplaced⟩ := replace_first (done ++ u) w hf
    obtain ⟨pos, hpos⟩ := ih (done ++ u ++ a ++ w.take skip) (w.drop skip) hw
    have htext : done ++ u ++ a ++ w.take skip ++ w.drop skip = done ++ u ++ a ++ w := by
      rw [List.append_assoc _ (w.take skip), List.take_append_drop]
    have hlen : (done ++ u ++ a ++ w.take skip).length = a.length + (done ++ u).length + skip := by
      simp only [List.length_append, List.length_take, Nat.min_eq_left hskip]
      omega
    rw [htext, hlen] at hpos
    have hround : rewriteRound pat w skip (done ++ u ++ (a ++ (pat ++ b)), done.length) =
        some (done ++ u ++ a ++ w ++ b, a.length + (done ++ u).length + skip) := by
      rw [rewriteRound, findFrom_skip hp done hu, hfind, Option.map_some, hreplaced]
    refine ⟨pos, .step hround ?_⟩
    rw [substAll_of_first hp w hf]
    simp only [List.append_assoc] at hpos ⊢
    exact hpos

/-! ## Pieces -/

theorem splitOn_replaceAll (pat : List α) (x : α) : ∀ (s : List α) (k : Nat) (cur : List α), x ∉ cur →
    (cur ++ replaceAll pat x k s).splitOn x = piecesFrom pat x k cur s := by
  intro s
  induction s with
  | nil =>
    intro k cur hcur
    have hnil : replaceAll pat x k [] = [] := by cases k <;> rfl
    rw [hnil, List.append_nil, List.splitOn_eq_singleton hcur]
    cases k <;> rfl
  | cons b r ih =>
    intro k cur hcur
    cases k with
    | succ k => exact ih k cur hcur
    | zero =>
      rw [replaceAll, piecesFrom]
      split
      · rw [List.splitOn_append_cons_self_of_not_mem hcur, ← ih _ [] List.not_mem_nil]
        rfl
      · split
        · rename_i hb
          rw [hb, List.splitOn_append_cons_self_of_not_mem hcur, ← ih _ [] List.not_mem_nil]
          rfl
        · rename_i hb
          have hmem : x ∉ cur ++ [b] := by
            rw [List.mem_append, List.mem_singleton, not_or]
            exact ⟨hcur, fun h => hb h.symm⟩
          rw [← ih 0 (cur ++ [b]) hmem, List.append_assoc]
          rfl

theorem cut_eq_pieces (pat : List α) (x : α) (s : List α) : cut pat x s = pieces pat x s := by
  rw [cut, pieces, ← splitOn_replaceAll pat x s 0 [] List.not_mem_nil]
  rfl

theorem cut_append (h : Tag pat c) (x : α) (a b : List α) :
    cut pat x (a ++ (pat ++ b)) = cut pat x a ++ cut pat x b := by
  have e : replaceAll pat x 0 (a ++ (pat ++ b)) = replaceAll pat x 0 a ++ x :: replaceAll pat x 0 b := by
    rw [← replaceAll_tag h]
    obtain ⟨p, rfl, hp⟩ := h
    exact replaceAll_append ⟨p, rfl, hp⟩ x (p ++ b) a 0 (Nat.zero_le _)
  rw [cut, e, List.splitOn_append_cons_self, List.filter_append]
  rfl

theorem cut_plain {s : List α} (hs : ¬ pat <:+: s) (hx : x ∉ s) (hne : s ≠ []) : cut pat x s = [s] := by
  rw [cut, replaceAll_of_not_infix x hs, List.splitOn_eq_singleton hx]
  simp [hne]

omit [DecidableEq α] in
theorem singleton_not_infix {s : List α} : ¬ [x] <:+: s ↔ x ∉ s := by
  rw [not_iff_not]
  exact List.singleton_infix_iff x s

theorem mem_splitOn (x : α) (s : List α) : ∀ f ∈ s.splitOn x, x ∉ f ∧ f <:+: s := by
  have hne : [x] ≠ [] := by simp
  induction s using find_induction hne with
  | base s hs =>
    intro f hf
    rw [ singleton_not_infix] at hs
    rw [List.splitOn_eq_singleton hs, List.mem_singleton] at hf
    subst hf
    exact ⟨hs, List.infix_rfl⟩
  | step a b ha ih =>
    intro f hf
    rw [ singleton_not_infix] at ha
    rw [List.singleton_append, List.splitOn_append_cons_self_of_not_mem ha] at hf
    rcases List.mem_cons.mp hf with rfl | hf
    · exact ⟨ha, List.infix_append_left⟩
    · exact ⟨(ih f hf).1, (ih f hf).2.trans ⟨a ++ [x], [], by simp⟩⟩

omit [DecidableEq α] in
/-- A prefix ends before the separator or goes past it. -/
theorem prefix_split {a b t : List α} (h : t <+: a ++ x :: b) : t <+: a ∨ ∃ t', t = a ++ x :: t' ∧ t' <+: b := by
  rcases List.prefix_or_prefix_of_prefix h (List.prefix_append a (x :: b)) with h' | ⟨d, rfl⟩
  · exact Or.inl h'
  · rw [List.prefix_append_right_inj] at h
    rcases d with _ | ⟨y, d⟩
    · exact Or.inl (by simp)
    · rw [List.cons_prefix_cons] at h
      obtain ⟨rfl, hd⟩ := h
      exact Or.inr ⟨d, rfl, hd⟩

omit [DecidableEq α] in
/-- A part begins before the separator or behind it. -/
theorem infix_split {a b t : List α} (h : t <:+: a ++ x :: b) :
    (∃ a', a' <:+ a ∧ t <+: a' ++ x :: b) ∨ t <:+: b := by
  obtain ⟨l, hpre, hsuf⟩ := List.infix_iff_prefix_suffix.mp h
  rcases List.suffix_or_suffix_of_suffix hsuf (List.suffix_append a (x :: b)) with hl | ⟨a', rfl⟩
  · rcases List.suffix_cons_iff.mp hl with rfl | hl
    · exact Or.inl ⟨[], List.nil_suffix, hpre⟩
    · exact Or.inr (hpre.isInfix.trans hl.isInfix)
  · obtain ⟨p, hp⟩ := hsuf
    rw [← List.append_assoc] at hp
    exact Or.inl ⟨a', ⟨p, List.append_cancel_right hp⟩, hpre⟩

/-- What a piece is: a part of the text, not empty, without the tag and `x`. -/
theorem mem_cut (h : Tag pat c) {s f : List α} (hf : f ∈ cut pat x s) :
    f ≠ [] ∧ x ∉ f ∧ ¬ pat <:+: f ∧ f <:+: s := by
  induction s using find_induction h.ne_nil with
  | base s hs =>
    rw [cut, replaceAll_of_not_infix x hs, List.mem_filter] at hf
    obtain ⟨hx, hi⟩ := mem_splitOn x s f hf.1
    exact ⟨by simpa using hf.2, hx, fun hp => hs (hp.trans hi), hi⟩
  | step a b ha ih =>
    rw [cut_append h, List.mem_append] at hf
    rcases hf with hf | hf
    · rw [cut, replaceAll_of_not_infix x ha, List.mem_filter] at hf
      obtain ⟨hx, hi⟩ := mem_splitOn x a f hf.1
      exact ⟨by simpa using hf.2, hx, fun hp => ha (hp.trans hi), hi.trans List.infix_append_left⟩
    · obtain ⟨h1, h2, h3, h4⟩ := ih hf
      exact ⟨h1, h2, h3, h4.trans ⟨a ++ pat, [], by simp⟩⟩

/-! ## Pieces put together again -/

/-- The text with one `x` for each run of them between two other elements. `gap` comes before the
    next element, or `next` if there is an `x` before it. -/
def squeeze (x : α) (gap next : List α) : List α → List α
  | [] => []
  | b :: s => if b = x then squeeze x next next s else gap ++ b :: squeeze x [] [x] s

theorem squeeze_append {a : List α} (ha : x ∉ a) (hne : a ≠ []) (gap next r : List α) :
    squeeze x gap next (a ++ r) = gap ++ (a ++ squeeze x [] [x] r) := by
  induction a generalizing gap next with
  | nil => exact absurd rfl hne
  | cons b a ih =>
    rw [List.mem_cons, not_or] at ha
    rw [List.cons_append, squeeze, if_neg (Ne.symm ha.1)]
    by_cases hnil : a = []
    · subst hnil
      rfl
    · rw [ih ha.2 hnil]
      rfl

/-- Any number of separators is none or one. -/
theorem squeeze_replicate (n : Nat) (r : List α) :
    squeeze x [] [x] (List.replicate n x ++ r) = squeeze x (if n = 0 then [] else [x]) [x] r := by
  have hmore : ∀ n, squeeze x [x] [x] (List.replicate n x ++ r) = squeeze x [x] [x] r := by
    intro n
    induction n with
    | zero => rfl
    | succ n ih => rw [List.replicate_succ, List.cons_append, squeeze, if_pos rfl, ih]
  rcases n with _ | n
  · rfl
  · rw [List.replicate_succ, List.cons_append, squeeze, if_pos rfl, hmore, if_neg (Nat.succ_ne_zero n)]

theorem notMem_squeeze {y : α} (hx : y ≠ x) {s : List α} (hs : y ∉ s) : ∀ {gap next : List α}, y ∉ gap → y ∉ next →
    y ∉ squeeze x gap next s := by
  induction s with
  | nil =>
    intro gap next _ _
    exact List.not_mem_nil
  | cons b s ih =>
    intro gap next hgap hnext
    rw [List.mem_cons, not_or] at hs
    unfold squeeze
    split
    · exact ih hs.2 hnext hnext
    · have := ih hs.2 List.not_mem_nil (List.mem_singleton.not.mpr hx)
      simp [hgap, hs.1, this]

theorem cut_cons (y : α) (b : List α) : cut [x] y (x :: b) = cut [x] y b :=
  cut_append ⟨[], rfl, List.not_mem_nil⟩ y [] b

theorem cut_word {y : α} {a : List α} (ha : x ∉ a) (hy : y ∉ a) (hne : a ≠ []) (b : List α) :
    cut [x] y (a ++ x :: b) = a :: cut [x] y b := by
  have happend := cut_append (c := x) ⟨[], rfl, List.not_mem_nil⟩ y a b
  rw [cut_plain ( singleton_not_infix.mpr ha) hy hne] at happend
  exact happend

/-- The pieces with one separator between them are the text without the superfluous ones. -/
theorem squeeze_cut {y : α} {s : List α} (hy : y ∉ s) :
    squeeze x [] [] s = [x].intercalate (cut [x] y s) ∧ squeeze x [x] [x] s = (cut [x] y s).flatMap (x :: ·) := by
  have hne : [x] ≠ [] := by simp
  have htail : ∀ (w : List α) (ws : List (List α)), [x].intercalate (w :: ws) = w ++ ws.flatMap (x :: ·) := by
    intro w ws
    induction ws generalizing w with
    | nil => simp
    | cons v ws ih => rw [List.intercalate_cons_cons, ih, List.flatMap_cons, List.append_assoc]; rfl
  induction s using find_induction hne with
  | base s hs =>
    rw [ singleton_not_infix] at hs
    by_cases hnil : s = []
    · subst hnil
      exact ⟨rfl, rfl⟩
    · have hword : ∀ gap next, squeeze x gap next s = gap ++ s := by
        intro gap next
        have := squeeze_append hs hnil gap next []
        rwa [List.append_nil, squeeze, List.append_nil] at this
      rw [cut_plain ( singleton_not_infix.mpr hs) hy hnil, hword, hword]
      simp
  | step a b ha ih =>
    rw [ singleton_not_infix] at ha
    simp only [List.mem_append, not_or] at hy
    obtain ⟨ih₁, ih₂⟩ := ih hy.2.2
    by_cases hnil : a = []
    · subst hnil
      rw [List.nil_append, List.singleton_append, cut_cons, squeeze, squeeze, if_pos rfl, if_pos rfl]
      exact ⟨ih₁, ih₂⟩
    · have hpending : squeeze x [] [x] ([x] ++ b) = squeeze x [x] [x] b := by
        rw [List.singleton_append, squeeze, if_pos rfl]
      rw [squeeze_append ha hnil, squeeze_append ha hnil, hpending, ih₂, List.singleton_append, cut_word ha hy.1 hnil, htail]
      exact ⟨rfl, rfl⟩

/-! ## One separator for another -/

theorem splitOnP_map {p : α → Bool} {f : α → α} {s : List α} (h : ∀ b ∈ s, p (f b) = (b == c)) :
    (s.map f).splitOnP p = (s.splitOn c).map (List.map f) := by
  induction s with
  | nil => rfl
  | cons b s ih =>
    have ih := ih fun x hx => h x (List.mem_cons_of_mem _ hx)
    rw [List.map_cons, List.splitOnP_cons_eq_if_modifyHead, List.splitOn_cons_eq_if_modifyHead, h b List.mem_cons_self, ih]
    split
    · rfl
    · rcases s.splitOn c with _ | ⟨u, us⟩ <;> rfl

/-- A separator that the text does not hold can stand for another one. -/
theorem splitOnP_replace {p : α → Bool} {s : List α} (hx : p x = true) (hp : ∀ b ∈ s, b ≠ c → p b = false) :
    (s.map fun b => if b = c then x else b).splitOnP p = s.splitOn c := by
  have hmap : ∀ b ∈ s, p (if b = c then x else b) = (b == c) := by
    intro b hb
    by_cases e : b = c
    · rw [if_pos e, hx, e, beq_self_eq_true]
    · rw [if_neg e, hp b hb e, beq_eq_false_iff_ne.mpr e]
  rw [splitOnP_map hmap]
  refine (List.map_congr_left fun u hu => ?_).trans (List.map_id _)
  have hc := (mem_splitOn c s u hu).1
  refine (List.map_congr_left fun b hb => ?_).trans (List.map_id _)
  exact if_neg fun e : b = c => hc (e ▸ hb)

theorem replaceAll_singleton (s : List α) : replaceAll [c] x 0 s = s.map fun b => if b = c then x else b := by
  induction s with
  | nil => rfl
  | cons b s ih =>
    rw [replaceAll, List.map_cons, ← ih]
    by_cases e : b = c
    · simp [e]
    · simp [e, Ne.symm e]

/-- Cutting at a single element. -/
theorem cut_singleton {s : List α} (hx : x ∉ s) : cut [c] x s = (s.splitOn c).filter (· ≠ []) := by
  have hsplit : (s.map fun b => if b = c then x else b).splitOn x = s.splitOn c :=
    splitOnP_replace (beq_self_eq_true x) fun b hb _ => beq_eq_false_iff_ne.mpr fun e : b = x => hx (e ▸ hb)
  rw [cut, replaceAll_singleton, hsplit]

end VyattaRest.Lib
