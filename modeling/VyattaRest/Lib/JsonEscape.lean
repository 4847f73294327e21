/-
  VyattaRest.Lib.JsonEscape — JSON texts of one member whose string is escaped byte by byte.
  - `parseJson_member`: the string is read back, if every byte of it is plain or escaped.
  - `weight_le_of_member`: a text that holds a member is as long as the member weighs.
-/

import VyattaRest.Lib.JsonText
import VyattaRest.Lib.Lines

namespace VyattaRest.Lib

open JsonValue

/-! ## UTF-8 -/

/-- What is owed lies outside ASCII. -/
def High (owed : List (Nat × Nat)) : Prop := ∀ p ∈ owed, 128 ≤ p.1

theorem utf8Owed_high {b : Nat} {owed : List (Nat × Nat)} (h : utf8Owed b = some owed) : High owed := by
  unfold utf8Owed at h
  repeat' split at h
  all_goals
    cases h
    try simp [High]

theorem utf8Step_high {owed owed' : List (Nat × Nat)} {b : UInt8} (ho : High owed) (h : utf8Step owed b = some owed') :
    High owed' := by
  rcases owed with _ | ⟨⟨lo, hi⟩, owed⟩
  · exact utf8Owed_high h
  · rw [utf8Step] at h
    split at h
    · cases h
      exact fun p hp => ho p (List.mem_cons_of_mem _ hp)
    · cases h

theorem utf8_fold_high : ∀ {s : Str} {owed owed' : List (Nat × Nat)}, High owed → s.foldlM utf8Step owed = some owed' →
    High owed' := by
  intro s
  induction s with
  | nil =>
    intro owed owed' ho h
    cases h
    exact ho
  | cons b s ih =>
    intro owed owed' ho h
    obtain ⟨o, hstep, hrest⟩ : ∃ o, utf8Step owed b = some o ∧ s.foldlM utf8Step o = some owed' :=
      Option.bind_eq_some_iff.mp h
    exact ih (utf8Step_high ho hstep) hrest

/-- An ASCII byte is taken only when nothing is owed. -/
theorem utf8Step_ascii {owed owed' : List (Nat × Nat)} {b : UInt8} (ho : High owed) (hb : b.toNat < 128)
    (h : utf8Step owed b = some owed') : owed = [] ∧ owed' = [] := by
  rcases owed with _ | ⟨⟨lo, hi⟩, owed⟩
  · rw [utf8Step, utf8Owed, if_pos hb] at h
    exact ⟨rfl, (Option.some.inj h).symm⟩
  · have hlo : 128 ≤ lo := ho (lo, hi) List.mem_cons_self
    rw [utf8Step, if_neg (by omega)] at h
    cases h

/-- A text can be cut behind an ASCII byte. -/
theorem utf8_cut {a r : Str} {b : UInt8} (hb : b.toNat < 128) (h : Utf8 (a ++ b :: r)) : Utf8 (a ++ [b]) ∧ Utf8 r := by
  rw [Utf8, List.foldlM_append] at h
  obtain ⟨owed, ha, hrest⟩ := Option.bind_eq_some_iff.mp h
  obtain ⟨owed', hstep, hr⟩ : ∃ owed', utf8Step owed b = some owed' ∧ r.foldlM utf8Step owed' = some [] :=
    Option.bind_eq_some_iff.mp hrest
  obtain ⟨rfl, rfl⟩ := utf8Step_ascii (utf8_fold_high (by simp [High]) ha) hb hstep
  refine ⟨(utf8_append ha [b]).mpr ?_, hr⟩
  rw [utf8_cons hb]
  exact utf8_nil

theorem utf8_ascii : ∀ {t : Str}, (∀ c ∈ t, c.toNat < 128) → Utf8 t := by
  intro t
  induction t with
  | nil => exact fun _ => utf8_nil
  | cons c t ih =>
    intro h
    exact (utf8_cons (h c List.mem_cons_self) t).mpr (ih fun d hd => h d (List.mem_cons_of_mem _ hd))

/-- Escapes are ASCII and stand for ASCII, so whole characters stay whole. -/
theorem utf8_flatMap {enc : UInt8 → Str} {s : Str} (henc : ∀ b ∈ s, enc b = [b] ∨ b.toNat < 128 ∧ ∀ c ∈ enc b, c.toNat < 128)
    (hs : Utf8 s) : Utf8 (s.flatMap enc) := by
  have h : ∀ (s : Str) (owed : List (Nat × Nat)), (∀ b ∈ s, enc b = [b] ∨ b.toNat < 128 ∧ ∀ c ∈ enc b, c.toNat < 128) →
      High owed → s.foldlM utf8Step owed = some [] → (s.flatMap enc).foldlM utf8Step owed = some [] := by
    intro s
    induction s with
    | nil => exact fun _ _ _ h => h
    | cons b s ih =>
      intro owed henc howed h
      obtain ⟨owed', hstep, hrest⟩ : ∃ owed', utf8Step owed b = some owed' ∧ s.foldlM utf8Step owed' = some [] :=
        Option.bind_eq_some_iff.mp h
      have ih := ih owed' (fun c hc => henc c (List.mem_cons_of_mem _ hc)) (utf8Step_high howed hstep) hrest
      rw [List.flatMap_cons, List.foldlM_append]
      rcases henc b List.mem_cons_self with he | ⟨hb, hlow⟩
      · have hone : [b].foldlM utf8Step owed = some owed' := by
          show (utf8Step owed b).bind some = some owed'
          rw [hstep]
          rfl
        rw [he, hone]
        exact ih
      · obtain ⟨rfl, rfl⟩ := utf8Step_ascii howed hb hstep
        have henc' : (enc b).foldlM utf8Step [] = some [] := utf8_ascii hlow
        rw [henc']
        exact ih
  exact h s [] henc (by simp [High]) hs

/-- The lines of a text of whole characters are such texts. -/
theorem utf8_lines {s : Str} (hs : Utf8 s) : ∀ l ∈ lines 10 s, Utf8 l := by
  have h : ∀ (n : Nat) (t : Str) (room : Nat) (cur : Str), t.length < n → t.length < room → Utf8 (cur ++ t) →
      ∀ l ∈ readsFrom 10 n room cur t, Utf8 l := by
    intro n t
    induction t with
    | nil =>
      intro room cur _ _ hu l hl
      rw [List.append_nil] at hu
      rw [readsFrom] at hl
      split at hl
      · cases hl
      · rw [List.mem_singleton.mp hl]
        exact hu
    | cons b t ih =>
      intro room cur hn hroom hu l hl
      rw [List.length_cons] at hn hroom
      rw [readsFrom] at hl
      split at hl
      · rename_i hb
        have hb : b = 10 := hb.resolve_right (by omega)
        subst hb
        obtain ⟨hline, hrest⟩ := utf8_cut (by decide) hu
        rcases List.mem_cons.mp hl with rfl | hl
        · exact hline
        · exact ih n [] (by omega) (by omega) hrest l hl
      · refine ih (room - 1) (cur ++ [b]) (by omega) (by omega) ?_ l hl
        rwa [List.append_assoc, List.singleton_append]
  exact h (s.length + 1) s (s.length + 1) [] (Nat.lt_succ_self _) (Nat.lt_succ_self _) hs

/-! ## One member -/

/-- The text of an object with one member, its string as it stands between the quotes. -/
def memberObject (key body : Str) : Str := 123 :: 34 :: (key ++ 34 :: 58 :: 34 :: (body ++ [34, 125]))

theorem parseJson_member {key : Str} (hk : PlainText key) (hku : Utf8 key) {enc : UInt8 → Str} {s : Str}
    (hs : ∀ b ∈ s, Escaped b (enc b)) (hu : Utf8 (s.flatMap enc)) :
    parseJson (memberObject key (s.flatMap enc)) = some (.object [(key, .string s)]) := by
  have hutf : Utf8 (memberObject key (s.flatMap enc)) := by
    rw [memberObject, utf8_cons (by decide), utf8_cons (by decide), utf8_append hku, utf8_cons (by decide),
      utf8_cons (by decide), utf8_cons (by decide), utf8_append hu]
    decide
  have hvalue : ∀ fuel, value (fuel + 1) (34 :: (s.flatMap enc ++ [34, 125])) = some (.string s, [125]) := by
    intro fuel
    have hbody : jsonString (s.flatMap enc ++ 34 :: [125]) = some (s, [125]) :=
      stringBody_escaped hs [125] (by simp only [List.length_append, List.length_cons]; omega)
    rw [value, skipWs_cons (by decide)]
    simp only [if_true, hbody, Option.map_some]
  have hmembers : ∀ fuel, members (fuel + 2) (34 :: (key ++ 34 :: 58 :: 34 :: (s.flatMap enc ++ [34, 125]))) =
      some ([(key, .string s)], []) := by
    intro fuel
    rw [members, token_cons (by decide), Option.bind_some, jsonString_plain hk, Option.bind_some, token_cons (by decide),
      Option.bind_some, hvalue fuel, Option.bind_some]
    rfl
  rw [parseJson, if_pos hutf]
  obtain ⟨fuel, hfuel⟩ : ∃ fuel, (memberObject key (s.flatMap enc)).length + 1 = fuel + 3 :=
    ⟨_, (Nat.sub_add_cancel (by simp [memberObject])).symm⟩
  rw [hfuel, memberObject, value, skipWs_cons (by decide)]
  simp only [show ((123 : UInt8) = 34) = False by decide, show ((123 : UInt8) = 91) = False by decide, if_true, if_false]
  rw [token_cons_ne (by decide) (by decide)]
  simp only [hmembers, Option.map_some, Option.bind_some]
  rfl

/-- A text is as long as any member of its object weighs. -/
theorem weight_le_of_member {t : Str} {ms : List (Str × JsonValue)} (h : parseJson t = some (.object ms)) {k s : Str}
    (hm : ms.lookup k = some (.string s)) : k.length + specialsIn k + (s.length + specialsIn s + 2) + 5 ≤ t.length := by
  have hmem := mem_of_lookup hm
  have hweight := parseJson_weight h
  obtain ⟨m, ms, rfl⟩ := List.exists_cons_of_ne_nil (List.ne_nil_of_mem hmem)
  have hle : memberWeight (k, .string s) ≤ ((m :: ms).map memberWeight).sum := by
    obtain ⟨a, b, hab⟩ := List.append_of_mem hmem
    rw [hab, List.map_append, List.map_cons, List.sum_append, List.sum_cons]
    omega
  rw [weight_object] at hweight
  rw [memberWeight, weight_string] at hle
  simp only at hle
  omega

end VyattaRest.Lib
