/-
  VyattaRest.AppErrors — which element of a message an error of a commit goes to
  (App/MsgSimple.pm, `_find_error`).

  The place of an error is a text: locations of the map and values in turn. The search goes down
  the map and the message with it. On each level it takes the first key that the text begins
  with, in the order of the hash, and cuts it off with the character behind it.
  - `attached_iff`: an error gets to its element, in whatever order the keys come, exactly when
    on its way no other key is the beginning of what is left of the text.
  - `noted_elsewhere`: what is not at the element stays.
  - `a_name_that_begins_with_another`: two users and an error that gets lost.
-/

import VyattaRest.AppReconcile
import VyattaRest.Lib.HashTree

namespace VyattaRest.MsgSimple.Errors

open VyattaRest.Lib

abbrev Node := HashTree Str

/-- What `$m` is: the elements of a map, or one of them. -/
inductive Target where
  | map (m : List Elem)
  | elem (e : Elem)

/-- `$m->{_children}`, which every element has. -/
def Target.children? : Target → Option Target
  | map m => (m.find? fun e => e.name = str "_children").map elem
  | elem e => some (map e.children)

def Target.elems : Target → List Elem
  | map m => m
  | elem _ => []

/-- The order in which the keys of a hash come, for each text. -/
structure Order where
  keys : Str → List Str → List Str
  perm : ∀ use hash, (keys use hash).Perm hash

/-- `m/^$key(.*)/` and what is left without the character behind, for keys without metacharacters. -/
def cutOff (key errLoc : Str) : Option Str :=
  if key.isPrefixOf errLoc then some (((errLoc.drop key.length).takeWhile (· ≠ 10)).drop 1) else none

/-- `split(" ", $remainder)`. -/
def fieldsOf (remainder : Str) : List Str := (remainder.splitOnP isSpace).filter (· ≠ [])

def Order.key? (o : Order) (errLoc : Str) (keys : List Str) : Option (Str × Str) :=
  (o.keys errLoc keys).findSome? fun key => (cutOff key errLoc).map fun remainder => (key, remainder)

def Order.elem? (o : Order) (errLoc : Str) (m : List Elem) : Option (Elem × Str) :=
  (o.keys errLoc (m.map Elem.name)).findSome? fun name => (m.find? fun e => e.name = name).bind fun e =>
    e.location.bind fun location => (cutOff location errLoc).map fun remainder => (e, remainder)

theorem cutOff_shorter {key errLoc remainder : Str} (h : cutOff key errLoc = some remainder) (hne : errLoc ≠ []) :
    remainder.length < errLoc.length := by
  rw [cutOff] at h
  split at h
  · cases h
    have hlen := ((List.takeWhile_sublist (p := fun b : UInt8 => decide (b ≠ 10)) (l := errLoc.drop key.length))).length_le
    have hpos := List.length_pos_of_ne_nil hne
    rw [List.length_drop] at hlen ⊢
    omega
  · cases h

theorem Order.key_spec {o : Order} {errLoc key remainder : Str} {keys : List Str}
    (h : o.key? errLoc keys = some (key, remainder)) :
    key ∈ keys ∧ cutOff key errLoc = some remainder := by
  obtain ⟨k, hk, hcut⟩ := List.exists_of_findSome?_eq_some h
  obtain ⟨r, hr, heq⟩ := Option.map_eq_some_iff.mp hcut
  cases heq
  exact ⟨(o.perm _ _).mem_iff.mp hk, hr⟩

theorem Order.elem_spec {o : Order} {errLoc remainder : Str} {m : List Elem} {e : Elem}
    (h : o.elem? errLoc m = some (e, remainder)) :
    e ∈ m ∧ ∃ location, e.location = some location ∧ cutOff location errLoc = some remainder := by
  obtain ⟨name, -, hname⟩ := List.exists_of_findSome?_eq_some h
  obtain ⟨e', he', hname⟩ := Option.bind_eq_some_iff.mp hname
  obtain ⟨location, hl, hname⟩ := Option.bind_eq_some_iff.mp hname
  obtain ⟨r, hr, heq⟩ := Option.map_eq_some_iff.mp hname
  cases heq
  exact ⟨List.mem_of_find?_eq_some he', location, hl, hr⟩

/-- `$d->{$k}->{..}` in a call makes `$d->{$k}`. -/
def vivify (k : Str) (d : Node) : Option Node := (d.get k).fields?.bind fun fields => HashTree.write? [k] (.hash fields) d

/-- What a call has done to a hash below is seen from above; what it has done to its own copy of
    an undefined value is not. -/
def link (ks : List Str) (d : Node) (r : Nat × Node) : Option (Nat × Node) :=
  if (d.read ks).isUndef then some (r.1, d) else (HashTree.write? ks r.2 d).map fun d => (r.1, d)

/-- The error at an element, and of its value nothing. -/
def note (err : Node) (elem value : Str) (d : Node) : Option Node :=
  (HashTree.write? [elem, str "_error"] err d).bind (HashTree.write? [elem, str "_values", value] .undef)

/-- `_find_error`, and what it makes of `$d`; nothing if it dies. -/
def findError (o : Order) (err : Node) (t : Target) (d : Node) (errLoc : Str) : Option (Nat × Node) :=
  if _hne : errLoc = [] ∨ errLoc = str "value:" then (HashTree.write? [str "_error"] err d).map fun d => (0, d)
  else
    match t.children? with
    | some children => d.fields?.bind fun fields =>
      match _h : o.key? errLoc (fields.map Prod.fst) with
      | none => some (1, d)
      | some (key, remainder) => (findError o err children (d.get key) remainder).bind (link [key] d)
    | none =>
      match _h : o.elem? errLoc t.elems with
      | none => some (1, d)
      | some (e, remainder) =>
        if (fieldsOf remainder).length = 1 ∨ remainder = [] then (note err e.name remainder d).map fun d => (0, d)
        else (vivify e.name d).bind fun d =>
          (findError o err (.elem e) (d.read [e.name, str "_values"]) remainder).bind (link [e.name, str "_values"] d)
termination_by errLoc.length
decreasing_by
  · exact cutOff_shorter (Order.key_spec _h).2 fun he => _hne (Or.inl he)
  · obtain ⟨-, location, -, hcut⟩ := Order.elem_spec _h
    exact cutOff_shorter hcut fun he => _hne (Or.inl he)

/-! ## Paths -/

def isWordByte (b : UInt8) : Bool :=
  (48 ≤ b && b ≤ 57) || (65 ≤ b && b ≤ 90) || (97 ≤ b && b ≤ 122) || b = 95 || b = 45

/-- Word characters and `-`. -/
def Inert (v : Str) : Prop := v ≠ [] ∧ ∀ b ∈ v, isWordByte b = true

/-- A map with each name once, and none of them the one that the children have. A location is of
    one word or several. -/
inductive Regular : List Elem → Prop where
  | mk {m : List Elem} (names : (m.map Elem.name).Nodup) (reserved : ∀ e ∈ m, e.name ≠ str "_children")
      (inert : ∀ e ∈ m, ∀ location, e.location = some location → ∀ b ∈ location, isWordByte b = true ∨ b = 32)
      (below : ∀ e ∈ m, Regular e.children) : Regular m

/-- The keys of `_values` in a message are words. -/
inductive Plain : List Elem → Node → Prop where
  | mk {m : List Elem} {d : Node} (inert : ∀ e ∈ m, ∀ v ∈ (d.read [e.name, str "_values"]).keys, Inert v)
      (below : ∀ e ∈ m, ∀ v ∈ (d.read [e.name, str "_values"]).keys, Plain e.children (d.read [e.name, str "_values", v])) :
      Plain m d

/-- A value of an element of a map that a message has. -/
structure Holds (m : List Elem) (d : Node) (e : Elem) (v : Str) : Prop where
  mem : e ∈ m
  located : e.location.isSome
  data : ∃ fields, d = .hash fields
  elem : ∃ fields, d.get e.name = .hash fields
  values : ∃ fields, d.read [e.name, str "_values"] = .hash fields
  value : v ∈ (d.read [e.name, str "_values"]).keys

/-- A path of a message: elements and values. -/
inductive Leads : List Elem → Node → List (Elem × Str) → Prop where
  | last {m : List Elem} {d : Node} {e : Elem} {v : Str} (here : Holds m d e v) : Leads m d [(e, v)]
  | next {m : List Elem} {d : Node} {e : Elem} {v : Str} {t : List (Elem × Str)} (here : Holds m d e v)
      (rest : Leads e.children (d.read [e.name, str "_values", v]) t) : Leads m d ((e, v) :: t)

/-- The text of a path. -/
def spell : List (Elem × Str) → Str
  | [] => []
  | [(e, v)] => e.location.getD [] ++ 32 :: v
  | (e, v) :: t => e.location.getD [] ++ 32 :: (v ++ 32 :: spell t)

/-- The element that a path leads to. -/
def address : List (Elem × Str) → List Str
  | [] => []
  | [(e, _)] => [e.name]
  | (e, v) :: t => [e.name, str "_values", v] ++ address t

/-- The message with an error at the element. -/
def noted (err : Node) : List (Elem × Str) → Node → Option Node
  | [], d => some d
  | [(e, v)], d => note err e.name v d
  | (e, v) :: t, d => (noted err t (d.read [e.name, str "_values", v])).bind
      fun c => HashTree.write? [e.name, str "_values", v] c d

/-- The search ends at the element. -/
def Attached (o : Order) (err : Node) (m : List Elem) (d : Node) (t : List (Elem × Str)) : Prop :=
  ∃ d', noted err t d = some d' ∧ findError o err (.map m) d (spell t) = some (0, d')

/-- On the way no other key is the beginning of what is left of the text. -/
def Alone : List Elem → Node → List (Elem × Str) → Prop
  | _, _, [] => True
  | m, d, (e, v) :: t =>
    (∀ e' ∈ m, ∀ location, e'.location = some location → location <+: spell ((e, v) :: t) → e'.name = e.name) ∧
      (t ≠ [] → ∀ k ∈ (d.read [e.name, str "_values"]).keys, k <+: v ++ 32 :: spell t → k = v) ∧
      Alone e.children (d.read [e.name, str "_values", v]) t

/-! ## Texts -/

theorem prefix_cutOff {key errLoc remainder : Str} (h : cutOff key errLoc = some remainder) : key <+: errLoc := by
  rw [cutOff] at h
  split at h
  · rename_i hpre
    exact List.isPrefixOf_iff_prefix.mp hpre
  · cases h

theorem exists_cutOff {key errLoc : Str} (h : key <+: errLoc) : ∃ remainder, cutOff key errLoc = some remainder := by
  rw [cutOff, if_pos (List.isPrefixOf_iff_prefix.mpr h)]
  exact ⟨_, rfl⟩

theorem cutOff_append {key rest : Str} (h : ∀ b ∈ rest, b ≠ 10) : cutOff key (key ++ 32 :: rest) = some rest := by
  have hline : (32 :: rest).takeWhile (fun b : UInt8 => decide (b ≠ 10)) = 32 :: rest := by
    rw [List.takeWhile_eq_self_iff]
    intro b hb
    rcases List.mem_cons.mp hb with rfl | hb
    · rfl
    · exact decide_eq_true (h b hb)
  rw [cutOff, if_pos (List.isPrefixOf_iff_prefix.mpr (List.prefix_append _ _)), List.drop_left, hline]
  rfl

theorem isSpace_wordByte {b : UInt8} (hb : isWordByte b = true) : isSpace b = false := by
  simp only [isWordByte, Bool.or_eq_true, Bool.and_eq_true, decide_eq_true_eq, UInt8.le_iff_toNat_le, ← UInt8.toNat_inj] at hb
  simp only [isSpace, Bool.or_eq_false_iff, Bool.and_eq_false_iff, beq_eq_false_iff_ne, ne_eq, decide_eq_false_iff_not,
    UInt8.le_iff_toNat_le, ← UInt8.toNat_inj]
  simp only [UInt8.reduceToNat] at hb ⊢
  omega

theorem fieldsOf_append (a b : Str) : fieldsOf (a ++ 32 :: b) = fieldsOf a ++ fieldsOf b := by
  rw [fieldsOf, List.splitOnP_append_cons _ _ (by rfl), List.filter_append]
  rfl

theorem fieldsOf_inert {v : Str} (hv : Inert v) : fieldsOf v = [v] := by
  rw [fieldsOf, List.splitOnP_eq_singleton fun b hb => isSpace_wordByte (hv.2 b hb)]
  exact List.filter_cons_of_pos (decide_eq_true hv.1)

/-- A path of words. -/
def Spelled (t : List (Elem × Str)) : Prop :=
  ∀ x ∈ t, (∃ location, x.1.location = some location ∧ ∀ b ∈ location, isWordByte b = true ∨ b = 32) ∧ Inert x.2

section Spelling

variable {t : List (Elem × Str)} {e : Elem} {v : Str}

theorem spell_next (ht : t ≠ []) : spell ((e, v) :: t) = e.location.getD [] ++ 32 :: (v ++ 32 :: spell t) := by
  cases t with
  | nil => exact absurd rfl ht
  | cons x t => rfl

theorem spell_bytes (h : Spelled t) : ∀ b ∈ spell t, isWordByte b = true ∨ b = 32 := by
  induction t with
  | nil =>
    intro b hb
    cases hb
  | cons x t ih =>
    obtain ⟨e, v⟩ := x
    obtain ⟨⟨location, hl, hloc⟩, hv⟩ := h _ List.mem_cons_self
    have hlast : ∀ b ∈ e.location.getD [] ++ 32 :: v, isWordByte b = true ∨ b = 32 := by
      intro b hb
      change e.location = some location at hl
      rw [hl, List.mem_append, List.mem_cons] at hb
      rcases hb with hb | rfl | hb
      · exact hloc b hb
      · exact Or.inr rfl
      · exact Or.inl (hv.2 b hb)
    by_cases ht : t = []
    · subst ht
      exact hlast
    · intro b hb
      rw [spell_next ht, ← List.cons_append, ← List.append_assoc, List.mem_append, List.mem_cons] at hb
      rcases hb with hb | rfl | hb
      · exact hlast b hb
      · exact Or.inr rfl
      · exact ih (fun y hy => h y (List.mem_cons_of_mem _ hy)) b hb

theorem wordByte_line {b : UInt8} (hb : isWordByte b = true ∨ b = 32) : b ≠ 10 := by
  rintro rfl
  rcases hb with hb | hb
  · cases hb
  · cases hb

theorem spell_fields (h : Spelled t) (ht : t ≠ []) : fieldsOf (spell t) ≠ [] := by
  cases t with
  | nil => exact absurd rfl ht
  | cons x t =>
    obtain ⟨e, v⟩ := x
    have hv := (h _ List.mem_cons_self).2
    by_cases ht : t = []
    · subst ht
      rw [spell, fieldsOf_append, fieldsOf_inert hv]
      exact List.append_ne_nil_of_right_ne_nil _ (List.cons_ne_nil _ _)
    · rw [spell_next ht, fieldsOf_append, fieldsOf_append, fieldsOf_inert hv]
      exact List.append_ne_nil_of_right_ne_nil _ (List.append_ne_nil_of_left_ne_nil (List.cons_ne_nil _ _) _)

theorem with_blank {errLoc : Str} (h : 32 ∈ errLoc) : ¬ (errLoc = [] ∨ errLoc = str "value:") := by
  rintro (rfl | rfl)
  · cases h
  · revert h
    decide

theorem blank_mem_spell (ht : t ≠ []) : 32 ∈ spell t := by
  cases t with
  | nil => exact absurd rfl ht
  | cons x t =>
    obtain ⟨e, v⟩ := x
    by_cases ht : t = []
    · subst ht
      exact List.mem_append_right _ List.mem_cons_self
    · rw [spell_next ht]
      exact List.mem_append_right _ List.mem_cons_self

end Spelling

/-! ## Steps of the search -/

theorem findSome_unique {α β : Type} {l : List α} {f : α → Option β} {a : α} {b : β} (ha : a ∈ l) (hf : f a = some b)
    (huniq : ∀ a' ∈ l, f a' ≠ none → a' = a) : l.findSome? f = some b := by
  induction l with
  | nil => cases ha
  | cons x l ih =>
    rw [List.findSome?_cons]
    rcases hx : f x with _ | y
    · rcases List.mem_cons.mp ha with rfl | ha
      · rw [hf] at hx
        cases hx
      · exact ih ha fun a' ha' => huniq a' (List.mem_cons_of_mem _ ha')
    · have hxa := huniq x List.mem_cons_self (by rw [hx]; exact Option.some_ne_none y)
      subst hxa
      exact hx.symm.trans hf

theorem find_name {m : List Elem} {e : Elem} (hnames : (m.map Elem.name).Nodup) (he : e ∈ m) :
    (m.find? fun e' => e'.name = e.name) = some e := by
  induction m with
  | nil => cases he
  | cons x m ih =>
    obtain ⟨hx, hnames⟩ := List.nodup_cons.mp hnames
    rcases List.mem_cons.mp he with rfl | he
    · exact List.find?_cons_of_pos (decide_eq_true rfl)
    · rw [List.find?_cons_of_neg]
      · exact ih hnames he
      · rw [decide_eq_true_eq]
        exact fun heq => hx (heq ▸ List.mem_map_of_mem he)

section Steps

variable {o : Order} {err d : Node} {m : List Elem} {e : Elem} {errLoc remainder v : Str}

theorem children_map (hm : ∀ e ∈ m, e.name ≠ str "_children") : (Target.map m).children? = none := by
  rw [Target.children?, List.find?_eq_none.mpr, Option.map_none]
  exact fun e he => by simpa using hm e he

theorem findError_last (hm : ∀ e ∈ m, e.name ≠ str "_children") (hne : ¬ (errLoc = [] ∨ errLoc = str "value:"))
    (he : o.elem? errLoc m = some (e, remainder)) (hw : (fieldsOf remainder).length = 1 ∨ remainder = []) :
    findError o err (.map m) d errLoc = (note err e.name remainder d).map fun d => (0, d) := by
  rw [findError, dif_neg hne]
  split
  · rename_i children hc
    rw [children_map hm] at hc
    cases hc
  · split
    · rename_i hnone
      cases he.symm.trans hnone
    · rename_i e' r hsome
      cases he.symm.trans hsome
      rw [if_pos hw]

theorem findError_next (hm : ∀ e ∈ m, e.name ≠ str "_children") (hne : ¬ (errLoc = [] ∨ errLoc = str "value:"))
    (he : o.elem? errLoc m = some (e, remainder)) (hw : ¬ ((fieldsOf remainder).length = 1 ∨ remainder = [])) :
    findError o err (.map m) d errLoc = (vivify e.name d).bind fun d =>
      (findError o err (.elem e) (d.read [e.name, str "_values"]) remainder).bind (link [e.name, str "_values"] d) := by
  rw [findError, dif_neg hne]
  split
  · rename_i children hc
    rw [children_map hm] at hc
    cases hc
  · split
    · rename_i hnone
      cases he.symm.trans hnone
    · rename_i e' r hsome
      cases he.symm.trans hsome
      rw [if_neg hw]

theorem findError_none (hm : ∀ e ∈ m, e.name ≠ str "_children") (hne : ¬ (errLoc = [] ∨ errLoc = str "value:"))
    (he : o.elem? errLoc m = none) : findError o err (.map m) d errLoc = some (1, d) := by
  rw [findError, dif_neg hne]
  split
  · rename_i children hc
    rw [children_map hm] at hc
    cases hc
  · split
    · rfl
    · rename_i e' r hsome
      cases he.symm.trans hsome

theorem findError_value {fields : List (Str × Node)} (hne : ¬ (errLoc = [] ∨ errLoc = str "value:"))
    (hk : o.key? errLoc (fields.map Prod.fst) = some (v, remainder)) :
    findError o err (.elem e) (.hash fields) errLoc =
      (findError o err (.map e.children) ((HashTree.hash fields).get v) remainder).bind (link [v] (.hash fields)) := by
  rw [findError, dif_neg hne]
  split
  · rename_i children hc
    cases hc
    rw [HashTree.fields?, Option.bind_some]
    split
    · rename_i hnone
      cases hk.symm.trans hnone
    · rename_i key r hsome
      cases hk.symm.trans hsome
      rfl
  · rename_i hc
    cases hc

/-- A key that is not taken is left as it is. -/
theorem link_spares {k : Str} {ks : List Str} {r r' : Nat × Node} (hk : k ≠ v) (h : link (k :: ks) d r = some r') :
    r'.2.get v = d.get v := by
  rw [link] at h
  split at h
  · cases h
    rfl
  · obtain ⟨d', hd', rfl⟩ := Option.map_eq_some_iff.mp h
    obtain ⟨c, -, hget⟩ := HashTree.write_cons hd'
    exact (hget v).trans (if_neg fun heq => hk heq.symm)

theorem note_spares {elem value : Str} {d' : Node} (hk : elem ≠ v) (h : note err elem value d = some d') :
    d'.get v = d.get v := by
  obtain ⟨d₁, h₁, h₂⟩ := Option.bind_eq_some_iff.mp h
  obtain ⟨c, -, hget⟩ := HashTree.write_cons h₁
  obtain ⟨c', -, hget'⟩ := HashTree.write_cons h₂
  rw [hget', hget, if_neg fun heq => hk heq.symm, if_neg fun heq => hk heq.symm]

/-- A search that takes an element leaves the others as they are. -/
theorem findError_spares {r : Nat × Node} (hm : ∀ e ∈ m, e.name ≠ str "_children")
    (hne : ¬ (errLoc = [] ∨ errLoc = str "value:")) (he : o.elem? errLoc m = some (e, remainder)) (hk : e.name ≠ v)
    (h : findError o err (.map m) d errLoc = some r) : r.2.get v = d.get v := by
  by_cases hw : (fieldsOf remainder).length = 1 ∨ remainder = []
  · rw [findError_last hm hne he hw] at h
    obtain ⟨d', hd', rfl⟩ := Option.map_eq_some_iff.mp h
    exact note_spares hk hd'
  · rw [findError_next hm hne he hw] at h
    obtain ⟨d₁, hd₁, h⟩ := Option.bind_eq_some_iff.mp h
    obtain ⟨r', -, h⟩ := Option.bind_eq_some_iff.mp h
    obtain ⟨fields, -, hd₁⟩ := Option.bind_eq_some_iff.mp hd₁
    obtain ⟨c, -, hget⟩ := HashTree.write_cons hd₁
    rw [link_spares hk h, hget, if_neg fun heq => hk heq.symm]

theorem vivify_hash {k : Str} {fields below : List (Str × Node)} (h : (HashTree.hash fields).get k = .hash below) :
    vivify k (.hash fields) = some (.hash fields) := by
  have hlook : fields.lookup k = some (.hash below) := by
    change (fields.lookup k).getD .undef = _ at h
    rcases hl : fields.lookup k with _ | x
    · rw [hl] at h
      cases h
    · rw [hl] at h
      exact congrArg some h
  rw [vivify, h, HashTree.fields?, Option.bind_some, HashTree.write?, HashTree.fields?, Option.bind_some, HashTree.write?,
    Option.map_some, HashTree.setField_self hlook]

theorem elem_unique {location : Str} (hnames : (m.map Elem.name).Nodup) (he : e ∈ m) (hl : e.location = some location)
    (hcut : cutOff location errLoc = some remainder)
    (halone : ∀ e' ∈ m, ∀ location', e'.location = some location' → location' <+: errLoc → e'.name = e.name) :
    o.elem? errLoc m = some (e, remainder) := by
  refine findSome_unique (a := e.name) ((o.perm _ _).mem_iff.mpr (List.mem_map_of_mem he)) ?_ fun name _ hname => ?_
  · rw [find_name hnames he, Option.bind_some, hl, Option.bind_some, hcut, Option.map_some]
  · obtain ⟨x, hx⟩ := Option.ne_none_iff_exists'.mp hname
    obtain ⟨e', he', hx⟩ := Option.bind_eq_some_iff.mp hx
    obtain ⟨location', hl', hx⟩ := Option.bind_eq_some_iff.mp hx
    obtain ⟨r, hr, -⟩ := Option.map_eq_some_iff.mp hx
    have hname' : e'.name = name := by simpa using List.find?_some he'
    rw [← hname']
    exact halone e' (List.mem_of_find?_eq_some he') location' hl' (prefix_cutOff hr)

theorem key_unique {keys : List Str} (hk : v ∈ keys) (hcut : cutOff v errLoc = some remainder)
    (halone : ∀ k ∈ keys, k <+: errLoc → k = v) : o.key? errLoc keys = some (v, remainder) := by
  refine findSome_unique (a := v) ((o.perm _ _).mem_iff.mpr hk) ?_ fun k hk' hne => ?_
  · rw [hcut, Option.map_some]
  · obtain ⟨x, hx⟩ := Option.ne_none_iff_exists'.mp hne
    obtain ⟨r, hr, -⟩ := Option.map_eq_some_iff.mp hx
    exact halone k ((o.perm _ _).mem_iff.mp hk') (prefix_cutOff hr)

end Steps

/-! ## A level of the search -/

theorem Regular.parts {m : List Elem} (hm : Regular m) : (m.map Elem.name).Nodup ∧ (∀ e ∈ m, e.name ≠ str "_children") ∧
    (∀ e ∈ m, ∀ location, e.location = some location → ∀ b ∈ location, isWordByte b = true ∨ b = 32) ∧
      ∀ e ∈ m, Regular e.children := by
  cases hm with
  | mk names reserved inert below => exact ⟨names, reserved, inert, below⟩

theorem Plain.parts {m : List Elem} {d : Node} (hd : Plain m d) {e : Elem} (he : e ∈ m) {v : Str}
    (hv : v ∈ (d.read [e.name, str "_values"]).keys) : Inert v ∧ Plain e.children (d.read [e.name, str "_values", v]) := by
  cases hd with
  | mk inert below => exact ⟨inert e he v hv, below e he v hv⟩

theorem Leads.here {m : List Elem} {d : Node} {e : Elem} {v : Str} {t : List (Elem × Str)} (hl : Leads m d ((e, v) :: t)) :
    Holds m d e v := by
  cases hl with
  | last here => exact here
  | next here _ => exact here

theorem Leads.spelled {m : List Elem} {d : Node} {t : List (Elem × Str)} (hl : Leads m d t) (hm : Regular m) (hd : Plain m d) :
    Spelled t := by
  have hhead : ∀ {m : List Elem} {d : Node} {e : Elem} {v : Str}, Holds m d e v → Regular m → Plain m d →
      (∃ location, e.location = some location ∧ ∀ b ∈ location, isWordByte b = true ∨ b = 32) ∧ Inert v := by
    intro m d e v here hm hd
    obtain ⟨location, hloc⟩ := Option.isSome_iff_exists.mp here.located
    exact ⟨⟨location, hloc, hm.parts.2.2.1 e here.mem location hloc⟩, (hd.parts here.mem here.value).1⟩
  induction hl with
  | last here =>
    intro x hx
    rw [List.mem_singleton.mp hx]
    exact hhead here hm hd
  | next here _ ih =>
    intro x hx
    rcases List.mem_cons.mp hx with rfl | hx
    · exact hhead here hm hd
    · exact ih (hm.parts.2.2.2 _ here.mem) (hd.parts here.mem here.value).2 x hx

section Level

variable {o : Order} {err d : Node} {m : List Elem} {e : Elem} {v : Str} {t : List (Elem × Str)}

/-- No other location of the map is the beginning of the text. -/
def AloneInMap (m : List Elem) (e : Elem) (errLoc : Str) : Prop :=
  ∀ e' ∈ m, ∀ location, e'.location = some location → location <+: errLoc → e'.name = e.name

theorem search_last (hm : Regular m) (hd : Plain m d) (here : Holds m d e v) (ha : AloneInMap m e (spell [(e, v)])) :
    findError o err (.map m) d (spell [(e, v)]) = (note err e.name v d).map fun d => (0, d) := by
  obtain ⟨location, hloc⟩ := Option.isSome_iff_exists.mp here.located
  have hv := (hd.parts here.mem here.value).1
  have hcut : cutOff location (spell [(e, v)]) = some v := by
    rw [spell, hloc]
    exact cutOff_append fun b hb => wordByte_line (Or.inl (hv.2 b hb))
  refine findError_last hm.parts.2.1 (with_blank (blank_mem_spell (List.cons_ne_nil _ _)))
    (elem_unique hm.parts.1 here.mem hloc hcut ha) (Or.inl ?_)
  rw [fieldsOf_inert hv]
  rfl

/-- The element of the next level. -/
theorem elem_next (hm : Regular m) (hd : Plain m d) (hl : Leads m d ((e, v) :: t)) (ht : t ≠ [])
    (ha : AloneInMap m e (spell ((e, v) :: t))) : o.elem? (spell ((e, v) :: t)) m = some (e, v ++ 32 :: spell t) ∧
      ¬ ((fieldsOf (v ++ 32 :: spell t)).length = 1 ∨ v ++ 32 :: spell t = []) := by
  have here := hl.here
  obtain ⟨location, hloc⟩ := Option.isSome_iff_exists.mp here.located
  have hspelled := hl.spelled hm hd
  have hrest : Spelled t := fun x hx => hspelled x (List.mem_cons_of_mem _ hx)
  have hv := (hspelled _ List.mem_cons_self).2
  have hcut : cutOff location (spell ((e, v) :: t)) = some (v ++ 32 :: spell t) := by
    rw [spell_next ht, hloc]
    refine cutOff_append fun b hb => wordByte_line ?_
    rcases List.mem_append.mp hb with hb | hb
    · exact Or.inl (hv.2 b hb)
    · rcases List.mem_cons.mp hb with rfl | hb
      · exact Or.inr rfl
      · exact spell_bytes hrest b hb
  refine ⟨elem_unique hm.parts.1 here.mem hloc hcut ha, ?_⟩
  rw [fieldsOf_append, fieldsOf_inert hv, List.length_append, List.length_singleton]
  rintro (hlen | hnil)
  · exact spell_fields hrest ht (List.length_eq_zero_iff.mp (by omega))
  · exact List.append_ne_nil_of_right_ne_nil _ (List.cons_ne_nil _ _) hnil

/-- Down to the hash of values. -/
theorem search_values (hm : Regular m) (hd : Plain m d) (hl : Leads m d ((e, v) :: t)) (ht : t ≠ [])
    (ha : AloneInMap m e (spell ((e, v) :: t))) : findError o err (.map m) d (spell ((e, v) :: t)) =
      (findError o err (.elem e) (d.read [e.name, str "_values"]) (v ++ 32 :: spell t)).bind
        (link [e.name, str "_values"] d) := by
  obtain ⟨hsome, hw⟩ := elem_next (o := o) hm hd hl ht ha
  obtain ⟨fields, hfields⟩ := hl.here.data
  obtain ⟨below, hbelow⟩ := hl.here.elem
  rw [findError_next hm.parts.2.1 (with_blank (blank_mem_spell (List.cons_ne_nil _ _))) hsome hw]
  rw [hfields] at hbelow ⊢
  rw [vivify_hash hbelow, Option.bind_some]

theorem link_hash {ks : List Str} {fields : List (Str × Node)} (h : d.read ks = .hash fields) (r : Nat × Node) :
    link ks d r = (HashTree.write? ks r.2 d).map fun d => (r.1, d) := by
  rw [link, h]
  rfl

/-- Down to the next map. -/
theorem search_next (hm : Regular m) (hd : Plain m d) (hl : Leads m d ((e, v) :: t)) (ht : t ≠ [])
    (ha : AloneInMap m e (spell ((e, v) :: t)))
    (hv : ∀ k ∈ (d.read [e.name, str "_values"]).keys, k <+: v ++ 32 :: spell t → k = v) :
    findError o err (.map m) d (spell ((e, v) :: t)) =
      (findError o err (.map e.children) (d.read [e.name, str "_values", v]) (spell t)).bind fun r =>
        (HashTree.write? [e.name, str "_values", v] r.2 d).map fun d => (r.1, d) := by
  have hrest : Spelled t := fun x hx => hl.spelled hm hd x (List.mem_cons_of_mem _ hx)
  obtain ⟨fields, hfields⟩ := hl.here.values
  have hkey : o.key? (v ++ 32 :: spell t) (fields.map Prod.fst) = some (v, spell t) := by
    have hkeys : (d.read [e.name, str "_values"]).keys = fields.map Prod.fst := by rw [hfields]; rfl
    rw [hkeys] at hv
    refine key_unique (hkeys ▸ hl.here.value) (cutOff_append fun b hb => wordByte_line (spell_bytes hrest b hb)) hv
  have hchild : ∃ below, d.read [e.name, str "_values", v] = .hash below := by
    cases hl with
    | last => exact absurd rfl ht
    | next _ hrest =>
      cases hrest with
      | last here => exact here.data
      | next here _ => exact here.data
  obtain ⟨below, hbelow⟩ := hchild
  have hread : (HashTree.hash fields).get v = d.read [e.name, str "_values", v] := by rw [← hfields]; rfl
  rw [search_values hm hd hl ht ha, hfields,
    findError_value (with_blank (List.mem_append_right _ List.mem_cons_self)) hkey, hread, Option.bind_assoc]
  refine congrArg _ (funext fun r => ?_)
  have hlink : link [v] (.hash fields) r = (HashTree.write? [v] r.2 (.hash fields)).map fun d => (r.1, d) :=
    link_hash (show HashTree.read (.hash fields) [v] = .hash below from hread.trans hbelow) r
  have happend := HashTree.write_append [e.name, str "_values"] [v] r.2 d
  rw [hfields] at happend
  rw [hlink, show [e.name, str "_values", v] = [e.name, str "_values"] ++ [v] from rfl, happend]
  rcases HashTree.write? [v] r.2 (.hash fields) with _ | vals
  · rfl
  · exact link_hash hfields (r.1, vals)

end Level

/-! ## Where an error goes -/

section Noted

variable {err d d' : Node} {m : List Elem} {e : Elem} {v : Str} {t : List (Elem × Str)}

theorem noted_next (ht : t ≠ []) : noted err ((e, v) :: t) d =
    (noted err t (d.read [e.name, str "_values", v])).bind fun c => HashTree.write? [e.name, str "_values", v] c d := by
  cases t with
  | nil => exact absurd rfl ht
  | cons x t => rfl

theorem address_next (ht : t ≠ []) : address ((e, v) :: t) = [e.name, str "_values", v] ++ address t := by
  cases t with
  | nil => exact absurd rfl ht
  | cons x t => rfl

theorem not_prefix_of_second {a b b' : Str} {r r' : List Str} (h : b ≠ b') : ¬ a :: b :: r <+: a :: b' :: r' := fun hpre =>
  h (List.cons_prefix_cons.mp (List.cons_prefix_cons.mp hpre).2).1

theorem hash_some {x : Node} (h : ∃ fields, x = .hash fields) : x.fields?.isSome := by
  obtain ⟨fields, rfl⟩ := h
  rfl

theorem exists_note (err : Node) (here : Holds m d e v) : ∃ d', note err e.name v d = some d' := by
  obtain ⟨d₁, h₁⟩ : ∃ d₁, HashTree.write? [e.name, str "_error"] err d = some d₁ :=
    HashTree.exists_write (hash_some here.data) (HashTree.exists_write (hash_some here.elem) ⟨err, rfl⟩)
  obtain ⟨c, hc, hget⟩ := HashTree.write_cons h₁
  have hvals : d₁.read [e.name, str "_values"] = d.read [e.name, str "_values"] :=
    HashTree.read_of_write_other h₁ (not_prefix_of_second (by decide)) (not_prefix_of_second (by decide))
  have helem : ∃ fields, d₁.get e.name = .hash fields := by
    rw [hget, if_pos rfl]
    exact HashTree.write_hash hc
  obtain ⟨d₂, h₂⟩ : ∃ d₂, HashTree.write? [e.name, str "_values", v] .undef d₁ = some d₂ := by
    refine HashTree.exists_write (hash_some (HashTree.write_hash h₁)) (HashTree.exists_write (hash_some helem) ?_)
    refine HashTree.exists_write ?_ ⟨_, rfl⟩
    change (d₁.read [e.name, str "_values"]).fields?.isSome
    rw [hvals]
    exact hash_some here.values
  exact ⟨d₂, by rw [note, h₁, Option.bind_some, h₂]⟩

/-- A path of the message can be given an error. -/
theorem exists_noted (err : Node) (hl : Leads m d t) : ∃ d', noted err t d = some d' := by
  induction hl with
  | last here => exact exists_note err here
  | @next m d e v t here hrest ih =>
    have ht : t ≠ [] := by
      rintro rfl
      cases hrest
    obtain ⟨c, hc⟩ := ih
    rw [noted_next ht, hc, Option.bind_some]
    exact HashTree.exists_write (hash_some here.data) (HashTree.exists_write (hash_some here.elem)
      (HashTree.exists_write (hash_some here.values) ⟨c, rfl⟩))

/-- The error is at the element. -/
theorem read_noted (ht : t ≠ []) (h : noted err t d = some d') : d'.read (address t ++ [str "_error"]) = err := by
  induction t generalizing d d' with
  | nil => exact absurd rfl ht
  | cons x t ih =>
    obtain ⟨e, v⟩ := x
    by_cases hrest : t = []
    · subst hrest
      obtain ⟨d₁, h₁, h₂⟩ := Option.bind_eq_some_iff.mp h
      refine (HashTree.read_of_write_other h₂ ?_ ?_).trans (HashTree.read_of_write h₁)
      · exact not_prefix_of_second (by decide)
      · exact not_prefix_of_second (by decide)
    · rw [noted_next hrest] at h
      obtain ⟨c, hc, hw⟩ := Option.bind_eq_some_iff.mp h
      rw [address_next hrest, List.append_assoc, HashTree.read_append, HashTree.read_of_write hw]
      exact ih hrest hc

/-- What is not at the element, nor on the way to it, stays. -/
theorem noted_elsewhere (h : noted err t d = some d') {p : List Str} (hp : ¬ address t <+: p) (hp' : ¬ p <+: address t) :
    d'.read p = d.read p := by
  induction t generalizing d d' p with
  | nil => exact absurd List.nil_prefix hp
  | cons x t ih =>
    obtain ⟨e, v⟩ := x
    by_cases hrest : t = []
    · subst hrest
      obtain ⟨d₁, h₁, h₂⟩ := Option.bind_eq_some_iff.mp h
      have hout : ∀ ks : List Str, ¬ e.name :: ks <+: p ∧ ¬ p <+: e.name :: ks := by
        refine fun ks => ⟨fun hpre => hp ((List.prefix_append [e.name] ks).trans hpre), fun hpre => ?_⟩
        cases p with
        | nil => exact hp' List.nil_prefix
        | cons k p => exact hp (List.cons_prefix_cons.mpr ⟨(List.cons_prefix_cons.mp hpre).1.symm, List.nil_prefix⟩)
      rw [HashTree.read_of_write_other h₂ (hout _).1 (hout _).2, HashTree.read_of_write_other h₁ (hout _).1 (hout _).2]
    · rw [noted_next hrest] at h
      rw [address_next hrest] at hp hp'
      obtain ⟨c, hc, hw⟩ := Option.bind_eq_some_iff.mp h
      by_cases hpre : [e.name, str "_values", v] <+: p
      · obtain ⟨q, rfl⟩ := hpre
        rw [HashTree.read_append, HashTree.read_append, HashTree.read_of_write hw]
        rw [List.prefix_append_right_inj] at hp hp'
        exact ih hc hp hp'
      · exact HashTree.read_of_write_other hw hpre fun hpre' => hp' (hpre'.trans (List.prefix_append _ _))

end Noted

/-- The order in which one key comes first. -/
def firstOrder (key : Str) : Order where
  keys _ hash := if key ∈ hash then key :: hash.erase key else hash
  perm _ hash := by
    split
    · exact (List.perm_cons_erase ‹_›).symm
    · exact List.Perm.refl _

section Rivals

variable {o : Order} {err d : Node} {m : List Elem} {e : Elem} {v : Str} {t : List (Elem × Str)}

theorem key_first {k errLoc : Str} {keys : List Str} (hk : k ∈ keys) (hpre : k <+: errLoc) :
    ∃ remainder, (firstOrder k).key? errLoc keys = some (k, remainder) := by
  obtain ⟨remainder, hcut⟩ := exists_cutOff hpre
  refine ⟨remainder, ?_⟩
  rw [Order.key?, firstOrder]
  simp only [if_pos hk, List.findSome?_cons, hcut, Option.map_some]

theorem elem_first {errLoc location : Str} (hnames : (m.map Elem.name).Nodup) (he : e ∈ m) (hl : e.location = some location)
    (hpre : location <+: errLoc) : ∃ remainder, (firstOrder e.name).elem? errLoc m = some (e, remainder) := by
  obtain ⟨remainder, hcut⟩ := exists_cutOff hpre
  refine ⟨remainder, ?_⟩
  rw [Order.elem?, firstOrder]
  simp only [if_pos (List.mem_map_of_mem he), List.findSome?_cons, find_name hnames he, Option.bind_some, hl,
    hcut, Option.map_some]

/-- A search that leaves a place on the way to the element as it is does not put an error there. -/
theorem misses {p : List Str} (ht : t ≠ []) (hp : p <+: address t)
    (hmiss : ∀ err r, findError o err (.map m) d (spell t) = some r → r.2.read p = d.read p) : ¬ ∀ err, Attached o err m d t := by
  intro hall
  obtain ⟨d', hnoted, hrun⟩ := hall (.hash [([], d.read (address t ++ [str "_error"]))])
  obtain ⟨q, hq⟩ := hp
  have herr := read_noted ht hnoted
  have hkept : d'.read (address t ++ [str "_error"]) = d.read (address t ++ [str "_error"]) := by
    rw [← hq, List.append_assoc, HashTree.read_append, hmiss _ _ hrun, ← HashTree.read_append]
  exact HashTree.ne_hash_self _ _ (hkept.symm.trans herr)

theorem address_head : [e.name] <+: address ((e, v) :: t) := by
  by_cases ht : t = []
  · subst ht
    exact List.prefix_rfl
  · rw [address_next ht]
    exact List.prefix_append [e.name] _

/-- Another element of the map that comes first gets the error, or one below it does. -/
theorem misses_elem {e' : Elem} {location : Str} (hm : Regular m) (he : e' ∈ m) (hl : e'.location = some location)
    (hpre : location <+: spell ((e, v) :: t)) (hne : e'.name ≠ e.name) :
    ¬ ∀ err, Attached (firstOrder e'.name) err m d ((e, v) :: t) := by
  refine misses (List.cons_ne_nil _ _) address_head fun err r hrun => ?_
  obtain ⟨remainder, hsome⟩ := elem_first hm.parts.1 he hl hpre
  exact findError_spares hm.parts.2.1 (with_blank (blank_mem_spell (List.cons_ne_nil _ _))) hsome hne hrun

/-- And so does another value. -/
theorem misses_value {k : Str} (hm : Regular m) (hd : Plain m d) (hl : Leads m d ((e, v) :: t)) (ht : t ≠ [])
    (ha : AloneInMap m e (spell ((e, v) :: t))) (hk : k ∈ (d.read [e.name, str "_values"]).keys) (hpre : k <+: v ++ 32 :: spell t)
    (hne : k ≠ v) : ¬ ∀ err, Attached (firstOrder k) err m d ((e, v) :: t) := by
  refine misses (p := [e.name, str "_values", v]) (List.cons_ne_nil _ _) (by rw [address_next ht]; exact List.prefix_append _ _)
    fun err r hrun => ?_
  obtain ⟨fields, hfields⟩ := hl.here.values
  rw [hfields] at hk
  change k ∈ fields.map Prod.fst at hk
  obtain ⟨remainder, hsome⟩ := key_first hk hpre
  rw [search_values hm hd hl ht ha, hfields,
    findError_value (with_blank (List.mem_append_right _ List.mem_cons_self)) hsome] at hrun
  obtain ⟨r', hr', hlink⟩ := Option.bind_eq_some_iff.mp hrun
  obtain ⟨r₀, -, hlink'⟩ := Option.bind_eq_some_iff.mp hr'
  rw [link_hash hfields] at hlink
  obtain ⟨d', hw, rfl⟩ := Option.map_eq_some_iff.mp hlink
  show (d'.read ([e.name, str "_values"] ++ [v])) = d.read ([e.name, str "_values"] ++ [v])
  rw [HashTree.read_append, HashTree.read_append, HashTree.read_of_write hw, hfields]
  exact link_spares hne hlink'

end Rivals

/-! ## When an error gets to its element -/

/-- An error gets to its element, in whatever order the keys of the hashes come, exactly when at no
    level another key is the beginning of what is left of its text. -/
theorem attached_iff {m : List Elem} {d : Node} {t : List (Elem × Str)} (hm : Regular m) (hd : Plain m d) (hl : Leads m d t) :
    (∀ o err, Attached o err m d t) ↔ Alone m d t := by
  induction hl with
  | @last m d e v here =>
    constructor
    · intro hall
      refine ⟨fun e' he' location hloc hpre => ?_, fun hne => absurd rfl hne, trivial⟩
      by_contra hne
      exact misses_elem hm he' hloc hpre hne (hall _)
    · rintro ⟨ha, -⟩ o err
      obtain ⟨d', hd'⟩ := exists_note err here
      exact ⟨d', hd', by rw [search_last hm hd here ha, hd', Option.map_some]⟩
  | @next m d e v t here hrest ih =>
    have ht : t ≠ [] := by
      rintro rfl
      cases hrest
    have hl : Leads m d ((e, v) :: t) := .next here hrest
    have ih := ih (hm.parts.2.2.2 e here.mem) (hd.parts here.mem here.value).2
    constructor
    · intro hall
      have ha : AloneInMap m e (spell ((e, v) :: t)) := by
        intro e' he' location hloc hpre
        by_contra hne
        exact misses_elem hm he' hloc hpre hne (hall _)
      have hv : ∀ k ∈ (d.read [e.name, str "_values"]).keys, k <+: v ++ 32 :: spell t → k = v := by
        intro k hk hpre
        by_contra hne
        exact misses_value hm hd hl ht ha hk hpre hne (hall _)
      refine ⟨ha, fun _ => hv, ih.mp fun o err => ?_⟩
      obtain ⟨d', hnoted, hrun⟩ := hall o err
      rw [noted_next ht] at hnoted
      obtain ⟨c, hc, hw⟩ := Option.bind_eq_some_iff.mp hnoted
      rw [search_next hm hd hl ht ha hv] at hrun
      obtain ⟨r, hr, hrun⟩ := Option.bind_eq_some_iff.mp hrun
      obtain ⟨code, c'⟩ := r
      obtain ⟨d'', hw', heq⟩ := Option.map_eq_some_iff.mp hrun
      cases heq
      have hsame : c = c' := (HashTree.read_of_write hw).symm.trans (HashTree.read_of_write hw')
      subst hsame
      exact ⟨c, hc, hr⟩
    · rintro ⟨ha, hv, hbelow⟩ o err
      obtain ⟨c, hc, hrun⟩ := ih.mpr hbelow o err
      obtain ⟨d', hd'⟩ := exists_noted err hl
      refine ⟨d', hd', ?_⟩
      rw [noted_next ht, hc, Option.bind_some] at hd'
      rw [search_next hm hd hl ht ha (hv ht), hrun, Option.bind_some, hd', Option.map_some]

/-! ## Two users -/

def shellElem : Elem := .mk (str "shell") (some (str "shell")) false []

def userElem : Elem := .mk (str "user") (some (str "login user")) false [shellElem]

def valuesOf (vals : List (Str × Node)) : Node := .hash [(str "_values", .hash vals)]

def loginOf (shell : Str) : Node := .hash [(str "shell", valuesOf [(shell, .undef)])]

def twoUsers : Node :=
  .hash [(str "user", valuesOf [(str "bob", loginOf (str "bash")), (str "bobby", loginOf (str "zsh"))])]

instance (v : Str) : Decidable (Inert v) := inferInstanceAs (Decidable (_ ∧ _))

theorem userMap_regular : Regular [userElem] := by
  have hleaf : Regular [] := ⟨List.nodup_nil, fun e he => (by cases he), fun e he => (by cases he), fun e he => (by cases he)⟩
  have hshell : Regular [shellElem] := by
    refine ⟨by decide, by decide, ?_, ?_⟩
    · intro e he location hl
      rw [List.mem_singleton.mp he] at hl
      cases hl
      decide
    · intro e he
      rw [List.mem_singleton.mp he]
      exact hleaf
  refine ⟨by decide, by decide, ?_, ?_⟩
  · intro e he location hl
    rw [List.mem_singleton.mp he] at hl
    cases hl
    decide
  · intro e he
    rw [List.mem_singleton.mp he]
    exact hshell

theorem login_plain {shell : Str} (hs : Inert shell) : Plain [shellElem] (loginOf shell) := by
  have hkeys : ((loginOf shell).read [shellElem.name, str "_values"]).keys = [shell] := rfl
  refine ⟨fun e he v hv => ?_, fun e he v hv => ?_⟩
  · rw [List.mem_singleton.mp he, hkeys] at hv
    rw [List.mem_singleton.mp hv]
    exact hs
  · rw [List.mem_singleton.mp he]
    exact ⟨fun e he => (by cases he), fun e he => (by cases he)⟩

theorem twoUsers_plain : Plain [userElem] twoUsers := by
  have hkeys : (twoUsers.read [userElem.name, str "_values"]).keys = [str "bob", str "bobby"] := rfl
  refine ⟨fun e he v hv => ?_, fun e he v hv => ?_⟩
  · rw [List.mem_singleton.mp he, hkeys] at hv
    revert v
    decide
  · rw [List.mem_singleton.mp he, hkeys] at hv
    rw [List.mem_singleton.mp he]
    rcases List.mem_cons.mp hv with rfl | hv
    · exact login_plain (by decide : Inert (str "bash"))
    · rw [List.mem_singleton.mp hv]
      exact login_plain (by decide : Inert (str "zsh"))

theorem twoUsers_holds {v : Str} (hv : v ∈ [str "bob", str "bobby"]) : Holds [userElem] twoUsers userElem v :=
  ⟨List.mem_singleton_self _, rfl, ⟨_, rfl⟩, ⟨_, rfl⟩, ⟨_, rfl⟩, hv⟩

theorem login_holds (shell : Str) : Holds [shellElem] (loginOf shell) shellElem shell :=
  ⟨List.mem_singleton_self _, rfl, ⟨_, rfl⟩, ⟨_, rfl⟩, ⟨_, rfl⟩, List.mem_singleton_self _⟩

/-- An error at the shell of `bob`, whose name no other begins. -/
theorem a_shell_gets_the_error : Alone [userElem] twoUsers [(userElem, str "bob"), (shellElem, str "bash")] ∧
    ∀ o err, Attached o err [userElem] twoUsers [(userElem, str "bob"), (shellElem, str "bash")] := by
  have hleads : Leads [userElem] twoUsers [(userElem, str "bob"), (shellElem, str "bash")] :=
    .next (twoUsers_holds (by decide)) (.last (login_holds _))
  have hnames : ∀ k ∈ [str "bob", str "bobby"], k <+: str "bob shell bash" → k = str "bob" := by decide
  have halone : Alone [userElem] twoUsers [(userElem, str "bob"), (shellElem, str "bash")] := by
    refine ⟨fun e he _ _ _ => by rw [List.mem_singleton.mp he], fun _ => hnames, fun e he _ _ _ => ?_,
      fun hne => absurd rfl hne, trivial⟩
    rw [List.mem_singleton.mp he]
  exact ⟨halone, (attached_iff userMap_regular twoUsers_plain hleads).mpr halone⟩

/-- An error at a shell of `bobby`, taken for one of `bob`. -/
theorem a_name_that_begins_with_another :
    Leads [userElem] twoUsers [(userElem, str "bobby"), (shellElem, str "zsh")] ∧
    spell [(userElem, str "bobby"), (shellElem, str "zsh")] = str "login user bobby shell zsh" ∧
    (findError (firstOrder (str "bob")) (.hash []) (.map [userElem]) twoUsers (str "login user bobby shell zsh")).map Prod.fst =
    some 1 ∧
    ¬ ∀ o err, Attached o err [userElem] twoUsers [(userElem, str "bobby"), (shellElem, str "zsh")] := by
  have hleads : Leads [userElem] twoUsers [(userElem, str "bobby"), (shellElem, str "zsh")] :=
    .next (twoUsers_holds (by decide)) (.last (login_holds _))
  have htext : spell [(userElem, str "bobby"), (shellElem, str "zsh")] = str "login user bobby shell zsh" := by decide
  have halone : AloneInMap [userElem] userElem (spell [(userElem, str "bobby"), (shellElem, str "zsh")]) :=
    fun e he _ _ _ => by rw [List.mem_singleton.mp he]
  have hcode : (findError (firstOrder (str "bob")) (.hash []) (.map [userElem]) twoUsers (str "login user bobby shell zsh")).map
      Prod.fst = some 1 := by
    have hkey : (firstOrder (str "bob")).key? (str "bobby" ++ 32 :: spell [(shellElem, str "zsh")]) [str "bob", str "bobby"] =
        some (str "bob", str "y shell zsh") := by decide
    rw [← htext, search_values userMap_regular twoUsers_plain hleads (List.cons_ne_nil _ _) halone]
    rw [show twoUsers.read [userElem.name, str "_values"] = 
      .hash [(str "bob", loginOf (str "bash")), (str "bobby", loginOf (str "zsh"))] from rfl]
    rw [findError_value (by decide) hkey, findError_none (by decide) (by decide) (by rfl)]
    rfl
  refine ⟨hleads, htext, hcode, fun hall => ?_⟩
  obtain ⟨d', -, hrun⟩ := hall (firstOrder (str "bob")) (.hash [])
  rw [htext] at hrun
  rw [hrun] at hcode
  cases hcode

end VyattaRest.MsgSimple.Errors
