/-
  VyattaRest.Server.JsonObject — what `JSON::serialize` (http.cc) writes, read as JSON.

  `add_value` and `add_array` keep texts as they come and `serialize` puts quotes, brackets
  and commas between them. Some callers escape their texts first; the writer of an operational
  command (chunker2_processor.cc) and the GET of a configuration node (confmode.cc) do not.
  - `decodes_build_iff`: an object is read back exactly when none of its texts has to be escaped.
  - `json_read_back_iff`: the same for `OPC_ARGS` and for the children of a node.
  - `a_quote_is_not_read_back`.
-/

import VyattaRest.Lib.JsonText
import VyattaRest.Chunker.Tokenize
import VyattaRest.Server.ConfMode

namespace VyattaRest.Server.JsonObject

open VyattaRest.Lib VyattaRest.Rest VyattaRest.Server VyattaRest.Chunker
open VyattaRest.Server.ConfMode (stateName disableStateName childRow addFlag nodeJson valHelpRows)

/-! ## Building an object -/

/-- A call on a JSON object; an array element is not quoted yet. -/
inductive Op where
  | value (key val : Str)
  | array (key val : Str)
  deriving DecidableEq

def Op.key : Op → Str
  | value key _ => key
  | array key _ => key

def Op.val : Op → Str
  | value _ val => val
  | array _ val => val

def Op.run (j : Json) : Op → Json
  | value key val => j.addValue key val
  | array key val => j.addArray key val false

def build (ops : List Op) : Json := ops.foldl Op.run Json.empty

/-! ## The object that is meant -/

/-- The last value of a key. -/
def valueOf (ops : List Op) (k : Str) : Option Str := ops.foldl (fun u op => match op with
  | .value key val => if key = k then some val else u
  | .array _ _ => u) none

/-- The elements of a key, in order. -/
def arrayOf (ops : List Op) (k : Str) : List Str := ops.filterMap fun op => match op with
  | .value _ _ => none
  | .array key val => if key = k then some val else none

def member (ops : List Op) (k : Str) : Option JsonValue :=
  match valueOf ops k with
  | some v => some (.string v)
  | none => if arrayOf ops k = [] then none else some (.array ((arrayOf ops k).map .string))

/-- Texts in UTF-8, none of them empty, and no key both of a value and of an array. -/
structure Admissible (ops : List Op) : Prop where
  key_ne : ∀ op ∈ ops, op.key ≠ []
  val_ne : ∀ op ∈ ops, op.val ≠ []
  key_utf8 : ∀ op ∈ ops, Utf8 op.key
  val_utf8 : ∀ op ∈ ops, Utf8 op.val
  apart : ∀ k v w, ¬ (.value k v ∈ ops ∧ .array k w ∈ ops)

/-- The text is a JSON object with these members, each of them once. -/
def Decodes (text : Str) (obj : Str → Option JsonValue) : Prop :=
  ∃ ms, parseJson text = some (.object ms) ∧ (ms.map Prod.fst).Nodup ∧ ∀ k, ms.lookup k = obj k

/-! ## What the object holds -/

theorem build_concat (ops : List Op) (op : Op) : build (ops ++ [op]) = op.run (build ops) := by
  rw [build, List.foldl_append]
  rfl

theorem valueOf_concat (ops : List Op) (op : Op) (k : Str) : valueOf (ops ++ [op]) k = match op with
    | .value key val => if key = k then some val else valueOf ops k
    | .array _ _ => valueOf ops k := by
  rw [valueOf, List.foldl_append]
  cases op <;> rfl

theorem arrayOf_concat (ops : List Op) (op : Op) (k : Str) : arrayOf (ops ++ [op]) k = match op with
    | .value _ _ => arrayOf ops k
    | .array key val => if key = k then arrayOf ops k ++ [val] else arrayOf ops k := by
  rw [arrayOf, List.filterMap_append]
  cases op with
  | value key val => exact List.append_nil _
  | array key val =>
    by_cases h : key = k
    · simp [h, arrayOf]
    · simp [h, arrayOf]

theorem find_value : ∀ {ops : List Op}, (∀ op ∈ ops, op.key ≠ []) → (∀ op ∈ ops, op.val ≠ []) → ∀ k,
    (build ops).value.find k = valueOf ops k := by
  intro ops
  induction ops using List.reverseRecOn with
  | nil => exact fun _ _ _ => rfl
  | append_singleton ops op ih =>
    intro hkey hval k
    have ih := ih (fun o ho => hkey o (List.mem_append_left _ ho)) (fun o ho => hval o (List.mem_append_left _ ho))
    have hk := hkey op (List.mem_append_right _ (List.mem_singleton_self op))
    have hv := hval op (List.mem_append_right _ (List.mem_singleton_self op))
    rw [build_concat, valueOf_concat]
    cases op with
    | value key val =>
      have hne : ¬ (key.isEmpty || val.isEmpty) = true := by simpa [Op.key, Op.val] using ⟨hk, hv⟩
      rw [Op.run, Json.addValue, if_neg hne]
      simp only
      rw [OrdMap.find_insert, OrdMap.find_erase, OrdMap.find_erase, ih, if_pos rfl]
      by_cases h : k = key
      · rw [if_pos h, if_pos h.symm]
        rfl
      · rw [if_neg h, if_neg h, if_neg (Ne.symm h)]
        exact ih k
    | array key val =>
      rw [Op.run, Json.addArray, ← ih]
      split
      · rfl
      · simp only
        split <;> rfl

theorem find_array : ∀ {ops : List Op}, (∀ op ∈ ops, op.key ≠ []) → (∀ op ∈ ops, op.val ≠ []) → ∀ k,
    (build ops).array.find k = if arrayOf ops k = [] then none else some ((arrayOf ops k).map Json.quote) := by
  intro ops
  induction ops using List.reverseRecOn with
  | nil => exact fun _ _ _ => rfl
  | append_singleton ops op ih =>
    intro hkey hval k
    have ih := ih (fun o ho => hkey o (List.mem_append_left _ ho)) (fun o ho => hval o (List.mem_append_left _ ho))
    have hk := hkey op (List.mem_append_right _ (List.mem_singleton_self op))
    have hv := hval op (List.mem_append_right _ (List.mem_singleton_self op))
    rw [build_concat, arrayOf_concat]
    cases op with
    | value key val =>
      rw [Op.run, Json.addValue]
      split
      · exact ih k
      · exact ih k
    | array key val =>
      have hne : ¬ (key.isEmpty || val.isEmpty) = true := by simpa [Op.key, Op.val] using ⟨hk, hv⟩
      rw [Op.run, Json.addArray, if_neg hne]
      simp only [Bool.false_eq_true, if_false]
      have hfind := ih key
      by_cases hnil : arrayOf ops key = []
      · rw [if_pos hnil] at hfind
        simp only [hfind]
        rw [OrdMap.find_insert, hfind, ih k]
        by_cases h : k = key
        · subst h
          simp [hnil]
        · simp [h, Ne.symm h]
      · rw [if_neg hnil] at hfind
        simp only [hfind]
        rw [OrdMap.find_update, hfind, ih k]
        by_cases h : k = key
        · subst h
          simp
        · simp [h, Ne.symm h]

/-! ## The text -/

theorem comma_eq : str "," = [44] := by decide

theorem dropLast_flatMap (l : List Str) : (l.flatMap (· ++ str ",")).dropLast = [44].intercalate l := by
  rw [comma_eq, dropLast_separated]

def arrayText (p : Str × List Str) : Str := Json.quote p.1 ++ (58 :: 91 :: ([44].intercalate p.2 ++ [93]))

def valueText (p : Str × Str) : Str := Json.quote p.1 ++ 58 :: Json.quote p.2

def memberTexts (j : Json) : List Str := j.array.entries.map arrayText ++ j.value.entries.map valueText

theorem serialize_eq {j : Json} (hne : memberTexts j ≠ []) (hfull : ∀ p ∈ j.array.entries, p.2 ≠ []) :
    j.serialize = 123 :: ([44].intercalate (memberTexts j) ++ [125]) := by
  have hsome : ¬ (j.array.entries.isEmpty && j.value.entries.isEmpty) = true := by
    intro h
    simp only [Bool.and_eq_true, List.isEmpty_iff] at h
    exact hne (by rw [memberTexts, h.1, h.2]; rfl)
  have harray : ∀ p ∈ j.array.entries, (if p.2.isEmpty then [] else
      (Json.quote p.1 ++ str ":[" ++ p.2.flatMap (· ++ str ",")).dropLast ++ str "]") ++ str "," = arrayText p ++ str "," := by
    intro p hp
    have hne := hfull p hp
    have hflat : p.2.flatMap (· ++ str ",") ≠ [] := by
      obtain ⟨a, l, h⟩ := List.exists_cons_of_ne_nil hne
      rw [h, List.flatMap_cons, comma_eq]
      simp
    rw [if_neg (by simpa using hne), List.dropLast_append_of_ne_nil hflat, dropLast_flatMap, arrayText,
      show str ":[" = [58, 91] by decide, show str "]" = [93] by decide]
    simp
  have hvalue : ∀ p ∈ j.value.entries, Json.quote p.1 ++ str ":" ++ Json.quote p.2 ++ str "," = valueText p ++ str "," := by
    intro p _
    rw [valueText, show str ":" = [58] by decide]
    simp
  have htexts : j.array.entries.flatMap (fun p => (if p.2.isEmpty then [] else
      (Json.quote p.1 ++ str ":[" ++ p.2.flatMap (· ++ str ",")).dropLast ++ str "]") ++ str ",") ++
      j.value.entries.flatMap (fun p => Json.quote p.1 ++ str ":" ++ Json.quote p.2 ++ str ",") =
        (memberTexts j).flatMap (· ++ str ",") := by
    rw [memberTexts, List.flatMap_append, List.flatMap_map, List.flatMap_map, List.flatMap_congr harray,
      List.flatMap_congr hvalue]
  have hflat : (memberTexts j).flatMap (· ++ str ",") ≠ [] := by
    obtain ⟨a, l, h⟩ := List.exists_cons_of_ne_nil hne
    rw [h, List.flatMap_cons, comma_eq]
    simp
  rw [Json.serialize, if_neg hsome]
  simp only
  rw [List.append_assoc, htexts, List.dropLast_append_of_ne_nil hflat, dropLast_flatMap,
    show str "\x7b" = [123] by decide, show str "\x7d" = [125] by decide]
  simp

/-! ## The text of a built object -/

/-- The members in the order of the text. -/
def objectOf (ops : List Op) : List (Str × JsonValue) :=
  (build ops).array.entries.map (fun p => (p.1, .array ((arrayOf ops p.1).map .string))) ++
    (build ops).value.entries.map fun p => (p.1, .string p.2)

theorem quote_eq_render (s : Str) : Json.quote s = (JsonValue.string s).render := by
  rw [Json.quote, JsonValue.render, show str "\"" = [34] by decide]
  simp

theorem valueOf_mem : ∀ {ops : List Op} {k v : Str}, valueOf ops k = some v → .value k v ∈ ops := by
  intro ops k v
  induction ops using List.reverseRecOn with
  | nil => intro hv; cases hv
  | append_singleton ops op ih =>
    intro hv
    rw [valueOf_concat] at hv
    cases op with
    | value key val =>
      simp only at hv
      split at hv
      · rename_i hk
        cases hv
        subst hk
        exact List.mem_append_right _ (List.mem_singleton_self _)
      · exact List.mem_append_left _ (ih hv)
    | array key val => exact List.mem_append_left _ (ih hv)

theorem valueOf_of_mem : ∀ {ops : List Op} {k v : Str}, .value k v ∈ ops → valueOf ops k ≠ none := by
  intro ops k v
  induction ops using List.reverseRecOn with
  | nil => intro hv; cases hv
  | append_singleton ops op ih =>
    intro hv
    rw [valueOf_concat]
    rcases List.mem_append.mp hv with hm | hm
    · cases op with
      | value key val =>
        simp only
        split
        · simp
        · exact ih hm
      | array key val => exact ih hm
    · rw [List.mem_singleton] at hm
      subst hm
      simp

theorem arrayOf_mem {ops : List Op} {k v : Str} (hv : v ∈ arrayOf ops k) : .array k v ∈ ops := by
  obtain ⟨op, hop, heq⟩ := List.mem_filterMap.mp hv
  cases op with
  | value key val => cases heq
  | array key val =>
    simp only at heq
    split at heq
    · rename_i hk
      cases heq
      subst hk
      exact hop
    · cases heq

/-- A member is a text or an array of texts. -/
theorem member_plain {ops : List Op} {k : Str} {v : JsonValue} (hm : member ops k = some v) (hv : v.specials = 0) :
    v.Plain := by
  rw [member] at hm
  split at hm
  · cases hm
    exact plain_of_specials_string hv
  · split at hm
    · cases hm
    · cases hm
      refine plain_of_specials_array (fun w hw => ?_) hv
      obtain ⟨s, -, rfl⟩ := List.mem_map.mp hw
      exact ⟨s, rfl⟩

section Built

variable {ops : List Op} (h : Admissible ops)

include h

/-- A key of values has no elements. -/
theorem arrayOf_of_value {k v : Str} (hv : valueOf ops k = some v) : arrayOf ops k = [] := by
  rcases ha : arrayOf ops k with _ | ⟨w, ws⟩
  · rfl
  · have hw : w ∈ arrayOf ops k := by rw [ha]; exact List.mem_cons_self
    exact absurd ⟨valueOf_mem hv, arrayOf_mem hw⟩ (h.apart k v w)

theorem mem_objectOf {k : Str} {v : JsonValue} : (k, v) ∈ objectOf ops ↔ member ops k = some v := by
  rw [objectOf, List.mem_append, List.mem_map, List.mem_map, member]
  constructor
  · rintro (⟨⟨k', ts⟩, hm, heq⟩ | ⟨⟨k', w⟩, hm, heq⟩)
    · cases heq
      rw [OrdMap.mem_entries, find_array h.key_ne h.val_ne] at hm
      split at hm
      · cases hm
      · rename_i hne
        simp only
        rcases hv : valueOf ops k' with _ | w
        · exact if_neg hne
        · exact absurd (arrayOf_of_value h hv) hne
    · cases heq
      rw [OrdMap.mem_entries, find_value h.key_ne h.val_ne] at hm
      rw [hm]
  · intro hm
    split at hm
    · rename_i w hw
      cases hm
      exact Or.inr ⟨(k, w), OrdMap.mem_entries.mpr ((find_value h.key_ne h.val_ne k).trans hw), rfl⟩
    · split at hm
      · cases hm
      · rename_i hne
        cases hm
        exact Or.inl ⟨(k, _), OrdMap.mem_entries.mpr ((find_array h.key_ne h.val_ne k).trans (if_neg hne)), rfl⟩

theorem objectOf_nodup : ((objectOf ops).map Prod.fst).Nodup := by
  have hsorted : ∀ {ν : Type} (m : OrdMap Str ν), (m.entries.map Prod.fst).Nodup := by
    intro ν m
    rw [List.Nodup, List.pairwise_map]
    refine List.Pairwise.imp ?_ m.sorted
    intro a b hlt heq
    rw [heq] at hlt
    exact Std.lt_irrefl hlt
  have hfst : (objectOf ops).map Prod.fst = (build ops).array.entries.map Prod.fst ++ (build ops).value.entries.map Prod.fst := by
    simp [objectOf, Function.comp_def]
  rw [hfst, List.nodup_append]
  refine ⟨hsorted _, hsorted _, ?_⟩
  intro k hk k' hk' heq
  subst heq
  obtain ⟨⟨_, ts⟩, hm, rfl⟩ := List.mem_map.mp hk
  obtain ⟨⟨k, w⟩, hm', heq⟩ := List.mem_map.mp hk'
  simp only at heq
  subst heq
  rw [OrdMap.mem_entries, find_array h.key_ne h.val_ne] at hm
  rw [OrdMap.mem_entries, find_value h.key_ne h.val_ne] at hm'
  rw [if_pos (arrayOf_of_value h hm')] at hm
  cases hm

theorem objectOf_ne_nil (hne : ops ≠ []) : objectOf ops ≠ [] := by
  obtain ⟨op, rest, hops⟩ := List.exists_cons_of_ne_nil hne
  have hop : op ∈ ops := by rw [hops]; exact List.mem_cons_self
  obtain ⟨v, hv⟩ : ∃ v, member ops op.key = some v := by
    rw [member]
    rcases hval : valueOf ops op.key with _ | w
    · refine ⟨_, if_neg fun hnil => ?_⟩
      cases op with
      | value k v => exact valueOf_of_mem hop hval
      | array k v =>
        have hm : v ∈ arrayOf ops k := List.mem_filterMap.mpr ⟨.array k v, hop, if_pos rfl⟩
        rw [show arrayOf ops k = [] from hnil] at hm
        cases hm
    · exact ⟨_, rfl⟩
  exact List.ne_nil_of_mem ((mem_objectOf h).mpr hv)

theorem serialize_build (hne : ops ≠ []) : (build ops).serialize = (JsonValue.object (objectOf ops)).render := by
  have harray : ∀ p ∈ (build ops).array.entries, p.2 ≠ [] ∧
      arrayText p = memberText (p.1, .array ((arrayOf ops p.1).map .string)) := by
    rintro ⟨k, ts⟩ hp
    rw [OrdMap.mem_entries, find_array h.key_ne h.val_ne] at hp
    split at hp
    · cases hp
    · rename_i hk
      cases hp
      refine ⟨by simpa using hk, ?_⟩
      have hquote : (arrayOf ops k).map Json.quote = ((arrayOf ops k).map JsonValue.string).map JsonValue.render := by
        rw [List.map_map]
        exact List.map_congr_left fun s _ => quote_eq_render s
      rw [arrayText, hquote, ← renderElements_eq, memberText, quote_eq_render, JsonValue.render, JsonValue.render]
      simp
  have htexts : memberTexts (build ops) = (objectOf ops).map memberText := by
    rw [memberTexts, objectOf, List.map_append, List.map_map, List.map_map]
    refine congrArg₂ (· ++ ·) (List.map_congr_left fun p hp => (harray p hp).2) (List.map_congr_left fun p _ => ?_)
    show valueText p = memberText (p.1, .string p.2)
    rw [valueText, memberText, quote_eq_render, quote_eq_render, JsonValue.render, JsonValue.render]
    simp
  have hsome : memberTexts (build ops) ≠ [] := by
    rw [htexts]
    simpa using objectOf_ne_nil h hne
  rw [serialize_eq hsome fun p hp => (harray p hp).1, htexts, ← renderMembers_eq, JsonValue.render]

theorem member_utf8 {k : Str} {v : JsonValue} (hm : member ops k = some v) : Utf8 k ∧ Utf8 v.render := by
  rw [member] at hm
  split at hm
  · rename_i w hw
    cases hm
    have hop := valueOf_mem hw
    exact ⟨h.key_utf8 _ hop, utf8_render_string (h.val_utf8 _ hop)⟩
  · split at hm
    · cases hm
    · rename_i hne
      cases hm
      obtain ⟨w, hw⟩ := List.exists_mem_of_ne_nil _ hne
      refine ⟨h.key_utf8 _ (arrayOf_mem hw), utf8_render_array fun v hv => ?_⟩
      obtain ⟨u, hu, rfl⟩ := List.mem_map.mp hv
      exact utf8_render_string (h.val_utf8 _ (arrayOf_mem hu))

theorem lookup_objectOf (k : Str) : (objectOf ops).lookup k = member ops k := by
  rcases hm : member ops k with _ | v
  · refine List.lookup_eq_none_iff.mpr fun p hp => ?_
    have hp' := (mem_objectOf h).mp (show (p.1, p.2) ∈ objectOf ops from hp)
    have hne : k ≠ p.1 := by
      rintro rfl
      rw [hm] at hp'
      cases hp'
    simpa using hne
  · exact lookup_of_mem (objectOf_nodup h) ((mem_objectOf h).mpr hm)

/-- The object that was meant is read back exactly when there is a member and nothing in it has to
    be escaped. -/
theorem decodes_build_iff : Decodes (build ops).serialize (member ops) ↔
    ops ≠ [] ∧ ∀ k v, member ops k = some v → PlainText k ∧ v.Plain := by
  constructor
  · rintro ⟨ms, hparse, -, hlookup⟩
    have hne : ops ≠ [] := by
      rintro rfl
      have hnil : (build []).serialize = [] := rfl
      rw [hnil, show parseJson [] = none from rfl] at hparse
      cases hparse
    have hsub : objectOf ops ⊆ ms := fun p hp =>
      mem_of_lookup ((hlookup p.1).trans ((mem_objectOf h).mp hp))
    rw [serialize_build h hne] at hparse
    have hspecials := specials_of_parseJson hparse (List.Nodup.of_map _ (objectOf_nodup h)) hsub
    refine ⟨hne, fun k v hm => ?_⟩
    obtain ⟨hk, hv⟩ := specials_of_mem hspecials ((mem_objectOf h).mpr hm)
    exact ⟨hk, member_plain hm hv⟩
  · rintro ⟨hne, hplain⟩
    refine ⟨objectOf ops, ?_, objectOf_nodup h, lookup_objectOf h⟩
    rw [serialize_build h hne]
    refine parseJson_render (JsonValue.plain_object.mpr fun p hp => ?_) (utf8_render_object fun p hp => ?_)
    · exact hplain p.1 p.2 ((mem_objectOf h).mp hp)
    · exact member_utf8 h ((mem_objectOf h).mp hp)

end Built

/-! ## The arguments of an operational command -/

/-- `OPC_ARGS`, from the words of the command. -/
def opcArgs (opcmdarr : List Str) : Str :=
  (opcmdarr.foldl (fun j word => j.addArray (str "args") word false) Json.empty).serialize

def argsOf (words : List Str) (k : Str) : Option JsonValue :=
  if k = str "args" then some (.array (words.map .string)) else none

theorem opcArgs_iff {words : List Str} (hwords : ∀ w ∈ words, w ≠ [] ∧ Utf8 w) :
    Decodes (opcArgs words) (argsOf words) ↔ words ≠ [] ∧ ∀ w ∈ words, PlainText w := by
  have hbuild : opcArgs words = (build (words.map (.array (str "args")))).serialize := by
    rw [opcArgs, build, List.foldl_map]
    rfl
  have hadmissible : Admissible (words.map (.array (str "args"))) := by
    constructor
    · exact List.forall_mem_map.mpr fun _ _ => (by decide : str "args" ≠ [])
    · exact List.forall_mem_map.mpr fun w hw => (hwords w hw).1
    · exact List.forall_mem_map.mpr fun _ _ => (by decide : Utf8 (str "args"))
    · exact List.forall_mem_map.mpr fun w hw => (hwords w hw).2
    · rintro k v w ⟨hv, -⟩
      obtain ⟨u, -, hu⟩ := List.mem_map.mp hv
      cases hu
  have hvalue : ∀ k, valueOf (words.map (.array (str "args"))) k = none := by
    intro k
    rcases hv : valueOf (words.map (.array (str "args"))) k with _ | v
    · rfl
    · obtain ⟨u, -, hu⟩ := List.mem_map.mp (valueOf_mem hv)
      cases hu
  have harray : ∀ k, arrayOf (words.map (.array (str "args"))) k = if k = str "args" then words else [] := by
    intro k
    rw [arrayOf, List.filterMap_map]
    by_cases hk : k = str "args"
    · subst hk
      simp
    · simp [hk, Ne.symm hk]
  by_cases hne : words = []
  · subst hne
    refine iff_of_false ?_ fun h => h.1 rfl
    rintro ⟨ms, hparse, -⟩
    cases hparse
  have hmember : member (words.map (.array (str "args"))) = argsOf words := by
    funext k
    rw [member, hvalue, harray, argsOf]
    by_cases hk : k = str "args"
    · simp [hk, hne]
    · simp [hk]
  rw [hbuild, ← hmember, decodes_build_iff hadmissible, hmember]
  refine and_congr (by simp) ⟨fun h w hw => ?_, fun h k v hm => ?_⟩
  · have hplain := (h (str "args") _ (if_pos rfl)).2
    exact JsonValue.plain_string.mp (JsonValue.plain_array.mp hplain _ (List.mem_map_of_mem hw))
  · rw [argsOf] at hm
    split at hm
    · rename_i hk
      cases hm
      refine ⟨fun b hb => ?_, JsonValue.plain_array.mpr (List.forall_mem_map.mpr fun w hw => JsonValue.plain_string.mpr (h w hw))⟩
      rw [hk] at hb
      exact (by decide : ∀ b ∈ str "args", isSpecial b = false) b hb
    · cases hm

/-! ## The children of a node -/

theorem find_addArray (j : Json) {key val : Str} (quoted : Bool) (hkey : key ≠ []) (hval : val ≠ []) (k : Str) :
    (j.addArray key val quoted).array.find k = if k = key then
      some ((j.array.find key).getD [] ++ [if quoted then val else Json.quote val]) else j.array.find k := by
  have hne : ¬ (key.isEmpty || val.isEmpty) = true := by simpa using ⟨hkey, hval⟩
  rw [Json.addArray, if_neg hne]
  rcases hfind : j.array.find key with _ | texts
  · simp only
    rw [OrdMap.find_insert, hfind]
    rfl
  · simp only
    rw [OrdMap.find_update, hfind]
    rfl

theorem addArray_empty (j : Json) {key val : Str} (quoted : Bool) (h : ¬ (key ≠ [] ∧ val ≠ [])) :
    j.addArray key val quoted = j := by
  have hempty : (key.isEmpty || val.isEmpty) = true := by
    rw [not_and_or, not_ne_iff, not_ne_iff] at h
    simpa using h
  rw [Json.addArray, if_pos hempty]

theorem find_addArray_of_ne (j : Json) {key k : Str} (val : Str) (quoted : Bool) (hk : k ≠ key) :
    (j.addArray key val quoted).array.find k = j.array.find k := by
  by_cases h : key ≠ [] ∧ val ≠ []
  · rw [find_addArray j quoted h.1 h.2, if_neg hk]
  · rw [addArray_empty j quoted h]

theorem value_addArray (j : Json) (key val : Str) (quoted : Bool) : (j.addArray key val quoted).value = j.value := by
  rw [Json.addArray]
  split
  · rfl
  · simp only
    split <;> rfl

theorem array_addValue (j : Json) (key val : Str) : (j.addValue key val).array = j.array := by
  rw [Json.addValue]
  split <;> rfl

/-- The same object but for one array. -/
structure Apart (key : Str) (j j₀ : Json) : Prop where
  value : j.value = j₀.value
  array : ∀ k, k ≠ key → j.array.find k = j₀.array.find k

theorem Apart.addArray_other {key : Str} {j j₀ : Json} (h : Apart key j j₀) {other : Str} (hne : other ≠ key) (val : Str)
    (quoted : Bool) : Apart key (j.addArray other val quoted) (j₀.addArray other val quoted) := by
  refine ⟨by rw [value_addArray, value_addArray, h.value], fun k hk => ?_⟩
  by_cases hval : other ≠ [] ∧ val ≠ []
  · rw [find_addArray j quoted hval.1 hval.2, find_addArray j₀ quoted hval.1 hval.2, h.array k hk, h.array other hne]
  · rw [addArray_empty j quoted hval, addArray_empty j₀ quoted hval, h.array k hk]

theorem Apart.addArray_self {key : Str} {j j₀ : Json} (h : Apart key j j₀) (val : Str) (quoted : Bool) :
    Apart key (j.addArray key val quoted) j₀ := by
  refine ⟨by rw [value_addArray, h.value], fun k hk => ?_⟩
  rw [find_addArray_of_ne j val quoted hk, h.array k hk]

/-- The row of a child, read. -/
def rowOf (np : NodeParams) : List (Str × Str) :=
  [(str "name", np.name), (str "state", stateName np.state), (str "deactivate_state", disableStateName np.disabledState)]

/-- The text is a JSON object with these children. -/
def HasChildren (text : Str) (coll : List NodeParams) : Prop :=
  ∃ ms, parseJson text = some (.object ms) ∧ (ms.map Prod.fst).Nodup ∧ ms.lookup (str "children") =
    if coll = [] then none else some (.array (coll.map fun np => JsonValue.texts (rowOf np)))

/-- What the answer holds before its children. -/
def nodeHead (p : TemplateParams) (rows : List Str) : Json :=
  let j := (Json.empty.addValue (str "help") p.help).addArray (str "type") p.type.name false
  let j := if p.type2.name ≠ str "none" then j.addArray (str "type") p.type2.name false else j
  let j := if p.default ≠ str "\n" then j.addValue (str "default") p.default else j
  let j := j.addValue (str "comp_help") (Configuration.urlEscape (massReplace p.compHelp (str "\"") (str "\\\"")))
  let j := rows.foldl (fun j row => j.addArray (str "val_help") row true) j
  let j := addFlag (j.addValue (str "allowed") p.allowed) (str "multi") p.multi
  let j := if 0 < p.multiLimit then j.addValue (str "multi_limit") (ld (UInt64.ofNat p.multiLimit)) else j
  let j := addFlag (addFlag (addFlag (addFlag j (str "end") p.isEnd) (str "action") p.action) (str "mandatory")
    p.mandatory) (str "secret") p.secret
  let j := ((j.addValue (str "name") p.data.name).addValue (str "state") (stateName p.data.state)).addValue
    (str "is_changed") p.data.isChanged
  j.addValue (str "deactivate_state") (disableStateName p.data.disabledState)

def addChildren (j : Json) (coll : List NodeParams) : Json :=
  coll.foldl (fun j np => j.addArray (str "children") (childRow np) true) j

def addEnum (j : Json) (es : List Str) : Json := es.foldl (fun j e => j.addArray (str "enum") e (contains e (str "\""))) j

theorem nodeJson_eq (p : TemplateParams) : nodeJson p = (do
    let rows ← valHelpRows p.valHelp.toList
    return addEnum (addChildren (nodeHead p rows) p.childrenColl) p.enum.toList) := rfl

theorem addChildren_apart {j j₀ : Json} (h : Apart (str "children") j j₀) (coll : List NodeParams) :
    Apart (str "children") (addChildren j coll) j₀ := by
  induction coll generalizing j with
  | nil => exact h
  | cons np coll ih => exact ih (h.addArray_self _ _)

theorem addEnum_apart {j j₀ : Json} (h : Apart (str "children") j j₀) (es : List Str) :
    Apart (str "children") (addEnum j es) (addEnum j₀ es) := by
  induction es generalizing j j₀ with
  | nil => exact h
  | cons e es ih => exact ih (h.addArray_other (by decide) _ _)

theorem childRow_eq (np : NodeParams) : childRow np = (JsonValue.texts (rowOf np)).render := by
  rw [childRow, ConfMode.object, JsonValue.texts, JsonValue.render, renderMembers_eq, rowOf]
  have hmember : ∀ k v, ConfMode.member k v = memberText (k, .string v) := by
    intro k v
    rw [ConfMode.member, memberText, quote_eq_render, quote_eq_render, JsonValue.render, JsonValue.render,
      show str ":" = [58] by decide]
    simp
  simp [hmember, comma_eq, show str "\x7b" = [123] by decide, show str "\x7d" = [125] by decide]

theorem childRow_ne_nil (np : NodeParams) : childRow np ≠ [] := by
  rw [childRow_eq, JsonValue.texts, JsonValue.render]
  exact List.cons_ne_nil _ _

theorem find_addChildren {j : Json} {coll : List NodeParams} (hne : coll ≠ []) :
    (addChildren j coll).array.find (str "children") =
      some ((j.array.find (str "children")).getD [] ++ coll.map childRow) := by
  induction coll generalizing j with
  | nil => exact absurd rfl hne
  | cons np coll ih =>
    have hfind : (j.addArray (str "children") (childRow np) true).array.find (str "children") =
        some ((j.array.find (str "children")).getD [] ++ [childRow np]) := by
      rw [find_addArray j true (by decide) (childRow_ne_nil np), if_pos rfl]
      rfl
    cases coll with
    | nil => exact hfind
    | cons np' coll =>
      have hrest := ih (j := j.addArray (str "children") (childRow np) true) (List.cons_ne_nil np' coll)
      rw [hfind, Option.getD_some, List.append_assoc] at hrest
      exact hrest

theorem find_addEnum {j : Json} (es : List Str) : (addEnum j es).array.find (str "children") = j.array.find (str "children") := by
  induction es generalizing j with
  | nil => rfl
  | cons e es ih => exact ih.trans (find_addArray_of_ne j _ _ (by decide))

/-- The arrays of an answer without children come behind them in the order of the text; none is
    empty. -/
def Behind (j : Json) : Prop := ∀ k ts, j.array.find k = some ts → str "children" < k ∧ ts ≠ []

theorem Behind.addArray {j : Json} (h : Behind j) {key : Str} (hkey : str "children" < key) (val : Str) (quoted : Bool) :
    Behind (j.addArray key val quoted) := by
  intro k ts hk
  by_cases hne : key ≠ [] ∧ val ≠ []
  · rw [find_addArray j quoted hne.1 hne.2] at hk
    split at hk
    · rename_i heq
      cases hk
      exact ⟨heq ▸ hkey, by simp⟩
    · exact h k ts hk
  · rw [addArray_empty j quoted hne] at hk
    exact h k ts hk

theorem Behind.addValue {j : Json} (h : Behind j) (key val : Str) : Behind (j.addValue key val) := by
  rw [Behind, array_addValue]
  exact h

theorem Behind.foldl {α : Type} {j : Json} (h : Behind j) {key : Str} (hkey : str "children" < key) (f : α → Str)
    (quoted : α → Bool) (l : List α) : Behind (l.foldl (fun j a => j.addArray key (f a) (quoted a)) j) := by
  induction l generalizing j with
  | nil => exact h
  | cons a l ih => exact ih (h.addArray hkey _ _)

theorem Behind.ite {c : Prop} [Decidable c] {j j' : Json} (h : Behind j) (h' : Behind j') : Behind (if c then j else j') := by
  split
  · exact h
  · exact h'

theorem Behind.addFlag {j : Json} (h : Behind j) (key : Str) (flag : Bool) : Behind (addFlag j key flag) :=
  Behind.ite (h.addValue _ _) h

theorem nodeHead_behind (p : TemplateParams) (rows : List Str) : Behind (nodeHead p rows) := by
  have hempty : Behind Json.empty := fun k ts hk => nomatch hk
  have htype : str "children" < str "type" := by decide
  have hhelp := (hempty.addValue (str "help") p.help).addArray htype p.type.name false
  have htype2 := Behind.ite (c := p.type2.name ≠ str "none") (hhelp.addArray htype p.type2.name false) hhelp
  have hdefault := Behind.ite (c := p.default ≠ str "\n") (htype2.addValue (str "default") p.default) htype2
  have hrows := (hdefault.addValue (str "comp_help") (Configuration.urlEscape (massReplace p.compHelp (str "\"")
    (str "\\\"")))).foldl (show str "children" < str "val_help" by decide) id (fun _ => true) rows
  have hmulti := (hrows.addValue (str "allowed") p.allowed).addFlag (str "multi") p.multi
  have hlimit := Behind.ite (c := 0 < p.multiLimit) (hmulti.addValue (str "multi_limit") (ld (UInt64.ofNat p.multiLimit)))
    hmulti
  have hflags := (((hlimit.addFlag (str "end") p.isEnd).addFlag (str "action") p.action).addFlag (str "mandatory")
    p.mandatory).addFlag (str "secret") p.secret
  exact (((hflags.addValue (str "name") p.data.name).addValue (str "state") (stateName p.data.state)).addValue
    (str "is_changed") p.data.isChanged).addValue (str "deactivate_state") (disableStateName p.data.disabledState)

theorem value_addEnum {j : Json} (es : List Str) : (addEnum j es).value = j.value := by
  induction es generalizing j with
  | nil => rfl
  | cons e es ih => exact ih.trans (value_addArray _ _ _ _)

theorem nodeHead_value (p : TemplateParams) (rows : List Str) : (nodeHead p rows).value.find (str "deactivate_state") ≠ none := by
  have hne : ¬ ((str "deactivate_state").isEmpty || (disableStateName p.data.disabledState).isEmpty) = true := by
    cases p.data.disabledState <;> decide
  rw [nodeHead, Json.addValue, if_neg hne]
  simp only
  rw [OrdMap.find_insert, if_pos rfl]
  simp

theorem children_lt_irrefl : ¬ str "children" < str "children" := Std.lt_irrefl

/-- The texts of the members, with those of the children in front. -/
theorem memberTexts_children {j j₀ : Json} (h : Apart (str "children") j j₀) (hbehind : Behind j₀) {ts : List Str}
    (hts : j.array.find (str "children") = some ts) : memberTexts j = arrayText (str "children", ts) :: memberTexts j₀ := by
  have hsorted : ((str "children", ts) :: j₀.array.entries).Pairwise fun p q => p.1 < q.1 :=
    List.pairwise_cons.mpr ⟨fun q hq => (hbehind q.1 q.2 (OrdMap.mem_entries.mp hq)).1, j₀.array.sorted⟩
  have hentries : j.array.entries = (str "children", ts) :: j₀.array.entries := by
    have hsame : j.array.entries.filter (fun _ => true) =
        (⟨_, hsorted⟩ : OrdMap Str (List Str)).entries.filter fun _ => true := by
      refine OrdMap.filter_congr fun k v _ => ?_
      rw [← OrdMap.mem_entries (m := ⟨_, hsorted⟩), List.mem_cons, OrdMap.mem_entries]
      by_cases hk : k = str "children"
      · subst hk
        have hnone : j₀.array.find (str "children") ≠ some v := fun hv => children_lt_irrefl (hbehind _ _ hv).1
        simp [hts, hnone, eq_comm]
      · simp [hk, h.array k hk]
    simpa using hsame
  rw [memberTexts, memberTexts, hentries, h.value, List.map_cons, List.cons_append]

theorem arrayText_children (coll : List NodeParams) : arrayText (str "children", coll.map childRow) =
    memberText (str "children", .array (coll.map fun np => JsonValue.texts (rowOf np))) := by
  have hrows : coll.map childRow = (coll.map fun np => JsonValue.texts (rowOf np)).map JsonValue.render := by
    rw [List.map_map]
    exact List.map_congr_left fun np _ => childRow_eq np
  rw [arrayText, hrows, ← renderElements_eq, memberText, quote_eq_render, JsonValue.render, JsonValue.render]
  simp

theorem token_memberTexts {j : Json} (h : memberTexts j ≠ []) (r : Str) :
    token 125 ([44].intercalate (memberTexts j) ++ r) = none := by
  obtain ⟨t, l, hl⟩ := List.exists_cons_of_ne_nil h
  have ht : ∃ u, t = 34 :: u := by
    have hmem : t ∈ memberTexts j := by rw [hl]; exact List.mem_cons_self
    rcases List.mem_append.mp hmem with hm | hm
    · obtain ⟨p, -, rfl⟩ := List.mem_map.mp hm
      exact ⟨_, rfl⟩
    · obtain ⟨p, -, rfl⟩ := List.mem_map.mp hm
      exact ⟨_, rfl⟩
  obtain ⟨u, rfl⟩ := ht
  rw [hl]
  cases l with
  | nil =>
    rw [List.intercalate_singleton]
    exact token_cons_ne (by decide) (by decide) _
  | cons w l =>
    rw [List.intercalate_cons_cons]
    exact token_cons_ne (by decide) (by decide) _

theorem rowOf_plain (np : NodeParams) : (JsonValue.texts (rowOf np)).Plain ↔ PlainText np.name := by
  have hstate : PlainText (stateName np.state) := by
    unfold PlainText
    cases np.state <;> decide
  have hdisable : PlainText (disableStateName np.disabledState) := by
    unfold PlainText
    cases np.disabledState <;> decide
  have hkeys : PlainText (str "name") ∧ PlainText (str "state") ∧ PlainText (str "deactivate_state") := by
    unfold PlainText
    decide
  rw [texts_plain, rowOf]
  simp [hstate, hdisable, hkeys]

theorem rowOf_utf8 {np : NodeParams} (h : Utf8 np.name) : Utf8 (JsonValue.texts (rowOf np)).render := by
  have hstate : Utf8 (stateName np.state) := by cases np.state <;> decide
  have hdisable : Utf8 (disableStateName np.disabledState) := by cases np.disabledState <;> decide
  refine utf8_render_object fun m hm => ?_
  obtain ⟨p, hp, rfl⟩ := List.mem_map.mp hm
  have htexts : Utf8 p.1 ∧ Utf8 p.2 := by
    simp only [rowOf, List.mem_cons, List.not_mem_nil, or_false] at hp
    rcases hp with rfl | rfl | rfl
    · exact ⟨(by decide : Utf8 (str "name")), h⟩
    · exact ⟨(by decide : Utf8 (str "state")), hstate⟩
    · exact ⟨(by decide : Utf8 (str "deactivate_state")), hdisable⟩
  exact ⟨htexts.1, utf8_render_string htexts.2⟩

theorem serialize_children {j j₀ : Json} {coll : List NodeParams} (hapart : Apart (str "children") j j₀) (hbehind : Behind j₀)
    (hsome : memberTexts j₀ ≠ []) (hne : coll ≠ []) (hchildren : j.array.find (str "children") = some (coll.map childRow)) :
    j.serialize = 123 :: (memberText (str "children", .array (coll.map fun np => JsonValue.texts (rowOf np))) ++
      44 :: ([44].intercalate (memberTexts j₀) ++ [125])) := by
  have htexts := memberTexts_children hapart hbehind hchildren
  have hfull : ∀ q ∈ j.array.entries, q.2 ≠ [] := by
    intro q hq
    have hfind := OrdMap.mem_entries.mp (show (q.1, q.2) ∈ j.array.entries from hq)
    by_cases hk : q.1 = str "children"
    · rw [hk, hchildren, Option.some.injEq] at hfind
      rw [← hfind]
      simpa using hne
    · rw [hapart.array q.1 hk] at hfind
      exact (hbehind q.1 q.2 hfind).2
  rw [serialize_eq (by rw [htexts]; exact List.cons_ne_nil _ _) hfull, htexts, arrayText_children]
  obtain ⟨t, l, hl⟩ := List.exists_cons_of_ne_nil hsome
  rw [hl, List.intercalate_cons_cons]
  simp

/-- The children are read back exactly when no name has to be escaped and the rest of the answer
    is an object. -/
theorem hasChildren_iff {j j₀ : Json} {coll : List NodeParams} (hapart : Apart (str "children") j j₀) (hbehind : Behind j₀)
    (hsome : memberTexts j₀ ≠ []) (hne : coll ≠ []) (hchildren : j.array.find (str "children") = some (coll.map childRow))
    (hutf : ∀ np ∈ coll, Utf8 np.name) :
    HasChildren j.serialize coll ↔ (∀ np ∈ coll, PlainText np.name) ∧ HasChildren j₀.serialize [] := by
  have htext₀ : j₀.serialize = 123 :: ([44].intercalate (memberTexts j₀) ++ [125]) :=
    serialize_eq hsome fun q hq => (hbehind q.1 q.2 (OrdMap.mem_entries.mp hq)).2
  have hkey : PlainText (str "children") := by
    unfold PlainText
    decide
  have hu : Utf8 (memberText (str "children", .array (coll.map fun np => JsonValue.texts (rowOf np)))) := by
    refine utf8_memberText (show Utf8 (str "children") by decide) (utf8_render_array fun v hv => ?_)
    obtain ⟨np, hnp, rfl⟩ := List.mem_map.mp hv
    exact rowOf_utf8 (hutf np hnp)
  have hplain : (∀ np ∈ coll, PlainText np.name) ↔ (JsonValue.array (coll.map fun np => JsonValue.texts (rowOf np))).Plain := by
    rw [JsonValue.plain_array, List.forall_mem_map]
    exact forall_congr' fun np => forall_congr' fun _ => (rowOf_plain np).symm
  rw [HasChildren, HasChildren, serialize_children hapart hbehind hsome hne hchildren, htext₀, if_neg hne, if_pos rfl]
  constructor
  · rintro ⟨ms, hparse, hnodup, hlookup⟩
    obtain ⟨fuel, w, r, hvalue, hw⟩ := parseJson_first_value hkey hparse
    cases hw.symm.trans hlookup
    have hrows : coll.map (fun np => JsonValue.texts (rowOf np)) = (coll.map rowOf).map JsonValue.texts := by
      rw [List.map_map]
      rfl
    have hnames : ∀ np ∈ coll, PlainText np.name := by
      intro np hnp
      rw [hrows] at hvalue
      exact (rowOf_plain np).mp (plain_of_value_rows hvalue _ (List.mem_map_of_mem hnp))
    obtain ⟨ms', rfl, hrest⟩ := (parseJson_first hkey (hplain.mp hnames) hu (token_memberTexts hsome _)).mp hparse
    rw [List.map_cons, List.nodup_cons] at hnodup
    refine ⟨hnames, ms', hrest, hnodup.2, List.lookup_eq_none_iff.mpr fun q hq => ?_⟩
    have hother : str "children" ≠ q.1 := fun heq => hnodup.1 (List.mem_map.mpr ⟨q, hq, heq.symm⟩)
    simpa using hother
  · rintro ⟨hnames, ms', hrest, hnodup, hlookup⟩
    refine ⟨_, (parseJson_first hkey (hplain.mp hnames) hu (token_memberTexts hsome _)).mpr ⟨ms', rfl, hrest⟩, ?_,
      List.lookup_cons_self⟩
    rw [List.map_cons, List.nodup_cons]
    refine ⟨fun hmem => ?_, hnodup⟩
    obtain ⟨q, hq, hk⟩ := List.mem_map.mp hmem
    have hother := List.lookup_eq_none_iff.mp hlookup q hq
    simp [show q.1 = str "children" from hk] at hother

theorem nodeJson_children_iff {p : TemplateParams} {j j₀ : Json} (hj : nodeJson p = pure j)
    (hj₀ : nodeJson { p with childrenColl := [] } = pure j₀) (hutf : ∀ np ∈ p.childrenColl, Utf8 np.name) :
    HasChildren j.serialize p.childrenColl ↔
      (∀ np ∈ p.childrenColl, PlainText np.name) ∧ HasChildren j₀.serialize [] := by
  by_cases hne : p.childrenColl = []
  · have hp : { p with childrenColl := [] } = p := by rw [← hne]
    rw [hp, hj] at hj₀
    cases hj₀
    rw [hne]
    simp
  obtain ⟨rows, hrows, hj⟩ := Prog.bind_eq_ret ((nodeJson_eq p).symm.trans hj)
  obtain ⟨rows', hrows', hj₀⟩ := Prog.bind_eq_ret ((nodeJson_eq _).symm.trans hj₀)
  cases hrows.symm.trans hrows'
  cases hj
  cases hj₀
  have hhead := nodeHead_behind p rows
  have hnone : (nodeHead p rows).array.find (str "children") = none := by
    rcases hfind : (nodeHead p rows).array.find (str "children") with _ | ts
    · rfl
    · exact absurd (hhead _ _ hfind).1 children_lt_irrefl
  have hbehind : Behind (addEnum (nodeHead p rows) p.enum.toList) :=
    hhead.foldl (show str "children" < str "enum" by decide) id (fun e => contains e (str "\"")) _
  have hsome : memberTexts (addEnum (nodeHead p rows) p.enum.toList) ≠ [] := by
    have hvalue := nodeHead_value p rows
    rw [← value_addEnum (j := nodeHead p rows) p.enum.toList] at hvalue
    obtain ⟨v, hv⟩ := Option.ne_none_iff_exists'.mp hvalue
    exact List.ne_nil_of_mem (List.mem_append_right _ (List.mem_map_of_mem (OrdMap.mem_entries.mpr hv)))
  have hapart := addEnum_apart (addChildren_apart (j := nodeHead p rows) ⟨rfl, fun _ _ => rfl⟩ p.childrenColl) p.enum.toList
  refine hasChildren_iff hapart hbehind hsome hne ?_ hutf
  rw [find_addEnum, find_addChildren hne, hnone]
  rfl

/-! ## What is read back -/

/-- An object that was built, the words of a command and the children of a node are read back
    exactly when there is something to read and no text in them has to be escaped. -/
theorem json_read_back_iff (ops : List Op) (fuel : Nat) (cmd : Str) (words : List Str) (p : TemplateParams) (j j₀ : Json) :
    (Admissible ops → (Decodes (build ops).serialize (member ops) ↔
      ops ≠ [] ∧ ∀ k v, member ops k = some v → PlainText k ∧ v.Plain)) ∧
    (tokenizeOpCmd fuel cmd = some words → (∀ w ∈ words, w ≠ [] ∧ Utf8 w) →
      (Decodes (opcArgs words) (argsOf words) ↔ words ≠ [] ∧ ∀ w ∈ words, PlainText w)) ∧
    (nodeJson p = pure j → nodeJson { p with childrenColl := [] } = pure j₀ → (∀ np ∈ p.childrenColl, Utf8 np.name) →
      (HasChildren j.serialize p.childrenColl ↔
        (∀ np ∈ p.childrenColl, PlainText np.name) ∧ HasChildren j₀.serialize [])) :=
  ⟨decodes_build_iff, fun _ => opcArgs_iff, nodeJson_children_iff⟩

theorem member_plain_of_ops {ops : List Op} (h : ∀ op ∈ ops, PlainText op.key ∧ PlainText op.val) {k : Str} {v : JsonValue}
    (hm : member ops k = some v) : PlainText k ∧ v.Plain := by
  rw [member] at hm
  split at hm
  · rename_i w hw
    cases hm
    have hop := h _ (valueOf_mem hw)
    exact ⟨hop.1, JsonValue.plain_string.mpr hop.2⟩
  · split at hm
    · cases hm
    · rename_i hne
      cases hm
      obtain ⟨w, hw⟩ := List.exists_mem_of_ne_nil _ hne
      refine ⟨(h _ (arrayOf_mem hw)).1, JsonValue.plain_array.mpr (List.forall_mem_map.mpr fun u hu => ?_)⟩
      exact JsonValue.plain_string.mpr (h _ (arrayOf_mem hu)).2

/-- A value that is overwritten and an array. -/
def sampleOps : List Op :=
  [.value (str "a") (str "x"), .array (str "b") (str "y"), .value (str "a") (str "z"), .array (str "b") (str "w")]

theorem sampleOps_admissible : Admissible sampleOps := by
  constructor
  · decide
  · decide
  · decide
  · decide
  · rintro k v w ⟨hv, hw⟩
    simp only [sampleOps, List.mem_cons, Op.value.injEq, Op.array.injEq, reduceCtorEq, List.not_mem_nil, or_false,
      false_or] at hv hw
    have hk : k = str "a" := by rcases hv with h | h <;> exact h.1
    have hk' : k = str "b" := by rcases hw with h | h <;> exact h.1
    exact absurd (hk.symm.trans hk') (by decide)

/-- A node with a child of this name. -/
def nodeWith (name : Str) : TemplateParams := { help := str "h", type := .text, childrenColl := [{ name := name }] }

/-- The answer for such a node, without the children. -/
def nodeMembers : List (Str × JsonValue) :=
  [(str "type", .array [.string (str "text")]), (str "deactivate_state", .string (str "enable")), (str "help", .string (str "h")),
   (str "state", .string (str "none"))]

theorem plain_texts_are_read_back : Decodes (build sampleOps).serialize (member sampleOps) ∧
    Decodes (opcArgs [str "show", str "a b"]) (argsOf [str "show", str "a b"]) ∧
    ∃ j, nodeJson (nodeWith (str "eth0")) = pure j ∧ HasChildren j.serialize [{ name := str "eth0" }] := by
  have hback := json_read_back_iff sampleOps 20 (str "show 'a b'") [str "show", str "a b"] (nodeWith (str "eth0"))
  refine ⟨((hback (build []) (build [])).1 sampleOps_admissible).mpr ⟨by decide, fun k v hm => ?_⟩, ?_, _, rfl, ?_⟩
  · refine member_plain_of_ops ?_ hm
    unfold PlainText
    decide
  · refine ((hback (build []) (build [])).2.1 (by decide) (by decide)).mpr ⟨by decide, ?_⟩
    unfold PlainText
    decide
  · refine ((hback _ _).2.2 rfl rfl (by decide)).mpr ⟨?_, ?_⟩
    · unfold PlainText
      decide
    · exact ⟨nodeMembers, rfl, by decide, rfl⟩

/-- A quote in a value, in a word or in a name. -/
theorem a_quote_is_not_read_back : (Admissible [.value (str "k") (str "a\"b")] ∧
      ¬ Decodes (build [.value (str "k") (str "a\"b")]).serialize (member [.value (str "k") (str "a\"b")])) ∧
    (tokenizeOpCmd 20 (str "ping 'a\"b'") = some [str "ping", str "a\"b"] ∧
      ¬ Decodes (opcArgs [str "ping", str "a\"b"]) (argsOf [str "ping", str "a\"b"])) ∧
    ∃ j, nodeJson (nodeWith (str "a\"b")) = pure j ∧ ¬ HasChildren j.serialize [{ name := str "a\"b" }] := by
  have hnone : ∀ {t : Str} {obj : Str → Option JsonValue}, parseJson t = none → ¬ Decodes t obj := by
    rintro t obj h ⟨ms, hms, -⟩
    rw [h] at hms
    cases hms
  refine ⟨⟨⟨by decide, by decide, by decide, by decide, ?_⟩, hnone rfl⟩, ⟨by decide, hnone rfl⟩, _, rfl, fun hchildren => ?_⟩
  · rintro k v w ⟨-, hw⟩
    rw [List.mem_singleton] at hw
    cases hw
  · have hplain := ((nodeJson_children_iff (p := nodeWith (str "a\"b")) rfl rfl (by decide)).mp hchildren).1
    exact absurd (hplain _ List.mem_cons_self 34 (by decide)) (by decide)

end VyattaRest.Server.JsonObject
