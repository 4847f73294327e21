/-
  VyattaRest.AppEdit — a tree of the running configuration that a client has marked and sent back
  (App/Msg.pm, App/MsgParser.pm, App/Param/Base.pm and App/Param/TagParam.pm).

  A client sets the status of an object and its new value or values, and leaves the other fields as
  they are. `plan` is what it means by that: it goes down the tree that was built, with the path of
  every object, a tag under its new name, and nothing below what is deleted. The children of an
  object are in a hash, and come in any order.
  - `move_text`: what becomes of the path of a renamed tag when it is split at its blanks and joined.
  - `edits_are_configured`: the commands of the message that comes back are those of the plan.
  - `a_renamed_tag_is_configured`: a tag that is renamed, and a value below it that changes.
-/

import VyattaRest.AppBuild

namespace VyattaRest.App

open VyattaRest.Lib

/-! ## Marks -/

/-- What a client does to an object. -/
inductive Mark where
  | keep
  | delete
  | create (v : Option Str)
  | change (v : Str)
  | replace (vs : List Str)
  deriving DecidableEq

def Mark.fields : Mark → Fields
  | .keep => []
  | .delete => [(str "status", .string (str "deleted"))]
  | .create none => [(str "status", .string (str "added"))]
  | .create (some v) => [(str "status", .string (str "added")), (str "new-value", .string v)]
  | .change v => [(str "status", .string (str "changed")), (str "new-value", .string v)]
  | .replace vs => [(str "status", .string (str "changed")), (str "new-values", .array (vs.map .string))]

/-- The data of an object with a mark. -/
def marked (mark : Mark) (data : Fields) : Fields := data.update mark.fields

/-- The name of a tag. -/
def Mark.name (old : Str) : Mark → Str
  | .create (some v) => v
  | .change v => v
  | _ => old

/-- A name that is one word of a command. -/
def OneWord (v : Str) : Prop := v ≠ [] ∧ (32 : UInt8) ∉ v

instance (v : Str) : Decidable (OneWord v) := inferInstanceAs (Decidable (_ ∧ _))

/-- Words with one blank between each two. -/
def Spaced (path : Str) : Prop := ∃ ws : List Str, ws ≠ [] ∧ (∀ w ∈ ws, OneWord w) ∧ path = [32].intercalate ws

/-- Where a mark means something: an object without a type and a tag can be created, a tag renamed,
    an object with a value gets another, and one with values others. The new name is a word, behind
    a path of words. -/
def Mark.Fits (data : Fields) (above : Str) : Mark → Prop
  | .keep | .delete => True
  | .create none => isTypeless data = true ∨ isTagValue data = true
  | .create (some _) => isTypeless data = false ∧ (isTagValue data = false → data.defined (str "values") = false)
  | .change v => isTypeless data = false ∧ (isTagValue data = false → data.defined (str "values") = false) ∧
      (isTagValue data = true → OneWord v ∧ Spaced above)
  | .replace _ => isTypeless data = false ∧ isTagValue data = false ∧ data.defined (str "values") = true

def valueOf (data : Fields) : Str :=
  match data.lookup (str "value") with
  | some (.string v) => v
  | _ => []

/-- What a mark means for the object at a path, below the one at the path `above`. -/
def Mark.commands (data : Fields) (above path : Str) : Mark → List Str
  | .keep => []
  | .delete => [str "delete " ++ path]
  | .create none => [str "set " ++ path]
  | .create (some v) => if isTagValue data then [str "set " ++ path] else [str "set " ++ path ++ str " '" ++ v ++ str "'"]
  | .change v =>
    if isTagValue data then [str "move " ++ above ++ str " " ++ valueOf data ++ str " to " ++ v]
    else [str "set " ++ path ++ str " '" ++ v ++ str "'"]
  | .replace vs => (str "delete " ++ path) :: vs.map fun v => str "set " ++ path ++ str " '" ++ v ++ str "'"

mutual

/-- What the marks mean for an object at a path and for those below it. -/
def plan (marks : Addr → Mark) (addr : Addr) (above path : Str) : Node → List (Addr × Str)
  | .raw _ => []
  | .param _ data children tags =>
    ((marks addr).commands data above path).map (Prod.mk addr) ++
      if marks addr = .delete then [] else planTags marks addr path 0 tags ++ planChildren marks addr path children

def planTags (marks : Addr → Mark) (addr : Addr) (path : Str) : Nat → List Node → List (Addr × Str)
  | _, [] => []
  | i, t :: ts =>
    plan marks (addr ++ [.tag i]) path (path ++ str " " ++ (marks (addr ++ [.tag i])).name (t.value.getD [])) t ++
      planTags marks addr path (i + 1) ts

def planChildren (marks : Addr → Mark) (addr : Addr) (path : Str) : List (Str × Node) → List (Addr × Str)
  | [] => []
  | (k, n) :: ns => plan marks (addr ++ [.child k]) path (path ++ str " " ++ k) n ++ planChildren marks addr path ns

end

/-- The path of a root. -/
def rootPath : Node → Str
  | .raw _ => []
  | .param _ data _ _ =>
    match data.lookup (str "cfg_path") with
    | some (.string path) => path
    | _ => []

/-- What the marks mean for a message. -/
def planAll (marks : Addr → Mark) (root : List (Str × Node)) : List (Addr × Str) :=
  root.flatMap fun c => plan marks [.child c.1] [] (rootPath c.2) c.2

/-- Every mark means something where it is set, for an object at a path and those below it. -/
inductive Suits (marks : Addr → Mark) : Addr → Str → Str → Node → Prop where
  | mk {addr : Addr} {above path : Str} {cls : Class} {data : Fields} {children : List (Str × Node)} {tags : List Node}
      (own : (marks addr).Fits data above)
      (below : ∀ c ∈ children, Suits marks (addr ++ [.child c.1]) path (path ++ str " " ++ c.1) c.2)
      (belowTag : ∀ (i : Nat) t, tags[i]? = some t →
        Suits marks (addr ++ [.tag i]) path (path ++ str " " ++ (marks (addr ++ [.tag i])).name (t.value.getD [])) t) :
      Suits marks addr above path (.param cls data children tags)

def AllFit (marks : Addr → Mark) (root : List (Str × Node)) : Prop :=
  ∀ c ∈ root, Suits marks [.child c.1] [] (rootPath c.2) c.2

/-- What a client makes of the tree that it got: the marks are set, and the fields and the children
    are in any order. -/
inductive Edits (marks : Addr → Mark) : Addr → JsonValue → JsonValue → Prop where
  | object {addr : Addr} {fs gs : Fields} (cs ds : Option Fields) (ts us : Option (List JsonValue))
      (keys : (gs.map Prod.fst).Nodup)
      (fields : ∀ k, k ≠ str "children" → k ≠ str "tags" → gs.lookup k = (marked (marks addr) fs).lookup k)
      (children : fs.lookup (str "children") = cs.map .object) (children' : gs.lookup (str "children") = ds.map .object)
      (hung : cs.isSome = ds.isSome) (names : ((cs.getD []).map Prod.fst).Perm ((ds.getD []).map Prod.fst))
      (each : ∀ c ∈ cs.getD [], ∀ d ∈ ds.getD [], c.1 = d.1 → Edits marks (addr ++ [.child c.1]) c.2 d.2)
      (tags : fs.lookup (str "tags") = ts.map .array) (tags' : gs.lookup (str "tags") = us.map .array)
      (number : ts.map List.length = us.map List.length)
      (every : ∀ l m (i : Nat) t u, ts = some l → us = some m → l[i]? = some t → m[i]? = some u →
        Edits marks (addr ++ [.tag i]) t u) :
      Edits marks addr (.object fs) (.object gs)

/-- The members of a message that is sent: those that were shown, and what is no parameter. -/
structure Sent (marks : Addr → Mark) (shown sent : Fields) : Prop where
  keys : (sent.map Prod.fst).Nodup
  edited : ∀ c ∈ shown, ∃ v, (c.1, v) ∈ sent ∧ Edits marks [.child c.1] c.2 v
  custom : ∀ d ∈ sent, d.1 ∉ shown.map Prod.fst → IsCustom d.2

/-- A tree whose hashes have their order, or another. -/
inductive Reordered : Node → Node → Prop where
  | same (n : Node) : Reordered n n
  | param {cls : Class} {data : Fields} {children children' : List (Str × Node)} {tags tags' : List Node}
      (names : (children.map Prod.fst).Perm (children'.map Prod.fst))
      (below : ∀ c ∈ children, ∀ c' ∈ children', c.1 = c'.1 → Reordered c.2 c'.2) (number : tags.length = tags'.length)
      (belowTag : ∀ (i : Nat) t t', tags[i]? = some t → tags'[i]? = some t' → Reordered t t') :
      Reordered (.param cls data children tags) (.param cls data children' tags')

/-- A message in another order. -/
structure ReorderedAll (root root' : List (Str × Node)) : Prop where
  names : (root.map Prod.fst).Perm (root'.map Prod.fst)
  below : ∀ c ∈ root, ∀ c' ∈ root', c.1 = c'.1 → Reordered c.2 c'.2

/-! ## Objects of a tree that was built -/

/-- What an object has of its role. -/
def Plays (data : Fields) : Role → Prop
  | .root => data.lookup (str "tag") = none ∧ ∃ path, data.lookup (str "cfg_path") = some (.string path)
  | .child name => data.lookup (str "tag") = none ∧ data.lookup (str "rel_path") = some (.string name) ∧
      data.lookup (str "cfg_path") = none
  | .tag v => IsTag v data

theorem Is.plays {run : Running} {path : Str} {data : Fields} : ∀ {role : Role}, Is run path data role → Plays data role
  | .root, ⟨⟨_, _, htag⟩, hcfg⟩ => ⟨htag, path, hcfg⟩
  | .child _, ⟨⟨_, _, htag⟩, hrel, hcfg⟩ => ⟨htag, hrel, hcfg⟩
  | .tag _, h => h

/-- The objects of a tree, each made by a constructor, with what it has of its role. -/
inductive Built (lib : Library) : Role → Node → Prop where
  | mk {role : Role} {cls : Class} {data : Fields} {children : List (Str × Node)} {tags : List Node}
      (fresh : Fresh lib cls data) (plays : Plays data role) (distinct : (children.map Prod.fst).Nodup)
      (tagged : isTagNode data = true → children = []) (plain : isTagNode data = false → tags = [])
      (valued : ∀ t ∈ tags, t.value ≠ none) (below : ∀ c ∈ children, Built lib (.child c.1) c.2)
      (belowTag : ∀ t ∈ tags, ∀ v, t.value = some v → Built lib (.tag v) t) :
      Built lib role (.param cls data children tags)

theorem Mirrors.built {lib : Library} {run : Running} {limit depth : Nat} {role : Role} {path : Str}
    {above : List Fields} {n : Node} (h : Mirrors lib run limit depth role path above n) : Built lib role n := by
  induction h with
  | @mk depth role path above cls data children tags fresh is mapped distinct names values plain below belowTag ih ihTag =>
    refine .mk fresh is.plays distinct (fun htag => ?_) (fun hno => ?_) (fun t ht => ?_) ih ihTag
    · cases children with
      | nil => rfl
      | cons c children =>
        have hfalse := ((names c.1).mp List.mem_cons_self).2.1
        rw [htag] at hfalse
        cases hfalse
    · refine plain fun h => ?_
      rw [hno] at h
      exact absurd h.2 (by decide)
    · by_cases hin : Inside limit depth ∧ isTagNode data = true
      · have hmem : t.value ∈ (tagValues run path).map some := values hin.1 hin.2 ▸ List.mem_map_of_mem ht
        obtain ⟨v, -, hv⟩ := List.mem_map.mp hmem
        rw [← hv]
        exact Option.some_ne_none v
      · rw [plain hin] at ht
        cases ht

theorem Rooted.built {lib : Library} {run : Running} {limit : Nat} {rpath : Str} {n : Node} (h : Rooted lib run limit rpath n) :
    Built lib .root n := by
  cases h with
  | template shows => exact shows.built
  | @tag cls data tpath v t unknown cut fresh is node mapped found value shows =>
    have hone : ∀ t' ∈ [t], t'.value = some v := fun t' ht => List.mem_singleton.mp ht ▸ value
    refine .mk fresh is.plays List.nodup_nil (fun _ => rfl) (fun hno => ?_) (fun t' ht => ?_)
      (fun c hc => absurd hc List.not_mem_nil) fun t' ht w hw => ?_
    · rw [node] at hno
      cases hno
    · rw [hone t' ht]
      exact Option.some_ne_none v
    · obtain rfl : v = w := Option.some.inj ((hone t' ht).symm.trans hw)
      obtain rfl := List.mem_singleton.mp ht
      exact shows.built

/-! ## Data with a mark -/

section Marked

variable {lib : Library} {mark : Mark} {cls : Class} {data data' : Fields}

/-- The fields of a mark. -/
def markFields : List Str := [str "status", str "new-value", str "new-values"]

theorem Mark.nodup_fields (mark : Mark) : (mark.fields.map Prod.fst).Nodup := by
  cases mark with
  | create v =>
    cases v with
    | none => decide
    | some v => exact (by decide : [str "status", str "new-value"].Nodup)
  | replace vs => exact (by decide : [str "status", str "new-values"].Nodup)
  | change v => exact (by decide : [str "status", str "new-value"].Nodup)
  | _ => decide

theorem Mark.lookup_fields (mark : Mark) {k : Str} (hk : k ∉ markFields) : mark.fields.lookup k = none := by
  simp only [markFields, List.mem_cons, List.not_mem_nil, or_false, not_or] at hk
  obtain ⟨h₁, h₂, h₃⟩ := hk
  cases mark with
  | create v => cases v <;> simp [Mark.fields, List.lookup_cons, beq_eq_false_iff_ne.mpr, h₁, h₂]
  | _ => simp [Mark.fields, List.lookup_cons, beq_eq_false_iff_ne.mpr, h₁, h₂, h₃]

theorem lookup_marked (mark : Mark) (data : Fields) (k : Str) :
    (marked mark data).lookup k = (mark.fields.lookup k).or (data.lookup k) := Fields.lookup_update mark.nodup_fields k

theorem lookup_marked_of_not_mem (mark : Mark) (data : Fields) {k : Str} (hk : k ∉ markFields) :
    (marked mark data).lookup k = data.lookup k := by
  rw [lookup_marked, mark.lookup_fields hk, Option.none_or]

theorem Fresh.lookup_marked (h : Fresh lib cls data) {k : Str} (hk : k ∈ markFields) :
    (marked mark data).lookup k = mark.fields.lookup k := by
  have hlater : ∀ k ∈ markFields, k ∈ App.later := by decide
  rw [App.lookup_marked, h.later k (hlater k hk), Option.or_none]

/-- The data of an object that was made again of what the client sent: the mark, and the fields as
    they were, but for a `value` that is not defined. -/
structure Carries (mark : Mark) (data data' : Fields) : Prop where
  marks : ∀ k ∈ markFields, data'.lookup k = mark.fields.lookup k
  others : ∀ k, k ∉ str "children" :: str "tags" :: str "value" :: markFields → data'.lookup k = data.lookup k
  value : data'.lookup (str "value") = data.lookup (str "value") ∨
    data.lookup (str "value") = none ∧ data'.lookup (str "value") = some .null

theorem Fresh.carries (h : Fresh lib cls data) {fs : Fields}
    (hfields : ∀ k, k ≠ str "children" → k ≠ str "tags" → fs.lookup k = (marked mark data).lookup k) (hr : Restores fs data') :
    Carries mark data data' := by
  have hne : ∀ k ∈ markFields, k ≠ str "children" ∧ k ≠ str "tags" ∧ k ≠ str "value" := by decide
  have hback : ∀ k, k ≠ str "children" → k ≠ str "tags" → k ≠ str "value" → data'.lookup k = (marked mark data).lookup k := by
    intro k h₁ h₂ h₃
    rcases hr.fields k h₁ h₂ with heq | ⟨heq, -⟩
    · rw [heq, hfields k h₁ h₂]
    · exact absurd heq h₃
  refine ⟨fun k hk => ?_, fun k hk => ?_, ?_⟩
  · obtain ⟨h₁, h₂, h₃⟩ := hne k hk
    rw [hback k h₁ h₂ h₃, h.lookup_marked hk]
  · simp only [List.mem_cons, not_or] at hk
    obtain ⟨h₁, h₂, h₃, hk⟩ := hk
    rw [hback k h₁ h₂ h₃]
    exact lookup_marked_of_not_mem mark data (by simpa [markFields] using hk)
  · have hvalue : fs.lookup (str "value") = data.lookup (str "value") := by
      rw [hfields _ (by decide) (by decide)]
      exact lookup_marked_of_not_mem mark data (by decide)
    rw [← hvalue]
    rcases hr.fields (str "value") (by decide) (by decide) with heq | ⟨-, hnone, hnull⟩
    · exact Or.inl heq
    · exact Or.inr ⟨hnone, hnull⟩

namespace Carries

theorem defined_mark (h : Carries mark data data') {k : Str} (hk : k ∈ markFields) : data'.defined k = mark.fields.defined k := by
  rw [Fields.defined, Fields.defined, h.marks k hk]

theorem hasText_mark (h : Carries mark data data') {k : Str} (hk : k ∈ markFields) (t : Str) :
    hasText data' k t = hasText mark.fields k t := by
  rw [hasText, hasText, h.marks k hk]

theorem isStatusDeleted_eq (h : Carries mark data data') : isStatusDeleted data' = decide (mark = .delete) := by
  rw [isStatusDeleted, h.hasText_mark (by decide)]
  cases mark with
  | create v => cases v <;> rfl
  | _ => rfl

theorem isTagNode_eq (h : Carries mark data data') : isTagNode data' = isTagNode data := by
  rw [isTagNode, isTagNode, h.others _ (by decide)]

theorem isTagValue_eq (h : Carries mark data data') : isTagValue data' = isTagValue data := by
  rw [isTagValue, isTagValue, h.others _ (by decide)]

theorem isTypeless_eq (h : Carries mark data data') : isTypeless data' = isTypeless data := by
  rw [isTypeless, isTypeless, hasText, hasText, h.others _ (by decide)]

theorem defined_other (h : Carries mark data data') {k : Str}
    (hk : k ∉ str "children" :: str "tags" :: str "value" :: markFields) :
    data'.defined k = data.defined k := by
  rw [Fields.defined, Fields.defined, h.others k hk]

/-- The value of a tag. -/
theorem value_tag (h : Carries mark data data') {v : Str} (ht : IsTag v data) :
    data'.lookup (str "value") = some (.string v) := by
  rcases h.value with heq | ⟨hnone, -⟩
  · rw [heq, ht.value]
  · rw [ht.value] at hnone
    cases hnone

theorem mapped (h : Carries mark data data') {role : Role} (hp : Plays data role) : isMapped data' = true := by
  rw [isMapped, h.defined_other (by decide), h.defined_other (by decide), Fields.defined, Fields.defined]
  cases role with
  | root =>
    obtain ⟨-, path, hcfg⟩ := hp
    rw [hcfg]
    rfl
  | child name => rw [hp.2.1, Bool.or_true]
  | tag v => rw [IsTag.rel hp, Bool.or_true]

end Carries

theorem Plays.tag_of {role : Role} (hp : Plays data role) (ht : isTagValue data = true) : ∃ v, role = .tag v := by
  have hno : data.lookup (str "tag") = none → False := by
    intro hnone
    rw [isTagValue, hnone] at ht
    cases ht
  cases role with
  | root => exact absurd hp.1 hno
  | child name => exact absurd hp.1 hno
  | tag v => exact ⟨v, rfl⟩

theorem valueOf_tag {v : Str} (ht : IsTag v data) : valueOf data = v := by rw [valueOf, ht.value]

/-- An object with a value gets the new one. -/
theorem Carries.set_value (htext : Textual lib) (h : Carries mark data data')
    (hvalues : data.defined (str "values") = false) {v : Str}
    (hnew : mark.fields.lookup (str "new-value") = some (.string v)) (path : Str) :
    getConfigSetCommands lib data' path = some [str "set " ++ path ++ str " '" ++ v ++ str "'"] := by
  have hlookup : data'.lookup (str "new-value") = some (.string v) := by rw [h.marks _ (by decide), hnew]
  have hdefined : data'.defined (str "new-value") = true := by rw [Fields.defined, hlookup]
  have hno : data'.defined (str "values") = false := by rw [h.defined_other (by decide), hvalues]
  rw [getConfigSetCommands, hno, hdefined, textOf_string htext hlookup]
  rfl

/-- An object with values gets the new ones. -/
theorem Carries.set_values (htext : Textual lib) (h : Carries mark data data')
    (hvalues : data.defined (str "values") = true) {vs : List Str}
    (hnew : mark.fields.lookup (str "new-values") = some (.array (vs.map .string))) (path : Str) :
    getConfigSetCommands lib data' path =
      some ((str "delete " ++ path) :: vs.map fun v => str "set " ++ path ++ str " '" ++ v ++ str "'") := by
  have hlookup : data'.lookup (str "new-values") = some (.array (vs.map .string)) := by rw [h.marks _ (by decide), hnew]
  have hdefined : data'.defined (str "new-values") = true := by rw [Fields.defined, hlookup]
  have hyes : data'.defined (str "values") = true := by rw [h.defined_other (by decide), hvalues]
  rw [getConfigSetCommands, hyes, hdefined, hlookup]
  have htexts : (vs.map JsonValue.string).map (fun v => str "set " ++ path ++ str " '" ++ lib.text v ++ str "'") =
      vs.map fun v => str "set " ++ path ++ str " '" ++ v ++ str "'" := by
    rw [List.map_map]
    refine List.map_congr_left fun v _ => ?_
    rw [Function.comp_apply, htext v]
  simp only [if_true, htexts]

/-- The path of a renamed tag ends with the new name, which is taken off. -/
theorem splitBlanks_spaced {ws : List Str} (hne : ws ≠ []) (hws : ∀ w ∈ ws, OneWord w) :
    splitBlanks ([32].intercalate ws) = ws := by
  have hsplit : (([32] : Str).intercalate ws).splitOn 32 = ws := List.splitOn_intercalate 32 (fun w hw => (hws w hw).2) hne
  have hall : ws.filter (· ≠ []) = ws := List.filter_eq_self.mpr fun w hw => decide_eq_true (hws w hw).1
  have hhead : (([32] : Str).intercalate ws).head? ≠ some 32 := by
    obtain ⟨w, ws, rfl⟩ := List.exists_cons_of_ne_nil hne
    obtain ⟨hw, hblank⟩ := hws w List.mem_cons_self
    obtain ⟨b, w, rfl⟩ := List.exists_cons_of_ne_nil hw
    have hfirst : ([32].intercalate ((b :: w) :: ws)).head? = some b := by cases ws <;> rfl
    rw [hfirst]
    rintro heq
    cases heq
    exact hblank List.mem_cons_self
  rw [splitBlanks, hsplit, hall]
  simp [hhead]

/-- So what is left is the path of the tag node. -/
theorem move_text {above v : Str} (hs : Spaced above) (hv : OneWord v) (old : Str) :
    joinBlanks ([str "move"] ++ (splitBlanks (above ++ str " " ++ v)).dropLast ++ [old, str "to", v]) =
      str "move " ++ above ++ str " " ++ old ++ str " to " ++ v := by
  obtain ⟨ws, hne, hws, rfl⟩ := hs
  have hwhole : [32].intercalate ws ++ str " " ++ v = [32].intercalate (ws ++ [v]) := by
    rw [intercalate_append hne (List.cons_ne_nil v []), List.intercalate_singleton]
    rfl
  have hwords : ∀ w ∈ ws ++ [v], OneWord w := List.forall_mem_append.mpr ⟨hws, by simpa using hv⟩
  rw [hwhole, splitBlanks_spaced (by simp) hwords, List.dropLast_concat, joinBlanks,
    intercalate_append (by simp) (by simp), intercalate_append (by simp) hne]
  simp only [List.intercalate_cons_cons, List.intercalate_singleton, List.append_assoc]
  rfl

/-- A tag is moved to its new name. -/
theorem Carries.move (htext : Textual lib) (h : Carries mark data data') {w v : Str} (ht : IsTag w data)
    (hnew : mark.fields.lookup (str "new-value") = some (.string v)) (path : Str) :
    data'.defined (str "value") = true ∧ data'.defined (str "new-value") = true ∧
      moveCommand lib data' path = joinBlanks ([str "move"] ++ (splitBlanks path).dropLast ++ [valueOf data, str "to", v]) := by
  have hvalue := h.value_tag ht
  have hlookup : data'.lookup (str "new-value") = some (.string v) := by rw [h.marks _ (by decide), hnew]
  refine ⟨?_, ?_, ?_⟩
  · rw [Fields.defined, hvalue]
  · rw [Fields.defined, hlookup]
  · rw [moveCommand, textOf_string htext hvalue, textOf_string htext hlookup, valueOf_tag ht]

/-- The commands of an object are those that its mark means. -/
theorem Carries.commands (htext : Textual lib) (h : Carries mark data data') {role : Role} (hp : Plays data role)
    {above path : Str} (hfit : mark.Fits data above) {parents : List Fields} (hpath : getMappedPath lib data' parents = some path)
    (hname : ∀ v, role = .tag v → path = above ++ str " " ++ mark.name v) :
    getConfigCommands lib data' parents = some (mark.commands data above path) := by
  rw [getConfigCommands, h.mapped hp, h.isStatusDeleted_eq, h.isTypeless_eq, h.isTagValue_eq, h.defined_mark (by decide),
    h.hasText_mark (by decide), h.hasText_mark (by decide), hpath, Option.bind_some]
  cases mark with
  | keep => rfl
  | delete => rfl
  | create v =>
    cases v with
    | none =>
      by_cases htypeless : isTypeless data = true
      · rw [htypeless]
        rfl
      · obtain htag := hfit.resolve_left htypeless
        rw [htag, Bool.eq_false_iff.mpr htypeless]
        rfl
    | some v =>
      obtain ⟨htypeless, hvalues⟩ := hfit
      rw [htypeless, Mark.commands]
      cases htag : isTagValue data with
      | true => rfl
      | false => exact h.set_value htext (hvalues htag) rfl path
  | change v =>
    obtain ⟨htypeless, hvalues, hword⟩ := hfit
    rw [htypeless, Mark.commands]
    cases htag : isTagValue data with
    | true =>
      obtain ⟨w, rfl⟩ := hp.tag_of htag
      obtain ⟨hone, hspaced⟩ := hword htag
      obtain ⟨hvalue, hnew, hmove⟩ := h.move htext hp (v := v) rfl path
      have hpathv : path = above ++ str " " ++ v := hname w rfl
      rw [hvalue, hnew, hmove, hpathv, move_text hspaced hone]
      rfl
    | false => exact h.set_value htext (hvalues htag) rfl path
  | replace vs =>
    obtain ⟨htypeless, htag, hvalues⟩ := hfit
    rw [htypeless, htag]
    exact h.set_values htext hvalues rfl path

/-! ## Paths -/

theorem Carries.path_root (htext : Textual lib) (h : Carries mark data data') {path : Str}
    (hcfg : data.lookup (str "cfg_path") = some (.string path)) : getMappedPath lib data' [] = some path := by
  have hlookup : data'.lookup (str "cfg_path") = some (.string path) := by rw [h.others _ (by decide), hcfg]
  have hdefined : data'.defined (str "cfg_path") = true := by rw [Fields.defined, hlookup]
  rw [getMappedPath, if_pos hdefined, textOf_string htext hlookup]

theorem Carries.path_child (htext : Textual lib) (h : Carries mark data data') {name : Str} (hp : Plays data (.child name))
    {parent : Fields} {above : List Fields} {path : Str} (hpath : getMappedPath lib parent above = some path) :
    getMappedPath lib data' (parent :: above) = some (path ++ str " " ++ name) := by
  refine mapped_child htext hpath ?_ ?_ ?_
  · rw [h.others _ (by decide), hp.2.1]
  · rw [h.others _ (by decide), hp.2.2]
  · rw [h.others _ (by decide), hp.1]

/-- A tag has its new name in the path. -/
theorem Carries.path_tag (htext : Textual lib) (h : Carries mark data data') {v : Str} (hp : IsTag v data)
    {parent : Fields} {above : List Fields} {path : Str} (hpath : getMappedPath lib parent above = some path) :
    getMappedPath lib data' (parent :: above) = some (path ++ str " " ++ mark.name v) := by
  have hvalue : isTagValue data' = true := by
    rw [h.isTagValue_eq, isTagValue, hp.tag]
    rfl
  have hrel : data'.lookup (str "rel_path") = some (.string []) := by rw [h.others _ (by decide), hp.rel]
  have hdefined : data'.defined (str "rel_path") = true := by rw [Fields.defined, hrel]
  have hno : data'.defined (str "cfg_path") = false := by rw [h.defined_other (by decide), Fields.defined, hp.cfg]
  have hname : (if data'.defined (str "new-value") then textOf lib data' (str "new-value") else textOf lib data' (str "value")) =
      mark.name v := by
    have hold : textOf lib data' (str "value") = v := textOf_string htext (h.value_tag hp)
    have hmark := h.marks (str "new-value") (by decide)
    rw [h.defined_mark (by decide)]
    cases mark with
    | create w =>
      cases w with
      | none => exact hold
      | some w => exact textOf_string htext hmark
    | change w => exact textOf_string htext hmark
    | _ => exact hold
  have hrelPath : relPath lib data' = some (mark.name v) := by
    rw [relPath]
    simp only [hvalue, hdefined, if_true, hname, textOf_string htext hrel]
    rfl
  rw [getMappedPath, hno, hrelPath, hpath]
  rfl

end Marked

/-! ## The message that comes back -/

section Parse

variable {lib : Library} {marks : Addr → Mark}

theorem forall₂_of_getElem {α β : Type} {R : α → β → Prop} : ∀ {l : List α} {r : List β}, l.length = r.length →
    (∀ (i : Nat) a b, l[i]? = some a → r[i]? = some b → R a b) → List.Forall₂ R l r
  | [], [], _, _ => .nil
  | [], _ :: _, hlen, _ => absurd hlen (by simp)
  | _ :: _, [], hlen, _ => absurd hlen (by simp)
  | _ :: _, _ :: _, hlen, h => .cons (h 0 _ _ rfl rfl) (forall₂_of_getElem (Nat.succ.inj hlen) fun i a b => h (i + 1) a b)

/-- Of two lists side by side, a list of what there is for every pair. -/
theorem exists_beside {α β γ : Type} : ∀ {l : List α} {m : List β}, l.length = m.length → ∀ {R : Nat → α → β → γ → Prop},
    (∀ (i : Nat) a b, l[i]? = some a → m[i]? = some b → ∃ c, R i a b c) →
      ∃ r : List γ, l.length = r.length ∧ ∀ (i : Nat) a b c, l[i]? = some a → m[i]? = some b → r[i]? = some c → R i a b c
  | [], [], _, _, _ => ⟨[], rfl, fun _ _ _ _ ha => absurd ha (by simp)⟩
  | [], _ :: _, hlen, _, _ => absurd hlen (by simp)
  | _ :: _, [], hlen, _, _ => absurd hlen (by simp)
  | a :: l, b :: m, hlen, R, h => by
    obtain ⟨c, hc⟩ := h 0 a b rfl rfl
    obtain ⟨r, hr, hall⟩ := exists_beside (Nat.succ.inj hlen) (R := fun i => R (i + 1)) fun i a b => h (i + 1) a b
    refine ⟨c :: r, congrArg Nat.succ hr, fun i a' b' c' ha hb hc' => ?_⟩
    cases i with
    | zero =>
      obtain rfl := Option.some.inj ha
      obtain rfl := Option.some.inj hb
      obtain rfl := Option.some.inj hc'
      exact hc
    | succ i => exact hall i a' b' c' ha hb hc'

/-- What is sent for an object: its tree, with the marks set and all fields in any order. -/
inductive Sends (marks : Addr → Mark) : Addr → Node → JsonValue → Prop where
  | object {addr : Addr} {cls : Class} {data : Fields} {children : List (Str × Node)} {tags : List Node}
      {fs : Fields} (cs : Fields) (ts : List JsonValue) (keys : (fs.map Prod.fst).Nodup)
      (fields : ∀ k, k ≠ str "children" → k ≠ str "tags" → fs.lookup k = (marked (marks addr) data).lookup k)
      (hung : fs.lookup (str "children") = if children = [] then none else some (.object cs))
      (names : (children.map Prod.fst).Perm (cs.map Prod.fst))
      (below : ∀ c ∈ children, ∀ v ∈ cs, c.1 = v.1 → Sends marks (addr ++ [.child c.1]) c.2 v.2)
      (array : fs.lookup (str "tags") = if cls = .tag then some (.array ts) else none) (number : tags.length = ts.length)
      (belowTag : ∀ (i : Nat) t v, tags[i]? = some t → ts[i]? = some v → Sends marks (addr ++ [.tag i]) t v) :
      Sends marks addr (.param cls data children tags) (.object fs)

/-- The trees of a list of nodes. -/
theorem memberTrees_iff {ns : List (Str × Node)} {vs : Fields} : memberTrees ns = some vs ↔
    List.Forall₂ (fun c v => c.1 = v.1 ∧ c.2.getDataTree = some v.2) ns vs := by
  rw [memberTrees_eq, mapM_iff]
  constructor
  · exact List.Forall₂.imp fun c v h => by
      obtain ⟨t, ht, rfl⟩ := Option.map_eq_some_iff.mp h
      exact ⟨rfl, ht⟩
  · exact List.Forall₂.imp fun c v h => by
      rw [h.1, h.2]
      rfl

/-- What is in the tree of an object: its fields, the trees of its children or those of its tags. -/
theorem Fresh.tree {cls : Class} {data : Fields} {children : List (Str × Node)} {tags : List Node} {v : JsonValue}
    (fresh : Fresh lib cls data) (tagged : isTagNode data = true → children = []) (plain : isTagNode data = false → tags = [])
    (htree : (Node.param cls data children tags).getDataTree = some v) :
    ∃ fs cs ts, v = .object fs ∧ (∀ k, k ≠ str "children" → k ≠ str "tags" → fs.lookup k = data.lookup k) ∧
      fs.lookup (str "children") = (if children = [] then none else some (.object cs)) ∧
      List.Forall₂ (fun c u => c.1 = u.1 ∧ c.2.getDataTree = some u.2) children cs ∧
      fs.lookup (str "tags") = (if cls = .tag then some (.array ts) else none) ∧
      List.Forall₂ (fun t u => t.getDataTree = some u) tags ts := by
  have hchildren : data.lookup (str "children") = none := fresh.later _ (by decide)
  have htags : data.lookup (str "tags") = none := fresh.later _ (by decide)
  by_cases hcls : cls = .tag
  · obtain rfl : children = [] := tagged (fresh.tag_iff.mpr hcls)
    rw [Node.getDataTree, if_pos hcls] at htree
    cases helements : elementTrees tags with
    | none =>
      rw [helements] at htree
      cases htree
    | some trees =>
      rw [helements] at htree
      rw [elementTrees_eq, mapM_iff] at helements
      obtain rfl := Option.some.inj htree
      refine ⟨_, [], trees, rfl, fun k _ h₂ => by rw [Fields.lookup_set, if_neg h₂], ?_, .nil, ?_, helements⟩
      · rw [Fields.lookup_set, if_neg (by decide), hchildren, if_pos rfl]
      · rw [Fields.lookup_set, if_pos rfl, if_pos hcls]
  · have hno : isTagNode data = false := by
      rw [← Bool.not_eq_true, fresh.tag_iff]
      exact hcls
    obtain rfl : tags = [] := plain hno
    rw [getDataTree_node hcls] at htree
    obtain ⟨trees, hmembers, rfl⟩ := Option.map_eq_some_iff.mp htree
    have hall := memberTrees_iff.mp hmembers
    refine ⟨_, trees, [], rfl, fun k h₁ _ => lookup_withChildren h₁, ?_, hall, ?_, .nil⟩
    · cases hall with
      | nil => exact hchildren
      | cons => rw [withChildren, Fields.lookup_set, if_pos rfl, if_neg (List.cons_ne_nil _ _)]
    · rw [lookup_withChildren (by decide), htags, if_neg hcls]

/-- A field that is there exactly when `p` holds, and what the client has in its place. -/
theorem answered_field {α β : Type} {f : α → β} (hf : Function.Injective f) {p : Prop} [Decidable p] {a d : α} {o o' : Option α}
    (h : (if p then some (f a) else none) = o.map f) (hd : ¬ p → a = d) (hboth : o.isSome = o'.isSome) :
    o.getD d = a ∧ o'.map f = if p then some (f (o'.getD d)) else none := by
  by_cases hp : p
  · rw [if_pos hp] at h ⊢
    obtain ⟨b, rfl, hb⟩ := Option.map_eq_some_iff.mp h.symm
    cases o' with
    | none => cases hboth
    | some c => exact ⟨hf hb, rfl⟩
  · rw [if_neg hp] at h ⊢
    obtain rfl := Option.map_eq_none_iff.mp h.symm
    cases o' with
    | none => exact ⟨(hd hp).symm, rfl⟩
    | some c => cases hboth

/-- What a client makes of the tree of an object is that tree with the marks. -/
theorem Built.sends {role : Role} {n : Node} (hb : Built lib role n) :
    ∀ {addr : Addr} {v v' : JsonValue}, n.getDataTree = some v →
    Edits marks addr v v' → Sends marks addr n v' := by
  induction hb with
  | @mk role cls data children tags fresh plays distinct tagged plain valued below belowTag ih ihTag =>
    intro addr v v' htree he
    obtain ⟨fs, cs, ts, rfl, hfields, hcs, hmembers, hts, helements⟩ := fresh.tree tagged plain htree
    cases he with
    | @object _ _ gs cs' ds ts' us keys fields hcs' hds hung names each hts' hus hnumber every =>
    have htagless : cls ≠ .tag → tags = [] := fun hcls => plain (by rw [← Bool.not_eq_true, fresh.tag_iff]; exact hcls)
    obtain ⟨hcs₀, hds₀⟩ := answered_field (p := children ≠ []) (fun _ _ => JsonValue.object.inj)
      ((ite_not _ _ _).trans (hcs.symm.trans hcs'))
      (fun hno => List.forall₂_nil_left_iff.mp (not_not.mp hno ▸ hmembers)) hung
    obtain ⟨hts₀, hus₀⟩ := answered_field (fun _ _ => JsonValue.array.inj) (hts.symm.trans hts')
      (fun hno => List.forall₂_nil_left_iff.mp (htagless hno ▸ helements)) (by simpa using congrArg Option.isSome hnumber)
    have hevery : ∀ (i : Nat) t u, ts[i]? = some t → (us.getD [])[i]? = some u → Edits marks (addr ++ [.tag i]) t u := by
      intro i t u ht hu
      rw [← hts₀] at ht
      cases ts' with
      | none => exact absurd ht (by simp)
      | some l =>
        cases us with
        | none => exact absurd hu (by simp)
        | some m => exact every l m i t u rfl rfl ht hu
    have hlength : ts.length = (us.getD []).length := by
      rw [← hts₀]
      cases ts' with
      | none => cases us with
        | none => rfl
        | some m => cases hnumber
      | some l => cases us with
        | none => cases hnumber
        | some m => exact Option.some.inj hnumber
    refine .object (ds.getD []) (us.getD []) keys (fun k h₁ h₂ => ?_) (hds.trans (hds₀.trans (ite_not _ _ _))) ?_
      (fun c hc u hu hname => ?_) (hus.trans hus₀) (helements.length_eq.trans hlength) fun i t u ht hu => ?_
    · rw [fields k h₁ h₂, lookup_marked, lookup_marked, hfields k h₁ h₂]
    · rw [forall₂_keys (hmembers.imp fun _ _ h => h.1), ← hcs₀]
      exact names
    · obtain ⟨w, hw, hcw, htree⟩ := exists_of_forall₂ hmembers hc
      rw [hcw]
      exact ih c hc htree (each w (hcs₀ ▸ hw) u hu (hcw ▸ hname))
    · have hi : i < ts.length := helements.length_eq ▸ (List.getElem?_eq_some_iff.mp ht).1
      have htree := List.getElem?_eq_getElem hi
      obtain ⟨w, hw⟩ := Option.ne_none_iff_exists'.mp (valued t (List.mem_of_getElem? ht))
      exact ihTag t (List.mem_of_getElem? ht) w hw (forall₂_getElem helements i t _ ht htree) (hevery i _ u htree hu)

/-- The tree that MsgParser makes of what the client sent is that of the objects, with the marks. -/
inductive Like (marks : Addr → Mark) : Addr → Node → Node → Prop where
  | mk {addr : Addr} {cls : Class} {data data' : Fields} {children children' : List (Str × Node)} {tags tags' : List Node}
      (carries : Carries (marks addr) data data') (names : (children.map Prod.fst).Perm (children'.map Prod.fst))
      (below : ∀ c ∈ children, ∀ c' ∈ children', c.1 = c'.1 → Like marks (addr ++ [.child c.1]) c.2 c'.2)
      (number : tags.length = tags'.length)
      (belowTag : ∀ (i : Nat) t t', tags[i]? = some t → tags'[i]? = some t' → Like marks (addr ++ [.tag i]) t t') :
      Like marks addr (.param cls data children tags) (.param cls data' children' tags')

theorem Like.hangs {addr : Addr} {n n' : Node} (h : Like marks addr n n') : n'.hangs = true := by
  cases h with
  | mk => rfl

/-- One of two lists with the same names has a member for each of the other. -/
theorem exists_namesake {α β : Type} {l : List (Str × α)} {m : List (Str × β)} (h : (l.map Prod.fst).Perm (m.map Prod.fst))
    {b : Str × β} (hb : b ∈ m) : ∃ a ∈ l, a.1 = b.1 := List.mem_map.mp (h.mem_iff.mpr (List.mem_map_of_mem hb))

theorem Like.reordered {addr : Addr} {n n' : Node} (h : Like marks addr n n') : ∀ {n'' : Node}, Reordered n' n'' →
    Like marks addr n n'' := by
  induction h with
  | mk carries names below number belowTag ih ihTag =>
    intro n'' hr
    cases hr with
    | same => exact .mk carries names below number belowTag
    | param names' below' number' belowTag' =>
      refine .mk carries (names.trans names') (fun c hc c'' hc'' heq => ?_) (number.trans number') fun i t t'' ht ht'' => ?_
      · obtain ⟨c', hc', heq'⟩ := exists_namesake names' hc''
        exact ih c hc c' hc' (heq.trans heq'.symm) (below' c' hc' c'' hc'' heq')
      · have hi := number ▸ (List.getElem?_eq_some_iff.mp ht).1
        have ht' := List.getElem?_eq_getElem hi
        exact ihTag i t _ ht ht' (belowTag' i _ t'' ht' ht'')

/-- The members that were sent for the children are parsed to objects like them. -/
theorem children_parsed {addr : Addr} {children : List (Str × Node)} {cs : Fields}
    (hnames : (children.map Prod.fst).Perm (cs.map Prod.fst)) (hdistinct : (children.map Prod.fst).Nodup)
    (h : ∀ c ∈ children, ∀ v ∈ cs, c.1 = v.1 → ∃ n', recursiveParse lib v.2 = some n' ∧
      Like marks (addr ++ [.child c.1]) c.2 n') :
    ∃ ns, parseMembers lib cs = some ns ∧ (children.map Prod.fst).Perm (ns.map Prod.fst) ∧ (ns.all fun p => p.2.hangs) = true ∧
      ∀ c ∈ children, ∀ c' ∈ ns, c.1 = c'.1 → Like marks (addr ++ [.child c.1]) c.2 c'.2 := by
  have heach : ∀ v ∈ cs, ∃ c' : Str × Node, v.1 = c'.1 ∧ (recursiveParse lib v.2).map (Prod.mk v.1) = some c' ∧
      ∃ c ∈ children, c.1 = c'.1 ∧ Like marks (addr ++ [.child c.1]) c.2 c'.2 := by
    intro v hv
    obtain ⟨c, hc, hname⟩ := exists_namesake hnames hv
    obtain ⟨n', hn', hlike⟩ := h c hc v hv hname
    exact ⟨(v.1, n'), rfl, by rw [hn']; rfl, c, hc, hname, hlike⟩
  obtain ⟨ns, hns⟩ := forall₂_of_exists heach
  have hback : ∀ c' ∈ ns, ∃ c ∈ children, c.1 = c'.1 ∧ Like marks (addr ++ [.child c.1]) c.2 c'.2 := by
    intro c' hc'
    obtain ⟨v, -, -, -, hlike⟩ := exists_of_forall₂ hns.flip hc'
    exact hlike
  refine ⟨ns, ?_, ?_, ?_, fun c hc c' hc' hname => ?_⟩
  · rw [parseMembers_eq, mapM_iff]
    exact hns.imp fun v c' h => h.2.1
  · rw [← forall₂_keys (hns.imp fun v c' h => h.1)]
    exact hnames
  · rw [List.all_eq_true]
    intro c' hc'
    obtain ⟨c, -, -, hlike⟩ := hback c' hc'
    exact hlike.hangs
  · obtain ⟨c₀, hc₀, hname₀, hlike⟩ := hback c' hc'
    obtain rfl : c₀ = c := List.inj_on_of_nodup_map hdistinct hc₀ hc (hname₀.trans hname.symm)
    exact hlike

/-- The elements that were sent for the tags are parsed to tags like them. -/
theorem tags_parsed {addr : Addr} {tags : List Node} {ts : List JsonValue} (hlen : tags.length = ts.length)
    (h : ∀ (i : Nat) t v, tags[i]? = some t → ts[i]? = some v →
      ∃ n', recursiveParse lib v = some n' ∧ Like marks (addr ++ [.tag i]) t n') :
    ∃ ns, parseElements lib ts = some ns ∧ tags.length = ns.length ∧ ns.all Node.hangs = true ∧
      ∀ (i : Nat) t t', tags[i]? = some t → ns[i]? = some t' → Like marks (addr ++ [.tag i]) t t' := by
  obtain ⟨ns, hns, hall⟩ := exists_beside hlen (R := fun i t v n' => recursiveParse lib v = some n' ∧
    Like marks (addr ++ [.tag i]) t n') h
  have hlike : ∀ (i : Nat) t t', tags[i]? = some t → ns[i]? = some t' → Like marks (addr ++ [.tag i]) t t' := by
    intro i t t' ht ht'
    have hi : i < ts.length := hlen ▸ (List.getElem?_eq_some_iff.mp ht).1
    exact (hall i t _ t' ht (List.getElem?_eq_getElem hi) ht').2
  refine ⟨ns, ?_, hns, ?_, hlike⟩
  · rw [parseElements_eq, mapM_iff]
    refine forall₂_of_getElem (hlen.symm.trans hns) fun i v n' hv hn' => ?_
    have hi : i < tags.length := hlen ▸ (List.getElem?_eq_some_iff.mp hv).1
    exact (hall i _ v n' (List.getElem?_eq_getElem hi) hv hn').1
  · rw [List.all_eq_true]
    intro t' ht'
    obtain ⟨i, hi⟩ := List.mem_iff_getElem?.mp ht'
    have hlt : i < tags.length := hns ▸ (List.getElem?_eq_some_iff.mp hi).1
    exact (hlike i _ t' (List.getElem?_eq_getElem hlt) hi).hangs

theorem Built.parsed {role : Role} {n : Node} (hb : Built lib role n) : ∀ {addr : Addr} {v : JsonValue}, Sends marks addr n v →
    ∃ n', recursiveParse lib v = some n' ∧ Like marks addr n n' := by
  induction hb with
  | @mk role cls data children tags fresh plays distinct tagged plain valued below belowTag ih ihTag =>
    intro addr v hs
    cases hs with
    | @object _ _ _ _ _ fs cs ts keys fields hung names sends array number sendsTag =>
    obtain ⟨ns, hns, hnames, hhang, hlike⟩ := children_parsed names distinct fun c hc v hv hname =>
      ih c hc (sends c hc v hv hname)
    obtain ⟨ns', hns', hnumber, hhang', hlike'⟩ := tags_parsed number fun i t v ht hv => by
      obtain ⟨w, hw⟩ := Option.ne_none_iff_exists'.mp (valued t (List.mem_of_getElem? ht))
      exact ihTag t (List.mem_of_getElem? ht) w hw (sendsTag i t v ht hv)
    have hnot : ∀ k ∈ makings, k ∉ markFields ∧ k ≠ str "children" := by decide
    have hmakings : ∀ k ∈ makings, k ≠ str "tags" → data.lookup k = fs.lookup k := by
      intro k hk hne
      rw [fields k (hnot k hk).2 hne, lookup_marked_of_not_mem _ _ (hnot k hk).1]
    by_cases hcls : cls = .tag
    · have htag : isTagNode data = true := fresh.tag_iff.mpr hcls
      have hchildren : children = [] := tagged htag
      have hsupported : SupportedTag fs := by
        have hst := fresh.tag hcls
        refine ⟨?_, ?_, ?_, ?_, ?_, ?_, ?_⟩
        · rw [← hmakings _ (by decide) (by decide)]
          exact hst.param
        · rw [← hmakings _ (by decide) (by decide)]
          exact hst.tagnode
        · rw [← hmakings _ (by decide) (by decide)]
          exact hst.type
        · rw [← hmakings _ (by decide) (by decide)]
          exact hst.type2
        · rw [← hmakings _ (by decide) (by decide)]
          exact hst.value
        · rw [← hmakings _ (by decide) (by decide)]
          exact hst.values
        · rw [hung, if_pos hchildren]
      subst hcls
      obtain ⟨data', hdata', hr⟩ := tagNew_restores lib keys hsupported
      refine ⟨.param .tag data' [] ns', ?_, .mk (fresh.carries fields hr) ?_ ?_ hnumber hlike'⟩
      · rw [recursiveParse_tag hsupported hdata' (by rw [array, if_pos rfl]), hns', Option.bind_some, if_pos hhang']
      · rw [hchildren]
      · exact fun c _ c' hc' => absurd hc' List.not_mem_nil
    · have hno : isTagNode data = false := by
        rw [← Bool.not_eq_true, fresh.tag_iff]
        exact hcls
      have htags : tags = [] := plain hno
      have hsupported : Supported lib cls fs := by
        refine (fresh.plain hcls).congr fun k hk => ?_
        by_cases hne : k = str "tags"
        · rw [hne, array, if_neg hcls]
          exact fresh.later _ (by decide)
        · exact hmakings k hk hne
      obtain ⟨data', hdata', hr⟩ := construct_restores keys hsupported
      have hparse : parseChildren lib fs = some ns := by
        rw [parseChildren_eq, hung]
        by_cases hchildren : children = []
        · rw [if_pos hchildren]
          -- there are no members either
          obtain rfl : cs = [] := by simpa [hchildren] using names.symm
          exact hns
        · rw [if_neg hchildren]
          exact hns
      refine ⟨.param cls data' ns [], ?_, .mk (fresh.carries fields hr) hnames hlike ?_ ?_⟩
      · rw [recursiveParse_node hsupported.param (fun _ => hsupported.type) hsupported.dispatched hcls hdata', hparse,
          Option.bind_some, if_pos hhang]
      · rw [htags]
      · intro i t t' _ ht'
        exact absurd ht' (by simp)

end Parse

/-! ## The commands -/

section Commands

variable {lib : Library} {marks : Addr → Mark}

/-- The commands of a list of objects. -/
def walkCommands (lib : Library) (refs : List Ref) : Option (List (Addr × Str)) := (refs.mapM (Ref.commands lib)).map List.flatten

theorem configCommands_eq (root : List (Str × Node)) : configCommands lib root = walkCommands lib (iterateParams root) := rfl

theorem walkCommands_iff {refs : List Ref} {cmds : List (Addr × Str)} : walkCommands lib refs = some cmds ↔
    ∃ each, List.Forall₂ (fun r c => Ref.commands lib r = some c) refs each ∧ cmds = each.flatten := by
  rw [walkCommands, Option.map_eq_some_iff]
  refine exists_congr fun each => ?_
  rw [mapM_iff, eq_comm]

theorem walkCommands_append {refs refs' : List Ref} {cmds cmds' : List (Addr × Str)} (h : walkCommands lib refs = some cmds)
    (h' : walkCommands lib refs' = some cmds') : walkCommands lib (refs ++ refs') = some (cmds ++ cmds') := by
  obtain ⟨each, heach, rfl⟩ := walkCommands_iff.mp h
  obtain ⟨each', heach', rfl⟩ := walkCommands_iff.mp h'
  exact walkCommands_iff.mpr ⟨each ++ each', List.rel_append heach heach', List.flatten_append.symm⟩

theorem walkCommands_cons {r : Ref} {refs : List Ref} {cmds cmds' : List (Addr × Str)} (h : Ref.commands lib r = some cmds)
    (h' : walkCommands lib refs = some cmds') : walkCommands lib (r :: refs) = some (cmds ++ cmds') := by
  obtain ⟨each, heach, rfl⟩ := walkCommands_iff.mp h'
  exact walkCommands_iff.mpr ⟨cmds :: each, .cons h heach, rfl⟩

/-- The objects of a list, one list of them after another. -/
theorem walkCommands_flatMap {α β : Type} {f : β → List Ref} {g : α → List (Addr × Str)} : ∀ {l : List α} {m : List β},
    l.length = m.length → (∀ (i : Nat) a b, l[i]? = some a → m[i]? = some b → walkCommands lib (f b) = some (g a)) →
      walkCommands lib (m.flatMap f) = some (l.flatMap g)
  | [], [], _, _ => rfl
  | [], _ :: _, hlen, _ => absurd hlen (by simp)
  | _ :: _, [], hlen, _ => absurd hlen (by simp)
  | a :: l, b :: m, hlen, h => by
    rw [List.flatMap_cons, List.flatMap_cons]
    exact walkCommands_append (h 0 a b rfl rfl) (walkCommands_flatMap (Nat.succ.inj hlen) fun i a b => h (i + 1) a b)

theorem planTags_eq (marks : Addr → Mark) (addr : Addr) (path : Str) (tags : List Node) (i : Nat) :
    planTags marks addr path i tags =
    (tags.zipIdx i).flatMap fun t =>
      plan marks (addr ++ [.tag t.2]) path (path ++ str " " ++ (marks (addr ++ [.tag t.2])).name (t.1.value.getD [])) t.1 := by
  induction tags generalizing i with
  | nil => rw [planTags]; rfl
  | cons t tags ih => rw [planTags, ih, List.zipIdx_cons, List.flatMap_cons]

theorem planChildren_eq (marks : Addr → Mark) (addr : Addr) (path : Str) (children : List (Str × Node)) :
    planChildren marks addr path children =
      children.flatMap fun c => plan marks (addr ++ [.child c.1]) path (path ++ str " " ++ c.1) c.2 := by
  induction children with
  | nil => rw [planChildren]; rfl
  | cons c children ih => rw [planChildren, ih, List.flatMap_cons]

/-- The path of an object that was made again. -/
def PathIs (lib : Library) (parents : List Fields) (path : Str) : Node → Prop
  | .raw _ => False
  | .param _ data _ _ => getMappedPath lib data parents = some path

theorem Built.path_child (htext : Textual lib) {name : Str} {n n' : Node} (hb : Built lib (.child name) n) {addr : Addr}
    (hl : Like marks addr n n') {parent : Fields} {above : List Fields} {path : Str}
    (hpath : getMappedPath lib parent above = some path) : PathIs lib (parent :: above) (path ++ str " " ++ name) n' := by
  cases hb with
  | mk fresh plays =>
    cases hl with
    | mk carries => exact carries.path_child htext plays hpath

theorem Built.path_tag (htext : Textual lib) {v : Str} {n n' : Node} (hb : Built lib (.tag v) n) {addr : Addr}
    (hl : Like marks addr n n') {parent : Fields} {above : List Fields} {path : Str}
    (hpath : getMappedPath lib parent above = some path) :
    PathIs lib (parent :: above) (path ++ str " " ++ (marks addr).name v) n' := by
  cases hb with
  | mk fresh plays =>
    cases hl with
    | mk carries => exact carries.path_tag htext plays hpath

theorem Reordered.value {n n' : Node} (h : Reordered n n') : n'.value = n.value := by
  cases h with
  | same => rfl
  | param => rfl

theorem Reordered.rootPath {n n' : Node} (h : Reordered n n') : rootPath n' = rootPath n := by
  cases h with
  | same => rfl
  | param => rfl

/-- The walk over an object that was made again, and over those below it, in the order they have there. -/
theorem Built.walk (htext : Textual lib) {role : Role} {n : Node} (hb : Built lib role n) :
    ∀ {addr : Addr} {parents : List Fields} {above path : Str} {n' : Node}, Suits marks addr above path n → Like marks addr n n' →
      PathIs lib parents path n' → (∀ v, role = .tag v → path = above ++ str " " ++ (marks addr).name v) →
        ∃ n₂, Reordered n n₂ ∧ walkCommands lib (recursiveWalk addr parents n') = some (plan marks addr above path n₂) := by
  induction hb with
  | @mk role cls data children tags fresh plays distinct tagged plain valued below belowTag ih ihTag =>
    intro addr parents above path n' hsuits hl hpath hname
    cases hl with
    | @mk _ _ _ data' _ children' _ tags' carries names like number likeTag =>
    cases hsuits with
    | mk own suits suitsTag =>
    have hown : Ref.commands lib ⟨addr, some data', parents⟩ =
        some (((marks addr).commands data above path).map (Prod.mk addr)) :=
      commands_iff.mpr ⟨data', _, rfl, carries.commands htext plays own hpath hname, rfl⟩
    -- the children, in the order in which the walk comes to them
    have hchildren : ∀ c' ∈ children', ∃ c₂ : Str × Node, c₂.1 = c'.1 ∧ (∃ c ∈ children, c.1 = c'.1 ∧ Reordered c.2 c₂.2) ∧
        walkCommands lib (recursiveWalk (addr ++ [.child c'.1]) (data' :: parents) c'.2) =
          some (plan marks (addr ++ [.child c'.1]) path (path ++ str " " ++ c'.1) c₂.2) := by
      intro c' hc'
      obtain ⟨c, hc, heq⟩ := exists_namesake names hc'
      have hlike := like c hc c' hc' heq
      obtain ⟨n₂, hre, hwalk⟩ := ih c hc (suits c hc) hlike ((below c hc).path_child htext hlike hpath) fun v h => nomatch h
      exact ⟨(c'.1, n₂), rfl, ⟨c, hc, heq, hre⟩, heq ▸ hwalk⟩
    have htags : ∀ (i : Nat) t t', tags[i]? = some t → tags'[i]? = some t' → ∃ t₂, Reordered t t₂ ∧
        walkCommands lib (recursiveWalk (addr ++ [.tag i]) (data' :: parents) t') =
          some (plan marks (addr ++ [.tag i]) path
            (path ++ str " " ++ (marks (addr ++ [.tag i])).name (t.value.getD [])) t₂) := by
      intro i t t' ht ht'
      have hmem := List.mem_of_getElem? ht
      obtain ⟨v, hv⟩ := Option.ne_none_iff_exists'.mp (valued t hmem)
      have hlike := likeTag i t t' ht ht'
      have hsuits := suitsTag i t ht
      rw [hv, Option.getD_some] at hsuits ⊢
      exact ihTag t hmem v hv hsuits hlike ((belowTag t hmem v hv).path_tag htext hlike hpath) fun w h => by cases h; rfl
    obtain ⟨children₂, hchildren₂⟩ := forall₂_of_exists hchildren
    obtain ⟨tags₂, hnumber₂, htags₂⟩ := exists_beside number htags
    have hkeys : children₂.map Prod.fst = children'.map Prod.fst := forall₂_keys (hchildren₂.flip.imp fun _ _ h => h.1)
    refine ⟨.param cls data children₂ tags₂, .param (hkeys ▸ names) (fun c hc c₂ hc₂ heq => ?_) hnumber₂
      fun i t t₂ ht ht₂ => ?_, ?_⟩
    · obtain ⟨c', -, heq', ⟨c₀, hc₀, heq₀, hre⟩, -⟩ := exists_of_forall₂ hchildren₂.flip hc₂
      obtain rfl : c₀ = c := List.inj_on_of_nodup_map distinct hc₀ hc (heq₀.trans (heq'.symm.trans heq.symm))
      exact hre
    · have hi := number ▸ (List.getElem?_eq_some_iff.mp ht).1
      exact (htags₂ i t _ t₂ ht (List.getElem?_eq_getElem hi) ht₂).1
    rw [recursiveWalk_eq, plan]
    refine walkCommands_cons hown ?_
    rw [carries.isStatusDeleted_eq]
    by_cases hdel : marks addr = .delete
    · rw [if_pos hdel, if_pos (by simpa using hdel)]
      rfl
    rw [if_neg hdel, if_neg (by simpa using hdel), kids, carries.isTagNode_eq, planTags_eq, planChildren_eq]
    by_cases htag : isTagNode data = true
    · obtain rfl : children₂ = [] := by
        have hlen := names.length_eq
        rw [← hkeys, tagged htag, List.map_nil, List.length_nil, List.length_map] at hlen
        exact List.eq_nil_of_length_eq_zero hlen.symm
      rw [if_pos htag, List.flatMap_nil, List.append_nil, List.flatMap_map]
      refine walkCommands_flatMap (by simp [← hnumber₂, number]) fun i t₂ t' ht₂ ht' => ?_
      rw [List.getElem?_zipIdx, Option.map_eq_some_iff] at ht₂ ht'
      obtain ⟨t₂, ht₂, rfl⟩ := ht₂
      obtain ⟨t', ht', rfl⟩ := ht'
      rw [Nat.zero_add]
      have hi : i < tags.length := hnumber₂ ▸ (List.getElem?_eq_some_iff.mp ht₂).1
      obtain ⟨hre, hwalk⟩ := htags₂ i _ t' t₂ (List.getElem?_eq_getElem hi) ht' ht₂
      rw [hre.value]
      exact hwalk
    · obtain rfl : tags₂ = [] := by
        rw [plain (by simpa using htag), List.length_nil] at hnumber₂
        exact List.eq_nil_of_length_eq_zero hnumber₂.symm
      rw [if_neg htag, List.flatMap_map]
      refine walkCommands_flatMap hchildren₂.length_eq.symm fun i c₂ c' hc₂ hc' => ?_
      obtain ⟨heq, -, hwalk⟩ := forall₂_getElem hchildren₂ i c' c₂ hc' hc₂
      rw [heq]
      exact hwalk

theorem Built.path_root (htext : Textual lib) {n n' : Node} (hb : Built lib .root n) {addr : Addr} (hl : Like marks addr n n') :
    PathIs lib [] (rootPath n) n' := by
  cases hb with
  | mk fresh plays =>
    cases hl with
    | mk carries =>
      obtain ⟨-, path, hcfg⟩ := plays
      rw [rootPath, hcfg]
      exact carries.path_root htext hcfg

/-- An object that was built has a tree. -/
theorem Built.tree {role : Role} {n : Node} (hb : Built lib role n) : ∃ v, n.getDataTree = some v := by
  induction hb with
  | @mk role cls data children tags fresh plays distinct tagged plain valued below belowTag ih ihTag =>
    by_cases hcls : cls = .tag
    · have hall : ∀ t ∈ tags, ∃ v, t.getDataTree = some v := by
        intro t ht
        obtain ⟨w, hw⟩ := Option.ne_none_iff_exists'.mp (valued t ht)
        exact ihTag t ht w hw
      obtain ⟨trees, htrees⟩ := forall₂_of_exists hall
      have helements : elementTrees tags = some trees := by rwa [elementTrees_eq, mapM_iff]
      exact ⟨_, by rw [Node.getDataTree, if_pos hcls, helements]⟩
    · have hno : isTagNode data = false := by
        rw [← Bool.not_eq_true, fresh.tag_iff]
        exact hcls
      have hall : ∀ c ∈ children, ∃ v : Str × JsonValue, c.1 = v.1 ∧ c.2.getDataTree = some v.2 := by
        intro c hc
        obtain ⟨v, hv⟩ := ih c hc
        exact ⟨(c.1, v), rfl, hv⟩
      obtain ⟨trees, htrees⟩ := forall₂_of_exists hall
      obtain rfl := plain hno
      exact ⟨_, by rw [getDataTree_node hcls, memberTrees_iff.mpr htrees]; rfl⟩

theorem ReorderedAll.refl {root : List (Str × Node)} (h : (root.map Prod.fst).Nodup) : ReorderedAll root root := by
  refine ⟨.refl _, fun c hc c' hc' heq => ?_⟩
  obtain rfl : c = c' := List.inj_on_of_nodup_map h hc hc' heq
  exact .same c.2

/-- A member of a message that was parsed, in any order: like one of the tree, or left as it was. -/
def Member (marks : Addr → Mark) (root : List (Str × Node)) (c' : Str × Node) : Prop :=
  (∃ c ∈ root, c.1 = c'.1 ∧ Like marks [.child c'.1] c.2 c'.2) ∨ (c'.1 ∉ root.map Prod.fst ∧ ∃ v, c'.2 = .raw v)

theorem Member.reordered {root : List (Str × Node)} {c' c'' : Str × Node} (h : Member marks root c') (hname : c'.1 = c''.1)
    (hr : Reordered c'.2 c''.2) : Member marks root c'' := by
  rcases h with ⟨c, hc, heq, hlike⟩ | ⟨hno, v, hv⟩
  · exact Or.inl ⟨c, hc, heq.trans hname, hname ▸ hlike.reordered hr⟩
  · refine Or.inr ⟨hname ▸ hno, v, ?_⟩
    rw [hv] at hr
    generalize c''.2 = n at hr ⊢
    cases hr with
    | same => rfl

/-- The members that were sent are parsed. -/
theorem Sent.parsed {root : List (Str × Node)} (hbuilt : ∀ c ∈ root, Built lib .root c.2) {shown sent : Fields}
    (hshown : memberTrees root = some shown) (hs : Sent marks shown sent) : ∃ root', parseMembers lib sent = some root' ∧
      sent.map Prod.fst = root'.map Prod.fst ∧ ∀ c' ∈ root', Member marks root c' := by
  have htrees := memberTrees_iff.mp hshown
  have hkeys : root.map Prod.fst = shown.map Prod.fst := forall₂_keys (htrees.imp fun _ _ h => h.1)
  have heach : ∀ d ∈ sent, ∃ c' : Str × Node, d.1 = c'.1 ∧ (recursiveParse lib d.2).map (Prod.mk d.1) = some c' ∧
      Member marks root c' := by
    intro d hd
    by_cases hin : d.1 ∈ shown.map Prod.fst
    · obtain ⟨u, hu, hname⟩ := List.mem_map.mp hin
      obtain ⟨v, hv, hedits⟩ := hs.edited u hu
      obtain rfl : (u.1, v) = d := List.inj_on_of_nodup_map hs.keys hv hd hname
      obtain ⟨c, hc, heq, htree⟩ := exists_of_forall₂ htrees.flip hu
      obtain ⟨n', hn', hlike⟩ := (hbuilt c hc).parsed ((hbuilt c hc).sends htree hedits)
      exact ⟨(u.1, n'), rfl, by rw [hn']; rfl, Or.inl ⟨c, hc, heq, hlike⟩⟩
    · refine ⟨(d.1, .raw d.2), rfl, ?_, Or.inr ⟨hkeys ▸ hin, d.2, rfl⟩⟩
      rw [recursiveParse_custom (hs.custom d hd hin)]
      rfl
  obtain ⟨root', hroot'⟩ := forall₂_of_exists heach
  refine ⟨root', ?_, forall₂_keys (hroot'.imp fun _ _ h => h.1), fun c' hc' => ?_⟩
  · rw [parseMembers_eq, mapM_iff]
    exact hroot'.imp fun _ _ h => h.2.1
  · obtain ⟨d, -, -, -, hmember⟩ := exists_of_forall₂ hroot'.flip hc'
    exact hmember

/-- The commands of members in any order. -/
theorem members_walk (htext : Textual lib) {root : List (Str × Node)} (hbuilt : ∀ c ∈ root, Built lib .root c.2)
    (hfits : AllFit marks root) : ∀ {l : List (Str × Node)}, (∀ c' ∈ l, Member marks root c') →
      ∃ planned, configCommands lib l = some (planAll marks planned) ∧
        planned.map Prod.fst = (l.map Prod.fst).filter (· ∈ root.map Prod.fst) ∧
        ∀ c₂ ∈ planned, ∃ c ∈ root, c.1 = c₂.1 ∧ Reordered c.2 c₂.2 := by
  intro l
  induction l with
  | nil => exact fun _ => ⟨[], rfl, rfl, fun c hc => absurd hc List.not_mem_nil⟩
  | cons c' l ih =>
    intro hl
    rw [List.forall_mem_cons] at hl
    obtain ⟨planned, hcommands, hnames, hre⟩ := ih hl.2
    obtain ⟨k, n'⟩ := c'
    rcases hl.1 with ⟨c, hc, rfl, hlike⟩ | ⟨hno, v, hv⟩
    · obtain ⟨n₂, hn₂, hwalk⟩ := (hbuilt c hc).walk htext (hfits c hc) hlike ((hbuilt c hc).path_root htext hlike)
        fun v h => nomatch h
      refine ⟨(c.1, n₂) :: planned, ?_, ?_, List.forall_mem_cons.mpr ⟨⟨c, hc, rfl, hn₂⟩, hre⟩⟩
      · rw [configCommands_eq, iterateParams_eq, List.flatMap_cons, if_pos hlike.hangs, ← iterateParams_eq, planAll,
          List.flatMap_cons, hn₂.rootPath]
        exact walkCommands_append hwalk hcommands
      · have hmem : c.1 ∈ root.map Prod.fst := List.mem_map_of_mem hc
        rw [List.map_cons, List.map_cons, List.filter_cons_of_pos (by simpa using hmem), hnames]
    · obtain rfl : n' = .raw v := hv
      refine ⟨planned, ?_, ?_, hre⟩
      · rw [configCommands_eq, iterateParams]
        exact hcommands
      · rw [List.map_cons, List.filter_cons_of_neg (by simpa using hno), hnames]

/-- The tree of the running configuration, marked by a client and sent back, becomes the commands that
    the marks mean, for the order in which the hashes of the message come. -/
theorem edits_are_configured {run : Running} {limit calls : Nat} (htext : Textual lib) (hbools : NoBoolTags run) {path : Str}
    {root : List (Str × Node)} (hbuilt : addTreeFromRunningCfg lib run limit calls path [] = some root) :
    ∃ shown, memberTrees root = some shown ∧ ∀ (marks : Addr → Mark) (sent : Fields) (input : Str), AllFit marks root →
      Sent marks shown sent → lib.fromJson input = some (.object sent) → input.length ≤ maxMsgLen →
        ∃ root', fromInput lib input = some root' ∧ ∀ root'', ReorderedAll root' root'' →
          ∃ planned, ReorderedAll root planned ∧ configCommands lib root'' = some (planAll marks planned) := by
  have hadded := tree_shows_configuration htext hbools hbuilt
  have hroots : ∀ c ∈ root, Built lib .root c.2 := by
    intro c hc
    rcases hadded.only c hc with ⟨hold, -⟩ | ⟨_, -, -, hrooted⟩
    · exact absurd hold List.not_mem_nil
    · exact hrooted.built
  have hdistinct : (root.map Prod.fst).Nodup := hadded.names List.nodup_nil
  have hall : ∀ c ∈ root, ∃ v : Str × JsonValue, c.1 = v.1 ∧ c.2.getDataTree = some v.2 := by
    intro c hc
    obtain ⟨v, hv⟩ := (hroots c hc).tree
    exact ⟨(c.1, v), rfl, hv⟩
  obtain ⟨shown, htrees⟩ := forall₂_of_exists hall
  have hshown : memberTrees root = some shown := memberTrees_iff.mpr htrees
  refine ⟨shown, hshown, fun marks sent input hfits hs hjson hlen => ?_⟩
  obtain ⟨root', hroot', hkeys, hmembers⟩ := hs.parsed hroots hshown
  refine ⟨root', ?_, fun root'' hr => ?_⟩
  · rw [fromInput, fromJsonInput, if_neg (by omega), hjson]
    exact hroot'
  have hmembers' : ∀ c'' ∈ root'', Member marks root c'' := by
    intro c'' hc''
    obtain ⟨c', hc', heq⟩ := exists_namesake hr.names hc''
    exact (hmembers c' hc').reordered heq (hr.below c' hc' c'' hc'' heq)
  obtain ⟨planned, hcommands, hnames, hre⟩ := members_walk htext hroots hfits hmembers'
  have hnodup : (root''.map Prod.fst).Nodup := hr.names.nodup_iff.mp (hkeys ▸ hs.keys)
  refine ⟨planned, ⟨?_, fun c hc c₂ hc₂ heq => ?_⟩, hcommands⟩
  · rw [hnames, List.perm_ext_iff_of_nodup hdistinct (hnodup.filter _)]
    intro k
    rw [List.mem_filter, decide_eq_true_eq]
    refine ⟨fun hk => ⟨?_, hk⟩, fun hk => hk.2⟩
    -- every member that was shown has been sent
    rw [forall₂_keys (htrees.imp fun _ _ h => h.1)] at hk
    obtain ⟨u, hu, rfl⟩ := List.mem_map.mp hk
    obtain ⟨v, hv, -⟩ := hs.edited u hu
    rw [← hr.names.mem_iff, ← hkeys]
    exact List.mem_map.mpr ⟨_, hv, rfl⟩
  · obtain ⟨c₀, hc₀, heq₀, hre⟩ := hre c₂ hc₂
    obtain rfl : c₀ = c := List.inj_on_of_nodup_map hdistinct hc₀ hc (heq₀.trans heq.symm)
    exact hre

end Commands

/-! ## A tag that is renamed, and the value below it -/

section Sample

/-- The tag is renamed from `x` to `y`, and the value below it gets another. -/
def sampleMarks (addr : Addr) : Mark :=
  if addr = [.child (str "a"), .tag 0] then .change (str "y")
  else if addr = [.child (str "a"), .tag 0, .child (str "c")] then .change (str "w")
  else .keep

def editedText : Str :=
  str "\x7b\"a\":\x7b\"param\":true,\"tagnode\":true,\"type\":\"txt\",\"cfg_path\":\"a\",\"tags\":[" ++
  str "\x7b\"param\":true,\"type\":\"txt\",\"tag\":true,\"rel_path\":\"\",\"value\":\"x\",\"new-value\":\"y\"," ++
  str "\"status\":\"changed\",\"children\":\x7b\"c\":" ++
  str "\x7b\"param\":true,\"type\":\"txt\",\"rel_path\":\"c\",\"value\":\"v\",\"new-value\":\"w\",\"status\":\"changed\"" ++
  str "\x7d\x7d\x7d]\x7d\x7d"

def editedLeaf : Fields :=
  [(str "param", .bool true), (str "type", .string (str "txt")), (str "rel_path", .string (str "c")),
    (str "value", .string (str "v")), (str "new-value", .string (str "w")), (str "status", .string (str "changed"))]

def editedTag : Fields :=
  [(str "param", .bool true), (str "type", .string (str "txt")), (str "tag", .bool true), (str "rel_path", .string []),
   (str "value", .string (str "x")), (str "new-value", .string (str "y")), (str "status", .string (str "changed")),
   (str "children", .object [(str "c", .object editedLeaf)])]

def editedNode : Fields :=
  [(str "param", .bool true), (str "tagnode", .bool true), (str "type", .string (str "txt")), (str "cfg_path", .string (str "a")),
   (str "tags", .array [.object editedTag])]

theorem editedText_json : sampleLibrary.fromJson editedText = some (.object [(str "a", .object editedNode)]) := by
  set_option maxRecDepth 4000 in rfl

def shownTag : Fields := builtTag.set (str "children") (.object [(str "c", .object builtLeaf)])

def shownNode : Fields := nodeData.set (str "tags") (.array [.object shownTag])

theorem sampleRoot_shown : memberTrees sampleRoot = some [(str "a", .object shownNode)] := by rfl

/-- Fields that are the same where there is one are the same everywhere. -/
theorem same_fields {fs gs : Fields} (h : ∀ k ∈ fs.map Prod.fst ++ gs.map Prod.fst, k ≠ str "children" → k ≠ str "tags" →
    gs.lookup k = fs.lookup k) : ∀ k, k ≠ str "children" → k ≠ str "tags" → gs.lookup k = fs.lookup k := by
  intro k h₁ h₂
  by_cases hk : k ∈ fs.map Prod.fst ++ gs.map Prod.fst
  · exact h k hk h₁ h₂
  · rw [List.mem_append, not_or] at hk
    rw [Fields.lookup_eq_none hk.1, Fields.lookup_eq_none hk.2]

theorem leaf_edited :
    Edits sampleMarks [.child (str "a"), .tag 0, .child (str "c")] (.object builtLeaf) (.object editedLeaf) := by
  refine .object none none none none (by decide) (same_fields ?_) rfl rfl rfl (.refl _) ?_ rfl rfl rfl ?_
  · have hkeys : (marked (.change (str "w")) builtLeaf).map Prod.fst ++ editedLeaf.map Prod.fst =
        [str "new-value", str "status", str "type", str "param", str "rel_path", str "value", str "param",
          str "type", str "rel_path", str "value", str "new-value", str "status"] := by decide
    show ∀ k ∈ (marked (.change (str "w")) builtLeaf).map Prod.fst ++ editedLeaf.map Prod.fst, _
    rw [hkeys]
    simp only [List.forall_mem_cons]
    exact ⟨fun _ _ => rfl, fun _ _ => rfl, fun _ _ => rfl, fun _ _ => rfl, fun _ _ => rfl, fun _ _ => rfl,
      fun _ _ => rfl, fun _ _ => rfl,
      fun _ _ => rfl, fun _ _ => rfl, fun _ _ => rfl, fun _ _ => rfl, fun _ h => absurd h List.not_mem_nil⟩
  · exact fun c hc => absurd hc List.not_mem_nil
  · exact fun l m i t u hl => absurd hl (by simp)

theorem tag_edited : Edits sampleMarks [.child (str "a"), .tag 0] (.object shownTag) (.object editedTag) := by
  refine .object (some [(str "c", .object builtLeaf)]) (some [(str "c", .object editedLeaf)]) none none
    (by decide) (same_fields ?_)
    rfl rfl rfl (.refl _) ?_ rfl rfl rfl ?_
  · have hkeys : (marked (.change (str "y")) shownTag).map Prod.fst ++ editedTag.map Prod.fst =
        [str "new-value", str "status", str "children", str "type", str "param", str "rel_path", str "tag", str "value",
          str "param", str "type", str "tag", str "rel_path", str "value", str "new-value", str "status",
            str "children"] := by decide
    show ∀ k ∈ (marked (.change (str "y")) shownTag).map Prod.fst ++ editedTag.map Prod.fst, _
    rw [hkeys]
    simp only [List.forall_mem_cons]
    exact ⟨fun _ _ => rfl, fun _ _ => rfl, fun h => absurd rfl h, fun _ _ => rfl, fun _ _ => rfl, fun _ _ => rfl, fun _ _ => rfl,
      fun _ _ => rfl, fun _ _ => rfl, fun _ _ => rfl, fun _ _ => rfl, fun _ _ => rfl, fun _ _ => rfl,
        fun _ _ => rfl, fun _ _ => rfl,
      fun h => absurd rfl h, fun _ h => absurd h List.not_mem_nil⟩
  · intro c hc d hd _
    obtain rfl := List.mem_singleton.mp hc
    obtain rfl := List.mem_singleton.mp hd
    exact leaf_edited
  · exact fun l m i t u hl => absurd hl (by simp)

theorem node_edited : Edits sampleMarks [.child (str "a")] (.object shownNode) (.object editedNode) := by
  refine .object none none (some [.object shownTag]) (some [.object editedTag]) (by decide) (same_fields ?_) rfl rfl rfl
    (.refl _) ?_ rfl rfl rfl ?_
  · have hkeys : (marked .keep shownNode).map Prod.fst ++ editedNode.map Prod.fst =
        [str "tags", str "tagnode", str "type", str "param", str "cfg_path",
          str "param", str "tagnode", str "type", str "cfg_path", str "tags"] := by decide
    show ∀ k ∈ (marked .keep shownNode).map Prod.fst ++ editedNode.map Prod.fst, _
    rw [hkeys]
    simp only [List.forall_mem_cons]
    exact ⟨fun _ h => absurd rfl h, fun _ _ => rfl, fun _ _ => rfl, fun _ _ => rfl, fun _ _ => rfl,
      fun _ _ => rfl, fun _ _ => rfl,
      fun _ _ => rfl, fun _ _ => rfl, fun _ h => absurd rfl h, fun _ h => absurd h List.not_mem_nil⟩
  · exact fun c hc => absurd hc List.not_mem_nil
  · intro l m i t u hl hm ht hu
    obtain rfl := Option.some.inj hl
    obtain rfl := Option.some.inj hm
    cases i with
    | zero =>
      obtain rfl := Option.some.inj ht
      obtain rfl := Option.some.inj hu
      exact tag_edited
    | succ i => exact absurd ht (by simp)

def leafNode : Node := .param .txt builtLeaf [] []

def tagNode : Node := .param .txt builtTag [(str "c", leafNode)] []

theorem sample_fits : AllFit sampleMarks sampleRoot := by
  have hleaf : Suits sampleMarks [.child (str "a"), .tag 0, .child (str "c")] (str "a y") (str "a y c") leafNode :=
    .mk ⟨rfl, fun _ => rfl, fun h => absurd h (by decide)⟩ (fun c hc => absurd hc List.not_mem_nil)
      fun i t ht => absurd ht (by simp)
  have htag : Suits sampleMarks [.child (str "a"), .tag 0] (str "a") (str "a y") tagNode := by
    refine .mk ⟨rfl, fun h => absurd h (by decide), fun _ => ⟨by decide, [str "a"], by decide, by decide, rfl⟩⟩ (fun c hc => ?_)
      fun i t ht => absurd ht (by simp)
    obtain rfl := List.mem_singleton.mp hc
    exact hleaf
  intro c hc
  obtain rfl : c = (str "a", .param .tag nodeData [] [tagNode]) := List.mem_singleton.mp hc
  refine .mk trivial (fun c hc => absurd hc List.not_mem_nil) fun i t ht => ?_
  cases i with
  | zero =>
    obtain rfl := Option.some.inj ht
    exact htag
  | succ i => exact absurd ht (by simp)

theorem sample_sent : Sent sampleMarks [(str "a", .object shownNode)] [(str "a", .object editedNode)] := by
  refine ⟨by decide, fun c hc => ?_, fun d hd hno => ?_⟩
  · obtain rfl := List.mem_singleton.mp hc
    exact ⟨_, List.mem_singleton_self _, node_edited⟩
  · obtain rfl := List.mem_singleton.mp hd
    exact absurd (List.mem_singleton_self _) hno

/-- The tag is moved, and the value set below its new name. -/
theorem a_renamed_tag_is_configured :
    ∃ root' planned, fromInput sampleLibrary editedText = some root' ∧ ReorderedAll sampleRoot planned ∧
    configCommands sampleLibrary root' = some (planAll sampleMarks planned) ∧ planAll sampleMarks planned =
      [([.child (str "a"), .tag 0], str "move a x to y"),
        ([.child (str "a"), .tag 0, .child (str "c")], str "set a y c 'w'")] := by
  obtain ⟨shown, hshown, hedits⟩ := edits_are_configured sampleLibrary_textual sampleRun_noBoolTags sampleRoot_built
  obtain rfl : [(str "a", .object shownNode)] = shown := Option.some.inj (sampleRoot_shown.symm.trans hshown)
  have hlen : editedText.length ≤ maxMsgLen := by decide +kernel
  obtain ⟨root', hroot', hany⟩ := hedits sampleMarks _ editedText sample_fits sample_sent editedText_json hlen
  have hmembers : parseMembers sampleLibrary [(str "a", .object editedNode)] = some root' := by
    rw [fromInput, fromJsonInput, if_neg (by omega), editedText_json] at hroot'
    exact hroot'
  have hone : (root'.map Prod.fst).Nodup := by
    have hnames : (parseMembers sampleLibrary [(str "a", .object editedNode)]).map (List.map Prod.fst) = some [str "a"] := by rfl
    rw [hmembers] at hnames
    obtain heq : root'.map Prod.fst = [str "a"] := Option.some.inj hnames
    rw [heq]
    decide
  obtain ⟨planned, hplanned, hcommands⟩ := hany root' (.refl hone)
  have hshow : (parseMembers sampleLibrary [(str "a", .object editedNode)]).bind (configCommands sampleLibrary) = some
      [([.child (str "a"), .tag 0], str "move a x to y"),
        ([.child (str "a"), .tag 0, .child (str "c")], str "set a y c 'w'")] := by
    rfl
  rw [hmembers, Option.bind_some, hcommands, Option.some.injEq] at hshow
  exact ⟨root', planned, hroot', hplanned, hcommands, hshow⟩

end Sample

end VyattaRest.App
