/-
  VyattaRest.AppFailure — commands of an application message that fail (App/MsgSimple.pm,
  `_set_elem` and `run_cmd`).

  `run_cmd` keeps the error of a command in the hash `_values` that the command is about. If it
  has no key for the value, it has one then, and `_set_elem` goes on with the keys that are there
  when it comes to the children.
  - `confined_iff`: commands stay under values of the request exactly when none fails that gives
    a hash a value of which the children have something to delete, and no error hides a field
    that the request has under its name.
  - `children_of_a_value_that_stays`: a deletion that fails.
-/

import VyattaRest.AppReconcile
import VyattaRest.Lib.OrdMap

namespace VyattaRest.MsgSimple

open VyattaRest.Lib

/-! ## `run_cmd` -/

/-- `$d->{$elem}->{_values}`, if there is one. -/
def Data.hash : Data → Str → Option (List (Str × Data))
  | mk fields, elem => fields.lookup elem

/-- With an error in it, which takes the place of a field and has no values of its own. -/
def Data.annotated : Data → Data
  | mk fields => mk (fields.filter (·.1 ≠ str "_error"))

namespace Failure

/-- The elements and values on the way to a map. -/
abbrev Trail := List (Str × Str)

/-- A command with what it is for: the trail to its map, the element, and `$value`. -/
structure Cmd where
  text : Str
  under : Trail
  elem : Str
  value : Option Str
  deriving DecidableEq

inductive Step where
  | run (cmd : Cmd)
  | callback (elem : Str) (loc : Option Str)
  deriving DecidableEq

def Step.event : Step → Event
  | run cmd => .run cmd.text
  | callback elem loc => .callback elem loc

def Step.cmd? : Step → Option Cmd
  | run cmd => some cmd
  | callback _ _ => none

def commands (steps : List Step) : List Cmd := steps.filterMap Step.cmd?

/-- `$node->{$value}->{_error} = $err_hash`. -/
def annotate (value : Str) : List (Str × Data) → List (Str × Data)
  | [] => [(value, .mk [])]
  | v :: node => if v.1 = value then (v.1, v.2.annotated) :: node else v :: annotate value node

/-- What a command that fails with a message leaves in `$node`. -/
def runCmd (failed : Cmd → Bool) (node : Option (List (Str × Data))) (c : Cmd) : Option (List (Str × Data)) :=
  if failed c then node.map fun node => c.value.elim node fun value => annotate value node else node

/-! ## `_set_elem` -/

def deleteCmd (under : Trail) (elem param k : Str) : Cmd := ⟨str "delete " ++ param ++ str " " ++ k, under, elem, some k⟩

def setCmd (under : Trail) (elem param k : Str) : Cmd := ⟨str "set " ++ param ++ str " " ++ k, under, elem, some k⟩

def clearCmd (under : Trail) (elem param : Str) : Cmd := ⟨str "delete " ++ param, under, elem, none⟩

def leafCmd (under : Trail) (elem param v : Str) : Cmd :=
  let val := stripTrailing v
  if v.contains 32 then ⟨str "set " ++ param ++ str " \\\"" ++ val ++ str "\\\"", under, elem, some val⟩
  else ⟨str "set " ++ param ++ str " " ++ val, under, elem, some val⟩

section SetElem

variable (h : Host) (failed : Cmd → Bool)

def diffCmds (under : Trail) (elem param : Str) (form : List Str) : List Cmd :=
  let conf := h.running.children (wordsOf param)
  let diff := remove (assign [] conf) form
  let deletes := (h.keys (str "delete " ++ param) diff).map (deleteCmd under elem param)
  let diff := remove (assign diff form) conf
  let sets := (h.keys (str "set " ++ param) diff).map (setCmd under elem param)
  deletes ++ sets

def leafCmds (under : Trail) (elem param : Str) (form : List Str) : List Cmd :=
  match form with
  | [] => [clearCmd under elem param]
  | v :: _ =>
    if stripTrailing v = [] then [clearCmd under elem param]
    else if wordsOf (param ++ str " " ++ stripTrailing v) ∈ h.running then []
    else [leafCmd under elem param v]

def elemCmds (under : Trail) (elem param : Str) (form : List Str) : List Cmd :=
  match h.tmpl (wordsOf param) with
  | .tag | .multi => diffCmds h under elem param form
  | .single => leafCmds h under elem param form

def keysOf (d : Data) (elem : Str) : List Str := (d.values elem).map Prod.fst

/-- `_values` behind the commands of an element. -/
def after (under : Trail) (elem param : Str) (d : Data) : List (Str × Data) :=
  ((elemCmds h under elem param (keysOf d elem)).foldl (runCmd failed) (d.hash elem)).getD []

/-- The values whose children come next. A key that is new may move the others. -/
def visits (under : Trail) (elem param : Str) (d : Data) : List (Str × Data) :=
  let vals := after h failed under elem param d
  let keys := vals.map Prod.fst
  let keys := if keys.length = (keysOf d elem).length then keys else h.keys (str "visit " ++ param) keys
  keys.filterMap fun k => (vals.lookup k).map fun d' => (k, d')

def around (m : List Elem) (loc : Option Str) (steps : List Step) : List Step :=
  let call (name : Str) : List Step := if m.any (·.name = name) then [.callback name loc] else []
  call (str "callback_first") ++ steps ++ call (str "callback_last")

mutual

def setElems : List Elem → Data → Option Str → Trail → List Step
  | [], _, _, _ => []
  | e :: m, d, loc, under => setOne e d loc under ++ setElems m d loc under

/-- One round of the loop over the map. -/
def setOne : Elem → Data → Option Str → Trail → List Step
  | .mk name location callback children, d, loc, under =>
    match location with
    | some location =>
      let param := paramLoc loc location
      if hasParameter param then []
      else
        (elemCmds h under name param (keysOf d name)).map .run ++
          if children.isEmpty then []
          else (visits h failed under name param d).flatMap fun v =>
            around children (some (param ++ str " " ++ v.1))
              (setElems children v.2 (some (param ++ str " " ++ v.1)) (under ++ [(name, v.1)]))
    | none =>
      if callback && name ≠ str "callback_first" && name ≠ str "callback_last" then [.callback name loc] else []

end

/-- `_set_elem`, of which the commands in `failed` fail. -/
def setElem (m : List Elem) (d : Data) : List Step := around m none (setElems h failed m d none [])

end SetElem

/-! ## Places -/

/-- A round of the loop over the map that has a location, with it. -/
structure Round (m : List Elem) (loc : Option Str) (e : Elem) (param : Str) : Prop where
  mem : e ∈ m
  located : ∃ location, e.location = some location ∧ param = paramLoc loc location
  plain : hasParameter param = false

section Places

variable (h : Host) (failed : Cmd → Bool)

/-- A trail through the map and the request, to what is at its end. -/
inductive Occurs (m : List Elem) (d : Data) : Trail → List Elem → Data → Option Str → Prop where
  | root : Occurs m d [] m d none
  | deeper {under : Trail} {m' : List Elem} {d' d'' : Data} {loc : Option Str} {e : Elem} {param v : Str}
      (above : Occurs m d under m' d' loc) (hr : Round m' loc e param) (hv : (d'.values e.name).lookup v = some d'') :
      Occurs m d (under ++ [(e.name, v)]) e.children d'' (some (param ++ str " " ++ v))

/-- The same with the data that the loop finds there, if some commands have failed. -/
inductive Reached (m : List Elem) (d : Data) : Trail → List Elem → Data → Option Str → Prop where
  | root : Reached m d [] m d none
  | deeper {under : Trail} {m' : List Elem} {d' d'' : Data} {loc : Option Str} {e : Elem} {param v : Str}
      (above : Reached m d under m' d' loc) (hr : Round m' loc e param) (hv : v ∈ keysOf d' e.name)
      (hd : (after h failed under e.name param d').lookup v = some d'') :
      Reached m d (under ++ [(e.name, v)]) e.children d'' (some (param ++ str " " ++ v))

/-- The commands for an element that is to have the values. -/
inductive Asked (under : Trail) (elem param : Str) (values : List Str) : Cmd → Prop where
  | omitted {k : Str} (hk : h.tmpl (wordsOf param) ≠ .single) (hrun : k ∈ h.running.children (wordsOf param))
      (hform : k ∉ values) : Asked under elem param values (deleteCmd under elem param k)
  | set {v : Str} (hk : h.tmpl (wordsOf param) ≠ .single) (hform : v ∈ values) :
      Asked under elem param values (setCmd under elem param v)
  | clear (hk : h.tmpl (wordsOf param) = .single) : Asked under elem param values (clearCmd under elem param)
  | replace {v : Str} (hk : h.tmpl (wordsOf param) = .single) (hform : v ∈ values) :
      Asked under elem param values (leafCmd under elem param v)

/-- A command for a location of the map under values of the request. -/
def Placed (m : List Elem) (d : Data) (c : Cmd) : Prop :=
  ∃ m' d' loc e param, Occurs m d c.under m' d' loc ∧ Round m' loc e param ∧ Asked h c.under e.name param (keysOf d' e.name) c

/-- No command is out of place, and none comes twice. -/
structure Confined (m : List Elem) (d : Data) : Prop where
  placed : ∀ c ∈ commands (setElem h failed m d), Placed h m d c
  once : (commands (setElem h failed m d)).Nodup

/-- A command that fails for a value that is no key of `_values`. -/
inductive Widens (under : Trail) (elem param : Str) (keys : List Str) : Str → Prop where
  | omitted {k : Str} (hk : h.tmpl (wordsOf param) ≠ .single) (hrun : k ∈ h.running.children (wordsOf param)) (hform : k ∉ keys)
      (hfail : failed (deleteCmd under elem param k) = true) : Widens under elem param keys k
  | stripped {v : Str} {rest : List Str} (hk : h.tmpl (wordsOf param) = .single) (hkeys : keys = v :: rest)
      (hne : stripTrailing v ≠ []) (hrun : wordsOf (param ++ str " " ++ stripTrailing v) ∉ h.running)
      (hform : stripTrailing v ∉ keys) (hfail : failed (leafCmd under elem param v) = true) :
      Widens under elem param keys (stripTrailing v)

/-- The elements of a map have something to delete if no value is asked for. -/
def Clears (m : List Elem) (loc : Str) : Prop :=
  ∃ e param, Round m (some loc) e param ∧ (h.tmpl (wordsOf param) = .single ∨ h.running.children (wordsOf param) ≠ [])

/-- The data at the end of a trail. -/
def Data.found : Data → Trail → Option Data
  | d, [] => some d
  | d, (elem, v) :: t => ((d.values elem).lookup v).bind fun d' => Data.found d' t

/-- The failures that the loop does not notice. -/
structure Narrow (m : List Elem) (d : Data) : Prop where
  kept : ∀ {under : Trail} {m' : List Elem} {d' : Data} {loc : Option Str} {e : Elem} {param k : Str},
    Reached h failed m d under m' d' loc → Round m' loc e param → (d'.hash e.name).isSome →
      Widens h failed under e.name param (keysOf d' e.name) k → ¬ Clears h e.children (param ++ str " " ++ k)
  seen : ∀ {under : Trail} {m' : List Elem} {d' d₀ : Data} {loc : Option Str} {e : Elem} {param k : Str},
    Reached h failed m d under m' d' loc → Round m' loc e param → Data.found d under = some d₀ →
      h.tmpl (wordsOf param) ≠ .single → k ∈ h.running.children (wordsOf param) → k ∈ keysOf d₀ e.name → k ∈ keysOf d' e.name

end Places

/-! ## What the commands leave in `_values` -/

section Values

variable {h : Host} {failed : Cmd → Bool} {under : Trail} {elem param v : Str} {d : Data}

theorem values_eq (d : Data) (elem : Str) : d.values elem = (d.hash elem).getD [] := by
  cases d with
  | mk fields => rfl

theorem annotated_annotated (d : Data) : d.annotated.annotated = d.annotated := by
  cases d with
  | mk fields =>
    rw [Data.annotated, Data.annotated, List.filter_filter]
    simp only [Bool.and_self]

theorem hash_annotated : d.annotated.hash elem = if elem = str "_error" then none else d.hash elem := by
  cases d with
  | mk fields =>
    show (fields.filter fun f => decide (f.1 ≠ str "_error")).lookup elem = _
    rw [lookup_filter (fun name => decide (name ≠ str "_error"))]
    by_cases he : elem = str "_error"
    · rw [if_pos he, if_neg (by simpa using he)]
    · rw [if_neg he, if_pos (by simpa using he)]
      rfl

theorem lookup_annotate (value : Str) (node : List (Str × Data)) : (annotate value node).lookup v =
    if v = value then some ((node.lookup v).getD (.mk [])).annotated else node.lookup v := by
  induction node with
  | nil =>
    rw [annotate, lookup_cons_eq]
    rfl
  | cons w node ih =>
    rw [annotate]
    split
    · rename_i hw
      rw [lookup_cons_eq, lookup_cons_eq, ← hw]
      split
      · rfl
      · rfl
    · rename_i hw
      rw [lookup_cons_eq, lookup_cons_eq, ih]
      split
      · rename_i hv
        rw [if_neg (hv ▸ hw)]
      · rfl

/-- A failure for a value. -/
def Left (failed : Cmd → Bool) (cmds : List Cmd) (v : Str) : Prop := ∃ c ∈ cmds, failed c = true ∧ c.value = some v

instance (failed : Cmd → Bool) (cmds : List Cmd) (v : Str) : Decidable (Left failed cmds v) :=
  inferInstanceAs (Decidable (∃ c ∈ cmds, _))

theorem ran_none (cmds : List Cmd) : cmds.foldl (runCmd failed) none = none := by
  induction cmds with
  | nil => rfl
  | cons c cmds ih =>
    rw [List.foldl_cons, runCmd, Option.map_none, ite_self, ih]

theorem left_cons {c : Cmd} {cmds : List Cmd} :
    Left failed (c :: cmds) v ↔ (failed c = true ∧ c.value = some v) ∨ Left failed cmds v := by
  rw [Left, Left]
  simp only [List.mem_cons, exists_eq_or_imp]

variable (failed v) in
theorem lookup_ran (cmds : List Cmd) (vals : List (Str × Data)) : ∃ vals', cmds.foldl (runCmd failed) (some vals) = some vals' ∧
    vals'.lookup v = if Left failed cmds v then some ((vals.lookup v).getD (.mk [])).annotated else vals.lookup v := by
  induction cmds generalizing vals with
  | nil =>
    refine ⟨vals, rfl, (if_neg ?_).symm⟩
    rintro ⟨c, hc, -⟩
    cases hc
  | cons c cmds ih =>
    rw [List.foldl_cons, runCmd]
    have hsame : ¬ (failed c = true ∧ c.value = some v) → (Left failed (c :: cmds) v ↔ Left failed cmds v) := fun hno =>
      left_cons.trans (or_iff_right hno)
    by_cases hf : failed c = true
    · rw [if_pos hf, Option.map_some]
      rcases hval : c.value with _ | w
      · simp only [hsame fun hno => by rw [hval] at hno; cases hno.2]
        exact ih vals
      · obtain ⟨vals', hrun, hlook⟩ := ih (annotate w vals)
        refine ⟨vals', hrun, hlook.trans ?_⟩
        rw [lookup_annotate]
        by_cases hv : v = w
        · rw [if_pos hv, if_pos (left_cons.mpr (Or.inl ⟨hf, by rw [hval, hv]⟩)), Option.getD_some, annotated_annotated, ite_self]
        · have hne : ¬ (failed c = true ∧ c.value = some v) := by
            rw [hval]
            rintro ⟨-, heq⟩
            exact hv (Option.some.inj heq).symm
          simp only [if_neg hv, hsame hne]
    · rw [if_neg hf]
      simp only [hsame fun hno => hf hno.1]
      exact ih vals

/-- The data of a value behind the commands of its element. -/
theorem lookup_after : (after h failed under elem param d).lookup v = (d.hash elem).bind fun vals =>
    if Left failed (elemCmds h under elem param (keysOf d elem)) v then some ((vals.lookup v).getD (.mk [])).annotated
    else vals.lookup v := by
  rw [after]
  rcases d.hash elem with _ | vals
  · rw [ran_none]
    rfl
  · obtain ⟨vals', hrun, hlook⟩ := lookup_ran failed v (elemCmds h under elem param (keysOf d elem)) vals
    rw [hrun]
    exact hlook

theorem mem_visits {d' : Data} : (v, d') ∈ visits h failed under elem param d ↔
    (after h failed under elem param d).lookup v = some d' := by
  have hkeys : ∀ keys : List Str, (v ∈ keys ↔ v ∈ (after h failed under elem param d).map Prod.fst) →
      ((v, d') ∈ keys.filterMap (fun k => ((after h failed under elem param d).lookup k).map fun d' => (k, d')) ↔
        (after h failed under elem param d).lookup v = some d') := by
    intro keys hk
    rw [List.mem_filterMap]
    constructor
    · rintro ⟨k, -, hv⟩
      obtain ⟨d'', hlook, heq⟩ := Option.map_eq_some_iff.mp hv
      cases heq
      exact hlook
    · intro hlook
      exact ⟨v, hk.mpr (mem_keys_iff.mpr ⟨d', hlook⟩), by rw [hlook]; rfl⟩
  rw [visits]
  refine hkeys _ ?_
  split
  · rfl
  · exact (h.keys_perm _ _).mem_iff

end Values

/-! ## The commands of an element -/

section Commands

variable {h : Host} {failed : Cmd → Bool} {under : Trail} {elem param k : Str} {form : List Str} {c : Cmd}

theorem mem_diffCmds : c ∈ diffCmds h under elem param form ↔
    (∃ k ∈ h.running.children (wordsOf param), k ∉ form ∧ c = deleteCmd under elem param k) ∨
      ∃ k ∈ form, k ∉ h.running.children (wordsOf param) ∧ c = setCmd under elem param k := mem_differences

theorem elemCmds_diff (hk : h.tmpl (wordsOf param) ≠ .single) :
    elemCmds h under elem param form = diffCmds h under elem param form := by
  rw [elemCmds]
  split
  · rfl
  · rfl
  · exact absurd ‹_› hk

theorem elemCmds_leaf (hk : h.tmpl (wordsOf param) = .single) :
    elemCmds h under elem param form = leafCmds h under elem param form := by
  rw [elemCmds, hk]

theorem leafCmd_about (under : Trail) (elem param v : Str) : (leafCmd under elem param v).under = under ∧
    (leafCmd under elem param v).elem = elem ∧ (leafCmd under elem param v).value = some (stripTrailing v) := by
  rw [leafCmd]
  split <;> exact ⟨rfl, rfl, rfl⟩

theorem mem_leafCmds : c ∈ leafCmds h under elem param form ↔
    (c = clearCmd under elem param ∧ ∀ v rest, form = v :: rest → stripTrailing v = []) ∨
      ∃ v rest, form = v :: rest ∧ stripTrailing v ≠ [] ∧ wordsOf (param ++ str " " ++ stripTrailing v) ∉ h.running ∧
        c = leafCmd under elem param v := by
  cases form with
  | nil =>
    rw [leafCmds, List.mem_singleton]
    constructor
    · exact fun hc => Or.inl ⟨hc, fun v rest heq => by cases heq⟩
    · rintro (⟨hc, -⟩ | ⟨v, rest, heq, -⟩)
      · exact hc
      · cases heq
  | cons v rest =>
    rw [leafCmds]
    by_cases hval : stripTrailing v = []
    · rw [if_pos hval, List.mem_singleton]
      constructor
      · refine fun hc => Or.inl ⟨hc, fun w rest' heq => ?_⟩
        cases heq
        exact hval
      · rintro (⟨hc, -⟩ | ⟨w, rest', heq, hne, -⟩)
        · exact hc
        · cases heq
          exact absurd hval hne
    · rw [if_neg hval]
      by_cases hrun : wordsOf (param ++ str " " ++ stripTrailing v) ∈ h.running
      · rw [if_pos hrun]
        constructor
        · intro hc
          cases hc
        · rintro (⟨-, hall⟩ | ⟨w, rest', heq, -, hnot, -⟩)
          · exact absurd (hall v rest rfl) hval
          · cases heq
            exact absurd hrun hnot
      · rw [if_neg hrun, List.mem_singleton]
        constructor
        · exact fun hc => Or.inr ⟨v, rest, rfl, hval, hrun, hc⟩
        · rintro (⟨-, hall⟩ | ⟨w, rest', heq, -, -, hc⟩)
          · exact absurd (hall v rest rfl) hval
          · cases heq
            exact hc

theorem asked_of_mem (hc : c ∈ elemCmds h under elem param form) : Asked h under elem param form c := by
  by_cases hk : h.tmpl (wordsOf param) = .single
  · rw [elemCmds_leaf hk, mem_leafCmds] at hc
    rcases hc with ⟨rfl, -⟩ | ⟨v, rest, rfl, -, -, rfl⟩
    · exact .clear hk
    · exact .replace hk List.mem_cons_self
  · rw [elemCmds_diff hk, mem_diffCmds] at hc
    rcases hc with ⟨k, hrun, hform, rfl⟩ | ⟨k, hform, -, rfl⟩
    · exact .omitted hk hrun hform
    · exact .set hk hform

/-- The commands of an element are about it, and know its trail. -/
theorem Asked.about (hc : Asked h under elem param form c) : c.under = under ∧ c.elem = elem := by
  cases hc with
  | omitted => exact ⟨rfl, rfl⟩
  | set => exact ⟨rfl, rfl⟩
  | clear => exact ⟨rfl, rfl⟩
  | replace => exact ⟨(leafCmd_about _ _ _ _).1, (leafCmd_about _ _ _ _).2.1⟩

/-- A key that comes in with an error comes from a command that widens. -/
theorem left_iff (hform : k ∉ form) :
    Left failed (elemCmds h under elem param form) k ↔ Widens h failed under elem param form k := by
  constructor
  · rintro ⟨c, hc, hf, hval⟩
    by_cases hk : h.tmpl (wordsOf param) = .single
    · rw [elemCmds_leaf hk, mem_leafCmds] at hc
      rcases hc with ⟨rfl, -⟩ | ⟨v, rest, hkeys, hne, hrun, rfl⟩
      · cases hval
      · rw [(leafCmd_about _ _ _ _).2.2] at hval
        cases hval
        exact .stripped hk hkeys hne hrun hform hf
    · rw [elemCmds_diff hk, mem_diffCmds] at hc
      rcases hc with ⟨k', hrun, -, rfl⟩ | ⟨k', hmem, -, rfl⟩
      · cases hval
        exact .omitted hk hrun hform hf
      · cases hval
        exact absurd hmem hform
  · intro hw
    cases hw with
    | omitted hk hrun _ hf =>
      refine ⟨_, ?_, hf, rfl⟩
      rw [elemCmds_diff hk, mem_diffCmds]
      exact Or.inl ⟨_, hrun, hform, rfl⟩
    | stripped hk hkeys hne hrun _ hf =>
      refine ⟨_, ?_, hf, (leafCmd_about _ _ _ _).2.2⟩
      rw [elemCmds_leaf hk, mem_leafCmds]
      exact Or.inr ⟨_, _, hkeys, hne, hrun, rfl⟩

/-- What an element has to do that no value is asked for. -/
theorem exists_elemCmds_nil : (∃ c, c ∈ elemCmds h under elem param []) ↔
    h.tmpl (wordsOf param) = .single ∨ h.running.children (wordsOf param) ≠ [] := by
  by_cases hk : h.tmpl (wordsOf param) = .single
  · rw [elemCmds_leaf hk]
    exact iff_of_true ⟨_, List.mem_singleton_self _⟩ (Or.inl hk)
  · rw [elemCmds_diff hk, or_iff_right hk]
    constructor
    · rintro ⟨c, hc⟩
      rcases mem_diffCmds.mp hc with ⟨k, hrun, -⟩ | ⟨k, hform, -⟩
      · exact List.ne_nil_of_mem hrun
      · cases hform
    · intro hne
      obtain ⟨k, hrun⟩ := List.exists_mem_of_ne_nil _ hne
      exact ⟨_, mem_diffCmds.mpr (Or.inl ⟨k, hrun, List.not_mem_nil, rfl⟩)⟩

end Commands

/-! ## The commands of a map -/

/-- What holds of a map if it holds of those below it holds of every map. -/
theorem map_induction {P : List Elem → Prop} (hstep : ∀ m, (∀ e ∈ m, P e.children) → P m) (m : List Elem) : P m := by
  have hsize : ∀ n, ∀ m : List Elem, sizeOf m < n → P m := by
    intro n
    induction n with
    | zero => exact fun m hm => absurd hm (Nat.not_lt_zero _)
    | succ n ih =>
      intro m hm
      refine hstep m fun e he => ih _ ?_
      have hmem := List.sizeOf_lt_of_mem he
      have hbelow : sizeOf e.children < sizeOf e := by
        obtain ⟨name, location, callback, children⟩ := e
        simp only [Elem.children, Elem.mk.sizeOf_spec]
        omega
      omega
  exact hsize _ m (Nat.lt_succ_self _)

section Maps

variable {h : Host} {failed : Cmd → Bool} {under : Trail} {m : List Elem} {d : Data} {loc : Option Str} {c : Cmd}

theorem commands_append (s t : List Step) : commands (s ++ t) = commands s ++ commands t := List.filterMap_append

theorem commands_run (cmds : List Cmd) : commands (cmds.map .run) = cmds := by
  rw [commands, List.filterMap_map]
  exact List.filterMap_some

theorem commands_flatMap {α : Type} (l : List α) (f : α → List Step) :
    commands (l.flatMap f) = l.flatMap fun a => commands (f a) := by
  induction l with
  | nil => rfl
  | cons a l ih => rw [List.flatMap_cons, List.flatMap_cons, commands_append, ih]

theorem commands_around (m : List Elem) (loc : Option Str) (steps : List Step) :
    commands (around m loc steps) = commands steps := by
  have hcall : ∀ name, commands (if m.any (fun e => decide (e.name = name)) then [Step.callback name loc] else []) = [] := by
    intro name
    split <;> rfl
  rw [around, commands_append, commands_append, hcall, hcall, List.nil_append, List.append_nil]

theorem setElems_eq (m : List Elem) (d : Data) (loc : Option Str) (under : Trail) :
    setElems h failed m d loc under = m.flatMap fun e => setOne h failed e d loc under := by
  induction m with
  | nil => rw [setElems]; rfl
  | cons e m ih => rw [setElems, ih, List.flatMap_cons]

/-- The commands of one round. -/
theorem commands_setOne {e : Elem} {param : Str} (hr : Round m loc e param) :
    commands (setOne h failed e d loc under) = elemCmds h under e.name param (keysOf d e.name) ++
      (visits h failed under e.name param d).flatMap fun v =>
        commands (setElems h failed e.children v.2 (some (param ++ str " " ++ v.1)) (under ++ [(e.name, v.1)])) := by
  obtain ⟨location, hl, rfl⟩ := hr.located
  have hplain := hr.plain
  obtain ⟨name, loc', callback, children⟩ := e
  cases hl
  rw [setOne]
  simp only [hplain, Bool.false_eq_true, if_false]
  rw [commands_append, commands_run]
  refine congrArg₂ (· ++ ·) rfl ?_
  cases children with
  | nil =>
    rw [List.isEmpty_nil, if_pos rfl]
    refine (List.flatMap_eq_nil_iff.mpr fun v _ => ?_).symm
    rw [Elem.children, setElems]
    rfl
  | cons c cs =>
    rw [if_neg (by simp), commands_flatMap]
    exact List.flatMap_congr fun v _ => commands_around _ _ _

theorem round_of_mem {e : Elem} (he : e ∈ m) (hc : c ∈ commands (setOne h failed e d loc under)) :
    ∃ param, Round m loc e param := by
  obtain ⟨name, location, callback, children⟩ := e
  cases location with
  | none =>
    rw [setOne] at hc
    split at hc <;> cases hc
  | some location =>
    rw [setOne] at hc
    by_cases hp : hasParameter (paramLoc loc location) = true
    · simp only [hp, if_true] at hc
      cases hc
    · exact ⟨_, he, ⟨location, rfl, rfl⟩, Bool.eq_false_iff.mpr hp⟩

theorem mem_setElems : c ∈ commands (setElems h failed m d loc under) ↔ ∃ e param, Round m loc e param ∧
    (c ∈ elemCmds h under e.name param (keysOf d e.name) ∨
      ∃ v d', (after h failed under e.name param d).lookup v = some d' ∧
        c ∈ commands (setElems h failed e.children d' (some (param ++ str " " ++ v)) (under ++ [(e.name, v)]))) := by
  rw [setElems_eq, commands_flatMap, List.mem_flatMap]
  constructor
  · rintro ⟨e, he, hc⟩
    obtain ⟨param, hr⟩ := round_of_mem he hc
    rw [commands_setOne hr, List.mem_append, List.mem_flatMap] at hc
    refine ⟨e, param, hr, hc.imp id ?_⟩
    rintro ⟨v, hv, hc⟩
    exact ⟨v.1, v.2, mem_visits.mp hv, hc⟩
  · rintro ⟨e, param, hr, hc⟩
    refine ⟨e, hr.mem, ?_⟩
    rw [commands_setOne hr, List.mem_append, List.mem_flatMap]
    refine hc.imp id ?_
    rintro ⟨v, d', hv, hc⟩
    exact ⟨(v, d'), mem_visits.mpr hv, hc⟩

end Maps

/-! ## Commands and the places they are for -/

section Placing

variable {h : Host} {failed : Cmd → Bool} {under : Trail} {m m' : List Elem} {d d' d₀ : Data} {loc : Option Str} {elem v : Str}
  {vals : List (Str × Data)} {c : Cmd}

theorem found_snoc (t : Trail) (d : Data) :
    Data.found d (t ++ [(elem, v)]) = (Data.found d t).bind fun d' => (d'.values elem).lookup v := by
  induction t generalizing d with
  | nil =>
    rw [List.nil_append, Data.found, Data.found, Option.bind_some]
    exact Option.bind_fun_some _
  | cons x t ih =>
    rw [List.cons_append, Data.found, Data.found, Option.bind_assoc]
    exact congrArg _ (funext ih)

theorem Occurs.found (ho : Occurs m d under m' d' loc) : Data.found d under = some d' := by
  induction ho with
  | root => rfl
  | deeper _ _ hv ih => rw [found_snoc, ih, Option.bind_some, hv]

theorem hash_of_noted (hd : d' = d₀ ∨ d' = d₀.annotated) (hv : d'.hash elem = some vals) : d₀.hash elem = some vals := by
  rcases hd with rfl | rfl
  · exact hv
  · rw [hash_annotated] at hv
    split at hv
    · cases hv
    · exact hv

theorem mem_keysOf : v ∈ keysOf d elem ↔ ∃ vals d', d.hash elem = some vals ∧ vals.lookup v = some d' := by
  rw [keysOf, mem_keys_iff, values_eq]
  rcases d.hash elem with _ | vals
  · exact iff_of_false (by rintro ⟨d', hd'⟩; cases hd') (by rintro ⟨vals, d', hv, -⟩; cases hv)
  · exact ⟨fun ⟨d', hd'⟩ => ⟨vals, d', rfl, hd'⟩, fun ⟨_, d', heq, hd'⟩ => ⟨d', (Option.some.inj heq) ▸ hd'⟩⟩

/-- The data of a value of the request, behind the commands, is what it was, with an error at most. -/
theorem after_of_key {param : Str} (hv : v ∈ keysOf d elem) (hd : (after h failed under elem param d).lookup v = some d') :
    ∃ vals d₁, d.hash elem = some vals ∧ vals.lookup v = some d₁ ∧ (d' = d₁ ∨ d' = d₁.annotated) := by
  obtain ⟨vals, d₁, hvals, hlook⟩ := mem_keysOf.mp hv
  refine ⟨vals, d₁, hvals, hlook, ?_⟩
  rw [lookup_after, hvals, Option.bind_some, hlook] at hd
  split at hd
  · exact Or.inr (Option.some.inj hd).symm
  · exact Or.inl (Option.some.inj hd).symm

/-- A value that is not one has nothing but an error. -/
theorem after_of_new {param : Str} (hv : v ∉ keysOf d elem) (hd : (after h failed under elem param d).lookup v = some d') :
    d' = .mk [] ∧ (d.hash elem).isSome ∧ Widens h failed under elem param (keysOf d elem) v := by
  rw [lookup_after] at hd
  obtain ⟨vals, hvals, hd⟩ := Option.bind_eq_some_iff.mp hd
  have hnone : vals.lookup v = none := by
    rcases hlook : vals.lookup v with _ | d₁
    · rfl
    · exact absurd (mem_keysOf.mpr ⟨vals, d₁, hvals, hlook⟩) hv
  rw [hnone] at hd
  split at hd
  · rename_i hleft
    cases hd
    exact ⟨rfl, Option.isSome_iff_exists.mpr ⟨vals, hvals⟩, (left_iff hv).mp hleft⟩
  · cases hd

theorem after_of_widens {param : Str} (hv : v ∉ keysOf d elem) (hvals : d.hash elem = some vals)
    (hw : Widens h failed under elem param (keysOf d elem) v) : (after h failed under elem param d).lookup v = some (.mk []) := by
  have hnone : vals.lookup v = none := by
    rcases hlook : vals.lookup v with _ | d₁
    · rfl
    · exact absurd (mem_keysOf.mpr ⟨vals, d₁, hvals, hlook⟩) hv
  rw [lookup_after, hvals, Option.bind_some, if_pos ((left_iff hv).mpr hw), hnone]
  rfl

/-- What is reached is in the request, with an error at most. -/
theorem Reached.occurs (hr : Reached h failed m d under m' d' loc) :
    ∃ d₀, Occurs m d under m' d₀ loc ∧ (d' = d₀ ∨ d' = d₀.annotated) := by
  induction hr with
  | root => exact ⟨d, .root, Or.inl rfl⟩
  | deeper _ hround hv hd ih =>
    obtain ⟨d₀, ho, hnoted⟩ := ih
    obtain ⟨vals, d₁, hvals, hlook, hd₁⟩ := after_of_key hv hd
    refine ⟨d₁, .deeper ho hround ?_, hd₁⟩
    rw [values_eq, hash_of_noted hnoted hvals]
    exact hlook

/-- The commands at a place that is reached are commands of the run. -/
theorem Reached.commands (hr : Reached h failed m d under m' d' loc) (hc : c ∈ commands (setElems h failed m' d' loc under)) :
    c ∈ commands (setElem h failed m d) := by
  induction hr with
  | root =>
    rw [setElem, commands_around]
    exact hc
  | deeper _ hround _ hd ih => exact ih (mem_setElems.mpr ⟨_, _, hround, Or.inr ⟨_, _, hd, hc⟩⟩)

/-- Under a value of which nothing is known there are commands if the children have something to delete. -/
theorem Clears.command {loc : Str} (hc : Clears h m loc) (failed : Cmd → Bool) (under : Trail) :
    ∃ c ∈ Failure.commands (setElems h failed m (.mk []) (some loc) under), c.under = under := by
  obtain ⟨e, param, hr, hdo⟩ := hc
  obtain ⟨c, hc⟩ := exists_elemCmds_nil.mpr hdo
  exact ⟨c, mem_setElems.mpr ⟨e, param, hr, Or.inl hc⟩, (asked_of_mem hc).about.1⟩

theorem clears_of_mem {loc : Str} (hc : c ∈ commands (setElems h failed m (.mk []) (some loc) under)) : Clears h m loc := by
  obtain ⟨e, param, hr, hc | ⟨v, d', hv, -⟩⟩ := mem_setElems.mp hc
  · exact ⟨e, param, hr, exists_elemCmds_nil.mp ⟨c, hc⟩⟩
  · rw [lookup_after] at hv
    cases hv

theorem placed_of_narrow (hn : Narrow h failed m d) (m' : List Elem) : ∀ {under : Trail} {d' : Data} {loc : Option Str} {c : Cmd},
    Reached h failed m d under m' d' loc → c ∈ commands (setElems h failed m' d' loc under) → Placed h m d c := by
  induction m' using map_induction with
  | hstep m' ih =>
    intro under d' loc c hreach hc
    obtain ⟨e, param, hround, hc | ⟨v, d'', hv, hc⟩⟩ := mem_setElems.mp hc
    · obtain ⟨d₀, ho, hnoted⟩ := hreach.occurs
      have hasked := asked_of_mem hc
      have hkeys : ∀ {v}, v ∈ keysOf d' e.name → v ∈ keysOf d₀ e.name := by
        intro v hv
        obtain ⟨vals, d₁, hvals, hlook⟩ := mem_keysOf.mp hv
        exact mem_keysOf.mpr ⟨vals, d₁, hash_of_noted hnoted hvals, hlook⟩
      refine ⟨m', d₀, loc, e, param, hasked.about.1 ▸ ho, hround, ?_⟩
      rw [hasked.about.1]
      cases hasked with
      | omitted hk hrun hform => exact .omitted hk hrun fun hmem => hform (hn.seen hreach hround ho.found hk hrun hmem)
      | set hk hform => exact .set hk (hkeys hform)
      | clear hk => exact .clear hk
      | replace hk hform => exact .replace hk (hkeys hform)
    · by_cases hkey : v ∈ keysOf d' e.name
      · exact ih e hround.mem (.deeper hreach hround hkey hv) hc
      · obtain ⟨rfl, hsome, hw⟩ := after_of_new hkey hv
        exact absurd (clears_of_mem hc) (hn.kept hreach hround hsome hw)

theorem leafCmd_head (under : Trail) (elem param v : Str) : (leafCmd under elem param v).text.head? = some 115 := by
  rw [leafCmd]
  split <;> rfl

/-- A deletion of a value is asked for of values that the request omits. -/
theorem omitted_of_asked {under' : Trail} {elem' param param' k : Str} {form : List Str}
    (ha : Asked h under' elem' param' form (deleteCmd under elem param k)) : k ∉ form := by
  generalize hc : deleteCmd under elem param k = c at ha
  cases ha with
  | omitted _ _ hform =>
    cases congrArg Cmd.value hc
    exact hform
  | set => cases congrArg (fun c => c.text.head?) hc
  | clear => cases congrArg Cmd.value hc
  | replace =>
    have hhead := congrArg (fun c => c.text.head?) hc
    rw [leafCmd_head] at hhead
    cases hhead

theorem narrow_of_placed (hp : ∀ c ∈ commands (setElem h failed m d), Placed h m d c) : Narrow h failed m d := by
  constructor
  · intro under m' d' loc e param k hreach hround hsome hw hclears
    obtain ⟨vals, hvals⟩ := Option.isSome_iff_exists.mp hsome
    have hform : k ∉ keysOf d' e.name := by
      cases hw with
      | omitted _ _ hform => exact hform
      | stripped _ _ _ _ hform => exact hform
    obtain ⟨c, hc, hunder⟩ := hclears.command failed (under ++ [(e.name, k)])
    have hrun := hreach.commands (mem_setElems.mpr ⟨e, param, hround, Or.inr ⟨k, _, after_of_widens hform hvals hw, hc⟩⟩)
    obtain ⟨m'', d'', loc'', e', param', ho, -⟩ := hp c hrun
    obtain ⟨d₀, ho₀, hnoted⟩ := hreach.occurs
    have hfound := ho.found
    rw [hunder, found_snoc, ho₀.found, Option.bind_some, values_eq, hash_of_noted hnoted hvals] at hfound
    exact hform (mem_keysOf.mpr ⟨vals, d'', hvals, hfound⟩)
  · intro under m' d' d₀ loc e param k hreach hround hfound hk hrun hmem
    by_contra hform
    have hc : deleteCmd under e.name param k ∈ elemCmds h under e.name param (keysOf d' e.name) := by
      rw [elemCmds_diff hk, mem_diffCmds]
      exact Or.inl ⟨k, hrun, hform, rfl⟩
    obtain ⟨m'', d'', loc'', e', param', ho, -, hasked⟩ := hp _ (hreach.commands (mem_setElems.mpr ⟨e, param, hround, Or.inl hc⟩))
    have hname := hasked.about.2
    have hsame := ho.found.symm.trans hfound
    cases hsame
    refine omitted_of_asked hasked ?_
    rw [← hname]
    exact hmem

/-! ## Every command once -/

/-- A map has a name once, and so has every map below. -/
inductive Named : List Elem → Prop where
  | mk {m : List Elem} (names : (m.map Elem.name).Nodup) (below : ∀ e ∈ m, Named e.children) : Named m

/-- The hashes of a request have a key once. -/
inductive Keyed : Data → Prop where
  | mk {fields : List (Str × List (Str × Data))} (keys : ∀ f ∈ fields, (f.2.map Prod.fst).Nodup)
      (below : ∀ f ∈ fields, ∀ v ∈ f.2, Keyed v.2) : Keyed (.mk fields)

theorem keyed_nothing : Keyed (.mk []) := .mk (fun f hf => by cases hf) fun f hf => by cases hf

theorem Keyed.annotated (hd : Keyed d) : Keyed d.annotated := by
  cases hd with
  | mk keys below => exact .mk (fun f hf => keys f (List.mem_of_mem_filter hf)) fun f hf => below f (List.mem_of_mem_filter hf)

theorem Keyed.value (hd : Keyed d) {w : Str × Data} (hw : w ∈ d.values elem) : Keyed w.2 := by
  cases hd with
  | @mk fields keys below =>
    rw [values_eq] at hw
    rcases hvals : (Data.mk fields).hash elem with _ | vals
    · rw [hvals] at hw
      cases hw
    · rw [hvals] at hw
      exact below _ (mem_of_lookup hvals) w hw

theorem Keyed.nodup (hd : Keyed d) (elem : Str) : (keysOf d elem).Nodup := by
  cases hd with
  | @mk fields keys below =>
    rw [keysOf, values_eq]
    rcases hvals : (Data.mk fields).hash elem with _ | vals
    · exact List.nodup_nil
    · exact keys _ (mem_of_lookup hvals)

theorem Keyed.after {param : Str} (hd : Keyed d) (hv : (after h failed under elem param d).lookup v = some d') : Keyed d' := by
  by_cases hkey : v ∈ keysOf d elem
  · obtain ⟨vals, d₁, hvals, hlook, hd'⟩ := after_of_key hkey hv
    have hd₁ : Keyed d₁ := by
      cases hd with
      | mk keys below => exact below _ (mem_of_lookup hvals) _ (mem_of_lookup hlook)
    rcases hd' with rfl | rfl
    · exact hd₁
    · exact hd₁.annotated
  · rw [(after_of_new hkey hv).1]
    exact keyed_nothing

theorem keys_annotate (value : Str) (node : List (Str × Data)) : (annotate value node).map Prod.fst =
    if value ∈ node.map Prod.fst then node.map Prod.fst else node.map Prod.fst ++ [value] := by
  induction node with
  | nil => rfl
  | cons w node ih =>
    rw [annotate]
    split
    · rename_i hw
      rw [if_pos (by rw [← hw]; exact List.mem_cons_self)]
      rfl
    · rename_i hw
      rw [List.map_cons, List.map_cons, ih]
      by_cases hmem : value ∈ node.map Prod.fst
      · rw [if_pos hmem, if_pos (List.mem_cons_of_mem _ hmem)]
      · rw [if_neg hmem, if_neg (by rw [List.mem_cons, not_or]; exact ⟨fun heq => hw heq.symm, hmem⟩), List.cons_append]

theorem nodup_ran (cmds : List Cmd) {node : Option (List (Str × Data))} (hn : ((node.getD []).map Prod.fst).Nodup) :
    (((cmds.foldl (runCmd failed) node).getD []).map Prod.fst).Nodup := by
  induction cmds generalizing node with
  | nil => exact hn
  | cons c cmds ih =>
    rw [List.foldl_cons]
    refine ih ?_
    rw [runCmd]
    split
    · rcases node with _ | vals
      · exact List.nodup_nil
      · rcases c.value with _ | w
        · exact hn
        · show ((annotate w vals).map Prod.fst).Nodup
          rw [keys_annotate]
          split
          · exact hn
          · rename_i hw
            rw [← List.concat_eq_append]
            exact List.Nodup.concat hw hn
    · exact hn

theorem visits_pairwise {param : Str} (hd : Keyed d) : (visits h failed under elem param d).Pairwise fun v w => v.1 ≠ w.1 := by
  have hafter : ((Failure.after h failed under elem param d).map Prod.fst).Nodup := by
    rw [Failure.after]
    refine nodup_ran _ ?_
    rw [← values_eq]
    exact hd.nodup elem
  have hkeys : ∀ keys : List Str, keys.Nodup → (keys.filterMap fun k =>
      ((Failure.after h failed under elem param d).lookup k).map fun d' => (k, d')).Pairwise fun v w => v.1 ≠ w.1 := by
    intro keys hk
    rw [List.pairwise_filterMap]
    refine hk.imp fun {k k'} hne v hv w hw => ?_
    obtain ⟨d₁, -, rfl⟩ := Option.map_eq_some_iff.mp hv
    obtain ⟨d₂, -, rfl⟩ := Option.map_eq_some_iff.mp hw
    exact hne
  rw [visits]
  refine hkeys _ ?_
  split
  · exact hafter
  · exact (h.keys_perm _ _).nodup_iff.mpr hafter

theorem nodup_assign (ks : List Str) {hash : List Str} (hn : hash.Nodup) : (assign hash ks).Nodup := by
  rw [assign]
  induction ks generalizing hash with
  | nil => exact hn
  | cons k ks ih =>
    rw [List.foldl_cons]
    split
    · exact ih hn
    · rename_i hk
      rw [← List.concat_eq_append]
      exact ih (List.Nodup.concat hk hn)

theorem nodup_elemCmds {param : Str} {form : List Str} : (elemCmds h under elem param form).Nodup := by
  by_cases hk : h.tmpl (wordsOf param) = .single
  · rw [elemCmds_leaf hk]
    cases form with
    | nil => exact List.nodup_singleton _
    | cons v rest =>
      rw [leafCmds]
      split
      · exact List.nodup_singleton _
      · split
        · exact List.nodup_nil
        · exact List.nodup_singleton _
  · have hdiff : (remove (assign [] (h.running.children (wordsOf param))) form).Nodup := (nodup_assign _ List.nodup_nil).filter _
    rw [elemCmds_diff hk, diffCmds]
    refine List.Nodup.append ?_ ?_ ?_
    · refine List.Nodup.map (fun k k' heq => ?_) ((h.keys_perm _ _).nodup_iff.mpr hdiff)
      exact Option.some.inj (congrArg Cmd.value heq)
    · refine List.Nodup.map (fun k k' heq => ?_) ((h.keys_perm _ _).nodup_iff.mpr ((nodup_assign _ hdiff).filter _))
      exact Option.some.inj (congrArg Cmd.value heq)
    · intro c hc hc'
      obtain ⟨k, -, rfl⟩ := List.mem_map.mp hc
      obtain ⟨k', -, heq⟩ := List.mem_map.mp hc'
      cases congrArg (fun c => c.text.head?) heq

theorem prefix_under (m : List Elem) : ∀ {d : Data} {loc : Option Str} {under : Trail} {c : Cmd},
    c ∈ commands (setElems h failed m d loc under) → under <+: c.under := by
  induction m using map_induction with
  | hstep m ih =>
    intro d loc under c hc
    obtain ⟨e, param, hround, hc | ⟨v, d', -, hc⟩⟩ := mem_setElems.mp hc
    · rw [(asked_of_mem hc).about.1]
    · exact (List.prefix_append _ _).trans (ih e hround.mem hc)

/-- The commands of a round are about its element, or under a value of it. -/
theorem mem_setOne {e : Elem} (he : e ∈ m) (hc : c ∈ commands (setOne h failed e d loc under)) :
    (c.under = under ∧ c.elem = e.name) ∨ ∃ v, under ++ [(e.name, v)] <+: c.under := by
  obtain ⟨param, hr⟩ := round_of_mem he hc
  rw [commands_setOne hr, List.mem_append, List.mem_flatMap] at hc
  rcases hc with hc | ⟨v, -, hc⟩
  · exact Or.inl (asked_of_mem hc).about
  · exact Or.inr ⟨v.1, prefix_under _ hc⟩

theorem nodup_setElems (hm : Named m) : ∀ {d : Data} {loc : Option Str} {under : Trail}, Keyed d →
    (commands (setElems h failed m d loc under)).Nodup := by
  induction hm with
  | @mk m names _ ih =>
    intro d loc under hd
    rw [setElems_eq, commands_flatMap, List.nodup_flatMap]
    constructor
    · intro e he
      by_cases hno : ∃ c, c ∈ commands (setOne h failed e d loc under)
      · obtain ⟨c, hc⟩ := hno
        obtain ⟨param, hr⟩ := round_of_mem he hc
        rw [commands_setOne hr]
        refine List.Nodup.append nodup_elemCmds (List.nodup_flatMap.mpr ⟨?_, ?_⟩) ?_
        · exact fun v hv => ih e he (hd.after (mem_visits.mp hv))
        · refine (visits_pairwise hd).imp fun {v w} hne c hc hc' => hne ?_
          exact (Prod.mk.inj (same_step (prefix_under _ hc) (prefix_under _ hc'))).2
        · intro c hc hc'
          obtain ⟨v, -, hc'⟩ := List.mem_flatMap.mp hc'
          have hpre := prefix_under _ hc'
          rw [(asked_of_mem hc).about.1] at hpre
          exact not_longer hpre
      · rw [List.eq_nil_iff_forall_not_mem.mpr fun c hc => hno ⟨c, hc⟩]
        exact List.nodup_nil
    · have hpair : m.Pairwise fun e e' => e.name ≠ e'.name := List.pairwise_map.mp names
      refine (List.Pairwise.and_mem.mp hpair).imp ?_
      rintro e e' ⟨he, he', hne⟩ c hc hc'
      rcases mem_setOne he hc with ⟨hunder, helem⟩ | ⟨v, hv⟩
      · rcases mem_setOne he' hc' with ⟨-, helem'⟩ | ⟨v', hv'⟩
        · exact hne (helem.symm.trans helem')
        · exact not_longer (hunder ▸ hv')
      · rcases mem_setOne he' hc' with ⟨hunder', -⟩ | ⟨v', hv'⟩
        · exact not_longer (hunder' ▸ hv)
        · exact hne (Prod.mk.inj (same_step hv hv')).1

/-! ## Without failures -/

theorem visit_keys {vals : List (Str × Data)} (hn : (vals.map Prod.fst).Nodup) :
    ((vals.map Prod.fst).filterMap fun k => (vals.lookup k).map fun d' => (k, d')) = vals := by
  induction vals with
  | nil => rfl
  | cons v vals ih =>
    obtain ⟨hv, hn⟩ := List.nodup_cons.mp hn
    rw [List.map_cons, List.filterMap_cons, lookup_cons_eq, if_pos rfl, Option.map_some]
    refine congrArg (v :: ·) ((List.filterMap_congr fun k hk => ?_).trans (ih hn))
    rw [lookup_cons_eq, if_neg]
    rintro rfl
    exact hv hk

theorem visits_quiet {param : Str} (hd : Keyed d) : visits h (fun _ => false) under elem param d = d.values elem := by
  have hran : ∀ (cmds : List Cmd) (node : Option (List (Str × Data))), cmds.foldl (runCmd fun _ => false) node = node := by
    intro cmds
    induction cmds with
    | nil => exact fun _ => rfl
    | cons c cmds ih => exact fun node => ih node
  have hafter : Failure.after h (fun _ => false) under elem param d = d.values elem := by rw [Failure.after, hran, values_eq]
  rw [visits]
  simp only [hafter]
  rw [if_pos (by rw [keysOf]), visit_keys (hd.nodup elem)]

theorem elemCmds_events {param : Str} {form : List Str} :
    ((elemCmds h under elem param form).map Step.run).map Step.event = h.elemCommands param form := by
  have hleaf : ((leafCmds h under elem param form).map Step.run).map Step.event = h.leafCommands param form := by
    cases form with
    | nil => rfl
    | cons v rest =>
      simp only [leafCmds, Host.leafCommands]
      split
      · rfl
      · split
        · rfl
        · rw [leafCmd]
          split <;> rfl
  have hdiff : ((diffCmds h under elem param form).map Step.run).map Step.event = h.diffCommands param form := by
    rw [diffCmds, Host.diffCommands, List.map_append, List.map_append, List.map_map, List.map_map, List.map_map, List.map_map]
    rfl
  by_cases hk : h.tmpl (wordsOf param) = .single
  · rw [elemCmds_leaf hk, Host.elemCommands, hk]
    exact hleaf
  · rw [elemCmds_diff hk, Host.elemCommands, hdiff]
    split
    · rfl
    · rfl
    · exact absurd ‹_› hk

theorem around_events (m : List Elem) (loc : Option Str) (steps : List Step) :
    (around m loc steps).map Step.event = Host.around m loc (steps.map Step.event) := by
  have hcall : ∀ name, (if m.any (fun e => decide (e.name = name)) then [Step.callback name loc] else []).map Step.event =
      if m.any (fun e => decide (e.name = name)) then [Event.callback name loc] else [] := by
    intro name
    split <;> rfl
  rw [around, Host.around, List.map_append, List.map_append, hcall, hcall]

theorem setElems_events (m : List Elem) : ∀ (d : Data) (loc : Option Str) (under : Trail), Keyed d →
    (setElems h (fun _ => false) m d loc under).map Step.event = h.setElems m d loc := by
  induction m using map_induction with
  | hstep m ih =>
    intro d loc under hd
    rw [setElems_eq, MsgSimple.setElems_eq, List.map_flatMap]
    refine List.flatMap_congr fun e he => ?_
    have hbelow := ih e he
    obtain ⟨name, location, callback, children⟩ := e
    cases location with
    | none =>
      rw [setOne, Host.setOne]
      split <;> rfl
    | some location =>
      rw [setOne, Host.setOne]
      split
      · rfl
      · rw [List.map_append, elemCmds_events, keysOf, visits_quiet hd]
        refine congrArg _ ?_
        split
        · rfl
        · rw [List.map_flatMap]
          refine List.flatMap_congr fun v hv => ?_
          rw [around_events]
          exact congrArg _ (hbelow _ _ _ (hd.value hv))

/-- If none fails, the commands are those that reconcile a message. -/
theorem setElem_events (hd : Keyed d) : (setElem h (fun _ => false) m d).map Step.event = h.setElem m d none := by
  rw [setElem, around_events, setElems_events m d none [] hd]
  rfl

end Placing

/-! ## When commands stay under values of the request -/

/-- Commands are confined exactly when no failure widens a hash for children that have something to
    delete, and no error hides a value that the configuration has too. -/
theorem confined_iff {h : Host} {failed : Cmd → Bool} {m : List Elem} {d : Data} (hm : Named m) (hd : Keyed d) :
    Confined h failed m d ↔ Narrow h failed m d := by
  constructor
  · exact fun hc => narrow_of_placed hc.placed
  · refine fun hn => ⟨fun c hc => ?_, ?_⟩
    · rw [setElem, commands_around] at hc
      exact placed_of_narrow hn m .root hc
    · rw [setElem, commands_around]
      exact nodup_setElems hm hd

/-! ## A deletion that fails -/

def failsFor (text : Str) (c : Cmd) : Bool := c.text = text

theorem sampleMap_named : Named sampleMap := by
  have hleaf : Named [] := .mk List.nodup_nil fun e he => by cases he
  refine .mk (by decide) ?_
  simp only [sampleMap, List.forall_mem_cons]
  refine ⟨.mk (by decide) ?_, fun e he => by cases he⟩
  simp only [Elem.children, List.forall_mem_cons]
  exact ⟨hleaf, hleaf, fun e he => by cases he⟩

theorem sampleData_keyed : Keyed sampleData := by
  refine .mk (by decide) ?_
  simp only [List.forall_mem_cons]
  refine ⟨⟨.mk (by decide) ?_, keyed_nothing, fun v hv => by cases hv⟩, fun f hf => by cases hf⟩
  simp only [List.forall_mem_cons]
  exact ⟨⟨keyed_nothing, keyed_nothing, fun v hv => by cases hv⟩, ⟨keyed_nothing, fun v hv => by cases hv⟩,
    fun f hf => by cases hf⟩

theorem a_message_is_confined_iff : Confined sampleRunning (failsFor (str "delete login user bob")) sampleMap sampleData ↔
    Narrow sampleRunning (failsFor (str "delete login user bob")) sampleMap sampleData :=
  confined_iff sampleMap_named sampleData_keyed

/-- `bob`, whom the message leaves out, stays, and the loop clears his shell. -/
theorem children_of_a_value_that_stays :
    (setElem sampleRunning (failsFor (str "delete login user bob")) sampleMap sampleData).map Step.event =
      [.run (str "delete login user bob"), .run (str "set login user carol"), .run (str "delete login user alice group ops"),
       .run (str "set login user alice group web"), .run (str "set login user alice shell zsh"),
       .run (str "delete login user carol shell"), .run (str "delete login user bob shell")] ∧
    ¬ Confined sampleRunning (failsFor (str "delete login user bob")) sampleMap sampleData := by
  refine ⟨by decide, fun hc => ?_⟩
  have hrun : clearCmd [(str "user", str "bob")] (str "shell") (str "login user bob shell") ∈
      commands (setElem sampleRunning (failsFor (str "delete login user bob")) sampleMap sampleData) := by decide
  obtain ⟨m', d', loc, e, param, ho, -⟩ := hc.placed _ hrun
  have hnone : (Data.found sampleData [(str "user", str "bob")]).isSome = false := by decide
  have hfound := ho.found
  change Data.found sampleData [(str "user", str "bob")] = some d' at hfound
  rw [hfound] at hnone
  cases hnone

end Failure

end VyattaRest.MsgSimple
