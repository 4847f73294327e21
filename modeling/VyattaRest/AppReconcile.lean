/-
  VyattaRest.AppReconcile — how an application message becomes commands (App/MsgSimple.pm,
  `_set_elem` and `run_cmd`).

  A map says where in the configuration each element of a message has its values. For every
  element the values of the running configuration are compared with those of the message, and
  commands delete and set what differs; the candidate configuration, which starts as the running
  one, is what the commands leave behind.

  The value of a leaf is put in quotes if it has a space. The values of tag and multi nodes are
  not, and those that are to be removed come from the configuration, not from the message.
  - `setElems_edits`: the commands, in whatever order the hashes give them, do the edits that the
    elements of the map call for, at every depth.
  - `reconciled_of_words`: if the values to be removed are words, the candidate has the values of
    the message, those that were there before are left alone, and so is everything else.
  - `reconciled_iff`: so it is, whatever was configured, if each of them is one word to the shell;
    and of those that the shell leaves alone one with a blank is enough for the opposite.
    `a_value_with_a_blank_stays` is the smallest case.
-/

import Mathlib.Data.List.Nodup
import Mathlib.Data.List.Pairwise
import Mathlib.Data.Nat.Find
import VyattaRest.Lib.ConfigTree
import VyattaRest.Lib.Shell

namespace VyattaRest.MsgSimple

open VyattaRest.Lib

abbrev Path := List Str

/-! ## Command lines -/

def isBlank (b : UInt8) : Bool := b = 32 || b = 9

/-- The words of a text, `cur` being read. -/
def wordsFrom (cur : Str) : Str → Path
  | [] => if cur = [] then [] else [cur]
  | b :: s =>
    if isBlank b then if cur = [] then wordsFrom [] s else cur :: wordsFrom [] s
    else wordsFrom (cur ++ [b]) s

/-- A path as Vyatta::Config takes it, words with blanks between them. -/
def wordsOf (s : Str) : Path := wordsFrom [] s

/-- The words of a line, if there is nothing in it but words. -/
def shellWords (line : Str) : Option Path :=
  (Shell.lex (Shell.own line)).bind fun toks => toks.mapM fun tok => match tok with
    | .word w => some (w.map Prod.fst)
    | _ => none

/-- What stands between the double quotes of `sg -c`; a NUL ends the line inside them. -/
def dquoted : Str → Option Str
  | [] => some []
  | [b] => if b ∈ str "\"$`\\" ∨ b = 0 then none else some [b]
  | b :: c :: s =>
    if b = 92 then
      if c ∈ str "$`\"\\" then (dquoted s).map (c :: ·)
      else if c = 10 then dquoted s
      else if c = 0 then none
      else (dquoted s).map fun t => 92 :: c :: t
    else if b ∈ str "\"$`" ∨ b = 0 then none
    else (dquoted (c :: s)).map (b :: ·)

/-- The words that cfgcli gets of the command of `run_cmd`. -/
def cfgcliWords (cmd : Str) : Option Path := (dquoted cmd).bind shellWords

/-! ## Maps and messages -/

/-- An element of a map: `_location`, whether there is a `_callback`, and `_children`. -/
inductive Elem where
  | mk (name : Str) (location : Option Str) (callback : Bool) (children : List Elem)

namespace Elem

def name : Elem → Str
  | mk name _ _ _ => name

def location : Elem → Option Str
  | mk _ location _ _ => location

def children : Elem → List Elem
  | mk _ _ _ children => children

def path (e : Elem) : Path := wordsOf (e.location.getD [])

end Elem

/-- Of each element the hash `_values`, with the part of the message below each value. -/
inductive Data where
  | mk (fields : List (Str × List (Str × Data)))

def Data.values : Data → Str → List (Str × Data)
  | mk fields, elem => (fields.lookup elem).getD []

/-- What a template says of a node. -/
inductive Kind where
  | tag
  | multi
  | single
  deriving DecidableEq

/-- What `_set_elem` finds: the templates, the running configuration, and the order in which the
    keys of a hash come, for each use of one. -/
structure Host where
  tmpl : Path → Kind
  running : PathTree Str
  keys : Str → List Str → List Str
  keys_perm : ∀ use hash, (keys use hash).Perm hash
  one : ∀ p v w, tmpl p = .single → p ++ [v] ∈ running → p ++ [w] ∈ running → v = w

/-! ## `_set_elem` -/

inductive Event where
  | run (cmd : Str)
  | callback (elem : Str) (loc : Option Str)
  deriving DecidableEq

/-- `@hash{@ks} = @ks`. -/
def assign (hash ks : List Str) : List Str := ks.foldl (fun hash k => if k ∈ hash then hash else hash ++ [k]) hash

/-- `delete @hash{@ks}`. -/
def remove (hash ks : List Str) : List Str := hash.filter (· ∉ ks)

/-- `m/\$(.*?)\)/`. -/
def hasParameter : Str → Bool
  | [] => false
  | b :: s => (b = 36 && (s.takeWhile (· ≠ 10)).contains 41) || hasParameter s

/-- `s/\s+$//`. -/
def stripTrailing (s : Str) : Str := (s.reverse.dropWhile isSpace).reverse

def paramLoc (loc : Option Str) (location : Str) : Str :=
  match loc with
  | none => location
  | some loc => loc ++ str " " ++ location

namespace Host

variable (h : Host)

/-- A tag or multi node: one hash serves both differences. -/
def diffCommands (param : Str) (form : List Str) : List Event :=
  let conf := h.running.children (wordsOf param)
  let diff := remove (assign [] conf) form
  let deletes := (h.keys (str "delete " ++ param) diff).map fun k => .run (str "delete " ++ param ++ str " " ++ k)
  let diff := remove (assign diff form) conf
  let sets := (h.keys (str "set " ++ param) diff).map fun k => .run (str "set " ++ param ++ str " " ++ k)
  deletes ++ sets

/-- A leaf with one value, the first key of the hash. -/
def leafCommands (param : Str) (form : List Str) : List Event :=
  match form with
  | [] => [.run (str "delete " ++ param)]
  | v :: _ =>
    let val := stripTrailing v
    if val = [] then [.run (str "delete " ++ param)]
    else if wordsOf (param ++ str " " ++ val) ∈ h.running then []
    else if v.contains 32 then [.run (str "set " ++ param ++ str " \\\"" ++ val ++ str "\\\"")]
    else [.run (str "set " ++ param ++ str " " ++ val)]

def elemCommands (param : Str) (form : List Str) : List Event :=
  match h.tmpl (wordsOf param) with
  | .tag | .multi => h.diffCommands param form
  | .single => h.leafCommands param form

/-- The callbacks of a map, before and behind its elements. -/
def around (m : List Elem) (loc : Option Str) (events : List Event) : List Event :=
  let call (name : Str) : List Event := if m.any (·.name = name) then [.callback name loc] else []
  call (str "callback_first") ++ events ++ call (str "callback_last")

mutual

def setElems : List Elem → Data → Option Str → List Event
  | [], _, _ => []
  | e :: m, d, loc => setOne e d loc ++ setElems m d loc

/-- One round of the loop over the map. -/
def setOne : Elem → Data → Option Str → List Event
  | .mk name location callback children, d, loc =>
    match location with
    | some location =>
      let param := paramLoc loc location
      if hasParameter param then []
      else
        h.elemCommands param ((d.values name).map Prod.fst) ++
          if children.isEmpty then []
          else (d.values name).flatMap fun v =>
            around children (some (param ++ str " " ++ v.1)) (setElems children v.2 (some (param ++ str " " ++ v.1)))
    | none =>
      if callback && name ≠ str "callback_first" && name ≠ str "callback_last" then [.callback name loc] else []

end

/-- `_set_elem`. -/
def setElem (m : List Elem) (d : Data) (loc : Option Str) : List Event := around m loc (h.setElems m d loc)

/-- What a command that succeeds does: `set` makes a path, and replaces the value of a leaf that
    has one; `delete` removes a subtree, if it is there. -/
def edit (cmd : Str) : Option (PathTree.Edit Str) :=
  match cfgcliWords cmd with
  | some (verb :: p) =>
    if verb = str "set" then some (.put p (h.tmpl p.dropLast = .single))
    else if verb = str "delete" then some (.delete p)
    else none
  | _ => none

def eventEdit : Event → Option (PathTree.Edit Str)
  | .run cmd => h.edit cmd
  | .callback _ _ => none

/-- The candidate configuration behind the commands for a message. -/
def candidate (m : List Elem) (d : Data) : PathTree Str := h.running.applyAll ((h.setElem m d none).filterMap h.eventEdit)

end Host

/-! ## What a message asks for -/

/-- The values that the nodes of a map can have. -/
inductive Mapped : List Elem → Path → Path → Prop where
  | value {m : List Elem} {loc : Path} {e : Elem} (he : e ∈ m) (v : Str) : Mapped m loc (loc ++ e.path ++ [v])
  | deeper {m : List Elem} {loc p : Path} {e : Elem} (he : e ∈ m) (v : Str) (h : Mapped e.children (loc ++ e.path ++ [v]) p) :
      Mapped m loc p

/-- Those that a message gives them. -/
inductive Requested : List Elem → Data → Path → Path → Prop where
  | value {m : List Elem} {d d' : Data} {loc : Path} {e : Elem} {v : Str} (he : e ∈ m) (hv : (v, d') ∈ d.values e.name) :
      Requested m d loc (loc ++ e.path ++ [v])
  | deeper {m : List Elem} {d d' : Data} {loc p : Path} {e : Elem} {v : Str} (he : e ∈ m) (hv : (v, d') ∈ d.values e.name)
      (h : Requested e.children d' (loc ++ e.path ++ [v]) p) : Requested m d loc p

/-- A byte that the shell leaves alone, or a blank. -/
def isLiteral (b : UInt8) : Bool :=
  b ≠ 0 && (Shell.classOf b = .plain || Shell.classOf b = .blank) && b ∉ str "*?[]~!" && b ≠ 123 && b ≠ 125

/-- Not empty, without white space and without metacharacters. -/
def Word (v : Str) : Prop := v ≠ [] ∧ ∀ b ∈ v, isLiteral b = true ∧ isSpace b = false

/-- A map of locations: no callbacks and no parameters, and no location is on the way to a
    sibling. -/
inductive Fits : List Elem → Prop where
  | mk {m : List Elem}
      (names : ∀ e ∈ m, e.name ≠ str "callback_first" ∧ e.name ≠ str "callback_last")
      (located : ∀ e ∈ m, ∃ location, e.location = some location ∧ wordsOf location ≠ [] ∧ ∀ b ∈ location, isLiteral b = true)
      (apart : m.Pairwise fun e e' => ¬ e.path <+: e'.path ∧ ¬ e'.path <+: e.path)
      (below : ∀ e ∈ m, Fits e.children) : Fits m

section Domain

variable (h : Host)

/-- Values without white space and metacharacters, each once, one at most for a leaf that has one. -/
inductive Requests : List Elem → Data → Path → Prop where
  | mk {m : List Elem} {d : Data} {loc : Path}
      (words : ∀ e ∈ m, ∀ v ∈ d.values e.name, Word v.1)
      (distinct : ∀ e ∈ m, ((d.values e.name).map Prod.fst).Nodup)
      (one : ∀ e ∈ m, h.tmpl (loc ++ e.path) = .single → (d.values e.name).length ≤ 1)
      (below : ∀ e ∈ m, ∀ v ∈ d.values e.name, Requests e.children v.2 (loc ++ e.path ++ [v.1])) : Requests m d loc

/-- A value of a tag or multi node that is to be removed: it is there and not asked for. -/
inductive Stale : List Elem → Data → Path → Path → Str → Prop where
  | value {m : List Elem} {d : Data} {loc : Path} {e : Elem} {k : Str} (he : e ∈ m) (hk : h.tmpl (loc ++ e.path) ≠ .single)
      (hrun : loc ++ e.path ++ [k] ∈ h.running) (hform : k ∉ (d.values e.name).map Prod.fst) : Stale m d loc (loc ++ e.path) k
  | deeper {m : List Elem} {d d' : Data} {loc n : Path} {e : Elem} {v k : Str} (he : e ∈ m) (hv : (v, d') ∈ d.values e.name)
      (hs : Stale e.children d' (loc ++ e.path ++ [v]) n k) : Stale m d loc n k

/-- The candidate has the values that were asked for, the commands leave those alone that were
    there, and nothing else is touched. -/
structure Reconciled (m : List Elem) (d : Data) : Prop where
  requested : ∀ p, Mapped m [] p → (p ∈ h.candidate m d ↔ Requested m d [] p)
  kept : ∀ p, Mapped m [] p → h.tmpl p.dropLast ≠ .single → p ∈ h.running → Requested m d [] p →
    ∀ cmd x, .run cmd ∈ h.setElem m d none → h.edit cmd = some x → ¬ x.path <+: p ∧
      (p <+: x.path → ∃ p', Mapped m [] p' ∧ p <+: p' ∧ p' ≠ p ∧ (x.path = p' ∨ x.path = p'.dropLast))
  removed : ∀ q ∈ h.running, q ∉ h.candidate m d →
    (∃ p, Mapped m [] p ∧ p ∈ h.running ∧ ¬ Requested m d [] p ∧ p <+: q) ∨
      h.tmpl q = .single ∧ ∀ v, Mapped m [] (q ++ [v])
  added : ∀ q ∈ h.candidate m d, q ∉ h.running → ∃ p, Requested m d [] p ∧ q <+: p

/-- The edits of the commands of one node, in no order. -/
inductive NodeEdits (n : Path) (form : List Str) : PathTree.Edit Str → Prop where
  | remove {k : Str} (hk : h.tmpl n ≠ .single) (hrun : n ++ [k] ∈ h.running) (hform : k ∉ form) :
      NodeEdits n form (.delete (n ++ wordsOf k))
  | add {v : Str} (hk : h.tmpl n ≠ .single) (hrun : n ++ [v] ∉ h.running) (hform : v ∈ form) :
      NodeEdits n form (.put (n ++ [v]) false)
  | clear (hk : h.tmpl n = .single) (hform : form = []) : NodeEdits n form (.delete n)
  | replace {v : Str} (hk : h.tmpl n = .single) (hrun : n ++ [v] ∉ h.running) (hform : v ∈ form) :
      NodeEdits n form (.put (n ++ [v]) true)

/-- The edits of the commands of a map. -/
inductive Edits : List Elem → Data → Path → PathTree.Edit Str → Prop where
  | own {m : List Elem} {d : Data} {loc : Path} {e : Elem} {x : PathTree.Edit Str} (he : e ∈ m)
      (hx : NodeEdits h (loc ++ e.path) ((d.values e.name).map Prod.fst) x) : Edits m d loc x
  | deeper {m : List Elem} {d d' : Data} {loc : Path} {e : Elem} {v : Str} {x : PathTree.Edit Str} (he : e ∈ m)
      (hv : (v, d') ∈ d.values e.name) (hx : Edits e.children d' (loc ++ e.path ++ [v]) x) : Edits m d loc x

end Domain

/-! ## Paths of a map -/

section Paths

variable {h : Host} {m : List Elem} {d : Data} {loc : Path}

theorem Fits.parts (hm : Fits m) :
    (∀ e ∈ m, e.path ≠ []) ∧ (∀ e ∈ m, ∀ e' ∈ m, e.path <+: e'.path → e = e') := by
  cases hm with
  | mk names located apart below =>
    constructor
    · intro e he
      obtain ⟨location, hl, hne, -⟩ := located e he
      rw [Elem.path, hl]
      exact hne
    · intro e he e' he' hpre
      by_contra hne
      have hsymm : Std.Symm fun e e' : Elem => ¬ e.path <+: e'.path ∧ ¬ e'.path <+: e.path := ⟨fun _ _ h => ⟨h.2, h.1⟩⟩
      exact (apart.forall he he' hne).1 hpre

theorem Fits.down (hm : Fits m) {e : Elem} (he : e ∈ m) : Fits e.children := by
  cases hm with
  | mk names located apart below => exact below e he

/-- Two elements on the way to one node are the same. -/
theorem Fits.same (hm : Fits m) {e e' : Elem} (he : e ∈ m) (he' : e' ∈ m) {p : Path} (hp : loc ++ e.path <+: p)
    (hp' : loc ++ e'.path <+: p) : e = e' := by
  rcases List.prefix_or_prefix_of_prefix hp hp' with hpre | hpre
  · exact hm.parts.2 e he e' he' ((List.prefix_append_right_inj loc).mp hpre)
  · exact (hm.parts.2 e' he' e he ((List.prefix_append_right_inj loc).mp hpre)).symm

theorem same_value {n p : Path} {v w : Str} (hv : n ++ [v] <+: p) (hw : n ++ [w] <+: p) : v = w := by
  have heq := (List.prefix_of_prefix_length_le hv hw (by simp)).eq_of_length (by simp)
  simpa using heq

theorem Requested.under {p : Path} (hp : Requested m d loc p) :
    ∃ e ∈ m, ∃ v d', (v, d') ∈ d.values e.name ∧ loc ++ e.path ++ [v] <+: p ∧
      (p = loc ++ e.path ++ [v] ∨ Requested e.children d' (loc ++ e.path ++ [v]) p) := by
  induction hp with
  | value he hv => exact ⟨_, he, _, _, hv, List.prefix_rfl, Or.inl rfl⟩
  | deeper he hv hbelow ih =>
    refine ⟨_, he, _, _, hv, ?_, Or.inr hbelow⟩
    obtain ⟨e', -, v', -, -, hpre, -⟩ := ih
    rw [List.append_assoc _ _ [v']] at hpre
    exact (List.prefix_append _ _).trans hpre

/-- A requested value is requested through each element on its way. -/
theorem Requested.through (hm : Fits m) {p : Path} (hp : Requested m d loc p) {e : Elem} (he : e ∈ m)
    (hpre : loc ++ e.path <+: p) : ∃ v d', (v, d') ∈ d.values e.name ∧ loc ++ e.path ++ [v] <+: p ∧
      (p = loc ++ e.path ++ [v] ∨ Requested e.children d' (loc ++ e.path ++ [v]) p) := by
  obtain ⟨e', he', v, d', hv, hpre', hrest⟩ := hp.under
  have heq := hm.same he he' hpre ((List.prefix_append _ _).trans hpre')
  subst heq
  exact ⟨v, d', hv, hpre', hrest⟩

theorem Mapped.longer {p : Path} (hm : Fits m) (hp : Mapped m loc p) : loc <+: p ∧ loc.length + 1 < p.length := by
  induction hp with
  | value he v =>
    have hne := List.length_pos_of_ne_nil (hm.parts.1 _ he)
    refine ⟨?_, ?_⟩
    · rw [List.append_assoc]
      exact List.prefix_append _ _
    · simp only [List.length_append, List.length_singleton]
      omega
  | deeper he v hbelow ih =>
    obtain ⟨hpre, hlen⟩ := ih (hm.down he)
    refine ⟨?_, ?_⟩
    · rw [List.append_assoc] at hpre
      exact (List.prefix_append _ _).trans hpre
    · simp only [List.length_append, List.length_singleton] at hlen
      omega

theorem Requested.mapped {p : Path} (hp : Requested m d loc p) : Mapped m loc p := by
  induction hp with
  | value he hv => exact .value he _
  | deeper he hv hbelow ih => exact .deeper he _ ih

/-- Above a requested value every value is requested. -/
theorem requested_of_prefix (hm : Fits m) {p r : Path} (hp : Mapped m loc p) (hr : Requested m d loc r)
    (hpre : p <+: r) : Requested m d loc p := by
  induction hp generalizing d with
  | value he v =>
    obtain ⟨w, d', hw, hpre', -⟩ := hr.through hm he ((List.prefix_append _ _).trans hpre)
    rw [same_value hpre hpre']
    exact .value he hw
  | deeper he v hbelow ih =>
    have hlonger := hbelow.longer (hm.down he)
    have hv := hlonger.1.trans hpre
    obtain ⟨w, d', hw, hpre', hrest⟩ := hr.through hm he ((List.prefix_append _ _).trans hv)
    obtain rfl := same_value hv hpre'
    rcases hrest with rfl | hrest
    · have := hpre.length_le
      omega
    · exact .deeper he hw (ih (hm.down he) hrest hpre)

end Paths

/-! ## What the edits do -/

section Edited

variable {h : Host} {m : List Elem} {d : Data} {loc : Path}

theorem Requests.unique (hd : Requests h m d loc) {e : Elem} (he : e ∈ m) {v : Str} {d₁ d₂ : Data}
    (h₁ : (v, d₁) ∈ d.values e.name) (h₂ : (v, d₂) ∈ d.values e.name) : d₁ = d₂ := by
  cases hd with
  | mk words distinct one below => exact (Prod.mk.inj (List.inj_on_of_nodup_map (distinct e he) h₁ h₂ rfl)).2

theorem Requests.one_value (hd : Requests h m d loc) {e : Elem} (he : e ∈ m) (hk : h.tmpl (loc ++ e.path) = .single)
    {v w : Str} (hv : v ∈ (d.values e.name).map Prod.fst) (hw : w ∈ (d.values e.name).map Prod.fst) : v = w := by
  cases hd with
  | mk words distinct one below =>
    have hlen := one e he hk
    match hvals : d.values e.name with
    | [] => rw [hvals] at hv; cases hv
    | [q] =>
      rw [hvals, List.map_singleton, List.mem_singleton] at hv hw
      rw [hv, hw]
    | _ :: _ :: _ => rw [hvals] at hlen; simp at hlen

theorem Requests.word (hd : Requests h m d loc) {e : Elem} (he : e ∈ m) : ∀ v ∈ (d.values e.name).map Prod.fst, Word v := by
  cases hd with
  | mk words distinct one below => exact List.forall_mem_map.mpr (words e he)

theorem Requests.down (hd : Requests h m d loc) {e : Elem} (he : e ∈ m) {v : Str} {d' : Data}
    (hv : (v, d') ∈ d.values e.name) : Requests h e.children d' (loc ++ e.path ++ [v]) := by
  cases hd with
  | mk words distinct one below => exact below e he (v, d') hv

/-- What is requested below a value is requested in the part of the message below it. -/
theorem Requested.inside (hm : Fits m) (hd : Requests h m d loc) {p : Path} (hp : Requested m d loc p) {e : Elem}
    (he : e ∈ m) {v : Str} {d' : Data} (hv : (v, d') ∈ d.values e.name) (hpre : loc ++ e.path ++ [v] <+: p)
    (hne : (loc ++ e.path ++ [v]).length < p.length) : Requested e.children d' (loc ++ e.path ++ [v]) p := by
  obtain ⟨w, d'', hw, hpre', hrest⟩ := hp.through hm he ((List.prefix_append _ _).trans hpre)
  obtain rfl := same_value hpre hpre'
  obtain rfl := hd.unique he hv hw
  rcases hrest with rfl | hrest
  · omega
  · exact hrest

theorem Edits.removes_below (hm : Fits m) {x : PathTree.Edit Str} (hx : Edits h m d loc x) {q : Path} (hq : x.Removes q) :
    loc <+: q ∧ loc.length < q.length := by
  have hstep : ∀ {e : Elem} {m : List Elem} {loc : Path}, Fits m → e ∈ m → loc ++ e.path <+: q →
      loc <+: q ∧ loc.length < q.length := by
    intro e m loc hm he hpre
    have hne := List.length_pos_of_ne_nil (hm.parts.1 e he)
    have hlen := hpre.length_le
    rw [List.length_append] at hlen
    exact ⟨(List.prefix_append _ _).trans hpre, by omega⟩
  induction hx with
  | own he hx =>
    cases hx with
    | remove hk hrun hform => exact hstep hm he ((List.prefix_append _ _).trans hq)
    | add hk hrun hform => cases hq.1
    | clear hk hform => exact hstep hm he hq
    | replace hk hrun hform =>
      have hpre := hq.2.1
      rw [List.dropLast_concat] at hpre
      exact hstep hm he hpre
  | deeper he hv hx ih => exact hstep hm he ((List.prefix_append _ _).trans (ih (hm.down he) hq).1)

/-- No requested value is removed, if the values that are to be removed are words. -/
theorem Edits.spares (hm : Fits m) (hd : Requests h m d loc) (hclean : ∀ n k, Stale h m d loc n k → wordsOf k = [k])
    {p : Path} (hp : Requested m d loc p) {x : PathTree.Edit Str} (hx : Edits h m d loc x) : ¬ x.Removes p := by
  intro hr
  induction hx with
  | own he hx =>
    cases hx with
    | remove hk hrun hform =>
      rw [PathTree.Edit.Removes, hclean _ _ (.value he hk hrun hform)] at hr
      obtain ⟨w, d', hw, hpre', -⟩ := hp.through hm he ((List.prefix_append _ _).trans hr)
      obtain rfl := same_value hr hpre'
      exact hform (List.mem_map_of_mem hw)
    | add hk hrun hform => cases hr.1
    | clear hk hform =>
      obtain ⟨w, d', hw, -⟩ := hp.through hm he hr
      rw [List.map_eq_nil_iff.mp hform] at hw
      cases hw
    | replace hk hrun hform =>
      obtain ⟨-, hpre, hne, hnot⟩ := hr
      rw [List.dropLast_concat] at hpre hne
      obtain ⟨w, d', hw, hpre', -⟩ := hp.through hm he hpre
      obtain rfl := hd.one_value he hk hform (List.mem_map_of_mem hw)
      exact hnot hpre'
  | deeper he hv hx ih =>
    obtain ⟨hpre, hlen⟩ := hx.removes_below (hm.down he) hr
    exact ih (hm.down he) (hd.down he hv) (fun n k hs => hclean n k (.deeper he hv hs))
      (hp.inside hm hd he hv hpre hlen) hr

theorem Edits.puts {x : PathTree.Edit Str} (hx : Edits h m d loc x) {q : Path} (hq : x.Adds q) :
    Requested m d loc x.path ∧ x.path ∉ h.running ∧ q <+: x.path := by
  induction hx with
  | own he hx =>
    cases hx with
    | remove hk hrun hform => cases hq
    | add hk hrun hform | replace hk hrun hform =>
      obtain ⟨⟨v, d'⟩, hv, rfl⟩ := List.mem_map.mp hform
      exact ⟨.value he hv, hrun, hq⟩
    | clear hk hform => cases hq
  | deeper he hv hx ih => exact ⟨.deeper he hv (ih hq).1, (ih hq).2⟩

theorem Requested.put {p : Path} (hp : Requested m d loc p) (hrun : p ∉ h.running) :
    ∃ x, Edits h m d loc x ∧ x.Adds p := by
  induction hp with
  | @value m d d' loc e v he hv =>
    by_cases hk : h.tmpl (loc ++ e.path) = .single
    · exact ⟨_, .own he (.replace hk hrun (List.mem_map_of_mem hv)), List.prefix_rfl⟩
    · exact ⟨_, .own he (.add hk hrun (List.mem_map_of_mem hv)), List.prefix_rfl⟩
  | deeper he hv hp ih =>
    obtain ⟨x, hx, hadds⟩ := ih hrun
    exact ⟨x, .deeper he hv hx, hadds⟩

/-- A value of an element that is there and not in the message is removed. -/
theorem NodeEdits.removes {n : Path} {form : List Str} {v : Str} (hrun : n ++ [v] ∈ h.running) (hform : v ∉ form)
    (hclean : h.tmpl n ≠ .single → wordsOf v = [v]) : ∃ x, NodeEdits h n form x ∧ x.Removes (n ++ [v]) := by
  by_cases hk : h.tmpl n = .single
  · cases form with
    | nil => exact ⟨_, .clear hk rfl, List.prefix_append _ _⟩
    | cons w form =>
      have hne : v ≠ w := fun heq => hform (heq ▸ List.mem_cons_self)
      have hnot : n ++ [w] ∉ h.running := fun hrun' => hne (h.one _ _ _ hk hrun hrun')
      refine ⟨_, .replace hk hnot List.mem_cons_self, rfl, ?_, ?_, fun hpre => hne (same_value List.prefix_rfl hpre)⟩
      · rw [List.dropLast_concat]
        exact List.prefix_append _ _
      · rw [List.dropLast_concat]
        simp
  · refine ⟨_, .remove hk hrun hform, ?_⟩
    rw [PathTree.Edit.Removes, hclean hk]

/-- A value that is there and that no edit removes is requested. -/
theorem requested_of_spared (hm : Fits m) (hd : Requests h m d loc)
    (hclean : ∀ n k, Stale h m d loc n k → wordsOf k = [k]) {p : Path} (hp : Mapped m loc p) (hrun : p ∈ h.running)
    (hspared : ∀ x, Edits h m d loc x → ¬ x.Removes p) : Requested m d loc p := by
  -- the value on the way to `p` is in the message, or `p` is removed with it
  have hstep : ∀ {m : List Elem} {d : Data} {loc : Path} {e : Elem} {v : Str}, e ∈ m →
      (∀ n k, Stale h m d loc n k → wordsOf k = [k]) → loc ++ e.path ++ [v] <+: p →
      (∀ x, Edits h m d loc x → ¬ x.Removes p) → ∃ d', (v, d') ∈ d.values e.name := by
    intro m d loc e v he hclean hpre hspared
    by_cases hform : v ∈ (d.values e.name).map Prod.fst
    · obtain ⟨⟨w, d'⟩, hw, rfl⟩ := List.mem_map.mp hform
      exact ⟨d', hw⟩
    · have hrun' := PathTree.mem_of_prefix hpre hrun
      obtain ⟨x, hx, hr⟩ := NodeEdits.removes hrun' hform fun hk => hclean _ _ (.value he hk hrun' hform)
      exact absurd (hr.below hpre) (hspared x (.own he hx))
  induction hp generalizing d with
  | value he v =>
    obtain ⟨d', hv⟩ := hstep he hclean List.prefix_rfl hspared
    exact .value he hv
  | deeper he v hp ih =>
    obtain ⟨d', hv⟩ := hstep he hclean (hp.longer (hm.down he)).1 hspared
    exact .deeper he hv (ih (hm.down he) (hd.down he hv) (fun n k hs => hclean n k (.deeper he hv hs)) hrun
      (fun x hx => hspared x (.deeper he hv hx)) hstep)

/-- Every edit is one of a mapped value, or of the leaf that has it. -/
theorem Edits.target (hclean : ∀ n k, Stale h m d loc n k → wordsOf k = [k]) {x : PathTree.Edit Str} (hx : Edits h m d loc x) :
    ∃ p, Mapped m loc p ∧ (x.path = p ∨ x.path = p.dropLast) := by
  induction hx with
  | own he hx =>
    cases hx with
    | @remove k hk hrun hform =>
      refine ⟨_, .value he k, Or.inl ?_⟩
      rw [PathTree.Edit.path, hclean _ _ (.value he hk hrun hform)]
    | add hk hrun hform | replace hk hrun hform => exact ⟨_, .value he _, Or.inl rfl⟩
    | clear hk hform => exact ⟨_, .value he [], Or.inr (by rw [List.dropLast_concat]; rfl)⟩
  | deeper he hv hx ih =>
    obtain ⟨p, hp, hpath⟩ := ih fun n k hs => hclean n k (.deeper he hv hs)
    exact ⟨p, .deeper he _ hp, hpath⟩

/-- What is removed lies below a value that was not asked for, or is a leaf that has lost its value. -/
theorem Edits.removed (hm : Fits m) (hd : Requests h m d loc) (hclean : ∀ n k, Stale h m d loc n k → wordsOf k = [k])
    {x : PathTree.Edit Str} (hx : Edits h m d loc x) {q : Path} (hq : x.Removes q) (hrun : q ∈ h.running) :
    (∃ p, Mapped m loc p ∧ p ∈ h.running ∧ ¬ Requested m d loc p ∧ p <+: q) ∨
      h.tmpl q = .single ∧ ∀ v, Mapped m loc (q ++ [v]) := by
  -- a value of an element that the message does not have
  have hvalue : ∀ {m : List Elem} {d : Data} {loc : Path} {e : Elem} {w : Str}, Fits m → e ∈ m →
      w ∉ (d.values e.name).map Prod.fst → loc ++ e.path ++ [w] <+: q →
      ∃ p, Mapped m loc p ∧ p ∈ h.running ∧ ¬ Requested m d loc p ∧ p <+: q := by
    intro m d loc e w hm he hw hpre
    refine ⟨_, .value he w, PathTree.mem_of_prefix hpre hrun, fun hr => ?_, hpre⟩
    obtain ⟨v, d', hv, hpre', -⟩ := hr.through hm he (List.prefix_append _ _)
    obtain rfl := same_value List.prefix_rfl hpre'
    exact hw (List.mem_map_of_mem hv)
  have hleaf : ∀ {n : Path}, n <+: q → q ≠ n → ∃ w, n ++ [w] <+: q := by
    rintro n ⟨s, rfl⟩ hne
    cases s with
    | nil => exact absurd (List.append_nil n) hne
    | cons w s => exact ⟨w, s, by simp⟩
  induction hx with
  | @own m d loc e x he hx =>
    cases hx with
    | remove hk hrun' hform =>
      rw [PathTree.Edit.Removes, hclean _ _ (.value he hk hrun' hform)] at hq
      exact Or.inl (hvalue hm he hform hq)
    | add hk hrun' hform => cases hq.1
    | clear hk hform =>
      by_cases heq : q = loc ++ e.path
      · subst heq
        exact Or.inr ⟨hk, fun v => .value he v⟩
      · obtain ⟨w, hw⟩ := hleaf hq heq
        exact Or.inl (hvalue hm he (by rw [hform]; simp) hw)
    | replace hk hrun' hform =>
      obtain ⟨-, hpre, hne, hnot⟩ := hq
      rw [List.dropLast_concat] at hpre hne
      obtain ⟨w, hw⟩ := hleaf hpre hne
      refine Or.inl (hvalue hm he (fun hform' => hnot ?_) hw)
      obtain rfl := hd.one_value he hk hform hform'
      exact hw
  | deeper he hv hx ih =>
    rcases ih (hm.down he) (hd.down he hv) (fun n k hs => hclean n k (.deeper he hv hs)) hq with
      ⟨p, hp, hprun, hpr, hpq⟩ | ⟨hk, hall⟩
    · have hlonger := hp.longer (hm.down he)
      exact Or.inl ⟨p, .deeper he _ hp, hprun,
        fun hr => hpr (hr.inside hm hd he hv hlonger.1 (by omega)), hpq⟩
    · exact Or.inr ⟨hk, fun v => .deeper he _ (hall v)⟩

end Edited

/-! ## Words -/

theorem wordsFrom_append (cur a b : Str) : wordsFrom cur (a ++ 32 :: b) = wordsFrom cur a ++ wordsFrom [] b := by
  induction a generalizing cur with
  | nil =>
    have hblank : isBlank 32 = true := by decide
    simp only [List.nil_append, wordsFrom, hblank, if_true]
    split
    · rfl
    · rfl
  | cons c a ih =>
    rw [List.cons_append, wordsFrom, wordsFrom]
    split
    · split
      · exact ih []
      · rw [ih [], List.cons_append]
    · exact ih _

theorem wordsOf_append (a b : Str) : wordsOf (a ++ str " " ++ b) = wordsOf a ++ wordsOf b := by
  rw [show str " " = [32] by decide, List.append_assoc]
  exact wordsFrom_append [] a b

theorem wordsFrom_word {w : Str} (hw : ∀ b ∈ w, isBlank b = false) {cur : Str} (hne : cur ++ w ≠ []) :
    wordsFrom cur w = [cur ++ w] := by
  induction w generalizing cur with
  | nil =>
    rw [List.append_nil] at hne ⊢
    rw [wordsFrom, if_neg hne]
  | cons b w ih =>
    rw [List.forall_mem_cons] at hw
    rw [wordsFrom, if_neg (by simp [hw.1]), ih hw.2 (by simp)]
    simp

theorem mem_wordsFrom {s cur : Str} (hcur : ∀ b ∈ cur, isBlank b = false) {w : Str} (hw : w ∈ wordsFrom cur s) :
    ∀ b ∈ w, isBlank b = false := by
  induction s generalizing cur with
  | nil =>
    rw [wordsFrom] at hw
    split at hw
    · cases hw
    · rw [List.mem_singleton.mp hw]
      exact hcur
  | cons c s ih =>
    rw [wordsFrom] at hw
    split at hw
    · split at hw
      · exact ih (by simp) hw
      · rcases List.mem_cons.mp hw with rfl | hw
        · exact hcur
        · exact ih (by simp) hw
    · rename_i hc
      refine ih (fun b hb => ?_) hw
      rcases List.mem_append.mp hb with hb | hb
      · exact hcur b hb
      · rw [List.mem_singleton.mp hb]
        simpa using hc

/-- A text that is one word of itself. -/
theorem wordsOf_eq_singleton {k : Str} : wordsOf k = [k] ↔ k ≠ [] ∧ ∀ b ∈ k, isBlank b = false := by
  constructor
  · intro hk
    refine ⟨?_, mem_wordsFrom (by simp) (show k ∈ wordsFrom [] k by rw [show wordsFrom [] k = [k] from hk]; simp)⟩
    rintro rfl
    cases hk
  · exact fun ⟨hne, hb⟩ => wordsFrom_word hb (by simpa using hne)

theorem blank_of_literal {b : UInt8} (hb : isLiteral b = true) :
    (isBlank b = true ∧ Shell.classOf b = .blank) ∨ (isBlank b = false ∧ Shell.classOf b = .plain) := by
  have hclass : Shell.classOf b = .plain ∨ Shell.classOf b = .blank := by
    simp only [isLiteral, Bool.and_eq_true, Bool.or_eq_true, decide_eq_true_eq] at hb
    exact hb.1.1.1.2
  have hblank : Shell.classOf b = .blank ↔ b = 32 ∨ b = 9 := by
    unfold Shell.classOf
    constructor
    · intro h
      split at h
      · assumption
      · repeat' split at h
        all_goals cases h
    · exact fun h => if_pos h
  rcases hclass with h | h
  · refine Or.inr ⟨?_, h⟩
    rw [isBlank, ← Bool.not_eq_true, Bool.or_eq_true, decide_eq_true_eq, decide_eq_true_eq, ← hblank, h]
    simp
  · refine Or.inl ⟨?_, h⟩
    rw [isBlank, Bool.or_eq_true, decide_eq_true_eq, decide_eq_true_eq]
    exact hblank.mp h

/-- A literal line is read as its words. -/
theorem lex_literal {s : Str} (hs : ∀ b ∈ s, isLiteral b = true) (cur : Str) (out : List Shell.Tok) :
    (Shell.Lexer.run ⟨if cur = [] then .blank else .word, Shell.own cur, out⟩ (Shell.own s)).finish =
      some (out ++ (wordsFrom cur s).map fun w => .word (Shell.own w)) := by
  induction s generalizing cur out with
  | nil =>
    rw [wordsFrom]
    by_cases hcur : cur = []
    · simp [hcur, Shell.own, Shell.Lexer.run, Shell.Lexer.finish]
    · simp [hcur, Shell.own, Shell.Lexer.run, Shell.Lexer.finish]
  | cons b s ih =>
    rw [List.forall_mem_cons] at hs
    have hrun : ∀ l : Shell.Lexer, l.run (Shell.own (b :: s)) = (l.step (b, .own)).run (Shell.own s) := fun _ => rfl
    rw [hrun, wordsFrom]
    rcases blank_of_literal hs.1 with ⟨hb, hclass⟩ | ⟨hb, hclass⟩
    · rw [if_pos hb]
      by_cases hcur : cur = []
      · have hstep : Shell.Lexer.step ⟨if cur = [] then .blank else .word, Shell.own cur, out⟩ (b, .own) =
            ⟨if ([] : Str) = [] then .blank else .word, Shell.own [], out⟩ := by
          simp [hcur, Shell.Lexer.step, Shell.next, Shell.Lexer.text, Shell.Lexer.emit, hclass, Shell.own]
        rw [hstep, ih hs.2, if_pos hcur]
      · have hstep : Shell.Lexer.step ⟨if cur = [] then .blank else .word, Shell.own cur, out⟩ (b, .own) =
            ⟨if ([] : Str) = [] then .blank else .word, Shell.own [], out ++ [.word (Shell.own cur)]⟩ := by
          simp [hcur, Shell.Lexer.step, Shell.next, Shell.Lexer.text, Shell.Lexer.emit, hclass, Shell.own]
        rw [hstep, ih hs.2, if_neg hcur]
        simp
    · have hword : ¬ isBlank b = true := by simp [hb]
      rw [if_neg hword]
      have hstep : Shell.Lexer.step ⟨if cur = [] then .blank else .word, Shell.own cur, out⟩ (b, .own) =
          ⟨if cur ++ [b] = [] then .blank else .word, Shell.own (cur ++ [b]), out⟩ := by
        by_cases hcur : cur = []
        · simp [hcur, Shell.Lexer.step, Shell.next, Shell.Lexer.text, Shell.Lexer.emit, hclass, Shell.own]
        · simp [hcur, Shell.Lexer.step, Shell.next, Shell.Lexer.text, Shell.Lexer.emit, hclass, Shell.own]
      rw [hstep, ih hs.2]

theorem shellWords_literal {s : Str} (hs : ∀ b ∈ s, isLiteral b = true) : shellWords s = some (wordsOf s) := by
  have hlex : Shell.lex (Shell.own s) = some ((wordsOf s).map fun w => .word (Shell.own w)) := lex_literal hs [] []
  have hown : ∀ w : Str, (Shell.own w).map Prod.fst = w := fun w => by simp [Shell.own, Function.comp_def]
  rw [shellWords, hlex, Option.bind_some]
  induction wordsOf s with
  | nil => rfl
  | cons w ws ih =>
    rw [List.map_cons, List.mapM_cons, ih]
    simp [hown]

theorem literal_unquoted {b : UInt8} (hb : isLiteral b = true) : b ∉ str "\"$`\\" ∧ b ≠ 0 := by
  refine ⟨fun hm => ?_, fun h0 => ?_⟩
  · have hclass : Shell.classOf b ≠ .plain ∧ Shell.classOf b ≠ .blank := by
      rw [show str "\"$`\\" = [34, 36, 96, 92] by decide] at hm
      simp only [List.mem_cons, List.not_mem_nil, or_false] at hm
      rcases hm with rfl | rfl | rfl | rfl <;> decide
    rcases blank_of_literal hb with ⟨-, h⟩ | ⟨-, h⟩
    · exact hclass.2 h
    · exact hclass.1 h
  · subst h0
    revert hb
    decide

theorem dquoted_literal {s : Str} (hs : ∀ b ∈ s, isLiteral b = true) : dquoted s = some s := by
  induction s with
  | nil => rfl
  | cons b s ih =>
    rw [List.forall_mem_cons] at hs
    obtain ⟨hq, h0⟩ := literal_unquoted hs.1
    cases s with
    | nil => rw [dquoted, if_neg (by simp [hq, h0])]
    | cons c s =>
      have hbackslash : b ≠ 92 := by
        rintro rfl
        exact hq (by decide)
      have hquote : ¬ (b ∈ str "\"$`" ∨ b = 0) := by
        rw [not_or]
        refine ⟨fun hm => hq ?_, h0⟩
        rw [show str "\"$`\\" = str "\"$`" ++ [92] by decide]
        exact List.mem_append_left _ hm
      rw [dquoted, if_neg hbackslash, if_neg hquote, ih hs.2]
      rfl

theorem cfgcliWords_literal {s : Str} (hs : ∀ b ∈ s, isLiteral b = true) : cfgcliWords s = some (wordsOf s) := by
  rw [cfgcliWords, dquoted_literal hs, Option.bind_some, shellWords_literal hs]

/-! ## The edits of the commands -/

section Commands

variable {h : Host}

/-- The text of a location. -/
def Located : Option Str → Path → Prop
  | none, p => p = []
  | some loc, p => wordsOf loc = p ∧ ∀ b ∈ loc, isLiteral b = true

theorem literal_append {a b : Str} (ha : ∀ c ∈ a, isLiteral c = true) (hb : ∀ c ∈ b, isLiteral c = true) :
    ∀ c ∈ a ++ str " " ++ b, isLiteral c = true := by
  intro c hc
  rcases List.mem_append.mp hc with hc | hc
  · rcases List.mem_append.mp hc with hc | hc
    · exact ha c hc
    · exact (by decide : ∀ c ∈ str " ", isLiteral c = true) c hc
  · exact hb c hc

theorem Located.param {lo : Option Str} {p : Path} (hlo : Located lo p) {location : Str}
    (hl : ∀ b ∈ location, isLiteral b = true) :
    wordsOf (paramLoc lo location) = p ++ wordsOf location ∧ ∀ b ∈ paramLoc lo location, isLiteral b = true := by
  cases lo with
  | none =>
    cases hlo
    exact ⟨rfl, hl⟩
  | some loc =>
    obtain ⟨rfl, hloc⟩ := hlo
    exact ⟨wordsOf_append loc location, literal_append hloc hl⟩

theorem hasParameter_literal {s : Str} (hs : ∀ b ∈ s, isLiteral b = true) : hasParameter s = false := by
  induction s with
  | nil => rfl
  | cons b s ih =>
    rw [List.forall_mem_cons] at hs
    have hne : b ≠ 36 := by
      rintro rfl
      exact absurd hs.1 (by decide)
    rw [hasParameter, ih hs.2]
    simp [hne]

theorem edit_command {verb param : Str} (hverb : wordsOf verb = [verb] ∧ ∀ b ∈ verb, isLiteral b = true)
    (hp : ∀ b ∈ param, isLiteral b = true) : cfgcliWords (verb ++ str " " ++ param) = some (verb :: wordsOf param) := by
  rw [cfgcliWords_literal (literal_append hverb.2 hp), wordsOf_append, hverb.1]
  rfl

theorem edit_delete {param : Str} (hp : ∀ b ∈ param, isLiteral b = true) :
    h.edit (str "delete " ++ param) = some (.delete (wordsOf param)) := by
  rw [show str "delete " = str "delete" ++ str " " by decide, Host.edit, edit_command (by decide) hp]
  exact (if_neg (by decide)).trans (if_pos rfl)

theorem edit_delete_value {param k : Str} (hp : ∀ b ∈ param, isLiteral b = true) (hk : ∀ b ∈ k, isLiteral b = true) :
    h.edit (str "delete " ++ param ++ str " " ++ k) = some (.delete (wordsOf param ++ wordsOf k)) := by
  have hline := edit_delete (h := h) (literal_append hp hk)
  rwa [wordsOf_append, ← List.append_assoc, ← List.append_assoc] at hline

theorem Word.words {v : Str} (hv : Word v) : wordsOf v = [v] ∧ ∀ b ∈ v, isLiteral b = true := by
  refine ⟨wordsOf_eq_singleton.mpr ⟨hv.1, fun b hb => ?_⟩, fun b hb => (hv.2 b hb).1⟩
  have hspace := (hv.2 b hb).2
  rcases hblank : isBlank b with _ | _
  · rfl
  · rw [isBlank, Bool.or_eq_true, decide_eq_true_eq, decide_eq_true_eq] at hblank
    rcases hblank with rfl | rfl <;> cases hspace

theorem edit_set {param v : Str} (hp : ∀ b ∈ param, isLiteral b = true) (hv : Word v) :
    h.edit (str "set " ++ param ++ str " " ++ v) = some (.put (wordsOf param ++ [v]) (h.tmpl (wordsOf param) = .single)) := by
  have hverb : wordsOf (str "set") = [str "set"] ∧ ∀ b ∈ str "set", isLiteral b = true := by decide
  have hline := edit_command hverb (literal_append hp hv.words.2)
  rw [wordsOf_append, hv.words.1, ← List.append_assoc, ← List.append_assoc] at hline
  rw [show str "set " = str "set" ++ str " " by decide, Host.edit, hline]
  refine (if_pos rfl).trans ?_
  rw [List.dropLast_concat]

theorem Word.strip {v : Str} (hv : Word v) : stripTrailing v = v ∧ v.contains 32 = false := by
  constructor
  · rw [stripTrailing]
    have hrev : v.reverse.dropWhile isSpace = v.reverse := by
      rcases hr : v.reverse with _ | ⟨b, r⟩
      · rfl
      · have hb : b ∈ v := List.mem_reverse.mp (by rw [hr]; exact List.mem_cons_self)
        exact List.dropWhile_cons_of_neg (by simp [(hv.2 b hb).2])
    rw [hrev, List.reverse_reverse]
  · rw [← Bool.not_eq_true, List.contains_iff_mem]
    intro hmem
    exact absurd (hv.2 32 hmem).2 (by decide)

theorem mem_assign {hash ks : List Str} {k : Str} : k ∈ assign hash ks ↔ k ∈ hash ∨ k ∈ ks := by
  rw [assign]
  induction ks generalizing hash with
  | nil => simp
  | cons c ks ih =>
    rw [List.foldl_cons, ih, List.mem_cons]
    split
    · rename_i hc
      constructor
      · rintro (hk | hk)
        · exact Or.inl hk
        · exact Or.inr (Or.inr hk)
      · rintro (hk | rfl | hk)
        · exact Or.inl hk
        · exact Or.inl hc
        · exact Or.inr hk
    · rw [List.mem_append, List.mem_singleton, or_assoc]

theorem mem_remove {hash ks : List Str} {k : Str} : k ∈ remove hash ks ↔ k ∈ hash ∧ k ∉ ks := by
  rw [remove, List.mem_filter, decide_eq_true_eq]

/-- A hash that is used twice gives the differences both ways. -/
theorem mem_differences {β : Type} {f g : Str → β} {conf form : List Str} {use use' : Str} {c : β} :
    c ∈ (h.keys use (remove (assign [] conf) form)).map f ++
        (h.keys use' (remove (assign (remove (assign [] conf) form) form) conf)).map g ↔
      (∃ k ∈ conf, k ∉ form ∧ c = f k) ∨ ∃ k ∈ form, k ∉ conf ∧ c = g k := by
  simp only [List.mem_append, List.mem_map, (h.keys_perm _ _).mem_iff, mem_remove, mem_assign, List.not_mem_nil, false_or]
  refine or_congr ⟨?_, ?_⟩ ⟨?_, ?_⟩
  · rintro ⟨k, ⟨hk, hform⟩, rfl⟩
    exact ⟨k, hk, hform, rfl⟩
  · rintro ⟨k, hk, hform, rfl⟩
    exact ⟨k, ⟨hk, hform⟩, rfl⟩
  · rintro ⟨k, ⟨hk | hk, hrun⟩, rfl⟩
    · exact absurd hk.1 hrun
    · exact ⟨k, hk, hrun, rfl⟩
  · rintro ⟨k, hk, hrun, rfl⟩
    exact ⟨k, ⟨Or.inr hk, hrun⟩, rfl⟩

theorem mem_diffCommands {param : Str} {form : List Str} {ev : Event} : ev ∈ h.diffCommands param form ↔
    (∃ k, wordsOf param ++ [k] ∈ h.running ∧ k ∉ form ∧ ev = .run (str "delete " ++ param ++ str " " ++ k)) ∨
      ∃ k ∈ form, wordsOf param ++ [k] ∉ h.running ∧ ev = .run (str "set " ++ param ++ str " " ++ k) := by
  rw [Host.diffCommands, mem_differences]
  simp only [PathTree.mem_children]

theorem leafCommands_word {param v : Str} (hv : Word v) (rest : List Str) : h.leafCommands param (v :: rest) =
    if wordsOf param ++ [v] ∈ h.running then [] else [.run (str "set " ++ param ++ str " " ++ v)] := by
  rw [Host.leafCommands]
  simp only [hv.strip.1, hv.strip.2, Bool.false_eq_true, if_false]
  rw [if_neg hv.1, wordsOf_append, hv.words.1]

theorem setElems_eq (m : List Elem) (d : Data) (lo : Option Str) : h.setElems m d lo = m.flatMap fun e => h.setOne e d lo := by
  induction m with
  | nil => rw [Host.setElems]; rfl
  | cons e m ih => rw [Host.setElems, ih, List.flatMap_cons]

theorem around_eq {m : List Elem} (hm : ∀ e ∈ m, e.name ≠ str "callback_first" ∧ e.name ≠ str "callback_last")
    (lo : Option Str) (events : List Event) : Host.around m lo events = events := by
  have hnone : ∀ name, (∀ e ∈ m, e.name ≠ name) → m.any (fun e => decide (e.name = name)) = false := by
    intro name hname
    rw [List.any_eq_false]
    exact fun e he => by simpa using hname e he
  rw [Host.around]
  simp only [hnone _ fun e he => (hm e he).1, hnone _ fun e he => (hm e he).2, Bool.false_eq_true, if_false, List.nil_append,
    List.append_nil]

theorem setOne_eq {e : Elem} {location : Str} (hloc : e.location = some location) (d : Data) {lo : Option Str}
    (hparam : hasParameter (paramLoc lo location) = false)
    (hnames : ∀ c ∈ e.children, c.name ≠ str "callback_first" ∧ c.name ≠ str "callback_last") :
    h.setOne e d lo = h.elemCommands (paramLoc lo location) ((d.values e.name).map Prod.fst) ++
      (d.values e.name).flatMap fun v => h.setElems e.children v.2 (some (paramLoc lo location ++ str " " ++ v.1)) := by
  obtain ⟨name, loc, callback, children⟩ := e
  cases hloc
  rw [Host.setOne]
  simp only [hparam, Bool.false_eq_true, if_false]
  refine congrArg₂ (· ++ ·) rfl ?_
  cases children with
  | nil => simp [Elem.children, Host.setElems]
  | cons c cs =>
    rw [if_neg (by simp)]
    exact List.flatMap_congr fun v _ => around_eq hnames _ _

/-- The commands of one node do its edits. -/
theorem elemCommands_edits {n : Path} {param : Str} {form : List Str}
    (hparam : wordsOf param = n ∧ ∀ b ∈ param, isLiteral b = true)
    (hwords : ∀ v ∈ form, Word v) (hone : h.tmpl n = .single → ∀ v ∈ form, ∀ w ∈ form, v = w)
    (hlit : ∀ k, h.tmpl n ≠ .single → n ++ [k] ∈ h.running → k ∉ form → ∀ b ∈ k, isLiteral b = true) {x : PathTree.Edit Str} :
    (∃ ev ∈ h.elemCommands param form, h.eventEdit ev = some x) ↔ NodeEdits h n form x := by
  obtain ⟨rfl, hliteral⟩ := hparam
  rw [Host.elemCommands]
  by_cases hk : h.tmpl (wordsOf param) = .single
  · rw [hk]
    simp only
    cases form with
    | nil =>
      simp only [Host.leafCommands, List.mem_singleton, exists_eq_left, Host.eventEdit, edit_delete hliteral, Option.some.injEq]
      constructor
      · rintro rfl
        exact .clear hk rfl
      · intro hx
        cases hx with
        | remove hk' => exact absurd hk hk'
        | add hk' => exact absurd hk hk'
        | clear => rfl
        | replace hk' hrun hform => cases hform
    | cons v rest =>
      have hv := hwords v List.mem_cons_self
      have hput := edit_set (h := h) hliteral hv
      simp only [hk, decide_true] at hput
      rw [leafCommands_word hv]
      constructor
      · rintro ⟨ev, hev, hx⟩
        split at hev
        · cases hev
        · rename_i hrun
          rw [List.mem_singleton.mp hev, Host.eventEdit, hput] at hx
          cases hx
          exact .replace hk hrun List.mem_cons_self
      · intro hx
        cases hx with
        | remove hk' => exact absurd hk hk'
        | add hk' => exact absurd hk hk'
        | clear hk' hform => cases hform
        | replace hk' hrun hform =>
          obtain rfl := hone hk _ hform v List.mem_cons_self
          rw [if_neg hrun]
          exact ⟨_, List.mem_singleton_self _, hput⟩
  · have hdiff : (match h.tmpl (wordsOf param) with
        | .tag | .multi => h.diffCommands param form
        | .single => h.leafCommands param form) = h.diffCommands param form := by
      split
      · rfl
      · rfl
      · rename_i hsingle
        exact absurd hsingle hk
    have hput : ∀ v ∈ form, h.edit (str "set " ++ param ++ str " " ++ v) = some (.put (wordsOf param ++ [v]) false) := by
      intro v hv
      rw [edit_set hliteral (hwords v hv), decide_eq_false hk]
    rw [hdiff]
    simp only [mem_diffCommands]
    constructor
    · rintro ⟨ev, ⟨k, hrun, hform, rfl⟩ | ⟨v, hform, hrun, rfl⟩, hx⟩
      · rw [Host.eventEdit, edit_delete_value hliteral (hlit k hk hrun hform)] at hx
        cases hx
        exact .remove hk hrun hform
      · rw [Host.eventEdit, hput v hform] at hx
        cases hx
        exact .add hk hrun hform
    · intro hx
      cases hx with
      | remove hk' hrun hform =>
        exact ⟨_, Or.inl ⟨_, hrun, hform, rfl⟩, edit_delete_value hliteral (hlit _ hk hrun hform)⟩
      | add hk' hrun hform => exact ⟨_, Or.inr ⟨_, hform, hrun, rfl⟩, hput _ hform⟩
      | clear hk' => exact absurd hk' hk
      | replace hk' => exact absurd hk' hk

/-- The commands of a map do the edits of its elements, and no others. -/
theorem setElems_edits {m : List Elem} {loc : Path} (hm : Fits m) {d : Data} {lo : Option Str} (hlo : Located lo loc)
    (hd : Requests h m d loc) (hlit : ∀ n k, Stale h m d loc n k → ∀ b ∈ k, isLiteral b = true) {x : PathTree.Edit Str} :
    (∃ ev ∈ h.setElems m d lo, h.eventEdit ev = some x) ↔ Edits h m d loc x := by
  induction hm generalizing d loc lo with
  | @mk m names located apart below ih =>
    have hone : ∀ e ∈ m, (∃ ev ∈ h.setOne e d lo, h.eventEdit ev = some x) ↔
        NodeEdits h (loc ++ e.path) ((d.values e.name).map Prod.fst) x ∨
          ∃ v d', (v, d') ∈ d.values e.name ∧ Edits h e.children d' (loc ++ e.path ++ [v]) x := by
      intro e he
      obtain ⟨location, hl, -, hlitl⟩ := located e he
      obtain ⟨hwords, hliteral⟩ := hlo.param hlitl
      have hpath : e.path = wordsOf location := by rw [Elem.path, hl]; rfl
      rw [← hpath] at hwords
      have hchildren : ∀ c ∈ e.children, c.name ≠ str "callback_first" ∧ c.name ≠ str "callback_last" := by
        cases below e he with
        | mk names' _ _ _ => exact names'
      have hown := elemCommands_edits (x := x) ⟨hwords, hliteral⟩ (hd.word he) (fun hk v hv w hw => hd.one_value he hk hv hw)
        fun k hk hrun hform => hlit _ k (.value he hk hrun hform)
      have hdeeper : ∀ v d', (v, d') ∈ d.values e.name →
          ((∃ ev ∈ h.setElems e.children d' (some (paramLoc lo location ++ str " " ++ v)), h.eventEdit ev = some x) ↔
            Edits h e.children d' (loc ++ e.path ++ [v]) x) := by
        intro v d' hv
        have hword := (hd.word he v (List.mem_map_of_mem hv)).words
        refine ih e he ⟨?_, literal_append hliteral hword.2⟩ (hd.down he hv) fun n k hs => hlit n k (.deeper he hv hs)
        rw [wordsOf_append, hwords, hword.1]
      rw [setOne_eq hl d (hasParameter_literal hliteral) hchildren, ← hown]
      simp only [List.mem_append, List.mem_flatMap]
      constructor
      · rintro ⟨ev, hev | ⟨⟨v, d'⟩, hv, hev⟩, hx⟩
        · exact Or.inl ⟨ev, hev, hx⟩
        · exact Or.inr ⟨v, d', hv, (hdeeper v d' hv).mp ⟨ev, hev, hx⟩⟩
      · rintro (⟨ev, hev, hx⟩ | ⟨v, d', hv, hx⟩)
        · exact ⟨ev, Or.inl hev, hx⟩
        · obtain ⟨ev, hev, hedit⟩ := (hdeeper v d' hv).mpr hx
          exact ⟨ev, Or.inr ⟨(v, d'), hv, hev⟩, hedit⟩
    rw [setElems_eq]
    simp only [List.mem_flatMap]
    constructor
    · rintro ⟨ev, ⟨e, he, hev⟩, hx⟩
      rcases (hone e he).mp ⟨ev, hev, hx⟩ with hown | ⟨v, d', hv, hdeeper⟩
      · exact .own he hown
      · exact .deeper he hv hdeeper
    · intro hx
      obtain ⟨e, he, hedit⟩ : ∃ e ∈ m, NodeEdits h (loc ++ e.path) ((d.values e.name).map Prod.fst) x ∨
          ∃ v d', (v, d') ∈ d.values e.name ∧ Edits h e.children d' (loc ++ e.path ++ [v]) x := by
        cases hx with
        | own he hown => exact ⟨_, he, Or.inl hown⟩
        | deeper he hv hdeeper => exact ⟨_, he, Or.inr ⟨_, _, hv, hdeeper⟩⟩
      obtain ⟨ev, hev, hx⟩ := (hone e he).mpr hedit
      exact ⟨ev, ⟨e, he, hev⟩, hx⟩

end Commands

/-! ## Values that are not words -/

section Stale

variable {h : Host} {m : List Elem} {d : Data} {loc n : Path} {k : Str}

/-- A value that is to be removed is there, and not requested. -/
theorem Stale.facts (hm : Fits m) (hd : Requests h m d loc) (hs : Stale h m d loc n k) :
    Mapped m loc (n ++ [k]) ∧ n ++ [k] ∈ h.running ∧ ¬ Requested m d loc (n ++ [k]) := by
  induction hs with
  | value he hk hrun hform =>
    refine ⟨.value he _, hrun, fun hr => hform ?_⟩
    obtain ⟨v, d', hv, hpre, -⟩ := hr.through hm he (List.prefix_append _ _)
    obtain rfl := same_value List.prefix_rfl hpre
    exact List.mem_map_of_mem hv
  | deeper he hv hs ih =>
    obtain ⟨hmapped, hrun, hnot⟩ := ih (hm.down he) (hd.down he hv)
    have hlonger := hmapped.longer (hm.down he)
    exact ⟨.deeper he _ hmapped, hrun, fun hr => hnot (hr.inside hm hd he hv hlonger.1 (by omega))⟩

theorem Stale.below_loc (hs : Stale h m d loc n k) : loc <+: n := by
  induction hs with
  | value he hk hrun hform => exact List.prefix_append _ _
  | deeper he hv hs ih =>
    rw [List.append_assoc] at ih
    exact (List.prefix_append _ _).trans ih

/-- A value with a blank in it stays, if the values to be removed nearer to the root are words:
    its own command names other nodes, and the others name it neither. -/
theorem Stale.stays (hm : Fits m) (hd : Requests h m d loc) (hs : Stale h m d loc n k) (hblank : wordsOf k ≠ [k])
    (hwords : ∀ n' k', Stale h m d loc n' k' → wordsOf k' ≠ [])
    (hnear : ∀ n' k', Stale h m d loc n' k' → n'.length < n.length → wordsOf k' = [k']) {x : PathTree.Edit Str}
    (hx : Edits h m d loc x) : ¬ x.Removes (n ++ [k]) := by
  intro hr
  induction hs with
  | @value m d loc e k he hk hrun hform =>
    cases hx with
    | @own _ _ _ e' _ he' hx =>
      -- whatever the edit removes lies below its own element
      have hsame : loc ++ e'.path <+: loc ++ e.path ++ [k] → e = e' := fun hpre => hm.same he he' (List.prefix_append _ _) hpre
      cases hx with
      | @remove k' hk' hrun' hform' =>
        obtain rfl := hsame ((List.prefix_append _ _).trans hr)
        have hpre : wordsOf k' <+: [k] := (List.prefix_append_right_inj _).mp hr
        have hword : k ∈ wordsOf k' := by
          rcases hws : wordsOf k' with _ | ⟨w, ws⟩
          · exact absurd hws (hwords _ _ (.value he hk hrun' hform'))
          · rw [hws] at hpre
            rw [(List.cons_prefix_cons.mp hpre).1]
            exact List.mem_cons_self
        refine hblank (wordsOf_eq_singleton.mpr ⟨?_, mem_wordsFrom (by simp) hword⟩)
        rintro rfl
        exact hwords _ _ (.value he hk hrun hform) rfl
      | add hk' => cases hr.1
      | clear hk' =>
        obtain rfl := hsame hr
        exact hk hk'
      | replace hk' =>
        have hpre := hr.2.1
        rw [List.dropLast_concat] at hpre
        obtain rfl := hsame hpre
        exact hk hk'
    | deeper he' hv hx =>
      obtain ⟨hpre, hlen⟩ := hx.removes_below (hm.down he') hr
      obtain rfl := hm.same he he' (List.prefix_append _ _) ((List.prefix_append _ _).trans hpre)
      simp at hlen
  | @deeper m d d' loc n e v k he hv hs ih =>
    have hv' : loc ++ e.path ++ [v] <+: n ++ [k] := hs.below_loc.trans (List.prefix_append _ _)
    have hlen : (loc ++ e.path).length < n.length := by
      have := hs.below_loc.length_le
      rw [List.length_append, List.length_singleton] at this
      omega
    cases hx with
    | @own _ _ _ e' _ he' hx =>
      have hsame : loc ++ e'.path <+: n ++ [k] → e = e' := fun hpre =>
        hm.same he he' ((List.prefix_append _ _).trans hv') hpre
      cases hx with
      | remove hk' hrun' hform' =>
        obtain rfl := hsame ((List.prefix_append _ _).trans hr)
        rw [PathTree.Edit.Removes, hnear _ _ (.value he hk' hrun' hform') hlen] at hr
        obtain rfl := same_value hv' hr
        exact hform' (List.mem_map_of_mem hv)
      | add hk' => cases hr.1
      | clear hk' hform' =>
        obtain rfl := hsame hr
        rw [List.map_eq_nil_iff.mp hform'] at hv
        cases hv
      | replace hk' hrun' hform' =>
        obtain ⟨-, hpre, -, hnot⟩ := hr
        rw [List.dropLast_concat] at hpre
        obtain rfl := hsame hpre
        obtain rfl := hd.one_value he hk' (List.mem_map_of_mem hv) hform'
        exact hnot hv'
    | deeper he' hw hx =>
      obtain ⟨hpre, -⟩ := hx.removes_below (hm.down he') hr
      obtain rfl := hm.same he he' ((List.prefix_append _ _).trans hv') ((List.prefix_append _ _).trans hpre)
      obtain rfl := same_value hv' hpre
      obtain rfl := hd.unique he hv hw
      exact ih (hm.down he) (hd.down he hv) hblank (fun n' k' hs' => hwords n' k' (.deeper he hv hs'))
        (fun n' k' hs' => hnear n' k' (.deeper he hv hs')) hx hr

end Stale

/-! ## The candidate configuration -/

section Candidate

variable {h : Host} {m : List Elem} {d : Data}

theorem setElem_edits (hm : Fits m) (hd : Requests h m d []) (hlit : ∀ n k, Stale h m d [] n k → ∀ b ∈ k, isLiteral b = true)
    {x : PathTree.Edit Str} : (∃ ev ∈ h.setElem m d none, h.eventEdit ev = some x) ↔ Edits h m d [] x := by
  have hnames : ∀ e ∈ m, e.name ≠ str "callback_first" ∧ e.name ≠ str "callback_last" := by
    cases hm with
    | mk names _ _ _ => exact names
  rw [Host.setElem, around_eq hnames]
  exact setElems_edits hm (show Located none [] from rfl) hd hlit

/-- If the values that are to be removed are words, the configuration is what was asked for. -/
theorem reconciled_of_words (hm : Fits m) (hd : Requests h m d [])
    (hlit : ∀ n k, Stale h m d [] n k → ∀ b ∈ k, isLiteral b = true)
    (hclean : ∀ n k, Stale h m d [] n k → wordsOf k = [k]) : Reconciled h m d := by
  have hedits : ∀ x, x ∈ (h.setElem m d none).filterMap h.eventEdit ↔ Edits h m d [] x := fun x => by
    rw [List.mem_filterMap, setElem_edits hm hd hlit]
  have hmem : ∀ q, q ∈ h.candidate m d ↔
      q ∈ h.running ∧ (∀ x, Edits h m d [] x → ¬ x.Removes q) ∨ ∃ x, Edits h m d [] x ∧ x.Adds q := by
    intro q
    rw [Host.candidate, PathTree.mem_applyAll]
    · simp only [hedits]
    · intro x hx y hy r hadds hremoves
      obtain ⟨hr, -, hpre⟩ := ((hedits x).mp hx).puts hadds
      exact ((hedits y).mp hy).spares hm hd hclean hr (hremoves.below hpre)
  constructor
  · intro p hp
    rw [hmem]
    constructor
    · rintro (⟨hrun, hspared⟩ | ⟨x, hx, hadds⟩)
      · exact requested_of_spared hm hd hclean hp hrun hspared
      · obtain ⟨hr, -, hpre⟩ := hx.puts hadds
        exact requested_of_prefix hm hp hr hpre
    · intro hr
      by_cases hrun : p ∈ h.running
      · exact Or.inl ⟨hrun, fun x hx => hx.spares hm hd hclean hr⟩
      · exact Or.inr (hr.put hrun)
  · intro p hp hk hrun hr cmd x hcmd hx
    have hedit : Edits h m d [] x := (setElem_edits hm hd hlit).mp ⟨_, hcmd, hx⟩
    have hnot : ¬ x.path <+: p := by
      intro hpre
      cases x with
      | delete q => exact hedit.spares hm hd hclean hr hpre
      | put q single => exact (hedit.puts (q := q) List.prefix_rfl).2.1 (PathTree.mem_of_prefix hpre hrun)
    refine ⟨hnot, fun hpre => ?_⟩
    obtain ⟨p', hp', hpath⟩ := hedit.target hclean
    have hbelow : x.path <+: p' := by
      rcases hpath with hpath | hpath
      · rw [hpath]
      · rw [hpath]
        exact List.dropLast_prefix p'
    exact ⟨p', hp', hpre.trans hbelow, fun heq => hnot (heq ▸ hbelow), hpath⟩
  · intro q hrun hq
    rw [hmem, not_or] at hq
    obtain ⟨x, hx, hr⟩ : ∃ x, Edits h m d [] x ∧ x.Removes q := by
      by_contra hno
      exact hq.1 ⟨hrun, fun x hx hr => hno ⟨x, hx, hr⟩⟩
    exact hx.removed hm hd hclean hr hrun
  · intro q hq hrun
    rcases (hmem q).mp hq with ⟨hrun', -⟩ | ⟨x, hx, hadds⟩
    · exact absurd hrun' hrun
    · obtain ⟨hr, -, hpre⟩ := hx.puts hadds
      exact ⟨_, hr, hpre⟩

/-- One word to the shell: not empty, without blanks and without metacharacters. -/
def Bare (k : Str) : Prop := k ≠ [] ∧ ∀ b ∈ k, isLiteral b = true ∧ isBlank b = false

instance (k : Str) : Decidable (Bare k) := inferInstanceAs (Decidable (_ ∧ _))

/-- Nothing in it that the shell would take for something else, and not only blanks. -/
def Literal (k : Str) : Prop := (∀ b ∈ k, isLiteral b = true) ∧ ∃ b ∈ k, isBlank b = false

theorem wordsFrom_ne_nil {s cur : Str} (hs : cur ≠ [] ∨ ∃ b ∈ s, isBlank b = false) : wordsFrom cur s ≠ [] := by
  induction s generalizing cur with
  | nil =>
    rcases hs with hcur | ⟨b, hb, -⟩
    · rw [wordsFrom, if_neg hcur]
      simp
    · cases hb
  | cons c s ih =>
    rw [wordsFrom]
    split
    · rename_i hc
      split
      · rename_i hcur
        rcases hs with hne | ⟨b, hb, hblank⟩
        · exact absurd hcur hne
        · rcases List.mem_cons.mp hb with rfl | hb
          · rw [hc] at hblank
            cases hblank
          · exact ih (Or.inr ⟨b, hb, hblank⟩)
      · simp
    · exact ih (Or.inl (by simp))

/-- A literal value with a blank in it is not removed, and the message not reconciled. -/
theorem Reconciled.unblank (hm : Fits m) (hd : Requests h m d []) (hlit : ∀ n k, Stale h m d [] n k → Literal k)
    (hrec : Reconciled h m d) : ∀ n k, Stale h m d [] n k → wordsOf k = [k] := by
  have hbytes : ∀ n k, Stale h m d [] n k → ∀ b ∈ k, isLiteral b = true := fun n k hs => (hlit n k hs).1
  have hwords : ∀ n k, Stale h m d [] n k → wordsOf k ≠ [] := fun n k hs => wordsFrom_ne_nil (Or.inr (hlit n k hs).2)
  by_contra hno
  -- of the values with a blank the one nearest to the root stays
  have hsome : ∃ l n k, Stale h m d [] n k ∧ wordsOf k ≠ [k] ∧ n.length = l := by
    simp only [not_forall] at hno
    obtain ⟨n, k, hs, hk⟩ := hno
    exact ⟨_, n, k, hs, hk, rfl⟩
  classical
  obtain ⟨n, k, hs, hblank, hlen⟩ := Nat.find_spec hsome
  have hnear : ∀ n' k', Stale h m d [] n' k' → n'.length < n.length → wordsOf k' = [k'] := by
    intro n' k' hs' hlt
    by_contra hk'
    exact Nat.find_min hsome (hlen ▸ hlt) ⟨n', k', hs', hk', rfl⟩
  obtain ⟨hmapped, hrun, hnot⟩ := hs.facts hm hd
  refine hnot ((hrec.requested _ hmapped).mp (PathTree.mem_applyAll_of_spared (fun x hx => ?_) hrun))
  rw [List.mem_filterMap, setElem_edits hm hd hbytes] at hx
  exact hs.stays hm hd hblank hwords hnear hx

/-- In every running configuration a message is reconciled if each value that is to be removed is one
    word; and it is only then, among the values that the shell leaves alone. -/
theorem reconciled_iff (hm : Fits m) (hd : Requests h m d []) :
    ((∀ n k, Stale h m d [] n k → Bare k) → Reconciled h m d) ∧
    ((∀ n k, Stale h m d [] n k → Literal k) → Reconciled h m d → ∀ n k, Stale h m d [] n k → Bare k) := by
  constructor
  · intro hbare
    exact reconciled_of_words hm hd (fun n k hs b hb => ((hbare n k hs).2 b hb).1) fun n k hs =>
      wordsOf_eq_singleton.mpr ⟨(hbare n k hs).1, fun b hb => ((hbare n k hs).2 b hb).2⟩
  · intro hlit hrec n k hs
    obtain ⟨hne, hblank⟩ := wordsOf_eq_singleton.mp (hrec.unblank hm hd hlit n k hs)
    exact ⟨hne, fun b hb => ⟨(hlit n k hs).1 b hb, hblank b hb⟩⟩

end Candidate

/-! ## Two messages -/

/-- Users, each with groups and one shell. -/
def sampleMap : List Elem :=
  [.mk (str "user") (some (str "login user")) false
    [.mk (str "group") (some (str "group")) false [], .mk (str "shell") (some (str "shell")) false []]]

theorem sampleMap_fits : Fits sampleMap := by
  have hleaf : Fits [] := ⟨by simp, by simp, List.Pairwise.nil, by simp⟩
  have hbelow : Fits [.mk (str "group") (some (str "group")) false [], .mk (str "shell") (some (str "shell")) false []] := by
    refine ⟨by decide, ?_, by decide, by simpa [Elem.children] using hleaf⟩
    simp only [List.forall_mem_cons]
    exact ⟨⟨_, rfl, by decide, by decide⟩, ⟨_, rfl, by decide, by decide⟩, by simp⟩
  refine ⟨by decide, ?_, by decide, by simpa [sampleMap, Elem.children] using hbelow⟩
  simp only [sampleMap, List.forall_mem_cons]
  exact ⟨⟨_, rfl, by decide, by decide⟩, by simp⟩

def sampleTmpl (p : Path) : Kind :=
  if p.getLast? = some (str "shell") then .single else if p.getLast? = some (str "group") then .multi else .tag

/-- A configuration from the paths of its nodes. -/
def sampleHost (nodes : List Path) (hclosed : ∀ q ∈ nodes, q.dropLast ∈ nodes)
    (hone : ∀ q ∈ nodes, ∀ r ∈ nodes, sampleTmpl q.dropLast = .single → q.dropLast = r.dropLast → q = r) : Host where
  tmpl := sampleTmpl
  running :=
    { nodes
      closed := fun p v hp => by simpa using hclosed _ hp }
  keys _ hash := hash
  keys_perm _ _ := .refl _
  one p v w hk hv hw := by
    have heq := hone _ hv _ hw (by simpa using hk) (by simp)
    simpa using heq

def login (rest : Path) : Path := str "login" :: str "user" :: rest

/-- `alice` with two groups and a shell, and `bob`. -/
def sampleNodes : List Path :=
  [[], [str "login"], login [], login [str "alice"], login [str "alice", str "group"],
    login [str "alice", str "group", str "ops"],
   login [str "alice", str "group", str "dev"], login [str "alice", str "shell"], login [str "alice", str "shell", str "sh"],
   login [str "bob"]]

def sampleRunning : Host := sampleHost sampleNodes (by decide) (by decide)

/-- `alice` with another group and another shell, and `carol`. -/
def sampleData : Data :=
  .mk [(str "user",
    [(str "alice", .mk [(str "group", [(str "dev", .mk []), (str "web", .mk [])]), (str "shell", [(str "zsh", .mk [])])]),
    (str "carol", .mk [])])]

instance (v : Str) : Decidable (Word v) := inferInstanceAs (Decidable (_ ∧ _))

theorem requests_nothing (h : Host) (m : List Elem) (loc : Path) : Requests h m (.mk []) loc :=
  ⟨fun _ _ _ hv => (nomatch hv), fun _ _ => List.nodup_nil, fun _ _ _ => Nat.zero_le 1, fun _ _ _ hv => (nomatch hv)⟩

theorem sampleData_requests : Requests sampleRunning sampleMap sampleData [] := by
  refine ⟨by decide, by decide, by decide, ?_⟩
  simp only [sampleMap, List.forall_mem_cons, List.not_mem_nil, false_imp_iff, implies_true, and_true]
  intro v hv
  have hvalues : v = (str "alice", .mk [(str "group", [(str "dev", .mk []), (str "web", .mk [])]),
      (str "shell", [(str "zsh", .mk [])])]) ∨ v = (str "carol", .mk []) := by
    simpa [sampleData, Data.values, Elem.name] using hv
  rcases hvalues with rfl | rfl
  · refine ⟨by decide, by decide, by decide, fun e he w hw => ?_⟩
    simp only [Elem.children, List.mem_cons, List.not_mem_nil, or_false] at he
    rcases he with rfl | rfl
    · have hnone : w.2 = .mk [] := by
        have hw' : w = (str "dev", .mk []) ∨ w = (str "web", .mk []) := by simpa [Data.values, Elem.name] using hw
        rcases hw' with rfl | rfl <;> rfl
      rw [hnone]
      exact requests_nothing _ _ _
    · have hnone : w.2 = .mk [] := by
        have hlookup : List.lookup (str "shell") [(str "group", [(str "dev", Data.mk []), (str "web", .mk [])]),
            (str "shell", [(str "zsh", .mk [])])] = some [(str "zsh", .mk [])] := rfl
        have hw' : w = (str "zsh", .mk []) := by simpa [Data.values, Elem.name, hlookup] using hw
        rw [hw']
      rw [hnone]
      exact requests_nothing _ _ _
  · exact requests_nothing _ _ _

theorem stale_mem {h : Host} {m : List Elem} {d : Data} {n : Path} {k : Str} (hm : Fits m) (hd : Requests h m d [])
    (hs : Stale h m d [] n k) : ∃ q ∈ h.running.nodes, q.getLast? = some k :=
  ⟨_, (hs.facts hm hd).2.1, by simp⟩

theorem a_message_is_reconciled : sampleRunning.setElem sampleMap sampleData none =
      [.run (str "delete login user bob"), .run (str "set login user carol"), .run (str "delete login user alice group ops"),
       .run (str "set login user alice group web"), .run (str "set login user alice shell zsh"),
       .run (str "delete login user carol shell")] ∧ Reconciled sampleRunning sampleMap sampleData := by
  have hvalues : ∀ q ∈ sampleNodes, ∀ k ∈ q, Bare k := by decide
  have hstale : ∀ n k, Stale sampleRunning sampleMap sampleData [] n k → Bare k := by
    intro n k hs
    obtain ⟨q, hq, hk⟩ := stale_mem sampleMap_fits sampleData_requests hs
    exact hvalues q hq k (List.mem_of_getLast? hk)
  exact ⟨by decide, (reconciled_iff sampleMap_fits sampleData_requests).1 hstale⟩

/-- One node with several values, of which one has a blank. -/
def blankMap : List Elem := [.mk (str "group") (some (str "group")) false []]

def blankRunning : Host :=
  sampleHost [[], [str "group"], [str "group", str "a b"]] (by decide) (by decide)

/-- The command for it names another node, and the value stays. -/
theorem a_value_with_a_blank_stays : Fits blankMap ∧ Requests blankRunning blankMap (.mk []) [] ∧
    blankRunning.setElem blankMap (.mk []) none = [.run (str "delete group a b")] ∧
    blankRunning.edit (str "delete group a b") = some (.delete [str "group", str "a", str "b"]) ∧
    ¬ Reconciled blankRunning blankMap (.mk []) := by
  have hfits : Fits blankMap := by
    refine ⟨by decide, ?_, by decide, by simpa [blankMap, Elem.children] using ⟨by simp, by simp, List.Pairwise.nil, by simp⟩⟩
    simp only [blankMap, List.forall_mem_cons]
    exact ⟨⟨_, rfl, by decide, by decide⟩, by simp⟩
  refine ⟨hfits, requests_nothing _ _ _, by decide, by rfl, fun hrec => ?_⟩
  have hmapped : Mapped blankMap [] [str "group", str "a b"] := .value (List.mem_singleton_self _) _
  have hstays : [str "group", str "a b"] ∈ blankRunning.candidate blankMap (.mk []) := by decide
  obtain ⟨e, -, v, d', hv, -⟩ := ((hrec.requested _ hmapped).mp hstays).under
  cases hv

end VyattaRest.MsgSimple
