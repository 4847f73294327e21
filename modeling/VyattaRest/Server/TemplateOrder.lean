/-
  VyattaRest.Server.TemplateOrder — the entries of a template in whatever order configd gives
  them (`Configuration::get_template_node`, configuration.cc).

  The loop over a template knows thirteen keys (`EntryKey`). An entry changes the parameters by
  itself (`EntryKey.apply`), and a node without children is an end whenever that is found out.
  Two entries with different keys can change places, but for `tag` and `multi`, which write the
  same limit (`EntryKey.apply_comm`).
  - `exec_templateEntries_iff`: the loop is a fold over the entries, and asks for the children
    once for each known one.
  - `entry_order_is_irrelevant`: with the same answers to the other queries, two orders of a
    template with distinct keys and without both `tag` and `multi` give the same parameters.
-/

import Mathlib.Data.List.Nodup
import VyattaRest.Server.Configuration

namespace VyattaRest.Server.Configuration

open VyattaRest.Lib VyattaRest.Lib.Prog VyattaRest.Rest

/-! ## Keys -/

inductive EntryKey where
  | isValue
  | tag
  | multi
  | default
  | type
  | compHelp
  | valHelp
  | help
  | expression
  | enumeration
  | allowed
  | secret
  | run
  deriving DecidableEq

def entryKey (key : Str) : Option EntryKey :=
  if key = str "is_value" then some .isValue
  else if key = str "tag" then some .tag
  else if key = str "multi" then some .multi
  else if key = str "default" then some .default
  else if key = str "type" then some .type
  else if key = str "comp_help" then some .compHelp
  else if key = str "val_help" then some .valHelp
  else if key = str "help" then some .help
  else if key = str "syntax" then some .expression
  else if key = str "enumeration" then some .enumeration
  else if key = str "allowed" then some .allowed
  else if key = str "secret" then some .secret
  else if key = str "run" then some .run
  else none

/-- The parameters, and whether `is_value` has come by. -/
abbrev Parsed := TemplateParams × Bool

def EntryKey.apply (value : Str) : EntryKey → Parsed → Parsed
  | .isValue, (p, _) => (p, true)
  | .tag, (p, v) => ({ p with multi := true, multiLimit := limitOf value p.multiLimit }, v)
  | .multi, (p, v) => ({ p with multi := true, isEnd := true, multiLimit := limitOf value p.multiLimit }, v)
  | .default, (p, v) => ({ p with default := value }, v)
  | .type, (p, v) =>
    let coll := strProc value (str ",")
    ({ p with type := typeOf (StrProc.get coll 0) p.type, type2 := typeOf (StrProc.get coll 1) p.type2 }, v)
  | .compHelp, (p, v) => ({ p with compHelp := massReplace value (str "\n") (str "\\n") }, v)
  | .valHelp, (p, v) =>
    ({ p with valHelp := p.valHelp.insertAll (splitLines (massReplace value (str "\t") (str "\\t"))) }, v)
  | .help, (p, v) =>
    ({ p with help := cleanHelp value, mandatory := p.mandatory || contains value (str "[REQUIRED]") }, v)
  | .expression, (p, v) => ({ p with enum := syntaxEnum value p.enum }, v)
  | .enumeration, (p, v) => ({ p with enumerationCmd := value }, v)
  | .allowed, (p, v) => ({ p with allowedCmd := value }, v)
  | .secret, (p, v) => ({ p with secret := true }, v)
  | .run, (p, v) => ({ p with action := true }, v)

theorem ite_eq_map {c : Prop} [Decidable c] {f : EntryKey → Parsed} {k : EntryKey} {s : Parsed} {rest : Option Parsed}
    {keys : Option EntryKey} (h : s = f k) (hrest : rest = keys.map f) :
    (if c then some s else rest) = (if c then some k else keys).map f := by
  by_cases hc : c
  · rw [if_pos hc, if_pos hc, h, Option.map_some]
  · rw [if_neg hc, if_neg hc, hrest]

theorem templateEntry_eq (key value : Str) (p : TemplateParams) (v : Bool) :
    templateEntry key value p v = (entryKey key).map fun k => k.apply value (p, v) := by
  unfold templateEntry entryKey
  iterate 13 refine ite_eq_map rfl ?_
  rfl

/-- `tag` and `multi` write one limit. -/
def EntryKey.Clashes (k k' : EntryKey) : Prop := k = .tag ∧ k' = .multi ∨ k = .multi ∧ k' = .tag

theorem EntryKey.apply_comm {k k' : EntryKey} (hne : k ≠ k') (hclash : ¬ k.Clashes k') (value value' : Str) (s : Parsed) :
    k'.apply value' (k.apply value s) = k.apply value (k'.apply value' s) := by
  obtain ⟨p, v⟩ := s
  cases k <;> cases k' <;> first
    | exact absurd rfl hne
    | exact absurd (Or.inl ⟨rfl, rfl⟩) hclash
    | exact absurd (Or.inr ⟨rfl, rfl⟩) hclash
    | simp only [EntryKey.apply]

def EntryKey.text : EntryKey → Str
  | .isValue => str "is_value"
  | .tag => str "tag"
  | .multi => str "multi"
  | .default => str "default"
  | .type => str "type"
  | .compHelp => str "comp_help"
  | .valHelp => str "val_help"
  | .help => str "help"
  | .expression => str "syntax"
  | .enumeration => str "enumeration"
  | .allowed => str "allowed"
  | .secret => str "secret"
  | .run => str "run"

theorem entryKey_text {key : Str} {k : EntryKey} (h : entryKey key = some k) : key = k.text := by
  have hstep : ∀ {c : Prop} [Decidable c] {k' : EntryKey} {rest : Option EntryKey}, (c → key = k'.text) →
      (rest = some k → key = k.text) → (if c then some k' else rest) = some k → key = k.text := by
    intro c _ k' rest hc hrest h
    by_cases hpos : c
    · rw [if_pos hpos] at h
      cases h
      exact hc hpos
    · rw [if_neg hpos] at h
      exact hrest h
  revert h
  unfold entryKey
  iterate 13 refine hstep id ?_
  intro h
  cases h

/-! ## The loop -/

/-- A template that shows no children is an end. -/
def ended (childless : Bool) (s : Parsed) : Parsed := if childless then ({ s.1 with isEnd := true }, s.2) else s

theorem EntryKey.apply_ended (k : EntryKey) (value : Str) (childless : Bool) (s : Parsed) :
    k.apply value (ended childless s) = ended childless (k.apply value s) := by
  obtain ⟨p, v⟩ := s
  cases childless
  · rfl
  · cases k <;> simp only [EntryKey.apply, ended, if_true]

/-- An entry with a key the loop knows, and its value. -/
def knownEntry (entry : Str) : Option (EntryKey × Str) :=
  (splitEntry entry).bind fun kv => (entryKey kv.1).map fun k => (k, kv.2)

theorem templateStep_eq (entry : Str) (p : TemplateParams) (v : Bool) :
    templateStep entry p v = (knownEntry entry).map fun e => e.1.apply e.2 (p, v) := by
  unfold templateStep knownEntry
  rcases splitEntry entry with _ | ⟨key, value⟩
  · rfl
  · show templateEntry key value p v = ((entryKey key).map fun k => (k, value)).map _
    rw [templateEntry_eq, Option.map_map]
    rfl

def known (entries : List Str) : List (EntryKey × Str) := entries.filterMap knownEntry

def applyAll (known : List (EntryKey × Str)) (s : Parsed) : Parsed := known.foldl (fun s e => e.1.apply e.2 s) s

theorem applyAll_ended (l : List (EntryKey × Str)) (childless : Bool) : ∀ s : Parsed,
    applyAll l (ended childless s) = ended childless (applyAll l s) := by
  induction l with
  | nil =>
    intro s
    rfl
  | cons e l ih =>
    intro s
    show applyAll l (e.1.apply e.2 (ended childless s)) = _
    rw [e.1.apply_ended, ih]
    rfl

theorem ended_ended (a b : Bool) (s : Parsed) : ended a (ended b s) = ended (b || a) s := by
  cases a <;> cases b <;> rfl

theorem templateEntries_unknown {cpath entry : Str} (rest : List Str) (s : Parsed) (hk : knownEntry entry = none) :
    templateEntries cpath (entry :: rest) s.1 s.2 = templateEntries cpath rest s.1 s.2 := by
  rw [templateEntries, templateStep_eq, hk]
  rfl

theorem templateEntries_known {cpath entry : Str} (rest : List Str) (s : Parsed) {k : EntryKey} {value : Str}
    (hk : knownEntry entry = some (k, value)) : templateEntries cpath (entry :: rest) s.1 s.2 =
      .call (.configdTmplGetChildren cpath) fun children =>
        templateEntries cpath rest (ended children.isEmpty (k.apply value s)).1 (ended children.isEmpty (k.apply value s)).2 := by
  rw [templateEntries, templateStep_eq, hk]
  generalize hq : k.apply value s = q
  have hstep : Option.map (fun e : EntryKey × Str => e.1.apply e.2 (s.1, s.2)) (some (k, value)) = some q := by
    rw [← hq, Option.map_some]
  rw [hstep]
  refine congrArg (Prog.call _) (funext fun children => ?_)
  cases hc : List.isEmpty children
  · show templateEntries cpath rest (if List.isEmpty children then _ else q.1) q.2 = _
    rw [hc]
    rfl
  · show templateEntries cpath rest (if List.isEmpty children then _ else q.1) q.2 = _
    rw [hc]
    rfl

/-- The queries of the loop. -/
def childQueries (cpath : Str) (answers : List (List Str)) : List (Sigma Call.Answer) :=
  answers.map fun a => ⟨.configdTmplGetChildren cpath, a⟩

/-- The loop asks for the children once for each known entry, and does with the parameters what
    the entries say. -/
theorem exec_templateEntries_iff (cpath : Str) : ∀ (entries : List Str) (s : Parsed) (tr : List (Sigma Call.Answer)) (r : Parsed),
    Exec (fun _ _ => True) (templateEntries cpath entries s.1 s.2) tr (.ret r) ↔
      ∃ answers : List (List Str), answers.length = (known entries).length ∧ tr = childQueries cpath answers ∧
        r = ended (answers.any List.isEmpty) (applyAll (known entries) s) := by
  intro entries
  induction entries with
  | nil =>
    intro s tr r
    constructor
    · intro h
      obtain ⟨rfl, rfl⟩ := Exec.ret_inv h
      exact ⟨[], rfl, rfl, rfl⟩
    · rintro ⟨answers, hlen, rfl, rfl⟩
      obtain rfl := List.length_eq_zero_iff.mp hlen
      exact Exec.nil _
  | cons entry rest ih =>
    intro s tr r
    rcases hk : knownEntry entry with _ | ⟨k, value⟩
    · have hknown : known (entry :: rest) = known rest := List.filterMap_cons_none hk
      rw [hknown, templateEntries_unknown rest s hk]
      exact ih s tr r
    · have hknown : known (entry :: rest) = (k, value) :: known rest := List.filterMap_cons_some hk
      have hfold : ∀ (a : List Str) (answers : List (List Str)),
          ended (answers.any List.isEmpty) (applyAll (known rest) (ended a.isEmpty (k.apply value s))) =
            ended ((a :: answers).any List.isEmpty) (applyAll ((k, value) :: known rest) s) := by
        intro a answers
        rw [applyAll_ended, ended_ended, List.any_cons]
        rfl
      rw [hknown, List.length_cons, templateEntries_known rest s hk]
      constructor
      · intro h
        obtain ⟨a, tr', -, rfl, hrest⟩ := Exec.call_inv (c := Call.configdTmplGetChildren cpath) h
        obtain ⟨answers, hlen, rfl, rfl⟩ := (ih _ tr' r).mp hrest
        exact ⟨a :: answers, by rw [List.length_cons, hlen], rfl, hfold a answers⟩
      · rintro ⟨answers, hlen, rfl, rfl⟩
        obtain ⟨a, answers, rfl⟩ := List.exists_cons_of_length_eq_add_one hlen
        refine Exec.cons (c := Call.configdTmplGetChildren cpath) trivial ((ih _ _ _).mpr ?_)
        exact ⟨answers, Nat.succ.inj hlen, rfl, (hfold a answers).symm⟩

/-! ## Two orders -/

/-- The keys of the entries that have one. -/
def keysOf (entries : List Str) : List Str := (entries.filterMap splitEntry).map Prod.fst

theorem mem_known {entries : List Str} {e : EntryKey × Str} (h : e ∈ known entries) :
    (e.1.text, e.2) ∈ entries.filterMap splitEntry := by
  obtain ⟨entry, hentry, he⟩ := List.mem_filterMap.mp h
  obtain ⟨⟨key, value⟩, hsplit, hkey⟩ := Option.bind_eq_some_iff.mp he
  obtain ⟨k, hk, rfl⟩ := Option.map_eq_some_iff.mp hkey
  rw [← entryKey_text hk]
  exact List.mem_filterMap.mpr ⟨entry, hentry, hsplit⟩

/-- Two entries of a template can change places. -/
theorem known_comm {entries : List Str} (hkeys : (keysOf entries).Nodup)
    (hboth : ¬ (str "tag" ∈ keysOf entries ∧ str "multi" ∈ keysOf entries)) :
    ∀ e ∈ known entries, ∀ e' ∈ known entries, ∀ s : Parsed,
      e'.1.apply e'.2 (e.1.apply e.2 s) = e.1.apply e.2 (e'.1.apply e'.2 s) := by
  intro e he e' he' s
  have hm := mem_known he
  have hm' := mem_known he'
  by_cases hk : e.1 = e'.1
  · have hsame : e = e' := by
      have := List.inj_on_of_nodup_map hkeys hm hm' (congrArg EntryKey.text hk)
      exact Prod.ext hk (Prod.mk.inj this).2
    rw [hsame]
  · have htext : ∀ {d : EntryKey × Str} {k : EntryKey}, (d.1.text, d.2) ∈ entries.filterMap splitEntry → d.1 = k →
        k.text ∈ keysOf entries := fun hd hk => hk ▸ List.mem_map_of_mem hd
    refine EntryKey.apply_comm hk (fun hclash => hboth ?_) _ _ s
    rcases hclash with ⟨h, h'⟩ | ⟨h, h'⟩
    · exact ⟨htext hm h, htext hm' h'⟩
    · exact ⟨htext hm' h', htext hm h⟩

theorem applyAll_perm {entries entries' : List Str} (hperm : entries.Perm entries') (hkeys : (keysOf entries).Nodup)
    (hboth : ¬ (str "tag" ∈ keysOf entries ∧ str "multi" ∈ keysOf entries)) (s : Parsed) :
    applyAll (known entries) s = applyAll (known entries') s :=
  (hperm.filterMap knownEntry).foldl_eq' (fun e he e' he' s => known_comm hkeys hboth e he e' he' s) s

/-- The run of `get_template_node` that finds a template, the answers to its other queries being
    `rest`. -/
def Reads (cpath : Str) (p : TemplateParams) (entries : List Str) (rest : List (Sigma Call.Answer))
    (r : Option TemplateParams) : Prop :=
  Exec (fun _ _ => True) (getTemplateNode cpath p)
    (⟨.configdTmplValidatePath cpath, true⟩ :: ⟨.configdTmplGet cpath, some entries⟩ :: rest) (.ret r)

/-- What `get_template_node` does behind the loop. -/
def finishTemplate (cpath : Str) (noEntries : Bool) (s : Parsed) : Act (Option TemplateParams) := do
  let nodeType ← perform (.configdNodeGetType cpath)
  let p := { s.1 with nodeType }
  let p ← if nodeType = .container then pure p else do
    let allowed ← perform (.configdTmplGetAllowed cpath)
    pure { p with enum := p.enum.insertAll (allowed.map fun a => massReplace a (str "\\<\\>") (str "*")) }
  return some (p.settle s.2 noEntries)

theorem reads_iff (cpath : Str) (p : TemplateParams) (entries : List Str) (rest : List (Sigma Call.Answer))
    (r : Option TemplateParams) : Reads cpath p entries rest r ↔
      Exec (fun _ _ => True) (templateEntries cpath entries p false >>= finishTemplate cpath entries.isEmpty) rest (.ret r) := by
  constructor
  · intro h
    cases h with
    | cons _ h =>
      cases h with
      | cons _ h => exact h
  · intro h
    exact Exec.cons (c := Call.configdTmplValidatePath cpath) trivial (Exec.cons (c := Call.configdTmplGet cpath) trivial h)

theorem reads_of_perm {cpath : Str} {p : TemplateParams} {entries entries' : List Str} (hperm : entries.Perm entries')
    (hkeys : (keysOf entries).Nodup) (hboth : ¬ (str "tag" ∈ keysOf entries ∧ str "multi" ∈ keysOf entries))
    {rest : List (Sigma Call.Answer)} {r : Option TemplateParams} (h : Reads cpath p entries rest r) :
    Reads cpath p entries' rest r := by
  rw [reads_iff] at h ⊢
  obtain ⟨tr, tr', s, rfl, hloop, hfinish⟩ := Exec.bind_ret_inv h
  obtain ⟨answers, hlen, rfl, rfl⟩ := (exec_templateEntries_iff cpath entries (p, false) tr s).mp hloop
  have hsize : (known entries').length = (known entries).length := (hperm.filterMap knownEntry).length_eq.symm
  have hempty : entries'.isEmpty = entries.isEmpty := by
    rw [Bool.eq_iff_iff, List.isEmpty_iff, List.isEmpty_iff]
    exact ⟨fun h => (h ▸ hperm).eq_nil, fun h => (h ▸ hperm.symm).eq_nil⟩
  rw [hempty]
  refine Exec.bind ((exec_templateEntries_iff cpath entries' (p, false) _ _).mpr
    ⟨answers, hlen.trans hsize.symm, rfl, ?_⟩) hfinish
  rw [applyAll_perm hperm hkeys hboth]

/-- Two orders of a template, with the same answers of configd to the other queries, give the same
    parameters. -/
theorem entry_order_is_irrelevant (cpath : Str) (p : TemplateParams) {entries entries' : List Str}
    (hperm : entries.Perm entries') (hkeys : (keysOf entries).Nodup)
    (hboth : ¬ (str "tag" ∈ keysOf entries ∧ str "multi" ∈ keysOf entries)) (rest : List (Sigma Call.Answer))
    (r : Option TemplateParams) : Reads cpath p entries rest r ↔ Reads cpath p entries' rest r := by
  have hmap : (keysOf entries).Perm (keysOf entries') := (hperm.filterMap splitEntry).map Prod.fst
  constructor
  · exact reads_of_perm hperm hkeys hboth
  · refine reads_of_perm hperm.symm (hmap.nodup_iff.mp hkeys) fun h => hboth ?_
    exact ⟨hmap.mem_iff.mpr h.1, hmap.mem_iff.mpr h.2⟩

/-- The values of a tag node, found with `is_value` first and last. -/
def sampleEntries : List Str := [str "is_value=1", str "type=u32", str "tag=", str "help=A number [REQUIRED]"]

/-- Children, and no allowed values. -/
def sampleAnswers (cpath : Str) : List (Sigma Call.Answer) :=
  childQueries cpath [[str "a"], [str "a"], [str "a"], [str "a"]] ++
    [⟨.configdNodeGetType cpath, NodeType.tag⟩, ⟨.configdTmplGetAllowed cpath, []⟩]

/-- What is left of it: nothing of the tag node but that it is required. -/
def sampleParams : TemplateParams := { mandatory := true, nodeType := .tag }

theorem a_template_and_its_reverse : Reads (str "x") {} sampleEntries (sampleAnswers (str "x")) (some sampleParams) ∧
    Reads (str "x") {} sampleEntries.reverse (sampleAnswers (str "x")) (some sampleParams) := by
  have hrun : Reads (str "x") {} sampleEntries (sampleAnswers (str "x")) (some sampleParams) := by
    have hloop := (exec_templateEntries_iff (str "x") sampleEntries ({}, false) _ _).mpr
      ⟨[[str "a"], [str "a"], [str "a"], [str "a"]], by decide, rfl, rfl⟩
    rw [reads_iff]
    refine Exec.bind hloop (Exec.cons trivial (Exec.cons trivial ?_))
    exact Exec.nil _
  exact ⟨hrun, (entry_order_is_irrelevant (str "x") {} (List.reverse_perm sampleEntries).symm (by decide) (by decide)
    (sampleAnswers (str "x")) (some sampleParams)).mp hrun⟩

end VyattaRest.Server.Configuration
