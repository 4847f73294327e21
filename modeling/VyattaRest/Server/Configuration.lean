/-
  VyattaRest.Server.Configuration — nodes of the configuration and of the operational command
  tree, as the daemons describe them (configuration.cc).

  A template is a list of `key=value` entries. `templateEntry` reads one of them into the
  parameters of the node; the children, type and allowed values are asked of configd.
-/

import VyattaRest.Server.Calls
import VyattaRest.StrProc

namespace VyattaRest.Server

open VyattaRest.Lib VyattaRest.Rest

/-! ## Parameters of a node -/

inductive ConfState where
  | none
  | active
  | set
  | delete
  deriving DecidableEq, Repr

inductive DisableState where
  | enable
  | enableLocal
  | disable
  | disableLocal
  deriving DecidableEq, Repr

structure NodeParams where
  name : Str := []
  state : ConfState := .none
  isChanged : Str := []
  disabledState : DisableState := .enable
  deriving DecidableEq, Repr

/-- `Rest::NodeType`. -/
inductive ValueType where
  | none
  | text
  | ipv4
  | ipv4net
  | ipv6
  | ipv6net
  | u32
  | bool
  | macaddr
  deriving DecidableEq, Repr

/-- `Rest::g_type_str`. -/
def ValueType.name : ValueType → Str
  | .none => str "none"
  | .text => str "text"
  | .ipv4 => str "ipv4"
  | .ipv4net => str "ipv4net"
  | .ipv6 => str "ipv6"
  | .ipv6net => str "ipv6net"
  | .u32 => str "u32"
  | .bool => str "bool"
  | .macaddr => str "macaddr"

/-- A `std::set<std::string>`. -/
abbrev StrSet := OrdMap Str Unit

def StrSet.toList (s : StrSet) : List Str := s.entries.map (·.1)

def StrSet.insertAll (s : StrSet) (l : List Str) : StrSet := l.foldl (fun s x => s.insert x ()) s

structure TemplateParams where
  multi : Bool := false
  multiLimit : Nat := 0
  isEnd : Bool := false
  action : Bool := false
  type : ValueType := .none
  type2 : ValueType := .none
  help : Str := []
  compHelp : Str := []
  valHelp : StrSet := OrdMap.empty
  mandatory : Bool := false
  secret : Bool := false
  default : Str := []
  enum : StrSet := OrdMap.empty
  enumerationCmd : Str := []
  allowedCmd : Str := []
  allowed : Str := []
  nodeType : NodeType := .error
  data : NodeParams := {}
  childrenColl : List NodeParams := []

/-! ## Template entries -/

/-- `entry.find("=")` and the texts around it. -/
def splitEntry (entry : Str) : Option (Str × Str) :=
  (find (str "=") entry).map fun pos => (entry.take pos, entry.drop (pos + 1))

/-- The first type name that occurs in the text. -/
def typeOf (e : Str) (default : ValueType) : ValueType :=
  if contains e (str "txt") then .text
  else if contains e (str "ipv4net") then .ipv4net
  else if contains e (str "ipv4") then .ipv4
  else if contains e (str "ipv6net") then .ipv6net
  else if contains e (str "ipv6") then .ipv6
  else if contains e (str "u32") then .u32
  else if contains e (str "bool") then .bool
  else if contains e (str "macaddr") then .macaddr
  else default

/-- `tag` and `multi` carry a limit behind a colon. -/
def limitOf (value : Str) (old : Nat) : Nat :=
  let limit := StrProc.get (strProc value (str ":")) 1
  if limit.isEmpty then old else strtoul 10 limit

/-- `split(value, '\n', elem)`: `getline` gives no empty piece after a last newline. -/
def splitLines (value : Str) : List Str :=
  let ls := value.splitOn 10
  if ls.getLast? = some [] then ls.dropLast else ls

def cleanHelp (value : Str) : Str := massReplace (massReplace value (str "\n") []) (str "\"") (str "'")

/-- A word of an enumeration, without quotes, and whether a `;` ended it. -/
def syntaxWord (b : Str) : Str × Bool :=
  let (tmp, isEnd) := match find (str ";") b with
    | some pos => (b.take pos, true)
    | none => (b, false)
  let tmp := trim tmp
  if tmp.head? = some 34 then
    let p := tmp.length - 1 - (tmp.reverse.takeWhile (· ≠ 34)).length
    (if p ≠ 0 then substr tmp 1 (p - 1) else tmp, isEnd)
  else (tmp, isEnd)

def syntaxWords : List Str → StrSet → StrSet
  | [], enum => enum
  | b :: rest, enum =>
    let (tmp, isEnd) := syntaxWord b
    let enum := if tmp.isEmpty then enum else enum.insert tmp ()
    if isEnd then enum else syntaxWords rest enum

/-- `expression: $VAR(@) in "a", "b" ; "message"`. -/
def syntaxEnum (value : Str) (enum : StrSet) : StrSet :=
  let coll := strProc value (str " ")
  if 3 < coll.length ∧ StrProc.get coll 2 = str "in" then
    syntaxWords (strProc (StrProc.getRange coll 3 coll.length) (str ",")) enum
  else enum

/-- One `key=value` of a template; `none` for a key that is ignored. `is_value` is kept
    beside the parameters. -/
def templateEntry (key value : Str) (p : TemplateParams) (isValue : Bool) : Option (TemplateParams × Bool) :=
  if key = str "is_value" then some (p, true)
  else if key = str "tag" then some ({ p with multi := true, multiLimit := limitOf value p.multiLimit }, isValue)
  else if key = str "multi" then
    some ({ p with multi := true, isEnd := true, multiLimit := limitOf value p.multiLimit }, isValue)
  else if key = str "default" then some ({ p with default := value }, isValue)
  else if key = str "type" then
    let coll := strProc value (str ",")
    some ({ p with type := typeOf (StrProc.get coll 0) p.type, type2 := typeOf (StrProc.get coll 1) p.type2 }, isValue)
  else if key = str "comp_help" then some ({ p with compHelp := massReplace value (str "\n") (str "\\n") }, isValue)
  else if key = str "val_help" then
    some ({ p with valHelp := p.valHelp.insertAll (splitLines (massReplace value (str "\t") (str "\\t"))) }, isValue)
  else if key = str "help" then
    some ({ p with help := cleanHelp value, mandatory := p.mandatory || contains value (str "[REQUIRED]") }, isValue)
  else if key = str "syntax" then some ({ p with enum := syntaxEnum value p.enum }, isValue)
  else if key = str "enumeration" then some ({ p with enumerationCmd := value }, isValue)
  else if key = str "allowed" then some ({ p with allowedCmd := value }, isValue)
  else if key = str "secret" then some ({ p with secret := true }, isValue)
  else if key = str "run" then some ({ p with action := true }, isValue)
  else none

def templateStep (entry : Str) (p : TemplateParams) (isValue : Bool) : Option (TemplateParams × Bool) :=
  (splitEntry entry).bind fun (key, value) => templateEntry key value p isValue

/-- The end of `get_template_node`: the values of a tag node keep nothing of its template,
    and a typed node that is not a list has no children. -/
def TemplateParams.settle (p : TemplateParams) (isValue noEntries : Bool) : TemplateParams :=
  let p := if isValue && p.multi && !p.isEnd then
      { p with type := .none, enum := OrdMap.empty, valHelp := OrdMap.empty, help := [], multi := false }
    else p
  if noEntries then p else if p.type ≠ .none && !p.multi then { p with isEnd := true } else p

/-! ## Queries -/

namespace Configuration

/-- The connections of a `Configuration` object, around what is done with it. A failure to
    open one is only logged. -/
def withConnections {α : Type} (body : Act α) : Act α := do
  let _ ← perform .configdOpen
  let _ ← perform .opdOpen
  let a ← body
  perform .configdClose
  perform .opdClose
  return a

/-- `ulltostring(strtoull("0x" + id))`. -/
def convConfId (id : Str) : Str := dec (strtoul 0 (str "0x" ++ id))

def setConfId (confId : Str) : Act Unit := perform (.configdSetSessionId (convConfId confId))

/-- The loop over a template: after each known entry the children are asked for again. -/
def templateEntries (cpath : Str) : List Str → TemplateParams → Bool → Act (TemplateParams × Bool)
  | [], p, isValue => return (p, isValue)
  | entry :: rest, p, isValue =>
    match templateStep entry p isValue with
    | none => templateEntries cpath rest p isValue
    | some (p, isValue) => do
      let children ← perform (.configdTmplGetChildren cpath)
      templateEntries cpath rest (if children.isEmpty then { p with isEnd := true } else p) isValue

def getTemplateNode (cpath : Str) (p : TemplateParams) : Act (Option TemplateParams) := do
  if !(← perform (.configdTmplValidatePath cpath)) then return none
  match ← perform (.configdTmplGet cpath) with
  | none => return some p
  | some entries =>
    let (p, isValue) ← templateEntries cpath entries p false
    let nodeType ← perform (.configdNodeGetType cpath)
    let p := { p with nodeType }
    let p ← if nodeType = .container then pure p else do
      let allowed ← perform (.configdTmplGetAllowed cpath)
      pure { p with enum := p.enum.insertAll (allowed.map fun a => massReplace a (str "\\<\\>") (str "*")) }
    return some (p.settle isValue entries.isEmpty)

/-- `get_node_params`: the name is the last element of the path. -/
def getNodeParams (cpath : Str) (node : NodeParams) : Act NodeParams := do
  let node := { node with name := (cpath.reverse.takeWhile (· ≠ 47)).reverse }
  match ← perform (.configdNodeGetStatus cpath) with
  | .deleted => return { node with state := .delete, isChanged := str "true" }
  | .changed => return { node with state := .active, isChanged := str "true" }
  | .added => return { node with state := .set, isChanged := str "true" }
  | .unchanged =>
    if ← perform (.configdNodeExists .running cpath) then
      return { node with state := .active, isChanged := str "false" }
    else return { node with state := .none, isChanged := str "false" }
  | .error => return { node with state := .none, isChanged := str "false" }

/-- The locals of `parse_value_and_state`: the node it reuses, the values and their states. -/
structure Values where
  np : NodeParams := {}
  values : List Str := []
  states : OrdMap Str ConfState := OrdMap.empty

def childPath (cpath child : Str) : Str := if cpath.isEmpty then child else cpath ++ str "/" ++ child

/-- `curl_easy_escape`. -/
def urlEscape (s : Str) : Str :=
  percentEncode (fun b => (65 ≤ b && b ≤ 90) || (97 ≤ b && b ≤ 122) || (48 ≤ b && b ≤ 57) || b == 45 || b == 46 ||
    b == 95 || b == 126) s

/-- The values of a leaf or tag node in one database. -/
def valueChildren (cpath : Str) (known : Bool) : List Str → Values → Act Values
  | [], v => return v
  | child :: rest, v => do
    if known && (v.states.find child).isSome then valueChildren cpath known rest v
    else
      let np ← getNodeParams (childPath cpath (urlEscape child)) v.np
      valueChildren cpath known rest
        { np, values := v.values ++ [child], states := v.states.insert child np.state }

/-- The children of a container. -/
def containerChildren (cpath : Str) : List Str → Values → Act Values
  | [], v => return v
  | child :: rest, v => do
    let path := childPath cpath child
    let inCandidate ← perform (.configdNodeExists .candidate path)
    let inRunning ← perform (.configdNodeExists .running path)
    let state : ConfState := match inCandidate, inRunning with
      | true, true => .active
      | true, false => .set
      | false, true => .delete
      | false, false => .none
    containerChildren cpath rest { v with values := v.values ++ [child], states := v.states.insert child state }

/-- The values of a leaf or tag node, those of the running configuration first, or the
    children of a container. -/
def nodeValues (cpath : Str) : NodeType → Act Values
  | .leaf | .multi | .tag => do
    let children ← perform (.configdNodeGet .running cpath)
    let v ← valueChildren cpath false children {}
    let children ← perform (.configdNodeGet .candidate cpath)
    valueChildren cpath true children v
  | .container => do
    let children ← perform (.configdTmplGetChildren cpath)
    containerChildren cpath children {}
  | .error => return {}

def parseValueAndState (cpath : Str) (p : TemplateParams) : Act TemplateParams := do
  let data ← getNodeParams cpath p.data
  let v ← nodeValues cpath p.nodeType
  let children := v.values.filterMap fun name => (v.states.find name).map fun state => { v.np with name, state }
  return { p with data, childrenColl := p.childrenColl ++ children }

def getConfiguredNode (dataPath confId : Str) : Act (Option TemplateParams) := do
  setConfId confId
  match ← getTemplateNode dataPath {} with
  | none => return none
  | some p =>
    let p ← parseValueAndState dataPath p
    return some { p with
      data := { p.data with disabledState := .enable }
      childrenColl := p.childrenColl.map fun np => { np with disabledState := .enable } }

/-! ### Operational commands -/

/-- The loop over an operational template; `allowed` asks opd with one more `/` each time. -/
def opTemplateEntries : List Str → Str → TemplateParams → Act TemplateParams
  | [], _, p => return p
  | entry :: rest, cpath, p =>
    match splitEntry entry with
    | none => opTemplateEntries rest cpath p
    | some (key, value) =>
      if key = str "help" then
        opTemplateEntries rest cpath
          { p with help := cleanHelp value, mandatory := p.mandatory || contains value (str "[REQUIRED]") }
      else if key = str "allowed" then do
        let allowed ← perform (.opdAllowed (cpath ++ str "/"))
        opTemplateEntries rest (cpath ++ str "/") { p with enum := p.enum.insertAll allowed }
      else if key = str "run" then opTemplateEntries rest cpath { p with action := value ≠ [] }
      else opTemplateEntries rest cpath p

def getOperationalNode (nodePath : Str) (p : TemplateParams) : Act TemplateParams := do
  let cpath := if nodePath.head? = some 47 then nodePath.drop 1 else nodePath
  let p ← match ← perform (.opdTmpl cpath) with
    | none => pure p
    | some entries => opTemplateEntries entries cpath p
  let children ← perform (.opdChildren cpath)
  if children.isEmpty then return { p with isEnd := true }
  return { p with childrenColl := p.childrenColl ++ children.map fun child =>
    { name := if child = str "node.tag" then str "*" else child, state := .active } }

end Configuration

/-! ## What a query asks, and what it leaves -/

theorem StrSet.mem_toList {s : StrSet} {x : Str} : x ∈ s.toList ↔ s.find x = some () := by
  rw [← OrdMap.mem_entries, StrSet.toList, List.mem_map]
  constructor
  · intro ⟨p, hp, he⟩
    exact he ▸ hp
  · intro h
    exact ⟨_, h, rfl⟩

theorem StrSet.mem_insertAll (l : List Str) {x : Str} : ∀ s : StrSet, x ∈ (s.insertAll l).toList ↔ x ∈ s.toList ∨ x ∈ l := by
  induction l with
  | nil =>
    intro s
    simp [StrSet.insertAll]
  | cons a l ih =>
    intro s
    have hstep : x ∈ StrSet.toList (s.insert a ()) ↔ x ∈ s.toList ∨ x = a := by
      rw [StrSet.mem_toList, StrSet.mem_toList, OrdMap.find_insert]
      by_cases e : x = a <;> simp [e]
    have := ih (s.insert a ())
    rw [hstep] at this
    rw [List.mem_cons, ← or_assoc]
    exact this

/-- The lines of `val_help` in a template. -/
def valHelpLines (entries : List Str) : List Str :=
  entries.flatMap fun entry =>
    match splitEntry entry with
    | some (key, value) =>
      if key = str "val_help" then splitLines (massReplace value (str "\t") (str "\\t")) else []
    | none => []

/-- The parameters an entry gives, if any, have the lines `v`. -/
def LeavesValHelp (v : StrSet) (r : Option (TemplateParams × Bool)) : Prop := ∀ q, r = some q → q.1.valHelp = v

theorem LeavesValHelp.ite {v : StrSet} {c : Prop} [Decidable c] {a b : Option (TemplateParams × Bool)}
    (ha : c → LeavesValHelp v a) (hb : ¬ c → LeavesValHelp v b) : LeavesValHelp v (if c then a else b) := by
  by_cases h : c
  · rw [if_pos h]; exact ha h
  · rw [if_neg h]; exact hb h

theorem LeavesValHelp.some {v : StrSet} {p : TemplateParams} {isValue : Bool} (h : p.valHelp = v) :
    LeavesValHelp v (some (p, isValue)) := by
  intro q hq
  cases hq
  exact h

theorem templateEntry_other {key : Str} (h : key ≠ str "val_help") (value : Str) (p : TemplateParams) (isValue : Bool) :
    LeavesValHelp p.valHelp (templateEntry key value p isValue) := by
  unfold templateEntry
  iterate 6 refine .ite (fun _ => .some rfl) fun _ => ?_
  refine .ite (fun hv => absurd hv h) fun _ => ?_
  iterate 6 refine .ite (fun _ => .some rfl) fun _ => ?_
  exact fun q hq => nomatch hq

theorem templateEntry_val_help (value : Str) (p : TemplateParams) (isValue : Bool) :
    templateEntry (str "val_help") value p isValue =
      some ({ p with valHelp := p.valHelp.insertAll (splitLines (massReplace value (str "\t") (str "\\t"))) }, isValue) := by
  rfl

theorem mem_valHelpLines_cons {entry : Str} {entries : List Str} {key value : Str} {p p' : TemplateParams} {v v' : Bool}
    (hs : splitEntry entry = some (key, value)) (hp : templateEntry key value p v = some (p', v')) (l : Str) :
    l ∈ p'.valHelp.toList ∨ l ∈ valHelpLines entries ↔ l ∈ p.valHelp.toList ∨ l ∈ valHelpLines (entry :: entries) := by
  simp only [valHelpLines, List.flatMap_cons, List.mem_append, hs]
  by_cases e : key = str "val_help"
  · subst e
    rw [templateEntry_val_help] at hp
    cases hp
    rw [StrSet.mem_insertAll, if_pos rfl, or_assoc]
  · rw [if_neg e, templateEntry_other e value p v _ hp]
    simp

theorem valHelpLines_skip {entry : Str} (entries : List Str) {p : TemplateParams} {v : Bool}
    (h : templateStep entry p v = none) :
    valHelpLines (entry :: entries) = valHelpLines entries := by
  rcases hs : splitEntry entry with _ | ⟨key, value⟩
  · simp [valHelpLines, hs]
  · by_cases e : key = str "val_help"
    · subst e
      rw [templateStep, hs] at h
      cases h
    · simp [valHelpLines, hs, e]

theorem mem_settle_valHelp {p : TemplateParams} {isValue noEntries : Bool} {l : Str}
    (h : l ∈ (p.settle isValue noEntries).valHelp.toList) : l ∈ p.valHelp.toList := by
  have hlast : ∀ q : TemplateParams,
      (if noEntries then q else if q.type ≠ .none && !q.multi then { q with isEnd := true } else q).valHelp = q.valHelp := by
    intro q
    split
    · rfl
    · split <;> rfl
  unfold TemplateParams.settle at h
  simp only at h
  rw [hlast] at h
  split at h
  · cases h
  · exact h

namespace Configuration

section

variable {env : (c : Call) → c.Answer → Prop} {ok : Call → Prop} {exc : Prop} (hok : ∀ c, c.isQuery = true → ok c)
include hok

open Lib.Prog

theorem templateEntries_wp (cpath : Str) : ∀ (entries : List Str) (p : TemplateParams) (isValue : Bool),
    wp env ok exc (templateEntries cpath entries p isValue) fun r =>
      ∀ l, l ∈ r.1.valHelp.toList ↔ l ∈ p.valHelp.toList ∨ l ∈ valHelpLines entries := by
  intro entries
  induction entries with
  | nil =>
    intro p isValue l
    simp [valHelpLines]
  | cons entry rest ih =>
    intro p isValue
    rw [templateEntries]
    rcases hs : templateStep entry p isValue with _ | ⟨p', v'⟩
    · rw [valHelpLines_skip rest hs]
      exact ih p isValue
    · obtain ⟨⟨key, value⟩, hsplit, hp⟩ := Option.bind_eq_some_iff.mp hs
      refine (wp_then _ _ _).mpr ⟨hok _ rfl, fun children _ => wp_mono (ih _ v') fun r hr l => ?_⟩
      rw [hr l, ← mem_valHelpLines_cons hsplit hp]
      split <;> rfl

/-- The lines of a node are lines of its template. -/
theorem getTemplateNode_wp (cpath : Str) (p : TemplateParams) :
    wp env ok exc (getTemplateNode cpath p) fun r => ∀ p', r = some p' → ∀ l ∈ p'.valHelp.toList,
      l ∈ p.valHelp.toList ∨ ∃ entries, env (.configdTmplGet cpath) (some entries) ∧ l ∈ valHelpLines entries := by
  unfold getTemplateNode
  refine (wp_then _ _ _).mpr ⟨hok _ rfl, fun valid _ => ?_⟩
  refine (wp_ite _ _ _).mpr ⟨fun _ p' h => (nomatch h), fun _ => ?_⟩
  refine (wp_then _ _ _).mpr ⟨hok _ rfl, fun entries hentries => ?_⟩
  rcases entries with _ | entries
  · intro p' h l hl
    cases h
    exact Or.inl hl
  refine (wp_bind _ _ _).mpr (wp_mono (templateEntries_wp hok cpath entries p false) fun r hr => ?_)
  refine (wp_then _ _ _).mpr ⟨hok _ rfl, fun nodeType _ => ?_⟩
  have hlines : ∀ l ∈ r.1.valHelp.toList, l ∈ p.valHelp.toList ∨
      ∃ entries, env (.configdTmplGet cpath) (some entries) ∧ l ∈ valHelpLines entries :=
    fun l hl => ((hr l).mp hl).imp_right fun h => ⟨entries, hentries, h⟩
  refine (wp_ite _ _ _).mpr ⟨fun _ p' h l hl => ?_, fun _ => (wp_then _ _ _).mpr ⟨hok _ rfl, fun allowed _ p' h l hl => ?_⟩⟩
  all_goals
    cases h
    have hsettled := mem_settle_valHelp hl
    exact hlines l hsettled

theorem getNodeParams_wp (cpath : Str) (node : NodeParams) : wp env ok exc (getNodeParams cpath node) fun _ => True := by
  unfold getNodeParams
  refine (wp_then _ _ _).mpr ⟨hok _ rfl, fun status _ => ?_⟩
  cases status with
  | unchanged =>
    refine (wp_then _ _ _).mpr ⟨hok _ rfl, fun inRunning _ => ?_⟩
    cases inRunning <;> trivial
  | changed => trivial
  | added => trivial
  | deleted => trivial
  | error => trivial

theorem valueChildren_wp (cpath : Str) (known : Bool) : ∀ (children : List Str) (v : Values),
    wp env ok exc (valueChildren cpath known children v) fun _ => True := by
  intro children
  induction children with
  | nil =>
    intro v
    trivial
  | cons child rest ih =>
    intro v
    rw [valueChildren]
    refine (wp_ite _ _ _).mpr ⟨fun _ => ih v, fun _ => ?_⟩
    exact (wp_bind _ _ _).mpr (wp_mono (getNodeParams_wp hok _ _) fun _ _ => ih _)

theorem containerChildren_wp (cpath : Str) : ∀ (children : List Str) (v : Values),
    wp env ok exc (containerChildren cpath children v) fun _ => True := by
  intro children
  induction children with
  | nil =>
    intro v
    trivial
  | cons child rest ih =>
    intro v
    rw [containerChildren]
    exact (wp_then _ _ _).mpr ⟨hok _ rfl, fun _ _ => (wp_then _ _ _).mpr ⟨hok _ rfl, fun _ _ => ih _⟩⟩

theorem nodeValues_wp (cpath : Str) (t : NodeType) : wp env ok exc (nodeValues cpath t) fun _ => True := by
  have hvalues : wp env ok exc (nodeValues cpath .leaf) fun _ => True := by
    refine (wp_then _ _ _).mpr ⟨hok _ rfl, fun children _ => ?_⟩
    refine (wp_bind _ _ _).mpr (wp_mono (valueChildren_wp hok _ _ _ _) fun v _ => ?_)
    exact (wp_then _ _ _).mpr ⟨hok _ rfl, fun children _ => valueChildren_wp hok _ _ _ _⟩
  cases t with
  | leaf => exact hvalues
  | multi => exact hvalues
  | tag => exact hvalues
  | container => exact (wp_then _ _ _).mpr ⟨hok _ rfl, fun children _ => containerChildren_wp hok _ _ _⟩
  | error => trivial

theorem parseValueAndState_wp (cpath : Str) (p : TemplateParams) :
    wp env ok exc (parseValueAndState cpath p) fun p' => p'.valHelp = p.valHelp := by
  unfold parseValueAndState
  refine (wp_bind _ _ _).mpr (wp_mono (getNodeParams_wp hok _ _) fun data _ => ?_)
  exact (wp_bind _ _ _).mpr (wp_mono (nodeValues_wp hok _ _) fun v _ => rfl)

/-- A node asks about the session it is given and no other. -/
theorem getConfiguredNode_wp (dataPath confId : Str) (hset : ok (.configdSetSessionId (convConfId confId))) :
    wp env ok exc (getConfiguredNode dataPath confId) fun r => ∀ p, r = some p → ∀ l ∈ p.valHelp.toList,
      ∃ entries, env (.configdTmplGet dataPath) (some entries) ∧ l ∈ valHelpLines entries := by
  unfold getConfiguredNode
  refine (wp_then _ _ _).mpr ⟨hset, fun _ _ => ?_⟩
  refine (wp_bind _ _ _).mpr (wp_mono (getTemplateNode_wp hok dataPath {}) fun r hr => ?_)
  rcases r with _ | p
  · exact fun p h => nomatch h
  refine (wp_bind _ _ _).mpr (wp_mono (parseValueAndState_wp hok dataPath p) fun p' hp' => ?_)
  intro q hq l hl
  cases hq
  rcases hr p rfl l (hp' ▸ hl) with h | h
  · cases h
  · exact h

end

end Configuration

end VyattaRest.Server
