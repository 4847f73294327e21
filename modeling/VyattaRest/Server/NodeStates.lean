/-
  VyattaRest.Server.NodeStates — the children of a configuration node and their states
  (`parse_value_and_state`, `get_node_params`, configuration.cc).

  A `Tree` is what configd knows of one database: the paths that are there and the values at
  each path, none of them twice. configd answers from a running and a candidate tree and from
  the template children (`Answers`); the status of a path says in which of the two trees it
  is, and for a path in both it may be `changed` or `unchanged`.

  Proved, for every pair of trees, every path and every run:
  - `getNodeParams_states`: the state of a node is `stateOf` of the two trees at its path.
  - `valueChildren_lists`, `containerChildren_lists`: after either loop the map holds the
    state of every value of the vector, and of no other.
  - `children_listed_with_their_states`: a node lists each child once, the running values
    before the further candidate values, with the state that the child has when it is asked
    for itself.
  - `three_values_are_listed`: two running values, two candidate values, one of them in both.
-/

import VyattaRest.Server.Configuration
import Mathlib.Data.List.Nodup

namespace VyattaRest.Server.Configuration

open VyattaRest.Lib VyattaRest.Rest
open Lib.Prog

structure Tree where
  has : Str → Bool
  values : Str → List Str
  values_nodup : ∀ path, (values path).Nodup

structure World where
  running : Tree
  candidate : Tree
  templates : Str → List Str
  templates_nodup : ∀ path, (templates path).Nodup

def World.tree (w : World) : Database → Tree
  | .running => w.running
  | .candidate => w.candidate

/-- The statuses configd may report for a path that is, or is not, in the running and in the
    candidate tree. -/
def StatusOf : (inRunning inCandidate : Bool) → NodeStatus → Prop
  | true, true, s => s = .changed ∨ s = .unchanged
  | true, false, s => s = .deleted
  | false, true, s => s = .added
  | false, false, s => s = .unchanged

/-- What configd answers; nothing is said about the other calls. -/
def Answers (w : World) : (c : Call) → c.Answer → Prop
  | .configdNodeGetStatus path, s => StatusOf (w.running.has path) (w.candidate.has path) s
  | .configdNodeExists db path, b => b = (w.tree db).has path
  | .configdNodeGet db path, l => l = (w.tree db).values path
  | .configdTmplGetChildren path, l => l = w.templates path
  | _, _ => True

def stateOf : (inRunning inCandidate : Bool) → ConfState
  | true, true => .active
  | false, true => .set
  | true, false => .delete
  | false, false => .none

def World.state (w : World) (path : Str) : ConfState := stateOf (w.running.has path) (w.candidate.has path)

/-- The children of a node, in the order they are listed in. -/
def World.children (w : World) (cpath : Str) : NodeType → List Str
  | .leaf | .multi | .tag =>
    w.running.values cpath ++ (w.candidate.values cpath).filter (· ∉ w.running.values cpath)
  | .container => w.templates cpath
  | .error => []

/-- The path of a child: values are escaped, names of nodes are not. -/
def pathOf (cpath : Str) (t : NodeType) (child : Str) : Str :=
  match t with
  | .leaf | .multi | .tag => childPath cpath (urlEscape child)
  | .container | .error => childPath cpath child

theorem World.children_nodup (w : World) (cpath : Str) (t : NodeType) : (w.children cpath t).Nodup := by
  have hvalues : (w.running.values cpath ++ (w.candidate.values cpath).filter (· ∉ w.running.values cpath)).Nodup := by
    refine List.nodup_append.mpr ⟨w.running.values_nodup cpath, (w.candidate.values_nodup cpath).filter _, ?_⟩
    intro x hx y hy e
    have hnot : y ∉ w.running.values cpath := by simpa using (List.mem_filter.mp hy).2
    exact hnot (e ▸ hx)
  cases t with
  | leaf => exact hvalues
  | multi => exact hvalues
  | tag => exact hvalues
  | container => exact w.templates_nodup cpath
  | error => exact List.nodup_nil

/-! ## One node -/

section

variable {w : World} {exc : Prop}

theorem getNodeParams_states (cpath : Str) (node : NodeParams) :
    wp (Answers w) (fun _ => True) exc (getNodeParams cpath node) fun node' => node'.state = w.state cpath := by
  unfold getNodeParams World.state
  refine (wp_then _ _ _).mpr ⟨trivial, fun status hstatus => ?_⟩
  simp only [Answers] at hstatus
  rcases hr : w.running.has cpath with _ | _ <;> rcases hc : w.candidate.has cpath with _ | _ <;>
    rw [hr, hc] at hstatus
  · -- in neither: the running tree is asked once more
    cases hstatus
    refine (wp_then _ _ _).mpr ⟨trivial, fun inRunning hin => ?_⟩
    have : inRunning = false := by simpa [Answers, World.tree, hr] using hin
    subst this
    rfl
  · cases hstatus
    rfl
  · cases hstatus
    rfl
  · rcases hstatus with h | h
    · cases h
      rfl
    · cases h
      refine (wp_then _ _ _).mpr ⟨trivial, fun inRunning hin => ?_⟩
      have : inRunning = true := by simpa [Answers, World.tree, hr] using hin
      subst this
      rfl

/-! ## The loops over the children -/

/-- The map and the vector of `parse_value_and_state` agree: a value has a state exactly when
    it is listed, and then it is the one at its path. -/
def Agree (w : World) (path : Str → Str) (v : Values) : Prop :=
  ∀ x, v.states.find x = if x ∈ v.values then some (w.state (path x)) else none

theorem Agree.add {path : Str → Str} {v : Values} (h : Agree w path v) {child : Str} (hnew : child ∉ v.values) (np : NodeParams) :
    Agree w path { np, values := v.values ++ [child], states := v.states.insert child (w.state (path child)) } := by
  intro x
  have hnone : v.states.find child = none := by rw [h child, if_neg hnew]
  show (v.states.insert child _).find x = _
  rw [OrdMap.find_insert]
  by_cases e : x = child
  · subst e
    simp [hnone]
  · rw [if_neg e, h x]
    simp [e]

theorem Agree.nil (path : Str → Str) (np : NodeParams) : Agree w path { np } := by
  intro x
  rfl

/-- What a loop adds to the vector: the children that are not in it yet. -/
def Adds (w : World) (path : Str → Str) (children : List Str) (v v' : Values) : Prop :=
  Agree w path v' ∧ v'.values = v.values ++ children.filter (· ∉ v.values)

theorem filter_notMem_snoc {child : Str} {rest values : List Str} (h : child ∉ rest) :
    rest.filter (· ∉ values ++ [child]) = rest.filter (· ∉ values) := by
  refine List.filter_congr fun x hx => ?_
  have hne : x ≠ child := fun e => h (e ▸ hx)
  simp [hne]

theorem Adds.skip {path : Str → Str} {child : Str} {rest : List Str} {v v' : Values} (hold : child ∈ v.values)
    (h : Adds w path rest v v') : Adds w path (child :: rest) v v' := by
  refine ⟨h.1, ?_⟩
  rw [List.filter_cons_of_neg (by simpa using hold)]
  exact h.2

theorem Adds.cons {path : Str → Str} {child : Str} {rest : List Str} {v v' : Values} {np : NodeParams}
    {states : OrdMap Str ConfState} (hnew : child ∉ v.values) (hrest : child ∉ rest)
    (h : Adds w path rest { np, values := v.values ++ [child], states } v') : Adds w path (child :: rest) v v' := by
  refine ⟨h.1, ?_⟩
  rw [List.filter_cons_of_pos (by simpa using hnew), h.2]
  simp only [filter_notMem_snoc hrest, List.append_assoc, List.singleton_append]

/-- The values of one database. Those of the running tree are not compared with what is
    listed already; they are the first ones. -/
theorem valueChildren_lists (cpath : Str) (known : Bool) : ∀ (children : List Str) (v : Values), children.Nodup →
    Agree w (fun x => childPath cpath (urlEscape x)) v → (known = false → ∀ x ∈ children, x ∉ v.values) →
    wp (Answers w) (fun _ => True) exc (valueChildren cpath known children v)
      (Adds w (fun x => childPath cpath (urlEscape x)) children v) := by
  intro children
  induction children with
  | nil =>
    intro v _ hv _
    exact ⟨hv, (List.append_nil _).symm⟩
  | cons child rest ih =>
    intro v hnodup hv hfirst
    obtain ⟨hchild, hrest⟩ := List.nodup_cons.mp hnodup
    rw [valueChildren]
    have hfind : (v.states.find child).isSome = true ↔ child ∈ v.values := by
      rw [hv child]
      by_cases h : child ∈ v.values <;> simp [h]
    refine (wp_ite _ _ _).mpr ⟨fun hold => ?_, fun hnew => ?_⟩
    · rw [Bool.and_eq_true, hfind] at hold
      refine wp_mono (ih v hrest hv fun hk => ?_) fun v' => Adds.skip hold.2
      rw [hold.1] at hk
      cases hk
    · have hnot : child ∉ v.values := by
        intro hmem
        cases known with
        | false => exact hfirst rfl child List.mem_cons_self hmem
        | true => exact hnew (by rw [Bool.true_and, hfind]; exact hmem)
      refine (wp_bind _ _ _).mpr (wp_mono (getNodeParams_states _ _) fun np hnp => ?_)
      have hadd : Agree w (fun x => childPath cpath (urlEscape x))
          { np, values := v.values ++ [child], states := v.states.insert child np.state } := by
        rw [hnp]
        exact hv.add hnot np
      refine wp_mono (ih _ hrest hadd fun hk x hx hmem => ?_) fun v' => Adds.cons hnot hchild
      rcases List.mem_append.mp hmem with h | h
      · exact hfirst hk x (List.mem_cons_of_mem _ hx) h
      · exact hchild (List.mem_singleton.mp h ▸ hx)

/-- The state of a child of a container is put together from both databases. -/
theorem containerChildren_lists (cpath : Str) : ∀ (children : List Str) (v : Values), children.Nodup →
    Agree w (childPath cpath) v → (∀ x ∈ children, x ∉ v.values) →
    wp (Answers w) (fun _ => True) exc (containerChildren cpath children v) (Adds w (childPath cpath) children v) := by
  intro children
  induction children with
  | nil =>
    intro v _ hv _
    exact ⟨hv, (List.append_nil _).symm⟩
  | cons child rest ih =>
    intro v hnodup hv hfirst
    obtain ⟨hchild, hrest⟩ := List.nodup_cons.mp hnodup
    have hnot := hfirst child List.mem_cons_self
    have hstep : ∀ state, state = w.state (childPath cpath child) → wp (Answers w) (fun _ => True) exc
        (containerChildren cpath rest { v with values := v.values ++ [child], states := v.states.insert child state })
        (Adds w (childPath cpath) (child :: rest) v) := by
      rintro state rfl
      refine wp_mono (ih _ hrest (hv.add hnot v.np) fun x hx hmem => ?_) fun v' => Adds.cons hnot hchild
      rcases List.mem_append.mp hmem with h | h
      · exact hfirst x (List.mem_cons_of_mem _ hx) h
      · exact hchild (List.mem_singleton.mp h ▸ hx)
    rw [containerChildren]
    refine (wp_then _ _ _).mpr ⟨trivial, fun inCandidate hc => (wp_then _ _ _).mpr ⟨trivial, fun inRunning hr => ?_⟩⟩
    have hstate : w.state (childPath cpath child) = stateOf inRunning inCandidate := by
      simp only [Answers, World.tree] at hc hr
      rw [hc, hr, World.state]
    cases inCandidate <;> cases inRunning <;> exact hstep _ hstate.symm

/-! ## The listing of a node -/

theorem nodeValues_lists (cpath : Str) (t : NodeType) : wp (Answers w) (fun _ => True) exc (nodeValues cpath t) fun v =>
    Agree w (pathOf cpath t) v ∧ v.values = w.children cpath t := by
  have hvalues : wp (Answers w) (fun _ => True) exc (nodeValues cpath .leaf) fun v =>
      Agree w (pathOf cpath .leaf) v ∧ v.values = w.children cpath .leaf := by
    refine (wp_then _ _ _).mpr ⟨trivial, fun running hrunning => ?_⟩
    simp only [Answers, World.tree] at hrunning
    subst hrunning
    refine (wp_bind _ _ _).mpr (wp_mono (valueChildren_lists cpath false _ {} (w.running.values_nodup cpath)
      (Agree.nil _ _) fun _ x _ hx => (by cases hx)) fun v hv => ?_)
    refine (wp_then _ _ _).mpr ⟨trivial, fun candidate hcandidate => ?_⟩
    simp only [Answers, World.tree] at hcandidate
    subst hcandidate
    have hfirst : v.values = w.running.values cpath := by
      rw [hv.2]
      simp
    refine wp_mono (valueChildren_lists cpath true _ v (w.candidate.values_nodup cpath) hv.1 fun h => (by cases h))
      fun v' hv' => ⟨hv'.1, ?_⟩
    rw [hv'.2, hfirst]
    rfl
  cases t with
  | leaf => exact hvalues
  | multi => exact hvalues
  | tag => exact hvalues
  | container =>
    refine (wp_then _ _ _).mpr ⟨trivial, fun children hchildren => ?_⟩
    simp only [Answers] at hchildren
    subst hchildren
    refine wp_mono (containerChildren_lists cpath _ {} (w.templates_nodup cpath) (Agree.nil _ _) fun x _ hx => (by cases hx))
      fun v hv => ⟨hv.1, ?_⟩
    rw [hv.2]
    simp [World.children]
  | error => exact ⟨Agree.nil _ _, rfl⟩

/-- The children that `parse_value_and_state` adds: their names, and the state of each. -/
def Listed (w : World) (cpath : Str) (t : NodeType) (listed : List NodeParams) : Prop :=
  listed.map (·.name) = w.children cpath t ∧ ∀ np ∈ listed, np.state = w.state (pathOf cpath t np.name)

theorem Agree.listed {cpath : Str} {t : NodeType} {v : Values} (h : Agree w (pathOf cpath t) v) :
    let listed := v.values.filterMap fun name => (v.states.find name).map fun state => { v.np with name, state }
    listed.map (·.name) = v.values ∧ ∀ np ∈ listed, np.state = w.state (pathOf cpath t np.name) := by
  have hlisted : ∀ l : List Str, (∀ x ∈ l, x ∈ v.values) →
      (l.filterMap fun name => (v.states.find name).map fun state => { v.np with name, state }) =
        l.map fun name => { v.np with name, state := w.state (pathOf cpath t name) } := by
    intro l hl
    induction l with
    | nil => rfl
    | cons x l ih =>
      have hx : v.states.find x = some (w.state (pathOf cpath t x)) := by
        rw [h x, if_pos (hl x List.mem_cons_self)]
      rw [List.filterMap_cons_some (b := { v.np with name := x, state := w.state (pathOf cpath t x) }) (by rw [hx]; rfl),
        ih fun y hy => hl y (List.mem_cons_of_mem _ hy)]
      rfl
  intro listed
  have hl : listed = v.values.map fun name => { v.np with name, state := w.state (pathOf cpath t name) } :=
    hlisted v.values fun _ hx => hx
  constructor
  · rw [hl, List.map_map]
    exact List.map_id _
  · intro np hnp
    rw [hl] at hnp
    obtain ⟨name, _, rfl⟩ := List.mem_map.mp hnp
    rfl

theorem parseValueAndState_lists (cpath : Str) (p : TemplateParams) :
    wp (Answers w) (fun _ => True) exc (parseValueAndState cpath p) fun p' => p'.nodeType = p.nodeType ∧
      ∃ listed, p'.childrenColl = p.childrenColl ++ listed ∧ Listed w cpath p.nodeType listed := by
  unfold parseValueAndState
  refine (wp_bind _ _ _).mpr (wp_mono (getNodeParams_states _ _) fun data _ => ?_)
  refine (wp_bind _ _ _).mpr (wp_mono (nodeValues_lists _ _) fun v hv => ?_)
  have hl := hv.1.listed
  exact ⟨rfl, _, rfl, hl.1.trans hv.2, hl.2⟩

/-! ## A request for a node -/

theorem templateStep_children {entry : Str} {p : TemplateParams} {isValue : Bool} {q : TemplateParams × Bool}
    (h : templateStep entry p isValue = some q) : q.1.childrenColl = p.childrenColl := by
  obtain ⟨⟨key, value⟩, _, h⟩ := Option.bind_eq_some_iff.mp h
  unfold templateEntry at h
  -- every key that is read has a branch of its own, and the others are ignored
  iterate 13
    rcases ite_eq_iff.mp h with ⟨_, h⟩ | ⟨_, h⟩
    · cases h
      rfl
  cases h

theorem templateEntries_children (cpath : Str) : ∀ (entries : List Str) (p : TemplateParams) (isValue : Bool),
    wp (Answers w) (fun _ => True) exc (templateEntries cpath entries p isValue) fun r =>
      r.1.childrenColl = p.childrenColl := by
  intro entries
  induction entries with
  | nil =>
    intro p isValue
    rfl
  | cons entry rest ih =>
    intro p isValue
    rw [templateEntries]
    rcases hs : templateStep entry p isValue with _ | ⟨p', v'⟩
    · exact ih p isValue
    · refine (wp_then _ _ _).mpr ⟨trivial, fun children _ => wp_mono (ih _ v') fun r hr => ?_⟩
      rw [hr, ← templateStep_children hs]
      split <;> rfl

theorem settle_children (p : TemplateParams) (isValue noEntries : Bool) :
    (p.settle isValue noEntries).childrenColl = p.childrenColl := by
  simp only [TemplateParams.settle]
  split_ifs <;> rfl

theorem getTemplateNode_children (cpath : Str) (p : TemplateParams) : wp (Answers w) (fun _ => True) exc
    (getTemplateNode cpath p) fun r => ∀ p', r = some p' → p'.childrenColl = p.childrenColl := by
  unfold getTemplateNode
  refine (wp_then _ _ _).mpr ⟨trivial, fun valid _ => ?_⟩
  refine (wp_ite _ _ _).mpr ⟨fun _ p' h => (by cases h), fun _ => ?_⟩
  refine (wp_then _ _ _).mpr ⟨trivial, fun entries _ => ?_⟩
  rcases entries with _ | entries
  · intro p' h
    cases h
    rfl
  refine (wp_bind _ _ _).mpr (wp_mono (templateEntries_children cpath entries p false) fun r hr => ?_)
  refine (wp_then _ _ _).mpr ⟨trivial, fun nodeType _ => ?_⟩
  refine (wp_ite _ _ _).mpr ⟨fun _ p' h => ?_, fun _ => (wp_then _ _ _).mpr ⟨trivial, fun allowed _ p' h => ?_⟩⟩
  all_goals
    cases h
    rw [settle_children]
    exact hr

/-- A node that is asked for has the children of this listing and no others. -/
theorem getConfiguredNode_lists (cpath confId : Str) : wp (Answers w) (fun _ => True) exc (getConfiguredNode cpath confId)
    fun r => ∀ p, r = some p → Listed w cpath p.nodeType p.childrenColl := by
  unfold getConfiguredNode
  refine (wp_then _ _ _).mpr ⟨trivial, fun _ _ => ?_⟩
  refine (wp_bind _ _ _).mpr (wp_mono (getTemplateNode_children cpath {}) fun r hr => ?_)
  rcases r with _ | p
  · intro p h
    cases h
  refine (wp_bind _ _ _).mpr (wp_mono (parseValueAndState_lists cpath p) fun p' hp' => ?_)
  obtain ⟨htype, listed, hcoll, hnames, hstates⟩ := hp'
  rw [hr p rfl, List.nil_append] at hcoll
  intro q hq
  cases hq
  show Listed w cpath p'.nodeType (p'.childrenColl.map fun np => { np with disabledState := .enable })
  rw [htype, hcoll]
  constructor
  · rw [List.map_map]
    exact hnames
  · intro np hnp
    obtain ⟨np', hmem, rfl⟩ := List.mem_map.mp hnp
    exact hstates np' hmem

end

theorem statusOf_answers (inRunning inCandidate : Bool) : ∃ s, StatusOf inRunning inCandidate s := by
  cases inRunning <;> cases inCandidate
  · exact ⟨.unchanged, rfl⟩
  · exact ⟨.added, rfl⟩
  · exact ⟨.deleted, rfl⟩
  · exact ⟨.changed, Or.inl rfl⟩

theorem World.answers (w : World) : ∀ c, ∃ a, Answers w c a := by
  intro c
  cases c with
  | configdNodeGetStatus path => exact statusOf_answers _ _
  | configdNodeGetType path => exact ⟨.container, trivial⟩
  | _ => first | exact ⟨_, rfl⟩ | exact ⟨default, trivial⟩

/-- Each child of a node is listed once, with the state it has when it is asked for itself:
    active in both trees, set only in the candidate, delete only in the running one, none in
    neither. The listing goes behind the children the parameters had, and a request for a
    node starts from parameters without any. -/
theorem children_listed_with_their_states (w : World) (cpath : Str) :
    (∀ p, (parseValueAndState cpath p).Returns (Answers w) fun p' => ∃ listed, p'.childrenColl = p.childrenColl ++ listed ∧
      Listed w cpath p.nodeType listed ∧ (listed.map (·.name)).Nodup ∧
      ∀ np ∈ listed, ∀ node, (getNodeParams (pathOf cpath p.nodeType np.name) node).Returns (Answers w) fun node' =>
        node'.state = np.state) ∧
    ∀ confId, (getConfiguredNode cpath confId).Returns (Answers w) fun r => ∀ p, r = some p →
      Listed w cpath p.nodeType p.childrenColl ∧ (p.childrenColl.map (·.name)).Nodup := by
  constructor
  · intro p
    refine returns_of_wp w.answers (wp_mono (parseValueAndState_lists cpath p) fun p' hp' => ?_)
    obtain ⟨_, listed, hcoll, hlisted⟩ := hp'
    refine ⟨listed, hcoll, hlisted, ?_, fun np hnp node => ?_⟩
    · rw [hlisted.1]
      exact w.children_nodup cpath p.nodeType
    · rw [hlisted.2 np hnp]
      exact returns_of_wp w.answers (getNodeParams_states _ node)
  · intro confId
    refine returns_of_wp w.answers (wp_mono (getConfiguredNode_lists cpath confId) fun r hr p hp => ?_)
    refine ⟨hr p hp, ?_⟩
    rw [(hr p hp).1]
    exact w.children_nodup cpath p.nodeType

/-- A tree with a node of several values. -/
def sampleTree (values : List Str) (hvalues : values.Nodup) : Tree where
  has path := path = str "groups" || values.any fun v => path = childPath (str "groups") (urlEscape v)
  values path := if path = str "groups" then values else []
  values_nodup path := by
    split
    · exact hvalues
    · exact List.nodup_nil

/-- One value is removed, one stays and one is new. -/
def sampleWorld : World where
  running := sampleTree [str "old", str "both"] (by decide)
  candidate := sampleTree [str "new", str "both"] (by decide)
  templates _ := []
  templates_nodup _ := List.nodup_nil

theorem three_values_are_listed :
    (parseValueAndState (str "groups") { nodeType := .multi }).Returns (Answers sampleWorld) fun p' =>
    p'.childrenColl.map (fun np => (np.name, np.state)) =
      [(str "old", .delete), (str "both", .active), (str "new", .set)] := by
  obtain ⟨hruns, hthrows, hall⟩ := (children_listed_with_their_states sampleWorld (str "groups")).1 { nodeType := .multi }
  refine ⟨hruns, hthrows, fun tr p' hexec => ?_⟩
  obtain ⟨listed, hcoll, ⟨hnames, hstates⟩, -, -⟩ := hall tr p' hexec
  have hpairs : listed.map (fun np => (np.name, np.state)) = (listed.map (·.name)).map fun name =>
      (name, sampleWorld.state (pathOf (str "groups") .multi name)) := by
    rw [List.map_map]
    exact List.map_congr_left fun np hnp => congrArg (Prod.mk np.name) (hstates np hnp)
  rw [hcoll, List.nil_append, hpairs, hnames]
  decide

end VyattaRest.Server.Configuration
