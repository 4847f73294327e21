/-
  VyattaRest.AppCommands — the commands of a message of parameter objects (App/MsgParser.pm,
  App/Param/Base.pm and App/Param/TagParam.pm).

  `iterateParams` lists the objects of a message: each before what is below it, the tags of a tag
  node, the children of any other, and nothing below an object that is deleted. Of every object
  `getConfigCommands` makes commands for its path, which goes up through its parents and has the
  new value of a tag that is renamed.

  It ends in a condition: of a typed object with another status than `added`, `changed` and
  `deleted` there is one command, and that is empty.
  - `fromInput_forest`: what a parsed message looks like.
  - `ordered_iff`: every object is listed that is not below a deleted one, once, and behind those
    above it; and commands below a renamed tag come behind its move and have its new path,
    exactly if no object there is such a one, and no tag there is renamed to nothing.
  - `a_status_of_its_own`: a tag that is renamed, and a node below it that stays as it is.
-/

import VyattaRest.AppMessage

namespace VyattaRest.App

open VyattaRest.Lib

/-! ## The list of objects -/

/-- From an object to one below it: the name of a child, or the place of a tag. -/
inductive Step where
  | child (name : Str)
  | tag (i : Nat)
  deriving DecidableEq

abbrev Addr := List Step

/-- An object and the data of those above it, the nearest first; a hash that was left as it is
    has no data. -/
structure Ref where
  addr : Addr
  data : Option Fields
  parents : List Fields

def hasText (data : Fields) (k t : Str) : Bool :=
  match data.lookup k with
  | some (.string s) => s = t
  | _ => false

def isStatusDeleted (data : Fields) : Bool := hasText data (str "status") (str "deleted")

def isTagNode (data : Fields) : Bool := truthy (data.lookup (str "tagnode"))

def isTagValue (data : Fields) : Bool := truthy (data.lookup (str "tag"))

def isTypeless (data : Fields) : Bool := hasText data (str "type") []

mutual

/-- `_recursiveWalk`. -/
def recursiveWalk (addr : Addr) (parents : List Fields) : Node → List Ref
  | .raw _ => [⟨addr, none, parents⟩]
  | .param _ data children tags =>
    ⟨addr, some data, parents⟩ ::
      if isStatusDeleted data then []
      else if isTagNode data then walkTags addr (data :: parents) 0 tags
      else walkChildren addr (data :: parents) children

def walkTags (addr : Addr) (parents : List Fields) : Nat → List Node → List Ref
  | _, [] => []
  | i, t :: ts => recursiveWalk (addr ++ [.tag i]) parents t ++ walkTags addr parents (i + 1) ts

def walkChildren (addr : Addr) (parents : List Fields) : List (Str × Node) → List Ref
  | [] => []
  | (k, n) :: ns => recursiveWalk (addr ++ [.child k]) parents n ++ walkChildren addr parents ns

end

/-- `iterateParams`. -/
def iterateParams : List (Str × Node) → List Ref
  | [] => []
  | (_, .raw _) :: root => iterateParams root
  | (k, .param cls data children tags) :: root =>
    recursiveWalk [.child k] [] (.param cls data children tags) ++ iterateParams root

/-! ## The commands of an object -/

section Commands

variable (lib : Library)

/-- A field in a text; one that is not defined is nothing. -/
def textOf (data : Fields) (k : Str) : Str := if data.defined k then (data.lookup k).elim [] lib.text else []

def isMapped (data : Fields) : Bool := data.defined (str "cfg_path") || data.defined (str "rel_path")

/-- `$rpath`: a tag has its value in it, the new one if there is one. -/
def relPath (data : Fields) : Option Str :=
  let rpath := if data.defined (str "rel_path") then some (textOf lib data (str "rel_path")) else none
  if isTagValue data then
    let val := if data.defined (str "new-value") then textOf lib data (str "new-value") else textOf lib data (str "value")
    if rpath.getD [] ≠ [] then some (rpath.getD [] ++ str " " ++ val) else some val
  else rpath

/-- `getMappedPath`; `none` when it dies. -/
def getMappedPath : Fields → List Fields → Option Str
  | data, [] => if data.defined (str "cfg_path") then some (textOf lib data (str "cfg_path")) else none
  | data, parent :: above =>
    if data.defined (str "cfg_path") then some (textOf lib data (str "cfg_path"))
    else (relPath lib data).bind fun rpath => (getMappedPath parent above).map fun path => path ++ str " " ++ rpath

/-- `_getConfigSetCommands`. -/
def getConfigSetCommands (data : Fields) (path : Str) : Option (List Str) :=
  if data.defined (str "values") then
    if data.defined (str "new-values") then
      match data.lookup (str "new-values") with
      | some (.array vals) =>
        some ((str "delete " ++ path) :: vals.map fun v => str "set " ++ path ++ str " '" ++ lib.text v ++ str "'")
      | _ => none
    else some []
  else if data.defined (str "new-value") then
    some [str "set " ++ path ++ str " '" ++ textOf lib data (str "new-value") ++ str "'"]
  else some []

/-- `split / +/`; what is before the first blanks is a field, what is behind the last is not. -/
def splitBlanks (path : Str) : List Str :=
  let fields := (path.splitOn 32).filter (· ≠ [])
  if path.head? = some 32 && !fields.isEmpty then [] :: fields else fields

/-- `join ' '`. -/
def joinBlanks (fields : List Str) : Str := List.intercalate (str " ") fields

def moveCommand (data : Fields) (path : Str) : Str :=
  joinBlanks ([str "move"] ++ (splitBlanks path).dropLast ++
    [textOf lib data (str "value"), str "to", textOf lib data (str "new-value")])

/-- `getConfigCommands`. Behind the last condition the value of the condition is returned. -/
def getConfigCommands (data : Fields) (parents : List Fields) : Option (List Str) :=
  if !isMapped data || !data.defined (str "status") then some []
  else (getMappedPath lib data parents).bind fun path =>
    if isStatusDeleted data then some [str "delete " ++ path]
    else if isTypeless data then if hasText data (str "status") (str "added") then some [str "set " ++ path] else some []
    else if isTagValue data && hasText data (str "status") (str "changed") then
      if !data.defined (str "value") || !data.defined (str "new-value") then some [] else some [moveCommand lib data path]
    else if isTagValue data && hasText data (str "status") (str "added") then some [str "set " ++ path]
    else if hasText data (str "status") (str "changed") || hasText data (str "status") (str "added") then
      getConfigSetCommands lib data path
    else some [[]]

/-- Those of an object of the list, with its place. A hash has no such method. -/
def Ref.commands (r : Ref) : Option (List (Addr × Str)) :=
  r.data.bind fun data => (getConfigCommands lib data r.parents).map fun cmds => cmds.map fun cmd => (r.addr, cmd)

/-- The commands of a message; `none` when one of the objects dies. -/
def configCommands (root : List (Str × Node)) : Option (List (Addr × Str)) :=
  ((iterateParams root).mapM (Ref.commands lib)).map List.flatten

end Commands

/-! ## Messages that were parsed -/

/-- A tag node has no children, any other object no tags; nothing but objects is below one. -/
inductive Object : Node → Prop where
  | mk {cls : Class} {data : Fields} {children : List (Str × Node)} {tags : List Node}
      (tagged : isTagNode data = true → children = []) (plain : isTagNode data = false → tags = [])
      (names : (children.map Prod.fst).Nodup) (below : ∀ c ∈ children, Object c.2) (belowTag : ∀ t ∈ tags, Object t) :
      Object (.param cls data children tags)

/-- Objects, and hashes that were left as they are. -/
structure Forest (root : List (Str × Node)) : Prop where
  names : (root.map Prod.fst).Nodup
  objects : ∀ c ∈ root, c.2.hangs = true → Object c.2

def below? (children : List (Str × Node)) (tags : List Node) : Step → Option Node
  | .child k => children.lookup k
  | .tag i => tags[i]?

/-- A node of a message, with the data of the objects above it. -/
inductive Place (root : List (Str × Node)) : Addr → Node → List Fields → Prop where
  | top {k : Str} {n : Node} (h : root.lookup k = some n) : Place root [.child k] n []
  | under {addr : Addr} {cls : Class} {data : Fields} {children : List (Str × Node)} {tags : List Node} {above : List Fields}
      {s : Step} {n : Node} (up : Place root addr (.param cls data children tags) above)
      (h : below? children tags s = some n) : Place root (addr ++ [s]) n (data :: above)

/-- An object of a message that is not below a deleted one. -/
def Live (root : List (Str × Node)) (addr : Addr) (data : Fields) (parents : List Fields) : Prop :=
  (∃ cls children tags, Place root addr (.param cls data children tags) parents) ∧ ∀ p ∈ parents, isStatusDeleted p = false

section Ordered

variable (lib : Library)

/-- A tag of which there is a move command. -/
structure Renamed (data : Fields) : Prop where
  mapped : isMapped data = true
  tag : isTagValue data = true
  typed : isTypeless data = false
  changed : hasText data (str "status") (str "changed") = true
  value : data.defined (str "value") = true
  newValue : data.defined (str "new-value") = true

/-- The words of a path or a command. -/
def words (s : Str) : List Str := (s.splitOn 32).filter (· ≠ [])

/-- The first words behind the verb are those of the path. -/
def Uses (path cmd : Str) : Prop := ∃ verb rest, words cmd = verb :: (words path ++ rest)

/-- What is listed, and in which order; and what the commands below a renamed tag are like: they are
    behind its move, and their path begins with that of the tag, which ends with the new value. -/
structure Ordered (root : List (Str × Node)) (cmds : List (Addr × Str)) : Prop where
  listed : ∀ addr, addr ∈ (iterateParams root).map Ref.addr ↔ ∃ data parents, Live root addr data parents
  once : ((iterateParams root).map Ref.addr).Nodup
  after : ∀ pre addr post, (iterateParams root).map Ref.addr = pre ++ addr :: post → ∀ p, p <+: addr → p ≠ [] → p ≠ addr → p ∈ pre
  moved : ∀ addr data parents path, Live root addr data parents → Renamed data → getMappedPath lib data parents = some path →
    ∀ pre a cmd post, cmds = pre ++ (a, cmd) :: post → addr <+: a → addr ≠ a →
      (addr, moveCommand lib data path) ∈ pre ∧ words (textOf lib data (str "new-value")) <:+ words path ∧ Uses path cmd

/-- Tags and what is below them have no absolute path. -/
def Relative (root : List (Str × Node)) : Prop :=
  ∀ addr data parents, Live root addr data parents → (isTagValue data = true ∨ ∃ p ∈ parents, isTagValue p = true) →
    data.defined (str "cfg_path") = false

/-- A status that `getConfigCommands` knows. -/
def Known (data : Fields) : Prop :=
  isTypeless data = true ∨ isStatusDeleted data = true ∨ hasText data (str "status") (str "added") = true ∨
    hasText data (str "status") (str "changed") = true

/-- Below a renamed tag every status is known, and the path of a tag that is renamed there is longer
    by a word. Without one the move loses the last word, and has it only if the old value begins with it. -/
def Proper (root : List (Str × Node)) : Prop :=
  ∀ addr data parents, Live root addr data parents → Renamed data →
    ∀ a data' between, Live root a data' (between ++ data :: parents) → addr <+: a → addr ≠ a →
      isMapped data' = true → data'.defined (str "status") = true →
        Known data' ∧ (Renamed data' → (∃ x ∈ data' :: between, words ((relPath lib x).getD []) ≠ []) ∨
          ∀ path w, getMappedPath lib data parents = some path → (words path).getLast? = some w →
            (words (textOf lib data' (str "value")) ++ [str "to"]).head? = some w)

end Ordered

/-! ## The walk -/

section Walk

variable {root : List (Str × Node)} {addr a : Addr} {n m : Node} {cls : Class} {data : Fields} {children : List (Str × Node)}
  {tags : List Node} {parents above : List Fields} {s : Step}

/-- What the walk goes on with. -/
def kids (data : Fields) (children : List (Str × Node)) (tags : List Node) : List (Step × Node) :=
  if isTagNode data then tags.zipIdx.map fun t => (.tag t.2, t.1) else children.map fun c => (.child c.1, c.2)

theorem walkTags_eq (addr : Addr) (parents : List Fields) (tags : List Node) (i : Nat) : walkTags addr parents i tags =
    (tags.zipIdx i).flatMap fun t => recursiveWalk (addr ++ [.tag t.2]) parents t.1 := by
  induction tags generalizing i with
  | nil => rw [walkTags]; rfl
  | cons t tags ih => rw [walkTags, ih, List.zipIdx_cons, List.flatMap_cons]

theorem walkChildren_eq (addr : Addr) (parents : List Fields) (children : List (Str × Node)) :
    walkChildren addr parents children = children.flatMap fun c => recursiveWalk (addr ++ [.child c.1]) parents c.2 := by
  induction children with
  | nil => rw [walkChildren]; rfl
  | cons c children ih => rw [walkChildren, ih, List.flatMap_cons]

theorem recursiveWalk_eq (addr : Addr) (parents : List Fields) : recursiveWalk addr parents (.param cls data children tags) =
    ⟨addr, some data, parents⟩ :: if isStatusDeleted data then [] else
      (kids data children tags).flatMap fun k => recursiveWalk (addr ++ [k.1]) (data :: parents) k.2 := by
  rw [recursiveWalk, kids, walkTags_eq, walkChildren_eq]
  refine congrArg _ ?_
  split
  · rfl
  · split
    · rw [List.flatMap_map]
    · rw [List.flatMap_map]

theorem Object.kids_iff (ho : Object (.param cls data children tags)) :
    (s, n) ∈ kids data children tags ↔ below? children tags s = some n := by
  cases ho with
  | mk tagged plain names _ _ =>
    rw [kids]
    split
    · rename_i ht
      rw [List.mem_map]
      constructor
      · rintro ⟨t, ht', heq⟩
        cases heq
        exact List.mem_zipIdx_iff_getElem?.mp ht'
      · intro hs
        cases s with
        | child k =>
          rw [tagged ht] at hs
          cases hs
        | tag i => exact ⟨(n, i), List.mem_zipIdx_iff_getElem?.mpr hs, rfl⟩
    · rename_i ht
      rw [List.mem_map]
      constructor
      · rintro ⟨c, hc, heq⟩
        cases heq
        exact lookup_of_mem names hc
      · intro hs
        cases s with
        | child k => exact ⟨(k, n), mem_of_lookup hs, rfl⟩
        | tag i =>
          rw [plain (Bool.eq_false_iff.mpr ht)] at hs
          cases hs

theorem Object.kids_pairwise (ho : Object (.param cls data children tags)) :
    (kids data children tags).Pairwise fun k k' => k.1 ≠ k'.1 := by
  cases ho with
  | mk tagged plain names _ _ =>
    rw [kids]
    split
    · rw [List.pairwise_map]
      have hidx : (tags.zipIdx.map Prod.snd).Nodup := by
        rw [List.zipIdx_map_snd]
        exact List.nodup_range'
      exact (List.pairwise_map.mp hidx).imp fun {t t'} hne heq => hne (Step.tag.inj heq)
    · rw [List.pairwise_map]
      exact (List.pairwise_map.mp names).imp fun {c c'} hne heq => hne (Step.child.inj heq)

theorem Object.kid (ho : Object (.param cls data children tags)) (hs : below? children tags s = some n) : Object n := by
  cases ho with
  | mk _ _ _ below belowTag =>
    cases s with
    | child k => exact below _ (mem_of_lookup hs)
    | tag i => exact belowTag n (List.mem_of_getElem? hs)

theorem Place.object (hr : Forest root) (hp : Place root addr n parents) (hn : n.hangs = true) : Object n := by
  induction hp with
  | top h => exact hr.objects _ (mem_of_lookup h) hn
  | under _ h ih => exact (ih rfl).kid h

/-- What holds of an object if it holds of those that the walk goes on with holds of every object. -/
theorem Object.walk_induction {P : (n : Node) → Object n → Prop}
    (hstep : ∀ {cls data children tags} (hobj : Object (.param cls data children tags)),
      (∀ k ∈ kids data children tags, ∀ hk : Object k.2, P k.2 hk) → P (.param cls data children tags) hobj)
    {n : Node} (ho : Object n) : P n ho := by
  induction ho with
  | @mk cls data children tags tagged plain names below belowTag ih ihTag =>
    have hobj : Object (.param cls data children tags) := .mk tagged plain names below belowTag
    refine hstep hobj fun k hk _ => ?_
    have hbelow := hobj.kids_iff.mp hk
    rcases hs : k.1 with name | i
    · rw [hs] at hbelow
      exact ih _ (mem_of_lookup hbelow)
    · rw [hs] at hbelow
      exact ihTag _ (List.mem_of_getElem? hbelow)

theorem mem_walk_cases {r : Ref} (hr : r ∈ recursiveWalk addr parents (.param cls data children tags)) :
    r = ⟨addr, some data, parents⟩ ∨ isStatusDeleted data = false ∧
      ∃ k ∈ kids data children tags, r ∈ recursiveWalk (addr ++ [k.1]) (data :: parents) k.2 := by
  rw [recursiveWalk_eq] at hr
  rcases List.mem_cons.mp hr with hr | hr
  · exact Or.inl hr
  · split at hr
    · cases hr
    · exact Or.inr ⟨Bool.eq_false_iff.mpr ‹_›, List.mem_flatMap.mp hr⟩

theorem prefix_walk (ho : Object n) :
    ∀ (addr : Addr) (parents : List Fields), ∀ r ∈ recursiveWalk addr parents n, addr <+: r.addr := by
  induction ho using Object.walk_induction with
  | @hstep cls data children tags hobj ih =>
    intro addr parents r hr
    rcases mem_walk_cases hr with rfl | ⟨-, k, hk, hr⟩
    · exact List.prefix_rfl
    · exact (List.prefix_append _ _).trans (ih k hk (hobj.kid (hobj.kids_iff.mp hk)) _ _ r hr)

/-- Nothing in the walk is above what comes before it. -/
theorem walk_pairwise (ho : Object n) : ∀ (addr : Addr) (parents : List Fields),
    (recursiveWalk addr parents n).Pairwise fun x y => ¬ y.addr <+: x.addr := by
  induction ho using Object.walk_induction with
  | @hstep cls data children tags hobj ih =>
    intro addr parents
    have hkid : ∀ k ∈ kids data children tags, Object k.2 := fun k hk => hobj.kid (hobj.kids_iff.mp hk)
    rw [recursiveWalk_eq, List.pairwise_cons]
    split
    · exact ⟨fun y hy => (by cases hy), List.Pairwise.nil⟩
    · refine ⟨fun y hy hpre => ?_, List.pairwise_flatMap.mpr ⟨fun k hk => ih k hk (hkid k hk) _ _, ?_⟩⟩
      · obtain ⟨k, hk, hy⟩ := List.mem_flatMap.mp hy
        exact not_longer ((prefix_walk (hkid k hk) _ _ y hy).trans hpre)
      · refine (List.Pairwise.and_mem.mp hobj.kids_pairwise).imp ?_
        rintro k k' ⟨hk, hk', hne⟩ x hx y hy hpre
        exact hne (same_step (prefix_walk (hkid k hk) _ _ x hx) ((prefix_walk (hkid k' hk') _ _ y hy).trans hpre))

/-- What the walk lists is there, and not below what is deleted. -/
theorem walk_live (ho : Object n) : ∀ (addr : Addr) (parents : List Fields), Place root addr n parents →
    (∀ p ∈ parents, isStatusDeleted p = false) → ∀ r ∈ recursiveWalk addr parents n,
      ∃ data, r.data = some data ∧ Live root r.addr data r.parents := by
  induction ho using Object.walk_induction with
  | @hstep cls data children tags hobj ih =>
    intro addr parents hp hlive r hr
    rcases mem_walk_cases hr with rfl | ⟨hdel, k, hk, hr⟩
    · exact ⟨data, rfl, ⟨_, _, _, hp⟩, hlive⟩
    · have hbelow := hobj.kids_iff.mp hk
      exact ih k hk (hobj.kid hbelow) _ _ (.under hp hbelow) (List.forall_mem_cons.mpr ⟨hdel, hlive⟩) r hr

theorem iterateParams_eq (root : List (Str × Node)) : iterateParams root =
    root.flatMap fun c => if c.2.hangs then recursiveWalk [.child c.1] [] c.2 else [] := by
  induction root with
  | nil => rw [iterateParams]; rfl
  | cons c root ih =>
    obtain ⟨k, n⟩ := c
    rw [List.flatMap_cons, ← ih]
    cases n with
    | raw v => rw [iterateParams]; rfl
    | param cls data children tags => rw [iterateParams]; rfl

theorem walk_subset (hr : Forest root) (hp : Place root addr n parents) (hn : n.hangs = true) :
    (∀ p ∈ parents, isStatusDeleted p = false) → ∀ r ∈ recursiveWalk addr parents n, r ∈ iterateParams root := by
  induction hp with
  | top h =>
    intro _ r hmem
    rw [iterateParams_eq, List.mem_flatMap]
    exact ⟨_, mem_of_lookup h, by rw [if_pos hn]; exact hmem⟩
  | @under addr cls data children tags above s n hup h ih =>
    intro hlive r hmem
    obtain ⟨hdel, hlive⟩ := List.forall_mem_cons.mp hlive
    refine ih rfl hlive r ?_
    rw [recursiveWalk_eq, hdel, if_neg Bool.false_ne_true]
    exact List.mem_cons_of_mem _ (List.mem_flatMap.mpr ⟨(s, n), (hup.object hr rfl).kids_iff.mpr h, hmem⟩)

/-- The list has the objects that are not below a deleted one. -/
theorem mem_iterateParams (hr : Forest root) {r : Ref} :
    r ∈ iterateParams root ↔ ∃ data, r.data = some data ∧ Live root r.addr data r.parents := by
  constructor
  · intro hmem
    rw [iterateParams_eq, List.mem_flatMap] at hmem
    obtain ⟨c, hc, hmem⟩ := hmem
    split at hmem
    · rename_i hn
      exact walk_live (hr.objects c hc hn) _ _ (.top (lookup_of_mem hr.names hc)) (fun p hp => by cases hp) r hmem
    · cases hmem
  · rintro ⟨data, hdata, ⟨cls, children, tags, hp⟩, hlive⟩
    refine walk_subset hr hp rfl hlive r ?_
    rw [recursiveWalk_eq]
    obtain ⟨addr, d, parents⟩ := r
    cases hdata
    exact List.mem_cons_self

theorem iterateParams_pairwise (hr : Forest root) : (iterateParams root).Pairwise fun x y => ¬ y.addr <+: x.addr := by
  rw [iterateParams_eq, List.pairwise_flatMap]
  refine ⟨fun c hc => ?_, ?_⟩
  · split
    · rename_i hn
      exact walk_pairwise (hr.objects c hc hn) _ _
    · exact List.Pairwise.nil
  · refine (List.Pairwise.and_mem.mp (List.pairwise_map.mp hr.names)).imp ?_
    rintro c c' ⟨hc, hc', hne⟩ x hx y hy hpre
    split at hx
    · rename_i hn
      split at hy
      · rename_i hn'
        have hx' := prefix_walk (hr.objects c hc hn) _ _ x hx
        have hy' := (prefix_walk (hr.objects c' hc' hn') _ _ y hy).trans hpre
        exact hne (Step.child.inj (@same_step _ [] _ _ _ hx' hy'))
      · cases hy
    · cases hx

/-! ## Places -/

theorem Place.split (hp : Place root (addr ++ [s]) n parents) :
    (addr = [] ∧ parents = [] ∧ ∃ k, s = .child k ∧ root.lookup k = some n) ∨
      ∃ cls data children tags above, Place root addr (.param cls data children tags) above ∧ parents = data :: above ∧
        below? children tags s = some n := by
  generalize ha : addr ++ [s] = a at hp
  cases hp with
  | @top k _ h =>
    obtain ⟨rfl, hs⟩ := List.append_inj' (show addr ++ [s] = [] ++ [.child k] from ha) rfl
    cases List.singleton_inj.mp hs
    exact Or.inl ⟨rfl, rfl, k, rfl, h⟩
  | under hup h =>
    obtain ⟨rfl, hs⟩ := List.append_inj' ha rfl
    cases List.singleton_inj.mp hs
    exact Or.inr ⟨_, _, _, _, _, hup, rfl, h⟩

theorem Place.addr_ne (hp : Place root addr n parents) : addr ≠ [] := by
  cases hp with
  | top => exact List.cons_ne_nil _ _
  | under => exact List.append_ne_nil_of_right_ne_nil _ (List.cons_ne_nil _ _)

theorem Place.unique (hp : Place root addr n parents) : ∀ {m : Node} {above : List Fields}, Place root addr m above →
    m = n ∧ above = parents := by
  induction hp with
  | @top k n h =>
    intro m above hm
    have hm' : Place root ([] ++ [.child k]) m above := hm
    rcases hm'.split with ⟨-, rfl, k', hk, h'⟩ | ⟨_, _, _, _, _, hup, -⟩
    · cases hk
      exact ⟨Option.some.inj (h'.symm.trans h), rfl⟩
    · exact absurd rfl hup.addr_ne
  | under hup h ih =>
    intro m above hm
    rcases hm.split with ⟨rfl, -⟩ | ⟨_, _, _, _, _, hup', rfl, h'⟩
    · exact absurd rfl hup.addr_ne
    · obtain ⟨heq, rfl⟩ := ih hup'
      cases heq
      exact ⟨Option.some.inj (h'.symm.trans h), rfl⟩

/-- Above a place there are places, and their data is among that above it. -/
theorem Place.up (hp : Place root a m above) : ∀ {addr : Addr}, addr <+: a → addr ≠ [] → addr ≠ a →
    ∃ cls data children tags parents between, Place root addr (.param cls data children tags) parents ∧
      above = between ++ data :: parents := by
  induction hp with
  | @top k n h =>
    intro addr hpre hne hne'
    rcases List.prefix_concat_iff.mp (show addr <+: ([] : Addr) ++ [.child k] from hpre) with heq | hpre
    · exact absurd heq hne'
    · exact absurd (List.prefix_nil.mp hpre) hne
  | @under addr' cls data children tags above s n hup h ih =>
    intro addr hpre hne hne'
    rcases List.prefix_concat_iff.mp hpre with heq | hpre
    · exact absurd heq hne'
    · by_cases heq : addr = addr'
      · subst heq
        exact ⟨cls, data, children, tags, above, [], hup, rfl⟩
      · obtain ⟨cls', data', children', tags', parents, between, hp, rfl⟩ := ih hpre hne heq
        exact ⟨cls', data', children', tags', parents, data :: between, hp, rfl⟩

end Walk

/-! ## Words of a command -/

section Words

theorem words_append (a b : Str) : words (a ++ 32 :: b) = words a ++ words b := by
  rw [words, List.splitOn, List.splitOnP_append_cons _ _ (by rfl), List.filter_append]
  rfl

theorem words_plain {w : Str} (hne : w ≠ []) (hw : 32 ∉ w) : words w = [w] := by
  have hno : ∀ b ∈ w, (b == 32) = false := by
    intro b hb
    rw [beq_eq_false_iff_ne]
    rintro rfl
    exact hw hb
  rw [words, List.splitOn, List.splitOnP_eq_singleton hno]
  exact List.filter_cons_of_pos (decide_eq_true hne)

theorem words_nil : words [] = [] := rfl

theorem words_of_mem {s w : Str} (hw : w ∈ words s) : words w = [w] := by
  obtain ⟨hw, hne⟩ := List.mem_filter.mp hw
  exact words_plain (of_decide_eq_true hne) (mem_splitOn 32 s w hw).1

theorem flatMap_words {l : List Str} (h : ∀ w ∈ l, words w = [w]) : l.flatMap words = l := by
  induction l with
  | nil => rfl
  | cons w l ih =>
    rw [List.flatMap_cons, h w List.mem_cons_self, ih fun w' hw' => h w' (List.mem_cons_of_mem _ hw')]
    rfl

theorem words_joinBlanks (l : List Str) : words (joinBlanks l) = l.flatMap words := by
  induction l with
  | nil => rfl
  | cons w l ih =>
    cases l with
    | nil => rw [joinBlanks, List.intercalate_singleton, List.flatMap_cons, List.flatMap_nil, List.append_nil]
    | cons w' l =>
      rw [joinBlanks, List.intercalate_cons_cons, List.flatMap_cons, ← ih, List.append_assoc]
      exact words_append _ _

/-- The path of a move is short of its last word. -/
theorem splitBlanks_words (path : Str) : (splitBlanks path).dropLast.flatMap words = (words path).dropLast := by
  have hfields : (words path).dropLast.flatMap words = (words path).dropLast :=
    flatMap_words fun w hw => words_of_mem (List.mem_of_mem_dropLast hw)
  rw [splitBlanks]
  change (if path.head? = some 32 && !(words path).isEmpty then [] :: words path else words path).dropLast.flatMap words = _
  split
  · rename_i hc
    have hne : words path ≠ [] := by
      rw [Bool.and_eq_true, Bool.not_eq_true', List.isEmpty_eq_false_iff] at hc
      exact hc.2
    rw [List.dropLast_cons_of_ne_nil hne, List.flatMap_cons, words_nil, hfields]
    rfl
  · exact hfields

theorem words_moveCommand (lib : Library) (data : Fields) (path : Str) : words (moveCommand lib data path) =
    str "move" :: ((words path).dropLast ++ (words (textOf lib data (str "value")) ++
      str "to" :: words (textOf lib data (str "new-value")))) := by
  have hmove : words (str "move") = [str "move"] := words_plain (by decide) (by decide)
  have hto : words (str "to") = [str "to"] := words_plain (by decide) (by decide)
  rw [moveCommand, words_joinBlanks, List.flatMap_append, List.flatMap_append, splitBlanks_words, List.flatMap_cons,
    List.flatMap_cons, List.flatMap_cons, List.flatMap_cons, hmove, hto]
  simp only [List.flatMap_nil, List.append_nil, List.cons_append, List.nil_append]

theorem uses_delete {path p : Str} (h : words path <+: words p) : Uses path (str "delete " ++ p) := by
  obtain ⟨rest, hrest⟩ := h
  refine ⟨str "delete", rest, ?_⟩
  rw [hrest, show str "delete " ++ p = str "delete" ++ 32 :: p from rfl, words_append, words_plain (by decide) (by decide)]
  rfl

theorem uses_set {path p : Str} (h : words path <+: words p) : Uses path (str "set " ++ p) := by
  obtain ⟨rest, hrest⟩ := h
  refine ⟨str "set", rest, ?_⟩
  rw [hrest, show str "set " ++ p = str "set" ++ 32 :: p from rfl, words_append, words_plain (by decide) (by decide)]
  rfl

theorem uses_set_value {path p : Str} (v : Str) (h : words path <+: words p) :
    Uses path (str "set " ++ p ++ str " '" ++ v ++ str "'") := by
  have htext : str "set " ++ p ++ str " '" ++ v ++ str "'" = str "set " ++ (p ++ 32 :: (39 :: v ++ str "'")) := by
    simp only [List.append_assoc]
    rfl
  rw [htext]
  refine uses_set (h.trans ?_)
  rw [words_append]
  exact List.prefix_append _ _

theorem not_uses_nil (path : Str) : ¬ Uses path [] := by
  rintro ⟨verb, rest, h⟩
  cases h

end Words

/-! ## Commands below a renamed tag -/

section Below

variable {lib : Library} {root : List (Str × Node)} {data data' : Fields} {parents between : List Fields} {path p cmd : Str}

/-- A relative path has the path of each object above it in front. -/
theorem mappedPath_below (hrel : ∀ x ∈ data' :: between, x.defined (str "cfg_path") = false)
    (hp : getMappedPath lib data' (between ++ data :: parents) = some p) : ∃ path, getMappedPath lib data parents = some path ∧
      words p = words path ++ (data' :: between).reverse.flatMap fun x => words ((relPath lib x).getD []) := by
  induction between generalizing data' p with
  | nil =>
    rw [List.nil_append, getMappedPath, hrel data' List.mem_cons_self, if_neg Bool.false_ne_true] at hp
    obtain ⟨r, hr, hp⟩ := Option.bind_eq_some_iff.mp hp
    obtain ⟨path, hpath, rfl⟩ := Option.map_eq_some_iff.mp hp
    refine ⟨path, hpath, ?_⟩
    rw [List.append_assoc, List.reverse_singleton, List.flatMap_cons, List.flatMap_nil, List.append_nil, hr]
    exact words_append _ _
  | cons x between ih =>
    rw [List.cons_append, getMappedPath, hrel data' List.mem_cons_self, if_neg Bool.false_ne_true] at hp
    obtain ⟨r, hr, hp⟩ := Option.bind_eq_some_iff.mp hp
    obtain ⟨q, hq, rfl⟩ := Option.map_eq_some_iff.mp hp
    obtain ⟨path, hpath, hwords⟩ := ih (fun y hy => hrel y (List.mem_cons_of_mem _ hy)) hq
    refine ⟨path, hpath, ?_⟩
    rw [List.append_assoc, List.reverse_cons, List.flatMap_append, ← List.append_assoc (words path), ← hwords, List.flatMap_cons,
      List.flatMap_nil, List.append_nil, hr]
    exact words_append _ _

theorem hasText_iff {k t : Str} : hasText data k t = true ↔ data.lookup k = some (.string t) := by
  rw [hasText]
  rcases data.lookup k with _ | v
  · exact iff_of_false Bool.false_ne_true (fun h => by cases h)
  · cases v with
    | string s => exact ⟨fun h => congrArg (some ∘ JsonValue.string) (of_decide_eq_true h),
        fun h => decide_eq_true (JsonValue.string.inj (Option.some.inj h))⟩
    | _ => exact iff_of_false Bool.false_ne_true (fun h => by cases h)

theorem defined_of_hasText {k t : Str} (h : hasText data k t = true) : data.defined k = true := by
  rw [Fields.defined, hasText_iff.mp h]

/-- A status is one text. -/
theorem hasText_ne {k t t' : Str} (h : hasText data k t = true) (hne : t ≠ t') : hasText data k t' = false := by
  rw [Bool.eq_false_iff]
  intro h'
  exact hne (JsonValue.string.inj (Option.some.inj ((hasText_iff.mp h).symm.trans (hasText_iff.mp h'))))

/-- The path of a renamed tag ends with its new value. -/
theorem Renamed.newValue_suffix (hd : Renamed data) (hrel : data.defined (str "cfg_path") = false)
    (hpath : getMappedPath lib data parents = some path) : words (textOf lib data (str "new-value")) <:+ words path := by
  cases parents with
  | nil =>
    rw [getMappedPath, hrel, if_neg Bool.false_ne_true] at hpath
    cases hpath
  | cons parent parents =>
    rw [getMappedPath, hrel, if_neg Bool.false_ne_true] at hpath
    obtain ⟨rpath, hrpath, hpath⟩ := Option.bind_eq_some_iff.mp hpath
    obtain ⟨q, -, rfl⟩ := Option.map_eq_some_iff.mp hpath
    have hwords : words (q ++ str " " ++ rpath) = words q ++ words rpath := by
      rw [List.append_assoc]
      exact words_append _ _
    rw [hwords]
    refine List.IsSuffix.trans ?_ (List.suffix_append _ _)
    rw [relPath] at hrpath
    simp only [hd.tag, hd.newValue, if_true] at hrpath
    generalize (if data.defined (str "rel_path") then some (textOf lib data (str "rel_path")) else none) = rel at hrpath
    split at hrpath
    · cases hrpath
      rw [List.append_assoc, show str " " ++ textOf lib data (str "new-value") = 32 :: textOf lib data (str "new-value") from rfl,
        words_append]
      exact List.suffix_append _ _
    · cases hrpath
      exact List.suffix_rfl

theorem Renamed.commands (hd : Renamed data) (hpath : getMappedPath lib data parents = some path) :
    getConfigCommands lib data parents = some [moveCommand lib data path] := by
  have hstatus := defined_of_hasText hd.changed
  have hdel : isStatusDeleted data = false := hasText_ne hd.changed (by decide)
  rw [getConfigCommands]
  simp only [hd.mapped, hstatus, hpath, hdel, hd.typed, hd.tag, hd.changed, hd.value, hd.newValue, Bool.not_true, Bool.or_self,
    Bool.false_eq_true, if_false, Option.bind_some, Bool.and_self, if_true]

/-- Of an object of which there are commands the path is known. -/
theorem getConfigCommands_eq (hmapped : isMapped data = true) (hstatus : data.defined (str "status") = true) {cmds : List Str}
    (hc : getConfigCommands lib data parents = some cmds) : ∃ p, getMappedPath lib data parents = some p := by
  rw [getConfigCommands, hmapped, hstatus, if_neg (by decide)] at hc
  obtain ⟨p, hp, -⟩ := Option.bind_eq_some_iff.mp hc
  exact ⟨p, hp⟩

theorem commands_of_unknown (hmapped : isMapped data = true) (hstatus : data.defined (str "status") = true)
    (hunknown : ¬ Known data)
    (hp : getMappedPath lib data parents = some p) : getConfigCommands lib data parents = some [[]] := by
  rw [Known, not_or, not_or, not_or] at hunknown
  obtain ⟨htypeless, hdeleted, hadded, hchanged⟩ := hunknown
  rw [Bool.not_eq_true] at htypeless hdeleted hadded hchanged
  rw [getConfigCommands]
  simp only [hmapped, hstatus, hp, htypeless, hdeleted, hadded, hchanged, Bool.not_true, Bool.or_self,
    Bool.false_eq_true, if_false, Option.bind_some, Bool.and_false]

theorem set_commands_use {cmds : List Str} (hpre : words path <+: words p) (hc : getConfigSetCommands lib data p = some cmds) :
    ∀ cmd ∈ cmds, Uses path cmd := by
  intro cmd hcmd
  rw [getConfigSetCommands] at hc
  split at hc
  · split at hc
    · split at hc
      · cases hc
        rcases List.mem_cons.mp hcmd with rfl | hcmd
        · exact uses_delete hpre
        · obtain ⟨v, -, rfl⟩ := List.mem_map.mp hcmd
          exact uses_set_value _ hpre
      · cases hc
    · cases hc
      cases hcmd
  · split at hc
    · cases hc
      cases List.mem_singleton.mp hcmd
      exact uses_set_value _ hpre
    · cases hc
      cases hcmd

/-- Every command of an object begins with its path, but for a move and the empty one. -/
theorem commands_use {cmds : List Str} (hknown : Known data) (hp : getMappedPath lib data parents = some p)
    (hpre : words path <+: words p) (hmove : Renamed data → Uses path (moveCommand lib data p))
    (hc : getConfigCommands lib data parents = some cmds) : ∀ cmd ∈ cmds, Uses path cmd := by
  intro cmd hcmd
  rw [getConfigCommands, hp, Option.bind_some] at hc
  split at hc
  · cases hc
    cases hcmd
  rename_i hmapped
  rw [Bool.or_eq_true, not_or, Bool.not_eq_true', Bool.not_eq_true', Bool.not_eq_false, Bool.not_eq_false] at hmapped
  split at hc
  · cases hc
    cases List.mem_singleton.mp hcmd
    exact uses_delete hpre
  rename_i hdeleted
  split at hc
  · split at hc
    · cases hc
      cases List.mem_singleton.mp hcmd
      exact uses_set hpre
    · cases hc
      cases hcmd
  rename_i htypeless
  split at hc
  · rename_i hchanged
    rw [Bool.and_eq_true] at hchanged
    split at hc
    · cases hc
      cases hcmd
    · rename_i hvalues
      rw [Bool.or_eq_true, not_or, Bool.not_eq_true', Bool.not_eq_true', Bool.not_eq_false, Bool.not_eq_false] at hvalues
      cases hc
      cases List.mem_singleton.mp hcmd
      exact hmove ⟨hmapped.1, hchanged.1, Bool.eq_false_iff.mpr htypeless, hchanged.2, hvalues.1, hvalues.2⟩
  split at hc
  · cases hc
    cases List.mem_singleton.mp hcmd
    exact uses_set hpre
  split at hc
  · exact set_commands_use hpre hc cmd hcmd
  · rename_i hno
    rw [Bool.or_eq_true, not_or] at hno
    rcases hknown with h | h | h | h
    · exact absurd h htypeless
    · exact absurd h hdeleted
    · exact absurd h hno.2
    · exact absurd h hno.1

theorem prefix_dropLast_iff {α : Type} {l m : List α} : l <+: l.dropLast ++ m ↔ ∀ w, l.getLast? = some w → m.head? = some w := by
  rcases l.eq_nil_or_concat with rfl | ⟨l, w, rfl⟩
  · exact iff_of_true List.nil_prefix (fun w hw => by cases hw)
  · rw [List.concat_eq_append, List.dropLast_concat, List.prefix_append_right_inj, List.getLast?_concat]
    constructor
    · rintro ⟨rest, rfl⟩ w' hw'
      exact hw'
    · intro h
      obtain ⟨rest, rfl⟩ := List.head?_eq_some_iff.mp (h w rfl)
      exact ⟨rest, rfl⟩

/-- What a move begins with, if the relative path has no words. -/
theorem uses_move_iff (hwords : words p = words path) : Uses path (moveCommand lib data p) ↔
    ∀ w, (words path).getLast? = some w → (words (textOf lib data (str "value")) ++ [str "to"]).head? = some w := by
  have hhead : (words (textOf lib data (str "value")) ++ [str "to"]).head? =
      (words (textOf lib data (str "value")) ++ str "to" :: words (textOf lib data (str "new-value"))).head? := by
    rw [List.head?_append, List.head?_append]
    rfl
  rw [hhead, ← prefix_dropLast_iff]
  constructor
  · rintro ⟨verb, rest, h⟩
    rw [words_moveCommand, hwords] at h
    exact ⟨rest, (List.cons.inj h).2.symm⟩
  · rintro ⟨rest, h⟩
    exact ⟨str "move", rest, by rw [words_moveCommand, hwords, h]⟩

theorem uses_move {rel : List Str} (hwords : words p = words path ++ rel) (hrel : rel ≠ []) :
    Uses path (moveCommand lib data p) := by
  refine ⟨str "move", rel.dropLast ++
    (words (textOf lib data (str "value")) ++ str "to" :: words (textOf lib data (str "new-value"))), ?_⟩
  rw [words_moveCommand, hwords, List.dropLast_append_of_ne_nil hrel, List.append_assoc]

end Below

/-! ## The order of the commands -/

section Order

variable {lib : Library} {root : List (Str × Node)} {addr a : Addr} {data data' : Fields} {parents parents' between : List Fields}
  {cmds : List (Addr × Str)}

/-- An element of the results comes from one of the arguments, and the results of those before that
    one come before it. -/
theorem flatten_split {α β : Type} {f : α → Option (List β)} {l : List α} {ls : List (List β)}
    (h : List.Forall₂ (fun a b => f a = some b) l ls) : ∀ {pre : List β} {x : β} {post : List β}, ls.flatten = pre ++ x :: post →
      ∃ before a after b, l = before ++ a :: after ∧ f a = some b ∧ x ∈ b ∧
        ∀ a' ∈ before, ∀ b', f a' = some b' → ∀ y ∈ b', y ∈ pre := by
  induction h with
  | nil =>
    intro pre x post hsplit
    exact absurd hsplit.symm (List.append_ne_nil_of_right_ne_nil _ (List.cons_ne_nil _ _))
  | @cons c b l ls hc _ ih =>
    intro pre x post hsplit
    rw [List.flatten_cons] at hsplit
    rcases List.append_eq_append_iff.mp hsplit with ⟨rest, rfl, hrest⟩ | ⟨rest, rfl, hrest⟩
    · obtain ⟨before, a, after, b', rfl, ha, hx, hbefore⟩ := ih hrest
      refine ⟨c :: before, a, after, b', rfl, ha, hx, ?_⟩
      intro a' ha' b'' hb'' y hy
      rcases List.mem_cons.mp ha' with rfl | ha'
      · rw [hc] at hb''
        cases hb''
        exact List.mem_append_left _ hy
      · exact List.mem_append_right _ (hbefore a' ha' b'' hb'' y hy)
    · cases rest with
      | nil =>
        obtain ⟨before, a, after, b', rfl, ha, hx, hbefore⟩ := @ih [] _ _ hrest.symm
        refine ⟨c :: before, a, after, b', rfl, ha, hx, ?_⟩
        intro a' ha' b'' hb'' y hy
        rcases List.mem_cons.mp ha' with rfl | ha'
        · rw [hc, List.append_nil] at hb''
          cases hb''
          exact hy
        · exact absurd (hbefore a' ha' b'' hb'' y hy) List.not_mem_nil
      | cons x' rest =>
        cases (List.cons.inj hrest).1
        exact ⟨[], c, l, _, rfl, hc, List.mem_append_right _ List.mem_cons_self, fun a' ha' => absurd ha' List.not_mem_nil⟩

theorem forall₂_commands (hrun : configCommands lib root = some cmds) :
    ∃ each, List.Forall₂ (fun r c => Ref.commands lib r = some c) (iterateParams root) each ∧ cmds = each.flatten := by
  rw [configCommands] at hrun
  obtain ⟨each, heach, rfl⟩ := Option.map_eq_some_iff.mp hrun
  exact ⟨each, mapM_iff.mp heach, rfl⟩

theorem commands_iff {r : Ref} {cs : List (Addr × Str)} : Ref.commands lib r = some cs ↔ ∃ data cmds, r.data = some data ∧
    getConfigCommands lib data r.parents = some cmds ∧ cs = cmds.map fun cmd => (r.addr, cmd) := by
  rw [Ref.commands, Option.bind_eq_some_iff]
  constructor
  · rintro ⟨data, hdata, hc⟩
    obtain ⟨cmds, hcmds, rfl⟩ := Option.map_eq_some_iff.mp hc
    exact ⟨data, cmds, hdata, hcmds, rfl⟩
  · rintro ⟨data, cmds, hdata, hcmds, rfl⟩
    exact ⟨data, hdata, Option.map_eq_some_iff.mpr ⟨cmds, hcmds, rfl⟩⟩

/-- The commands of an object that is listed are among those of the message. -/
theorem Live.commands (hr : Forest root) (hrun : configCommands lib root = some cmds) (hlive : Live root a data parents) :
    ∃ cs, getConfigCommands lib data parents = some cs ∧ ∀ cmd ∈ cs, (a, cmd) ∈ cmds := by
  obtain ⟨each, heach, rfl⟩ := forall₂_commands hrun
  have hmem : (⟨a, some data, parents⟩ : Ref) ∈ iterateParams root := (mem_iterateParams hr).mpr ⟨data, rfl, hlive⟩
  obtain ⟨c, hc, hcs⟩ := exists_of_forall₂ heach hmem
  obtain ⟨d, cs, hd, hcs, rfl⟩ := commands_iff.mp hcs
  cases hd
  exact ⟨cs, hcs, fun cmd hcmd => List.mem_flatten.mpr ⟨_, hc, List.mem_map.mpr ⟨cmd, hcmd, rfl⟩⟩⟩

/-- A command is one of an object that is listed, and the commands of the objects above it come before. -/
theorem command_split (hr : Forest root) (hrun : configCommands lib root = some cmds) {pre post : List (Addr × Str)} {cmd : Str}
    (hsplit : cmds = pre ++ (a, cmd) :: post) : ∃ data' parents' cs, Live root a data' parents' ∧
      getConfigCommands lib data' parents' = some cs ∧ cmd ∈ cs ∧
      ∀ addr data parents, Live root addr data parents → addr <+: a → addr ≠ a →
        ∀ above, getConfigCommands lib data parents = some above → ∀ c ∈ above, (addr, c) ∈ pre := by
  obtain ⟨each, heach, rfl⟩ := forall₂_commands hrun
  obtain ⟨before, r, after, b, hlist, hb, hx, hbefore⟩ := flatten_split heach hsplit
  obtain ⟨data', cs, hdata, hcs, rfl⟩ := commands_iff.mp hb
  obtain ⟨_, hcmd, heq⟩ := List.mem_map.mp hx
  cases heq
  have hr' : r ∈ iterateParams root := by
    rw [hlist]
    exact List.mem_append_right _ List.mem_cons_self
  obtain ⟨d, hd, hlive⟩ := (mem_iterateParams hr).mp hr'
  cases hdata.symm.trans hd
  refine ⟨data', r.parents, cs, hlive, hcs, hcmd, ?_⟩
  intro addr data parents hup hpre hne above habove c hc
  have hmem : (⟨addr, some data, parents⟩ : Ref) ∈ iterateParams root := (mem_iterateParams hr).mpr ⟨data, rfl, hup⟩
  have hordered := iterateParams_pairwise hr
  rw [hlist] at hmem hordered
  rcases List.mem_append.mp hmem with hmem | hmem
  · exact hbefore _ hmem _ (commands_iff.mpr ⟨data, above, rfl, habove, rfl⟩) _ (List.mem_map.mpr ⟨c, hc, rfl⟩)
  · rcases List.mem_cons.mp hmem with rfl | hmem
    · exact absurd rfl hne
    · exact absurd hpre ((List.pairwise_cons.mp (List.pairwise_append.mp hordered).2.1).1 _ hmem)

/-- An object below another one has the data of that one above it. -/
theorem Live.below (hup : Live root addr data parents) (hlive : Live root a data' parents') (hpre : addr <+: a) (hne : addr ≠ a) :
    ∃ between, parents' = between ++ data :: parents := by
  obtain ⟨⟨cls, children, tags, hp⟩, -⟩ := hup
  obtain ⟨⟨cls', children', tags', hp'⟩, -⟩ := hlive
  obtain ⟨_, _, _, _, above, between, hp'', heq⟩ := hp'.up hpre hp.addr_ne hne
  obtain ⟨hnode, rfl⟩ := hp.unique hp''
  cases hnode
  exact ⟨between, heq⟩

theorem Live.up (hlive : Live root a data parents) (hpre : addr <+: a) (hnil : addr ≠ []) (hne : addr ≠ a) :
    ∃ data parents, Live root addr data parents := by
  obtain ⟨⟨cls, children, tags, hp⟩, hdel⟩ := hlive
  obtain ⟨_, data', _, _, above, between, hp', rfl⟩ := hp.up hpre hnil hne
  exact ⟨data', above, ⟨_, _, _, hp'⟩, fun x hx => hdel x (List.mem_append_right _ (List.mem_cons_of_mem _ hx))⟩

theorem Live.parent (hlive : Live root a data (data' :: parents)) : ∃ addr, Live root addr data' parents := by
  obtain ⟨⟨cls, children, tags, hp⟩, hdel⟩ := hlive
  cases hp with
  | under hup h => exact ⟨_, ⟨_, _, _, hup⟩, fun x hx => hdel x (List.mem_cons_of_mem _ hx)⟩

/-- What is below a tag has a relative path. -/
theorem Relative.below (hrel : Relative root) (htag : isTagValue data = true)
    (hlive : Live root a data' (between ++ data :: parents)) :
    ∀ x ∈ data' :: between, x.defined (str "cfg_path") = false := by
  have hmem : ∀ between : List Fields, data ∈ between ++ data :: parents := fun _ => List.mem_append_right _ List.mem_cons_self
  induction between generalizing a data' with
  | nil =>
    intro x hx
    cases List.mem_singleton.mp hx
    exact hrel a data' _ hlive (Or.inr ⟨data, hmem [], htag⟩)
  | cons y between ih =>
    obtain ⟨addr, hup⟩ := hlive.parent
    intro x hx
    rcases List.mem_cons.mp hx with rfl | hx
    · exact hrel a _ _ hlive (Or.inr ⟨data, hmem (y :: between), htag⟩)
    · exact ih hup x hx

/-- What is above an object that is listed is listed before it. -/
theorem listed_after (hr : Forest root) {pre post : List Addr} (hsplit : (iterateParams root).map Ref.addr = pre ++ a :: post)
    (hpre : addr <+: a) (hnil : addr ≠ []) (hne : addr ≠ a) : addr ∈ pre := by
  have hmem : a ∈ (iterateParams root).map Ref.addr := by
    rw [hsplit]
    exact List.mem_append_right _ List.mem_cons_self
  obtain ⟨r, hr', rfl⟩ := List.mem_map.mp hmem
  obtain ⟨data, -, hlive⟩ := (mem_iterateParams hr).mp hr'
  obtain ⟨data', parents', hup⟩ := hlive.up hpre hnil hne
  have hlisted : addr ∈ (iterateParams root).map Ref.addr :=
    List.mem_map.mpr ⟨⟨addr, some data', parents'⟩, (mem_iterateParams hr).mpr ⟨data', rfl, hup⟩, rfl⟩
  have hordered : ((iterateParams root).map Ref.addr).Pairwise fun x y => ¬ y <+: x :=
    List.pairwise_map.mpr (iterateParams_pairwise hr)
  rw [hsplit] at hlisted hordered
  rcases List.mem_append.mp hlisted with hlisted | hlisted
  · exact hlisted
  · rcases List.mem_cons.mp hlisted with heq | hlisted
    · exact absurd heq hne
    · exact absurd hpre ((List.pairwise_cons.mp (List.pairwise_append.mp hordered).2.1).1 _ hlisted)

end Order

/-- Every object is listed that is not below a deleted one, once and behind those above it; the
    commands below a renamed tag come behind its move and have its new path exactly if each status
    there is known, and each tag that is renamed there has words of its own. -/
theorem ordered_iff (lib : Library) {root : List (Str × Node)} {cmds : List (Addr × Str)} (hr : Forest root)
    (hrel : Relative root) (hrun : configCommands lib root = some cmds) : Ordered lib root cmds ↔ Proper lib root := by
  constructor
  · intro h addr data parents hup hren a data' between hlive hpre hne hmapped hstatus
    obtain ⟨cs, hcs, hmem⟩ := hlive.commands hr hrun
    obtain ⟨p, hp⟩ := getConfigCommands_eq hmapped hstatus hcs
    obtain ⟨path, hpath, hwords⟩ := mappedPath_below (hrel.below hren.tag hlive) hp
    have huses : ∀ cmd ∈ cs, Uses path cmd := by
      intro cmd hcmd
      obtain ⟨pre, post, hsplit⟩ := List.append_of_mem (hmem cmd hcmd)
      exact (h.moved addr data parents path hup hren hpath pre a cmd post hsplit hpre hne).2.2
    constructor
    · by_contra hunknown
      rw [commands_of_unknown hmapped hstatus hunknown hp] at hcs
      cases hcs
      exact not_uses_nil path (huses [] List.mem_cons_self)
    · intro hren'
      rw [hren'.commands hp] at hcs
      cases hcs
      have hmove := huses _ List.mem_cons_self
      by_cases hword : ∃ x ∈ data' :: between, words ((relPath lib x).getD []) ≠ []
      · exact Or.inl hword
      · right
        intro path' w hpath' hw
        cases hpath.symm.trans hpath'
        refine (uses_move_iff ?_).mp hmove w hw
        rw [hwords, List.flatMap_eq_nil_iff.mpr, List.append_nil]
        intro x hx
        by_contra hx'
        exact hword ⟨x, List.mem_reverse.mp hx, hx'⟩
  · intro h
    refine ⟨fun addr => ?_, ?_, fun pre addr post hsplit p hpre hnil hne => listed_after hr hsplit hpre hnil hne, ?_⟩
    · rw [List.mem_map]
      constructor
      · rintro ⟨r, hmem, rfl⟩
        obtain ⟨data, -, hlive⟩ := (mem_iterateParams hr).mp hmem
        exact ⟨data, r.parents, hlive⟩
      · rintro ⟨data, parents, hlive⟩
        exact ⟨⟨addr, some data, parents⟩, (mem_iterateParams hr).mpr ⟨data, rfl, hlive⟩, rfl⟩
    · have hne : (iterateParams root).Pairwise fun x y => x.addr ≠ y.addr := by
        refine (iterateParams_pairwise hr).imp ?_
        intro x y hno heq
        exact hno (heq ▸ List.prefix_rfl)
      exact List.pairwise_map.mpr hne
    · intro addr data parents path hup hren hpath pre a cmd post hsplit hpre hne
      obtain ⟨data', parents', cs, hlive, hcs, hcmd, hbefore⟩ := command_split hr hrun hsplit
      refine ⟨hbefore addr data parents hup hpre hne _ (hren.commands hpath) _ List.mem_cons_self,
        hren.newValue_suffix (hrel addr data parents hup (Or.inl hren.tag)) hpath, ?_⟩
      obtain ⟨between, rfl⟩ := hup.below hlive hpre hne
      have hmapped : isMapped data' = true ∧ data'.defined (str "status") = true := by
        rw [getConfigCommands] at hcs
        split at hcs
        · cases hcs
          cases hcmd
        · rename_i hno
          rw [Bool.or_eq_true, not_or, Bool.not_eq_true', Bool.not_eq_true', Bool.not_eq_false, Bool.not_eq_false] at hno
          exact hno
      obtain ⟨hknown, hword⟩ := h addr data parents hup hren a data' between hlive hpre hne hmapped.1 hmapped.2
      obtain ⟨p, hp⟩ := getConfigCommands_eq hmapped.1 hmapped.2 hcs
      obtain ⟨path', hpath', hwords⟩ := mappedPath_below (hrel.below hren.tag hlive) hp
      cases hpath.symm.trans hpath'
      refine commands_use hknown hp ⟨_, hwords.symm⟩ (fun hren' => ?_) hcs cmd hcmd
      rcases hword hren' with ⟨x, hx, hne'⟩ | hhead
      · refine uses_move hwords fun hnil => hne' ?_
        exact List.flatMap_eq_nil_iff.mp hnil x (List.mem_reverse.mpr hx)
      · by_cases hnil : (data' :: between).reverse.flatMap (fun x => words ((relPath lib x).getD [])) = []
        · rw [hnil, List.append_nil] at hwords
          exact (uses_move_iff hwords).mpr fun w hw => hhead path w hpath hw
        · exact uses_move hwords hnil

/-! ## Parsed messages -/

/-- Every hash has a key once. -/
inductive Distinct : JsonValue → Prop where
  | scalar {v : JsonValue} (hash : ∀ fs, v ≠ .object fs) (array : ∀ ts, v ≠ .array ts) : Distinct v
  | object {fs : Fields} (names : (fs.map Prod.fst).Nodup) (fields : ∀ p ∈ fs, Distinct p.2) : Distinct (.object fs)
  | array {ts : List JsonValue} (elements : ∀ t ∈ ts, Distinct t) : Distinct (.array ts)

section Parsed

variable {lib : Library} {fs href data : Fields} {cls : Class} {v : JsonValue}

theorem baseNew_lookup (hkeys : (href.map Prod.fst).Nodup) (hdata : baseNew lib cls (some href) = some data) {k : Str}
    (hk : k ≠ str "value") : data.lookup k = href.lookup k := by
  rw [baseNew, Option.getD_some] at hdata
  split at hdata
  · cases hdata
    rw [Fields.lookup_update hkeys, List.lookup_cons, beq_eq_false_iff_ne.mpr hk]
    exact Option.or_none
  · cases hdata

theorem typedNew_lookup (hkeys : (href.map Prod.fst).Nodup) {type : Str} (hdata : typedNew lib cls type href = some data) :
    data.lookup (str "tagnode") = href.lookup (str "tagnode") := by
  obtain ⟨base, hbase, hdata⟩ := Option.bind_eq_some_iff.mp hdata
  cases hdata
  rw [Fields.lookup_set, if_neg (by decide), Fields.lookup_set, if_neg (by decide), baseNew_lookup hkeys hbase (by decide)]

theorem multiTypeNew_lookup (hkeys : (href.map Prod.fst).Nodup) (hdata : multiTypeNew lib href = some data) :
    data.lookup (str "tagnode") = href.lookup (str "tagnode") := by
  obtain ⟨base, hbase, hdata⟩ := Option.bind_eq_some_iff.mp hdata
  cases hdata
  rw [Fields.lookup_set, if_neg (by decide), baseNew_lookup hkeys hbase (by decide)]

theorem typelessNew_lookup (hkeys : (href.map Prod.fst).Nodup) (hdata : typelessNew lib href = some data) :
    data.lookup (str "tagnode") = href.lookup (str "tagnode") := by
  obtain ⟨base, hbase, hdata⟩ := Option.bind_eq_some_iff.mp hdata
  split at hdata
  · cases hdata
  · cases hdata
    rw [Fields.lookup_set, if_neg (by decide), Fields.lookup_set, if_neg (by decide), Fields.lookup_erase, if_neg (by decide),
      baseNew_lookup hkeys hbase (by decide)]

theorem boolNew_lookup (hkeys : (href.map Prod.fst).Nodup) (hdata : boolNew lib href = some data) :
    data.lookup (str "tagnode") = href.lookup (str "tagnode") := by
  rw [boolNew] at hdata
  split at hdata
  · obtain ⟨default, -, hdata⟩ := Option.bind_eq_some_iff.mp hdata
    rw [typedNew_lookup (Fields.nodup_set hkeys _ _) hdata, Fields.lookup_set, if_neg (by decide)]
  · exact typedNew_lookup hkeys hdata

theorem tagNew_lookup {type : JsonValue} (hdata : tagNew lib type href = some data) :
    data.lookup (str "tagnode") = some (.bool true) := by
  have hset : ∀ fs : Fields, (fs.set (str "tagnode") (.bool true)).lookup (str "tagnode") = some (.bool true) := fun fs => by
    rw [Fields.lookup_set, if_pos rfl]
  simp only [tagNew, Option.bind_eq_bind, Option.bind_none, Option.pure_def] at hdata
  split at hdata
  · cases hdata
  · obtain ⟨base, -, hdata⟩ := Option.bind_eq_some_iff.mp hdata
    split at hdata
    · cases hdata
    · split at hdata
      · split at hdata
        · split at hdata
          · cases hdata
            exact hset _
          · cases hdata
        · cases hdata
      · cases hdata
        exact hset _

theorem construct_lookup (hkeys : (fs.map Prod.fst).Nodup) (hparam : cls ≠ .nonParam) (htag : cls ≠ .tag)
    (hdata : construct lib cls fs = some data) : data.lookup (str "tagnode") = fs.lookup (str "tagnode") := by
  have hhash := nodup_dataHash hkeys
  have hlookup : (dataHash fs).lookup (str "tagnode") = fs.lookup (str "tagnode") := by
    rw [lookup_dataHash, if_neg (by decide)]
  rw [← hlookup]
  cases cls with
  | nonParam => exact absurd rfl hparam
  | tag => exact absurd rfl htag
  | multiType => exact multiTypeNew_lookup hhash hdata
  | bool => exact boolNew_lookup hhash hdata
  | typeless => exact typelessNew_lookup hhash hdata
  | txt | u32 | ipv4 | ipv4net | ipv6 | ipv6net | macaddr => exact typedNew_lookup hhash hdata

/-- Only an object of the class of tag nodes has a `tagnode`. -/
theorem isTagNode_construct (hkeys : (fs.map Prod.fst).Nodup) (hcls : cls ≠ .nonParam → classOf fs = some cls)
    (hdata : construct lib cls fs = some data) : isTagNode data = true ↔ cls = .tag := by
  by_cases htag : cls = .tag
  · subst htag
    refine iff_of_true ?_ rfl
    rw [isTagNode, tagNew_lookup hdata]
    rfl
  · refine iff_of_false ?_ htag
    by_cases hparam : cls = .nonParam
    · subst hparam
      rw [construct_nonParam] at hdata
      cases hdata
      decide
    · intro htagnode
      rw [isTagNode, construct_lookup hkeys hparam htag hdata] at htagnode
      have hclass := hcls hparam
      rw [classOf, if_pos htagnode] at hclass
      exact htag (Option.some.inj hclass).symm

/-- What a parsed value is like: as a node, as a hash of nodes and as a list of them. -/
structure Parsed (lib : Library) (v : JsonValue) : Prop where
  node : ∀ n, recursiveParse lib v = some n → n.hangs = true → Object n
  hash : ∀ ns, parseHash lib v = some ns → (ns.map Prod.fst).Nodup ∧ ∀ c ∈ ns, c.2.hangs = true → Object c.2
  list : ∀ ns, parseArray lib v = some ns → ∀ t ∈ ns, t.hangs = true → Object t

theorem Parsed.members (names : (fs.map Prod.fst).Nodup) (fields : ∀ p ∈ fs, Parsed lib p.2) {ns : List (Str × Node)}
    (hns : parseMembers lib fs = some ns) : Forest ns := by
  rw [parseMembers_eq, mapM_iff] at hns
  have hkeys : fs.map Prod.fst = ns.map Prod.fst := by
    refine forall₂_keys (hns.imp fun p q hpq => ?_)
    obtain ⟨n, -, rfl⟩ := Option.map_eq_some_iff.mp hpq
    rfl
  refine ⟨hkeys ▸ names, fun c hc hhangs => ?_⟩
  obtain ⟨p, hp, hpc⟩ := exists_of_forall₂ hns.flip hc
  obtain ⟨n, hn, rfl⟩ := Option.map_eq_some_iff.mp hpc
  exact (fields p hp).node n hn hhangs

theorem parsed_node (names : (fs.map Prod.fst).Nodup) (fields : ∀ p ∈ fs, Parsed lib p.2) {n : Node}
    (hn : recursiveParse lib (.object fs) = some n) (hhangs : n.hangs = true) : Object n := by
  have hchildren : ∀ ns, parseChildren lib fs = some ns → (ns.map Prod.fst).Nodup ∧ ∀ c ∈ ns, c.2.hangs = true → Object c.2 := by
    intro ns hns
    rw [parseChildren_eq] at hns
    rcases hv : fs.lookup (str "children") with _ | v
    · rw [hv] at hns
      cases hns
      exact ⟨List.nodup_nil, fun c hc => by cases hc⟩
    · rw [hv] at hns
      exact (fields _ (mem_of_lookup hv)).hash ns hns
  have htags : ∀ ns, parseTags lib fs = some ns → ∀ t ∈ ns, t.hangs = true → Object t := by
    intro ns hns
    rw [parseTags_eq] at hns
    rcases hv : fs.lookup (str "tags") with _ | v
    · rw [hv] at hns
      cases hns
      exact fun t ht => by cases ht
    · rw [hv] at hns
      exact (fields _ (mem_of_lookup hv)).list ns hns
  rw [recursiveParse] at hn
  split at hn
  · rename_i param hparam
    split at hn
    · cases hn
      cases hhangs
    split at hn
    · cases hn
    rename_i cparams hcparams
    split at hn
    · cases hn
      cases hhangs
    rename_i cls hcls
    have hclass : cls ≠ .nonParam → classOf fs = some cls := by
      intro hne
      split at hcls
      · exact hcls
      · exact absurd (Option.some.inj hcls).symm hne
    split at hn
    · cases hn
    rename_i data hdata
    have htagnode := isTagNode_construct names hclass hdata
    split at hn
    · rename_i htag
      split at hn
      · cases hn
      rename_i tags hparsed
      split at hn
      · rename_i hall
        cases hn
        rw [Bool.and_eq_true, List.all_eq_true] at hall
        refine .mk (fun _ => rfl) (fun hplain => ?_) List.nodup_nil (fun c hc => by cases hc)
          (fun t ht => htags tags hparsed t ht (hall.1 t ht))
        rw [htagnode.mpr htag] at hplain
        cases hplain
      · cases hn
    · rename_i htag
      split at hn
      · rename_i hall
        cases hn
        rw [List.all_eq_true] at hall
        exact .mk (fun h => absurd (htagnode.mp h) htag) (fun _ => rfl) (hchildren _ hcparams).1
          (fun c hc => (hchildren _ hcparams).2 c hc (hall c hc)) (fun t ht => by cases ht)
      · cases hn
  · cases hn
    cases hhangs

theorem parsed_of_distinct (hv : Distinct v) : Parsed lib v := by
  induction hv with
  | @scalar v hash array =>
    cases v with
    | object fs => exact absurd rfl (hash fs)
    | array ts => exact absurd rfl (array ts)
    | null =>
      refine ⟨fun n hn hhangs => ?_, fun ns hns => ?_, fun ns hns => ?_⟩
      · rw [recursiveParse] at hn
        cases hn
        cases hhangs
      · rw [parseHash] at hns
        cases hns
        exact ⟨List.nodup_nil, fun c hc => by cases hc⟩
      · rw [parseArray] at hns
        cases hns
        exact fun t ht => by cases ht
    | _ =>
      refine ⟨fun n hn => ?_, fun ns hns => ?_, fun ns hns => ?_⟩
      · simp [recursiveParse] at hn
      · simp [parseHash] at hns
      · simp [parseArray] at hns
  | @array ts elements ih =>
    refine ⟨fun n hn => ?_, fun ns hns => ?_, fun ns hns t ht hhangs => ?_⟩
    · simp [recursiveParse] at hn
    · simp [parseHash] at hns
    · rw [parseArray, parseElements_eq, mapM_iff] at hns
      obtain ⟨u, hu, hut⟩ := exists_of_forall₂ hns.flip ht
      exact (ih u hu).node t hut hhangs
  | @object fs names fields ih =>
    refine ⟨fun n hn hhangs => ?_, fun ns hns => ?_, fun ns hns => ?_⟩
    · exact parsed_node names ih hn hhangs
    · rw [parseHash] at hns
      have hforest := Parsed.members names ih hns
      exact ⟨hforest.names, hforest.objects⟩
    · simp [parseArray] at hns

/-- A parsed message, whatever it says. -/
theorem fromInput_forest {input : Str} {ms : Fields} {root : List (Str × Node)} (hjson : lib.fromJson input = some (.object ms))
    (hdistinct : Distinct (.object ms)) (hroot : fromInput lib input = some root) : Forest root := by
  have hms : parseMembers lib ms = some root := by
    rw [fromInput, fromJsonInput] at hroot
    split at hroot
    · rename_i ms' hms'
      split at hms'
      · cases hms'
      · rw [hjson] at hms'
        cases hms'
        exact hroot
    · cases hroot
  cases hdistinct with
  | scalar hash _ => exact absurd rfl (hash ms)
  | object names fields => exact Parsed.members names (fun p hp => parsed_of_distinct (fields p hp)) hms

end Parsed

/-! ## A tag that is renamed -/

section Sample

/-- A tag node at `a` with a tag that is renamed from `x` to `y`, and a node of it with a status. -/
def sampleText (status : Str) : Str :=
  str "\x7b\"t\":\x7b\"param\":true,\"tagnode\":true,\"type\":\"txt\",\"cfg_path\":\"a\",\"tags\":[" ++
  str "\x7b\"param\":true,\"type\":\"txt\",\"tag\":true,\"rel_path\":\"\",\"value\":\"x\",\"new-value\":\"y\"," ++
  str "\"status\":\"changed\",\"children\":\x7b\"c\":" ++
  str "\x7b\"param\":true,\"type\":\"txt\",\"rel_path\":\"c\",\"value\":\"v\",\"new-value\":\"w\",\"status\":\"" ++ status ++
  str "\"\x7d\x7d\x7d]\x7d\x7d"

def nodeData : Fields :=
  [(str "tagnode", .bool true), (str "type", .string (str "txt")), (str "param", .bool true), (str "cfg_path", .string (str "a"))]

def tagData : Fields :=
  [(str "type", .string (str "txt")), (str "param", .bool true), (str "status", .string (str "changed")),
   (str "new-value", .string (str "y")), (str "value", .string (str "x")), (str "rel_path", .string []), (str "tag", .bool true)]

def leafData (status : Str) : Fields :=
  [(str "type", .string (str "txt")), (str "param", .bool true), (str "status", .string status),
   (str "new-value", .string (str "w")), (str "value", .string (str "v")), (str "rel_path", .string (str "c"))]

def sampleTree (status : Str) : List (Str × Node) :=
  [(str "t", .param .tag nodeData [] [.param .txt tagData [(str "c", .param .txt (leafData status) [] [])] []])]

variable {status : Str} {addr : Addr} {data : Fields} {parents : List Fields}

def tagAddr : Addr := [.child (str "t"), .tag 0]

def leafAddr : Addr := [.child (str "t"), .tag 0, .child (str "c")]

theorem sample_forest : Forest (sampleTree status) := by
  have hleaf : Object (.param .txt (leafData status) [] []) :=
    .mk (fun _ => rfl) (fun _ => rfl) List.nodup_nil (fun c hc => by cases hc) (fun t ht => by cases ht)
  have htag : Object (.param .txt tagData [(str "c", .param .txt (leafData status) [] [])] []) := by
    refine .mk (fun h => by cases h) (fun _ => rfl) (List.nodup_singleton _) (fun c hc => ?_) (fun t ht => by cases ht)
    cases List.mem_singleton.mp hc
    exact hleaf
  refine ⟨List.nodup_singleton _, fun c hc _ => ?_⟩
  cases List.mem_singleton.mp hc
  refine .mk (fun _ => rfl) (fun h => by cases h) List.nodup_nil (fun c hc => by cases hc) (fun t ht => ?_)
  cases List.mem_singleton.mp ht
  exact htag

theorem sample_list : iterateParams (sampleTree status) =
    [⟨[.child (str "t")], some nodeData, []⟩, ⟨tagAddr, some tagData, [nodeData]⟩,
      ⟨leafAddr, some (leafData status), [tagData, nodeData]⟩] := by
  have hleaf : recursiveWalk leafAddr [tagData, nodeData] (.param .txt (leafData status) [] []) =
      [⟨leafAddr, some (leafData status), [tagData, nodeData]⟩] := by
    rw [recursiveWalk_eq]
    split
    · rfl
    · rfl
  change ⟨_, _, _⟩ :: (⟨_, _, _⟩ :: (recursiveWalk leafAddr [tagData, nodeData] _ ++ []) ++ []) ++ [] = _
  rw [hleaf]
  rfl

theorem sample_live (hlive : Live (sampleTree status) addr data parents) :
    (addr = [.child (str "t")] ∧ data = nodeData ∧ parents = []) ∨
    (addr = tagAddr ∧ data = tagData ∧ parents = [nodeData]) ∨
      addr = leafAddr ∧ data = leafData status ∧ parents = [tagData, nodeData] := by
  have hmem : (⟨addr, some data, parents⟩ : Ref) ∈ iterateParams (sampleTree status) :=
    (mem_iterateParams sample_forest).mpr ⟨data, rfl, hlive⟩
  rw [sample_list] at hmem
  rcases List.mem_cons.mp hmem with heq | hmem
  · cases heq
    exact Or.inl ⟨rfl, rfl, rfl⟩
  rcases List.mem_cons.mp hmem with heq | hmem
  · cases heq
    exact Or.inr (Or.inl ⟨rfl, rfl, rfl⟩)
  · cases List.mem_singleton.mp hmem
    exact Or.inr (Or.inr ⟨rfl, rfl, rfl⟩)

theorem sample_relative : Relative (sampleTree status) := by
  intro addr data parents hlive htag
  rcases sample_live hlive with ⟨rfl, rfl, rfl⟩ | ⟨rfl, rfl, rfl⟩ | ⟨rfl, rfl, rfl⟩
  · rcases htag with htag | ⟨p, hp, -⟩
    · cases htag
    · cases hp
  · rfl
  · rfl

theorem tagData_renamed : Renamed tagData := ⟨rfl, rfl, rfl, rfl, rfl, rfl⟩

def sampleCommands (last : Str) : List (Addr × Str) := [(tagAddr, str "move a x to y"), (leafAddr, last)]

/-- A value that changes below a renamed tag. -/
theorem a_value_below_a_renamed_tag : fromInput sampleLibrary (sampleText (str "changed")) = some (sampleTree (str "changed")) ∧
    Ordered sampleLibrary (sampleTree (str "changed")) (sampleCommands (str "set a y c 'w'")) := by
  refine ⟨?_, ?_⟩
  · set_option maxRecDepth 4000 in rfl
  have hrun : configCommands sampleLibrary (sampleTree (str "changed")) = some (sampleCommands (str "set a y c 'w'")) := by
    rw [configCommands, sample_list]
    rfl
  refine (ordered_iff sampleLibrary sample_forest sample_relative hrun).mpr ?_
  intro addr data parents hup hren a data' between hlive hpre hne hmapped hstatus
  rcases sample_live hup with ⟨rfl, rfl, rfl⟩ | ⟨rfl, rfl, rfl⟩ | ⟨rfl, rfl, rfl⟩
  · cases hren.tag
  · rcases sample_live hlive with ⟨rfl, rfl, -⟩ | ⟨rfl, -, -⟩ | ⟨rfl, rfl, -⟩
    · cases hstatus
    · exact absurd rfl hne
    · exact ⟨Or.inr (Or.inr (Or.inr rfl)), fun hren' => by cases hren'.tag⟩
  · cases hren.tag

/-- A node that stays as it is has a command of no words. -/
theorem a_status_of_its_own : fromInput sampleLibrary (sampleText (str "unchanged")) = some (sampleTree (str "unchanged")) ∧
    Forest (sampleTree (str "unchanged")) ∧ Relative (sampleTree (str "unchanged")) ∧
      configCommands sampleLibrary (sampleTree (str "unchanged")) = some (sampleCommands []) ∧
        ¬ Ordered sampleLibrary (sampleTree (str "unchanged")) (sampleCommands []) := by
  refine ⟨?_, sample_forest, sample_relative, ?_, fun h => ?_⟩
  · set_option maxRecDepth 4000 in rfl
  · rw [configCommands, sample_list]
    rfl
  · have hlive : Live (sampleTree (str "unchanged")) tagAddr tagData [nodeData] := by
      obtain ⟨_, hdata, hlive⟩ := (mem_iterateParams sample_forest).mp
        (show (⟨tagAddr, some tagData, [nodeData]⟩ : Ref) ∈ iterateParams (sampleTree (str "unchanged")) by
          rw [sample_list]
          exact List.mem_cons_of_mem _ List.mem_cons_self)
      cases hdata
      exact hlive
    have hpath : getMappedPath sampleLibrary tagData [nodeData] = some (str "a y") := rfl
    have hmoved := h.moved tagAddr tagData [nodeData]
      (str "a y") hlive tagData_renamed hpath [(tagAddr, str "move a x to y")] leafAddr [] []
      rfl ⟨[.child (str "c")], rfl⟩ (by decide)
    exact not_uses_nil _ hmoved.2.2

end Sample

end VyattaRest.App
