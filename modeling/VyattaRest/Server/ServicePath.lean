/-
  VyattaRest.Server.ServicePath — the path of a service request, as it is validated and as it is
  run (`ServiceMode::validate_service_cmd`, servicemode.cc; `_vyatta_service_run`,
  scripts/vyatta-service).

  Both walk down the template tree, a segment of the request at a time, and go to `node.tag`
  where there is no node of that name. The validation takes whatever `stat` finds, the script
  only directories, and neither takes `..` out. The two are compared on the nodes of a tree of
  directories and files (`FileTree`), for requests that the shell passes on as they are.
  - `validate_walks`, `run_walks`: each of the walks over path texts is a walk over nodes.
  - `validated_path_runs_iff`: a request that is accepted is run where it was validated, inside
    the template directory, exactly when its segments, taken textually, stay there and the node
    they name is a directory.
  - `an_accepted_path_outside`: `/rest/service/..`, and a request for a plain file.
-/

import VyattaRest.Lib.FileTree
import VyattaRest.Server.AppMode

namespace VyattaRest.Server.ServiceMode

open VyattaRest.Lib VyattaRest.Rest
open Lib.Prog

/-! ## The script -/

/-- `vyatta_service_templates`. -/
def vyattaServiceTemplates : Str := str "/opt/vyatta/share/vyatta-service/templates/"

/-- A byte that separates the words of an unquoted expansion. -/
def isIfs (b : UInt8) : Bool := b = 32 || b = 9 || b = 10

/-- `args="${cmdin//\// }"; args=( ${args[*]} )`. -/
def args (cmdin : Str) : List Str :=
  ((cmdin.map fun b => if b = 47 then 32 else b).splitOnP isIfs).filter (· ≠ [])

/-- `[[ -d path ]]`. -/
def isDirPath (t : FileTree) (path : Str) : Bool := (t.statPath path).any (t.IsDir ·)

/-- The loop of `_vyatta_service_run`; `none` for an invalid path. -/
def runWalk (t : FileTree) : List Str → Str → Option Str
  | [], tpath => some tpath
  | arg :: rest, tpath =>
    if isDirPath t (tpath ++ str "/" ++ arg) then runWalk t rest (tpath ++ str "/" ++ arg)
    else if isDirPath t (tpath ++ str "/node.tag") then runWalk t rest (tpath ++ str "/node.tag")
    else none

/-- The path the script arrives at for a command. -/
def vyattaServiceRun (t : FileTree) (cmdin : Str) : Option Str := runWalk t (args cmdin) vyattaServiceTemplates

/-! ## Requests -/

/-- A byte that the shell passes on as it is: no blank, and none of the bytes that quote,
    expand, match or separate. -/
def isLiteral (b : UInt8) : Bool := b ≠ 0 && !isSpace b && b ∉ str "|&;<>()$`\\\"'*?[#~\x7b\x7d"

def Literal (cmd : Str) : Prop := ∀ b ∈ cmd, isLiteral b = true

instance (cmd : Str) : Decidable (Literal cmd) := inferInstanceAs (Decidable (∀ b ∈ cmd, isLiteral b = true))

/-- The segments of a request. -/
def serviceSegments (cmd : Str) : List Str := ((cmd.drop serviceReqRoot.length).splitOn 47).filter (· ≠ [])

/-- `SERVICE_COMMAND_DIR`, as a node. -/
def serviceTop : List Str := [str "opt", str "vyatta", str "share", str "vyatta-service", str "templates"]

/-- The file system: `stat` finds the nodes of a tree. -/
def Answers (t : FileTree) : (c : Call) → c.Answer → Prop
  | .stat file, a => a.isSome = (t.statPath file).isSome
  | _, _ => True

/-- The request is accepted with a path. -/
def Accepted (t : FileTree) (cmd path : Str) : Prop :=
  path ≠ [] ∧ ∃ tr, Exec (Answers t) (validateServiceCmd cmd) tr (.ret path)

/-- The claim on an accepted path: it is inside the template directory, and the script
    arrives at the same node. -/
def RunsInside (t : FileTree) (cmd path : Str) : Prop :=
  ∃ node, t.statPath path = some node ∧ serviceTop <+: node ∧
    ∃ tpath, vyattaServiceRun t (cmd.drop serviceReqRoot.length) = some tpath ∧ t.statPath tpath = some node

/-- The node a list of segments names: the node of each name, or `node.tag` where there is
    none. -/
inductive Names (t : FileTree) : List Str → List Str → List Str → Prop where
  | nil (node : List Str) : Names t node [] node
  | name {node next last : List Str} {e : Str} {rest : List Str} (h : t.child node e = some next)
      (hrest : Names t next rest last) : Names t node (e :: rest) last
  | tag {node next last : List Str} {e : Str} {rest : List Str} (hnone : t.child node e = none)
      (h : t.child node (str "node.tag") = some next) (hrest : Names t next rest last) : Names t node (e :: rest) last

/-! ## Segments -/

theorem Literal.notMem {s : Str} (h : Literal s) {c : UInt8} (hc : isLiteral c = false) : c ∉ s := by
  intro hmem
  rw [h c hmem] at hc
  cases hc

theorem args_eq {s : Str} (h : Literal s) : args s = (s.splitOn 47).filter (· ≠ []) := by
  rw [args, splitOnP_replace rfl fun b hb _ => ?_]
  refine Bool.eq_false_iff.mpr fun hifs => ?_
  simp only [isIfs, Bool.or_eq_true, decide_eq_true_eq] at hifs
  rcases hifs with (rfl | rfl) | rfl
  · exact h.notMem (by decide) hb
  · exact h.notMem (by decide) hb
  · exact h.notMem (by decide) hb

theorem strProc_slash {s : Str} (h : Literal s) : strProc s (str "/") = (s.splitOn 47).filter (· ≠ []) := by
  have hnewline : s.count 10 ≠ 1 := by
    rw [List.count_eq_zero_of_not_mem (h.notMem (by decide))]
    decide
  rw [strProc_plain (h.notMem (by decide)) hnewline, slash_eq, cut_singleton (h.notMem (by decide))]

theorem Literal.drop {s : Str} (h : Literal s) (n : Nat) : Literal (s.drop n) := fun b hb => h b (List.mem_of_mem_drop hb)

/-! ## The walks over path texts -/

variable {t : FileTree}

theorem answers_stat {file : Str} {a : Option (Nat × Nat)} (h : Answers t (.stat file) a) :
    a.isSome = true ↔ ∃ node, t.statPath file = some node := by
  rw [show a.isSome = (t.statPath file).isSome from h, Option.isSome_iff_exists]

/-- A segment that goes into a path text. -/
def Segment (e : Str) : Prop := (47 : UInt8) ∉ e ∧ (0 : UInt8) ∉ e

theorem segment_tag : Segment (str "node.tag") := ⟨by decide, by decide⟩

theorem tag_path (path : Str) : path ++ str "/node.tag" = path ++ str "/" ++ str "node.tag" := by
  rw [List.append_assoc]
  rfl

/-- What the validation accepts is the node its segments name. -/
theorem validate_walks : ∀ {segs : List Str} {path : Str} {node : List Str} {tr : List (Sigma Call.Answer)} {p : Str},
    (∀ e ∈ segs, Segment e) → (0 : UInt8) ∉ path → t.statPath path = some node →
    Exec (Answers t) (walk segs path) tr (.ret p) → p ≠ [] →
    ∃ last, Names t node segs last ∧ t.statPath p = some last := by
  intro segs
  induction segs with
  | nil =>
    intro path node tr p _ _ hpath hrun _
    obtain ⟨_, rfl⟩ := hrun.ret_inv
    exact ⟨node, .nil node, hpath⟩
  | cons e segs ih =>
    intro path node tr p hsegs hnul hpath hrun hne
    obtain ⟨hslash, hzero⟩ := hsegs e List.mem_cons_self
    have hrest := fun x hx => hsegs x (List.mem_cons_of_mem e hx)
    have hnul' : ∀ {e : Str}, Segment e → (0 : UInt8) ∉ path ++ str "/" ++ e := by
      intro e he
      have h1 : (0 : UInt8) ∉ str "/" := by decide
      simp [hnul, he.2, h1]
    have hfound : ∀ {e : Str} {a : Option (Nat × Nat)}, Segment e → Answers t (.stat (cstr (path ++ str "/" ++ e))) a →
        (a.isSome = true ↔ ∃ next, t.child node e = some next) := by
      intro e a he ha
      rw [cstr_of_notMem (hnul' he)] at ha
      rw [answers_stat ha, FileTree.statPath_child hpath he.1]
    obtain ⟨a, tr₁, ha, rfl, hrun₁⟩ := hrun.call_inv
    change Exec (Answers t) (if a.isSome = true then _ else _) tr₁ _ at hrun₁
    by_cases hs : a.isSome = true
    · obtain ⟨next, hnext⟩ := (hfound ⟨hslash, hzero⟩ ha).mp hs
      rw [if_pos hs] at hrun₁
      have hstat := (FileTree.statPath_child hpath hslash).trans hnext
      obtain ⟨last, hnames, hp⟩ := ih hrest (hnul' ⟨hslash, hzero⟩) hstat hrun₁ hne
      exact ⟨last, .name hnext hnames, hp⟩
    · have hnone : t.child node e = none := by
        refine Option.eq_none_iff_forall_ne_some.mpr fun next hnext => hs ?_
        exact (hfound ⟨hslash, hzero⟩ ha).mpr ⟨next, hnext⟩
      rw [if_neg hs] at hrun₁
      obtain ⟨a', tr₂, ha', rfl, hrun₂⟩ := hrun₁.call_inv
      change Exec (Answers t) (if a'.isSome = true then _ else _) tr₂ _ at hrun₂
      have hfound' : a'.isSome = true ↔ ∃ next, t.child node (str "node.tag") = some next := by
        refine hfound segment_tag ?_
        rw [← tag_path]
        exact ha'
      rw [tag_path] at hrun₂
      by_cases hs' : a'.isSome = true
      · obtain ⟨next, hnext⟩ := hfound'.mp hs'
        rw [if_pos hs'] at hrun₂
        have hstat := (FileTree.statPath_child hpath segment_tag.1).trans hnext
        obtain ⟨last, hnames, hp⟩ := ih hrest (hnul' segment_tag) hstat hrun₂ hne
        exact ⟨last, .tag hnone hnext hnames, hp⟩
      · rw [if_neg hs'] at hrun₂
        obtain ⟨_, rfl⟩ := hrun₂.ret_inv
        exact absurd rfl hne

theorem Names.unique {node last last' : List Str} {segs : List Str} (h : Names t node segs last) (h' : Names t node segs last') :
    last = last' := by
  induction h with
  | nil node =>
    cases h'
    rfl
  | name h _ ih =>
    cases h' with
    | name h₁ hrest =>
      cases h.symm.trans h₁
      exact ih hrest
    | tag hnone _ _ =>
      rw [h] at hnone
      cases hnone
  | tag hnone h _ ih =>
    cases h' with
    | name h₁ _ =>
      rw [h₁] at hnone
      cases hnone
    | tag _ h₁ hrest =>
      cases h.symm.trans h₁
      exact ih hrest

/-- Nothing stands behind a plain file. -/
theorem Names.isDir {node last : List Str} {segs : List Str} (h : Names t node segs last) (hlast : t.IsDir last) :
    t.IsDir node := by
  cases h with
  | nil => exact hlast
  | name h _ => exact FileTree.isDir_of_child h
  | tag _ h _ => exact FileTree.isDir_of_child h

theorem isDirPath_iff {path e : Str} {node : List Str} (hpath : t.statPath path = some node) (he : (47 : UInt8) ∉ e) :
    isDirPath t (path ++ str "/" ++ e) = true ↔ ∃ next, t.child node e = some next ∧ t.IsDir next := by
  rw [isDirPath, FileTree.statPath_child hpath he]
  rcases t.child node e with _ | next <;> simp

/-- The script arrives at every directory that its segments name. -/
theorem run_walks {node last : List Str} {segs : List Str} (h : Names t node segs last) (hlast : t.IsDir last) :
    ∀ {tpath : Str}, (∀ e ∈ segs, Segment e) → t.statPath tpath = some node →
      ∃ q, runWalk t segs tpath = some q ∧ t.statPath q = some last := by
  induction h with
  | nil node => exact fun _ hpath => ⟨_, rfl, hpath⟩
  | @name node next last e rest h hrest ih =>
    intro tpath hsegs hpath
    have he := (hsegs e List.mem_cons_self).1
    have hdir : isDirPath t (tpath ++ str "/" ++ e) = true := (isDirPath_iff hpath he).mpr ⟨next, h, hrest.isDir hlast⟩
    rw [runWalk, if_pos hdir]
    exact ih hlast (fun x hx => hsegs x (List.mem_cons_of_mem _ hx)) ((FileTree.statPath_child hpath he).trans h)
  | @tag node next last e rest hnone h hrest ih =>
    intro tpath hsegs hpath
    have he := (hsegs e List.mem_cons_self).1
    have hno : ¬ isDirPath t (tpath ++ str "/" ++ e) = true := by
      rw [isDirPath_iff hpath he, hnone]
      rintro ⟨_, h, _⟩
      cases h
    have hdir : isDirPath t (tpath ++ str "/" ++ str "node.tag") = true :=
      (isDirPath_iff hpath segment_tag.1).mpr ⟨next, h, hrest.isDir hlast⟩
    rw [runWalk, if_neg hno, tag_path, if_pos hdir]
    exact ih hlast (fun x hx => hsegs x (List.mem_cons_of_mem _ hx)) ((FileTree.statPath_child hpath segment_tag.1).trans h)

/-- It arrives at nothing but directories. -/
theorem run_isDir :
    ∀ {segs : List Str} {tpath q : Str} {node : List Str}, (∀ e ∈ segs, Segment e) → t.statPath tpath = some node →
    t.IsDir node → runWalk t segs tpath = some q → ∃ last, t.statPath q = some last ∧ t.IsDir last := by
  intro segs
  induction segs with
  | nil =>
    intro tpath q node _ hpath hdir hrun
    cases hrun
    exact ⟨node, hpath, hdir⟩
  | cons e segs ih =>
    intro tpath q node hsegs hpath hdir hrun
    have he := (hsegs e List.mem_cons_self).1
    have hrest := fun x hx => hsegs x (List.mem_cons_of_mem e hx)
    rw [runWalk, tag_path] at hrun
    split at hrun
    · obtain ⟨next, hnext, hdir'⟩ := (isDirPath_iff hpath he).mp ‹_›
      exact ih hrest ((FileTree.statPath_child hpath he).trans hnext) hdir' hrun
    · split at hrun
      · obtain ⟨next, hnext, hdir'⟩ := (isDirPath_iff hpath segment_tag.1).mp ‹_›
        exact ih hrest ((FileTree.statPath_child hpath segment_tag.1).trans hnext) hdir' hrun
      · cases hrun

/-! ## The textual path -/

theorem isName_tag : FileTree.IsName (str "node.tag") := by decide

/-- A walk and the path taken textually. -/
theorem Names.shadow {node last : List Str} {segs : List Str} (h : Names t node segs last) : ∀ {n : List Str},
    FileTree.Shadow t (str "node.tag") node n → FileTree.Shadow t (str "node.tag") last (segs.foldl FileTree.textual n) := by
  induction h with
  | nil node => exact fun hn => hn
  | @name node next last e rest h _ ih =>
    intro n hn
    refine ih ?_
    have hdir := FileTree.isDir_of_child h
    unfold FileTree.textual
    unfold FileTree.child at h
    rw [if_neg (not_not.mpr hdir)] at h
    split at h
    · cases h
      rw [if_pos ‹_›]
      exact hn
    · rw [if_neg ‹_›]
      split at h
      · cases h
        rw [if_pos ‹_›]
        exact hn.dropLast
      · rw [if_neg ‹_›]
        split at h
        · cases h
          exact .same e hn
        · cases h
  | @tag node next last e rest hnone h _ ih =>
    intro n hn
    refine ih ?_
    have hdir := FileTree.isDir_of_child h
    obtain ⟨he, hmissing⟩ := FileTree.child_eq_none hdir hnone
    have hnext : next = node ++ [str "node.tag"] := by
      rw [FileTree.child_name hdir isName_tag] at h
      split at h
      · exact (Option.some.inj h).symm
      · cases h
    rw [hnext, FileTree.textual_name he]
    exact .tagged e hn hmissing

/-! ## Accepted requests -/

/-- The texts of the two programs for the template directory. -/
theorem statPath_top (htop : t.IsDir serviceTop) :
    t.statPath serviceCommandDir = some serviceTop ∧ t.statPath vyattaServiceTemplates = some serviceTop := by
  have hway : serviceTop.foldlM t.child [] = some serviceTop :=
    FileTree.foldlM_child (by decide) (by rw [List.nil_append, htop]; rfl)
  have hroot : t.child [] [] = some [] := FileTree.child_empty t.root
  have hslash : t.child serviceTop [] = some serviceTop := FileTree.child_empty htop
  constructor
  · rw [FileTree.statPath, show serviceCommandDir.splitOn 47 = [] :: serviceTop by decide, List.foldlM_cons, hroot]
    exact hway
  · rw [FileTree.statPath, show vyattaServiceTemplates.splitOn 47 = [] :: (serviceTop ++ [[]]) by decide, List.foldlM_cons, hroot]
    show (serviceTop ++ [[]]).foldlM t.child [] = _
    rw [List.foldlM_append, hway]
    show [[]].foldlM t.child serviceTop = _
    rw [List.foldlM_cons, hslash]
    rfl

theorem segments_segment {cmd : Str} (h : Literal cmd) : ∀ e ∈ serviceSegments cmd, Segment e := by
  intro e he
  obtain ⟨hmem, _⟩ := List.mem_filter.mp he
  obtain ⟨hslash, hpart⟩ := mem_splitOn 47 _ e hmem
  exact ⟨hslash, fun hzero => (h.drop _).notMem (by decide) (hpart.subset hzero)⟩

theorem accepted_names (htop : t.IsDir serviceTop) {cmd path : Str} (h : Literal cmd) (hacc : Accepted t cmd path) :
    ∃ node, Names t serviceTop (serviceSegments cmd) node ∧ t.statPath path = some node := by
  obtain ⟨hne, tr, hrun⟩ := hacc
  unfold validateServiceCmd at hrun
  split at hrun
  · obtain ⟨_, rfl⟩ := hrun.ret_inv
    exact absurd rfl hne
  · rw [substrFrom_of_le (by omega), ret_bind, strProc_slash (h.drop _)] at hrun
    exact validate_walks (segments_segment h) (by decide) (statPath_top htop).1 hrun hne

/-- An accepted request runs where it was validated, inside the template directory, exactly
    when its path stays there, with `.` and `..` taken out textually, and the node it names is
    a directory. -/
theorem validated_path_runs_iff (htop : t.IsDir serviceTop) {cmd path : Str} (h : Literal cmd) (hacc : Accepted t cmd path) :
    RunsInside t cmd path ↔
      serviceTop <+: (serviceSegments cmd).foldl FileTree.textual serviceTop ∧
      ∃ node, Names t serviceTop (serviceSegments cmd) node ∧ t.IsDir node := by
  obtain ⟨node, hnames, hpath⟩ := accepted_names htop h hacc
  have hargs : args (cmd.drop serviceReqRoot.length) = serviceSegments cmd := args_eq (h.drop _)
  have hthere : (t.kind serviceTop).isSome := by
    rw [htop]
    rfl
  have hinside := (hnames.shadow (FileTree.Shadow.refl t _ serviceTop)).prefix_iff hthere (by decide)
  unfold RunsInside vyattaServiceRun
  rw [hargs]
  constructor
  · rintro ⟨node', hpath', htopped, tpath, hrun, htpath⟩
    cases hpath.symm.trans hpath'
    obtain ⟨last, hlast, hdir⟩ := run_isDir (segments_segment h) (statPath_top htop).2 htop hrun
    cases htpath.symm.trans hlast
    exact ⟨hinside.mp htopped, node, hnames, hdir⟩
  · rintro ⟨htopped, node', hnames', hdir⟩
    cases hnames.unique hnames'
    obtain ⟨tpath, hrun, htpath⟩ := run_walks hnames hdir (segments_segment h) (statPath_top htop).2
    exact ⟨node, hpath, hinside.mpr htopped, tpath, hrun, htpath⟩

/-! ## Examples -/

/-- The template of one service, `show`, with a value. -/
def showTree : FileTree :=
  .ofLists (serviceTop.inits ++ [serviceTop ++ [str "show"], serviceTop ++ [str "show", str "node.tag"]])
    [serviceTop ++ [str "show", str "node.def"]] (by decide) (by decide)

theorem showTree_top : showTree.IsDir serviceTop := by decide

/-- A call of `stat` under the template directory, and its answer. -/
def statted (x : Str × Bool) : Sigma Call.Answer := ⟨.stat (serviceCommandDir ++ x.1), if x.2 then some (0, 0) else none⟩

theorem accepted_of_probes {t : FileTree} {cmd path : Str} (probes : List (Str × Bool)) (hne : path ≠ [])
    (hprobes : ∀ x ∈ probes, (t.statPath (serviceCommandDir ++ x.1)).isSome = x.2)
    (h : (((validateServiceCmd cmd).replay (probes.map statted)).bind result?).any (· = path) = true) :
    Accepted t cmd path := by
  have henv : ∀ y ∈ probes.map statted, Answers t y.1 y.2 := by
    intro y hy
    obtain ⟨⟨file, found⟩, hx, rfl⟩ := List.mem_map.mp hy
    have hfound := hprobes _ hx
    show (if found then some (0, 0) else none).isSome = _
    rw [hfound]
    cases found <;> rfl
  obtain ⟨p, hrun, hp⟩ := exec_ret_of_replay henv h
  cases decide_eq_true_eq.mp hp
  exact ⟨hne, _, hrun⟩

theorem a_value_runs : Accepted showTree (str "/rest/service/show/eth0") (serviceCommandDir ++ str "/show/node.tag") ∧
    RunsInside showTree (str "/rest/service/show/eth0") (serviceCommandDir ++ str "/show/node.tag") := by
  have hacc : Accepted showTree (str "/rest/service/show/eth0") (serviceCommandDir ++ str "/show/node.tag") :=
    accepted_of_probes [(str "/show", true), (str "/show/eth0", false), (str "/show/node.tag", true)]
      (by decide) (by decide) (by decide)
  have hshow : showTree.child serviceTop (str "show") = some (serviceTop ++ [str "show"]) := by decide
  refine ⟨hacc, (validated_path_runs_iff showTree_top (by decide) hacc).mpr ⟨by decide, ?_⟩⟩
  exact ⟨serviceTop ++ [str "show", str "node.tag"], .name hshow (.tag (by decide) (by decide) (.nil _)), by decide⟩

/-- `..` is accepted, and its path is above the template directory; a plain file is accepted,
    and the script goes to `node.tag` instead. -/
theorem an_accepted_path_outside :
    (Literal (str "/rest/service/..") ∧ Accepted showTree (str "/rest/service/..") (serviceCommandDir ++ str "/..") ∧
      ¬ RunsInside showTree (str "/rest/service/..") (serviceCommandDir ++ str "/..")) ∧
    Literal (str "/rest/service/show/node.def") ∧
      Accepted showTree (str "/rest/service/show/node.def") (serviceCommandDir ++ str "/show/node.def") ∧
      ¬ RunsInside showTree (str "/rest/service/show/node.def") (serviceCommandDir ++ str "/show/node.def") := by
  refine ⟨⟨by decide, accepted_of_probes [(str "/..", true)] (by decide) (by decide) (by decide), ?_⟩, by decide,
    accepted_of_probes [(str "/show", true), (str "/show/node.def", true)] (by decide) (by decide) (by decide), ?_⟩
  · rintro ⟨node, hnode, hinside, _⟩
    have hup : showTree.statPath (serviceCommandDir ++ str "/..") = some serviceTop.dropLast := by decide
    cases hup.symm.trans hnode
    exact absurd hinside (by decide)
  · rintro ⟨node, hnode, _, tpath, hrun, htpath⟩
    have hfile : showTree.statPath (serviceCommandDir ++ str "/show/node.def") =
      some (serviceTop ++ [str "show", str "node.def"]) := by decide
    have htag : vyattaServiceRun showTree ((str "/rest/service/show/node.def").drop serviceReqRoot.length) =
      some (vyattaServiceTemplates ++ str "/show/node.tag") := by decide
    cases hfile.symm.trans hnode
    cases htag.symm.trans hrun
    exact absurd htpath (by decide)

end VyattaRest.Server.ServiceMode
