/-
  VyattaRest.Lib.FileTree — a tree of directories and files, and the paths of its nodes.

  A node is the list of the names that lead to it. `child` looks for a name in a directory: `.`
  and an empty name are the directory itself, `..` the one above it. `statPath` resolves a path
  from the root, a name at a time, so a plain file has nothing behind it, not even `..`
  (`statPath_child`).

  `textual` takes `.` and `..` out of a path without looking at the tree. `Shadow` relates the
  node a walk arrives at, when it goes to a node `tag` wherever a name is missing, with the path
  taken textually: for a directory that is there and has no `tag` on its way, the one is inside
  it exactly when the other is (`Shadow.prefix_iff`).
-/

import VyattaRest.Lib.Bytes

namespace VyattaRest.Lib

inductive FileKind where
  | dir
  | file
  deriving DecidableEq, Repr

structure FileTree where
  kind : List Str → Option FileKind
  root : kind [] = some .dir
  parent : ∀ l e, (kind (l ++ [e])).isSome → kind l = some .dir

namespace FileTree

/-- The tree of some directories and files, each of them in one of the directories. -/
def ofLists (dirs files : List (List Str)) (hroot : [] ∈ dirs) (hparent : ∀ l ∈ dirs ++ files, l = [] ∨ l.dropLast ∈ dirs) :
    FileTree where
  kind l := if l ∈ dirs then some .dir else if l ∈ files then some .file else none
  root := if_pos hroot
  parent l e h := by
    have hmem : l ++ [e] ∈ dirs ++ files := by
      by_contra hno
      obtain ⟨h₁, h₂⟩ := not_or.mp (List.mem_append.not.mp hno)
      rw [if_neg h₁, if_neg h₂] at h
      cases h
    have hdir := (hparent _ hmem).resolve_left (by simp)
    rw [List.dropLast_concat] at hdir
    exact if_pos hdir

variable {t : FileTree} {l n : List Str} {e : Str}

def IsDir (t : FileTree) (l : List Str) : Prop := t.kind l = some .dir

instance (t : FileTree) (l : List Str) : Decidable (t.IsDir l) := inferInstanceAs (Decidable (t.kind l = some .dir))

/-- A name, looked for from a node. -/
def child (t : FileTree) (l : List Str) (e : Str) : Option (List Str) :=
  if ¬ t.IsDir l then none
  else if e = [] ∨ e = str "." then some l
  else if e = str ".." then some l.dropLast
  else if (t.kind (l ++ [e])).isSome then some (l ++ [e])
  else none

def statPath (t : FileTree) (path : Str) : Option (List Str) := (path.splitOn 47).foldlM t.child []

/-- `.` and `..` taken out. -/
def textual (l : List Str) (e : Str) : List Str :=
  if e = [] ∨ e = str "." then l else if e = str ".." then l.dropLast else l ++ [e]

/-- A name of a node, as opposed to a way of saying where one is. -/
def IsName (e : Str) : Prop := e ≠ [] ∧ e ≠ str "." ∧ e ≠ str ".."

instance (e : Str) : Decidable (IsName e) := inferInstanceAs (Decidable (_ ∧ _))

theorem textual_name (he : IsName e) : textual l e = l ++ [e] := by
  obtain ⟨h₁, h₂, h₃⟩ := he
  rw [textual, if_neg (not_or.mpr ⟨h₁, h₂⟩), if_neg h₃]

theorem isDir_of_child (h : t.child l e = some n) : t.IsDir l := by
  unfold child at h
  split at h
  · cases h
  · exact not_not.mp ‹_›

theorem kind_isSome_of_prefix (h : l <+: n) (hn : (t.kind n).isSome) : (t.kind l).isSome := by
  obtain ⟨s, rfl⟩ := h
  induction s using List.reverseRecOn with
  | nil => rwa [List.append_nil] at hn
  | append_singleton s e ih =>
    rw [← List.append_assoc] at hn
    exact ih (by rw [t.parent _ _ hn]; rfl)

theorem child_empty (hdir : t.IsDir l) : t.child l [] = some l := by
  rw [child, if_neg (not_not.mpr hdir), if_pos (Or.inl rfl)]

/-- One more name at the end of a path. -/
theorem statPath_child {path : Str} (h : t.statPath path = some l) (he : (47 : UInt8) ∉ e) :
    t.statPath (path ++ str "/" ++ e) = t.child l e := by
  have hsplit : (path ++ str "/" ++ e).splitOn 47 = path.splitOn 47 ++ [e] := by
    rw [List.append_assoc, show str "/" ++ e = 47 :: e from rfl, List.splitOn_append_cons_self, List.splitOn_eq_singleton he]
  rw [statPath, hsplit, List.foldlM_append]
  show (t.statPath path).bind _ = _
  rw [h, Option.bind_some]
  simp

theorem child_name (hdir : t.IsDir l) (he : IsName e) :
    t.child l e = if (t.kind (l ++ [e])).isSome then some (l ++ [e]) else none := by
  obtain ⟨h₁, h₂, h₃⟩ := he
  rw [child, if_neg (not_not.mpr hdir), if_neg (not_or.mpr ⟨h₁, h₂⟩), if_neg h₃]

/-- What is not found in a directory is a name, and no node of the directory has it. -/
theorem child_eq_none (hdir : t.IsDir l) (h : t.child l e = none) : IsName e ∧ t.kind (l ++ [e]) = none := by
  unfold child at h
  rw [if_neg (not_not.mpr hdir)] at h
  split at h
  · cases h
  · rename_i hdot
    split at h
    · cases h
    · rename_i hup
      split at h
      · cases h
      · rename_i hnone
        obtain ⟨h₁, h₂⟩ := not_or.mp hdot
        exact ⟨⟨h₁, h₂, hup⟩, by simpa using hnone⟩

/-- The way to a node that is there. -/
theorem foldlM_child {names : List Str} : ∀ {l : List Str}, (∀ e ∈ names, IsName e) → (t.kind (l ++ names)).isSome →
    names.foldlM t.child l = some (l ++ names) := by
  induction names with
  | nil =>
    intro l _ _
    rw [List.append_nil]
    rfl
  | cons e names ih =>
    intro l hnames hthere
    have hnext : (t.kind (l ++ [e])).isSome := by
      refine kind_isSome_of_prefix ?_ hthere
      exact ⟨names, by simp⟩
    have hchild : t.child l e = some (l ++ [e]) := by
      rw [child_name (t.parent l e hnext) (hnames e List.mem_cons_self), if_pos hnext]
    rw [List.foldlM_cons, hchild]
    show names.foldlM t.child (l ++ [e]) = _
    rw [ih (fun x hx => hnames x (List.mem_cons_of_mem _ hx)) (by simpa using hthere)]
    simp

/-! ## Walks that go to a tag -/

variable {tag : Str} {top : List Str}

inductive Shadow (t : FileTree) (tag : Str) : List Str → List Str → Prop where
  | nil : Shadow t tag [] []
  | same {l n : List Str} (e : Str) (h : Shadow t tag l n) : Shadow t tag (l ++ [e]) (n ++ [e])
  | tagged {l n : List Str} (e : Str) (h : Shadow t tag l n) (hnone : t.kind (l ++ [e]) = none) :
      Shadow t tag (l ++ [tag]) (n ++ [e])

namespace Shadow

theorem refl (t : FileTree) (tag : Str) (l : List Str) : Shadow t tag l l := by
  induction l using List.reverseRecOn with
  | nil => exact .nil
  | append_singleton l e ih => exact .same e ih

theorem dropLast (h : Shadow t tag l n) : Shadow t tag l.dropLast n.dropLast := by
  cases h with
  | nil => exact .nil
  | same e h =>
    rw [List.dropLast_concat, List.dropLast_concat]
    exact h
  | tagged e h _ =>
    rw [List.dropLast_concat, List.dropLast_concat]
    exact h

/-- On the way to `top` the two are the same. -/
theorem eq_of_prefix (htop : (t.kind top).isSome) (htag : tag ∉ top) (h : Shadow t tag l n) : l <+: top ∨ n <+: top → n = l := by
  induction h with
  | nil => exact fun _ => rfl
  | same e _ ih =>
    intro hpre
    rw [ih (hpre.imp (List.prefix_append _ _).trans (List.prefix_append _ _).trans)]
  | tagged e _ hnone ih =>
    rintro (hpre | hpre)
    · exact absurd (hpre.subset (by simp)) htag
    · have heq := ih (Or.inr ((List.prefix_append _ _).trans hpre))
      subst heq
      have := kind_isSome_of_prefix hpre htop
      rw [hnone] at this
      cases this

theorem prefix_iff (htop : (t.kind top).isSome) (htag : tag ∉ top) (h : Shadow t tag l n) : top <+: l ↔ top <+: n := by
  induction h with
  | nil => exact Iff.rfl
  | same e h ih =>
    have heq := eq_of_prefix htop htag (Shadow.same e h)
    rw [List.prefix_concat_iff, List.prefix_concat_iff, ih]
    refine or_congr_left ⟨fun h => ?_, fun h => ?_⟩
    · exact h.trans (heq (Or.inl (h ▸ List.prefix_refl _))).symm
    · exact h.trans (heq (Or.inr (h ▸ List.prefix_refl _)))
  | tagged e h hnone ih =>
    have heq := eq_of_prefix htop htag (Shadow.tagged e h hnone)
    rw [List.prefix_concat_iff, List.prefix_concat_iff, ih]
    refine or_congr_left ⟨fun h => ?_, fun h => ?_⟩
    · exact h.trans (heq (Or.inl (h ▸ List.prefix_refl _))).symm
    · exact h.trans (heq (Or.inr (h ▸ List.prefix_refl _)))

end Shadow

end FileTree

end VyattaRest.Lib
