/-
  VyattaRest.Lib.HashTree — hashes in hashes, as scripts have them.

  A value is undefined, a text, or a hash. Reading through what is not there gives nothing,
  writing through it makes it, and writing through a text fails.
  - `read_of_write` / `read_of_write_other`: a write is seen at its place and at no other.
  - `write_append`: a long write is one write in another.
-/

import VyattaRest.Lib.OrdMap

namespace VyattaRest.Lib

inductive HashTree (κ : Type) where
  | undef
  | text (s : κ)
  | hash (fields : List (κ × HashTree κ))

namespace HashTree

variable {κ : Type} [BEq κ] [LawfulBEq κ] [DecidableEq κ]

def isUndef : HashTree κ → Bool
  | undef => true
  | _ => false

/-- What is under a reference; a text is none. -/
def fields? : HashTree κ → Option (List (κ × HashTree κ))
  | undef => some []
  | text _ => none
  | hash fields => some fields

def keys (d : HashTree κ) : List κ := (d.fields?.getD []).map Prod.fst

def get (d : HashTree κ) (k : κ) : HashTree κ := ((d.fields?.getD []).lookup k).getD undef

def read (d : HashTree κ) : List κ → HashTree κ
  | [] => d
  | k :: ks => (d.get k).read ks

def setField (k : κ) (x : HashTree κ) : List (κ × HashTree κ) → List (κ × HashTree κ)
  | [] => [(k, x)]
  | f :: fields => if f.1 = k then (f.1, x) :: fields else f :: setField k x fields

/-- Hashes on the way are made. -/
def write? : List κ → HashTree κ → HashTree κ → Option (HashTree κ)
  | [], x, _ => some x
  | k :: ks, x, d => d.fields?.bind fun fields => (write? ks x (d.get k)).map fun c => hash (setField k c fields)

theorem lookup_setField (k : κ) (x : HashTree κ) (fields : List (κ × HashTree κ)) (k' : κ) :
    (setField k x fields).lookup k' = if k' = k then some x else fields.lookup k' := by
  induction fields with
  | nil =>
    rw [setField, lookup_cons_eq]
  | cons f fields ih =>
    rw [setField]
    split
    · rename_i hf
      rw [lookup_cons_eq, lookup_cons_eq, ← hf]
      split
      · rfl
      · rfl
    · rename_i hf
      rw [lookup_cons_eq, lookup_cons_eq, ih]
      split
      · rename_i hk
        rw [if_neg (hk ▸ hf)]
      · rfl

/-- What a write makes of a hash. -/
theorem write_cons {k : κ} {ks : List κ} {x d d' : HashTree κ} (h : write? (k :: ks) x d = some d') :
    ∃ c, write? ks x (d.get k) = some c ∧ ∀ k', d'.get k' = if k' = k then c else d.get k' := by
  rw [write?] at h
  obtain ⟨fields, hf, h⟩ := Option.bind_eq_some_iff.mp h
  obtain ⟨c, hc, rfl⟩ := Option.map_eq_some_iff.mp h
  refine ⟨c, hc, fun k' => ?_⟩
  rw [get, get, hf]
  show ((setField k c fields).lookup k').getD undef = _
  rw [lookup_setField]
  split
  · rfl
  · rfl

theorem read_of_write {ks : List κ} {x d d' : HashTree κ} (h : write? ks x d = some d') : d'.read ks = x := by
  induction ks generalizing d d' with
  | nil => exact (Option.some.inj h).symm
  | cons k ks ih =>
    obtain ⟨c, hc, hget⟩ := write_cons h
    rw [read, hget, if_pos rfl]
    exact ih hc

theorem read_of_write_other {ks p : List κ} {x d d' : HashTree κ} (h : write? ks x d = some d') (hp : ¬ ks <+: p)
    (hp' : ¬ p <+: ks) : d'.read p = d.read p := by
  induction ks generalizing d d' p with
  | nil => exact absurd (List.nil_prefix) hp
  | cons k ks ih =>
    cases p with
    | nil => exact absurd (List.nil_prefix) hp'
    | cons k' p =>
      obtain ⟨c, hc, hget⟩ := write_cons h
      rw [read, read, hget]
      split
      · rename_i hk
        subst hk
        exact ih hc (fun hpre => hp (List.cons_prefix_cons.mpr ⟨rfl, hpre⟩))
          fun hpre => hp' (List.cons_prefix_cons.mpr ⟨rfl, hpre⟩)
      · rfl

omit [LawfulBEq κ] [DecidableEq κ] in
theorem read_append (d : HashTree κ) (p q : List κ) : d.read (p ++ q) = (d.read p).read q := by
  induction p generalizing d with
  | nil => rfl
  | cons k p ih => exact ih _

omit [LawfulBEq κ] in
theorem write_append (ks ls : List κ) (x d : HashTree κ) :
    write? (ks ++ ls) x d = (write? ls x (d.read ks)).bind fun c => write? ks c d := by
  induction ks generalizing d with
  | nil =>
    rw [List.nil_append, read]
    exact (Option.bind_fun_some _).symm
  | cons k ks ih =>
    rw [List.cons_append, write?, ih, read]
    rcases write? ls x ((d.get k).read ks) with _ | c
    · rcases d.fields? with _ | fields <;> rfl
    · rw [Option.bind_some, Option.bind_some, write?]

omit [LawfulBEq κ] in
theorem write_hash {k : κ} {ks : List κ} {x d d' : HashTree κ} (h : write? (k :: ks) x d = some d') :
    ∃ fields, d' = hash fields := by
  rw [write?] at h
  obtain ⟨fields, -, h⟩ := Option.bind_eq_some_iff.mp h
  obtain ⟨c, -, rfl⟩ := Option.map_eq_some_iff.mp h
  exact ⟨_, rfl⟩

omit [LawfulBEq κ] in
/-- A write goes through a hash and what is not there. -/
theorem exists_write {k : κ} {ks : List κ} {x d : HashTree κ} (hd : d.fields?.isSome) (hc : ∃ c, write? ks x (d.get k) = some c) :
    ∃ d', write? (k :: ks) x d = some d' := by
  obtain ⟨fields, hf⟩ := Option.isSome_iff_exists.mp hd
  obtain ⟨c, hc⟩ := hc
  exact ⟨hash (setField k c fields), by rw [write?, hf, Option.bind_some, hc, Option.map_some]⟩

theorem setField_self {k : κ} {x : HashTree κ} {fields : List (κ × HashTree κ)} (h : fields.lookup k = some x) :
    setField k x fields = fields := by
  induction fields with
  | nil => cases h
  | cons f fields ih =>
    rw [lookup_cons_eq] at h
    rw [setField]
    by_cases hf : f.1 = k
    · rw [if_pos hf.symm] at h
      rw [if_pos hf, ← Option.some.inj h]
    · rw [if_neg fun heq => hf heq.symm] at h
      rw [if_neg hf, ih h]

omit [BEq κ] [LawfulBEq κ] [DecidableEq κ] in
/-- Nothing holds itself. -/
theorem ne_hash_self (k : κ) (x : HashTree κ) : x ≠ hash [(k, x)] := by
  intro h
  have hsize := congrArg sizeOf h
  simp only [hash.sizeOf_spec, List.cons.sizeOf_spec, Prod.mk.sizeOf_spec] at hsize
  omega

end HashTree

end VyattaRest.Lib
