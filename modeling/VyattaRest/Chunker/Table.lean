/-
  VyattaRest.Chunker.Table — the chunker's process table and the replies it writes about it
  (`ProcessData` and the `<process>`, `<details>` and `<next>` branches of
  `ChunkerManager::process`, chunker2_manager.cc).

  A reply is built of rows: start time, command, token, user and read offset, joined by
  `%3A`. The listing and the details end each row with `%2C`, `<next>` sends one row and a
  newline. Nothing is escaped.
-/

import VyattaRest.Common
import VyattaRest.Lib.Decimal
import VyattaRest.Lib.OrdMap

namespace VyattaRest.Chunker

open VyattaRest.Lib VyattaRest.Rest

inductive ProcStatus where
  | none
  | running
  | dead
  deriving DecidableEq, Repr

/-- An entry of the process table. -/
structure ProcessData where
  startTime : UInt64
  lastUpdate : UInt64
  command : Str
  token : Str
  user : Str
  readOffset : UInt64
  status : ProcStatus
  deriving DecidableEq, Repr

abbrev ProcColl := OrdMap Str ProcessData

/-- What `start_new` and the C strings of a message guarantee of an entry under `key`. -/
structure ProcessData.Started (pd : ProcessData) (key : Str) : Prop where
  token_eq : pd.token = key
  command_ne_nil : pd.command ≠ []
  token_ne_nil : pd.token ≠ []
  user_ne_nil : pd.user ≠ []
  no_nul : (0 : UInt8) ∉ pd.command ++ pd.token ++ pd.user

def ProcColl.Started (t : ProcColl) : Prop := ∀ p ∈ t.entries, p.2.Started p.1

/-! ## Replies -/

def ProcessData.row (pd : ProcessData) : Str :=
  ld pd.startTime ++ str "%3A" ++ pd.command ++ str "%3A" ++ pd.token ++ str "%3A" ++ pd.user ++
    str "%3A" ++ ld pd.readOffset

/-- The entries of a user, in the order of the table. -/
def ProcColl.ofUser (t : ProcColl) (user : Str) : List ProcessData := (t.entries.map (·.2)).filter (·.user = user)

/-- The reply to `<process>`. -/
def processReply (t : ProcColl) (user : Str) : Str := (t.ofUser user).flatMap fun pd => pd.row ++ str "%2C"

/-- The reply to `<details>`. -/
def detailsReply (t : ProcColl) (token user : Str) : Str :=
  ((t.ofUser user).filter (·.token = token)).flatMap fun pd => pd.row ++ str "%2C"

/-- A terminated process that has been read to its end shows the offset -1. -/
def ProcessData.atNext (pd : ProcessData) : ProcessData :=
  if pd.status = .dead then { pd with readOffset := -1 } else pd

/-- The reply to `<next>`: nothing for another user's entry, two spaces for an unknown
    token. -/
def nextReply (t : ProcColl) (token user : Str) : Str :=
  match t.find token with
  | none => str "  "
  | some pd => if user ≠ pd.user then [] else pd.atNext.row ++ str "\n"

/-! ## Entries by token -/

theorem mem_ofUser {t : ProcColl} (ht : t.Started) {user : Str} {pd : ProcessData} :
    pd ∈ t.ofUser user ↔ t.find pd.token = some pd ∧ pd.user = user := by
  rw [ProcColl.ofUser, List.mem_filter, List.mem_map]
  constructor
  · intro ⟨⟨p, hp, he⟩, hu⟩
    obtain ⟨k, v⟩ := p
    simp only at he
    subst he
    have hk := (ht _ hp).token_eq
    simp only at hk
    rw [hk]
    exact ⟨OrdMap.mem_entries.mp hp, by simpa using hu⟩
  · intro ⟨hf, hu⟩
    exact ⟨⟨_, OrdMap.mem_entries.mpr hf, rfl⟩, by simpa using hu⟩

theorem ofUser_sorted {t : ProcColl} (ht : t.Started) (user : Str) :
    (t.ofUser user).Pairwise fun a b => a.token < b.token := by
  refine List.Pairwise.filter _ (List.pairwise_map.mpr ?_)
  refine t.sorted.imp_of_mem fun {p q} hp hq hlt => ?_
  rw [(ht p hp).token_eq, (ht q hq).token_eq]
  exact hlt

/-- A token addresses at most one entry. -/
theorem ofUser_token {t : ProcColl} (ht : t.Started) (user token : Str) :
    (t.ofUser user).filter (·.token = token) = ((t.find token).filter (·.user = user)).toList := by
  have hmem : ∀ pd, pd ∈ (t.ofUser user).filter (·.token = token) ↔ t.find token = some pd ∧ pd.user = user := by
    intro pd
    rw [List.mem_filter, mem_ofUser ht, decide_eq_true_eq]
    constructor
    · intro ⟨⟨h1, h2⟩, h3⟩
      exact ⟨h3 ▸ h1, h2⟩
    · intro ⟨h1, h2⟩
      have hk : pd.token = token := (ht _ (OrdMap.mem_entries.mpr h1)).token_eq
      exact ⟨⟨hk ▸ h1, h2⟩, hk⟩
  have hsorted := (ofUser_sorted ht user).filter (·.token = token)
  rcases hl : (t.ofUser user).filter (·.token = token) with _ | ⟨a, _ | ⟨b, r⟩⟩
  · rcases hf : t.find token with _ | pd
    · rw [hl]; rfl
    · have := (hmem pd).not.mp (by rw [hl]; simp)
      rw [hl, Option.filter_some, if_neg (by simpa [hf] using this)]
      rfl
  · obtain ⟨hf, hu⟩ := (hmem a).mp (by rw [hl]; exact List.mem_cons_self)
    rw [hl, hf, Option.filter_some, if_pos (by simpa using hu)]
    rfl
  · obtain ⟨ha, -⟩ := (hmem a).mp (by rw [hl]; exact List.mem_cons_self)
    obtain ⟨hb, -⟩ := (hmem b).mp (by rw [hl]; simp)
    rw [hl] at hsorted
    have hlt := (List.pairwise_cons.mp hsorted).1 b List.mem_cons_self
    rw [ha, Option.some.injEq] at hb
    subst hb
    exact absurd hlt (List.lt_irrefl _)

end VyattaRest.Chunker
