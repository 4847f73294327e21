/-
  VyattaRest.ClientCommand — operational commands of the Perl client
  (lib/Vyatta/RestClient.pm: run_op_cmd and what it calls).

  The client asks whether the server knows the command, has it started, and gets one chunk after
  another until the server says 410. It deletes the command when there was nothing to show for
  too long, and also at the limit of its caller, but there it returns without the output.
  - `output_is_read`: in any run, what the loop returns, from the chunks that came and the way it
    ended, and how many requests delete the command.
  - `refused_word`: in any run, the search for the word that is not accepted asks for the
    beginnings of the path one after another and names the first that is refused.
  - `a_limit_loses_the_output`: two chunks, with a limit of two.
-/

import VyattaRest.ClientSession

namespace VyattaRest.RestClient.Op

open VyattaRest.Lib VyattaRest.Lib.Prog VyattaRest.Rest

/-! ## The client -/

/-- What `s/[\x00-\x08\x0B-\x1F\x7F-\xFF]//g` leaves. -/
def isShown (b : UInt8) : Bool := b = 9 || b = 10 || (32 ≤ b && b < 127)

def strip (content : Str) : Str := content.filter isShown

/-- The variables of the loop. -/
structure Reading where
  count : Nat
  limit : Int
  output : Option Str
  err : Option Str

/-- The error and the output. -/
abbrev Outcome := Option Str × Option Str

def Reading.add (s : Reading) (text : Str) : Reading := { s with output := some (s.output.getD [] ++ text) }

def noOutput : Str := str "\nNo new output - Stopping\n"

/-- A chunk with nothing to show. -/
def countBlank (url : Str) (s : Reading) : Wire Reading := do
  if 10 < s.count then
    let err ← sendDelete url
    return { s.add noOutput with count := s.count + 1, err }
  return { s with count := s.count + 1 }

/-- The limit, if there is one, and the chunk. -/
def takeChunk (url chunk : Str) (s : Reading) : Wire (Reading ⊕ Outcome) := do
  if s.limit = 0 then return .inl (s.add chunk)
  if s.limit = 1 then
    let _ ← sendDelete url
    return .inr (none, none)
  return .inl ({ s with limit := s.limit - 1 }.add chunk)

/-- One round of the loop: it goes on, or the method returns. -/
def round (url : Str) (s : Reading) : Wire (Reading ⊕ Outcome) := do
  let response ← send (str "GET") url
  if response.isSuccess then
    let chunk := strip response.content
    let s ← (if chunk = [] then countBlank url s else pure s)
    takeChunk url chunk s
  else if response.code ≠ 410 then
    return .inr (some (str "Failed to GET [" ++ url ++ str "] - " ++ response.statusLine), none)
  else return .inr (s.err, s.output)

/-- `_read_op_output`, within a number of rounds. -/
def readOpOutput (url : Str) : Nat → Reading → Wire (Option Outcome)
  | 0, _ => return none
  | rounds + 1, s => do
    match ← round url s with
    | .inl s => readOpOutput url rounds s
    | .inr outcome => return some outcome

/-- The loop begins. -/
def Reading.start (limit : Int) : Reading := ⟨0, limit, none, none⟩

/-- `_is_op_cmd_valid`. -/
def isOpCmdValid (target path : Str) : Wire Bool := do
  return (← send (str "GET") (base target ++ str "rest/op/" ++ path ++ str "/")).isSuccess

/-- What stands behind the last slash. -/
def lastPart (path : Str) : Str := (path.reverse.takeWhile (· ≠ 47)).reverse

/-- The loop over the slashes, with what stands before and behind the position. -/
def lastValidFrom (target done : Str) : Str → Wire (Option Str)
  | [] => return none
  | b :: rest => do
    if b ≠ 47 then lastValidFrom target (done ++ [b]) rest
    -- a slash at the position 0 ends the loop
    else if done = [] then return none
    else if !(← isOpCmdValid target (done ++ [b])) then return some (lastPart done)
    else lastValidFrom target (done ++ [b]) rest

/-- `_find_op_last_valid`. -/
def findOpLastValid (target path : Str) : Wire (Option Str) := lastValidFrom target [] (path ++ str "/")

/-- `run_op_cmd`, with a number of rounds for the output. -/
def runOpCmd (safe : UInt8 → Bool) (rounds : Nat) (target cmd : Str) (limit : Option Int) : Wire (Option Outcome) := do
  let path := cmd2path safe cmd
  let url := base target ++ str "rest/op/" ++ path
  if !(← isOpCmdValid target path) then
    let last ← findOpLastValid target path
    return some (some (str "Invalid cmd [" ++ cmd ++ str "] at [" ++ last.getD [] ++ str "]"), none)
  let response ← send (str "POST") url
  let limit := if (str "capture").isSuffixOf path then 20 else limit.getD 0
  if response.isSuccess then
    match response.location with
    | some location => readOpOutput (base target ++ location) rounds (.start limit)
    | none => return some (some (str "run_op_cmd: no location found [" ++ url ++ str "] - " ++ response.statusLine), none)
  else return some (some (str "run_op_cmd GET failed [" ++ url ++ str "] - " ++ response.statusLine), none)

/-! ## Any run of the loop -/

/-- The replies to the requests with a method. -/
def repliesTo (method : Str) (tr : List (Sigma fun _ : Request => Response)) : List Response :=
  (tr.filter (·.1.method = method)).map (·.2)

/-- What comes of chunks: from the twelfth one on, a chunk with nothing to show makes a note. -/
def shownText (chunks : List Str) : Str :=
  (chunks.zipIdx.map fun c => if c.1 = [] ∧ 10 < (chunks.take c.2).count [] then noOutput else c.1).flatten

/-- How often the command was deleted because of that. -/
def stops (chunks : List Str) : Nat := chunks.count [] - 11

section Rounds

variable {env : (rq : Request) → Response → Prop} {url : Str} {s : Reading} {tr : List (Sigma fun _ : Request => Response)}

theorem repliesTo_append (method : Str) (a b : List (Sigma fun _ : Request => Response)) :
    repliesTo method (a ++ b) = repliesTo method a ++ repliesTo method b := by
  rw [repliesTo, List.filter_append, List.map_append]
  rfl

theorem send_run {method url : Str} {α : Type} {f : Response → Wire α} {tr : List (Sigma fun _ : Request => Response)} {a : α}
    (h : Exec env (send method url >>= f) tr (ret a)) :
    ∃ r tr', env ⟨method, url⟩ r ∧ tr = ⟨⟨method, url⟩, r⟩ :: tr' ∧ Exec env (f r) tr' (ret a) := h.call_inv

/-- The text of a round. -/
def piece (count : Nat) (chunk : Str) : Str := if chunk = [] ∧ 10 < count then noOutput else chunk

/-- The variables after a chunk, for the replies to the requests that deleted the command. -/
def Reading.next (s : Reading) (url chunk : Str) (deletes : List Response) : Reading where
  count := if chunk = [] then s.count + 1 else s.count
  limit := if s.limit = 0 then 0 else s.limit - 1
  output := some (s.output.getD [] ++ piece s.count chunk)
  err := (deletes.getLast?.map (deleteError url)).getD s.err

theorem takeChunk_run {chunk : Str} {r : Reading ⊕ Outcome} (h : Exec env (takeChunk url chunk s) tr (ret r)) :
    (s.limit = 1 ∧ r = .inr (none, none) ∧ ∃ d, tr = [⟨⟨str "DELETE", url⟩, d⟩]) ∨
      (s.limit ≠ 1 ∧ tr = [] ∧ r = .inl { s.add chunk with limit := if s.limit = 0 then 0 else s.limit - 1 }) := by
  rw [takeChunk] at h
  split at h
  · rename_i h0
    obtain ⟨rfl, rfl⟩ := h.ret_inv
    refine Or.inr ⟨by rw [h0]; decide, rfl, ?_⟩
    rw [if_pos h0, ← h0]
    rfl
  split at h
  · rename_i h1
    obtain ⟨tr₁, tr₂, a, rfl, hsend, hret⟩ := h.bind_ret_inv
    obtain ⟨rfl, rfl⟩ := hret.ret_inv
    rw [sendDelete] at hsend
    obtain ⟨d, tr', -, rfl, hret⟩ := send_run hsend
    obtain ⟨rfl, -⟩ := hret.ret_inv
    exact Or.inl ⟨h1, rfl, d, rfl⟩
  · rename_i h0 h1
    obtain ⟨rfl, rfl⟩ := h.ret_inv
    refine Or.inr ⟨h1, rfl, ?_⟩
    rw [if_neg h0]
    rfl

theorem countBlank_run {s' : Reading} (h : Exec env (countBlank url s) tr (ret s')) :
    repliesTo (str "GET") tr = [] ∧ (repliesTo (str "DELETE") tr).length = (if 10 < s.count then 1 else 0) ∧
      s' = { (if 10 < s.count then s.add noOutput else s) with
        count := s.count + 1, err := ((repliesTo (str "DELETE") tr).getLast?.map (deleteError url)).getD s.err } := by
  rw [countBlank] at h
  split at h
  · rename_i hlt
    obtain ⟨tr₁, tr₂, a, rfl, hsend, hret⟩ := h.bind_ret_inv
    obtain ⟨rfl, rfl⟩ := hret.ret_inv
    rw [sendDelete] at hsend
    obtain ⟨d, tr', -, rfl, hret⟩ := send_run hsend
    obtain ⟨rfl, rfl⟩ := hret.ret_inv
    rw [if_pos hlt, if_pos hlt]
    exact ⟨rfl, rfl, rfl⟩
  · rename_i hlt
    obtain ⟨rfl, rfl⟩ := h.ret_inv
    rw [if_neg hlt, if_neg hlt]
    exact ⟨rfl, rfl, rfl⟩

/-- What the loop ends with, at a reply that is no success. -/
def Reading.finish (s : Reading) (url : Str) (last : Response) : Outcome :=
  if last.code = 410 then (s.err, s.output)
  else (some (str "Failed to GET [" ++ url ++ str "] - " ++ last.statusLine), none)

/-- The requests that delete the command in a round. -/
def noted (count : Nat) (chunk : Str) : Nat := if chunk = [] ∧ 10 < count then 1 else 0

theorem round_run {r : Reading ⊕ Outcome} (h : Exec env (round url s) tr (ret r)) :
    ∃ reply, repliesTo (str "GET") tr = [reply] ∧
      ((reply.isSuccess = false ∧ repliesTo (str "DELETE") tr = [] ∧ r = .inr (s.finish url reply)) ∨
       (reply.isSuccess = true ∧ s.limit = 1 ∧ r = .inr (none, none) ∧
          (repliesTo (str "DELETE") tr).length = noted s.count (strip reply.content) + 1) ∨
       (reply.isSuccess = true ∧ s.limit ≠ 1 ∧
          (repliesTo (str "DELETE") tr).length = noted s.count (strip reply.content) ∧
          r = .inl (s.next url (strip reply.content) (repliesTo (str "DELETE") tr)))) := by
  rw [round] at h
  obtain ⟨reply, tr, -, rfl, hrest⟩ := send_run h
  have hget : ∀ tr', repliesTo (str "GET") (⟨⟨str "GET", url⟩, reply⟩ :: tr') = reply :: repliesTo (str "GET") tr' :=
    fun tr' => repliesTo_append (str "GET") [⟨⟨str "GET", url⟩, reply⟩] tr'
  have hdelete : ∀ tr', repliesTo (str "DELETE") (⟨⟨str "GET", url⟩, reply⟩ :: tr') = repliesTo (str "DELETE") tr' :=
    fun tr' => repliesTo_append (str "DELETE") [⟨⟨str "GET", url⟩, reply⟩] tr'
  rw [hget, hdelete]
  refine ⟨reply, ?_⟩
  split at hrest
  · rename_i hsuccess
    obtain ⟨tr₁, tr₂, s', rfl, hblank, htake⟩ := hrest.bind_ret_inv
    -- what the blanks make of the variables
    have hs' : repliesTo (str "GET") tr₁ = [] ∧ (repliesTo (str "DELETE") tr₁).length = noted s.count (strip reply.content) ∧
        s'.limit = s.limit ∧ { s'.add (strip reply.content) with limit := if s.limit = 0 then 0 else s.limit - 1 } =
          s.next url (strip reply.content) (repliesTo (str "DELETE") tr₁) := by
      by_cases hnil : strip reply.content = []
      · rw [if_pos hnil] at hblank
        obtain ⟨hnone, hlen, rfl⟩ := countBlank_run hblank
        refine ⟨hnone, by rw [hlen, noted, hnil]; simp, by dsimp only; split <;> rfl, ?_⟩
        rw [hnil]
        by_cases hlt : 10 < s.count <;> simp [Reading.next, Reading.add, piece, hlt]
      · rw [if_neg hnil] at hblank
        obtain ⟨rfl, rfl⟩ := hblank.ret_inv
        refine ⟨rfl, by rw [noted, if_neg (fun hc => hnil hc.1)]; rfl, rfl, ?_⟩
        simp only [Reading.next, Reading.add, piece, hnil, false_and, if_false]
        rfl
    obtain ⟨hnone, hlen, hlimit, hnext⟩ := hs'
    rw [repliesTo_append, repliesTo_append, hnone, List.nil_append]
    rcases takeChunk_run htake with ⟨h1, rfl, d, rfl⟩ | ⟨h1, rfl, rfl⟩
    · refine ⟨rfl, Or.inr (Or.inl ⟨hsuccess, hlimit ▸ h1, rfl, ?_⟩)⟩
      rw [List.length_append, hlen]
      rfl
    · rw [hlimit] at h1
      refine ⟨rfl, Or.inr (Or.inr ⟨hsuccess, h1, ?_, ?_⟩)⟩
      · rw [← hlen]
        exact congrArg List.length (List.append_nil _)
      · rw [hlimit, hnext]
        exact congrArg _ (congrArg (s.next url (strip reply.content)) (List.append_nil _).symm)
  · rename_i hfail
    have hfail : reply.isSuccess = false := by simpa using hfail
    split at hrest
    · rename_i hcode
      obtain ⟨rfl, rfl⟩ := hrest.ret_inv
      refine ⟨rfl, Or.inl ⟨hfail, rfl, ?_⟩⟩
      rw [Reading.finish, if_neg hcode]
    · rename_i hcode
      obtain ⟨rfl, rfl⟩ := hrest.ret_inv
      refine ⟨rfl, Or.inl ⟨hfail, rfl, ?_⟩⟩
      rw [Reading.finish, if_pos (not_not.mp hcode)]

/-- The pieces of some chunks, when so many had nothing to show before. -/
def pieces (count : Nat) : List Str → Str
  | [] => []
  | c :: cs => piece count c ++ pieces (if c = [] then count + 1 else count) cs

/-- The deletes for some chunks. -/
def notes (count : Nat) : List Str → Nat
  | [] => 0
  | c :: cs => noted count c + notes (if c = [] then count + 1 else count) cs

/-- The variables that count at the end, after some chunks. -/
def Reading.after (s : Reading) (url : Str) (chunks : List Str) (deletes : List Response) : Reading :=
  { s with
    output := if chunks = [] then s.output else some (s.output.getD [] ++ pieces s.count chunks)
    err := (deletes.getLast?.map (deleteError url)).getD s.err }

theorem finish_next (s : Reading) (url c : Str) (cs : List Str) (ds ds' : List Response) (last : Response) :
    ((s.next url c ds).after url cs ds').finish url last = (s.after url (c :: cs) (ds ++ ds')).finish url last := by
  have houtput : ((s.next url c ds).after url cs ds').output = (s.after url (c :: cs) (ds ++ ds')).output := by
    cases cs <;> simp [Reading.after, Reading.next, pieces]
  have herr : ((s.next url c ds).after url cs ds').err = (s.after url (c :: cs) (ds ++ ds')).err := by
    simp only [Reading.after, Reading.next, List.getLast?_append]
    cases ds'.getLast? <;> rfl
  rw [Reading.finish, houtput, herr]
  rfl

theorem loop_run : ∀ (rounds : Nat) {s : Reading} {tr : List (Sigma fun _ : Request => Response)} {o : Option Outcome},
    Exec env (readOpOutput url rounds s) tr (ret o) →
    ∃ oks : List Response, (∀ r ∈ oks, r.isSuccess = true) ∧
      ((∃ last, last.isSuccess = false ∧ repliesTo (str "GET") tr = oks ++ [last] ∧
          (0 < s.limit → (oks.length : Int) < s.limit) ∧
          (repliesTo (str "DELETE") tr).length = notes s.count (oks.map fun r => strip r.content) ∧
          o = some ((s.after url (oks.map fun r => strip r.content) (repliesTo (str "DELETE") tr)).finish url last)) ∨
       (repliesTo (str "GET") tr = oks ∧ 0 < s.limit ∧ (oks.length : Int) = s.limit ∧
          (repliesTo (str "DELETE") tr).length = notes s.count (oks.map fun r => strip r.content) + 1 ∧ o = some (none, none)) ∨
       (repliesTo (str "GET") tr = oks ∧ oks.length = rounds ∧ (0 < s.limit → (oks.length : Int) < s.limit) ∧ o = none)) := by
  intro rounds
  induction rounds with
  | zero =>
    intro s tr o h
    obtain ⟨rfl, rfl⟩ := h.ret_inv
    exact ⟨[], fun _ hr => (nomatch hr), Or.inr (Or.inr ⟨rfl, rfl, id, rfl⟩)⟩
  | succ rounds ih =>
    intro s tr o h
    obtain ⟨tr₁, tr₂, r, rfl, hround, hrest⟩ := h.bind_ret_inv
    obtain ⟨reply, hget, hcases⟩ := round_run hround
    rcases hcases with ⟨hfail, hdelete, rfl⟩ | ⟨hok, h1, rfl, hdelete⟩ | ⟨hok, h1, hdelete, rfl⟩
    · obtain ⟨rfl, rfl⟩ := hrest.ret_inv
      refine ⟨[], fun _ hr => (nomatch hr), Or.inl ⟨reply, hfail, ?_, id, ?_, ?_⟩⟩
      · rw [List.append_nil]
        exact hget
      · rw [List.append_nil, hdelete]
        rfl
      · rw [List.append_nil, hdelete]
        rfl
    · obtain ⟨rfl, rfl⟩ := hrest.ret_inv
      refine ⟨[reply], by simpa using hok, Or.inr (Or.inl ⟨?_, by omega, by simp [h1], ?_, rfl⟩)⟩
      · rw [List.append_nil]
        exact hget
      · rw [List.append_nil, hdelete]
        rfl
    · obtain ⟨oks, hoks, hcases⟩ := ih hrest
      -- a limit that is not reached is one less in the next round
      have hlimit : (s.next url (strip reply.content) (repliesTo (str "DELETE") tr₁)).limit =
          if s.limit = 0 then 0 else s.limit - 1 := rfl
      have hless : ((0 < if s.limit = 0 then 0 else s.limit - 1) →
          (oks.length : Int) < if s.limit = 0 then 0 else s.limit - 1) →
          0 < s.limit → ((reply :: oks).length : Int) < s.limit := by
        intro hlt hpos
        rw [if_neg (by omega)] at hlt
        rw [List.length_cons]
        omega
      refine ⟨reply :: oks, List.forall_mem_cons.mpr ⟨hok, hoks⟩, ?_⟩
      rw [repliesTo_append, repliesTo_append, hget, List.length_append, hdelete, List.map_cons, notes]
      rcases hcases with ⟨last, hfail, hgets, hlt, hlen, rfl⟩ | ⟨hgets, hpos, heq, hlen, rfl⟩ | ⟨hgets, heq, hlt, rfl⟩
      · refine Or.inl ⟨last, hfail, by rw [hgets]; rfl, hless (hlimit ▸ hlt), by rw [hlen]; rfl, ?_⟩
        rw [finish_next]
      · refine Or.inr (Or.inl ⟨by rw [hgets]; rfl, ?_, ?_, by rw [hlen]; exact (Nat.add_assoc _ _ _).symm, rfl⟩)
        · rw [hlimit] at hpos
          split at hpos <;> omega
        · rw [hlimit] at heq hpos
          rw [if_neg (fun h0 => by rw [if_pos h0] at hpos; omega)] at heq
          rw [List.length_cons]
          omega
      · exact Or.inr (Or.inr ⟨by rw [hgets]; rfl, by rw [List.length_cons, heq], hless (hlimit ▸ hlt), rfl⟩)

theorem pieces_eq (count : Nat) (chunks : List Str) : pieces count chunks =
    (chunks.zipIdx.map fun c => piece (count + (chunks.take c.2).count []) c.1).flatten := by
  induction chunks generalizing count with
  | nil => rfl
  | cons c cs ih =>
    have hcount : ∀ n, (if c = [] then count + 1 else count) + (cs.take n).count [] =
        count + ((c :: cs).take (n + 1)).count [] := by
      intro n
      rw [List.take_succ_cons, List.count_cons]
      by_cases hc : c = []
      · simp only [hc, if_true, beq_self_eq_true]
        omega
      · simp [hc]
    rw [pieces, ih, List.zipIdx_cons', List.map_cons, List.flatten_cons, List.map_map]
    simp only [Function.comp_def, Prod.map_fst, Prod.map_snd, id_eq, hcount]
    rfl

theorem notes_eq (count : Nat) (chunks : List Str) : notes count chunks = (count + chunks.count [] - 11) - (count - 11) := by
  induction chunks generalizing count with
  | nil => rw [notes, List.count_nil, Nat.add_zero, Nat.sub_self]
  | cons c cs ih =>
    rw [notes, ih, noted, List.count_cons]
    by_cases hc : c = []
    · simp only [hc, true_and, if_true, beq_self_eq_true]
      split <;> omega
    · simp only [hc, false_and, if_false, beq_iff_eq]
      omega

theorem round_urls : ∀ (rounds : Nat) (s : Reading),
    (readOpOutput url rounds s).wp env (fun rq => rq.url = url) True fun _ => True := by
  have hdelete : (sendDelete url).wp env (fun rq => rq.url = url) True fun _ => True := ⟨rfl, fun _ _ => trivial⟩
  have htake : ∀ (chunk : Str) (s : Reading), (takeChunk url chunk s).wp env (fun rq => rq.url = url) True fun _ => True := by
    intro chunk s
    rw [takeChunk]
    split
    · trivial
    split
    · exact (wp_bind _ _ _).mpr (wp_mono hdelete fun _ _ => trivial)
    · trivial
  have hround : ∀ s, (round url s).wp env (fun rq => rq.url = url) True fun _ => True := by
    intro s
    rw [round, wp_bind]
    refine ⟨rfl, fun r _ => ?_⟩
    show wp env _ True (if r.isSuccess = true then _ else _) _
    split
    · refine (wp_bind _ _ _).mpr (wp_mono (Q := fun _ => True) ?_ fun s' _ => htake _ s')
      split
      · rw [countBlank]
        split
        · exact (wp_bind _ _ _).mpr (wp_mono hdelete fun _ _ => trivial)
        · trivial
      · trivial
    · split <;> trivial
  intro rounds
  induction rounds with
  | zero => exact fun _ => trivial
  | succ rounds ih =>
    intro s
    refine (wp_bind _ _ _).mpr (wp_mono (hround s) fun r _ => ?_)
    cases r with
    | inl s' => exact ih s'
    | inr o => trivial

end Rounds

/-- In any run, whatever the server replies: the requests all name the output. The loop ends at a
    reply that is no success, with the text of the chunks if it is 410 and without it if it is
    another; or it ends at the limit, without any text; or the chunks go on. -/
theorem output_is_read {env : (rq : Request) → Response → Prop} {url : Str} {rounds : Nat} {limit : Int}
    {tr : List (Sigma fun _ : Request => Response)} {o : Option Outcome}
    (h : Exec env (readOpOutput url rounds (.start limit)) tr (ret o)) :
    (∀ x ∈ tr, x.1.url = url) ∧ ∃ oks : List Response, (∀ r ∈ oks, r.isSuccess = true) ∧
      ((∃ last, last.isSuccess = false ∧ repliesTo (str "GET") tr = oks ++ [last] ∧ (0 < limit → (oks.length : Int) < limit) ∧
          (repliesTo (str "DELETE") tr).length = stops (oks.map fun r => strip r.content) ∧
          o = some (if last.code = 410 then
              ((repliesTo (str "DELETE") tr).getLast?.bind (deleteError url),
                if oks = [] then none else some (shownText (oks.map fun r => strip r.content)))
            else (some (str "Failed to GET [" ++ url ++ str "] - " ++ last.statusLine), none))) ∨
       (repliesTo (str "GET") tr = oks ∧ 0 < limit ∧ (oks.length : Int) = limit ∧
          (repliesTo (str "DELETE") tr).length = stops (oks.map fun r => strip r.content) + 1 ∧ o = some (none, none)) ∨
       (repliesTo (str "GET") tr = oks ∧ oks.length = rounds ∧ (0 < limit → (oks.length : Int) < limit) ∧ o = none)) := by
  have hstops : ∀ chunks, notes (Reading.start limit).count chunks = stops chunks := by
    intro chunks
    rw [notes_eq, stops]
    show 0 + _ - 11 - 0 = _
    rw [Nat.zero_add, Nat.sub_zero]
  refine ⟨h.made (round_urls rounds _), ?_⟩
  obtain ⟨oks, hoks, hcases⟩ := loop_run rounds h
  refine ⟨oks, hoks, ?_⟩
  simp only [hstops] at hcases
  rcases hcases with ⟨last, hfail, hgets, hlt, hlen, rfl⟩ | hcases | hcases
  · refine Or.inl ⟨last, hfail, hgets, hlt, hlen, congrArg some ?_⟩
    rw [Reading.finish]
    refine congrArg (fun x => if last.code = 410 then x else _) (Prod.ext ?_ ?_)
    · show Option.getD _ none = _
      cases (repliesTo (str "DELETE") tr).getLast? <;> rfl
    · show (if List.map _ oks = [] then none else some ([] ++ pieces 0 _)) = _
      simp only [List.map_eq_nil_iff, List.nil_append, pieces_eq, Nat.zero_add]
      rfl
  · exact Or.inr (Or.inl hcases)
  · exact Or.inr (Or.inr hcases)

/-! ## A server with a state -/

section Served

variable {σ : Type} {answer : σ → (rq : Request) → Option (Response × σ)} {url : Str}

/-- The replies to one request for the output after another. -/
def Gives (answer : σ → (rq : Request) → Option (Response × σ)) (url : Str) : σ → List Response → σ → Prop
  | s, [], t => s = t
  | s, r :: rs, t => ∃ s', answer s ⟨str "GET", url⟩ = some (r, s') ∧ Gives answer url s' rs t

/-- Without a limit and with few chunks that have nothing to show, the chunks up to 410 come back
    in one piece. -/
theorem readOpOutput_gives {last : Response} {t' : σ} (hcode : last.code = 410) :
    ∀ {oks : List Response} {s t : σ} {r : Reading} {rounds : Nat},
    Gives answer url s oks t → (∀ ok ∈ oks, ok.isSuccess = true) → answer t ⟨str "GET", url⟩ = some (last, t') →
    r.limit = 0 → r.count + (oks.map fun ok => strip ok.content).count [] ≤ 11 →
    oks.length + 1 ≤ rounds → (readOpOutput url rounds r).interp answer s =
      some (some (r.err, if oks = [] then r.output else some (r.output.getD [] ++ (oks.map fun ok => strip ok.content).flatten)),
        t') := by
  have hfail : last.isSuccess = false := by
    rw [Response.isSuccess, hcode]
    decide
  intro oks
  induction oks with
  | nil =>
    intro s t r rounds hgives _ hlast hlimit _ hrounds
    obtain ⟨rounds, rfl⟩ := Nat.exists_eq_add_of_le' hrounds
    cases hgives
    have hround : (round url r).interp answer s = some (.inr (r.err, r.output), t') := by
      rw [round]
      refine (interp_perform hlast _).trans ?_
      rw [hfail, hcode]
      rfl
    rw [List.length_nil, Nat.zero_add, readOpOutput, interp_bind, hround]
    rfl
  | cons ok oks ih =>
    intro s t r rounds hgives hoks hlast hlimit hcount hrounds
    obtain ⟨rounds, rfl⟩ := Nat.exists_eq_add_of_le' hrounds
    obtain ⟨s', hs', hrest⟩ := hgives
    obtain ⟨hok, hoks⟩ := List.forall_mem_cons.mp hoks
    rw [List.map_cons, List.count_cons] at hcount
    -- no chunk makes a note
    obtain ⟨r', hround, hlimit', herr, houtput, hcount'⟩ : ∃ r' : Reading, (round url r).interp answer s = some (.inl r', s') ∧
        r'.limit = 0 ∧ r'.err = r.err ∧ r'.output = some (r.output.getD [] ++ strip ok.content) ∧
        r'.count + (oks.map fun ok => strip ok.content).count [] ≤ 11 := by
      have hblank : (if strip ok.content = [] then countBlank url r else pure r) =
          (pure (if strip ok.content = [] then { r with count := r.count + 1 } else r) : Wire Reading) := by
        split
        · rename_i hnil
          rw [hnil] at hcount
          rw [countBlank, if_neg (by simp at hcount; omega)]
        · rfl
      refine ⟨(if strip ok.content = [] then { r with count := r.count + 1 } else r).add (strip ok.content), ?_, ?_, ?_, ?_, ?_⟩
      · rw [round]
        refine (interp_perform hs' _).trans ?_
        rw [hok, if_pos rfl]
        simp only
        rw [hblank, ret_bind, takeChunk, if_pos (by split <;> exact hlimit)]
        rfl
      · split <;> exact hlimit
      · split <;> rfl
      · split <;> rfl
      · split
        · rename_i hnil
          rw [hnil] at hcount
          simp only [beq_self_eq_true, if_true] at hcount
          show r.count + 1 + _ ≤ 11
          omega
        · show r.count + _ ≤ 11
          omega
    rw [List.length_cons, ← Nat.add_assoc, readOpOutput, interp_bind, hround, Option.bind_some]
    refine (ih hrest hoks hlast hlimit' hcount' (Nat.le_add_left _ _)).trans ?_
    rw [herr, houtput, if_neg (List.cons_ne_nil _ _), List.map_cons, List.flatten_cons]
    cases oks <;> simp

end Served

/-! ## The word that is refused -/

section Words

variable {env : (rq : Request) → Response → Prop} {target : Str}

/-- The question about the beginning of a path; the beginning has a slash of its own. -/
def question (target start : Str) : Request := ⟨str "GET", base target ++ str "rest/op/" ++ start ++ str "/"⟩

/-- Words, each with a slash behind it. -/
def slashed (words : List Str) : Str := words.flatMap (· ++ [47])

theorem intercalate_slashed {words : List Str} (hne : words ≠ []) : [47].intercalate words ++ [47] = slashed words := by
  induction words with
  | nil => exact absurd rfl hne
  | cons w ws ih =>
    cases ws with
    | nil => simp [slashed]
    | cons w' ws =>
      rw [List.intercalate_cons_cons, List.append_assoc, ih (List.cons_ne_nil _ _)]
      simp [slashed]

theorem isOpCmdValid_run {path : Str} {tr : List (Sigma fun _ : Request => Response)} {b : Bool}
    (h : Exec env (isOpCmdValid target path) tr (ret b)) : ∃ r, tr = [⟨question target path, r⟩] ∧ b = r.isSuccess := by
  rw [isOpCmdValid] at h
  obtain ⟨r, tr', -, rfl, hret⟩ := send_run h
  obtain ⟨rfl, rfl⟩ := hret.ret_inv
  exact ⟨r, rfl, rfl⟩

/-- The loop runs over a word without a request. -/
theorem lastValidFrom_word {w : Str} (hw : (47 : UInt8) ∉ w) (done rest : Str) :
    lastValidFrom target done (w ++ rest) = lastValidFrom target (done ++ w) rest := by
  induction w generalizing done with
  | nil => rw [List.nil_append, List.append_nil]
  | cons b w ih =>
    rw [List.mem_cons, not_or] at hw
    rw [List.cons_append, lastValidFrom, if_pos (Ne.symm hw.1), ih hw.2, List.append_assoc]
    rfl

theorem lastPart_word {w : Str} (hw : (47 : UInt8) ∉ w) {done : Str} (hd : done ≠ [] → done.getLast? = some 47) :
    lastPart (done ++ w) = w := by
  have hall : ∀ b ∈ w.reverse, (decide (b ≠ 47)) = true := by
    intro b hb
    rw [List.mem_reverse] at hb
    exact decide_eq_true fun heq => hw (heq ▸ hb)
  rw [lastPart, List.reverse_append, List.takeWhile_append_of_pos hall]
  rcases List.eq_nil_or_concat' done with rfl | ⟨d, b, rfl⟩
  · simp
  · have hb : b = 47 := by simpa using hd (by simp)
    have hrev : (d ++ [47]).reverse = 47 :: d.reverse := by simp
    rw [hb, hrev, List.takeWhile_cons_of_neg (by decide), List.append_nil, List.reverse_reverse]

/-- The search asks for one beginning after another, up to the first that is refused. -/
theorem lastValidFrom_run : ∀ (words : List Str) {done : Str} {tr : List (Sigma fun _ : Request => Response)} {o : Option Str},
    (∀ w ∈ words, (47 : UInt8) ∉ w ∧ w ≠ []) → (done ≠ [] → done.getLast? = some 47) →
    Exec env (lastValidFrom target done (slashed words)) tr (ret o) →
    (∃ i, ∃ hi : i < words.length,
      tr.map (·.1) = (List.range (i + 1)).map (fun j => question target (done ++ slashed (words.take (j + 1)))) ∧
      tr.map (·.2.isSuccess) = List.replicate i true ++ [false] ∧ o = some words[i]) ∨
    (tr.map (·.1) = (List.range words.length).map (fun j => question target (done ++ slashed (words.take (j + 1)))) ∧
      (∀ x ∈ tr, x.2.isSuccess = true) ∧ o = none) := by
  intro words
  induction words with
  | nil =>
    intro done tr o _ _ h
    obtain ⟨rfl, rfl⟩ := h.ret_inv
    exact Or.inr ⟨rfl, fun _ hx => (nomatch hx), rfl⟩
  | cons w ws ih =>
    intro done tr o hwords hdone h
    obtain ⟨⟨hw, hne⟩, hws⟩ := List.forall_mem_cons.mp hwords
    have hsplit : slashed (w :: ws) = w ++ 47 :: slashed ws := by simp [slashed]
    have hfirst : done ++ slashed ((w :: ws).take (0 + 1)) = done ++ w ++ [47] := by simp [slashed]
    have hlater : ∀ j, done ++ slashed ((w :: ws).take (j + 1 + 1)) = done ++ w ++ [47] ++ slashed (ws.take (j + 1)) := by
      intro j
      simp [slashed]
    rw [hsplit, lastValidFrom_word hw, lastValidFrom, if_neg (by decide), if_neg (by simp [hne])] at h
    obtain ⟨tr₁, tr₂, b, rfl, hask, hrest⟩ := h.bind_ret_inv
    obtain ⟨r, rfl, rfl⟩ := isOpCmdValid_run hask
    rcases hr : r.isSuccess with _ | _
    · rw [hr] at hrest
      obtain ⟨rfl, rfl⟩ := hrest.ret_inv
      refine Or.inl ⟨0, Nat.zero_lt_succ _, ?_, ?_, ?_⟩
      · rw [List.range_one, List.map_singleton, hfirst]
        rfl
      · simp [hr]
      · rw [lastPart_word hw hdone]
        rfl
    · rw [hr] at hrest
      rcases ih hws (fun _ => by simp) hrest with ⟨i, hi, hasked, hreplies, rfl⟩ | ⟨hasked, hreplies, rfl⟩
      · refine Or.inl ⟨i + 1, Nat.succ_lt_succ hi, ?_, ?_, rfl⟩
        · rw [List.singleton_append, List.map_cons, hasked, List.range_succ_eq_map (n := i + 1), List.map_cons,
            hfirst, List.map_map]
          simp only [Function.comp_def, Nat.succ_eq_add_one, hlater]
        · rw [List.singleton_append, List.map_cons, hreplies, hr]
          rfl
      · refine Or.inr ⟨?_, ?_, rfl⟩
        · rw [List.singleton_append, List.map_cons, hasked, List.length_cons, List.range_succ_eq_map, List.map_cons,
            hfirst, List.map_map]
          simp only [Function.comp_def, Nat.succ_eq_add_one, hlater]
        · rw [List.singleton_append, List.forall_mem_cons]
          exact ⟨hr, hreplies⟩

end Words

/-- The path of a command is made of words. -/
theorem cmd2path_words {safe : UInt8 → Bool} (hsafe : EscapeSet safe) (cmd : Str) :
    ∃ words : List Str, (∀ w ∈ words, (47 : UInt8) ∉ w ∧ w ≠ []) ∧ cmd2path safe cmd = [47].intercalate words := by
  have hsplit : ∀ t, ∀ w ∈ splitWords t, w ≠ [] := fun t w hw => by simpa using (List.mem_filter.mp hw).2
  have hleaf : ∀ {q : UInt8} {path leaf : Str}, leafMatch q cmd = some (path, leaf) → leaf ≠ [] := by
    intro q path leaf h
    simp only [leafMatch] at h
    generalize (if cmd.getLast? = some 10 then cmd.dropLast else cmd) = line at h
    split at h
    · cases h
    · rename_i hcond
      simp only [not_or] at hcond
      obtain ⟨-, hlast, hmem⟩ := hcond
      obtain ⟨-, rfl⟩ := Prod.mk.inj (Option.some.inj h)
      intro hnil
      have hpos := List.length_pos_of_mem (not_not.mp hmem)
      have hlen := congrArg List.length hnil
      rw [List.length_drop, List.length_nil] at hlen
      rw [List.length_dropLast] at hpos hlen
      omega
  have hescape : ∀ t : Str, t ≠ [] → escapeToken safe t ≠ [] := by
    intro t ht
    obtain ⟨b, t, rfl⟩ := List.exists_cons_of_ne_nil ht
    rw [escapeToken_eq, percentEncode, List.flatMap_cons]
    split <;> simp
  have hall : ∀ tokens : List Str, (∀ t ∈ tokens, t ≠ []) →
      ∀ w ∈ tokens.map (escapeToken safe), (47 : UInt8) ∉ w ∧ w ≠ [] := by
    intro tokens ht w hw
    obtain ⟨t, htm, rfl⟩ := List.mem_map.mp hw
    exact ⟨slash_notMem_escapeToken hsafe t, hescape t (ht t htm)⟩
  refine ⟨_, hall _ ?_, rfl⟩
  have happend : ∀ (t : Str) {leaf : Str}, leaf ≠ [] → ∀ w ∈ splitWords t ++ [leaf], w ≠ [] := by
    intro t leaf hl w hw
    rcases List.mem_append.mp hw with hw | hw
    · exact hsplit t w hw
    · rwa [List.mem_singleton.mp hw]
  split
  · rename_i h
    exact happend _ (hleaf h)
  · split
    · rename_i h
      exact happend _ (hleaf h)
    · exact hsplit cmd

/-- In any run in which the server does not know the command: nothing is started, the client asks
    for one beginning after another, and names the first word whose beginning is refused. -/
theorem refused_word {env : (rq : Request) → Response → Prop} {safe : UInt8 → Bool} (hsafe : EscapeSet safe) {rounds : Nat}
    {target cmd : Str} {limit : Option Int} {r : Response} {tr : List (Sigma fun _ : Request => Response)} {o : Option Outcome}
    (h : Exec env (runOpCmd safe rounds target cmd limit) (⟨question target (cmd2path safe cmd), r⟩ :: tr) (ret o))
    (hr : r.isSuccess = false) :
    ∃ words : List Str, (∀ w ∈ words, (47 : UInt8) ∉ w ∧ w ≠ []) ∧ cmd2path safe cmd = [47].intercalate words ∧
      ((∃ i, ∃ hi : i < words.length,
          tr.map (·.1) = (List.range (i + 1)).map (fun j => question target (slashed (words.take (j + 1)))) ∧
          tr.map (·.2.isSuccess) = List.replicate i true ++ [false] ∧
          o = some (some (str "Invalid cmd [" ++ cmd ++ str "] at [" ++ words[i] ++ str "]"), none)) ∨
       (tr.map (·.1) = (List.range words.length).map (fun j => question target (slashed (words.take (j + 1)))) ∧
          (∀ x ∈ tr, x.2.isSuccess = true) ∧
          o = some (some (str "Invalid cmd [" ++ cmd ++ str "] at []"), none))) := by
  obtain ⟨words, hwords, hpath⟩ := cmd2path_words hsafe cmd
  refine ⟨words, hwords, hpath, ?_⟩
  rw [runOpCmd] at h
  obtain ⟨tr₁, tr₂, b, htr, hask, hrest⟩ := h.bind_ret_inv
  obtain ⟨r', rfl, rfl⟩ := isOpCmdValid_run hask
  obtain ⟨hx, rfl⟩ := List.cons.inj htr
  obtain rfl : r = r' := by cases hx; rfl
  rw [hr] at hrest
  obtain ⟨tr₁, tr₂, last, rfl, hfind, hret⟩ := hrest.bind_ret_inv
  obtain ⟨rfl, rfl⟩ := hret.ret_inv
  rw [List.append_nil]
  rw [findOpLastValid, hpath] at hfind
  have hnone : str "] at []" = str "] at [" ++ str "]" := by decide
  by_cases hne : words = []
  · -- the loop ends at once
    subst hne
    obtain ⟨rfl, rfl⟩ := hfind.ret_inv
    exact Or.inr ⟨rfl, fun _ hx => (nomatch hx), by simp [hnone]⟩
  · rw [show str "/" = [47] by decide, intercalate_slashed hne] at hfind
    have hstart : ([] : Str) ≠ [] → ([] : Str).getLast? = some 47 := fun h => absurd rfl h
    rcases lastValidFrom_run words hwords hstart hfind with ⟨i, hi, hasked, hreplies, rfl⟩ | ⟨hasked, hreplies, rfl⟩
    · exact Or.inl ⟨i, hi, hasked, hreplies, rfl⟩
    · exact Or.inr ⟨hasked, hreplies, by simp [hnone]⟩

/-! ## Two runs -/

def reply (code : Nat) (content : String) : Response :=
  ⟨code, dec code, none, none, str content, none, str "HTTP::Response=HASH(0x1)"⟩

def outputUrl : Str := base (str "router") ++ str "rest/op/0123456789ABCDEF"

def got (code : Nat) (content : String) : Sigma fun _ : Request => Response := ⟨⟨str "GET", outputUrl⟩, reply code content⟩

def pingTrace : List (Sigma fun _ : Request => Response) := [got 202 "", got 200 "one\n", got 200 "two\n", got 410 ""]

theorem a_ping_is_read : ∃ tr o, Exec (fun _ _ => True) (readOpOutput outputUrl 5 (.start 0)) tr (ret o) ∧
    o = some (none, some (str "one\ntwo\n")) ∧ ∀ x ∈ tr, x.1.url = outputUrl := by
  have hrun : (((readOpOutput outputUrl 5 (.start 0)).replay pingTrace).bind result?).any
      (fun o => o = some (none, some (str "one\ntwo\n"))) = true := by decide
  obtain ⟨o, hexec, ho⟩ := exec_ret_free hrun
  exact ⟨_, o, hexec, by simpa using ho, (output_is_read hexec).1⟩

/-- With a limit of two, the second chunk ends the loop and the first is not returned. -/
theorem a_limit_loses_the_output : ∃ o, Exec (fun _ _ => True) (readOpOutput outputUrl 5 (.start 2))
    [got 200 "one\n", got 200 "two\n", ⟨⟨str "DELETE", outputUrl⟩, reply 200 ""⟩] (ret o) ∧ o = some (none, none) := by
  have hrun : (((readOpOutput outputUrl 5 (.start 2)).replay [got 200 "one\n", got 200 "two\n",
      ⟨⟨str "DELETE", outputUrl⟩, reply 200 ""⟩]).bind result?).any (fun o => o = some (none, none)) = true := by decide
  obtain ⟨o, hexec, ho⟩ := exec_ret_free hrun
  exact ⟨o, hexec, by simpa using ho⟩

def asked (code : Nat) (path : String) : Sigma fun _ : Request => Response :=
  ⟨question (str "router") (str path), reply code ""⟩

/-- `show` is a command, `show foo` is none. -/
theorem an_unknown_word_is_named :
    ∃ tr o, Exec (fun _ _ => True) (runOpCmd isUnreserved 5 (str "router") (str "show foo bar") none)
      (⟨question (str "router") (cmd2path isUnreserved (str "show foo bar")), reply 400 ""⟩ :: tr) (ret o) ∧
    o = some (some (str "Invalid cmd [show foo bar] at [foo]"), none) ∧
    ∃ words : List Str, (∀ w ∈ words, (47 : UInt8) ∉ w ∧ w ≠ []) ∧
      cmd2path isUnreserved (str "show foo bar") = [47].intercalate words := by
  have hrun : (((runOpCmd isUnreserved 5 (str "router") (str "show foo bar") none).replay
      [asked 400 "show/foo/bar", asked 200 "show/", asked 404 "show/foo/"]).bind result?).any
      (fun o => o = some (some (str "Invalid cmd [show foo bar] at [foo]"), none)) = true := by decide
  obtain ⟨o, hexec, ho⟩ := exec_ret_free hrun
  have hexec : Exec (fun _ _ => True) (runOpCmd isUnreserved 5 (str "router") (str "show foo bar") none)
      (⟨question (str "router") (cmd2path isUnreserved (str "show foo bar")), reply 400 ""⟩ ::
        [asked 200 "show/", asked 404 "show/foo/"]) (ret o) := hexec
  obtain ⟨words, hwords, hpath, -⟩ := refused_word ⟨fun _ h => h, fun _ h => Or.inl h⟩ hexec rfl
  exact ⟨_, o, hexec, by simpa using ho, words, hwords, hpath⟩

end VyattaRest.RestClient.Op
