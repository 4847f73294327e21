/-
  VyattaRest.Chunker.Wire — the request messages between the REST server and the
  chunker: `MultiResponseCommand` formats them (multirespcmd.cc), the head of
  `ChunkerManager::process` takes them apart (chunker2_manager.cc).

  The sender substitutes token, statement and user into a fixed text with `%s`, with no
  escaping, and writes a zeroed 1024-byte buffer. The receiver looks for each of the
  tags `<token>`, `</token>`, `<statement>`, `</statement>`, `<user>`, `</user>` and the
  five kind tags on its own, by first occurrence over the whole buffer.

  The statement comes from the URL and stands before the user field, so a statement
  holding one of the tags after it decides what the receiver sees:
  - `request_decoded_iff`: the receiver gets the kind, token, statement and user that
    were sent exactly when the message carries no statement, or its statement is clean
    (`CleanStatement`): no `</statement>`, and no user tag before the real user field
    other than a copy of that very field.
  - `a_statement_names_another_user`: the path `show/%3Cuser%3Eroot%3C%2Fuser%3E` sent
    for `guest` is started as `root`.
-/

import VyattaRest.Common
import VyattaRest.Lib.Markup

namespace VyattaRest.Chunker

open VyattaRest.Lib VyattaRest.Rest

inductive Kind where
  | command
  | process
  | details
  | next
  | delete
  deriving DecidableEq, Repr

/-! ## The sender -/

/-- The text a request formats. `get_processes` sends a fixed token. -/
def message (k : Kind) (tok stmt user : Str) : Str :=
  match k with
  | .command => sprintfS chunkerCommandFormat [tok, stmt, user]
  | .process => sprintfS chunkerProcessFormat [str "123456", user]
  | .details => sprintfS chunkerDetailsFormat [tok, user]
  | .next => sprintfS chunkerNextFormat [tok, user]
  | .delete => sprintfS chunkerDeleteFormat [tok, user]

/-- What is written to the socket, if anything: `start` needs a full token, the other
    requests a user, and a token where they carry one. -/
def request (k : Kind) (tok stmt user : Str) : Option Str :=
  match k with
  | .command => if tok.length < 16 then none else some (message k tok stmt user)
  | .process => if user.isEmpty then none else some (message k tok stmt user)
  | .details | .next | .delete => if user.isEmpty || tok.isEmpty then none else some (message k tok stmt user)

/-- The 1024 bytes of the zeroed buffer, as the receiver reads them back as a C string. -/
def received (m : Str) : Str := cstr (m ++ List.replicate (1024 - m.length) 0)

/-! ## The receiver -/

structure Fields where
  token : Str
  statement : Str
  user : Str
  deriving DecidableEq, Repr

/-- The head of `process`: without a token the message is ignored. -/
def fields (command : Str) : Option Fields :=
  match between command (str "<token>") (str "</token>") with
  | none => none
  | some token =>
    some { token
           statement := (between command (str "<statement>") (str "</statement>")).getD []
           user := (between command (str "<user>") (str "</user>")).getD [] }

def Kind.tag : Kind → Str
  | .command => str "<command>"
  | .process => str "<process>"
  | .details => str "<details>"
  | .next => str "<next>"
  | .delete => str "<delete>"

/-- The branch `process` takes. -/
def branch (command : Str) : Option Kind :=
  if contains command Kind.command.tag then some .command
  else if contains command Kind.process.tag then some .process
  else if contains command Kind.details.tag then some .details
  else if contains command Kind.next.tag then some .next
  else if contains command Kind.delete.tag then some .delete
  else none

/-! ## Messages as pieces -/

def Kind.endTag : Kind → Str
  | .command => str "</command>"
  | .process => str "</process>"
  | .details => str "</details>"
  | .next => str "</next>"
  | .delete => str "</delete>"

/-- The token a kind puts on the wire, and its statement field. -/
def Kind.sentToken (k : Kind) (tok : Str) : Str := if k = .process then str "123456" else tok
def Kind.sentStatement (k : Kind) (stmt : Str) : Str := if k = .command then stmt else []

def Kind.body (k : Kind) (stmt : Str) : List (Str × Str) :=
  if k = .command then [(str "<statement>", stmt), (str "</statement>", [])] else []

def head (k : Kind) (tok : Str) : List (Str × Str) :=
  [(str "<vyatta>", []), (k.tag, []), (str "<token>", tok), (str "</token>", [])]

def pieces (k : Kind) (tok stmt user : Str) : List (Str × Str) :=
  head k (k.sentToken tok) ++ k.body stmt ++
    [(str "<user>", user), (str "</user>", []), (k.endTag, []), (str "</vyatta>", [])]

/-- The tags of a message, in order. -/
def Kind.tags (k : Kind) : List Str :=
  [str "<vyatta>", k.tag, str "<token>", str "</token>"] ++
    (if k = .command then [str "<statement>", str "</statement>"] else []) ++
    [str "<user>", str "</user>", k.endTag, str "</vyatta>"]

theorem pieces_tags (k : Kind) (tok stmt user : Str) : (pieces k tok stmt user).map (·.1) = k.tags := by
  cases k <;> rfl

theorem mem_pieces_tag {k : Kind} {tok stmt user : Str} {p : Str × Str} (h : p ∈ pieces k tok stmt user) :
    p.1 ∈ k.tags := by
  rw [← pieces_tags k tok stmt user]; exact List.mem_map_of_mem h

theorem mem_pieces_text {k : Kind} {tok stmt user : Str} {p : Str × Str} (h : p ∈ pieces k tok stmt user) :
    p.2 = [] ∨ p.2 = k.sentToken tok ∨ (k = .command ∧ p.2 = stmt) ∨ p.2 = user := by
  have hmem : p.2 ∈ (pieces k tok stmt user).map (·.2) := List.mem_map_of_mem h
  revert hmem
  generalize p.2 = x
  cases k <;> simp [pieces, head, Kind.body] <;> tauto

theorem head_plain {k : Kind} {tok : Str} (ht : (60 : UInt8) ∉ tok) : ∀ p ∈ head k tok, (60 : UInt8) ∉ p.2 := by
  intro p hp
  simp only [head, List.mem_cons, List.not_mem_nil, or_false] at hp
  rcases hp with rfl | rfl | rfl | rfl
  · simp
  · simp
  · exact ht
  · simp

/-- A tag that is none of the fixed head's is not found there. -/
theorem findPieces_head {pat : Str} (hp : isMarkup pat = true) {k : Kind} {tok : Str} (ht : (60 : UInt8) ∉ tok)
    (hne : pat ∉ (head k []).map (·.1)) : findPieces pat (head k tok) = none :=
  findPieces_plain hp (head_plain ht) hne

theorem pieces_tagged (k : Kind) (tok stmt user : Str) : Tagged (pieces k tok stmt user) := by
  have ht : ∀ t ∈ k.tags, isMarkup t = true := by cases k <;> decide
  exact fun p hp => ht p.1 (mem_pieces_tag hp)

theorem message_eq {k : Kind} {tok stmt user : Str} (ht : (0 : UInt8) ∉ tok) (hs : (0 : UInt8) ∉ stmt)
    (hu : (0 : UInt8) ∉ user) : message k tok stmt user = render (pieces k tok stmt user) := by
  cases k <;> rw [message]
  case command =>
    rw [show chunkerCommandFormat = str "<vyatta><command><token>" ++ (str "%s" ++ (str "</token><statement>" ++
        (str "%s" ++ (str "</statement><user>" ++ (str "%s" ++ str "</user></command></vyatta>"))))) by decide,
      sprintfS_text (by decide), sprintfS_arg, sprintfS_text (by decide), sprintfS_arg, sprintfS_text (by decide),
      sprintfS_arg, sprintfS_no_args, cstr_of_notMem ht, cstr_of_notMem hs, cstr_of_notMem hu]
    rfl
  case process =>
    rw [sprintfS_two (a := str "<vyatta><process><token>") (b := str "</token><user>")
      (c := str "</user></process></vyatta>") (by decide) (by decide) (by decide), cstr_of_notMem hu]
    rfl
  case details =>
    rw [sprintfS_two (a := str "<vyatta><details><token>") (b := str "</token><user>")
      (c := str "</user></details></vyatta>") (by decide) (by decide) (by decide), cstr_of_notMem ht, cstr_of_notMem hu]
    rfl
  case next =>
    rw [sprintfS_two (a := str "<vyatta><next><token>") (b := str "</token><user>")
      (c := str "</user></next></vyatta>") (by decide) (by decide) (by decide), cstr_of_notMem ht, cstr_of_notMem hu]
    rfl
  case delete =>
    rw [sprintfS_two (a := str "<vyatta><delete><token>") (b := str "</token><user>")
      (c := str "</user></delete></vyatta>") (by decide) (by decide) (by decide), cstr_of_notMem ht, cstr_of_notMem hu]
    rfl

theorem sentToken_notMem {b : UInt8} (hb : b ∉ str "123456") {k : Kind} {tok : Str} (ht : b ∉ tok) :
    b ∉ k.sentToken tok := by
  unfold Kind.sentToken; split
  · exact hb
  · exact ht

/-- A message without a NUL arrives as it was formatted. -/
theorem received_message {k : Kind} {tok stmt user : Str} (ht : (0 : UInt8) ∉ tok) (hs : (0 : UInt8) ∉ stmt)
    (hu : (0 : UInt8) ∉ user) : received (message k tok stmt user) = render (pieces k tok stmt user) := by
  have htags : ∀ t ∈ k.tags, (0 : UInt8) ∉ t := by cases k <;> decide
  rw [message_eq ht hs hu]
  refine cstr_append_zeros ?_ _
  rw [render, List.mem_flatten]
  intro h
  obtain ⟨l, hl, h0⟩ := h
  obtain ⟨p, hp, rfl⟩ := List.mem_map.mp hl
  rcases List.mem_append.mp h0 with h0 | h0
  · exact htags p.1 (mem_pieces_tag hp) h0
  · rcases mem_pieces_text hp with e | e | ⟨-, e⟩ | e <;> rw [e] at h0
    · cases h0
    · exact sentToken_notMem (by decide) ht h0
    · exact hs h0
    · exact hu h0

/-! ## The branch -/

theorem contains_pieces {pat : Str} (hp : isMarkup pat = true) (k : Kind) (tok stmt user : Str) :
    contains (render (pieces k tok stmt user)) pat = (findPieces pat (pieces k tok stmt user)).isSome := by
  rw [contains, find_render hp (pieces_tagged k tok stmt user)]

theorem contains_own_tag (k : Kind) (tok stmt user : Str) :
    contains (render (pieces k tok stmt user)) k.tag = true := by
  rw [contains_pieces (by cases k <;> decide)]
  refine findPieces_isSome_of_mem ?_
  rw [pieces_tags]
  cases k <;> decide

/-- Without a statement field no other kind's tag occurs. -/
theorem not_contains_other_tag {k k' : Kind} (hk : k ≠ .command) (hne : k' ≠ k) {tok stmt user : Str}
    (ht : (60 : UInt8) ∉ tok) (hu : (60 : UInt8) ∉ user) :
    contains (render (pieces k tok stmt user)) k'.tag = false := by
  rw [contains_pieces (by cases k' <;> decide), findPieces_plain (by cases k' <;> decide)]
  · rfl
  · intro p hp
    rcases mem_pieces_text hp with e | e | ⟨e, -⟩ | e
    · simp [e]
    · rw [e]; exact sentToken_notMem (by decide) ht
    · exact absurd e hk
    · rw [e]; exact hu
  · rw [pieces_tags]; revert hk hne; cases k <;> cases k' <;> decide

theorem branch_pieces {k : Kind} {tok stmt user : Str} (ht : (60 : UInt8) ∉ tok) (hu : (60 : UInt8) ∉ user) :
    branch (render (pieces k tok stmt user)) = some k := by
  have own := contains_own_tag k tok stmt user
  have other : k ≠ .command → ∀ k' ≠ k, contains (render (pieces k tok stmt user)) k'.tag = false :=
    fun hk k' hne => not_contains_other_tag hk hne ht hu
  unfold branch
  cases k with
  | command => exact if_pos own
  | process =>
    have h := other (by decide)
    rw [h .command (by decide), own]
    rfl
  | details =>
    have h := other (by decide)
    rw [h .command (by decide), h .process (by decide), own]
    rfl
  | next =>
    have h := other (by decide)
    rw [h .command (by decide), h .process (by decide), h .details (by decide), own]
    rfl
  | delete =>
    have h := other (by decide)
    rw [h .command (by decide), h .process (by decide), h .details (by decide), h .next (by decide), own]
    rfl

/-! ## The fields -/

/-- The token field stands before everything that is not fixed. -/
theorem between_token {k : Kind} {tok stmt user : Str} (ht : (60 : UInt8) ∉ tok)
    (hlen : (render (pieces k tok stmt user)).length < 2 ^ 64) :
    between (render (pieces k tok stmt user)) (str "<token>") (str "</token>") = some (k.sentToken tok) := by
  have e : pieces k tok stmt user = [(str "<vyatta>", []), (k.tag, [])] ++ (str "<token>", k.sentToken tok) ::
      (str "</token>", []) :: (k.body stmt ++
        [(str "<user>", user), (str "</user>", []), (k.endTag, []), (str "</vyatta>", [])]) := by
    simp [pieces, head]
  have hq : Tagged (k.body stmt ++ [(str "<user>", user), (str "</user>", []), (k.endTag, []), (str "</vyatta>", [])]) :=
    fun p hp => pieces_tagged k tok stmt user p (by rw [e]; simp only [List.mem_append, List.mem_cons] at hp ⊢; tauto)
  rw [e] at hlen ⊢
  refine between_render (by decide) (by decide) (by decide) ?_ hq ?_ ?_ ?_ hlen
  · cases k <;> decide
  · cases k <;> decide
  · cases k <;> decide
  · exact find_none_of_notMem (isMarkup_tag (by decide)) (sentToken_notMem (by decide) ht)

/-- A kind without a statement field gives its user field, and no statement. -/
theorem fields_plain {k : Kind} (hk : k ≠ .command) {tok stmt user : Str} (ht : (60 : UInt8) ∉ tok)
    (hu : (60 : UInt8) ∉ user) (hlen : (render (pieces k tok stmt user)).length < 2 ^ 64) :
    fields (render (pieces k tok stmt user)) = some ⟨k.sentToken tok, [], user⟩ := by
  have hstmt : find (str "<statement>") (render (pieces k tok stmt user)) = none := by
    rw [find_render (by decide) (pieces_tagged k tok stmt user)]
    refine findPieces_plain (by decide) (fun p hp => ?_) ?_
    · rcases mem_pieces_text hp with e | e | ⟨e, -⟩ | e
      · simp [e]
      · rw [e]; exact sentToken_notMem (by decide) ht
      · exact absurd e hk
      · rw [e]; exact hu
    · rw [pieces_tags]; revert hk; cases k <;> decide
  have e : pieces k tok stmt user = head k (k.sentToken tok) ++ (str "<user>", user) :: (str "</user>", []) ::
      [(k.endTag, []), (str "</vyatta>", [])] := by
    simp [pieces, Kind.body, hk]
  have huser : between (render (pieces k tok stmt user)) (str "<user>") (str "</user>") = some user := by
    have ht' := sentToken_notMem (k := k) (by decide) ht
    have hp : Tagged (head k (k.sentToken tok)) := fun p hp =>
      pieces_tagged k tok stmt user p (by rw [e]; exact List.mem_append_left _ hp)
    rw [e] at hlen ⊢
    refine between_render (by decide) (by decide) (by decide) hp (by cases k <;> decide) ?_ ?_ ?_ hlen
    · exact findPieces_head (by decide) ht' (by cases k <;> decide)
    · exact findPieces_head (by decide) ht' (by cases k <;> decide)
    · exact find_none_of_notMem (isMarkup_tag (by decide)) hu
  rw [fields, between_token ht hlen, huser]
  simp [between, hstmt]

/-! ## Statements -/

/-- The fixed text before the statement, and everything after it. -/
def before (tok : Str) : Str := render (head .command tok) ++ str "<statement>"
def after (user : Str) : Str :=
  str "</statement>" ++ (str "<user>" ++ (user ++ (str "</user>" ++ str "</command></vyatta>")))

theorem command_eq (tok stmt user : Str) :
    render (pieces .command tok stmt user) = before tok ++ (stmt ++ after user) := by
  have : str "</command></vyatta>" = str "</command>" ++ str "</vyatta>" := by decide
  simp [pieces, Kind.body, Kind.sentToken, Kind.endTag, render_append, before, after, this]

/-- Where a tag that is not in the fixed head is found: in the statement, else after it. -/
theorem find_command (pat : Str) (hp : isMarkup pat = true) (hne : pat ∉ (head .command []).map (·.1))
    (hs : pat ≠ str "<statement>") {tok : Str} (ht : (60 : UInt8) ∉ tok) (stmt user : Str) :
    find pat (before tok ++ (stmt ++ after user)) =
      ((find pat stmt).map (· + (before tok).length)).or
        ((find pat (after user)).map (· + (before tok ++ stmt).length)) := by
  have hhead := findPieces_head hp ht hne
  obtain ⟨w, hw⟩ : ∃ w, after user = 60 :: w :=
    ⟨str "/statement>" ++ (str "<user>" ++ (user ++ (str "</user>" ++ str "</command></vyatta>"))), rfl⟩
  have htag : Tagged (head .command tok ++ [(str "<statement>", stmt)]) := fun p h =>
    pieces_tagged .command tok stmt user p (by
      rw [pieces, Kind.body, if_pos rfl]
      simp only [Kind.sentToken, List.mem_append, List.mem_cons] at h ⊢; tauto)
  have e : before tok ++ stmt = render (head .command tok ++ [(str "<statement>", stmt)]) := by
    simp [before, render_append]
  rw [← List.append_assoc, hw, find_append_tag (isMarkup_tag hp), e, find_render hp htag, findPieces_append, hhead]
  simp only [findPieces, hs, if_false, before, List.length_append]
  cases find pat stmt <;> cases find pat (60 :: w) <;> simp
  all_goals omega

/-- The statement field ends at the first closing tag, which may be one of the statement. -/
theorem statement_field {tok stmt user : Str} (ht : (60 : UInt8) ∉ tok)
    (hlen : (before tok ++ (stmt ++ after user)).length < 2 ^ 63) :
    between (before tok ++ (stmt ++ after user)) (str "<statement>") (str "</statement>") =
      some (stmt.take ((find (str "</statement>") stmt).getD stmt.length)) := by
  have hopen : find (str "<statement>") (before tok ++ (stmt ++ after user)) =
      some (render (head .command tok)).length := by
    rw [before, List.append_assoc]
    refine find_at_tag (isMarkup_tag (by decide)) ?_ _
    rw [← find_eq_none_iff, find_render (by decide) fun p h => pieces_tagged .command tok stmt user p
      (by simp only [pieces, Kind.sentToken]; exact List.mem_append_left _ (List.mem_append_left _ h))]
    exact findPieces_head (by decide) ht (by decide)
  have hclose := find_command (str "</statement>") (by decide) (by decide) (by decide) ht stmt user
  rcases hf : find (str "</statement>") stmt with _ | i
  · have h0 : find (str "</statement>") (after user) = some 0 := find_at_tag (a := []) (isMarkup_tag (by decide)) (by decide) _
    rw [hf, h0] at hclose
    rw [Option.getD_none, List.take_length]
    exact between_slice (a := render (head .command tok)) (m := stmt) (b := after user) (by simp [before]) (by omega) hopen
      (by rw [hclose]; simp [before, Nat.add_assoc])
  · obtain ⟨a, b, rfl, rfl⟩ := find_split hf
    rw [hf] at hclose
    rw [Option.getD_some, show (a ++ str "</statement>" ++ b).take a.length = a by
      rw [List.append_assoc, List.take_left]]
    exact between_slice (a := render (head .command tok)) (m := a) (b := str "</statement>" ++ b ++ after user)
      (by simp [before]) (by omega) hopen (by rw [hclose]; simp [before, Nat.add_comm])

theorem statement_iff {tok stmt user : Str} (ht : (60 : UInt8) ∉ tok)
    (hlen : (before tok ++ (stmt ++ after user)).length < 2 ^ 63) :
    (between (before tok ++ (stmt ++ after user)) (str "<statement>") (str "</statement>")).getD [] = stmt ↔
      ¬ str "</statement>" <:+: stmt := by
  rw [statement_field ht hlen, Option.getD_some, ← find_eq_none_iff]
  rcases hf : find (str "</statement>") stmt with _ | i
  · simp
  · have hle := find_le hf
    simp only [Option.getD_some, reduceCtorEq, iff_false]
    intro h
    have := congrArg List.length h
    rw [List.length_take, show (str "</statement>").length = 12 by decide] at *
    omega

theorem after_split (user : Str) :
    after user = str "</statement>" ++ (str "<user>" ++ (user ++ (str "</user>" ++ str "</command></vyatta>"))) := rfl

theorem find_user_after {user : Str} : find (str "<user>") (after user) = some 12 := by
  rw [after_split, show 12 = (str "</statement>").length by decide]
  exact find_at_tag (isMarkup_tag (by decide)) (by decide) _

theorem find_userEnd_after {user : Str} (hu : ¬ str "</user>" <:+: user) :
    find (str "</user>") (after user) = some (18 + user.length) := by
  have e : after user = (str "</statement><user>" ++ user) ++ (str "</user>" ++ str "</command></vyatta>") := by
    have : str "</statement><user>" = str "</statement>" ++ str "<user>" := by decide
    simp [after_split, this]
  rw [e, show 18 + user.length = (str "</statement><user>" ++ user).length by
    rw [List.length_append]; rfl]
  refine find_at_tag (isMarkup_tag (by decide)) ?_ _
  have e' : str "</statement><user>" ++ user = render [(str "</statement>", []), (str "<user>", user)] := by
    have : str "</statement><user>" = str "</statement>" ++ str "<user>" := by decide
    simp [this]
  have htag : Tagged [(str "</statement>", []), (str "<user>", user)] := by
    intro p hp
    simp only [List.mem_cons, List.not_mem_nil, or_false] at hp
    rcases hp with rfl | rfl <;> exact rfl
  have hne1 : str "</user>" ≠ str "</statement>" := by decide
  have hne2 : str "</user>" ≠ str "<user>" := by decide
  rw [e', ← find_eq_none_iff, find_render (by decide) htag]
  simp only [findPieces, if_neg hne1, if_neg hne2, find_eq_none_iff.mpr hu]
  rfl

/-- The closing user tag after an opening one is looked for before it, then after it. -/
theorem find_userEnd_split (a c : Str) : find (str "</user>") (a ++ (str "<user>" ++ c)) =
    (find (str "</user>") a).or ((find (str "</user>") c).map (· + (6 + a.length))) := by
  have ht : Tag (str "</user>") 60 := isMarkup_tag (by decide)
  have e : str "<user>" ++ c = 60 :: (str "user>" ++ c) := rfl
  have h0 : (str "</user>").isPrefixOf (60 :: (str "user>" ++ c)) = false := by
    rw [← e, isMarkup_prefix (by decide) (by decide)]; decide
  rw [e, find_append_tag ht, find, h0, find_skip ht (by decide)]
  cases find (str "</user>") c with
  | none => simp
  | some i =>
    rw [show (str "user>").length = 5 by decide, if_neg (by decide)]
    simp only [Option.map_some]
    rw [show i + 5 + 1 + a.length = i + (6 + a.length) by omega]

/-- The condition on a statement under which the first user tags are the real ones, or
    a copy of them. -/
def CleanUser (stmt user : Str) : Prop :=
  (¬ str "<user>" <:+: stmt ∧ ¬ str "</user>" <:+: stmt) ∨
    ∃ a b, stmt = a ++ (str "<user>" ++ (user ++ (str "</user>" ++ b))) ∧ ¬ str "<user>" <:+: a ∧ ¬ str "</user>" <:+: a

/-- A clean statement does not end the statement field, and any user tag in it is part
    of a copy of the field that follows. -/
def CleanStatement (stmt user : Str) : Prop := ¬ str "</statement>" <:+: stmt ∧ CleanUser stmt user

/-- The clean statements whose first opening tag is at `a` go on with the field's copy. -/
theorem cleanUser_at {a c user : Str} (ha : ¬ str "<user>" <:+: a) :
    CleanUser (a ++ (str "<user>" ++ c)) user ↔ ¬ str "</user>" <:+: a ∧ ∃ b, c = user ++ (str "</user>" ++ b) := by
  have hU : Tag (str "<user>") 60 := isMarkup_tag (by decide)
  constructor
  · intro h
    rcases h with h | ⟨a', b, heq, h1, h2⟩
    · exact absurd ⟨a, c, by simp⟩ h.1
    · have hl : find (str "<user>") (a ++ (str "<user>" ++ c)) = some a'.length := by
        rw [heq]; exact find_at_tag hU h1 _
      rw [find_at_tag hU ha, Option.some.injEq] at hl
      obtain ⟨rfl, hc⟩ := List.append_inj heq hl
      exact ⟨h2, b, List.append_cancel_left hc⟩
  · intro ⟨h2, b, hc⟩
    exact Or.inr ⟨a, b, by rw [hc], ha, h2⟩

section User

variable {tok user : Str} (ht : (60 : UInt8) ∉ tok)

section

variable (hu : ¬ str "</user>" <:+: user)

include ht hu

/-- No opening user tag in the statement: the real opening tag is found. -/
theorem user_iff_no_open {stmt : Str} (hno : ¬ str "<user>" <:+: stmt)
    (hlen : (before tok ++ (stmt ++ after user)).length < 2 ^ 63) :
    (between (before tok ++ (stmt ++ after user)) (str "<user>") (str "</user>")).getD [] = user ↔
      CleanUser stmt user := by
  have hopen := find_command (str "<user>") (by decide) (by decide) (by decide) ht stmt user
  have hclose := find_command (str "</user>") (by decide) (by decide) (by decide) ht stmt user
  rw [find_user_after, find_eq_none_iff.mpr hno] at hopen
  rw [find_userEnd_after hu] at hclose
  have h12 : (str "</statement>").length = 12 := by decide
  have h6 : (str "<user>").length = 6 := by decide
  have hsplit : before tok ++ (stmt ++ after user) = (before tok ++ stmt ++ str "</statement>") ++ str "<user>" ++
      (user ++ (str "</user>" ++ str "</command></vyatta>")) := by simp [after_split]
  rcases hg : find (str "</user>") stmt with _ | j
  · rw [hg] at hclose
    rw [between_slice (a := before tok ++ stmt ++ str "</statement>") (m := user)
      (b := str "</user>" ++ str "</command></vyatta>") (by rw [hsplit]; simp) (by omega)
      (by rw [hopen]; simp [h12]; omega) (by rw [hclose]; simp [h12, h6]; omega)]
    simp only [Option.getD_some, true_iff]
    exact Or.inl ⟨hno, find_eq_none_iff.mp hg⟩
  · -- A closing tag alone: the count wraps and the field runs to the end.
    rw [hg] at hclose
    have hj := find_le hg
    rw [between_wrap (a := before tok ++ stmt ++ str "</statement>")
      (b := user ++ (str "</user>" ++ str "</command></vyatta>")) hsplit hlen (by rw [hopen]; simp [h12]; omega)
      hclose (by simp; omega)]
    simp only [Option.getD_some]
    constructor
    · intro h
      have := congrArg List.length h
      simp [show (str "</user>").length = 7 by decide] at this
    · intro h
      rcases h with h | ⟨a, b, rfl, -, -⟩
      · exact absurd (find_eq_none_iff.mpr h.2) (by rw [hg]; simp)
      · exact absurd ⟨a, user ++ (str "</user>" ++ b), by simp⟩ hno

/-- An opening user tag in the statement hides the real one. -/
theorem user_iff_open {a c : Str} (ha : ¬ str "<user>" <:+: a)
    (hlen : (before tok ++ ((a ++ (str "<user>" ++ c)) ++ after user)).length < 2 ^ 63) :
    (between (before tok ++ ((a ++ (str "<user>" ++ c)) ++ after user)) (str "<user>") (str "</user>")).getD [] = user ↔
      CleanUser (a ++ (str "<user>" ++ c)) user := by
  have hU : Tag (str "<user>") 60 := isMarkup_tag (by decide)
  have hE : Tag (str "</user>") 60 := isMarkup_tag (by decide)
  have hopen := find_command (str "<user>") (by decide) (by decide) (by decide) ht (a ++ (str "<user>" ++ c)) user
  have hclose := find_command (str "</user>") (by decide) (by decide) (by decide) ht (a ++ (str "<user>" ++ c)) user
  rw [find_at_tag hU ha] at hopen
  rw [find_userEnd_split, find_userEnd_after hu] at hclose
  have h12 : (str "</statement>").length = 12 := by decide
  have h6 : (str "<user>").length = 6 := by decide
  have h7 : (str "</user>").length = 7 := by decide
  have hlong : ∀ {x y : Str}, x ++ (str "</statement>" ++ (str "<user>" ++ (user ++ y))) ≠ user := by
    intro x y h
    have := congrArg List.length h
    simp [h12] at this
    omega
  rw [cleanUser_at ha]
  rcases hg : find (str "</user>") a with _ | j
  · have hna : ¬ str "</user>" <:+: a := find_eq_none_iff.mp hg
    rw [hg] at hclose
    rcases hc : find (str "</user>") c with _ | j
    · -- No closing tag in the statement: the field reaches into the real one.
      rw [hc] at hclose
      rw [between_slice (a := before tok ++ a) (m := c ++ (str "</statement>" ++ (str "<user>" ++ user)))
        (b := str "</user>" ++ str "</command></vyatta>") (by simp [after_split]) (by omega)
        (by rw [hopen]; simp; omega) (by rw [hclose]; simp [h12, h6]; omega)]
      simp only [Option.getD_some]
      refine ⟨fun h => absurd h ?_, fun hclean => ?_⟩
      · exact fun h => hlong (x := c) (y := []) (by simpa using h)
      · obtain ⟨-, b, hb⟩ := hclean
        exact absurd ⟨user, b, by rw [hb]; simp⟩ (find_eq_none_iff.mp hc)
    · -- Both tags in order: the slice between them.
      obtain ⟨m, d, hcs, rfl⟩ := find_split hc
      rw [hc] at hclose
      rw [between_slice (a := before tok ++ a) (m := m) (b := str "</user>" ++ d ++ after user)
        (by rw [hcs]; simp) (by omega) (by rw [hopen]; simp; omega) (by rw [hclose]; simp [h6]; omega)]
      simp only [Option.getD_some]
      constructor
      · intro h
        exact ⟨hna, d, by rw [hcs, h]; simp⟩
      · rintro ⟨-, b, hb⟩
        have : find (str "</user>") c = some user.length := by
          rw [hb]; exact find_at_tag hE hu _
        rw [hc, Option.some.injEq] at this
        rw [hb, List.append_assoc] at hcs
        exact (List.append_inj hcs this.symm).1.symm
  · -- The closing tag first: the count wraps.
    rw [hg] at hclose
    have hj := find_le hg
    rw [between_wrap (a := before tok ++ a) (b := c ++ after user) (by simp) hlen (by rw [hopen]; simp; omega)
      hclose (by simp; omega)]
    simp only [Option.getD_some]
    refine ⟨fun h => absurd h hlong, fun hclean => ?_⟩
    exact absurd (find_eq_none_iff.mpr hclean.1) (by rw [hg]; simp)

theorem user_iff_clean {stmt : Str} (hlen : (before tok ++ (stmt ++ after user)).length < 2 ^ 63) :
    (between (before tok ++ (stmt ++ after user)) (str "<user>") (str "</user>")).getD [] = user ↔
      CleanUser stmt user := by
  rcases hf : find (str "<user>") stmt with _ | i
  · exact user_iff_no_open ht hu (find_eq_none_iff.mp hf) hlen
  · obtain ⟨a, c, hs, rfl⟩ := find_split hf
    have ha : ¬ str "<user>" <:+: a := by
      have := not_infix_take_of_find (by decide) hf
      rwa [hs, List.append_assoc, List.take_left] at this
    rw [List.append_assoc] at hs
    subst hs
    exact user_iff_open ht hu ha hlen

end

include ht in
/-- The slice up to the first closing tag holds none, and one that wraps goes on past the user. -/
theorem user_not_closed {stmt : Str} (hlen : (before tok ++ (stmt ++ after user)).length < 2 ^ 63)
    (h : (between (before tok ++ (stmt ++ after user)) (str "<user>") (str "</user>")).getD [] = user) :
    ¬ str "</user>" <:+: user := by
  intro hin
  have hopen := find_command (str "<user>") (by decide) (by decide) (by decide) ht stmt user
  have hclose : (find (str "</user>") (before tok ++ (stmt ++ after user))).isSome = true := by
    have hmem : str "</user>" <:+: before tok ++ (stmt ++ after user) :=
      hin.trans ⟨before tok ++ (stmt ++ str "</statement><user>"), str "</user></command></vyatta>", by
        have h1 : str "</statement><user>" = str "</statement>" ++ str "<user>" := by decide
        have h2 : str "</user></command></vyatta>" = str "</user>" ++ str "</command></vyatta>" := by decide
        simp [after_split, h1, h2]⟩
    rw [Option.isSome_iff_ne_none, Ne, find_eq_none_iff]
    exact fun hn => hn hmem
  obtain ⟨j, hj⟩ := Option.isSome_iff_exists.mp hclose
  rw [find_user_after] at hopen
  -- the first opening tag is the real one or stands before it
  obtain ⟨i, hi, hle⟩ : ∃ i, find (str "<user>") (before tok ++ (stmt ++ after user)) = some i ∧
      i ≤ 12 + (before tok ++ stmt).length := by
    rcases hf : find (str "<user>") stmt with _ | i
    · rw [hf] at hopen
      exact ⟨_, hopen, Nat.le_refl _⟩
    · rw [hf] at hopen
      have := find_le hf
      exact ⟨i + (before tok).length, hopen, by rw [List.length_append]; omega⟩
  have hsome : between (before tok ++ (stmt ++ after user)) (str "<user>") (str "</user>") = some user := by
    rw [between, hi, hj] at h ⊢
    exact congrArg some h
  rcases between_cases (by decide) hlen hsome with hno | ⟨start, hstart, hdrop⟩
  · exact hno hin
  · cases hi.symm.trans hstart
    have hl := congrArg List.length hdrop
    rw [List.length_drop, after_split] at hl
    simp [show (str "</statement>").length = 12 by decide, show (str "<user>").length = 6 by decide,
      show (str "</user>").length = 7 by decide] at hl hle
    omega

include ht in
theorem user_iff {stmt : Str} (hlen : (before tok ++ (stmt ++ after user)).length < 2 ^ 63) :
    (between (before tok ++ (stmt ++ after user)) (str "<user>") (str "</user>")).getD [] = user ↔
      CleanUser stmt user ∧ ¬ str "</user>" <:+: user := by
  by_cases hu : str "</user>" <:+: user
  · exact iff_of_false (fun h => user_not_closed ht hlen h hu) fun h => h.2 hu
  · rw [user_iff_clean ht hu hlen, and_iff_left hu]

end User

/-! ## The codec -/

/-- The receiver takes the branch of the kind and gets the fields that were sent. -/
def Decoded (k : Kind) (tok stmt user m : Str) : Prop :=
  branch (received m) = some k ∧ fields (received m) = some ⟨k.sentToken tok, k.sentStatement stmt, user⟩

def isHexToken (tok : Str) : Bool := tok.length == 16 && tok.all isHex

theorem isHexToken_plain {tok : Str} (h : isHexToken tok = true) : (60 : UInt8) ∉ tok ∧ (0 : UInt8) ∉ tok := by
  rw [isHexToken, Bool.and_eq_true, List.all_eq_true] at h
  exact ⟨fun hm => absurd (h.2 _ hm) (by decide), fun hm => absurd (h.2 _ hm) (by decide)⟩

/-- For a token of 16 hexadecimal digits, a user name without markup and the statement
    of any URL path, a request that fits the buffer is decoded as it was sent exactly
    when it carries no statement or a clean one. -/
theorem request_decoded_iff (k : Kind) (tok user path m : Str) (ht : isHexToken tok = true)
    (hu : (60 : UInt8) ∉ user ∧ (0 : UInt8) ∉ user) (hp : (0 : UInt8) ∉ path)
    (hm : request k tok (translateRestToCli path) user = some m) (hfit : m.length ≤ 1023) :
    Decoded k tok (translateRestToCli path) user m ↔
      (k = .command → CleanStatement (translateRestToCli path) user) := by
  obtain ⟨ht1, ht0⟩ := isHexToken_plain ht
  have hs0 := zero_notMem_translate hp
  have hmsg : m = message k tok (translateRestToCli path) user := by
    unfold request at hm
    cases k <;> simp only at hm <;> split at hm <;> simp_all
  have hrec : received m = render (pieces k tok (translateRestToCli path) user) := by
    rw [hmsg]; exact received_message ht0 hs0 hu.2
  have hlen : (render (pieces k tok (translateRestToCli path) user)).length ≤ 1023 := by
    rw [← message_eq ht0 hs0 hu.2, ← hmsg]; exact hfit
  rw [Decoded, hrec, branch_pieces ht1 hu.1]
  by_cases hk : k = .command
  · subst hk
    have hsize : (render (pieces .command tok (translateRestToCli path) user)).length < 2 ^ 63 := by omega
    have htok := between_token ht1 (hsize.trans (by decide))
    rw [command_eq] at hsize htok ⊢
    have h1 := statement_iff ht1 hsize
    have hopen : ¬ str "</user>" <:+: user := fun h => hu.1 (List.IsInfix.mem (by decide) h)
    have h2 := user_iff_clean ht1 hopen hsize
    rw [fields, htok]
    simp only [true_and, Option.some.injEq, Fields.mk.injEq, Kind.sentStatement, if_true, forall_const]
    rw [h1, h2]
    rfl
  · rw [fields_plain hk ht1 hu.1 (by omega)]
    simp [hk, Kind.sentStatement]

/-- The request for `show/interfaces` arrives as it was sent. -/
theorem show_interfaces_decoded :
    Decoded .command (str "0123456789ABCDEF") (translateRestToCli (str "show/interfaces")) (str "guest")
      (message .command (str "0123456789ABCDEF") (translateRestToCli (str "show/interfaces")) (str "guest")) := by
  refine (request_decoded_iff .command (str "0123456789ABCDEF") (str "guest") (str "show/interfaces") _ (by decide)
    (by decide) (by decide) rfl (by decide +kernel)).mpr fun _ => ⟨?_, Or.inl ⟨?_, ?_⟩⟩
  · rw [← find_eq_none_iff]; decide
  · rw [← find_eq_none_iff]; decide
  · rw [← find_eq_none_iff]; decide

/-- The statement of this path is well inside the buffer, and its user field is the
    one the chunker starts the command for. -/
theorem a_statement_names_another_user :
    let stmt := translateRestToCli (str "show/%3Cuser%3Eroot%3C%2Fuser%3E")
    let m := message .command (str "0123456789ABCDEF") stmt (str "guest")
    request .command (str "0123456789ABCDEF") stmt (str "guest") = some m ∧ m.length ≤ 1023 ∧
      (fields (received m)).map (·.user) = some (str "root") ∧
      ¬ Decoded .command (str "0123456789ABCDEF") stmt (str "guest") m := by
  refine ⟨rfl, by decide +kernel, by decide +kernel, fun h => absurd h.2 (by decide +kernel)⟩

end VyattaRest.Chunker
