/-
  VyattaRest.Lib.Shell — the quoting rules of the POSIX shell.

  `lex` reads a command line into words, operators and expansions, byte by byte: single and
  double quotes, the backslash, comments, and a newline as an operator. `none` is a line that
  ends inside a quote or behind a backslash. Every byte carries its origin, the writer of the
  line or somebody else, and a token keeps the bytes it is made of: `Reads line before after`
  says that the line is what its writer meant, `before`, any number of argument words, `after`.

  `scan` follows the same rules over a foreign text alone and keeps no tokens: it gives the
  mode in which the text ends, or nothing as soon as one of its bytes acts as an operator,
  starts an expansion or starts a comment. `reads_iff`: a line with a foreign text in the
  middle is what its writer meant exactly when the scan of the text ends in a mode that what
  follows can close (`Closes`). `scan_single` is the plain case, a text without a quote
  between single quotes.
-/

import VyattaRest.Lib.Decimal

namespace VyattaRest.Lib.Shell

/-- Who wrote a byte. -/
inductive Origin where
  | own
  | foreign
  deriving DecidableEq, Repr

abbrev Byte := UInt8 × Origin

def own (s : Str) : List Byte := s.map (·, .own)
def foreign (s : Str) : List Byte := s.map (·, .foreign)

/-! ## The rules -/

/-- Where the reader is: between words, in a word, in quotes, behind a backslash, in a
    comment. -/
inductive Mode where
  | blank
  | word
  | single
  | double
  | escBlank
  | escWord
  | escDouble
  | comment
  deriving DecidableEq, Repr

/-- What a byte is outside quotes. -/
inductive Class where
  | blank
  | operator
  | single
  | double
  | backslash
  | expansion
  | hash
  | plain
  deriving DecidableEq, Repr

def classOf (b : UInt8) : Class :=
  if b = 32 ∨ b = 9 then .blank
  else if b = 10 ∨ b ∈ str ";&|<>()" then .operator
  else if b = 39 then .single
  else if b = 34 then .double
  else if b = 92 then .backslash
  else if b = 36 ∨ b = 96 then .expansion
  else if b = 35 then .hash
  else .plain

/-- The mode after a byte. -/
def next (m : Mode) (b : UInt8) : Mode :=
  match m with
  | .blank =>
    match classOf b with
    | .blank | .operator => .blank
    | .single => .single
    | .double => .double
    | .backslash => .escBlank
    | .hash => .comment
    | .expansion | .plain => .word
  | .word =>
    match classOf b with
    | .blank | .operator => .blank
    | .single => .single
    | .double => .double
    | .backslash => .escWord
    | .hash | .expansion | .plain => .word
  | .single => if b = 39 then .word else .single
  | .double => if b = 34 then .word else if b = 92 then .escDouble else .double
  -- a newline behind a backslash is no byte of the line
  | .escBlank => if b = 10 then .blank else .word
  | .escWord => .word
  | .escDouble => .double
  | .comment => if b = 10 then .blank else .comment

/-- The byte does something else than stand in a word or separate two. -/
def active (m : Mode) (b : UInt8) : Bool :=
  match m with
  | .blank => classOf b = .operator || classOf b = .expansion || classOf b = .hash
  | .word => classOf b = .operator || classOf b = .expansion
  | .double => classOf b = .expansion
  | .comment => true
  | _ => false

/-- The mode at the end of a text none of whose bytes is active. -/
def scan : Mode → Str → Option Mode
  | m, [] => some m
  | m, b :: r => if active m b then none else scan (next m b) r

/-! ## Reading a line -/

inductive Tok where
  | word (w : List Byte)
  | op (b : Byte)
  | expansion (b : Byte)
  deriving DecidableEq, Repr

/-- The mode, the word being read and the tokens so far. -/
structure Lexer where
  mode : Mode
  cur : List Byte
  out : List Tok
  deriving DecidableEq, Repr

/-- The word that ends with a byte, if one does, and the token the byte is. -/
def Lexer.emit (l : Lexer) (b : Byte) : List Tok :=
  match l.mode with
  | .blank =>
    match classOf b.1 with
    | .operator => [.op b]
    | .expansion => [.expansion b]
    | _ => []
  | .word =>
    match classOf b.1 with
    | .blank => [.word l.cur]
    | .operator => [.word l.cur, .op b]
    | .expansion => [.expansion b]
    | _ => []
  | .double => if classOf b.1 = .expansion then [.expansion b] else []
  | .comment => if b.1 = 10 then [.op b] else []
  | _ => []

/-- The word after a byte. A backslash in double quotes goes when it quotes something. -/
def Lexer.text (l : Lexer) (b : Byte) : List Byte :=
  match l.mode with
  | .blank => if classOf b.1 = .plain then [b] else []
  | .word =>
    match classOf b.1 with
    | .plain | .hash => l.cur ++ [b]
    | .blank | .operator => []
    | _ => l.cur
  | .single => if b.1 = 39 then l.cur else l.cur ++ [b]
  | .double => if b.1 = 34 ∨ classOf b.1 = .expansion then l.cur else l.cur ++ [b]
  | .escBlank | .escWord => if b.1 = 10 then l.cur else l.cur ++ [b]
  | .escDouble =>
    if b.1 = 10 then l.cur.dropLast
    else if b.1 ∈ str "$`\"\\" then l.cur.dropLast ++ [b]
    else l.cur ++ [b]
  | .comment => []

def Lexer.step (l : Lexer) (b : Byte) : Lexer :=
  { mode := next l.mode b.1, cur := l.text b, out := l.out ++ l.emit b }

def Lexer.run (l : Lexer) (s : List Byte) : Lexer := s.foldl step l

def Lexer.finish (l : Lexer) : Option (List Tok) :=
  match l.mode with
  | .blank | .comment => some l.out
  | .word => some (l.out ++ [.word l.cur])
  | _ => none

def start : Lexer := { mode := .blank, cur := [], out := [] }

def lex (line : List Byte) : Option (List Tok) := (start.run line).finish

/-- The line is `before`, argument words, `after`. -/
def Reads (line : List Byte) (before after : List Tok) : Prop :=
  ∃ args : List (List Byte), lex line = some (before ++ args.map .word ++ after)

/-! ## Runs of the reader -/

/-- Operator or expansion, by a byte of this origin. -/
def Tok.actsBy (o : Origin) : Tok → Bool
  | .word _ => false
  | .op b | .expansion b => b.2 = o

namespace Lexer

theorem run_append (l : Lexer) (s t : List Byte) : l.run (s ++ t) = (l.run s).run t := List.foldl_append

/-- Tokens are only added, and the ones there already have no say. -/
theorem run_out (m : Mode) (cur : List Byte) (s : List Byte) : ∀ out : List Tok, run ⟨m, cur, out⟩ s =
    ⟨(run ⟨m, cur, []⟩ s).mode, (run ⟨m, cur, []⟩ s).cur, out ++ (run ⟨m, cur, []⟩ s).out⟩ := by
  induction s generalizing m cur with
  | nil =>
    intro out
    simp [run]
  | cons b s ih =>
    intro out
    have hstep : ∀ out, run ⟨m, cur, out⟩ (b :: s) =
        run ⟨next m b.1, text ⟨m, cur, []⟩ b, out ++ emit ⟨m, cur, []⟩ b⟩ s := fun _ => rfl
    rw [hstep, hstep, ih _ _ (out ++ _), ih _ _ ([] ++ _)]
    simp

theorem run_mode (l : Lexer) (s : List Byte) : (l.run s).mode = s.foldl (fun m b => next m b.1) l.mode := by
  induction s generalizing l with
  | nil => rfl
  | cons b s ih => exact ih (l.step b)

theorem mem_run {l : Lexer} {t : Tok} (h : t ∈ l.out) (s : List Byte) : t ∈ (l.run s).out := by
  rw [run_out]
  exact List.mem_append_left _ h

theorem emit_inactive {m : Mode} {b : Byte} (h : active m b.1 = false) (cur : List Byte) :
    ∃ ws : List (List Byte), emit ⟨m, cur, []⟩ b = ws.map .word := by
  cases m with
  | blank => cases hc : classOf b.1 <;> simp_all [active, emit]
  | word =>
    cases hc : classOf b.1 with
    | blank => exact ⟨[cur], by simp [emit, hc]⟩
    | _ => simp_all [active, emit]
  | double => simp_all [active, emit]
  | comment => cases h
  | _ => exact ⟨[], rfl⟩

/-- A text that the scan gets through adds nothing but words. -/
theorem run_of_scan {u : Str} : ∀ {m m' : Mode}, scan m u = some m' → ∀ (cur : List Byte) (out : List Tok),
    ∃ (ws : List (List Byte)) (cur' : List Byte),
      run ⟨m, cur, out⟩ (Shell.foreign u) = ⟨m', cur', out ++ ws.map .word⟩ := by
  induction u with
  | nil =>
    intro m m' h cur out
    cases h
    exact ⟨[], cur, by simp [run, Shell.foreign]⟩
  | cons b u ih =>
    intro m m' h cur out
    rw [scan] at h
    split at h
    · cases h
    rename_i hact
    obtain ⟨ws, hws⟩ := emit_inactive (b := (b, .foreign)) (Bool.not_eq_true _ ▸ hact) cur
    obtain ⟨ws', cur', hrun⟩ := ih h (text ⟨m, cur, []⟩ (b, .foreign)) (out ++ ws.map .word)
    refine ⟨ws ++ ws', cur', ?_⟩
    show run ⟨next m b, text ⟨m, cur, []⟩ (b, .foreign), out ++ emit ⟨m, cur, []⟩ (b, .foreign)⟩ (Shell.foreign u) = _
    rw [hws, hrun]
    simp

theorem finish_run (m : Mode) (cur : List Byte) (out : List Tok) (s : List Byte) :
    (run ⟨m, cur, out⟩ s).finish = (run ⟨m, cur, []⟩ s).finish.map (out ++ ·) := by
  rw [run_out]
  rcases run ⟨m, cur, []⟩ s with ⟨m', cur', out'⟩
  cases m' <;> simp [finish]

/-- A line that ends inside a quote or behind a backslash. -/
theorem finish_eq_none {l : Lexer} (h : l.mode ∈ [Mode.single, .double, .escBlank, .escWord, .escDouble]) :
    l.finish = none := by
  unfold finish
  split <;> simp_all

/-- Something foreign has acted, or the rest of the line is lost in a comment. -/
def Spoilt (l : Lexer) : Prop := (∃ t ∈ l.out, t.actsBy .foreign = true) ∨ l.mode = .comment

theorem Spoilt.run {l : Lexer} (h : l.Spoilt) (u : Str) : (l.run (Shell.foreign u)).Spoilt := by
  induction u generalizing l with
  | nil => exact h
  | cons b u ih =>
    refine ih (l := l.step (b, .foreign)) ?_
    rcases h with ⟨t, ht, hacts⟩ | hcomment
    · exact Or.inl ⟨t, List.mem_append_left _ ht, hacts⟩
    · by_cases hb : b = 10
      · exact Or.inl ⟨.op (b, .foreign), List.mem_append_right _ (by simp [emit, hcomment, hb]), by simp [Tok.actsBy]⟩
      · exact Or.inr (by simp [step, hcomment, next, hb])

theorem spoilt_of_active {l : Lexer} {b : UInt8} (h : active l.mode b = true) : (l.step (b, .foreign)).Spoilt := by
  have hin : ∀ t, t ∈ l.emit (b, .foreign) → t.actsBy .foreign = true → (l.step (b, .foreign)).Spoilt :=
    fun t ht hacts => Or.inl ⟨t, List.mem_append_right _ ht, hacts⟩
  cases hm : l.mode with
  | blank =>
    rw [hm] at h
    cases hc : classOf b with
    | operator => exact hin (.op (b, .foreign)) (by simp [emit, hm, hc]) (by simp [Tok.actsBy])
    | expansion => exact hin (.expansion (b, .foreign)) (by simp [emit, hm, hc]) (by simp [Tok.actsBy])
    | hash => exact Or.inr (by simp [step, hm, next, hc])
    | _ => simp [active, hc] at h
  | word =>
    rw [hm] at h
    cases hc : classOf b with
    | operator => exact hin (.op (b, .foreign)) (by simp [emit, hm, hc]) (by simp [Tok.actsBy])
    | expansion => exact hin (.expansion (b, .foreign)) (by simp [emit, hm, hc]) (by simp [Tok.actsBy])
    | _ => simp [active, hc] at h
  | double =>
    rw [hm] at h
    have hc : classOf b = .expansion := by simpa [active] using h
    exact hin (.expansion (b, .foreign)) (by simp [emit, hm, hc]) (by simp [Tok.actsBy])
  | comment => exact Spoilt.run (l := l) (Or.inr hm) [b]
  | _ =>
    rw [hm] at h
    cases h

theorem spoilt_of_scan {u : Str} : ∀ {l : Lexer}, scan l.mode u = none → (l.run (Shell.foreign u)).Spoilt := by
  induction u with
  | nil =>
    intro l h
    cases h
  | cons b u ih =>
    intro l h
    rw [scan] at h
    split at h
    · rename_i hact
      exact (spoilt_of_active hact).run u
    · exact ih (l := l.step (b, .foreign)) h

theorem emit_foreign (l : Lexer) (b : UInt8) : ∀ t ∈ l.emit (b, .foreign), t.actsBy .own = false := by
  intro t ht
  unfold emit at ht
  split at ht
  · split at ht <;> simp_all [Tok.actsBy]
  · split at ht <;> simp_all [Tok.actsBy]
    rcases ht with rfl | rfl <;> simp
  · split at ht <;> simp_all [Tok.actsBy]
  · split at ht <;> simp_all [Tok.actsBy]
  · cases ht

/-- A foreign text adds none of the writer's operators. -/
theorem count_run_foreign (u : Str) : ∀ l : Lexer,
    (l.run (Shell.foreign u)).out.countP (Tok.actsBy .own) = l.out.countP (Tok.actsBy .own) := by
  induction u with
  | nil => exact fun _ => rfl
  | cons b u ih =>
    intro l
    refine (ih (l.step (b, .foreign))).trans ?_
    have hzero : (l.emit (b, .foreign)).countP (Tok.actsBy .own) = 0 :=
      List.countP_eq_zero.mpr fun t ht => by simp [emit_foreign l b t ht]
    rw [step, List.countP_append, hzero, Nat.add_zero]

theorem mem_finish {l : Lexer} {t : Tok} (h : t ∈ l.out) : ∀ toks ∈ l.finish, t ∈ toks := by
  intro toks htoks
  unfold finish at htoks
  split at htoks
  · cases htoks
    exact h
  · cases htoks
    exact h
  · cases htoks
    exact List.mem_append_left _ h
  · cases htoks

end Lexer

/-! ## Texts the reader goes through -/

/-- A byte that stands for itself wherever it stands. -/
def isPlain (b : UInt8) : Bool := classOf b = .plain

theorem mem_digits {b : UInt8} (h : isDigit b = true) : b ∈ str "0123456789" := by
  have hall : ∀ n < 10, (48 + n).toUInt8 ∈ str "0123456789" := by decide
  obtain ⟨h₁, h₂⟩ := isDigit_toNat h
  have hb : (48 + (b.toNat - 48)).toUInt8 = b := by rw [show 48 + (b.toNat - 48) = b.toNat by omega]; simp
  rw [← hb]
  exact hall _ (by omega)

theorem isPlain_digit {b : UInt8} (h : isDigit b = true) : isPlain b = true := by
  have hall : ∀ b ∈ str "0123456789", isPlain b = true := by decide
  exact hall b (mem_digits h)

namespace Lexer

theorem run_in_word {w : Str} (h : ∀ b ∈ w, isPlain b = true) (cur : List Byte) (out : List Tok) :
    run ⟨.word, cur, out⟩ (own w) = ⟨.word, cur ++ own w, out⟩ := by
  induction w generalizing cur with
  | nil => simp [run, own]
  | cons b w ih =>
    have hb : classOf b = .plain := by simpa [isPlain] using h b List.mem_cons_self
    show run (step ⟨.word, cur, out⟩ (b, .own)) (own w) = _
    rw [show step ⟨.word, cur, out⟩ (b, .own) = ⟨.word, cur ++ [(b, .own)], out⟩ by simp [step, next, text, emit, hb],
      ih fun b hb => h b (List.mem_cons_of_mem _ hb)]
    simp [own]

theorem run_word {w : Str} (hne : w ≠ []) (h : ∀ b ∈ w, isPlain b = true) (out : List Tok) :
    run ⟨.blank, [], out⟩ (own w) = ⟨.word, own w, out⟩ := by
  obtain ⟨b, w, rfl⟩ := List.exists_cons_of_ne_nil hne
  have hb : classOf b = .plain := by simpa [isPlain] using h b List.mem_cons_self
  show run (step ⟨.blank, [], out⟩ (b, .own)) (own w) = _
  rw [show step ⟨.blank, [], out⟩ (b, .own) = ⟨.word, [(b, .own)], out⟩ by simp [step, next, text, emit, hb],
    run_in_word fun b hb => h b (List.mem_cons_of_mem _ hb)]
  rfl

/-- A word and the blank or operator behind it. -/
theorem run_word_blank {w : Str} (hne : w ≠ []) (h : ∀ b ∈ w, isPlain b = true) (out : List Tok) :
    run ⟨.blank, [], out⟩ (own (w ++ str " ")) = ⟨.blank, [], out ++ [.word (own w)]⟩ := by
  rw [show own (w ++ str " ") = own w ++ own (str " ") from List.map_append, run_append, run_word hne h]
  rfl

theorem run_word_semicolon {w : Str} (hne : w ≠ []) (h : ∀ b ∈ w, isPlain b = true) (out : List Tok) :
    run ⟨.blank, [], out⟩ (own (w ++ str ";")) = ⟨.blank, [], out ++ [.word (own w), .op (59, .own)]⟩ := by
  rw [show own (w ++ str ";") = own w ++ own (str ";") from List.map_append, run_append, run_word hne h]
  rfl

/-- Inside single quotes every other byte stands for itself. -/
theorem run_in_single {v : Str} (h : (39 : UInt8) ∉ v) (cur : List Byte) (out : List Tok) :
    run ⟨.single, cur, out⟩ (own v) = ⟨.single, cur ++ own v, out⟩ := by
  induction v generalizing cur with
  | nil => simp [run, own]
  | cons b v ih =>
    obtain ⟨hb, hv⟩ := not_or.mp (List.mem_cons.not.mp h)
    have hne : b ≠ 39 := Ne.symm hb
    show run (step ⟨.single, cur, out⟩ (b, .own)) (own v) = _
    rw [show step ⟨.single, cur, out⟩ (b, .own) = ⟨.single, cur ++ [(b, .own)], out⟩ by simp [step, next, text, emit, hne], ih hv]
    simp [own]

/-- A value in single quotes behind a word. -/
theorem run_quoted {v : Str} (h : (39 : UInt8) ∉ v) (cur : List Byte) (out : List Tok) :
    run ⟨.word, cur, out⟩ (own (str " '" ++ v ++ str "'")) = ⟨.word, own v, out ++ [.word cur]⟩ := by
  have hsplit : own (str " '" ++ v ++ str "'") = own (str " '") ++ (own v ++ own (str "'")) := by simp [own]
  have hopen : run ⟨.word, cur, out⟩ (own (str " '")) = ⟨.single, [], out ++ [.word cur]⟩ := by
    show (⟨.single, [], out ++ [.word cur] ++ []⟩ : Lexer) = _
    rw [List.append_nil]
  rw [hsplit, run_append, run_append, hopen, run_in_single h]
  show (⟨.word, [] ++ own v, out ++ [.word cur] ++ []⟩ : Lexer) = _
  rw [List.nil_append, List.append_nil]

/-- Any number of them, and a fixed text behind the last one. -/
theorem finish_quoted {post : Str} {after : List Tok}
    (hpost : ∀ cur, (run ⟨.word, cur, []⟩ (own post)).finish = some ([.word cur] ++ after)) :
    ∀ (vs : List Str) (cur : List Byte) (out : List Tok), (∀ v ∈ vs, (39 : UInt8) ∉ v) →
      (run ⟨.word, cur, out⟩ (own ((vs.map fun v => str " '" ++ v ++ str "'").flatten ++ post))).finish =
        some (out ++ .word cur :: vs.map (fun v => .word (own v)) ++ after) := by
  intro vs
  induction vs with
  | nil =>
    intro cur out _
    rw [List.map_nil, List.flatten_nil, List.nil_append, finish_run, hpost]
    simp
  | cons v vs ih =>
    intro cur out h
    have hsplit : own (((v :: vs).map fun v => str " '" ++ v ++ str "'").flatten ++ post) =
        own (str " '" ++ v ++ str "'") ++ own ((vs.map fun v => str " '" ++ v ++ str "'").flatten ++ post) := by simp [own]
    rw [hsplit, run_append, run_quoted (h v List.mem_cons_self), ih _ _ fun u hu => h u (List.mem_cons_of_mem _ hu)]
    simp

end Lexer

theorem scan_append (m : Mode) (u v : Str) : scan m (u ++ v) = (scan m u).bind fun m => scan m v := by
  induction u generalizing m with
  | nil => rfl
  | cons b u ih =>
    rw [List.cons_append, scan, scan]
    split
    · rfl
    · exact ih _

/-- Inside single quotes a text without one stays inside. -/
theorem scan_single {u : Str} (h : (39 : UInt8) ∉ u) : scan .single u = some .single := by
  induction u with
  | nil => rfl
  | cons b u ih =>
    rw [List.mem_cons, not_or] at h
    rw [scan, if_neg (by simp [active]), next, if_neg (Ne.symm h.1)]
    exact ih h.2

/-! ## A foreign text in a line -/

/-- What follows a foreign text closes the modes in `good`, and gives `after`. -/
structure Closes (post : List Byte) (after : List Tok) (good : Mode → Bool) : Prop where
  reads : ∀ {m : Mode}, good m = true → ∀ cur : List Byte, ∃ ws : List (List Byte),
    (Lexer.run ⟨m, cur, []⟩ post).finish = some (ws.map .word ++ after)
  fails : ∀ {m : Mode}, good m = false → m ≠ .comment → ∀ (cur : List Byte) (out : List Tok),
    ∀ toks ∈ (Lexer.run ⟨m, cur, out⟩ post).finish, ¬ after <:+ toks
  comment : ∀ (cur : List Byte) (out : List Tok), (Lexer.run ⟨.comment, cur, out⟩ post).finish = some out
  own : ∀ t ∈ after, t.actsBy .foreign = false
  acts : 0 < after.countP (Tok.actsBy .own)

theorem reads_iff {pre post : List Byte} {m₀ : Mode} {c₀ : List Byte} {before after : List Tok} {good : Mode → Bool}
    (hpre : start.run pre = ⟨m₀, c₀, before⟩) (hown : ∀ t ∈ before, t.actsBy .foreign = false)
    (hc : Closes post after good) (u : Str) :
    Reads (pre ++ foreign u ++ post) before after ↔ ∃ m, scan m₀ u = some m ∧ good m = true := by
  have hlex : lex (pre ++ foreign u ++ post) = ((Lexer.run ⟨m₀, c₀, before⟩ (foreign u)).run post).finish := by
    rw [lex, Lexer.run_append, Lexer.run_append, hpre]
  constructor
  · intro ⟨args, hargs⟩
    rw [hlex] at hargs
    have hcount := Lexer.count_run_foreign u ⟨m₀, c₀, before⟩
    have hcomment : (Lexer.run ⟨m₀, c₀, before⟩ (foreign u)).mode ≠ .comment := by
      intro hm
      -- in a comment the operators of `after` are missing
      rcases hl : Lexer.run ⟨m₀, c₀, before⟩ (foreign u) with ⟨m, cur, out⟩
      rw [hl] at hm hargs hcount
      change m = .comment at hm
      subst hm
      rw [hc.comment] at hargs
      cases hargs
      have hacts := hc.acts
      simp only [List.countP_append] at hcount
      omega
    rcases hscan : scan m₀ u with _ | m
    · rcases Lexer.spoilt_of_scan (l := ⟨m₀, c₀, before⟩) hscan with ⟨t, ht, hacts⟩ | hm
      · have hmem := Lexer.mem_finish (Lexer.mem_run ht post) _ hargs
        have hnone : t.actsBy .foreign = false := by
          rcases List.mem_append.mp hmem with hmem | hmem
          · rcases List.mem_append.mp hmem with hmem | hmem
            · exact hown t hmem
            · obtain ⟨w, -, rfl⟩ := List.mem_map.mp hmem
              rfl
          · exact hc.own t hmem
        rw [hnone] at hacts
        cases hacts
      · exact absurd hm hcomment
    · refine ⟨m, rfl, ?_⟩
      obtain ⟨ws, cur, hrun⟩ := Lexer.run_of_scan hscan c₀ before
      rw [hrun] at hargs hcomment
      by_contra hbad
      exact hc.fails (Bool.not_eq_true _ ▸ hbad) hcomment cur _ _ hargs (List.suffix_append _ _)
  · intro ⟨m, hscan, hgood⟩
    obtain ⟨ws, cur, hrun⟩ := Lexer.run_of_scan hscan c₀ before
    obtain ⟨ws', hpost⟩ := hc.reads hgood cur
    refine ⟨ws ++ ws', ?_⟩
    rw [hlex, hrun, Lexer.finish_run, hpost]
    simp

end VyattaRest.Lib.Shell
