/-
  VyattaRest.Server.CommandLine — the command lines of configuration mode, as a shell reads
  them.

  A PUT and a POST action put a text of the request between two texts of the server's: the
  exports and the program before it, the redirection behind it (`Shape`). The text is meant
  to be argument words. `clean` is the condition on the URL under which it is: read by the
  rules of `VyattaRest.Lib.Shell` from where it stands, no byte of it acts, and it ends where
  the server's text takes over again.
  - `one_command_iff`: every command line a request runs is the exports and one command exactly
    when the request is clean.
  - `a_first_segment_runs_a_second_command`: the path `set;reboot/x` of a PUT.
-/

import VyattaRest.Lib.Exports
import VyattaRest.Server.ConfCalls
import VyattaRest.Server.Main

namespace VyattaRest.Server.CommandLine

open VyattaRest.Lib VyattaRest.Rest VyattaRest.Lib.Shell VyattaRest.Server.ConfMode
open VyattaRest.Lib.Exports (Verbatim exportText exportToks)

/-! ## The exports -/

def Plain (s : Str) : Prop := ∀ b ∈ s, isPlain b = true

instance (s : Str) : Decidable (Plain s) := inferInstanceAs (Decidable (∀ b ∈ s, isPlain b = true))

theorem exports_verbatim (id : Str) : ∀ p ∈ exports (Configuration.convConfId id), Verbatim p := by
  have hfixed : ∀ q ∈ exports [], q.1 ≠ [] ∧ ∀ b ∈ q.1 ++ q.2, b ∈ Exports.verbatim := by decide +kernel
  intro p hp
  obtain ⟨q, hq, hname, hval⟩ := exports_fixed p hp
  obtain ⟨hne, hbytes⟩ := hfixed q hq
  refine ⟨hname ▸ hne, fun b hb => ?_⟩
  rcases List.mem_append.mp hb with hb | hb
  · exact hbytes b (List.mem_append_left _ (hname ▸ hb))
  · exact (hval b hb).elim (fun h => Exports.digit_verbatim (mem_dec b h)) fun h => hbytes b (List.mem_append_right _ h)

theorem environment_eq (sid : Str) : environment sid ++ str ";" = (exports sid).flatMap exportText := by
  have key : ∀ l : List (Str × Str), l ≠ [] →
      (str ";").intercalate (l.map fun p => str "export " ++ p.1 ++ str "=" ++ p.2) ++ str ";" = l.flatMap exportText := by
    intro l
    induction l with
    | nil => exact fun h => absurd rfl h
    | cons p l ih =>
      intro _
      rcases l with _ | ⟨q, l⟩
      · simp [exportText]
      · have hrest := ih (by simp)
        rw [List.map_cons] at hrest
        rw [List.map_cons, List.map_cons, List.intercalate_cons_cons, List.append_assoc, List.append_assoc, hrest]
        simp [exportText]
  exact key (exports sid) (by simp [exports, shellEnv])

/-! ## Lines with a text in them -/

/-- The tokens of a fixed text. -/
def fixedToks (s : Str) : List Tok := (lex (own s)).getD []

example : fixedToks (str "/usr/bin/cfgcli -print") = [.word (own (str "/usr/bin/cfgcli")), .word (own (str "-print"))] := by
  decide

/-- A command as the server puts it together behind the exports: the program, a text of the
    request, and the rest. The text starts in `mode`, and may end in a mode of `ends`. -/
structure Shape where
  pre : Str
  program : List Tok
  mode : Mode
  text : Str
  post : Str
  after : List Tok
  ends : List Mode

namespace Shape

def line (p : Shape) (id : Str) : Str :=
  environment (Configuration.convConfId id) ++ str ";" ++ p.pre ++ p.text ++ p.post

/-- The line with the bytes of the request marked. -/
def tagged (p : Shape) (id : Str) : List Byte :=
  own (environment (Configuration.convConfId id) ++ str ";" ++ p.pre) ++ foreign p.text ++ own p.post

theorem tagged_text (p : Shape) (id : Str) : (p.tagged id).map Prod.fst = p.line id := by
  simp [tagged, line, own, foreign, Function.comp_def]

/-- The exports, and one command: the program, argument words, and the fixed words behind. -/
def OneCommand (p : Shape) (id : Str) : Prop :=
  Reads (p.tagged id) ((exports (Configuration.convConfId id)).flatMap exportToks ++ p.program) p.after

def clean (p : Shape) : Bool :=
  match scan p.mode p.text with
  | some m => p.ends.contains m
  | none => false

theorem exports_own (l : List (Str × Str)) : ∀ t ∈ l.flatMap exportToks, t.actsBy .foreign = false := by
  intro t ht
  obtain ⟨p, -, ht⟩ := List.mem_flatMap.mp ht
  simp only [exportToks, List.mem_cons, List.not_mem_nil, or_false] at ht
  rcases ht with rfl | rfl | rfl <;> rfl

/-- The reader behind the exports and the program. -/
theorem start_run {p : Shape} {c : List Byte} (hpre : Lexer.run ⟨.blank, [], []⟩ (own p.pre) = ⟨p.mode, c, p.program⟩)
    (id : Str) : start.run (own (environment (Configuration.convConfId id) ++ str ";" ++ p.pre)) =
      ⟨p.mode, c, (exports (Configuration.convConfId id)).flatMap exportToks ++ p.program⟩ := by
  rw [environment_eq, show ∀ u v, own (u ++ v) = own u ++ own v from fun _ _ => List.map_append, Lexer.run_append, start,
    Exports.run_exports _ (exports_verbatim id), Lexer.run_out, hpre, List.nil_append]

theorem oneCommand_iff {p : Shape} {c : List Byte}
    (hpre : Lexer.run ⟨.blank, [], []⟩ (own p.pre) = ⟨p.mode, c, p.program⟩)
    (hown : ∀ t ∈ p.program, t.actsBy .foreign = false)
    (hclose : Closes (own p.post) p.after (p.ends.contains ·)) (id : Str) : p.OneCommand id ↔ p.clean = true := by
  have hall : ∀ t ∈ (exports (Configuration.convConfId id)).flatMap exportToks ++ p.program, t.actsBy .foreign = false :=
    fun t ht => (List.mem_append.mp ht).elim (exports_own _ t) (hown t)
  rw [OneCommand, tagged, reads_iff (start_run hpre id) hall hclose]
  unfold clean
  rcases scan p.mode p.text with _ | m <;> simp

/-- A line without a text of the request. -/
theorem oneCommand_fixed {p : Shape} {c : List Byte}
    (hpre : Lexer.run ⟨.blank, [], []⟩ (own p.pre) = ⟨p.mode, c, p.program⟩) (htext : p.text = [])
    (hpost : (Lexer.run ⟨p.mode, c, []⟩ (own p.post)).finish = some p.after) (id : Str) : p.OneCommand id := by
  refine ⟨[], ?_⟩
  rw [tagged, htext, lex, Lexer.run_append, Lexer.run_append, start_run hpre id]
  show (Lexer.run ⟨p.mode, c, _⟩ (own p.post)).finish = _
  rw [Lexer.finish_run, hpost]
  simp

end Shape

/-! ## What follows the text -/

def redirect : List Tok := fixedToks (str "2>&1")

theorem not_suffix_of_word {v w : List Byte} (hne : v ≠ w) (out r : List Tok) :
    ¬ (.word v :: r) <:+ out ++ .word w :: r := by
  rintro ⟨x, hx⟩
  have := (List.append_inj' hx rfl).2
  injection this with hword
  injection hword with hw
  exact hne hw

theorem closes_redirect : Closes (own (str " 2>&1")) redirect ([.blank, .word].contains ·) where
  reads := by
    intro m hm cur
    cases m with
    | blank => exact ⟨[], rfl⟩
    | word => exact ⟨[cur], rfl⟩
    | _ => exact absurd hm (by decide)
  fails := by
    intro m hm hne cur out toks htoks
    rw [Lexer.finish_run] at htoks
    -- a blank behind a backslash is a byte of the word in front of the redirection
    have hesc : ∀ toks ∈ (some (out ++ (.word (cur ++ [(32, .own)] ++ [(50, .own)]) :: redirect.tail)) : Option (List Tok)),
        ¬ redirect <:+ toks := by
      intro toks htoks
      cases htoks
      refine not_suffix_of_word (v := [(50, .own)]) (fun e => ?_) out redirect.tail
      simpa using congrArg List.length e
    cases m with
    | blank => exact absurd hm (by decide)
    | word => exact absurd hm (by decide)
    | comment => exact absurd rfl hne
    | escBlank => exact hesc toks htoks
    | escWord => exact hesc toks htoks
    | single => cases htoks
    | double => cases htoks
    | escDouble => cases htoks
  comment := by
    intro cur out
    rw [Lexer.finish_run]
    exact congrArg some (List.append_nil out)
  own := by decide
  acts := by decide

/-- A closing quote, and fixed words without a quote or a newline. -/
theorem closes_quote {rest : Str} {after : List Tok} (hlex : lex (own rest) = some after)
    (hown : ∀ t ∈ after, t.actsBy .foreign = false) (hacts : 0 < after.countP (Tok.actsBy .own))
    (hsingle : rest.foldl next .single = .single) (hdouble : rest.foldl next .double = .double)
    (hcomment : Lexer.run ⟨.comment, [], []⟩ (own rest) = ⟨.comment, [], []⟩) :
    Closes (own (str "' " ++ rest)) after ([.single, .escBlank, .escWord].contains ·) := by
  have hword : ∀ cur, (Lexer.run ⟨.word, cur, []⟩ ((32, .own) :: own rest)).finish = some ([.word cur] ++ after) := by
    intro cur
    show (Lexer.run ⟨.blank, [], [.word cur]⟩ (own rest)).finish = _
    rw [Lexer.finish_run]
    exact congrArg (Option.map _) hlex
  have hmode : ∀ l : Lexer, (l.run (own rest)).mode = rest.foldl next l.mode := by
    intro l
    rw [Lexer.run_mode, own, List.foldl_map]
  constructor
  · intro m hm cur
    cases m with
    | single => exact ⟨[cur], hword cur⟩
    | escBlank => exact ⟨[cur ++ [((39, .own) : Byte)]], hword (cur ++ [((39, .own) : Byte)])⟩
    | escWord => exact ⟨[cur ++ [((39, .own) : Byte)]], hword (cur ++ [((39, .own) : Byte)])⟩
    | _ => exact absurd hm (by decide)
  · intro m hm hne cur out toks htoks
    -- the quote opens where it should close, or is a byte in double quotes
    have hopen : (Lexer.run ⟨m, cur, out⟩ (own (str "' " ++ rest))).mode ∈
        [Mode.single, .double, .escBlank, .escWord, .escDouble] := by
      show (Lexer.run (Lexer.step (Lexer.step ⟨m, cur, out⟩ (39, .own)) (32, .own)) (own rest)).mode ∈ _
      rw [hmode]
      have hin : rest.foldl next .single ∈ [Mode.single, .double, .escBlank, .escWord, .escDouble] := by
        rw [hsingle]
        decide
      have hin' : rest.foldl next .double ∈ [Mode.single, .double, .escBlank, .escWord, .escDouble] := by
        rw [hdouble]
        decide
      cases m with
      | blank => exact hin
      | word => exact hin
      | double => exact hin'
      | escDouble => exact hin'
      | comment => exact absurd rfl hne
      | _ => exact absurd hm (by decide)
    rw [Lexer.finish_eq_none hopen] at htoks
    cases htoks
  · intro cur out
    rw [Lexer.finish_run]
    show (Lexer.run ⟨.comment, [], []⟩ (own rest)).finish.map _ = _
    rw [hcomment]
    exact congrArg some (List.append_nil out)
  · exact hown
  · exact hacts

/-! ## The lines of a request -/

/-- The path of a PUT as it stands in the line: the first segment as it is, the others
    decoded and in quotes. -/
def putText (confPath : Str) : Str :=
  match segments confPath with
  | f :: t :: ts => f ++ ((t :: ts).map (quoteToken ∘ unescape)).flatten
  | _ => []

def isEdit (cmd : Str) : Bool :=
  (str "set").isPrefixOf cmd || (str "delete").isPrefixOf cmd || (str "comment").isPrefixOf cmd

def isActivation (cmd : Str) : Bool := (str "activate").isPrefixOf cmd || (str "deactivate").isPrefixOf cmd

/-- A program with a text behind it. -/
def bare (program text : Str) : Shape where
  pre := program ++ str " "
  program := fixedToks program
  mode := .blank
  text := text
  post := str " 2>&1"
  after := redirect
  ends := [.blank, .word]

/-- An edit keeps a `;`, an activation ends there. -/
def putShape (confPath : Str) : Option Shape :=
  let text := putText confPath
  if isEdit text then some (bare (str "/usr/bin/cfgcli -print") text)
  else
    let text := text.takeWhile (· ≠ 59)
    if isActivation text then some (bare (str "/opt/vyatta/sbin/vyatta-activate-config.pl") text) else none

/-- A program with a text in quotes behind it. -/
def quoted (a : ShellAction) (text : Str) : Shape where
  pre := a.program ++ str " '"
  program := fixedToks a.program
  mode := .single
  text := text
  post := str "'" ++ a.suffix ++ str " 2>&1"
  after := fixedToks (a.suffix ++ str " 2>&1")
  ends := [.single, .escBlank, .escWord]

/-- A text with a NUL, which cuts off the closing quote. -/
def cutOff (a : ShellAction) (text : Str) : Shape where
  pre := a.program ++ str " '"
  program := fixedToks a.program
  mode := .single
  text := cstr text
  post := str " 2>&1"
  after := redirect
  ends := [.blank, .word]

def programOnly (a : ShellAction) : Shape where
  pre := a.program ++ str " "
  program := fixedToks a.program
  mode := .blank
  text := []
  post := str "2>&1"
  after := redirect
  ends := [.blank]

/-- The argument of an action, with spaces for `/`. -/
def argument (a : ShellAction) (action : Str) : Str :=
  (action.drop (a.name.length + 1)).map fun x => if x = 47 then 32 else x

def actionShape (a : ShellAction) (action : Str) : Shape :=
  if action.length ≤ a.name.length then programOnly a
  else if !a.decoded then quoted a (argument a action)
  else if 0 ∈ percentDecode (argument a action) then cutOff a (percentDecode (argument a action))
  else quoted a (percentDecode (argument a action))

def shape (method path : Str) : Option Shape :=
  if method = str "PUT" then if hasConfPath path then putShape (confPath path) else none
  else if method = str "POST" then (ShellAction.find? (confPath path)).map fun a => actionShape a (confPath path)
  else none

/-- No byte of the request acts in the line, and the text ends where the rest can go on. -/
def clean (method path : Str) : Bool := (shape method path).all Shape.clean

/-! ### The lines are those of the source -/

theorem find_semicolon (s : Str) : (match find (str ";") s with
    | none => s
    | some pos => s.take pos) = s.takeWhile (· ≠ 59) := by
  have hbyte : str ";" = [59] := by decide
  rcases hf : find (str ";") s with _ | pos
  · rw [find_eq_none_iff, hbyte, List.singleton_infix_iff] at hf
    have hall : ∀ b ∈ s, decide (b ≠ 59) = true := fun b hb => decide_eq_true fun e : b = 59 => hf (e ▸ hb)
    exact (List.takeWhile_eq_self_iff.mpr hall).symm
  · have hno := not_infix_take_of_find (by decide) hf
    obtain ⟨a, b, rfl, rfl⟩ := find_split hf
    rw [List.append_assoc, List.take_left, hbyte, List.singleton_infix_iff] at hno
    have hall : ∀ b ∈ a, decide (b ≠ 59) = true := fun b hb => decide_eq_true fun e : b = 59 => hno (e ▸ hb)
    show (a ++ str ";" ++ b).take a.length = _
    rw [List.append_assoc, List.take_left, List.takeWhile_append_of_pos hall, hbyte, List.singleton_append,
      List.takeWhile_cons_of_neg (by decide), List.append_nil]

theorem isEdit_takeWhile {s : Str} {p : UInt8 → Bool} (h : isEdit (s.takeWhile p) = true) : isEdit s = true := by
  simp only [isEdit, Bool.or_eq_true, List.isPrefixOf_iff_prefix] at h ⊢
  exact h.imp (Or.imp (·.trans (List.takeWhile_prefix _)) (·.trans (List.takeWhile_prefix _)))
    (·.trans (List.takeWhile_prefix _))

theorem putCommand_eq (confPath : Str) : putCommand confPath = (putShape confPath).map fun p => p.pre ++ p.text := by
  have htext : translateRestToCli confPath = putText confPath := translateRestToCli_eq confPath
  have hprog : str "/usr/bin/cfgcli -print " = str "/usr/bin/cfgcli -print" ++ str " " := by decide
  have hprog' : str "/opt/vyatta/sbin/vyatta-activate-config.pl " =
    str "/opt/vyatta/sbin/vyatta-activate-config.pl" ++ str " " := by decide
  show (let cmd := match find (str ";") (translateRestToCli confPath) with
      | none => translateRestToCli confPath
      | some pos => if isEdit (translateRestToCli confPath) then translateRestToCli confPath
        else (translateRestToCli confPath).take pos
    if isEdit cmd then some (str "/usr/bin/cfgcli -print " ++ cmd)
    else if isActivation cmd then some (str "/opt/vyatta/sbin/vyatta-activate-config.pl " ++ cmd) else none) = _
  rw [htext, putShape]
  simp only
  by_cases he : isEdit (putText confPath) = true
  · have hsame : (match find (str ";") (putText confPath) with
        | none => putText confPath
        | some pos => if isEdit (putText confPath) then putText confPath else (putText confPath).take pos) =
        putText confPath := by
      rcases find (str ";") (putText confPath) with _ | pos
      · rfl
      · exact if_pos he
    rw [hsame, if_pos he, if_pos he, hprog]
    rfl
  · have hcut : (match find (str ";") (putText confPath) with
        | none => putText confPath
        | some pos => if isEdit (putText confPath) then putText confPath else (putText confPath).take pos) =
        (putText confPath).takeWhile (· ≠ 59) := by
      rw [← find_semicolon]
      rcases find (str ";") (putText confPath) with _ | pos
      · rfl
      · exact if_neg he
    rw [hcut, if_neg (fun h => he (isEdit_takeWhile h)), if_neg he, hprog']
    split <;> rfl

theorem fixed_texts : ∀ a ∈ ShellAction.all, ((37 : UInt8) ∉ a.program ∧ (0 : UInt8) ∉ a.program) ∧
    (37 : UInt8) ∉ a.suffix ∧ (0 : UInt8) ∉ a.suffix := by
  decide

/-- The decoding goes over the whole command, and changes nothing but the argument. -/
theorem convUrl_line {program arg suffix : Str} (hp : (37 : UInt8) ∉ program ∧ (0 : UInt8) ∉ program)
    (hs : (37 : UInt8) ∉ suffix ∧ (0 : UInt8) ∉ suffix) :
    convUrl (program ++ str " '" ++ arg ++ str "'" ++ suffix) = program ++ str " '" ++
      if 0 ∈ percentDecode arg then cstr (percentDecode arg) else percentDecode arg ++ str "'" ++ suffix := by
  have hpre : (37 : UInt8) ∉ program ++ str " '" ∧ (0 : UInt8) ∉ program ++ str " '" := by
    simp only [List.mem_append, not_or]
    exact ⟨⟨hp.1, by decide⟩, hp.2, by decide⟩
  have hpost : (37 : UInt8) ∉ str "'" ++ suffix ∧ (0 : UInt8) ∉ str "'" ++ suffix := by
    simp only [List.mem_append, not_or]
    exact ⟨⟨by decide, hs.1⟩, by decide, hs.2⟩
  have hdecode : percentDecode (program ++ str " '" ++ arg ++ str "'" ++ suffix) =
      program ++ str " '" ++ (percentDecode arg ++ (str "'" ++ suffix)) := by
    rw [List.append_assoc, List.append_assoc, percentDecode_append_of_notMem hpre.1,
      show str "'" ++ suffix = 39 :: suffix from rfl, percentDecode_append (by decide),
      show 39 :: suffix = str "'" ++ suffix from rfl, percentDecode_of_notMem hpost.1]
  rw [convUrl, unescape, hdecode, cstr_append_left hpre.2]
  congr 1
  split
  · rename_i h
    exact cstr_append_of_mem h _
  · rename_i h
    rw [cstr_append_left h, cstr_of_notMem hpost.2, List.append_assoc]

theorem action_line {a : ShellAction} (ha : a ∈ ShellAction.all) (action id : Str) :
    commandLine id (a.text action) = (actionShape a action).line id := by
  have harg : massReplace (action.drop (a.name.length + 1)) (str "/") (str " ") = argument a action :=
    massReplace_byte _ 47 32
  obtain ⟨hprogram, hsuffix⟩ := fixed_texts a ha
  unfold ShellAction.text actionShape
  split
  · show _ = _ ++ (a.program ++ str " ") ++ [] ++ str "2>&1"
    rw [commandLine, show str " 2>&1" = str " " ++ str "2>&1" by decide]
    simp
  unfold ShellAction.line
  rw [harg]
  rcases a.decoded with _ | _
  · simp [commandLine, Shape.line, quoted]
  · simp only [if_true, Bool.not_true, Bool.false_eq_true, if_false]
    rw [convUrl_line hprogram hsuffix]
    split <;> simp [commandLine, Shape.line, quoted, cutOff]

theorem put_line {confPath : Str} {p : Shape} (h : putShape confPath = some p) (id : Str) :
    commandLine id (p.pre ++ p.text) = p.line id := by
  have hpost : p.post = str " 2>&1" := by
    unfold putShape at h
    simp only at h
    split at h
    · cases h
      rfl
    · split at h
      · cases h
        rfl
      · cases h
  simp [commandLine, Shape.line, hpost]

/-- What is run is the line of the shape. -/
theorem shape_of_command {method path tail : Str} (h : shellCommand method path = some tail) :
    ∃ p, shape method path = some p ∧ ∀ id, commandLine id tail = p.line id := by
  unfold shellCommand at h
  unfold shape
  split at h
  · rename_i hput
    rw [if_pos hput]
    split at h
    · rename_i hpath
      rw [putCommand_eq] at h
      obtain ⟨p, hp, rfl⟩ := Option.map_eq_some_iff.mp h
      rw [if_pos hpath]
      exact ⟨p, hp, put_line hp⟩
    · cases h
  · rename_i hput
    rw [if_neg hput]
    split at h
    · rename_i hpost
      obtain ⟨a, ha, rfl⟩ := Option.map_eq_some_iff.mp h
      rw [if_pos hpost, ha]
      exact ⟨_, rfl, action_line (List.mem_of_find?_eq_some ha) _⟩
    · cases h

/-! ### Reading them -/

theorem bare_iff {program text : Str}
    (hprogram : Lexer.run ⟨.blank, [], []⟩ (own (program ++ str " ")) = ⟨.blank, [], fixedToks program⟩)
    (hown : ∀ t ∈ fixedToks program, t.actsBy .foreign = false) (id : Str) :
    (bare program text).OneCommand id ↔ (bare program text).clean = true :=
  Shape.oneCommand_iff hprogram hown closes_redirect id

theorem put_iff {confPath : Str} {p : Shape} (h : putShape confPath = some p) (id : Str) :
    p.OneCommand id ↔ p.clean = true := by
  unfold putShape at h
  simp only at h
  split at h
  · cases h
    exact bare_iff (by decide) (by decide) id
  · split at h
    · cases h
      exact bare_iff (by decide) (by decide) id
    · cases h

theorem programs_lexed : ∀ a ∈ ShellAction.all,
    Lexer.run ⟨.blank, [], []⟩ (own (a.program ++ str " '")) = ⟨.single, [], fixedToks a.program⟩ ∧
      Lexer.run ⟨.blank, [], []⟩ (own (a.program ++ str " ")) = ⟨.blank, [], fixedToks a.program⟩ ∧
      ∀ t ∈ fixedToks a.program, t.actsBy .foreign = false := by
  decide

theorem suffixes_lexed : ∀ a ∈ ShellAction.all,
    str "'" ++ a.suffix ++ str " 2>&1" = str "' " ++ (a.suffix ++ str " 2>&1").drop 1 ∧
      lex (own ((a.suffix ++ str " 2>&1").drop 1)) = some (fixedToks (a.suffix ++ str " 2>&1")) ∧
      (∀ t ∈ fixedToks (a.suffix ++ str " 2>&1"), t.actsBy .foreign = false) ∧
      0 < (fixedToks (a.suffix ++ str " 2>&1")).countP (Tok.actsBy .own) ∧
      ((a.suffix ++ str " 2>&1").drop 1).foldl next .single = .single ∧
      ((a.suffix ++ str " 2>&1").drop 1).foldl next .double = .double ∧
      Lexer.run ⟨.comment, [], []⟩ (own ((a.suffix ++ str " 2>&1").drop 1)) = ⟨.comment, [], []⟩ := by
  decide

theorem suffixes_close : ∀ a ∈ ShellAction.all, Closes (own (str "'" ++ a.suffix ++ str " 2>&1"))
    (fixedToks (a.suffix ++ str " 2>&1")) ([.single, .escBlank, .escWord].contains ·) := by
  intro a ha
  obtain ⟨hsplit, hlex, hown, hacts, hsingle, hdouble, hcomment⟩ := suffixes_lexed a ha
  rw [hsplit]
  exact closes_quote hlex hown hacts hsingle hdouble hcomment

theorem action_iff {a : ShellAction} (ha : a ∈ ShellAction.all) (action id : Str) :
    (actionShape a action).OneCommand id ↔ (actionShape a action).clean = true := by
  obtain ⟨hopen, hblank, hown⟩ := programs_lexed a ha
  have hquoted : ∀ text, (quoted a text).OneCommand id ↔ (quoted a text).clean = true := fun text =>
    Shape.oneCommand_iff (p := quoted a text) hopen hown (suffixes_close a ha) id
  unfold actionShape
  split
  · exact ⟨fun _ => rfl, fun _ => Shape.oneCommand_fixed (p := programOnly a) hblank rfl rfl id⟩
  split
  · exact hquoted _
  split
  · exact Shape.oneCommand_iff (p := cutOff a _) hopen hown closes_redirect id
  · exact hquoted _

theorem shape_iff {method path : Str} {p : Shape} (h : shape method path = some p) (id : Str) :
    p.OneCommand id ↔ p.clean = true := by
  unfold shape at h
  split at h
  · split at h
    · exact put_iff h id
    · cases h
  · split at h
    · obtain ⟨a, ha, rfl⟩ := Option.map_eq_some_iff.mp h
      exact action_iff (List.mem_of_find?_eq_some ha) _ id
    · cases h

/-! ## Every line of every request -/

/-- The line of the request, read by the shell, is the exports and one command, and the bytes
    of the request are in its arguments. -/
def OneCommand (method path cmd : Str) : Prop := ∃ id, ∃ p ∈ shape method path, cmd = p.line id ∧ p.OneCommand id

theorem zero_notMem_confPath {path : Str} (h : (0 : UInt8) ∉ path) : (0 : UInt8) ∉ confPath path := by
  have hrest : (0 : UInt8) ∉ confRest path := fun hm => h (List.mem_of_mem_drop hm)
  unfold confPath
  split
  · exact hrest
  · exact fun hm => hrest (List.mem_of_mem_drop hm)

theorem zero_notMem_putShape {confPath : Str} (h : (0 : UInt8) ∉ confPath) {p : Shape} (hp : putShape confPath = some p) :
    (0 : UInt8) ∉ p.pre ∧ (0 : UInt8) ∉ p.text ∧ (0 : UInt8) ∉ p.post := by
  have htext : (0 : UInt8) ∉ putText confPath := by
    have := zero_notMem_translate h
    rwa [translateRestToCli_eq] at this
  have hpost : (0 : UInt8) ∉ str " 2>&1" := by decide
  have hpre : ∀ program ∈ [str "/usr/bin/cfgcli -print", str "/opt/vyatta/sbin/vyatta-activate-config.pl"],
      (0 : UInt8) ∉ program ++ str " " := by decide
  unfold putShape at hp
  simp only at hp
  split at hp
  · cases hp
    exact ⟨hpre _ (by simp), htext, hpost⟩
  · split at hp
    · cases hp
      exact ⟨hpre _ (by simp), fun hm => htext ((List.takeWhile_prefix _).mem hm), hpost⟩
    · cases hp

theorem zero_notMem_actionShape {a : ShellAction} (ha : a ∈ ShellAction.all) {action : Str} (h : (0 : UInt8) ∉ action) :
    (0 : UInt8) ∉ (actionShape a action).pre ∧ (0 : UInt8) ∉ (actionShape a action).text ∧
      (0 : UInt8) ∉ (actionShape a action).post := by
  obtain ⟨⟨-, hprogram⟩, -, hsuffix⟩ := fixed_texts a ha
  have hredirect : (0 : UInt8) ∉ str " 2>&1" ∧ (0 : UInt8) ∉ str "2>&1" := by decide
  have hopen : (0 : UInt8) ∉ a.program ++ str " '" := by
    rw [List.mem_append, not_or]
    exact ⟨hprogram, by decide⟩
  have hblank : (0 : UInt8) ∉ a.program ++ str " " := by
    rw [List.mem_append, not_or]
    exact ⟨hprogram, by decide⟩
  have hpost : (0 : UInt8) ∉ str "'" ++ a.suffix ++ str " 2>&1" := by
    rw [List.mem_append, List.mem_append, not_or, not_or]
    exact ⟨⟨by decide, hsuffix⟩, hredirect.1⟩
  have harg : (0 : UInt8) ∉ argument a action := by
    intro hm
    obtain ⟨b, hb, hb0⟩ := List.mem_map.mp hm
    split at hb0
    · cases hb0
    · exact h (hb0 ▸ List.mem_of_mem_drop hb)
  unfold actionShape
  split
  · exact ⟨hblank, List.not_mem_nil, hredirect.2⟩
  split
  · exact ⟨hopen, harg, hpost⟩
  split
  · exact ⟨hopen, zero_notMem_cstr _, hredirect.1⟩
  · rename_i hdec
    exact ⟨hopen, hdec, hpost⟩

theorem zero_notMem_line {method path : Str} (h : (0 : UInt8) ∉ path) {p : Shape} (hp : shape method path = some p)
    (id : Str) : (0 : UInt8) ∉ p.line id := by
  have hparts : (0 : UInt8) ∉ p.pre ∧ (0 : UInt8) ∉ p.text ∧ (0 : UInt8) ∉ p.post := by
    have hpath := zero_notMem_confPath h
    unfold shape at hp
    split at hp
    · split at hp
      · exact zero_notMem_putShape hpath hp
      · cases hp
    · split at hp
      · obtain ⟨a, ha, rfl⟩ := Option.map_eq_some_iff.mp hp
        exact zero_notMem_actionShape (List.mem_of_find?_eq_some ha) hpath
      · cases hp
  unfold Shape.line
  simp only [List.mem_append, not_or]
  exact ⟨⟨⟨⟨zero_notMem_environment id, by decide⟩, hparts.1⟩, hparts.2.1⟩, hparts.2.2⟩

theorem commandLine_oneCommand_iff {method path tail : Str} (h : (0 : UInt8) ∉ path)
    (htail : shellCommand method path = some tail) (id : Str) :
    OneCommand method path (cstr (commandLine id tail)) ↔ clean method path = true := by
  obtain ⟨p, hp, hline⟩ := shape_of_command htail
  rw [hline, cstr_of_notMem (zero_notMem_line h hp id), clean, hp]
  constructor
  · rintro ⟨id', p', hp', -, hone⟩
    cases hp.symm.trans hp'
    exact (shape_iff hp id').mp hone
  · intro hclean
    exact ⟨id, p, hp, rfl, (shape_iff hp id).mpr hclean⟩

/-- A URL is a C string. The world answers as it likes. -/
theorem one_command_iff (env : (c : Call) → c.Answer → Prop) (s : Session) (hroute : route s = some .conf)
    (hurl : (0 : UInt8) ∉ s.uri) (tr : List (Sigma Call.Answer)) (cmd : Str) (k : Call.Answer (.popen cmd) → Act Session)
    (h : Prog.Exec env (ConfMode.process s) tr (.call (.popen cmd) k)) :
    OneCommand s.method s.uri cmd ↔ clean s.method s.uri = true := by
  have hv : Vouched env fun _ _ => True := ⟨fun _ _ => trivial, fun _ _ => trivial⟩
  have hwp := process_wp hv (fun _ (_ : BadTemplate env) => trivial) (route_conf hroute)
  obtain ⟨id, tail, -, htail, rfl⟩ := h.allowed hwp
  exact commandLine_oneCommand_iff hurl htail id

/-! ### Values without a quote -/

theorem scan_quoteToken {t : Str} (h : (39 : UInt8) ∉ t) {m : Mode} (hm : m = .blank ∨ m = .word) :
    scan m (quoteToken t) = some .word := by
  have hin : ∀ u : Str, (39 : UInt8) ∉ u → scan m (str " '" ++ u ++ str "'") = some .word := by
    intro u hu
    have hopen : scan m (str " '") = some .single := by rcases hm with rfl | rfl <;> decide
    rw [scan_append, scan_append, hopen, Option.bind_some, scan_single hu]
    rfl
  unfold quoteToken
  split
  · rename_i hquote
    exact absurd (List.mem_of_mem_head? hquote.1) h
  split
  · exact hin _ fun hm => h (List.mem_of_mem_drop (List.mem_of_mem_take hm))
  · exact hin t h

theorem scan_plain {u : Str} (hu : Plain u) : scan .word u = some .word := by
  induction u with
  | nil => rfl
  | cons b u ih =>
    have hb : classOf b = .plain := by simpa [isPlain] using hu b List.mem_cons_self
    rw [scan, active, hb, next, hb]
    exact ih fun c hc => hu c (List.mem_cons_of_mem _ hc)

theorem scan_quoteTokens {ts : List Str} (h : ∀ t ∈ ts, (39 : UInt8) ∉ t) :
    scan .word (ts.map quoteToken).flatten = some .word := by
  induction ts with
  | nil => rfl
  | cons t ts ih =>
    rw [List.map_cons, List.flatten_cons, scan_append, scan_quoteToken (h t List.mem_cons_self) (Or.inr rfl), Option.bind_some]
    exact ih fun u hu => h u (List.mem_cons_of_mem _ hu)

/-- An edit whose first segment is a plain word and whose values hold no quote is clean. -/
theorem edit_clean {path f t : Str} {ts : List Str} (hseg : segments (confPath path) = f :: t :: ts)
    (hedit : isEdit (putText (confPath path)) = true) (hne : f ≠ []) (hf : Plain f)
    (hvals : ∀ v ∈ (t :: ts).map unescape, (39 : UInt8) ∉ v) : clean (str "PUT") path = true := by
  have htext : putText (confPath path) = f ++ (((t :: ts).map unescape).map quoteToken).flatten := by
    rw [putText, hseg, List.map_map]
  have hfirst : scan .blank f = some .word := by
    obtain ⟨b, f, rfl⟩ := List.exists_cons_of_ne_nil hne
    have hb : classOf b = .plain := by simpa [isPlain] using hf b List.mem_cons_self
    rw [scan, active, hb, next, hb]
    exact scan_plain fun c hc => hf c (List.mem_cons_of_mem _ hc)
  have hscan : scan .blank (putText (confPath path)) = some .word := by
    rw [htext, scan_append, hfirst]
    exact scan_quoteTokens hvals
  unfold clean shape
  rw [if_pos rfl]
  split
  · rw [putShape, if_pos hedit, Option.all_some, Shape.clean]
    show (match scan .blank (putText (confPath path)) with
      | some m => [Mode.blank, .word].contains m
      | none => false) = true
    rw [hscan]
    rfl
  · rfl

/-- An action whose decoded argument holds neither a quote nor a NUL is clean. -/
theorem action_clean {path : Str} (h : ∀ a ∈ ShellAction.all, ∀ b : UInt8, b = 39 ∨ b = 0 →
    b ∉ argument a (confPath path) ∧ b ∉ percentDecode (argument a (confPath path))) : clean (str "POST") path = true := by
  have hquoted : ∀ (a : ShellAction) (text : Str), (39 : UInt8) ∉ text → (quoted a text).clean = true := by
    intro a text ht
    show (match scan .single text with
      | some m => [Mode.single, .escBlank, .escWord].contains m
      | none => false) = true
    rw [scan_single ht]
    rfl
  unfold clean shape
  rw [if_neg (by decide), if_pos rfl]
  rcases ha : ShellAction.find? (confPath path) with _ | a
  · rfl
  have hmem := List.mem_of_find?_eq_some ha
  rw [Option.map_some, Option.all_some]
  unfold actionShape
  split
  · rfl
  split
  · exact hquoted a _ (h a hmem 39 (Or.inl rfl)).1
  split
  · rename_i hnul
    exact absurd hnul (h a hmem 0 (Or.inr rfl)).2
  · exact hquoted a _ (h a hmem 39 (Or.inl rfl)).2

/-! ### Two edits -/

/-- An edit of session `0000000000000001` by its owner, up to the command. -/
def editAnswers : List (Sigma Call.Answer) :=
  [⟨.fgets (str "/tmp/.vyattamodify_0000000000000001"), some (some (str "vyatta/edit"))⟩]

/-- The edit with its path, and the command it runs. -/
def EditRuns (path cmd : Str) : Prop :=
  ∃ k, Prog.Exec (fun c a => (⟨c, a⟩ : Sigma Call.Answer) ∈ editAnswers)
    (ConfMode.process (confSession (str "PUT") (str "/rest/conf/0000000000000001/" ++ path) (str "vyatta"))) editAnswers
    (.call (.popen cmd) k)

theorem editRuns_of_replay {path cmd : Str} (h : ((ConfMode.process (confSession (str "PUT")
      (str "/rest/conf/0000000000000001/" ++ path) (str "vyatta"))).replay editAnswers).bind Prog.next? =
        some (.popen cmd)) : EditRuns path cmd :=
  Prog.exec_call_of_replay (fun _ hx => hx) h

theorem a_quoted_value_is_one_command : ∃ cmd, EditRuns (str "set/system/host-name/a%3Bb") cmd ∧
    OneCommand (str "PUT") (str "/rest/conf/0000000000000001/set/system/host-name/a%3Bb") cmd := by
  have hrun : EditRuns (str "set/system/host-name/a%3Bb")
      (environment (str "1") ++ str ";/usr/bin/cfgcli -print set 'system' 'host-name' 'a;b' 2>&1") :=
    editRuns_of_replay (by decide +kernel)
  obtain ⟨k, hk⟩ := hrun
  exact ⟨_, ⟨k, hk⟩, (one_command_iff _ _ (by decide) (by decide) _ _ k hk).mpr (by decide)⟩

theorem a_first_segment_runs_a_second_command : ∃ cmd, EditRuns (str "set;reboot/x") cmd ∧
    cmd = environment (str "1") ++ str ";/usr/bin/cfgcli -print set;reboot 'x' 2>&1" ∧
    ¬ OneCommand (str "PUT") (str "/rest/conf/0000000000000001/set;reboot/x") cmd := by
  refine ⟨_, editRuns_of_replay (by decide +kernel), rfl, ?_⟩
  have hline : environment (str "1") ++ str ";/usr/bin/cfgcli -print set;reboot 'x' 2>&1" =
      cstr (commandLine (str "0000000000000001") (str "/usr/bin/cfgcli -print set;reboot 'x'")) := by decide +kernel
  rw [hline, commandLine_oneCommand_iff (by decide) (by decide)]
  decide

end VyattaRest.Server.CommandLine
