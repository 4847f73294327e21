/-
  VyattaRest.Lib.Exports — the variable a shell line exports.

  What a line exports is the shell's affair, and that of the programs it runs. `Sh name` is a shell with what POSIX says
  of two kinds of lines: `export NAME=value;` in front of a line exports the value, and the line behind it is run with it;
  a line of programs, called by their paths, with words and redirections behind them exports nothing
  (`callsPrograms`). Of every other line nothing is said: an `export` in it, an assignment, an `eval`, a file it sources.
  - `Sh.exports_behind`, `Sh.exports_of_rest`: a line behind a list of exports.
  - `Sh.literal`: a shell that knows `export`, assignments and redirections.
-/

import VyattaRest.Lib.Shell

namespace VyattaRest.Lib.Exports

open VyattaRest.Lib VyattaRest.Lib.Shell

/-! ## Tokens without their origins -/

def toOwn (b : Byte) : Byte := (b.1, .own)

def ownTok : Tok → Tok
  | .word w => .word (w.map toOwn)
  | .op b => .op (toOwn b)
  | .expansion b => .expansion (toOwn b)

theorem text_toOwn (m : Mode) (cur : List Byte) (out : List Tok) (b : Byte) :
    Lexer.text ⟨m, cur.map toOwn, out.map ownTok⟩ (toOwn b) = (Lexer.text ⟨m, cur, out⟩ b).map toOwn := by
  unfold Lexer.text
  cases m with
  | comment => rfl
  | escDouble =>
    simp [toOwn, apply_ite (List.map toOwn)]
    rfl
  | _ => simp only [toOwn]; split <;> simp_all [toOwn]

theorem emit_toOwn (m : Mode) (cur : List Byte) (out : List Tok) (b : Byte) :
    Lexer.emit ⟨m, cur.map toOwn, out.map ownTok⟩ (toOwn b) = (Lexer.emit ⟨m, cur, out⟩ b).map ownTok := by
  unfold Lexer.emit
  cases m with
  | blank => simp only [toOwn]; split <;> simp_all [toOwn, ownTok]
  | word => simp only [toOwn]; split <;> simp_all [toOwn, ownTok]
  | double => simp only [toOwn]; split <;> simp_all [toOwn, ownTok]
  | comment => simp only [toOwn]; split <;> simp_all [toOwn, ownTok]
  | _ => rfl

/-- The reader does not look at the origins. -/
theorem run_toOwn (s : List Byte) : ∀ (m : Mode) (cur : List Byte) (out : List Tok),
    Lexer.run ⟨m, cur.map toOwn, out.map ownTok⟩ (s.map toOwn) =
      ⟨(Lexer.run ⟨m, cur, out⟩ s).mode, (Lexer.run ⟨m, cur, out⟩ s).cur.map toOwn,
        (Lexer.run ⟨m, cur, out⟩ s).out.map ownTok⟩ := by
  induction s with
  | nil => exact fun _ _ _ => rfl
  | cons b s ih =>
    intro m cur out
    have hstep : Lexer.step ⟨m, cur.map toOwn, out.map ownTok⟩ (toOwn b) =
        ⟨next m b.1, (Lexer.text ⟨m, cur, out⟩ b).map toOwn, (out ++ Lexer.emit ⟨m, cur, out⟩ b).map ownTok⟩ := by
      rw [Lexer.step, text_toOwn, emit_toOwn, List.map_append]
      rfl
    show Lexer.run (Lexer.step _ (toOwn b)) (s.map toOwn) = _
    rw [hstep, ih]
    rfl

theorem lex_toOwn (line : List Byte) : lex (line.map toOwn) = (lex line).map (List.map ownTok) := by
  have hrun := run_toOwn line .blank [] []
  rw [List.map_nil, List.map_nil] at hrun
  rw [lex, lex, start, hrun]
  unfold Lexer.finish
  rcases Lexer.run ⟨.blank, [], []⟩ line with ⟨m, cur, out⟩
  cases m <;> simp [ownTok]

/-! ## Lines of programs -/

/-- Where a token stands: at the start of a command, among the names `export` gives out, among
    the arguments, behind a `<` or `>`. -/
inductive Place where
  | start
  | exporting
  | argument
  | target
  deriving DecidableEq

def text (w : List Byte) : Str := w.map Prod.fst

/-- A program called by its path, or `umask`. -/
def isProgram (w : Str) : Bool := (str "/").isPrefixOf w || w == str "umask"

/-- The token goes on with a line of programs: a program, its words and redirections, a `;`. -/
def callsProgram (p : Place) : Tok → Bool
  | .word w => p != .start || isProgram (text w)
  | .op b => b.1 == 59 || b.1 == 62 && p == .argument || b.1 == 38 && p == .target
  | .expansion _ => false

/-- The place behind it. -/
def behind : Tok → Place
  | .op b => if b.1 = 59 then .start else .target
  | _ => .argument

def callsPrograms : Place → List Tok → Bool
  | _, [] => true
  | p, t :: r => callsProgram p t && callsPrograms (behind t) r

theorem callsPrograms_append {p q : Place} {ts r : List Tok} (hq : ts.getLast?.map behind = some q) :
    callsPrograms p (ts ++ r) = (callsPrograms p ts && callsPrograms q r) := by
  induction ts generalizing p with
  | nil => cases hq
  | cons t ts ih =>
    rw [List.cons_append, callsPrograms, callsPrograms, Bool.and_assoc]
    rcases ts with _ | ⟨t', ts⟩
    · cases hq
      rfl
    · rw [List.getLast?_cons_cons] at hq
      rw [ih hq]

theorem callsPrograms_words (ws : List (List Byte)) (r : List Tok) :
    callsPrograms .argument (ws.map .word ++ r) = callsPrograms .argument r := by
  induction ws with
  | nil => rfl
  | cons w ws ih => exact ih

theorem callsPrograms_ownTok (p : Place) (toks : List Tok) : callsPrograms p (toks.map ownTok) = callsPrograms p toks := by
  induction toks generalizing p with
  | nil => rfl
  | cons t toks ih =>
    rw [List.map_cons, callsPrograms, callsPrograms, ih]
    cases t <;> simp [callsProgram, behind, ownTok, toOwn, text, Function.comp_def]

/-! ## Shells -/

/-- Bytes of which an assignment can be made without quotes. -/
def verbatim : Str := str "ABCDEFGHIJKLMNOPQRSTUVWXYZabcdefghijklmnopqrstuvwxyz0123456789_/.:-"

theorem isPlain_verbatim : ∀ b ∈ verbatim, isPlain b = true := by decide +kernel

theorem digit_verbatim {b : UInt8} (h : isDigit b = true) : b ∈ verbatim := by
  have hall : ∀ b ∈ str "0123456789", b ∈ verbatim := by decide +kernel
  exact hall b (mem_digits h)

def exportText (p : Str × Str) : Str := str "export " ++ p.1 ++ str "=" ++ p.2 ++ str ";"

/-- An export as the shell reads it. -/
def exportToks (p : Str × Str) : List Tok :=
  [.word (own (str "export")), .word (own (p.1 ++ str "=" ++ p.2)), .op (59, .own)]

structure Verbatim (p : Str × Str) : Prop where
  name : p.1 ≠ []
  bytes : ∀ b ∈ p.1 ++ p.2, b ∈ verbatim

theorem run_export {p : Str × Str} (hp : Verbatim p) (out : List Tok) :
    Lexer.run ⟨.blank, [], out⟩ (own (exportText p)) = ⟨.blank, [], out ++ exportToks p⟩ := by
  have hword : ∀ b ∈ p.1 ++ str "=" ++ p.2, isPlain b = true := by
    have heq : ∀ b ∈ str "=", isPlain b = true := by decide
    have hbytes := fun b hb => isPlain_verbatim b (hp.bytes b hb)
    simp only [List.mem_append] at hbytes ⊢
    rintro b ((hb | hb) | hb)
    · exact hbytes b (Or.inl hb)
    · exact heq b hb
    · exact hbytes b (Or.inr hb)
  have hsplit : own (exportText p) = own (str "export" ++ str " ") ++ own (p.1 ++ str "=" ++ p.2 ++ str ";") := by
    rw [show str "export" ++ str " " = str "export " by decide]
    simp [own, exportText]
  rw [hsplit, Lexer.run_append, Lexer.run_word_blank (by decide) (by decide), Lexer.run_word_semicolon (by simp [hp.name]) hword]
  simp [exportToks]

theorem run_exports (l : List (Str × Str)) (h : ∀ p ∈ l, Verbatim p) (out : List Tok) :
    Lexer.run ⟨.blank, [], out⟩ (own (l.flatMap exportText)) = ⟨.blank, [], out ++ l.flatMap exportToks⟩ := by
  induction l generalizing out with
  | nil => simp [own, Lexer.run]
  | cons p l ih =>
    rw [List.flatMap_cons, List.flatMap_cons, show ∀ u v, own (u ++ v) = own u ++ own v from fun _ _ => List.map_append,
      Lexer.run_append, run_export (h p List.mem_cons_self), ih fun q hq => h q (List.mem_cons_of_mem _ hq), List.append_assoc]

/-- `exports env line v`: run with the assignments `env` exported, the newest first, the line
    gives the exported variable `name` the value `v`. -/
structure Sh (name : Str) where
  exports : List (Str × Str) → Str → Str → Prop
  export_only : ∀ {env : List (Str × Str)} {p : Str × Str} {rest v : Str}, Verbatim p →
    exports env (exportText p ++ rest) v → (p.1 = name ∧ v = p.2) ∨ exports (p :: env) rest v
  export_rest : ∀ {env : List (Str × Str)} {p : Str × Str} {rest v : Str}, Verbatim p →
    exports (p :: env) rest v → exports env (exportText p ++ rest) v
  programs : ∀ {env : List (Str × Str)} {line : Str} {toks : List Tok} {v : Str}, lex (own line) = some toks →
    callsPrograms .start toks = true → ¬ exports env line v

namespace Sh

variable {name : Str} (sh : Sh name)

theorem exports_behind {l : List (Str × Str)} (hl : ∀ p ∈ l, Verbatim p) {env : List (Str × Str)} {rest v : Str}
    (h : sh.exports env (l.flatMap exportText ++ rest) v) :
    (∃ p ∈ l, p.1 = name ∧ v = p.2) ∨ sh.exports (l.reverse ++ env) rest v := by
  induction l generalizing env with
  | nil => exact Or.inr h
  | cons p l ih =>
    rw [List.flatMap_cons, List.append_assoc] at h
    rcases sh.export_only (hl p List.mem_cons_self) h with ⟨hname, hv⟩ | hrest
    · exact Or.inl ⟨p, List.mem_cons_self, hname, hv⟩
    · rcases ih (fun q hq => hl q (List.mem_cons_of_mem _ hq)) hrest with ⟨q, hq, hqv⟩ | hrest
      · exact Or.inl ⟨q, List.mem_cons_of_mem _ hq, hqv⟩
      · rw [List.reverse_cons, List.append_assoc]
        exact Or.inr hrest

theorem exports_of_rest {l : List (Str × Str)} (hl : ∀ p ∈ l, Verbatim p) {env : List (Str × Str)} {rest v : Str}
    (h : sh.exports (l.reverse ++ env) rest v) : sh.exports env (l.flatMap exportText ++ rest) v := by
  induction l generalizing env with
  | nil => exact h
  | cons p l ih =>
    rw [List.reverse_cons, List.append_assoc] at h
    rw [List.flatMap_cons, List.append_assoc]
    exact sh.export_rest (hl p List.mem_cons_self) (ih (fun q hq => hl q (List.mem_cons_of_mem _ hq)) h)

end Sh

/-! ## A shell that reads exports -/

/-- The value a word gives the variable. -/
def assigned (name w : Str) : Option Str :=
  if (name ++ str "=").isPrefixOf w then some (w.drop (name.length + 1)) else none

/-- The values a line gives the variable by `export` and by assignments in front of a command. -/
def exported (name : Str) : Place → List Tok → List Str
  | _, [] => []
  | .start, .word w :: r =>
    if text w = str "export" then exported name .exporting r
    else match assigned name (text w) with
      | some v => v :: exported name .start r
      | none => exported name .argument r
  | .exporting, .word w :: r => (assigned name (text w)).toList ++ exported name .exporting r
  | _, .word _ :: r => exported name .argument r
  | p, .op b :: r =>
    if b.1 = 60 ∨ b.1 = 62 ∨ b.1 = 38 ∧ p = .target then exported name .target r else exported name .start r
  | p, .expansion _ :: r => exported name p r

theorem assigned_program {name w : Str} (hne : name ≠ []) (hname : (47 : UInt8) ∉ name) (h : isProgram w = true) :
    assigned name w = none := by
  refine if_neg fun hpre => ?_
  have hpre := List.isPrefixOf_iff_prefix.mp hpre
  rcases Bool.or_eq_true_iff.mp h with hslash | humask
  · -- a name does not start with a slash
    obtain ⟨r, rfl⟩ := List.isPrefixOf_iff_prefix.mp hslash
    obtain ⟨b, name, rfl⟩ := List.exists_cons_of_ne_nil hne
    have hb : b = 47 := (List.cons_prefix_cons.mp hpre).1
    exact hname (hb ▸ List.mem_cons_self)
  · rw [eq_of_beq humask] at hpre
    have hequals : (61 : UInt8) ∈ str "umask" := hpre.subset (List.mem_append_right _ (by decide))
    exact absurd hequals (by decide)

theorem behind_ne_exporting (t : Tok) : behind t ≠ .exporting := by
  cases t with
  | op b =>
    show (if b.1 = 59 then Place.start else .target) ≠ .exporting
    split <;> decide
  | _ => exact Place.noConfusion

theorem exported_callsPrograms {name : Str} (hne : name ≠ []) (hname : (47 : UInt8) ∉ name) {toks : List Tok} :
    ∀ {p : Place}, p ≠ .exporting → callsPrograms p toks = true → exported name p toks = [] := by
  induction toks with
  | nil => exact fun _ _ => by unfold exported; rfl
  | cons t toks ih =>
    intro p hp h
    obtain ⟨ht, h⟩ := Bool.and_eq_true_iff.mp (callsPrograms.eq_2 .. ▸ h)
    have hrest := ih (behind_ne_exporting t) h
    cases t with
    | expansion b => cases ht
    | op b =>
      simp only [callsProgram, Bool.or_eq_true, Bool.and_eq_true, beq_iff_eq] at ht
      rw [exported]
      simp only [behind] at hrest
      split
      · rename_i hb
        rw [if_neg (fun e => by simp [e] at hb)] at hrest
        exact hrest
      · rename_i hb
        rw [if_pos (by tauto)] at hrest
        exact hrest
    | word w =>
      cases p with
      | exporting => exact absurd rfl hp
      | start =>
        have hprogram : isProgram (text w) = true := ht
        rw [exported, if_neg (fun e => by rw [e] at hprogram; exact absurd hprogram (by decide)),
          assigned_program hne hname hprogram]
        exact hrest
      | argument => exact hrest
      | target => exact hrest

theorem lex_exports {l : List (Str × Str)} (hl : ∀ p ∈ l, Verbatim p) (rest : Str) :
    lex (own (l.flatMap exportText ++ rest)) = (lex (own rest)).map (l.flatMap exportToks ++ ·) := by
  rw [show own (l.flatMap exportText ++ rest) = own (l.flatMap exportText) ++ own rest from List.map_append, lex,
    Lexer.run_append, start, run_exports l hl, Lexer.finish_run]
  rfl

theorem lex_export {p : Str × Str} (hp : Verbatim p) (rest : Str) :
    lex (own (exportText p ++ rest)) = (lex (own rest)).map (exportToks p ++ ·) := by
  have h := lex_exports (l := [p]) (fun q hq => List.mem_singleton.mp hq ▸ hp) rest
  rwa [List.flatMap_singleton, List.flatMap_singleton] at h

theorem text_own (w : Str) : text (own w) = w := by simp [text, own, Function.comp_def]

theorem assigned_export {name : Str} {p : Str × Str} (hp : Verbatim p) (hname : (61 : UInt8) ∉ name) {v : Str}
    (h : assigned name (p.1 ++ str "=" ++ p.2) = some v) : p.1 = name ∧ v = p.2 := by
  have hbefore : ∀ {n : Str}, (61 : UInt8) ∉ n → ∀ b ∈ n, decide (b ≠ 61) = true :=
    fun hn b hb => decide_eq_true fun e => hn (e ▸ hb)
  have hequals : (61 : UInt8) ∉ p.1 := fun hm => absurd (hp.bytes 61 (List.mem_append_left _ hm)) (by decide)
  unfold assigned at h
  split at h
  · rename_i hpre
    cases h
    obtain ⟨r, hr⟩ := List.isPrefixOf_iff_prefix.mp hpre
    -- both names are what stands before the first `=`
    rw [show str "=" = [61] by decide, List.append_assoc, List.append_assoc] at hr
    have hfirst := congrArg (List.takeWhile fun b : UInt8 => decide (b ≠ 61)) hr
    rw [List.singleton_append, List.singleton_append, List.takeWhile_append_of_pos (hbefore hname),
      List.takeWhile_append_of_pos (hbefore hequals), List.takeWhile_cons_of_neg (by decide),
      List.takeWhile_cons_of_neg (by decide), List.append_nil, List.append_nil] at hfirst
    refine ⟨hfirst.symm, ?_⟩
    rw [hfirst]
    exact List.drop_left' (by rw [List.length_append]; rfl)
  · cases h

/-- What an export adds to the values of the line behind it. -/
theorem exported_export (name : Str) (p : Str × Str) (toks : List Tok) : exported name .start (exportToks p ++ toks) =
    (assigned name (p.1 ++ str "=" ++ p.2)).toList ++ exported name .start toks := by
  rw [exportToks, List.cons_append, List.cons_append, List.cons_append, List.nil_append, exported, if_pos (text_own _),
    exported, text_own, exported, if_neg (by decide)]

def Sh.literal (name : Str) (hne : name ≠ []) (hslash : (47 : UInt8) ∉ name) (hequals : (61 : UInt8) ∉ name) : Sh name where
  exports _ line v := ∃ toks, lex (own line) = some toks ∧ v ∈ exported name .start toks
  export_only := by
    rintro env p rest v hp ⟨toks, htoks, hv⟩
    rw [lex_export hp] at htoks
    obtain ⟨toks, hrest, rfl⟩ := Option.map_eq_some_iff.mp htoks
    rw [exported_export, List.mem_append] at hv
    rcases hv with hv | hv
    · exact Or.inl (assigned_export hp hequals (Option.mem_toList.mp hv))
    · exact Or.inr ⟨toks, hrest, hv⟩
  export_rest := by
    rintro env p rest v hp ⟨toks, htoks, hv⟩
    refine ⟨_, (lex_export hp rest).trans (congrArg (Option.map _) htoks), ?_⟩
    rw [exported_export]
    exact List.mem_append_right _ hv
  programs := by
    rintro env line toks v htoks hprograms ⟨toks', htoks', hv⟩
    cases htoks.symm.trans htoks'
    rw [exported_callsPrograms hne hslash (by decide) hprograms] at hv
    cases hv

end VyattaRest.Lib.Exports
