/-
  VyattaRest.Server.Messages — the texts of commands in the JSON bodies of configuration mode
  (confmode.cc, the constructor of `Error` in http.hh).

  The output of a shell command is escaped by five `mass_replace` in a row, the reply of configd
  to commit and save and the error of a PUT by two of them: a quote and a newline. Both work
  byte by byte, since nothing that was replaced is searched again.
  - `action_output_decodes`: the message of a POST action is the output, as `execute` builds it.
  - `messages_exact_iff`: the other three messages are their texts exactly when the text is not
    empty and has no backslash, which is not escaped there.
  - `a_backslash_is_not_escaped`: a commit whose reply ends in one.
-/

import VyattaRest.Lib.JsonEscape
import VyattaRest.Server.ConfMode
import VyattaRest.Server.JsonObject

namespace VyattaRest.Server.ConfMode

open VyattaRest.Lib VyattaRest.Lib.Prog VyattaRest.Rest

/-! ## Replacements byte by byte -/

/-- What the five replacements make of a byte. -/
def outputByte (b : UInt8) : Str :=
  if b = 92 then [92, 92]
  else if b = 34 then [92, 34]
  else if b = 13 then [92, 114]
  else if b = 10 then [92, 110]
  else if b = 9 then [92, 116]
  else [b]

/-- What the two replacements make of a byte. -/
def messageByte (b : UInt8) : Str :=
  if b = 34 then [92, 34]
  else if b = 10 then [92, 110]
  else [b]

theorem escapeOutput_eq (s : Str) : escapeOutput s = s.flatMap outputByte := by
  have h1 : str "\\" = [92] := by decide
  have h2 : str "\\\\" = [92, 92] := by decide
  have h3 : str "\"" = [34] := by decide
  have h4 : str "\\\"" = [92, 34] := by decide
  have h5 : str "\x0d" = [13] := by decide
  have h6 : str "\\r" = [92, 114] := by decide
  have h7 : str "\n" = [10] := by decide
  have h8 : str "\\n" = [92, 110] := by decide
  have h9 : str "\t" = [9] := by decide
  have h10 : str "\\t" = [92, 116] := by decide
  simp only [escapeOutput, h1, h2, h3, h4, h5, h6, h7, h8, h9, h10, massReplace_flatMap, List.flatMap_assoc]
  congr 1
  funext b
  unfold outputByte
  by_cases hb : b = 92
  · subst hb; decide
  by_cases hb : b = 34
  · subst hb; decide
  by_cases hb : b = 13
  · subst hb; decide
  by_cases hb : b = 10
  · subst hb; decide
  by_cases hb : b = 9
  · subst hb; decide
  simp [*]

/-- The escaping of replies and errors. -/
def escapeMessage (s : Str) : Str := massReplace (massReplace s (str "\"") (str "\\\"")) (str "\n") (str "\\n")

theorem escapeMessage_eq (s : Str) : escapeMessage s = s.flatMap messageByte := by
  have h3 : str "\"" = [34] := by decide
  have h4 : str "\\\"" = [92, 34] := by decide
  have h7 : str "\n" = [10] := by decide
  have h8 : str "\\n" = [92, 110] := by decide
  simp only [escapeMessage, h3, h4, h7, h8, massReplace_flatMap, List.flatMap_assoc]
  congr 1
  funext b
  unfold messageByte
  by_cases hb : b = 34
  · subst hb; decide
  by_cases hb : b = 10
  · subst hb; decide
  simp [*]

theorem outputByte_escaped {b : UInt8} (h : b < 32 → b = 13 ∨ b = 10 ∨ b = 9) : Escaped b (outputByte b) := by
  unfold outputByte
  by_cases h1 : b = 92
  · rw [if_pos h1, h1]
    exact Or.inr ⟨92, by decide, rfl⟩
  rw [if_neg h1]
  by_cases h2 : b = 34
  · rw [if_pos h2, h2]
    exact Or.inr ⟨34, by decide, rfl⟩
  rw [if_neg h2]
  by_cases h3 : b = 13
  · rw [if_pos h3, h3]
    exact Or.inr ⟨114, by decide, rfl⟩
  rw [if_neg h3]
  by_cases h4 : b = 10
  · rw [if_pos h4, h4]
    exact Or.inr ⟨110, by decide, rfl⟩
  rw [if_neg h4]
  by_cases h5 : b = 9
  · rw [if_pos h5, h5]
    exact Or.inr ⟨116, by decide, rfl⟩
  rw [if_neg h5]
  refine Or.inl ⟨?_, rfl⟩
  have hge : ¬ b < 32 := by tauto
  simp [isSpecial, h1, h2, hge]

theorem messageByte_escaped {b : UInt8} (h : b < 32 → b = 10) (h92 : b ≠ 92) : Escaped b (messageByte b) := by
  unfold messageByte
  by_cases h2 : b = 34
  · rw [if_pos h2, h2]
    exact Or.inr ⟨34, by decide, rfl⟩
  rw [if_neg h2]
  by_cases h4 : b = 10
  · rw [if_pos h4, h4]
    exact Or.inr ⟨110, by decide, rfl⟩
  rw [if_neg h4]
  refine Or.inl ⟨?_, rfl⟩
  have hge : ¬ b < 32 := fun hlt => h4 (h hlt)
  simp [isSpecial, h92, h2, hge]

theorem outputByte_ascii (b : UInt8) : outputByte b = [b] ∨ b.toNat < 128 ∧ ∀ c ∈ outputByte b, c.toNat < 128 := by
  unfold outputByte
  repeat' split
  all_goals
    first
    | exact Or.inl rfl
    | (rename_i h; subst h; exact Or.inr (by decide))

theorem messageByte_ascii (b : UInt8) : messageByte b = [b] ∨ b.toNat < 128 ∧ ∀ c ∈ messageByte b, c.toNat < 128 := by
  unfold messageByte
  repeat' split
  all_goals
    first
    | exact Or.inl rfl
    | (rename_i h; subst h; exact Or.inr (by decide))

/-! ## Texts with a message -/

/-- A JSON object whose member `message` is a text. -/
def HasMessage (body text : Str) : Prop :=
  ∃ ms, parseJson body = some (.object ms) ∧ ms.lookup (str "message") = some (.string text)

theorem serialize_message {v : Str} (hne : v ≠ []) :
    (Json.empty.addValue (str "message") v).serialize = memberObject (str "message") v := by
  have hv : v.isEmpty = false := by simpa using hne
  have hk : (str "message").isEmpty = false := by decide
  rw [Json.addValue, hv, hk]
  simp only [Bool.or_self, Bool.false_eq_true, if_false]
  show (str "\x7b" ++ [] ++ ((Json.quote (str "message") ++ str ":" ++ Json.quote v ++ str ",") ++ [])).dropLast ++ str "\x7d" = _
  rw [List.append_nil, List.append_nil, show str "," = [44] by decide, ← List.append_assoc, List.dropLast_concat]
  simp [Json.quote, memberObject, show str "\x7b" = [123] by decide, show str "\x7d" = [125] by decide,
    show str "\"" = [34] by decide, show str ":" = [58] by decide]

theorem message_plain : PlainText (str "message") ∧ Utf8 (str "message") := by
  refine ⟨?_, by decide⟩
  unfold PlainText
  decide

/-- The text between the quotes, escaped byte by byte. -/
theorem parse_message {enc : UInt8 → Str} {text : Str} (hs : ∀ b ∈ text, Escaped b (enc b))
    (ha : ∀ b, enc b = [b] ∨ b.toNat < 128 ∧ ∀ c ∈ enc b, c.toNat < 128) (hu : Utf8 text) :
    parseJson (memberObject (str "message") (text.flatMap enc)) = some (.object [(str "message", .string text)]) :=
  parseJson_member message_plain.1 message_plain.2 hs (utf8_flatMap (fun b _ => ha b) hu)

theorem lookup_message (v : JsonValue) : List.lookup (str "message") [(str "message", v)] = some v := by
  rw [List.lookup_cons_self]

/-- The two replacements make the text longer by its quotes and newlines, and not by its backslashes. -/
theorem length_messageByte {text : Str} (hc : ∀ b ∈ text, b < 32 → b = 10) :
    text.length + specialsIn text = (text.flatMap messageByte).length + text.count 92 := by
  induction text with
  | nil => rfl
  | cons b text ih =>
    have ih := ih fun c hc' => hc c (List.mem_cons_of_mem _ hc')
    have hb := hc b List.mem_cons_self
    rw [specialsIn] at ih ⊢
    rw [List.countP_cons, List.length_cons, List.flatMap_cons, List.length_append, List.count_cons]
    have hone : (if isSpecial b = true then 1 else 0) + 1 = (messageByte b).length + if (b == 92) = true then 1 else 0 := by
      by_cases h1 : b = 34
      · subst h1; decide
      by_cases h2 : b = 10
      · subst h2; decide
      by_cases h3 : b = 92
      · subst h3; decide
      have hge : ¬ b < 32 := fun hlt => h2 (hb hlt)
      simp [messageByte, isSpecial, h1, h2, h3, hge]
    omega

theorem hasMessage_iff {text : Str} (hu : Utf8 text) (hc : ∀ b ∈ text, b < 32 → b = 10) :
    HasMessage (memberObject (str "message") (text.flatMap messageByte)) text ↔ (92 : UInt8) ∉ text := by
  constructor
  · rintro ⟨ms, hparse, hlookup⟩ hmem
    have hweight := weight_le_of_member hparse hlookup
    have hlen := length_messageByte hc
    have hpos := List.count_pos_iff.mpr hmem
    have hspecial : specialsIn (str "message") = 0 := specialsIn_eq_zero.mpr message_plain.1
    simp only [memberObject, List.length_cons, List.length_append, List.length_nil, hspecial] at hweight
    omega
  · intro h92
    refine ⟨_, parse_message (fun b hb => messageByte_escaped (hc b hb) ?_) messageByte_ascii hu, lookup_message _⟩
    rintro rfl
    exact h92 hb

/-! ## The calls whose text is sent -/

/-- A call whose answer is not put into a message. -/
def Untold : Call → Prop
  | .popen _ | .configdCommit | .configdSave => False
  | _ => True

theorem substrAt_untold (s : Str) (pos n : Nat) : Prog.wp (fun _ _ => True) Untold True (substrAt s pos n) fun _ => True := by
  unfold substrAt
  split <;> trivial

theorem readConfModifyFile_untold (id user description : Str) :
    Prog.wp (fun _ _ => True) Untold True (readConfModifyFile id user description) fun _ => True := by
  refine (wp_then _ _ _).mpr ⟨trivial, fun a _ => ?_⟩
  rcases a with _ | _ | buf
  · trivial
  · trivial
  · simp only
    split
    · trivial
    · refine (Prog.wp_bind _ _ _).mpr (Prog.wp_mono (substrAt_untold _ _ _) fun _ _ => ?_)
      exact (Prog.wp_bind _ _ _).mpr (Prog.wp_mono (substrAt_untold _ _ _) fun _ _ => trivial)

theorem findTag_untold (tag user : Str) : ∀ names : List Str,
    Prog.wp (fun _ _ => True) Untold True (findTag tag user names) fun _ => True := by
  intro names
  induction names with
  | nil => trivial
  | cons name names ih =>
    rw [findTag]
    refine (Prog.wp_ite _ _ _).mpr ⟨fun _ => ih, fun _ => ?_⟩
    refine (Prog.wp_bind _ _ _).mpr (Prog.wp_mono (substrAt_untold _ _ _) fun _ _ => ?_)
    refine (Prog.wp_bind _ _ _).mpr (Prog.wp_mono (readConfModifyFile_untold _ _ _) fun _ _ => ?_)
    exact (Prog.wp_ite _ _ _).mpr ⟨fun _ => trivial, fun _ => ih⟩

theorem actionId_untold (t : Target) : Prog.wp (fun _ _ => True) Untold True (actionId t) fun _ => True := by
  unfold actionId
  refine (Prog.wp_ite _ _ _).mpr ⟨fun _ => ?_, fun _ => trivial⟩
  refine (wp_then _ _ _).mpr ⟨trivial, fun names _ => ?_⟩
  rcases names with _ | names
  · trivial
  · exact findTag_untold _ _ names

theorem pathAfterId_untold (p : Str) : Prog.wp (fun _ _ => True) Untold True (pathAfterId p) fun _ => True := by
  refine (Prog.wp_bind _ _ _).mpr (Prog.wp_mono (substrAt_untold _ _ _) fun _ _ => ?_)
  split
  · exact substrAt_untold _ _ _
  · exact substrAt_untold _ _ _

theorem discardSession_untold (id : Str) :
    Prog.wp (fun _ _ => True) Untold True (discardSession id false) fun _ => True := by
  unfold discardSession
  refine (Prog.wp_ite _ _ _).mpr ⟨fun _ => trivial, fun _ => (wp_then _ _ _).mpr ⟨trivial, fun opened _ => ?_⟩⟩
  refine (Prog.wp_ite _ _ _).mpr ⟨fun _ => trivial, fun _ => ?_⟩
  refine (wp_then _ _ _).mpr ⟨trivial, fun _ _ => (wp_then _ _ _).mpr ⟨trivial, fun _ _ => ?_⟩⟩
  exact (wp_then _ _ _).mpr ⟨trivial, fun _ _ => trivial⟩

theorem command_untold (a : ShellAction) (act : Str) : Prog.wp (fun _ _ => True) Untold True (a.command act) fun _ => True := by
  unfold ShellAction.command
  refine (Prog.wp_ite _ _ _).mpr ⟨fun _ => trivial, fun _ => ?_⟩
  exact (Prog.wp_bind _ _ _).mpr (Prog.wp_mono (substrAt_untold _ _ _) fun _ _ => trivial)

/-! ## What the client is told -/

/-- The output of a command as `execute` puts it together behind a space. -/
def outputText (output : Str) : Str := str " " ++ (lines 10 output).flatMap (· ++ str " ")

theorem mem_outputText {output : Str} {b : UInt8} (h : b ∈ outputText output) : b = 32 ∨ b ∈ output := by
  have hspace : ∀ c ∈ str " ", c = 32 := by decide
  rcases List.mem_append.mp h with h | h
  · exact Or.inl (hspace b h)
  · obtain ⟨l, hl, hb⟩ := List.mem_flatMap.mp h
    rcases List.mem_append.mp hb with hb | hb
    · exact Or.inr (mem_lines hl b hb)
    · exact Or.inl (hspace b hb)

theorem utf8_outputText {output : Str} (hu : Utf8 output) : Utf8 (outputText output) := by
  have hspace : Utf8 (str " ") := by decide
  have hlines := utf8_lines hu
  rw [outputText, utf8_append hspace]
  generalize lines 10 output = ls at hlines
  induction ls with
  | nil => exact utf8_nil
  | cons l ls ih =>
    rw [List.flatMap_cons, List.append_assoc, utf8_append (hlines l List.mem_cons_self), utf8_append hspace]
    exact ih fun l' hl' => hlines l' (List.mem_cons_of_mem _ hl')

/-- Lines without a NUL are added as they are. -/
theorem outputText_eq {output : Str} (h0 : (0 : UInt8) ∉ output) :
    (str " " ++ (lines 10 output).flatMap fun l => cstr l ++ str " ") = outputText output := by
  rw [outputText]
  refine congrArg (str " " ++ ·) ?_
  rw [List.flatMap_def, List.flatMap_def, List.map_congr_left]
  intro l hl
  rw [cstr_of_notMem fun h => h0 (mem_lines hl 0 h)]

/-- Text whose control characters are line ends and tabs. -/
def Printable (text : Str) : Prop := Utf8 text ∧ ∀ b ∈ text, b < 32 → b = 13 ∨ b = 10 ∨ b = 9

/-- Text whose only control character is the newline. -/
def Lines (text : Str) : Prop := Utf8 text ∧ ∀ b ∈ text, b < 32 → b = 10

theorem output_body {output : Str} (h : Printable output) (s : Session) :
    parseJson ((s.setResponse .body
      (Json.empty.addValue (str "message") (escapeOutput (outputText output))).serialize).response.get .body) = some (.object [(str "message", .string (outputText output))]) := by
  have hcontrol : ∀ b ∈ outputText output, b < 32 → b = 13 ∨ b = 10 ∨ b = 9 := by
    intro b hb hlt
    rcases mem_outputText hb with rfl | hb
    · exact absurd hlt (by decide)
    · exact h.2 b hb hlt
  have hne : escapeOutput (outputText output) ≠ [] := by
    rw [escapeOutput_eq, outputText, List.flatMap_append]
    exact fun e => absurd (List.append_eq_nil_iff.mp e).1 (by decide)
  have hbody : (s.setResponse .body
      (Json.empty.addValue (str "message") (escapeOutput (outputText output))).serialize).response.get .body =
        memberObject (str "message") ((outputText output).flatMap outputByte) := by
    rw [serialize_message hne, escapeOutput_eq]
    simp [Session.setResponse, Http.set, Http.get]
  rw [hbody]
  exact parse_message (fun b hb => outputByte_escaped (hcontrol b hb)) outputByte_ascii (utf8_outputText h.1)

theorem get_setResponse (s : Session) (key k : Key) (val : Str) :
    (s.setResponse key val).response.get k = if k = key then val else s.response.get k := by
  unfold Session.setResponse Http.set Http.get
  by_cases hk : k = key <;> simp [hk]

theorem escapeMessage_ne_nil {text : Str} (h : text ≠ []) : escapeMessage text ≠ [] := by
  obtain ⟨b, text, rfl⟩ := List.exists_cons_of_ne_nil h
  rw [escapeMessage_eq, List.flatMap_cons]
  refine fun e => absurd (List.append_eq_nil_iff.mp e).1 ?_
  unfold messageByte
  repeat' split
  all_goals simp

theorem not_hasMessage_nil (text : Str) : ¬ HasMessage [] text := by
  rintro ⟨ms, h, -⟩
  have : parseJson [] = none := by decide
  rw [this] at h
  cases h

/-- The body after commit and save. -/
def replyBody (action text : Str) : Str :=
  (Json.empty.addValue (str "message")
    (escapeMessage (if text = [] ∧ action ≠ str "commit" then str "Saving configuration ... Done" else text))).serialize

theorem replyBody_iff {text : Str} (h : Lines text) (action : Str) :
    HasMessage (replyBody action text) text ↔ text ≠ [] ∧ (92 : UInt8) ∉ text := by
  by_cases hnil : text = []
  · subst hnil
    refine iff_of_false ?_ fun h => h.1 rfl
    unfold replyBody
    by_cases hact : action = str "commit"
    · rw [if_neg fun h => h.2 hact]
      exact not_hasMessage_nil []
    · have hdone : Lines (str "Saving configuration ... Done") := ⟨by decide, by decide⟩
      rw [if_pos ⟨rfl, hact⟩, serialize_message (escapeMessage_ne_nil (by decide)), escapeMessage_eq]
      rintro ⟨ms, hparse, hlookup⟩
      rw [parse_message (fun b hb => messageByte_escaped (hdone.2 b hb) ?_) messageByte_ascii hdone.1] at hparse
      · cases hparse
        rw [lookup_message] at hlookup
        simp only [Option.some.injEq, JsonValue.string.injEq] at hlookup
        exact absurd hlookup (by decide)
      · rintro rfl
        exact absurd hb (by decide)
  · rw [replyBody, if_neg fun h => hnil h.1, serialize_message (escapeMessage_ne_nil hnil), escapeMessage_eq,
      hasMessage_iff h.1 h.2]
    exact ⟨fun h92 => ⟨hnil, h92⟩, fun h => h.2⟩

/-- The body of a failed PUT. -/
theorem putError_iff {text : Str} (h : Lines text) {s : Session} (hs : s.response.get .body = []) :
    HasMessage ((s.errorMsg .configurationError (escapeMessage text)).response.get .body) (str ": " ++ text) ↔
      text ≠ [] ∧ (92 : UInt8) ∉ text := by
  by_cases hnil : text = []
  · subst hnil
    refine iff_of_false ?_ fun h => h.1 rfl
    have hbody : (s.errorMsg .configurationError (escapeMessage [])).response.get .body = [] := by
      have hsame : s.errorMsg .configurationError (escapeMessage []) = s.setResponse .respCode (str "400") := rfl
      rw [hsame, get_setResponse, if_neg (by decide), hs]
    rw [hbody]
    exact not_hasMessage_nil _
  · have hne := escapeMessage_ne_nil hnil
    have hcolon : Utf8 (str ": ") := by decide
    have htext : Lines (str ": " ++ text) := by
      refine ⟨(utf8_append hcolon text).mpr h.1, fun b hb hlt => ?_⟩
      rcases List.mem_append.mp hb with hb | hb
      · have : ∀ c ∈ str ": ", ¬ c < 32 := by decide
        exact absurd hlt (this b hb)
      · exact h.2 b hb hlt
    have hbody : (s.errorMsg .configurationError (escapeMessage text)).response.get .body =
        memberObject (str "message") ((str ": " ++ text).flatMap messageByte) := by
      have hempty : (escapeMessage text).isEmpty = false := by simpa using hne
      have hmessage : str ": " ++ escapeMessage text = (str ": " ++ text).flatMap messageByte := by
        rw [escapeMessage_eq, List.flatMap_append]
        rfl
      have hjson : ((Json.empty.addValue (str "message") (str ": " ++ escapeMessage text)).addValue (str "error") []).serialize =
          memberObject (str "message") ((str ": " ++ text).flatMap messageByte) := by
        rw [← hmessage, ← serialize_message (by simp [hne])]
        rfl
      have hset : (s.errorMsg .configurationError (escapeMessage text)) =
          (s.setResponse .body (memberObject (str "message") ((str ": " ++ text).flatMap messageByte))).setResponse .respCode
            (str "400") := by
        simp only [Session.errorMsg, ErrorType.response, hempty, Bool.false_eq_true, if_false, List.nil_append, hjson]
        rw [if_neg (by simp [memberObject])]
      rw [hset, get_setResponse, if_neg (by decide), get_setResponse, if_pos rfl]
    rw [hbody, hasMessage_iff htext.1 htext.2, List.mem_append, not_or]
    exact ⟨fun h92 => ⟨hnil, h92.2⟩, fun h' => ⟨by decide, h'.2⟩⟩

/-! ## The rest of a request after the call -/

/-- How a POST action goes on after the call whose text it sends: it returns with that text as
    the message of its body. -/
def Told : (c : Call) → (c.Answer → Act Session) → Prop
  | .popen _, k => ∀ output status, Printable output → ∃ s', k (some (lines 10 output, status)) = .ret s' ∧
      parseJson (s'.response.get .body) = some (.object [(str "message", .string (outputText output))])
  | .configdCommit, k | .configdSave, k => ∀ text r, Lines text → (r = .ok text ∨ r = .error text) →
      ∃ s', k r = .call .configdClose (fun _ => .ret s') ∧
        (HasMessage (s'.response.get .body) text ↔ text ≠ [] ∧ (92 : UInt8) ∉ text)
  | _, _ => True

theorem told_of_untold (c : Call) (k : c.Answer → Act Session) (h : Untold c) : Told c k := by
  cases c <;> trivial

/-- The session after the reply. -/
def replied (s : Session) (act : Str) : Except Str Str → Session
  | .ok text => s.setResponse .body (replyBody act text)
  | .error text => (s.error .configurationError).setResponse .body (replyBody act text)

theorem commitOrSave_eq (s : Session) (sid act : Str) : commitOrSave s sid act = (do
    if !(← perform .configdOpen) then return s
    perform (.configdSetSessionId sid)
    let reply ← commitReply act
    perform .configdClose
    return replied s act reply) := by
  unfold commitOrSave
  congr 1
  funext opened
  congr 1
  refine congrArg (perform (.configdSetSessionId sid) >>= ·) ?_
  funext _
  refine congrArg (commitReply act >>= ·) ?_
  funext reply
  rcases reply with text | text <;> rfl

theorem replied_told (s : Session) (act : Str) {text : Str} {r : Except Str Str} (h : Lines text)
    (hr : r = .ok text ∨ r = .error text) :
    HasMessage ((replied s act r).response.get .body) text ↔ text ≠ [] ∧ (92 : UInt8) ∉ text := by
  rcases hr with rfl | rfl
  · rw [replied, get_setResponse, if_pos rfl]
    exact replyBody_iff h act
  · rw [replied, get_setResponse, if_pos rfl]
    exact replyBody_iff h act

theorem commitOrSave_told (s : Session) (sid act : Str) : (commitOrSave s sid act).Leads Told := by
  rw [commitOrSave_eq]
  refine ⟨trivial, fun opened => leads_ite (fun _ => trivial) fun _ => ⟨trivial, fun _ => ?_⟩⟩
  unfold commitReply
  split
  · exact ⟨fun text r h hr => ⟨_, rfl, replied_told s act h hr⟩, fun _ => ⟨trivial, fun _ => trivial⟩⟩
  · exact ⟨fun text r h hr => ⟨_, rfl, replied_told s act h hr⟩, fun _ => ⟨trivial, fun _ => trivial⟩⟩

theorem action_told (s : Session) (t : Target) : (action s t).Leads Told := by
  unfold action
  refine leads_bind (actionId_untold t) told_of_untold fun found _ => ?_
  rcases found with _ | id
  · trivial
  refine leads_ite (fun _ => trivial) fun _ => ?_
  refine leads_bind (pathAfterId_untold _) told_of_untold fun act _ => ?_
  refine leads_ite (fun _ => commitOrSave_told s _ act) fun _ => leads_ite (fun _ => ?_) fun _ => ?_
  · exact leads_bind (discardSession_untold id) told_of_untold fun _ _ => trivial
  simp only
  rcases ShellAction.find? act with _ | a
  · trivial
  refine leads_bind (command_untold a act) told_of_untold fun tmp _ => ⟨?_, fun _ => ?_⟩
  · intro output status h
    have h0 : (0 : UInt8) ∉ output := fun hmem => absurd (h.2 0 hmem (by decide)) (by decide)
    refine ⟨_, rfl, ?_⟩
    show parseJson ((Session.setResponse _ .body (Json.empty.addValue (str "message")
      (escapeOutput (str " " ++ (lines 10 output).flatMap fun l => cstr l ++ str " "))).serialize).response.get .body) = _
    rw [outputText_eq h0]
    exact output_body h _
  · rename_i out
    rcases out with _ | out <;> trivial

/-- A PUT goes on after its command with the error it sends. -/
def PutTold : (c : Call) → (c.Answer → Act Session) → Prop
  | .popen _, k => ∀ ls status text, status ≠ 0 → (ls.flatMap fun l => cstr l ++ str " ") = text → Lines text →
      ∃ s', k (some (ls, status)) = .ret s' ∧
        (HasMessage (s'.response.get .body) (str ": " ++ text) ↔ text ≠ [] ∧ (92 : UInt8) ∉ text)
  | _, _ => True

theorem putTold_of_untold (c : Call) (k : c.Answer → Act Session) (h : Untold c) : PutTold c k := by
  cases c <;> trivial

theorem put_told {s : Session} (hs : s.response.get .body = []) (t : Target) : (put s t).Leads PutTold := by
  unfold put
  refine leads_ite (fun _ => trivial) fun _ => leads_ite (fun _ => trivial) fun _ => ?_
  refine leads_bind (substrAt_untold _ _ _) putTold_of_untold fun rest _ => ?_
  rcases find (str "/") rest with _ | pos
  · trivial
  refine leads_ite (fun _ => trivial) fun _ => ?_
  refine leads_bind (substrAt_untold _ _ _) putTold_of_untold fun confPath _ => ?_
  rcases putCommand confPath with _ | cmd
  · trivial
  refine ⟨?_, fun out => ?_⟩
  · rintro ls status text hstatus rfl h
    refine ⟨s.errorMsg .configurationError (escapeMessage (ls.flatMap fun l => cstr l ++ str " ")), if_pos hstatus, ?_⟩
    exact putError_iff h hs
  · rcases out with _ | out
    · trivial
    · exact leads_ite (fun _ => trivial) fun _ => trivial

/-- A POST action that has come to its command returns, whatever the command prints and its
    status is, and the message is what it printed. -/
theorem action_output_decodes (env : (c : Call) → c.Answer → Prop) (s : Session) (t : Target)
    (tr : List (Sigma Call.Answer)) (cmd : Str) (k : Call.Answer (.popen cmd) → Act Session)
    (hrun : Exec env (action s t) tr (.call (.popen cmd) k)) (output : Str) (status : Int) (houtput : Printable output) :
    ∃ s', k (some (lines 10 output, status)) = .ret s' ∧
      parseJson (s'.response.get .body) = some (.object [(str "message", .string (outputText output))]) :=
  (hrun.leads (action_told s t)).1 output status houtput

/-- A session and a target of one user. -/
def messageSession : Session := { Session.new with user := str "vyatta" }

def messageTarget (act : Str) : Target where
  confPathWithId := str "/0000000000000001/" ++ act
  id := str "0000000000000001"
  tag := str "edit"
  user := str "vyatta"

/-- `show` with a tab, a quote, a backslash and a letter of two bytes in the output. -/
theorem a_shown_configuration_decodes : ∃ cmd k s',
    Exec (fun _ _ => True) (action messageSession (messageTarget (str "show"))) [] (.call (.popen cmd) k) ∧
    k (some (lines 10 (str "a\t\"b\\\nä"), 0)) = .ret s' ∧
    parseJson (s'.response.get .body) = some (.object [(str "message", .string (outputText (str "a\t\"b\\\nä")))]) := by
  have hprintable : Printable (str "a\t\"b\\\nä") := ⟨by decide, by decide⟩
  have hnext : ((action messageSession (messageTarget (str "show"))).replay []).bind next? =
      some (.popen (environment (Configuration.convConfId (str "0000000000000001")) ++
        str ";/bin/cli-shell-api showConfig 2>&1")) := by decide +kernel
  obtain ⟨k, hrun⟩ := exec_call_free hnext
  obtain ⟨s', hret, hbody⟩ := action_output_decodes _ _ _ _ _ k hrun _ 0 hprintable
  exact ⟨_, k, s', hrun, hret, hbody⟩

/-- Commit and save, whether configd succeeds or not, and the error of a PUT: the message is the
    text exactly when it is not empty and has no backslash. -/
theorem messages_exact_iff (env : (c : Call) → c.Answer → Prop) (s : Session) (t : Target) (text : Str)
    (htext : Lines text) :
    (∀ tr k r, Exec env (action s t) tr (.call .configdCommit k) → (r = .ok text ∨ r = .error text) →
      ∃ s', k r = .call .configdClose (fun _ => .ret s') ∧
        (HasMessage (s'.response.get .body) text ↔ text ≠ [] ∧ (92 : UInt8) ∉ text)) ∧
    (∀ tr k r, Exec env (action s t) tr (.call .configdSave k) → (r = .ok text ∨ r = .error text) →
      ∃ s', k r = .call .configdClose (fun _ => .ret s') ∧
        (HasMessage (s'.response.get .body) text ↔ text ≠ [] ∧ (92 : UInt8) ∉ text)) ∧
    ∀ tr cmd k ls status, s.response.get .body = [] → Exec env (put s t) tr (.call (.popen cmd) k) → status ≠ 0 →
      (ls.flatMap fun l => cstr l ++ str " ") = text →
      ∃ s', k (some (ls, status)) = .ret s' ∧
        (HasMessage (s'.response.get .body) (str ": " ++ text) ↔ text ≠ [] ∧ (92 : UInt8) ∉ text) := by
  refine ⟨fun tr k r hrun => ?_, fun tr k r hrun => ?_, fun tr cmd k ls status hs hrun hstatus heq => ?_⟩
  · exact (hrun.leads (action_told s t)).1 text r htext
  · exact (hrun.leads (action_told s t)).1 text r htext
  · exact (hrun.leads (put_told hs t)).1 ls status text hstatus heq htext

/-- Up to the call of commit. -/
def commitAnswers : List (Sigma Call.Answer) :=
  [⟨.configdOpen, true⟩, ⟨.configdSetSessionId (Configuration.convConfId (str "0000000000000001")), ()⟩]

theorem a_reply_with_a_quote_decodes : ∃ k s',
    Exec (fun _ _ => True) (action messageSession (messageTarget (str "commit"))) commitAnswers (.call .configdCommit k) ∧
    k (.ok (str "\"eth0\"\nfailed")) = .call .configdClose (fun _ => .ret s') ∧
    HasMessage (s'.response.get .body) (str "\"eth0\"\nfailed") := by
  have hlines : Lines (str "\"eth0\"\nfailed") := ⟨by decide, by decide⟩
  have hnext : ((action messageSession (messageTarget (str "commit"))).replay commitAnswers).bind next? =
      some .configdCommit := by decide
  obtain ⟨k, hrun⟩ := exec_call_free hnext
  obtain ⟨s', hret, hbody⟩ := (messages_exact_iff _ _ _ _ hlines).1 _ k _ hrun (Or.inl rfl)
  exact ⟨k, s', hrun, hret, hbody.mpr (by decide)⟩

/-- A commit whose reply ends in a backslash, which then escapes the quote behind it. -/
theorem a_backslash_is_not_escaped : ∃ k s', Lines (str "a\\") ∧
    Exec (fun _ _ => True) (action messageSession (messageTarget (str "commit"))) commitAnswers (.call .configdCommit k) ∧
    k (.ok (str "a\\")) = .call .configdClose (fun _ => .ret s') ∧ ¬ HasMessage (s'.response.get .body) (str "a\\") := by
  have hlines : Lines (str "a\\") := ⟨by decide, by decide⟩
  have hnext : ((action messageSession (messageTarget (str "commit"))).replay commitAnswers).bind next? =
      some .configdCommit := by decide
  obtain ⟨k, hrun⟩ := exec_call_free hnext
  obtain ⟨s', hret, hbody⟩ := (hrun.leads (action_told _ _)).1 _ _ hlines (Or.inl rfl)
  exact ⟨k, s', hlines, hrun, hret, fun h => (hbody.mp h).2 (by decide)⟩

end VyattaRest.Server.ConfMode
