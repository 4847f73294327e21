/-
  VyattaRest.AppRead — how an application reads the configuration into a message, and what
  writing that message back does (App/MsgSimple.pm, `_get_elem`, `_scrub_elem`, `send` and
  `write_to_configuration`).

  Reading goes down a map and puts the values of the running configuration under its elements,
  at every depth. Before the message is sent, some names are taken out of it wherever they are.
  - `message_shows_configuration`: the message has the values that the configuration has, and no
    others.
  - `written_back`: the commands for the same message leave the configuration as it is, but for
    the leaves that are there without a value.
-/

import Mathlib.Data.List.Dedup
import VyattaRest.AppMessage
import VyattaRest.AppReconcile

namespace VyattaRest.MsgSimple

open VyattaRest.Lib
open VyattaRest.App (Fields maxMsgLen)

section Paths

variable {m : List Elem} {loc p : Path}

theorem Mapped.below_loc (hp : Mapped m loc p) : loc <+: p := by
  induction hp with
  | value he v => exact ⟨_, (List.append_assoc _ _ _).symm⟩
  | deeper he v hp ih =>
    rw [List.append_assoc] at ih
    exact (List.prefix_append _ _).trans ih

/-- A mapped value lies below one of the element that is on its way. -/
theorem Mapped.through (hm : Fits m) (hp : Mapped m loc p) {e : Elem} (he : e ∈ m) (hpre : loc ++ e.path <+: p) :
    ∃ v, loc ++ e.path ++ [v] <+: p ∧ (p = loc ++ e.path ++ [v] ∨ Mapped e.children (loc ++ e.path ++ [v]) p) := by
  cases hp with
  | @value _ _ e' he' v =>
    obtain rfl := hm.same he he' hpre (List.prefix_append _ _)
    exact ⟨v, List.prefix_rfl, Or.inl rfl⟩
  | @deeper _ _ _ e' he' v hp =>
    have hv := hp.below_loc
    obtain rfl := hm.same he he' hpre ((List.prefix_append _ _).trans hv)
    exact ⟨v, hv, Or.inr hp⟩

end Paths

namespace Reading

/-! ## Hashes -/

/-- What is under a reference; a hash that is not there is made. -/
def hash : Option JsonValue → Fields
  | some (.object fs) => fs
  | _ => []

/-- The hash `_values` of a node. -/
def valuesIn (d : Fields) : Fields := hash (d.lookup (str "_values"))

/-- An array of texts. -/
def texts (p : List Str) : JsonValue := .array (p.map .string)

/-- `_create_data_node`. -/
def createDataNode (d : Fields) (e : JsonValue) (v : Option Str) (p : JsonValue) : Fields :=
  let d := if d.defined (str "_enum") then d else d.set (str "_enum") e
  let d := match v with
    | some v => d.set (str "_values") (.object ((valuesIn d).set v .null))
    | none => d
  if d.defined (str "_parent") then d else d.set (str "_parent") p

/-! ## Enumerations -/

/-- `split`, which drops the empty fields at the end. -/
def split (p : UInt8 → Bool) (s : Str) : List Str := ((s.splitOnP p).reverse.dropWhile (· = [])).reverse

/-- Lines, or the words of a single line. -/
def splitOut (out : Str) : List Str := if out.contains 10 then split (· = 10) out else split isSpace out

def chomp (s : Str) : Str := if s.getLast? = some 10 then s.dropLast else s

/-- `_parse_enum_out`. -/
def parseEnumOut (out : Str) : JsonValue := texts (splitOut (out.filter (· ≠ 39)))

/-- `_process_val_help`: what stands before the first `;`. -/
def processValHelp : Option Str → JsonValue
  | none => .null
  | some out => .array ((splitOut out).map fun v => match split (· = 59) v with
    | [] => .null
    | a :: _ => .string a)

/-! ## `_get_elem` -/

/-- What a callback leaves in the hash it is given. -/
structure Reply where
  values : Option (List (Option Str))
  enum : JsonValue

/-- What `_get_elem` finds: the configuration, more of the templates, what a script prints, and
    the callbacks of the map. -/
structure Source where
  host : Host
  allowed : Path → Option Str
  valHelp : Path → Option Str
  output : Str → Str
  callback : Str → Option Str → Reply

/-- `while (m/\$(.*?)\)/g)`: what stands between a `$` and the next `)`; `cur` is being read. -/
def parameters (cur : Option Str) : Str → List Str
  | [] => []
  | b :: s =>
    match cur with
    | none => parameters (if b = 36 then some [] else none) s
    | some match_ => if b = 41 then match_ :: parameters none s else parameters (if b = 10 then none else some (match_ ++ [b])) s

/-- What comes behind a name on the way, if the name is on it. -/
def followed (name : Str) : Path → Option (Option Str)
  | [] => none
  | p :: path => if p = name then some path.head? else followed name path

/-- The node of an element before its values come. -/
def startNode (d : Fields) (elem : Str) (p : Path) : Fields :=
  if d.defined elem then hash (d.lookup elem) else [(str "_values", .null), (str "_parent", texts p)]

/-- The values that parameters of the location stand for, in a node that is there. -/
def addParameters (d : Fields) (elem location : Str) (p : Path) : Fields :=
  (parameters none location).foldl (fun d name => match followed name p with
    | some found =>
      if d.defined elem then d.set elem (.object (createDataNode (hash (d.lookup elem)) .null found (texts p))) else d
    | none => d) d

/-- The values of a callback. -/
def Reply.add (r : Reply) (d : Fields) (elem : Str) (p : Path) : Fields :=
  ((r.values.getD []).filterMap id).foldl
    (fun d v => d.set elem (.object (createDataNode (startNode d elem p) r.enum (some v) (texts p)))) d

/-- Every element below a value gets a hash. -/
def belowNew (children : List Elem) (s : Fields) : Fields :=
  children.foldl (fun s c => if s.defined c.name then s else s.set c.name (.object [])) s

/-- What the part of the map below an element, which is not empty, makes of each value. -/
def descend (children : List Elem) (elem : Str) (p : Path) (get : Str → Fields → Fields) (vals : List Str) (d : Fields) :
    Fields :=
  if children.isEmpty then d
  else vals.foldl (fun d v =>
    let node := (hash (d.lookup elem)).set (str "_parent") (texts p)
    let values := valuesIn node
    let below := belowNew children (hash (values.lookup v))
    d.set elem (.object (node.set (str "_values") (.object (values.set v (.object (get v below))))))) d

namespace Source

variable (s : Source)

/-- `_generate_enum`. -/
def generateEnum : Option Str → JsonValue
  | none => .null
  | some script => parseEnumOut (chomp (s.output script))

/-- `_get_values`: each value of a node once. -/
def getValues (n : Path) : List Str :=
  match s.host.tmpl n with
  | .tag | .multi => (s.host.running.children n).dedup
  | .single => (s.host.running.children n).head?.toList

/-- The node of an element with its enumeration and its values. -/
def fillNode (d : Fields) (elem param : Str) (p : Path) (vals : List Str) : Fields :=
  let node := createDataNode (startNode d elem p) (s.generateEnum (s.allowed (wordsOf param))) none .null
  let node := createDataNode node (processValHelp (s.valHelp (wordsOf param))) none .null
  vals.foldl (fun node v => createDataNode node .null (some v) (texts p)) node

/-- The callbacks of a map, before and behind its elements. -/
def around (m : List Elem) (loc : Option Str) (path : Path) (get : Fields → Fields) (d : Fields) : Fields :=
  let call (name : Str) (d : Fields) : Fields :=
    if m.any (·.name = name) then (s.callback name loc).add d name (path ++ [name]) else d
  call (str "callback_last") (get (call (str "callback_first") d))

mutual

def getElems : List Elem → Fields → Option Str → Path → Fields
  | [], d, _, _ => d
  | e :: m, d, loc, path => getElems m (getOne e d loc path) loc path

/-- One round of the loop over the map. -/
def getOne : Elem → Fields → Option Str → Path → Fields
  | .mk name location callback children, d, loc, path =>
    let p := path ++ [name]
    match location.filter (· ≠ []) with
    | some location =>
      let d := addParameters d name location p
      let param := paramLoc loc location
      let vals := s.getValues (wordsOf param)
      descend children name p (fun v below => s.around children (some (param ++ str " " ++ v)) (p ++ [v, str "_values"])
        (fun d => getElems children d (some (param ++ str " " ++ v)) (p ++ [v, str "_values"])) below) vals
        (d.set name (.object (s.fillNode d name param p vals)))
    | none =>
      if callback && name ≠ str "callback_first" && name ≠ str "callback_last" then
        let reply := s.callback name loc
        -- below a callback the locations begin anew
        descend children name p (fun v below => s.around children (some []) (p ++ [v, str "_values"])
          (fun d => getElems children d (some []) (p ++ [v, str "_values"])) below) ((reply.values.getD []).filterMap id)
          (reply.add d name p)
      else d

end

/-- `_get_elem`. -/
def getElem (m : List Elem) (d : Fields) (loc : Option Str) (path : Path) : Fields :=
  s.around m loc path (fun d => s.getElems m d loc path) d

end Source

/-- `_check_commit`, of what `show system commit` prints: the last commit was not made here. -/
def checkCommit (out : Str) : Bool :=
  let lines := split (· = 10) out
  !(contains (lines.headD []) (str "gui2_app") || decide (lines.length ≤ 3))

def commitError : JsonValue :=
  .object [(str "_source", .string []), (str "_values", .null),
    (str "_description", .string (str "Previous commit was not issued from webgui2 client")), (str "_code", .string (str "2"))]

/-- `read_from_configuration`: the data, for what `show system commit` prints. -/
def readFromConfiguration (s : Source) (m : List Elem) (commits : Str) : Fields :=
  s.getElem m (if checkCommit commits then [(str "_error", commitError)] else []) none [str "data"]

/-! ## Sending -/

/-- The names that are taken out. -/
def scrubbed : List Str := [str "_parent", str "callback_first", str "callback_last"]

mutual

/-- `_scrub_elem`. -/
def scrubElem : JsonValue → JsonValue
  | .object fs => .object (scrubFields fs)
  | v => v

def scrubFields : Fields → Fields
  | [] => []
  | (k, v) :: fs => if k ∈ scrubbed then scrubFields fs else (k, scrubElem v) :: scrubFields fs

end

/-- What `send` makes JSON of. -/
def sent (s : Source) (m : List Elem) (commits : Str) : JsonValue := scrubElem (.object (readFromConfiguration s m commits))

/-! ## Writing -/

/-- A value that is used as a hash; the script dies at one that is no hash. -/
def hash? : Option JsonValue → Option Fields
  | none | some .null => some []
  | some (.object fs) => some fs
  | _ => none

mutual

/-- What `_set_elem` sees of a hash; nothing if it dies. -/
def elemsOf : List Elem → Fields → Option (List (Str × List (Str × Data)))
  | [], _ => some []
  | e :: m, fs =>
    match valuesOf e fs, elemsOf m fs with
    | some vs, some es => some ((e.name, vs) :: es)
    | _, _ => none

def valuesOf : Elem → Fields → Option (List (Str × Data))
  | .mk name _ _ children, fs =>
    ((hash? (fs.lookup name)).bind fun node => hash? (node.lookup (str "_values"))).bind fun values =>
      values.mapM fun v =>
        -- without an element below it, a value is not looked at
        if children.isEmpty then some (v.1, .mk [])
        else (hash? (some v.2)).bind fun below => (elemsOf children below).map fun es => (v.1, .mk es)

end

/-- `write_to_configuration`: the events of a message, which `from_json` reads; nothing if the
    script dies. -/
def writeToConfiguration (fromJson : Str → Option JsonValue) (h : Host) (m : List Elem) (input : Str) : Option (List Event) :=
  if maxMsgLen < input.length then none
  else
    match fromJson input with
    | some (.object data) => (elemsOf m (Fields.erase data (str "_error"))).map fun es => h.setElem m (.mk es) none
    | _ => none

/-! ## The configuration as a map sees it -/

section Views

variable (h : Host)

/-- Under every element the data have the values of the configuration, each once. -/
inductive Mirrors : List Elem → Path → Data → Prop where
  | mk {m : List Elem} {loc : Path} {d : Data} (distinct : ∀ e ∈ m, ((d.values e.name).map Prod.fst).Nodup)
      (same : ∀ e ∈ m, ∀ v, v ∈ (d.values e.name).map Prod.fst ↔ loc ++ e.path ++ [v] ∈ h.running)
      (below : ∀ e ∈ m, ∀ v ∈ d.values e.name, Mirrors e.children (loc ++ e.path ++ [v.1]) v.2) : Mirrors m loc d

/-- A leaf of the map that has no value, below values that are there. -/
inductive Unset : List Elem → Path → Path → Prop where
  | leaf {m : List Elem} {loc : Path} {e : Elem} (he : e ∈ m) (hk : h.tmpl (loc ++ e.path) = .single)
      (hnone : ∀ v, loc ++ e.path ++ [v] ∉ h.running) : Unset m loc (loc ++ e.path)
  | deeper {m : List Elem} {loc n : Path} {e : Elem} {v : Str} (he : e ∈ m) (hv : loc ++ e.path ++ [v] ∈ h.running)
      (hn : Unset e.children (loc ++ e.path ++ [v]) n) : Unset m loc n

/-- A map with each name once. Values that have elements below them are words, and none is one of
    the names that are taken out. -/
inductive Readable : List Elem → Path → Prop where
  | mk {m : List Elem} {loc : Path} (names : (m.map Elem.name).Nodup) (kept : ∀ e ∈ m, e.name ≠ str "_parent")
      (spared : ∀ e ∈ m, ∀ v, loc ++ e.path ++ [v] ∈ h.running → v ∉ scrubbed)
      (words : ∀ e ∈ m, e.children ≠ [] → ∀ v, loc ++ e.path ++ [v] ∈ h.running → Word v)
      (below : ∀ e ∈ m, ∀ v, loc ++ e.path ++ [v] ∈ h.running → Readable e.children (loc ++ e.path ++ [v])) : Readable m loc

end Views

/-- A word, or words with blanks between them. -/
def LeafText (v : Str) : Prop := Word v ∨ (∀ b ∈ v, isLiteral b = true) ∧ 32 ∈ v ∧ stripTrailing v = v

instance (v : Str) : Decidable (LeafText v) := inferInstanceAs (Decidable (_ ∨ _))

section Seen

variable {h : Host} {m : List Elem} {d : Data} {loc p n : Path}

theorem Mirrors.requested_iff (hd : Mirrors h m loc d) : Requested m d loc p ↔ Mapped m loc p ∧ p ∈ h.running := by
  constructor
  · intro hp
    refine ⟨hp.mapped, ?_⟩
    induction hp with
    | value he hv =>
      cases hd with
      | mk distinct same below => exact (same _ he _).mp (List.mem_map_of_mem hv)
    | deeper he hv hp ih =>
      cases hd with
      | mk distinct same below => exact ih (below _ he _ hv)
  · rintro ⟨hp, hrun⟩
    induction hp generalizing d with
    | value he v =>
      cases hd with
      | mk distinct same below =>
        obtain ⟨⟨w, d'⟩, hw, rfl⟩ := List.mem_map.mp ((same _ he v).mpr hrun)
        exact .value he hw
    | deeper he v hp ih =>
      cases hd with
      | mk distinct same below =>
        have hv := PathTree.mem_of_prefix (hp.below_loc) hrun
        obtain ⟨⟨w, d'⟩, hw, rfl⟩ := List.mem_map.mp ((same _ he v).mpr hv)
        exact .deeper he hw (ih (below _ he _ hw) hrun)

theorem Unset.longer (hn : Unset h m loc n) (hm : Fits m) : loc <+: n ∧ loc.length < n.length := by
  induction hn with
  | leaf he hk hnone =>
    have hne := List.length_pos_of_ne_nil (hm.parts.1 _ he)
    refine ⟨List.prefix_append _ _, ?_⟩
    rw [List.length_append]
    omega
  | deeper he hv hn ih =>
    obtain ⟨hpre, hlen⟩ := ih (hm.down he)
    refine ⟨?_, ?_⟩
    · rw [List.append_assoc] at hpre
      exact (List.prefix_append _ _).trans hpre
    · simp only [List.length_append, List.length_singleton] at hlen
      omega

theorem Unset.no_value (hn : Unset h m loc n) (v : Str) : n ++ [v] ∉ h.running := by
  induction hn with
  | leaf he hk hnone => exact hnone v
  | deeper he hv hn ih => exact ih

/-- Nothing that is mapped and in the configuration lies below a leaf without a value. -/
theorem Unset.bare (hn : Unset h m loc n) (hm : Fits m) (hp : Mapped m loc p) (hrun : p ∈ h.running) : ¬ n <+: p := by
  intro hpre
  induction hn with
  | leaf he hk hnone =>
    obtain ⟨v, hv, -⟩ := hp.through hm he hpre
    exact hnone v (PathTree.mem_of_prefix hv hrun)
  | deeper he hv hn ih =>
    obtain ⟨hbelow, hlen⟩ := hn.longer (hm.down he)
    have hvpre := hbelow.trans hpre
    obtain ⟨w, hw, hrest⟩ := hp.through hm he ((List.prefix_append _ _).trans hvpre)
    obtain rfl := same_value hvpre hw
    rcases hrest with rfl | hrest
    · -- the leaf would be the value above it
      have hle := hpre.length_le
      omega
    · exact ih (hm.down he) hrest hpre

end Seen

/-! ## A value in quotes -/

theorem dquoted_literal_append {a : Str} (ha : ∀ b ∈ a, isLiteral b = true) (t : Str) :
    dquoted (a ++ t) = (dquoted t).map (a ++ ·) := by
  induction a with
  | nil => simp
  | cons b a ih =>
    rw [List.forall_mem_cons] at ha
    obtain ⟨hq, h0⟩ := literal_unquoted ha.1
    have hbackslash : b ≠ 92 := fun hb => hq (hb ▸ by decide)
    have hquote : ¬ (b ∈ str "\"$`" ∨ b = 0) := by
      rw [not_or]
      refine ⟨fun hm => hq ?_, h0⟩
      rw [show str "\"$`\\" = str "\"$`" ++ [92] by decide]
      exact List.mem_append_left _ hm
    have hcons : ∀ r : Str, dquoted (b :: r) = (dquoted r).map (b :: ·) := by
      intro r
      cases r with
      | nil => exact dquoted_literal (s := [b]) (by simpa using ha.1)
      | cons c r => rw [dquoted, if_neg hbackslash, if_neg hquote]
    rw [List.cons_append, hcons, ih ha.2, Option.map_map]
    rfl

theorem dquoted_quote (t : Str) : dquoted (92 :: 34 :: t) = (dquoted t).map (34 :: ·) := by
  rw [dquoted, if_pos rfl, if_pos (by decide)]

/-- Behind a literal text the shell is in a word or between two. -/
theorem mode_literal {s : Str} (hs : ∀ b ∈ s, isLiteral b = true) {l : Shell.Lexer} (hl : l.mode = .blank ∨ l.mode = .word) :
    (l.run (Shell.own s)).mode = .blank ∨ (l.run (Shell.own s)).mode = .word := by
  induction s generalizing l with
  | nil => exact hl
  | cons b s ih =>
    rw [List.forall_mem_cons] at hs
    refine ih hs.2 (l := l.step (b, .own)) ?_
    rcases hl with hl | hl <;> rcases blank_of_literal hs.1 with ⟨-, hb⟩ | ⟨-, hb⟩ <;>
      simp [Shell.Lexer.step, Shell.next, hl, hb]

/-- A literal text and a blank leave the words of the text behind. -/
theorem run_literal {s : Str} (hs : ∀ b ∈ s, isLiteral b = true) :
    Shell.start.run (Shell.own (s ++ [32])) = ⟨.blank, [], (wordsOf s).map fun w => .word (Shell.own w)⟩ := by
  have hlex : (Shell.start.run (Shell.own s)).finish = some ((wordsOf s).map fun w => .word (Shell.own w)) :=
    lex_literal hs [] []
  have hmode := mode_literal hs (l := Shell.start) (Or.inl rfl)
  rw [Shell.own, List.map_append, Shell.Lexer.run_append]
  generalize hl : Shell.start.run (s.map (·, Shell.Origin.own)) = l
  rw [Shell.own, hl] at hlex hmode
  obtain ⟨mode, cur, out⟩ := l
  have hblank : Shell.classOf 32 = .blank := by decide
  rcases hmode with hm | hm
  · cases hm
    simp [Shell.Lexer.run, Shell.Lexer.step, Shell.next, Shell.Lexer.text, Shell.Lexer.emit, hblank]
    simpa [Shell.Lexer.finish] using hlex
  · cases hm
    simp [Shell.Lexer.run, Shell.Lexer.step, Shell.next, Shell.Lexer.text, Shell.Lexer.emit, hblank]
    simpa [Shell.Lexer.finish] using hlex

/-- Between double quotes a literal text is read as it is. -/
theorem run_double {v : Str} (hv : ∀ b ∈ v, isLiteral b = true) (cur : List Shell.Byte) (out : List Shell.Tok) :
    Shell.Lexer.run ⟨.double, cur, out⟩ (Shell.own v) = ⟨.double, cur ++ Shell.own v, out⟩ := by
  induction v generalizing cur with
  | nil => simp [Shell.own, Shell.Lexer.run]
  | cons b v ih =>
    rw [List.forall_mem_cons] at hv
    obtain ⟨hq, -⟩ := literal_unquoted hv.1
    have hne : b ≠ 34 ∧ b ≠ 92 := ⟨fun e => hq (e ▸ by decide), fun e => hq (e ▸ by decide)⟩
    have hclass : Shell.classOf b ≠ .expansion := by
      rcases blank_of_literal hv.1 with ⟨-, h⟩ | ⟨-, h⟩ <;> (rw [h]; decide)
    have hstep : Shell.Lexer.step ⟨.double, cur, out⟩ (b, .own) = ⟨.double, cur ++ [(b, .own)], out⟩ := by
      simp [Shell.Lexer.step, Shell.next, Shell.Lexer.text, Shell.Lexer.emit, hne, hclass]
    show Shell.Lexer.run (Shell.Lexer.step ⟨.double, cur, out⟩ (b, .own)) (Shell.own v) = _
    rw [hstep, ih hv.2]
    simp [Shell.own]

/-- A literal text, and a text in quotes behind it. -/
theorem shellWords_quoted {s v : Str} (hs : ∀ b ∈ s, isLiteral b = true) (hv : ∀ b ∈ v, isLiteral b = true) :
    shellWords (s ++ [32] ++ (34 :: v ++ [34])) = some (wordsOf s ++ [v]) := by
  have hlex : Shell.lex (Shell.own (s ++ [32] ++ (34 :: v ++ [34]))) =
      some ((wordsOf s ++ [v]).map fun w => .word (Shell.own w)) := by
    have hsplit : Shell.own (s ++ [32] ++ (34 :: v ++ [34])) =
        Shell.own (s ++ [32]) ++ ((34, .own) :: Shell.own v ++ [(34, .own)]) := by
      simp [Shell.own]
    have hopen : Shell.Lexer.step ⟨.blank, [], (wordsOf s).map fun w => .word (Shell.own w)⟩ (34, .own) =
        ⟨.double, [], (wordsOf s).map fun w => .word (Shell.own w)⟩ := by
      simp [Shell.Lexer.step, Shell.next, Shell.Lexer.text, Shell.Lexer.emit, Shell.classOf,
        show (34 : UInt8) ∉ str ";&|<>()" by decide]
    have hclose : Shell.Lexer.step ⟨.double, Shell.own v, (wordsOf s).map fun w => .word (Shell.own w)⟩ (34, .own) =
        ⟨.word, Shell.own v, (wordsOf s).map fun w => .word (Shell.own w)⟩ := by
      simp [Shell.Lexer.step, Shell.next, Shell.Lexer.text, Shell.Lexer.emit, Shell.classOf,
        show (34 : UInt8) ∉ str ";&|<>()" by decide]
    rw [Shell.lex, hsplit, Shell.Lexer.run_append, run_literal hs]
    show (Shell.Lexer.run (Shell.Lexer.step _ _) (Shell.own v ++ [(34, .own)])).finish = _
    rw [hopen, Shell.Lexer.run_append, run_double hv, List.nil_append]
    show (Shell.Lexer.step _ _).finish = _
    rw [hclose, Shell.Lexer.finish, List.map_append]
    rfl
  have hown : ∀ w : Str, (Shell.own w).map Prod.fst = w := fun w => by simp [Shell.own, Function.comp_def]
  rw [shellWords, hlex, Option.bind_some]
  induction wordsOf s ++ [v] with
  | nil => rfl
  | cons w ws ih =>
    rw [List.map_cons, List.mapM_cons, ih]
    simp [hown]

section Commands

variable {h : Host} {m : List Elem} {d : Data} {loc : Path}

/-- A leaf is set to a value with blanks by one command with quotes. -/
theorem edit_quoted {param v : Str} (hp : ∀ b ∈ param, isLiteral b = true) (hv : ∀ b ∈ v, isLiteral b = true) :
    h.edit (str "set " ++ param ++ str " \\\"" ++ v ++ str "\\\"") =
      some (.put (wordsOf param ++ [v]) (h.tmpl (wordsOf param) = .single)) := by
  have hset : ∀ b ∈ str "set" ++ str " " ++ param, isLiteral b = true := literal_append (by decide) hp
  have hline : ∀ b ∈ str "set" ++ str " " ++ param ++ [32], isLiteral b = true := by
    intro b hb
    rcases List.mem_append.mp hb with hb | hb
    · exact hset b hb
    · rw [List.mem_singleton.mp hb]
      decide
  have hsplit : str "set " ++ param ++ str " \\\"" ++ v ++ str "\\\"" =
      (str "set" ++ str " " ++ param ++ [32]) ++ (92 :: 34 :: (v ++ [92, 34])) := by
    rw [show str "set " = str "set" ++ str " " by decide, show str " \\\"" = [32, 92, 34] by decide,
      show str "\\\"" = [92, 34] by decide]
    simp
  have hquoted : dquoted (str "set " ++ param ++ str " \\\"" ++ v ++ str "\\\"") =
      some (str "set" ++ str " " ++ param ++ [32] ++ (34 :: v ++ [34])) := by
    rw [hsplit, dquoted_literal_append hline, dquoted_quote, dquoted_literal_append hv]
    rfl
  have hwords : wordsOf (str "set" ++ str " " ++ param) = str "set" :: wordsOf param := by
    rw [wordsOf_append]
    rfl
  rw [Host.edit, cfgcliWords, hquoted, Option.bind_some, shellWords_quoted hset hv, hwords]
  refine (if_pos rfl).trans ?_
  show some (PathTree.Edit.put (wordsOf param ++ [v]) (h.tmpl (wordsOf param ++ [v]).dropLast = .single)) = _
  rw [List.dropLast_concat]

/-- The commands for a leaf that has its value: none, or one that sets it again. -/
theorem leafCommands_written {param v : Str} (hp : ∀ b ∈ param, isLiteral b = true) (hv : LeafText v)
    (hk : h.tmpl (wordsOf param) = .single) (hrun : wordsOf param ++ [v] ∈ h.running) (rest : List Str) {ev : Event}
    (hev : ev ∈ h.leafCommands param (v :: rest)) : h.eventEdit ev = some (.put (wordsOf param ++ [v]) true) := by
  rcases hv with hword | ⟨hlit, hblank, hstrip⟩
  · rw [leafCommands_word hword, if_pos hrun] at hev
    cases hev
  · have hne : v ≠ [] := List.ne_nil_of_mem hblank
    have hcontains : v.contains 32 = true := List.contains_iff_mem.mpr hblank
    rw [Host.leafCommands] at hev
    simp only [hstrip, if_neg hne, hcontains, if_true] at hev
    split at hev
    · cases hev
    · rw [List.mem_singleton.mp hev, Host.eventEdit, edit_quoted hp hlit, hk]
      rfl

/-- The edits that are left when nothing differs. -/
inductive Rewrites (h : Host) (m : List Elem) (loc : Path) : PathTree.Edit Str → Prop where
  | clear {n : Path} (hn : Unset h m loc n) : Rewrites h m loc (.delete n)
  | again {n : Path} {v : Str} (hp : Mapped m loc (n ++ [v])) (hk : h.tmpl n = .single) (hrun : n ++ [v] ∈ h.running) :
      Rewrites h m loc (.put (n ++ [v]) true)

theorem Rewrites.deeper {e : Elem} (he : e ∈ m) {v : Str} (hv : loc ++ e.path ++ [v] ∈ h.running) {x : PathTree.Edit Str}
    (hx : Rewrites h e.children (loc ++ e.path ++ [v]) x) : Rewrites h m loc x := by
  cases hx with
  | clear hn => exact .clear (.deeper he hv hn)
  | again hp hk hrun => exact .again (.deeper he v hp) hk hrun

/-- The commands of one node. -/
theorem elemCommands_written {e : Elem} (he : e ∈ m) {param : Str}
    (hparam : wordsOf param = loc ++ e.path ∧ ∀ b ∈ param, isLiteral b = true)
    {form : List Str} (hform : ∀ v, v ∈ form ↔ loc ++ e.path ++ [v] ∈ h.running)
    (hleaf : h.tmpl (loc ++ e.path) = .single → ∀ v ∈ form, LeafText v) :
    (∀ ev ∈ h.elemCommands param form, ∃ x, h.eventEdit ev = some x ∧ Rewrites h m loc x) ∧
      (h.tmpl (loc ++ e.path) = .single → form = [] → ∃ ev ∈ h.elemCommands param form, h.eventEdit ev =
        some (.delete (loc ++ e.path))) := by
  obtain ⟨hwords, hlit⟩ := hparam
  rw [← hwords] at hform hleaf ⊢
  by_cases hk : h.tmpl (wordsOf param) = .single
  · have hcommands : h.elemCommands param form = h.leafCommands param form := by
      rw [Host.elemCommands, hk]
    rw [hcommands]
    cases form with
    | nil =>
      have hunset : Unset h m loc (wordsOf param) := by
        rw [hwords] at hk hform ⊢
        exact .leaf he hk fun v hv => List.not_mem_nil ((hform v).mpr hv)
      have hdelete : h.eventEdit (.run (str "delete " ++ param)) = some (.delete (wordsOf param)) := edit_delete hlit
      refine ⟨fun ev hev => ?_, fun _ _ => ⟨_, List.mem_singleton_self _, hdelete⟩⟩
      rw [Host.leafCommands, List.mem_singleton] at hev
      rw [hev]
      exact ⟨_, hdelete, .clear hunset⟩
    | cons v rest =>
      have hrun := (hform v).mp List.mem_cons_self
      refine ⟨fun ev hev => ?_, fun _ hnil => absurd hnil (List.cons_ne_nil _ _)⟩
      exact ⟨_, leafCommands_written hlit (hleaf hk v List.mem_cons_self) hk hrun rest hev, .again (hwords ▸ .value he v) hk hrun⟩
  · refine ⟨fun ev hev => ?_, fun hk' => absurd hk' hk⟩
    have hdiff : h.elemCommands param form = h.diffCommands param form := by
      rw [Host.elemCommands]
      split
      · rfl
      · rfl
      · rename_i hsingle
        exact absurd hsingle hk
    rw [hdiff, mem_diffCommands] at hev
    rcases hev with ⟨k, hrun, hno, -⟩ | ⟨k, hk, hno, -⟩
    · exact absurd ((hform k).mpr hrun) hno
    · exact absurd ((hform k).mp hk) hno

/-- The commands for data that mirror the configuration: the leaves without a value are deleted,
    and some others set again. -/
theorem setElems_written (hm : Fits m) {lo : Option Str} (hlo : Located lo loc) (hd : Mirrors h m loc d) (hr : Readable h m loc)
    (hleaf : ∀ n v, Mapped m loc (n ++ [v]) → h.tmpl n = .single → n ++ [v] ∈ h.running → LeafText v) :
    (∀ ev ∈ h.setElems m d lo, ∃ x, h.eventEdit ev = some x ∧ Rewrites h m loc x) ∧
      ∀ n, Unset h m loc n → ∃ ev ∈ h.setElems m d lo, h.eventEdit ev = some (.delete n) := by
  induction hm generalizing d loc lo with
  | @mk m names located apart below ih =>
    cases hd with
    | mk distinct same deeper =>
      cases hr with
      | mk _ _ _ words beneath =>
        have hlocated : ∀ e ∈ m, ∃ location, e.location = some location ∧
            (wordsOf (paramLoc lo location) = loc ++ e.path ∧ ∀ b ∈ paramLoc lo location, isLiteral b = true) := by
          intro e he
          obtain ⟨location, hl, -, hlit⟩ := located e he
          refine ⟨location, hl, ?_⟩
          have hpath : e.path = wordsOf location := by rw [Elem.path, hl]; rfl
          rw [hpath]
          exact hlo.param hlit
        have hchildren : ∀ e ∈ m, ∀ c ∈ e.children, c.name ≠ str "callback_first" ∧ c.name ≠ str "callback_last" := by
          intro e he
          cases below e he with
          | mk names' _ _ _ => exact names'
        have hown : ∀ e (he : e ∈ m) (location : Str), e.location = some location →
            (wordsOf (paramLoc lo location) = loc ++ e.path ∧ ∀ b ∈ paramLoc lo location, isLiteral b = true) →
            _ := fun e he location hl hparam => elemCommands_written (h := h) he hparam (same e he)
              fun hk v hv => hleaf _ v (.value he v) hk ((same e he v).mp hv)
        -- what lies below a value that the message has
        have hbelow : ∀ e (he : e ∈ m) (location : Str),
            (wordsOf (paramLoc lo location) = loc ++ e.path ∧ ∀ b ∈ paramLoc lo location, isLiteral b = true) →
            ∀ v ∈ d.values e.name,
            (∀ ev ∈ h.setElems e.children v.2 (some (paramLoc lo location ++ str " " ++ v.1)), ∃ x,
              h.eventEdit ev = some x ∧ Rewrites h e.children (loc ++ e.path ++ [v.1]) x) ∧
            ∀ n, Unset h e.children (loc ++ e.path ++ [v.1]) n →
              ∃ ev ∈ h.setElems e.children v.2 (some (paramLoc lo location ++ str " " ++ v.1)), h.eventEdit ev =
              some (.delete n) := by
          intro e he location hparam v hv
          have hrun := (same e he v.1).mp (List.mem_map_of_mem hv)
          by_cases hnil : e.children = []
          · rw [hnil]
            refine ⟨fun ev hev => ?_, fun n hn => ?_⟩
            · rw [Host.setElems] at hev
              cases hev
            · cases hn <;> (rename_i hmem _ _; cases hmem)
          · have hword := (words e he hnil v.1 hrun).words
            refine ih e he ⟨?_, literal_append hparam.2 hword.2⟩ (deeper e he v hv) (beneath e he v.1 hrun)
              fun n w hw => hleaf n w (.deeper he v.1 hw)
            rw [wordsOf_append, hparam.1, hword.1]
        rw [setElems_eq]
        constructor
        · intro ev hev
          obtain ⟨e, he, hev⟩ := List.mem_flatMap.mp hev
          obtain ⟨location, hl, hparam⟩ := hlocated e he
          rw [setOne_eq hl d (hasParameter_literal hparam.2) (hchildren e he), List.mem_append, List.mem_flatMap] at hev
          rcases hev with hev | ⟨v, hv, hev⟩
          · exact (hown e he location hl hparam).1 ev hev
          · obtain ⟨x, hx, hrewrites⟩ := (hbelow e he location hparam v hv).1 ev hev
            exact ⟨x, hx, hrewrites.deeper he ((same e he v.1).mp (List.mem_map_of_mem hv))⟩
        · intro n hn
          cases hn with
          | @leaf _ _ e he hk hnone =>
            obtain ⟨location, hl, hparam⟩ := hlocated e he
            have hform : (d.values e.name).map Prod.fst = [] :=
              List.eq_nil_iff_forall_not_mem.mpr fun v hv => hnone v ((same e he v).mp hv)
            obtain ⟨ev, hev, hx⟩ := (hown e he location hl hparam).2 hk hform
            refine ⟨ev, List.mem_flatMap.mpr ⟨e, he, ?_⟩, hx⟩
            rw [setOne_eq hl d (hasParameter_literal hparam.2) (hchildren e he)]
            exact List.mem_append_left _ hev
          | @deeper _ _ _ e v he hv hn =>
            obtain ⟨location, hl, hparam⟩ := hlocated e he
            obtain ⟨w, hw, rfl⟩ := List.mem_map.mp ((same e he v).mpr hv)
            obtain ⟨ev, hev, hx⟩ := (hbelow e he location hparam w hw).2 n hn
            refine ⟨ev, List.mem_flatMap.mpr ⟨e, he, ?_⟩, hx⟩
            rw [setOne_eq hl d (hasParameter_literal hparam.2) (hchildren e he)]
            exact List.mem_append_right _ (List.mem_flatMap.mpr ⟨w, hw, hev⟩)

/-- What the commands leave: the configuration without the leaves that have no value. -/
theorem applied (hm : Fits m) (hd : Mirrors h m [] d) (hr : Readable h m [])
    (hleaf : ∀ n v, Mapped m [] (n ++ [v]) → h.tmpl n = .single → n ++ [v] ∈ h.running → LeafText v) (q : Path) :
    q ∈ h.candidate m d ↔ q ∈ h.running ∧ ¬ Unset h m [] q := by
  have hnames : ∀ e ∈ m, e.name ≠ str "callback_first" ∧ e.name ≠ str "callback_last" := by
    cases hm with
    | mk names _ _ _ => exact names
  have hroot : Located none [] := rfl
  obtain ⟨hall, hunset⟩ := setElems_written hm hroot hd hr hleaf
  have hedits : ∀ x ∈ (h.setElem m d none).filterMap h.eventEdit, Rewrites h m [] x := by
    intro x hx
    obtain ⟨ev, hev, hx⟩ := List.mem_filterMap.mp hx
    rw [Host.setElem, around_eq hnames] at hev
    obtain ⟨y, hy, hrewrites⟩ := hall ev hev
    rw [hy] at hx
    exact Option.some.inj hx ▸ hrewrites
  -- nothing is made that is not there, and no leaf without a value is
  have hadds : ∀ {x r}, Rewrites h m [] x → x.Adds r → r ∈ h.running ∧ ¬ Unset h m [] r := by
    intro x r hx hr
    cases hx with
    | clear hn => cases hr
    | again hp hk hrun => exact ⟨PathTree.mem_of_prefix hr hrun, fun hn => hn.bare hm hp hrun hr⟩
  -- what is taken away from the configuration is a leaf without a value
  have hremoves : ∀ {x r}, Rewrites h m [] x → x.Removes r → r ∈ h.running → x = .delete r ∧ Unset h m [] r := by
    intro x r hx hr hrun
    cases hx with
    | @clear n hn =>
      obtain ⟨t, rfl⟩ := hr
      cases t with
      | nil =>
        rw [List.append_nil]
        exact ⟨rfl, hn⟩
      | cons v t =>
        have hv : n ++ [v] ∈ h.running := PathTree.mem_of_prefix ⟨t, by simp⟩ hrun
        exact absurd hv (hn.no_value v)
    | @again n v hp hk hrun' =>
      obtain ⟨-, hpre, hne, hnot⟩ := hr
      rw [List.dropLast_concat] at hpre hne
      obtain ⟨t, rfl⟩ := hpre
      cases t with
      | nil => exact absurd (List.append_nil n) hne
      | cons w t =>
        have hw : n ++ [w] <+: n ++ w :: t := ⟨t, by simp⟩
        have heq := h.one n v w hk hrun' (PathTree.mem_of_prefix hw hrun)
        exact absurd (heq ▸ hw) hnot
  rw [Host.candidate, PathTree.mem_applyAll]
  · constructor
    · rintro (⟨hrun, hspared⟩ | ⟨x, hx, hq⟩)
      · refine ⟨hrun, fun hn => ?_⟩
        obtain ⟨ev, hev, hx⟩ := hunset q hn
        refine hspared (.delete q) (List.mem_filterMap.mpr ⟨ev, ?_, hx⟩) List.prefix_rfl
        rw [Host.setElem, around_eq hnames]
        exact hev
      · exact hadds (hedits x hx) hq
    · rintro ⟨hrun, hset⟩
      exact Or.inl ⟨hrun, fun x hx hq => hset (hremoves (hedits x hx) hq hrun).2⟩
  · intro x hx y hy r hr hq
    obtain ⟨hrun, hset⟩ := hadds (hedits x hx) hr
    exact hset (hremoves (hedits y hy) hq hrun).2

end Commands

/-! ## Values of a node -/

section Nodes

variable {d : Fields}

theorem hash_object (fs : Fields) : hash (some (.object fs)) = fs := rfl

theorem valuesIn_set (d : Fields) (k : Str) (x : JsonValue) :
    valuesIn (d.set k x) = if k = str "_values" then hash (some x) else valuesIn d := by
  rw [valuesIn, Fields.lookup_set]
  by_cases hk : k = str "_values"
  · rw [if_pos hk, if_pos hk.symm]
  · rw [if_neg hk, if_neg (Ne.symm hk), valuesIn]

theorem valuesIn_createDataNode (d : Fields) (e : JsonValue) (v : Option Str) (p : JsonValue) :
    valuesIn (createDataNode d e v p) = (v.elim (valuesIn d) fun v => (valuesIn d).set v .null) := by
  have henum : ∀ d : Fields, valuesIn (if d.defined (str "_enum") then d else d.set (str "_enum") e) = valuesIn d := by
    intro d
    split
    · rfl
    · rw [valuesIn_set, if_neg (by decide)]
  have hparent : ∀ d : Fields, valuesIn (if d.defined (str "_parent") then d else d.set (str "_parent") p) = valuesIn d := by
    intro d
    split
    · rfl
    · rw [valuesIn_set, if_neg (by decide)]
  refine (hparent _).trans ?_
  cases v with
  | none => exact henum d
  | some v =>
    refine (valuesIn_set _ _ _).trans ?_
    rw [if_pos rfl, hash_object]
    exact congrArg (Fields.set · v .null) (henum d)

theorem valuesIn_fill (vals : List Str) (p : JsonValue) (d : Fields) :
    valuesIn (vals.foldl (fun node v => createDataNode node .null (some v) p) d) =
      vals.foldl (fun vs v => vs.set v .null) (valuesIn d) := by
  induction vals generalizing d with
  | nil => rfl
  | cons v vals ih => rw [List.foldl_cons, ih, valuesIn_createDataNode, List.foldl_cons]; rfl

/-- Setting each of some names once. -/
theorem lookup_foldl_set (g : Str → Option JsonValue → JsonValue) {vals : List Str} (h : vals.Nodup) (vs : Fields) (w : Str) :
    (vals.foldl (fun vs v => vs.set v (g v (vs.lookup v))) vs).lookup w =
      if w ∈ vals then some (g w (vs.lookup w)) else vs.lookup w := by
  induction vals generalizing vs with
  | nil => rfl
  | cons v vals ih =>
    obtain ⟨hv, hvals⟩ := List.nodup_cons.mp h
    rw [List.foldl_cons, ih hvals, Fields.lookup_set]
    by_cases hw : w = v
    · subst hw
      rw [if_neg hv, if_pos rfl, if_pos List.mem_cons_self]
    · rw [if_neg hw]
      simp [hw]

theorem nodup_foldl_set (g : Fields → Str → JsonValue) (vals : List Str) {vs : Fields} (h : (vs.map Prod.fst).Nodup) :
    ((vals.foldl (fun vs v => vs.set v (g vs v)) vs).map Prod.fst).Nodup := by
  induction vals generalizing vs with
  | nil => exact h
  | cons v vals ih => exact ih (Fields.nodup_set h v _)

theorem parameters_literal {s : Str} (hs : ∀ b ∈ s, isLiteral b = true) : parameters none s = [] := by
  induction s with
  | nil => rfl
  | cons b s ih =>
    rw [List.forall_mem_cons] at hs
    have hne : b ≠ 36 := by
      rintro rfl
      exact absurd hs.1 (by decide)
    rw [parameters]
    simp only [if_neg hne]
    exact ih hs.2

/-- `_values` of the node is a hash, or not there. -/
def Hashed (d : Fields) : Prop := hash? (d.lookup (str "_values")) = some (valuesIn d)

theorem Hashed.set (hd : Hashed d) {k : Str} (hk : k ≠ str "_values") (x : JsonValue) : Hashed (d.set k x) := by
  rw [Hashed, valuesIn_set, if_neg hk, Fields.lookup_set, if_neg (Ne.symm hk)]
  exact hd

theorem hashed_set_values (d : Fields) (vs : Fields) : Hashed (d.set (str "_values") (.object vs)) := by
  rw [Hashed, valuesIn_set, if_pos rfl, Fields.lookup_set, if_pos rfl]
  rfl

theorem Hashed.createDataNode (hd : Hashed d) (e : JsonValue) (v : Option Str) (p : JsonValue) :
    Hashed (Reading.createDataNode d e v p) := by
  have hunless : ∀ {d : Fields} {k : Str} {x : JsonValue}, k ≠ str "_values" → Hashed d →
      Hashed (if d.defined k then d else d.set k x) := by
    intro d k x hk hd
    split
    · exact hd
    · exact hd.set hk x
  refine hunless (by decide) ?_
  cases v with
  | none => exact hunless (by decide) hd
  | some v => exact hashed_set_values _ _

theorem Hashed.fill (hd : Hashed d) (vals : List Str) (p : JsonValue) :
    Hashed (vals.foldl (fun node v => Reading.createDataNode node .null (some v) p) d) := by
  induction vals generalizing d with
  | nil => exact hd
  | cons v vals ih => exact ih (hd.createDataNode _ _ _)

/-- No element has a value yet. -/
def Fresh (m : List Elem) (d : Fields) : Prop :=
  ∀ e ∈ m, ∀ p, Hashed (startNode d e.name p) ∧ valuesIn (startNode d e.name p) = []

theorem fresh_belowNew (children : List Elem) : Fresh children (belowNew children []) := by
  have hall : ∀ (cs : List Elem) (s : Fields), (∀ k, s.lookup k = none ∨ s.lookup k = some (.object [])) →
      ∀ k, (belowNew cs s).lookup k = none ∨ (belowNew cs s).lookup k = some (.object []) := by
    intro cs
    induction cs with
    | nil => exact fun s hs => hs
    | cons c cs ih =>
      intro s hs
      refine ih _ fun k => ?_
      show List.lookup k (if _ then _ else _) = _ ∨ List.lookup k (if _ then _ else _) = _
      split
      · exact hs k
      · rw [Fields.lookup_set]
        split
        · exact Or.inr rfl
        · exact hs k
  intro e _ p
  have hlookup := hall children [] (fun _ => Or.inl rfl) e.name
  unfold startNode
  split
  · rcases hlookup with h | h <;> (rw [h]; exact ⟨rfl, rfl⟩)
  · exact ⟨rfl, rfl⟩

theorem descend_other (children : List Elem) (elem : Str) (p : Path) (get : Str → Fields → Fields) (vals : List Str) (d : Fields)
    {k : Str} (hk : k ≠ elem) : (descend children elem p get vals d).lookup k = d.lookup k := by
  unfold descend
  split
  · rfl
  · induction vals generalizing d with
    | nil => rfl
    | cons v vals ih => rw [List.foldl_cons, ih, Fields.lookup_set, if_neg hk]

theorem descend_own {children : List Elem} (hne : children ≠ []) (elem : Str) (p : Path) (get : Str → Fields → Fields)
    (vals : List Str) {node : Fields} (hnode : Hashed node) (d : Fields) :
    ∃ node', (descend children elem p get vals (d.set elem (.object node))).lookup elem = some (.object node') ∧ Hashed node' ∧
      valuesIn node' =
        vals.foldl (fun vs v => vs.set v (.object (get v (belowNew children (hash (vs.lookup v)))))) (valuesIn node) := by
  unfold descend
  rw [if_neg (by simpa using hne)]
  induction vals generalizing node d with
  | nil => exact ⟨node, by rw [List.foldl_nil, Fields.lookup_set, if_pos rfl], hnode, rfl⟩
  | cons v vals ih =>
    rw [List.foldl_cons]
    have hvalues : valuesIn ((hash ((d.set elem (.object node)).lookup elem)).set (str "_parent") (texts p)) = valuesIn node := by
      rw [Fields.lookup_set, if_pos rfl, hash_object, valuesIn_set, if_neg (by decide)]
    have hstart : Hashed (((hash ((d.set elem (.object node)).lookup elem)).set (str "_parent") (texts p)).set (str "_values")
        (.object ((valuesIn node).set v (.object (get v (belowNew children (hash ((valuesIn node).lookup v)))))))) :=
      hashed_set_values _ _
    obtain ⟨node', hlookup, hhashed, hfold⟩ := ih hstart (d.set elem (.object node))
    refine ⟨node', ?_, hhashed, ?_⟩
    · rw [← hlookup, ← hvalues]
    · rw [hfold, valuesIn_set, if_pos rfl, hash_object, List.foldl_cons]

end Nodes

/-! ## What is read -/

section Reads

variable {s : Source} {m : List Elem} {loc : Path}

theorem mem_getValues {n : Path} {v : Str} : v ∈ s.getValues n ↔ n ++ [v] ∈ s.host.running := by
  rw [Source.getValues]
  split
  · rw [List.mem_dedup, PathTree.mem_children]
  · rw [List.mem_dedup, PathTree.mem_children]
  · rename_i hk
    rw [Option.mem_toList, ← PathTree.mem_children]
    constructor
    · exact List.mem_of_mem_head?
    · intro hv
      obtain ⟨w, hw⟩ := Option.isSome_iff_exists.mp (List.isSome_head?.mpr (List.ne_nil_of_mem hv))
      have hsame := s.host.one n v w hk (PathTree.mem_children.mp hv) (PathTree.mem_children.mp (List.mem_of_mem_head? hw))
      exact hsame ▸ hw

theorem nodup_getValues (n : Path) : (s.getValues n).Nodup := by
  rw [Source.getValues]
  split
  · exact List.nodup_dedup _
  · exact List.nodup_dedup _
  · rcases (s.host.running.children n).head? with _ | v
    · exact List.nodup_nil
    · exact List.nodup_singleton v

theorem fillNode_values {d : Fields} {e : Elem} (hd : Fresh [e] d) (param : Str) (p : Path) (vals : List Str) :
    Hashed (s.fillNode d e.name param p vals) ∧
      valuesIn (s.fillNode d e.name param p vals) = vals.foldl (fun vs v => Fields.set vs v .null) [] := by
  obtain ⟨hhashed, hnone⟩ := hd e List.mem_cons_self p
  refine ⟨((hhashed.createDataNode _ _ _).createDataNode _ _ _).fill _ _, ?_⟩
  rw [Source.fillNode, valuesIn_fill, valuesIn_createDataNode, valuesIn_createDataNode]
  exact congrArg (fun vs : Fields => vals.foldl (fun vs v => Fields.set vs v .null) vs) hnone

theorem around_get {m : List Elem} (hm : ∀ e ∈ m, e.name ≠ str "callback_first" ∧ e.name ≠ str "callback_last") (lo : Option Str)
    (path : Path) (get : Fields → Fields) (d : Fields) : s.around m lo path get d = get d := by
  have hnone : ∀ name, (∀ e ∈ m, e.name ≠ name) → m.any (fun e => decide (e.name = name)) = false := by
    intro name hname
    rw [List.any_eq_false]
    exact fun e he => by simpa using hname e he
  rw [Source.around]
  simp only [hnone _ fun e he => (hm e he).1, hnone _ fun e he => (hm e he).2, Bool.false_eq_true, if_false]

theorem getOne_eq {e : Elem} {location : Str} (hl : e.location = some location) (hne : location ≠ [])
    (hlit : ∀ b ∈ location, isLiteral b = true)
    (hnames : ∀ c ∈ e.children, c.name ≠ str "callback_first" ∧ c.name ≠ str "callback_last") (d : Fields) (lo : Option Str)
    (path : Path) : s.getOne e d lo path =
      descend e.children e.name (path ++ [e.name]) (fun v below => s.getElems e.children below
        (some (paramLoc lo location ++ str " " ++ v)) (path ++ [e.name] ++ [v, str "_values"]))
        (s.getValues (wordsOf (paramLoc lo location))) (d.set e.name (.object (s.fillNode d e.name (paramLoc lo location)
          (path ++ [e.name]) (s.getValues (wordsOf (paramLoc lo location)))))) := by
  obtain ⟨name, l, callback, children⟩ := e
  cases hl
  rw [Source.getOne]
  have hfilter : (some location).filter (· ≠ []) = some location := by simp [Option.filter, hne]
  simp only [hfilter, addParameters, parameters_literal hlit, List.foldl_nil]
  refine congrArg (fun get => descend children name _ get _ _) (funext fun v => funext fun below => ?_)
  exact around_get hnames _ _ _ _

/-- Elements change nothing but their own node. -/
theorem getOne_other {e : Elem} {location : Str} (hl : e.location = some location) (hne : location ≠ [])
    (hlit : ∀ b ∈ location, isLiteral b = true)
    (hnames : ∀ c ∈ e.children, c.name ≠ str "callback_first" ∧ c.name ≠ str "callback_last") (d : Fields) (lo : Option Str)
    (path : Path) {k : Str} (hk : k ≠ e.name) : (s.getOne e d lo path).lookup k = d.lookup k := by
  rw [getOne_eq hl hne hlit hnames, descend_other _ _ _ _ _ _ hk, Fields.lookup_set, if_neg hk]

theorem lookup_scrubFields (fs : Fields) (k : Str) :
    (scrubFields fs).lookup k = if k ∈ scrubbed then none else (fs.lookup k).map scrubElem := by
  induction fs with
  | nil => rw [scrubFields]; split <;> rfl
  | cons f fs ih =>
    obtain ⟨l, x⟩ := f
    rw [scrubFields, lookup_cons_eq]
    by_cases hl : l ∈ scrubbed
    · rw [if_pos hl, ih]
      by_cases hk : k ∈ scrubbed
      · rw [if_pos hk, if_pos hk]
      · rw [if_neg hk, if_neg hk, if_neg fun e : k = l => hk (e ▸ hl)]
    · rw [if_neg hl, lookup_cons_eq, ih]
      by_cases hk : k = l
      · subst hk
        rw [if_pos rfl, if_neg hl, if_pos rfl]
        rfl
      · rw [if_neg hk, if_neg hk]

theorem mem_scrubFields {fs : Fields} {k : Str} {x : JsonValue} :
    (k, x) ∈ scrubFields fs ↔ k ∉ scrubbed ∧ ∃ y, (k, y) ∈ fs ∧ x = scrubElem y := by
  induction fs with
  | nil => rw [scrubFields]; simp
  | cons f fs ih =>
    obtain ⟨l, z⟩ := f
    rw [scrubFields]
    by_cases hl : l ∈ scrubbed
    · rw [if_pos hl, ih]
      constructor
      · rintro ⟨hk, y, hy, hx⟩
        exact ⟨hk, y, List.mem_cons_of_mem _ hy, hx⟩
      · rintro ⟨hk, y, hy, hx⟩
        rcases List.mem_cons.mp hy with heq | hy
        · cases heq
          exact absurd hl hk
        · exact ⟨hk, y, hy, hx⟩
    · rw [if_neg hl, List.mem_cons, ih]
      constructor
      · rintro (heq | ⟨hk, y, hy, hx⟩)
        · cases heq
          exact ⟨hl, z, List.mem_cons_self, rfl⟩
        · exact ⟨hk, y, List.mem_cons_of_mem _ hy, hx⟩
      · rintro ⟨hk, y, hy, hx⟩
        rcases List.mem_cons.mp hy with heq | hy
        · cases heq
          exact Or.inl (by rw [hx])
        · exact Or.inr ⟨hk, y, hy, hx⟩

theorem nodup_scrubFields {fs : Fields} (h : (fs.map Prod.fst).Nodup) : ((scrubFields fs).map Prod.fst).Nodup := by
  induction fs with
  | nil => rw [scrubFields]; exact List.nodup_nil
  | cons f fs ih =>
    obtain ⟨l, z⟩ := f
    obtain ⟨hl, hfs⟩ := List.nodup_cons.mp h
    rw [scrubFields]
    split
    · exact ih hfs
    · rw [List.map_cons, List.nodup_cons]
      refine ⟨fun hm => hl ?_, ih hfs⟩
      obtain ⟨⟨k, x⟩, hx, heq⟩ := List.mem_map.mp hm
      cases heq
      obtain ⟨-, y, hy, -⟩ := mem_scrubFields.mp hx
      exact List.mem_map.mpr ⟨_, hy, rfl⟩

theorem elemsOf_some {fs : Fields} {Q : Elem → List (Str × Data) → Prop} (hn : (m.map Elem.name).Nodup)
    (h : ∀ e ∈ m, ∃ vs, valuesOf e fs = some vs ∧ Q e vs) :
    ∃ es, elemsOf m fs = some es ∧ ∀ e ∈ m, Q e ((Data.mk es).values e.name) := by
  induction m with
  | nil => exact ⟨[], by rw [elemsOf], fun e he => nomatch he⟩
  | cons e m ih =>
    obtain ⟨hnot, hn⟩ := List.nodup_cons.mp hn
    rw [List.forall_mem_cons] at h
    obtain ⟨⟨vs, hvs, hQ⟩, hrest⟩ := h
    obtain ⟨es, hes, hall⟩ := ih hn hrest
    refine ⟨(e.name, vs) :: es, by rw [elemsOf, hvs, hes], fun e' he' => ?_⟩
    rw [Data.values, lookup_cons_eq]
    rcases List.mem_cons.mp he' with rfl | he'
    · rw [if_pos rfl]
      exact hQ
    · rw [if_neg fun heq : e'.name = e.name => hnot (heq ▸ List.mem_map_of_mem he')]
      exact hall e' he'

/-- Under an element the message has the values of the configuration. -/
def Shown (h : Host) (loc : Path) (e : Elem) (vs : List (Str × Data)) : Prop :=
  (vs.map Prod.fst).Nodup ∧ (∀ v, v ∈ vs.map Prod.fst ↔ loc ++ e.path ++ [v] ∈ h.running) ∧
    ∀ v ∈ vs, Mirrors h e.children (loc ++ e.path ++ [v.1]) v.2

theorem mapM_values {f : Str × JsonValue → Option (Str × Data)} {Q : Str → Data → Prop} {l : Fields}
    (h : ∀ p ∈ l, ∃ d, f p = some (p.1, d) ∧ Q p.1 d) :
    ∃ vs, l.mapM f = some vs ∧ vs.map Prod.fst = l.map Prod.fst ∧ ∀ v ∈ vs, Q v.1 v.2 := by
  induction l with
  | nil => exact ⟨[], rfl, rfl, fun v hv => nomatch hv⟩
  | cons p l ih =>
    rw [List.forall_mem_cons] at h
    obtain ⟨⟨d, hd, hQ⟩, hrest⟩ := h
    obtain ⟨vs, hvs, hkeys, hall⟩ := ih hrest
    refine ⟨(p.1, d) :: vs, by rw [List.mapM_cons, hd, hvs]; rfl, by rw [List.map_cons, List.map_cons, hkeys], ?_⟩
    rw [List.forall_mem_cons]
    exact ⟨hQ, hall⟩

/-- What `_set_elem` will see of a node. -/
theorem valuesOf_node {e : Elem} {fs node : Fields} (hname : e.name ∉ scrubbed) (hlookup : fs.lookup e.name = some (.object node))
    (hnode : Hashed node) {Q : Str → Data → Prop}
    (hdata : ∀ v y, (v, y) ∈ valuesIn node → v ∉ scrubbed → (e.children = [] ∧ Q v (.mk [])) ∨
      e.children ≠ [] ∧ ∃ below es, y = .object below ∧ elemsOf e.children (scrubFields below) = some es ∧ Q v (.mk es)) :
    ∃ vs, valuesOf e (scrubFields fs) = some vs ∧ vs.map Prod.fst = (scrubFields (valuesIn node)).map Prod.fst ∧
    ∀ v ∈ vs, Q v.1 v.2 := by
  obtain ⟨name, location, callback, children⟩ := e
  simp only [Elem.name, Elem.children] at hname hlookup hdata
  have hscrubbed : hash? ((scrubFields node).lookup (str "_values")) = some (scrubFields (valuesIn node)) := by
    rw [lookup_scrubFields, if_neg (by decide)]
    rw [Hashed, valuesIn] at hnode
    rw [valuesIn]
    rcases hvalues : node.lookup (str "_values") with _ | x
    · rfl
    · cases x with
      | null => rfl
      | object vs => rfl
      | _ => rw [hvalues] at hnode; cases hnode
  obtain ⟨vs, hvs, hkeys, hall⟩ := mapM_values (Q := Q) (l := scrubFields (valuesIn node))
    (f := fun v => if children.isEmpty then some (v.1, .mk [])
      else (hash? (some v.2)).bind fun below => (elemsOf children below).map fun es => (v.1, .mk es)) fun p hp => by
    obtain ⟨v, x⟩ := p
    obtain ⟨hv, y, hy, rfl⟩ := mem_scrubFields.mp hp
    rcases hdata v y hy hv with ⟨hnil, hQ⟩ | ⟨hne, below, es, rfl, hes, hQ⟩
    · subst hnil
      exact ⟨.mk [], rfl, hQ⟩
    · refine ⟨.mk es, ?_, hQ⟩
      rw [if_neg (by simpa using hne), scrubElem]
      show (elemsOf children (scrubFields below)).map _ = _
      rw [show elemsOf children (scrubFields below) = some es from hes]
      rfl
  refine ⟨vs, ?_, hkeys, hall⟩
  rw [valuesOf, lookup_scrubFields, if_neg hname, show fs.lookup name = some (.object node) from hlookup,
    Option.map_some, scrubElem]
  show ((hash? ((scrubFields node).lookup (str "_values"))).bind _) = _
  rw [hscrubbed]
  exact hvs

/-- Each element makes its own node, whatever the others make. -/
theorem getElems_lookup {lo : Option Str} {path : Path} (hn : (m.map Elem.name).Nodup)
    (hother : ∀ e ∈ m, ∀ d : Fields, ∀ k, k ≠ e.name → (s.getOne e d lo path).lookup k = d.lookup k) (d : Fields) :
    ∀ e ∈ m, ∃ d' : Fields, d'.lookup e.name = d.lookup e.name ∧
      (s.getElems m d lo path).lookup e.name = (s.getOne e d' lo path).lookup e.name := by
  have hrest : ∀ (m : List Elem) (d : Fields) (k : Str), (∀ e ∈ m, ∀ d : Fields, ∀ k, k ≠ e.name →
      (s.getOne e d lo path).lookup k = d.lookup k) → k ∉ m.map Elem.name → (s.getElems m d lo path).lookup k = d.lookup k := by
    intro m
    induction m with
    | nil => exact fun d k _ _ => by rw [Source.getElems]
    | cons e m ih =>
      intro d k hother hk
      rw [List.map_cons, List.mem_cons, not_or] at hk
      rw [List.forall_mem_cons] at hother
      rw [Source.getElems, ih _ k hother.2 hk.2, hother.1 d k hk.1]
  induction m generalizing d with
  | nil => exact fun e he => nomatch he
  | cons e m ih =>
    obtain ⟨hnot, hn⟩ := List.nodup_cons.mp hn
    rw [List.forall_mem_cons] at hother
    intro e' he'
    rw [Source.getElems]
    rcases List.mem_cons.mp he' with rfl | he'
    · exact ⟨d, rfl, hrest m _ _ hother.2 hnot⟩
    · obtain ⟨d', hd', hget⟩ := ih hn hother.2 (s.getOne e d lo path) e' he'
      have hne : e'.name ≠ e.name := fun heq => hnot (heq ▸ List.mem_map_of_mem he')
      exact ⟨d', hd'.trans (hother.1 d _ hne), hget⟩

/-- The values of a node, if there is a value for each of the configuration and none is taken out. -/
theorem shown_of_node {e : Elem} {node : Fields} {vs : List (Str × Data)} {vals : List Str} {g : Str → JsonValue}
    (hnodup : ((valuesIn node).map Prod.fst).Nodup)
    (hlookup : ∀ w, (valuesIn node).lookup w = if w ∈ vals then some (g w) else none)
    (hvals : ∀ v, v ∈ vals ↔ loc ++ e.path ++ [v] ∈ s.host.running)
    (hspared : ∀ v, loc ++ e.path ++ [v] ∈ s.host.running → v ∉ scrubbed)
    (hvs : vs.map Prod.fst = (scrubFields (valuesIn node)).map Prod.fst)
    (hall : ∀ v ∈ vs, Mirrors s.host e.children (loc ++ e.path ++ [v.1]) v.2) : Shown s.host loc e vs := by
  refine ⟨hvs ▸ nodup_scrubFields hnodup, fun v => ?_, hall⟩
  have hin : v ∈ (valuesIn node).map Prod.fst ↔ v ∈ vals := by
    rw [mem_keys_iff, hlookup]
    split
    · exact ⟨fun _ => ‹v ∈ vals›, fun _ => ⟨_, rfl⟩⟩
    · exact ⟨fun ⟨_, h⟩ => (nomatch h), fun h => absurd h ‹v ∉ vals›⟩
  rw [hvs, ← hvals, ← hin]
  constructor
  · intro hv
    obtain ⟨⟨w, x⟩, hx, rfl⟩ := List.mem_map.mp hv
    obtain ⟨-, y, hy, -⟩ := mem_scrubFields.mp hx
    exact List.mem_map.mpr ⟨_, hy, rfl⟩
  · intro hv
    have hspare := hspared v ((hvals v).mp (hin.mp hv))
    obtain ⟨⟨w, y⟩, hy, rfl⟩ := List.mem_map.mp hv
    exact List.mem_map.mpr ⟨(w, scrubElem y), mem_scrubFields.mpr ⟨hspare, y, hy, rfl⟩, rfl⟩

/-- An element with a location shows the values of the configuration, if the elements below it do. -/
theorem getOne_shown {e : Elem} {location : Str} (hl : e.location = some location) (hlne : location ≠ [])
    (hlit : ∀ b ∈ location, isLiteral b = true)
    (hnames : ∀ c ∈ e.children, c.name ≠ str "callback_first" ∧ c.name ≠ str "callback_last") {lo : Option Str} {path : Path}
    (hpath : wordsOf (paramLoc lo location) = loc ++ e.path) (hname : e.name ∉ scrubbed) {d : Fields} (hd : Fresh [e] d)
    (hspared : ∀ v, loc ++ e.path ++ [v] ∈ s.host.running → v ∉ scrubbed)
    (hbelow : e.children ≠ [] → ∀ v, loc ++ e.path ++ [v] ∈ s.host.running → ∀ (p : Path),
      ∃ es, elemsOf e.children (scrubFields (s.getElems e.children (belowNew e.children [])
        (some (paramLoc lo location ++ str " " ++ v)) p)) = some es ∧ Mirrors s.host e.children (loc ++ e.path ++ [v]) (.mk es)) :
    ∃ vs, valuesOf e (scrubFields (s.getOne e d lo path)) = some vs ∧ Shown s.host loc e vs := by
  have hvals : ∀ v, v ∈ s.getValues (wordsOf (paramLoc lo location)) ↔ loc ++ e.path ++ [v] ∈ s.host.running := by
    intro v
    rw [mem_getValues, hpath]
  have hnodup := nodup_getValues (s := s) (wordsOf (paramLoc lo location))
  generalize hvs : s.getValues (wordsOf (paramLoc lo location)) = vals at hvals hnodup
  obtain ⟨hhashed, hfilled⟩ := fillNode_values (s := s) hd (paramLoc lo location) (path ++ [e.name]) vals
  rw [getOne_eq hl hlne hlit hnames, hvs]
  have hnulls : ∀ w, (vals.foldl (fun vs v => Fields.set vs v .null) []).lookup w = if w ∈ vals then some .null else none :=
    fun w => lookup_foldl_set (fun _ _ => .null) hnodup [] w
  have hnone : ((vals.foldl (fun vs v => Fields.set vs v .null) []).map Prod.fst).Nodup :=
    nodup_foldl_set (fun _ _ => .null) vals List.nodup_nil
  by_cases hne : e.children = []
  · have hlookup : (descend e.children e.name (path ++ [e.name]) (fun v below => s.getElems e.children below
        (some (paramLoc lo location ++ str " " ++ v)) (path ++ [e.name] ++ [v, str "_values"])) vals
        (d.set e.name (.object (s.fillNode d e.name (paramLoc lo location) (path ++ [e.name]) vals)))).lookup e.name =
          some (.object (s.fillNode d e.name (paramLoc lo location) (path ++ [e.name]) vals)) := by
      rw [descend, if_pos (by simpa using hne), Fields.lookup_set, if_pos rfl]
    have hmirror : ∀ p d, Mirrors s.host e.children p d := by
      rw [hne]
      exact fun p d => ⟨fun _ h => absurd h List.not_mem_nil, fun _ h => absurd h List.not_mem_nil,
        fun _ h => absurd h List.not_mem_nil⟩
    obtain ⟨vs, hvs, hkeys, hall⟩ := valuesOf_node
      (Q := fun v d => Mirrors s.host e.children (loc ++ e.path ++ [v]) d) hname hlookup
      hhashed fun v y _ _ => Or.inl ⟨hne, hmirror _ _⟩
    rw [← hfilled] at hnone hnulls
    exact ⟨vs, hvs, shown_of_node hnone hnulls hvals hspared hkeys hall⟩
  · obtain ⟨node', hlookup, hhashed', hfold⟩ :=
      descend_own hne e.name (path ++ [e.name]) (fun v below => s.getElems e.children below
      (some (paramLoc lo location ++ str " " ++ v)) (path ++ [e.name] ++ [v, str "_values"])) vals hhashed d
    rw [hfilled] at hfold
    have hlookups : ∀ w, (valuesIn node').lookup w =
      if w ∈ vals then some (.object (s.getElems e.children (belowNew e.children [])
        (some (paramLoc lo location ++ str " " ++ w)) (path ++ [e.name] ++ [w, str "_values"]))) else none := by
      intro w
      rw [hfold, lookup_foldl_set (fun v x => .object (s.getElems e.children (belowNew e.children (hash x))
        (some (paramLoc lo location ++ str " " ++ v)) (path ++ [e.name] ++ [v, str "_values"]))) hnodup, hnulls]
      split
      · rfl
      · rfl
    have hnd : ((valuesIn node').map Prod.fst).Nodup := by
      rw [hfold]
      exact nodup_foldl_set _ vals hnone
    obtain ⟨vs, hvs, hkeys, hall⟩ := valuesOf_node
      (Q := fun v d => Mirrors s.host e.children (loc ++ e.path ++ [v]) d) hname hlookup
      hhashed' fun v y hy _ => by
        have hy' := (lookup_of_mem hnd hy).symm.trans (hlookups v)
        split at hy'
        · rename_i hv
          obtain ⟨es, hes, hmirror⟩ := hbelow hne v ((hvals v).mp hv) (path ++ [e.name] ++ [v, str "_values"])
          exact Or.inr ⟨hne, _, es, Option.some.inj hy', hes, hmirror⟩
        · cases hy'
    exact ⟨vs, hvs, shown_of_node hnd hlookups hvals hspared hkeys hall⟩

/-- The message that is made of what is read has the values of the configuration, at every depth. -/
theorem getElems_mirrors (hm : Fits m) {lo : Option Str} (hlo : Located lo loc) (hr : Readable s.host m loc)
    {d : Fields} (hd : Fresh m d)
    (path : Path) : ∃ es, elemsOf m (scrubFields (s.getElems m d lo path)) = some es ∧ Mirrors s.host m loc (.mk es) := by
  induction hm generalizing loc lo d path with
  | @mk m names located apart below ih =>
    cases hr with
    | mk distinct kept spared words beneath =>
      have hchildren : ∀ e ∈ m, ∀ c ∈ e.children, c.name ≠ str "callback_first" ∧ c.name ≠ str "callback_last" := by
        intro e he
        cases below e he with
        | mk names' _ _ _ => exact names'
      have hnonempty : ∀ location : Str, wordsOf location ≠ [] → location ≠ [] := by
        rintro location hne rfl
        exact hne rfl
      have hother : ∀ e ∈ m, ∀ d : Fields, ∀ k, k ≠ e.name → (s.getOne e d lo path).lookup k = d.lookup k := by
        intro e he d k hk
        obtain ⟨location, hl, hwords, hlit⟩ := located e he
        exact getOne_other hl (hnonempty _ hwords) hlit (hchildren e he) d lo path hk
      have hshown : ∀ e ∈ m, ∃ vs, valuesOf e (scrubFields (s.getElems m d lo path)) = some vs ∧ Shown s.host loc e vs := by
        intro e he
        obtain ⟨location, hl, hwords, hlit⟩ := located e he
        obtain ⟨d', hd', hget⟩ := getElems_lookup distinct hother d e he
        have hname : e.name ∉ scrubbed := by
          have := names e he
          have := kept e he
          simp_all [scrubbed]
        have hpath : e.path = wordsOf location := by rw [Elem.path, hl]; rfl
        obtain ⟨hparam, hliteral⟩ := hlo.param hlit
        rw [← hpath] at hparam
        have hfresh : Fresh [e] d' := by
          intro e' he' p
          rw [List.mem_singleton] at he'
          subst he'
          have := hd e' he p
          rwa [startNode, Fields.defined, ← hd'] at this
        obtain ⟨vs, hvs, hs⟩ := getOne_shown hl (hnonempty _ hwords) hlit (hchildren e he) hparam hname hfresh
          (spared e he) fun hne v hv p => by
            have hword := (words e he hne v hv).words
            have hdown : Located (some (paramLoc lo location ++ str " " ++ v)) (loc ++ e.path ++ [v]) :=
              ⟨by rw [wordsOf_append, hparam, hword.1], literal_append hliteral hword.2⟩
            exact ih e he hdown (beneath e he v hv) (fresh_belowNew _) p
        refine ⟨vs, ?_, hs⟩
        rw [← hvs]
        obtain ⟨name, l, callback, children⟩ := e
        rw [valuesOf, valuesOf, lookup_scrubFields, lookup_scrubFields]
        rw [show List.lookup name (s.getElems m d lo path) = _ from hget]
        rfl
      obtain ⟨es, hes, hall⟩ := elemsOf_some distinct hshown
      refine ⟨es, hes, ⟨fun e he => (hall e he).1, fun e he => (hall e he).2.1, fun e he => (hall e he).2.2⟩⟩

/-- Nothing in the data is read in place of the node of an element. -/
theorem fresh_start (hm : ∀ e ∈ m, e.name ≠ str "_error") (x : JsonValue) (b : Bool) :
    Fresh m (if b then [(str "_error", x)] else []) := by
  intro e he p
  have hlookup : (if b then [(str "_error", x)] else ([] : Fields)).lookup e.name = none := by
    cases b
    · rfl
    · exact List.lookup_eq_none_iff.mpr fun q hq => by
        rw [List.mem_singleton.mp hq]
        simpa using hm e he
  have hstart : startNode (if b then [(str "_error", x)] else []) e.name p =
      [(str "_values", .null), (str "_parent", texts p)] := by
    rw [startNode, Fields.defined, hlookup]
    rfl
  rw [hstart]
  exact ⟨rfl, rfl⟩

/-- The message without its error is seen as the whole message. -/
theorem elemsOf_erase (hm : ∀ e ∈ m, e.name ≠ str "_error") (fs : Fields) :
    elemsOf m (fs.erase (str "_error")) = elemsOf m fs := by
  induction m with
  | nil => rfl
  | cons e m ih =>
    rw [List.forall_mem_cons] at hm
    obtain ⟨name, location, callback, children⟩ := e
    rw [elemsOf, elemsOf, ih hm.2, valuesOf, valuesOf, Fields.lookup_erase,
      if_neg (show name ≠ str "_error" from hm.1)]

theorem sent_mirrors (hm : Fits m) (hr : Readable s.host m []) (herror : ∀ e ∈ m, e.name ≠ str "_error") (commits : Str) :
    ∃ fs es, sent s m commits = .object fs ∧ elemsOf m (Fields.erase fs (str "_error")) = some es ∧
    Mirrors s.host m [] (.mk es) := by
  have hnames : ∀ e ∈ m, e.name ≠ str "callback_first" ∧ e.name ≠ str "callback_last" := by
    cases hm with
    | mk names _ _ _ => exact names
  have hfresh := fresh_start herror commitError (checkCommit commits)
  have hroot : Located none [] := rfl
  obtain ⟨es, hes, hmirrors⟩ := getElems_mirrors hm hroot hr hfresh [str "data"]
  refine ⟨_, es, by rw [sent, scrubElem], ?_, hmirrors⟩
  rw [elemsOf_erase herror, readFromConfiguration, Source.getElem, around_get hnames]
  exact hes

end Reads

/-- The message that is sent asks for the values of the configuration that the map has, and for
    nothing else, at every depth. -/
theorem message_shows_configuration {s : Source} {m : List Elem} (hm : Fits m) (hr : Readable s.host m [])
    (herror : ∀ e ∈ m, e.name ≠ str "_error") (commits : Str) :
    ∃ fs es, sent s m commits = .object fs ∧ elemsOf m (Fields.erase fs (str "_error")) = some es ∧
      ∀ p, Requested m (.mk es) [] p ↔ Mapped m [] p ∧ p ∈ s.host.running := by
  obtain ⟨fs, es, hsent, hes, hmirrors⟩ := sent_mirrors hm hr herror commits
  exact ⟨fs, es, hsent, hes, fun _ => hmirrors.requested_iff⟩

/-- When the message comes back as it was sent, the commands leave everything that is in the
    configuration, except for leaves that have no value. -/
theorem written_back {s : Source} {m : List Elem} (hm : Fits m) (hr : Readable s.host m [])
    (herror : ∀ e ∈ m, e.name ≠ str "_error")
    (hleaf : ∀ n v, Mapped m [] (n ++ [v]) → s.host.tmpl n = .single → n ++ [v] ∈ s.host.running → LeafText v)
    {commits input : Str} {fromJson : Str → Option JsonValue} (hinput : fromJson input = some (sent s m commits))
    (hlen : input.length ≤ maxMsgLen) :
    ∃ evs, writeToConfiguration fromJson s.host m input = some evs ∧
      ∀ q, q ∈ s.host.running.applyAll (evs.filterMap s.host.eventEdit) ↔ q ∈ s.host.running ∧ ¬ Unset s.host m [] q := by
  obtain ⟨fs, es, hsent, hes, hmirrors⟩ := sent_mirrors hm hr herror commits
  refine ⟨s.host.setElem m (.mk es) none, ?_, applied hm hmirrors hr hleaf⟩
  rw [writeToConfiguration, if_neg (Nat.not_lt.mpr hlen), hinput, hsent]
  exact congrArg (Option.map _) hes

/-! ## A user with a description -/

/-- A leaf with a text and one without a value. -/
def noteMap : List Elem :=
  [.mk (str "user") (some (str "login user")) false
    [.mk (str "shell") (some (str "shell")) false [], .mk (str "off") (some (str "off shell")) false []]]

def noteNodes : List Path :=
  [[], [str "login"], login [], login [str "bob"], login [str "bob", str "shell"], login [str "bob", str "shell", str "a b"],
    login [str "bob", str "off"], login [str "bob", str "off", str "shell"]]

def noteSource : Source where
  host := sampleHost noteNodes (by decide) (by decide)
  allowed _ := none
  valHelp _ := none
  output _ := []
  callback _ _ := ⟨none, .null⟩

theorem noteMap_fits : Fits noteMap := by
  have hleaf : Fits [] := ⟨by simp, by simp, List.Pairwise.nil, by simp⟩
  have hbelow : Fits [.mk (str "shell") (some (str "shell")) false [], .mk (str "off") (some (str "off shell")) false []] := by
    refine ⟨by decide, ?_, by decide, by simpa [Elem.children] using hleaf⟩
    simp only [List.forall_mem_cons]
    exact ⟨⟨_, rfl, by decide, by decide⟩, ⟨_, rfl, by decide, by decide⟩, by simp⟩
  refine ⟨by decide, ?_, by decide, by simpa [noteMap, Elem.children] using hbelow⟩
  simp only [noteMap, List.forall_mem_cons]
  exact ⟨⟨_, rfl, by decide, by decide⟩, by simp⟩

theorem readable_nil (h : Host) (loc : Path) : Readable h [] loc :=
  ⟨List.nodup_nil, fun _ he => (nomatch he), fun _ he => (nomatch he), fun _ he => (nomatch he), fun _ he => (nomatch he)⟩

theorem noteMap_readable : Readable noteSource.host noteMap [] := by
  have hspared : ∀ q ∈ noteNodes, ∀ (p : Path) (v : Str), q = p ++ [v] → v ∉ scrubbed := by
    have hall : ∀ q ∈ noteNodes, ∀ v ∈ q, v ∉ scrubbed := by decide
    exact fun q hq p v hv => hall q hq v (by simp [hv])
  have hbob : ∀ v, login [] ++ [v] ∈ noteNodes → v = str "bob" := by
    intro v hv
    have hall : ∀ q ∈ noteNodes, q.dropLast = login [] → q = login [str "bob"] := by decide
    simpa [login] using hall _ hv (by simp)
  refine ⟨by decide, by decide, fun e _ v hv => hspared _ hv _ _ rfl, ?_, ?_⟩ <;> simp only [noteMap, List.forall_mem_singleton]
  · intro _ v hv
    rw [hbob v hv]
    decide
  · intro v hv
    rw [hbob v hv]
    refine ⟨by decide, by decide, fun e _ v hv => hspared _ hv _ _ rfl, ?_, ?_⟩ <;> intro e he
    · intro hne
      rcases List.mem_cons.mp he with rfl | he
      · exact absurd rfl hne
      · rw [List.mem_singleton.mp he] at hne
        exact absurd rfl hne
    · intro v _
      have hnil : e.children = [] := by
        rcases List.mem_cons.mp he with rfl | he
        · rfl
        · rw [List.mem_singleton.mp he]
          rfl
      rw [hnil]
      exact readable_nil _ _

/-- The text of the message for this map. -/
def noteText : Str :=
  str "\x7b\"user\":\x7b\"_values\":\x7b\"bob\":\x7b\"off\":\x7b\"_enum\":null\x7d," ++
  str "\"shell\":\x7b\"_values\":\x7b\"a b\":null\x7d,\"_enum\":null\x7d\x7d\x7d,\"_enum\":null\x7d\x7d"

theorem a_note_is_shown : ∃ fs es, sent noteSource noteMap (str "0 gui2_app") = .object fs ∧
    elemsOf noteMap (Fields.erase fs (str "_error")) = some es ∧
    ∀ p, Requested noteMap (.mk es) [] p ↔ Mapped noteMap [] p ∧ p ∈ noteSource.host.running :=
  message_shows_configuration noteMap_fits noteMap_readable (by decide) _

/-- The text is set once more, and the empty leaf is deleted. -/
theorem a_note_is_written_back : writeToConfiguration parseJson noteSource.host noteMap noteText =
      some [.run (str "set login user bob shell \\\"a b\\\""), .run (str "delete login user bob off shell")] ∧
    ∃ evs, writeToConfiguration parseJson noteSource.host noteMap noteText = some evs ∧
      ∀ q, q ∈ noteSource.host.running.applyAll (evs.filterMap noteSource.host.eventEdit) ↔
        q ∈ noteSource.host.running ∧ ¬ Unset noteSource.host noteMap [] q := by
  have htexts : ∀ q ∈ noteNodes, ∀ (n : Path) (v : Str), q = n ++ [v] → sampleTmpl n = .single → LeafText v := by
    intro q hq n v hv hk
    have hall : ∀ q ∈ noteNodes, sampleTmpl q.dropLast = .single → ∀ v ∈ q.getLast?, LeafText v := by decide
    exact hall q hq (by simpa [hv] using hk) v (by simp [hv])
  have hread : parseJson noteText = some (sent noteSource noteMap (str "0 gui2_app")) := rfl
  exact ⟨by decide, written_back noteMap_fits noteMap_readable (by decide)
    (fun n v _ hk hrun => htexts _ hrun n v rfl hk) hread (by decide)⟩

end Reading

end VyattaRest.MsgSimple
