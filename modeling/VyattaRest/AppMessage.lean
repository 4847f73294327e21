/-
  VyattaRest.AppMessage — messages of applications as trees of parameter objects
  (App/MsgParser.pm and the classes of App/Param).

  A message is JSON. `_recursiveParse` makes an object of one of thirteen classes of every node
  with a boolean `param`, hangs the objects of its `children` and `tags` on it and leaves every
  other node as it is; `getDataTree` makes JSON of the objects again.

  The constructor of `NonParam` takes the fields as its first argument and is given them as its
  second, and a node that is left as it is has no method `setParent`.
  - `message_comes_back_iff`: a message of supported nodes comes back exactly when it is not too
    long, nothing but nodes with a boolean `param` hangs on a node, a node that is no parameter
    has no other fields, and no `children` are empty.
  - `a_message_is_lost`: the fields of a node that is no parameter, and one that hangs on it.
-/

import Mathlib.Data.List.Forall2
import VyattaRest.Lib.JsonText

namespace VyattaRest.App

open VyattaRest.Lib

/-! ## Hashes -/

/-- A Perl hash; the order has no meaning. -/
abbrev Fields := List (Str × JsonValue)

namespace Fields

def erase (fs : Fields) (k : Str) : Fields := fs.filter (·.1 ≠ k)

def set (fs : Fields) (k : Str) (v : JsonValue) : Fields := (k, v) :: fs.erase k

/-- `defined($h->{k})`. -/
def defined (fs : Fields) (k : Str) : Bool :=
  match fs.lookup k with
  | none | some .null => false
  | some _ => true

/-- The pairs of a hash put into another one. -/
def update (fs : Fields) : Fields → Fields
  | [] => fs
  | (k, v) :: gs => (fs.set k v).update gs

end Fields

/-- A value taken for a condition. -/
def truthy : Option JsonValue → Bool
  | none | some .null => false
  | some (.bool b) => b
  -- a number is written with a digit other than 0 before its exponent, or it is zero
  | some (.number t) => (t.takeWhile fun b => b ≠ 69 && b ≠ 101).any fun b => 49 ≤ b && b ≤ 57
  | some (.string s) => s ≠ [] && s ≠ str "0"
  | some (.array _) | some (.object _) => true

/-! ## Parameters -/

/-- What the classes use of other packages. -/
structure Library where
  /-- A scalar as Perl writes it. -/
  text : JsonValue → Str
  /-- `validateType` of Vyatta::TypeChecker. -/
  validateType : Str → Str → Bool
  /-- `from_json`: `none` when it dies. -/
  fromJson : Str → Option JsonValue

inductive Class where
  | nonParam
  | tag
  | multiType
  | txt
  | u32
  | ipv4
  | ipv4net
  | ipv6
  | ipv6net
  | macaddr
  | bool
  | typeless
  deriving DecidableEq

/-- An object of a class, or a hash that was left as it is. -/
inductive Node where
  | raw (v : JsonValue)
  | param (cls : Class) (data : Fields) (children : List (Str × Node)) (tags : List Node)

def tagDummy : Str := str "___NODE.TAG___"

/-- A whole number below `U32_MAX`. -/
def isU32 (val : Str) : Bool :=
  let digits := if val.getLast? = some 10 then val.dropLast else val
  digits ≠ [] && digits.all isDigit && scanDigits 10 digits 0 < 2 ^ 32

section Library

variable (lib : Library)

/-- The types of a multi-typed parameter are texts. -/
def typeText (data : Fields) (k : Str) : Str := (data.lookup k).elim [] lib.text

def validateValue (cls : Class) (data : Fields) (val : JsonValue) : Bool :=
  match cls with
  | .nonParam | .tag | .txt | .typeless => true
  | .multiType =>
    lib.validateType (typeText lib data (str "type")) (lib.text val) ||
      lib.validateType (typeText lib data (str "type2")) (lib.text val)
  | .u32 => isU32 (lib.text val)
  | .ipv4 => lib.validateType (str "ipv4") (lib.text val)
  | .ipv4net => lib.validateType (str "ipv4net") (lib.text val)
  | .ipv6 => lib.validateType (str "ipv6") (lib.text val)
  | .ipv6net => lib.validateType (str "ipv6net") (lib.text val)
  | .macaddr => lib.validateType (str "macaddr") (lib.text val)
  | .bool => match val with
    | .bool _ => true
    | _ => false

def isDummy : JsonValue → Bool
  | .string s => s = tagDummy
  | _ => false

/-- A value that is not defined is not looked at. -/
def validateDefined (cls : Class) (data : Fields) : JsonValue → Bool
  | .null => true
  | val => validateValue lib cls data val

/-- `validate`. -/
def validate (cls : Class) (data : Fields) : Bool :=
  if data.defined (str "values") then
    match data.lookup (str "values") with
    | some (.array vals) => vals.all (validateDefined lib cls data)
    | _ => false
  else
    match data.lookup (str "value") with
    | none => true
    | some val => isDummy val || validateDefined lib cls data val

/-- The constructor of the base class, for a value that is not defined: the data of the object,
    `none` when it dies. -/
def baseNew (cls : Class) (href : Option Fields) : Option Fields :=
  let data := Fields.update [(str "value", .null)] (href.getD [])
  if validate lib cls data then some data else none

/-- `NonParam::new($href)`. -/
def nonParamNew (href : Option Fields) : Option Fields := do
  let data ← baseNew lib .nonParam href
  let data := if (href.getD []).defined (str "value") then data else data.erase (str "value")
  return data.set (str "param") (.bool false)

/-- `TypelessParam::new($href)`. -/
def typelessNew (href : Fields) : Option Fields := do
  let data ← baseNew lib .typeless (some href)
  if href.defined (str "value") || href.defined (str "values") then none
  else return ((data.erase (str "value")).set (str "param") (.bool true)).set (str "type") (.string [])

def validTypes : List Str :=
  [str "txt", str "u32", str "ipv4", str "ipv4net", str "ipv6", str "ipv6net", str "macaddr", str "bool"]

def isValidType : JsonValue → Bool
  | .string t => validTypes.contains t
  | _ => false

/-- `TagParam::new($type, $href)`. -/
def tagNew (type : JsonValue) (href : Fields) : Option Fields := do
  if !isValidType type then none
  let data ← baseNew lib .tag (some href)
  if href.defined (str "value") || href.defined (str "values") then none
  let data := ((data.erase (str "value")).set (str "param") (.bool true)).set (str "type") type
  if href.defined (str "type2") then
    match href.lookup (str "type2") with
    | some type2 =>
      if isValidType type2 then return (data.set (str "type2") type2).set (str "tagnode") (.bool true) else none
    | none => none
  else return data.set (str "tagnode") (.bool true)

/-- `MultiTypeParam::new(undef, $href)`. -/
def multiTypeNew (href : Fields) : Option Fields := do
  let data ← baseNew lib .multiType (some href)
  return data.set (str "param") (.bool true)

/-- `new(undef, $href)` of a class with one type. -/
def typedNew (cls : Class) (type : Str) (href : Fields) : Option Fields := do
  let data ← baseNew lib cls (some href)
  return (data.set (str "param") (.bool true)).set (str "type") (.string type)

/-- `str2bool`. -/
def str2bool : JsonValue → Option JsonValue
  | .null => some .null
  | .bool b => some (.bool b)
  | .string s => if s = str "true" then some (.bool true) else if s = str "false" then some (.bool false) else none
  | _ => none

/-- `BoolParam::new(undef, $href)` turns the default into a boolean. -/
def boolNew (href : Fields) : Option Fields :=
  if href.defined (str "default") then do
    let default ← str2bool ((href.lookup (str "default")).getD .null)
    typedNew lib .bool (str "bool") (href.set (str "default") default)
  else typedNew lib .bool (str "bool") href

/-! ## Parsing -/

/-- The class of a parameter; `none` for a type that is not supported. -/
def classOf (href : Fields) : Option Class :=
  if truthy (href.lookup (str "tagnode")) then some .tag
  else if href.defined (str "type2") then some .multiType
  else
    match href.lookup (str "type") with
    | some (.string t) =>
      if t = str "txt" then some .txt
      else if t = str "u32" then some .u32
      else if t = str "ipv4" then some .ipv4
      else if t = str "ipv4net" then some .ipv4net
      else if t = str "ipv6" then some .ipv6
      else if t = str "ipv6net" then some .ipv6net
      else if t = str "macaddr" then some .macaddr
      else if t = str "bool" then some .bool
      else if t = [] then some .typeless
      else none
    | _ => none

/-- The fields without those that are hung on the object. -/
def dataHash (href : Fields) : Fields := href.filter fun p => p.1 ≠ str "children" && p.1 ≠ str "tags"

/-- The data of a new object of a class. `NonParam` gets an undefined value and then the
    fields, of which it takes the first. -/
def construct (cls : Class) (href : Fields) : Option Fields :=
  match cls with
  | .nonParam => nonParamNew lib none
  | .tag => tagNew lib ((href.lookup (str "type")).getD .null) (dataHash href)
  | .multiType => multiTypeNew lib (dataHash href)
  | .txt => typedNew lib .txt (str "txt") (dataHash href)
  | .u32 => typedNew lib .u32 (str "u32") (dataHash href)
  | .ipv4 => typedNew lib .ipv4 (str "ipv4") (dataHash href)
  | .ipv4net => typedNew lib .ipv4net (str "ipv4net") (dataHash href)
  | .ipv6 => typedNew lib .ipv6 (str "ipv6") (dataHash href)
  | .ipv6net => typedNew lib .ipv6net (str "ipv6net") (dataHash href)
  | .macaddr => typedNew lib .macaddr (str "macaddr") (dataHash href)
  | .bool => boolNew lib (dataHash href)
  | .typeless => typelessNew lib (dataHash href)

/-- A hash that is not an object of a class has no method `setParent`. -/
def Node.hangs : Node → Bool
  | .raw _ => false
  | .param _ _ _ _ => true

mutual

/-- `_recursiveParse`; `none` when it dies. A value that is no hash dies at the first look, but
    one that is not defined becomes an empty hash there. -/
def recursiveParse : JsonValue → Option Node
  | .object href =>
    match href.lookup (str "param") with
    | some (.bool param) =>
      if param && !Fields.defined href (str "type") then some (.raw (.object href))
      else
        match parseChildren href with
        | none => none
        | some cparams =>
          match if param then classOf href else some .nonParam with
          | none => some (.raw (.object href))
          | some cls =>
            match construct lib cls href with
            | none => none
            | some data =>
              if cls = .tag then
                match parseTags href with
                | none => none
                -- no child can be added to a tag node
                | some tags => if tags.all Node.hangs && cparams.isEmpty then some (.param cls data [] tags) else none
              else if cparams.all fun p => p.2.hangs then some (.param cls data cparams [])
              else none
    | _ => some (.raw (.object href))
  | .null => some (.raw (.object []))
  | _ => none

/-- The children, if they are defined. -/
def parseChildren : Fields → Option (List (Str × Node))
  | [] => some []
  | (k, v) :: fs => if k = str "children" then parseHash v else parseChildren fs

def parseHash : JsonValue → Option (List (Str × Node))
  | .object cs => parseMembers cs
  | .null => some []
  | _ => none

def parseMembers : Fields → Option (List (Str × Node))
  | [] => some []
  | (k, v) :: cs =>
    match recursiveParse v, parseMembers cs with
    | some n, some ns => some ((k, n) :: ns)
    | _, _ => none

/-- The tags, if they are defined. -/
def parseTags : Fields → Option (List Node)
  | [] => some []
  | (k, v) :: fs => if k = str "tags" then parseArray v else parseTags fs

def parseArray : JsonValue → Option (List Node)
  | .array ts => parseElements ts
  | .null => some []
  | _ => none

def parseElements : List JsonValue → Option (List Node)
  | [] => some []
  | t :: ts =>
    match recursiveParse t, parseElements ts with
    | some n, some ns => some (n :: ns)
    | _, _ => none

end

def maxMsgLen : Nat := 512 * 1024

/-- `_fromJsonInput`. -/
def fromJsonInput (input : Str) : Option JsonValue := if maxMsgLen < input.length then none else lib.fromJson input

/-- `fromInput`. -/
def fromInput (input : Str) : Option (List (Str × Node)) :=
  match fromJsonInput lib input with
  | some (.object ms) => parseMembers lib ms
  | _ => none

end Library

/-! ## Back to JSON -/

mutual

/-- `getDataTree`; only an object has it. -/
def Node.getDataTree : Node → Option JsonValue
  | .raw _ => none
  | .param cls data children tags =>
    if cls = .tag then
      match elementTrees tags with
      | none => none
      | some ts => some (.object (data.set (str "tags") (.array ts)))
    else
      match memberTrees children with
      | none => none
      | some [] => some (.object data)
      | some (c :: cs) => some (.object (data.set (str "children") (.object (c :: cs))))

def memberTrees : List (Str × Node) → Option Fields
  | [] => some []
  | (k, n) :: ns =>
    match n.getDataTree, memberTrees ns with
    | some v, some vs => some ((k, v) :: vs)
    | _, _ => none

def elementTrees : List Node → Option (List JsonValue)
  | [] => some []
  | n :: ns =>
    match n.getDataTree, elementTrees ns with
    | some v, some vs => some (v :: vs)
    | _, _ => none

end

/-- What a node of the message has become. -/
def Node.tree : Node → Option JsonValue
  | .raw v => some v
  | n => n.getDataTree

/-! ## Messages -/

section Messages

variable (lib : Library)

/-- A field that is there as it was, or a `value` that was added and is null. -/
def Field (fs gs : Fields) (k : Str) : Prop :=
  gs.lookup k = fs.lookup k ∨ k = str "value" ∧ fs.lookup k = none ∧ gs.lookup k = some .null

/-- The same tree, up to an added `value` that is null. -/
inductive Back : JsonValue → JsonValue → Prop where
  | same (v : JsonValue) : Back v v
  | node {fs gs : Fields} (cs ds : Option Fields) (ts us : Option (List JsonValue))
      (fields : ∀ k, k ≠ str "children" → k ≠ str "tags" → Field fs gs k)
      (children : fs.lookup (str "children") = cs.map .object) (children' : gs.lookup (str "children") = ds.map .object)
      (both : cs.isSome = ds.isSome)
      (names : ∀ l m k, cs = some l → ds = some m → (l.lookup k).isSome = (m.lookup k).isSome)
      (each : ∀ l m k c d, cs = some l → ds = some m → l.lookup k = some c → m.lookup k = some d → Back c d)
      (tags : fs.lookup (str "tags") = ts.map .array) (tags' : gs.lookup (str "tags") = us.map .array)
      (number : ts.map List.length = us.map List.length)
      (every : ∀ l m (i : Nat) t u, ts = some l → us = some m → l[i]? = some t → m[i]? = some u → Back t u) :
      Back (.object fs) (.object gs)

/-- No boolean `param`. -/
def IsCustom (v : JsonValue) : Prop := ∃ fs, v = .object fs ∧ ∀ b, fs.lookup (str "param") ≠ some (.bool b)

/-- A parameter that is no tag node, of a supported type and with values that are valid for it. -/
structure Supported (cls : Class) (fs : Fields) : Prop where
  param : fs.lookup (str "param") = some (.bool true)
  type : fs.defined (str "type") = true
  dispatched : classOf fs = some cls
  not_tag : cls ≠ .tag
  valid : validate lib cls fs = true
  typeless : cls = .typeless → fs.lookup (str "value") = none ∧ fs.lookup (str "values") = none
  default : cls = .bool → ∀ v, fs.lookup (str "default") = some v → str2bool v = some v
  tags : fs.lookup (str "tags") = none

structure SupportedTag (fs : Fields) : Prop where
  param : fs.lookup (str "param") = some (.bool true)
  tagnode : fs.lookup (str "tagnode") = some (.bool true)
  type : ∃ t, fs.lookup (str "type") = some t ∧ isValidType t = true
  type2 : ∀ t, fs.lookup (str "type2") = some t → isValidType t = true
  value : fs.lookup (str "value") = none
  values : fs.lookup (str "values") = none
  children : fs.lookup (str "children") = none

/-- The nodes of a message; names are distinct, as they are in a hash. -/
inductive Message : JsonValue → Prop where
  | custom {v : JsonValue} (h : IsCustom v) : Message v
  | nonParam {fs : Fields} {cs : Option Fields} (keys : (fs.map Prod.fst).Nodup)
      (param : fs.lookup (str "param") = some (.bool false)) (children : fs.lookup (str "children") = cs.map .object)
      (names : ∀ l, cs = some l → (l.map Prod.fst).Nodup) (below : ∀ l, cs = some l → ∀ p ∈ l, Message p.2) :
      Message (.object fs)
  | param {fs : Fields} {cs : Option Fields} {cls : Class} (keys : (fs.map Prod.fst).Nodup) (supported : Supported lib cls fs)
      (children : fs.lookup (str "children") = cs.map .object)
      (names : ∀ l, cs = some l → (l.map Prod.fst).Nodup) (below : ∀ l, cs = some l → ∀ p ∈ l, Message p.2) :
      Message (.object fs)
  | tag {fs : Fields} {ts : List JsonValue} (keys : (fs.map Prod.fst).Nodup) (supported : SupportedTag fs)
      (tags : fs.lookup (str "tags") = some (.array ts)) (below : ∀ t ∈ ts, Message t) : Message (.object fs)

/-- A node that comes back wherever it hangs. -/
inductive Whole : JsonValue → Prop where
  | node {fs : Fields} (param : ∃ b, fs.lookup (str "param") = some (.bool b))
      (bare : fs.lookup (str "param") = some (.bool false) → ∀ k, fs.lookup k ≠ none → k = str "param" ∨ k = str "children")
      (children : fs.lookup (str "children") ≠ some (.object []))
      (below : ∀ l, fs.lookup (str "children") = some (.object l) → ∀ p ∈ l, Whole p.2)
      (tags : ∀ l, fs.lookup (str "tags") = some (.array l) → ∀ t ∈ l, Whole t) : Whole (.object fs)

end Messages

/-! ## Hashes -/

namespace Fields

variable {fs gs : Fields} {k : Str}

theorem lookup_erase (fs : Fields) (k k' : Str) : (fs.erase k).lookup k' = if k' = k then none else fs.lookup k' := by
  induction fs with
  | nil => simp [erase]
  | cons p fs ih =>
    obtain ⟨l, v⟩ := p
    rw [erase] at ih ⊢
    by_cases hl : l = k
    · rw [List.filter_cons_of_neg (by simp [hl]), ih, List.lookup_cons]
      by_cases hk : k' = k
      · simp [hk]
      · have : (k' == l) = false := by simpa [hl] using hk
        simp [hk, this]
    · rw [List.filter_cons_of_pos (by simpa using hl), List.lookup_cons, List.lookup_cons, ih]
      by_cases hk : k' = k
      · subst hk
        have : (k' == l) = false := by simpa using Ne.symm hl
        simp [this]
      · simp [hk]

theorem lookup_set (fs : Fields) (k k' : Str) (v : JsonValue) :
    (fs.set k v).lookup k' = if k' = k then some v else fs.lookup k' := by
  rw [set, List.lookup_cons]
  by_cases hk : k' = k
  · simp [hk]
  · have : (k' == k) = false := by simpa using hk
    rw [this, lookup_erase, if_neg hk, if_neg hk]

theorem nodup_set (h : (fs.map Prod.fst).Nodup) (k : Str) (v : JsonValue) : ((fs.set k v).map Prod.fst).Nodup := by
  rw [set, List.map_cons, List.nodup_cons]
  refine ⟨fun hm => ?_, h.sublist (List.filter_sublist.map _)⟩
  obtain ⟨p, hp, hpk⟩ := List.mem_map.mp hm
  exact of_decide_eq_true (List.mem_filter.mp hp).2 hpk

theorem lookup_eq_none (h : k ∉ fs.map Prod.fst) : fs.lookup k = none := by
  refine List.lookup_eq_none_iff.mpr fun p hp => ?_
  have : k ≠ p.1 := fun h' => h (List.mem_map.mpr ⟨p, hp, h'.symm⟩)
  simpa using this

theorem lookup_update (h : (gs.map Prod.fst).Nodup) (k : Str) : (fs.update gs).lookup k = (gs.lookup k).or (fs.lookup k) := by
  induction gs generalizing fs with
  | nil => rfl
  | cons p gs ih =>
    obtain ⟨l, v⟩ := p
    rw [List.map_cons, List.nodup_cons] at h
    rw [update, ih h.2, lookup_set, List.lookup_cons]
    by_cases hk : k = l
    · subst hk
      simp [lookup_eq_none h.1]
    · have : (k == l) = false := by simpa using hk
      simp [hk, this]

end Fields

theorem lookup_dataHash (fs : Fields) (k : Str) :
    (dataHash fs).lookup k = if k = str "children" ∨ k = str "tags" then none else fs.lookup k := by
  have hboth : dataHash fs = (fs.erase (str "tags")).erase (str "children") := by
    rw [dataHash, Fields.erase, Fields.erase, List.filter_filter]
  rw [hboth, Fields.lookup_erase, Fields.lookup_erase]
  by_cases h₁ : k = str "children" <;> by_cases h₂ : k = str "tags" <;> simp [h₁, h₂]

theorem nodup_dataHash {fs : Fields} (h : (fs.map Prod.fst).Nodup) : ((dataHash fs).map Prod.fst).Nodup :=
  h.sublist ((List.filter_sublist).map _)

/-! ## New objects -/

section Construct

variable {lib : Library} {fs href : Fields} {cls : Class}

/-- The fields without those that are hung on the object, in any order. -/
structure Data (fs href : Fields) : Prop where
  keys : (href.map Prod.fst).Nodup
  lookup : ∀ k, href.lookup k = if k = str "children" ∨ k = str "tags" then none else fs.lookup k

theorem data_dataHash (h : (fs.map Prod.fst).Nodup) : Data fs (dataHash fs) := ⟨nodup_dataHash h, lookup_dataHash fs⟩

theorem Data.lookup_of_ne (h : Data fs href) {k : Str} (h₁ : k ≠ str "children") (h₂ : k ≠ str "tags") :
    href.lookup k = fs.lookup k := by
  rw [h.lookup, if_neg (by simp [h₁, h₂])]

theorem Data.defined_of_ne (h : Data fs href) {k : Str} (h₁ : k ≠ str "children") (h₂ : k ≠ str "tags") :
    href.defined k = fs.defined k := by
  rw [Fields.defined, Fields.defined, h.lookup_of_ne h₁ h₂]

/-- A field that was there is set again. -/
theorem Data.set (h : Data fs href) {k : Str} {v : JsonValue} (hk : fs.lookup k = some v) (h₁ : k ≠ str "children")
    (h₂ : k ≠ str "tags") : Data fs (href.set k v) := by
  refine ⟨Fields.nodup_set h.keys k v, fun k' => ?_⟩
  rw [Fields.lookup_set]
  by_cases hk' : k' = k
  · rw [if_pos hk', hk', if_neg (by simp [h₁, h₂]), hk]
  · rw [if_neg hk', h.lookup]

/-- The data of the base class. -/
def baseData (href : Fields) : Fields := Fields.update [(str "value", .null)] href

theorem Data.lookup_base (h : Data fs href) (k : Str) : (baseData href).lookup k =
    if k = str "children" ∨ k = str "tags" then none
    else (fs.lookup k).or (if k = str "value" then some .null else none) := by
  have hvalue : List.lookup k [(str "value", JsonValue.null)] = if k = str "value" then some .null else none := by
    rw [List.lookup_cons]
    by_cases hk : k = str "value"
    · simp [hk]
    · simp [hk, beq_eq_false_iff_ne.mpr hk]
  rw [baseData, Fields.lookup_update h.keys, h.lookup, hvalue]
  by_cases hk : k = str "children" ∨ k = str "tags"
  · have hne : k ≠ str "value" := by
      rcases hk with rfl | rfl <;> decide
    rw [if_pos hk, if_pos hk, if_neg hne]
    rfl
  · simp [hk]

/-- A field that the base class has not changed. -/
theorem Data.lookup_base_of_ne (h : Data fs href) {k : Str} (h₁ : k ≠ str "children") (h₂ : k ≠ str "tags")
    (h₃ : k ≠ str "value") : (baseData href).lookup k = fs.lookup k := by
  rw [h.lookup_base, if_neg (by simp [h₁, h₂]), if_neg h₃, Option.or_none]

theorem Data.validateDefined_base (h : Data fs href) (v : JsonValue) :
    validateDefined lib cls (baseData href) v = validateDefined lib cls fs v := by
  have htype : typeText lib (baseData href) (str "type") = typeText lib fs (str "type") := by
    rw [typeText, typeText, h.lookup_base_of_ne (by decide) (by decide) (by decide)]
  have htype2 : typeText lib (baseData href) (str "type2") = typeText lib fs (str "type2") := by
    rw [typeText, typeText, h.lookup_base_of_ne (by decide) (by decide) (by decide)]
  unfold validateDefined validateValue
  rw [htype, htype2]

theorem Data.validate_base (h : Data fs href) : validate lib cls (baseData href) = validate lib cls fs := by
  have hvalues : (baseData href).lookup (str "values") = fs.lookup (str "values") :=
    h.lookup_base_of_ne (by decide) (by decide) (by decide)
  have hdefined : (baseData href).defined (str "values") = fs.defined (str "values") := by
    rw [Fields.defined, Fields.defined, hvalues]
  have hvalue : (baseData href).lookup (str "value") = (fs.lookup (str "value")).or (some .null) := by
    rw [h.lookup_base, if_neg (by decide), if_pos rfl]
  unfold validate
  rw [hdefined, hvalues, hvalue, show validateDefined lib cls (baseData href) = validateDefined lib cls fs from
    funext h.validateDefined_base]
  rcases fs.lookup (str "value") with _ | v
  · simp [isDummy, validateDefined]
  · rfl

theorem Data.baseNew_eq (h : Data fs href) (hvalid : validate lib cls fs = true) :
    baseNew lib cls (some href) = some (baseData href) := by
  have hbase : validate lib cls (Fields.update [(str "value", .null)] href) = true := h.validate_base.trans hvalid
  rw [baseNew, Option.getD_some]
  simp only [hbase, if_true]
  rfl

/-- The data of an object that come back, with nothing hung on it yet. -/
structure Restores (fs data : Fields) : Prop where
  fields : ∀ k, k ≠ str "children" → k ≠ str "tags" → Field fs data k
  children : data.lookup (str "children") = none
  tags : data.lookup (str "tags") = none

theorem Data.restores (h : Data fs href) : Restores fs (baseData href) := by
  refine ⟨fun k h₁ h₂ => ?_, by rw [h.lookup_base, if_pos (Or.inl rfl)], by rw [h.lookup_base, if_pos (Or.inr rfl)]⟩
  unfold Field
  rw [h.lookup_base, if_neg (by simp [h₁, h₂])]
  rcases hk : fs.lookup k with _ | v
  · by_cases hv : k = str "value"
    · exact Or.inr ⟨hv, rfl, by simp [hv]⟩
    · exact Or.inl (by simp [hv])
  · exact Or.inl rfl

/-- A field is written that was there. -/
theorem Restores.set {data : Fields} (h : Restores fs data) {k : Str} {v : JsonValue} (hk : fs.lookup k = some v)
    (h₁ : k ≠ str "children") (h₂ : k ≠ str "tags") : Restores fs (data.set k v) := by
  refine ⟨fun k' h₁' h₂' => ?_, ?_, ?_⟩
  · unfold Field
    rw [Fields.lookup_set]
    by_cases hk' : k' = k
    · rw [if_pos hk', hk', hk]
      exact Or.inl rfl
    · rw [if_neg hk']
      exact h.fields k' h₁' h₂'
  · rw [Fields.lookup_set, if_neg (Ne.symm h₁)]
    exact h.children
  · rw [Fields.lookup_set, if_neg (Ne.symm h₂)]
    exact h.tags

/-- A `value` is taken out that was not there. -/
theorem Restores.erase {data : Fields} (h : Restores fs data) (hvalue : fs.lookup (str "value") = none) :
    Restores fs (data.erase (str "value")) := by
  refine ⟨fun k h₁ h₂ => ?_, ?_, ?_⟩
  · unfold Field
    rw [Fields.lookup_erase]
    by_cases hk : k = str "value"
    · rw [if_pos hk, hk, hvalue]
      exact Or.inl rfl
    · rw [if_neg hk]
      exact h.fields k h₁ h₂
  · rw [Fields.lookup_erase, if_neg (by decide)]
    exact h.children
  · rw [Fields.lookup_erase, if_neg (by decide)]
    exact h.tags

/-- The classes with one type. -/
def typeNames : List (Class × Str) :=
  [(.txt, str "txt"), (.u32, str "u32"), (.ipv4, str "ipv4"), (.ipv4net, str "ipv4net"), (.ipv6, str "ipv6"),
   (.ipv6net, str "ipv6net"), (.macaddr, str "macaddr"), (.bool, str "bool"), (.typeless, [])]

theorem eq_or_of_ite {α : Type} {c : Prop} [Decidable c] {a b : α} {r : Option α} (h : (if c then some a else r) = some b) :
    (c ∧ a = b) ∨ r = some b := by
  by_cases hc : c
  · rw [if_pos hc] at h
    exact Or.inl ⟨hc, Option.some.inj h⟩
  · rw [if_neg hc] at h
    exact Or.inr h

theorem classOf_cases (h : classOf fs = some cls) : cls = .tag ∨ cls = .multiType ∨
    ∃ t, fs.lookup (str "type") = some (.string t) ∧ (cls, t) ∈ typeNames := by
  unfold classOf at h
  rcases eq_or_of_ite h with ⟨-, rfl⟩ | h
  · exact Or.inl rfl
  rcases eq_or_of_ite h with ⟨-, rfl⟩ | h
  · exact Or.inr (Or.inl rfl)
  refine Or.inr (Or.inr ?_)
  split at h
  · rename_i t ht
    refine ⟨t, ht, ?_⟩
    repeat
      rcases eq_or_of_ite h with ⟨rfl, rfl⟩ | h
      · decide
    cases h
  · cases h

theorem typedNew_restores (h : Data fs href) (hvalid : validate lib cls fs = true)
    (hparam : fs.lookup (str "param") = some (.bool true)) {t : Str} (htype : fs.lookup (str "type") = some (.string t)) :
    ∃ data, typedNew lib cls t href = some data ∧ Restores fs data := by
  refine ⟨_, ?_, (h.restores.set hparam (by decide) (by decide)).set htype (by decide) (by decide)⟩
  simp [typedNew, h.baseNew_eq hvalid]

theorem boolNew_restores (h : Data fs href) (hs : Supported lib .bool fs)
    (htype : fs.lookup (str "type") = some (.string (str "bool"))) :
    ∃ data, boolNew lib href = some data ∧ Restores fs data := by
  unfold boolNew
  split
  · rename_i hdefined
    have hlookup := h.lookup_of_ne (show str "default" ≠ str "children" by decide) (by decide)
    rw [Fields.defined, hlookup] at hdefined
    rcases hd : fs.lookup (str "default") with _ | v
    · rw [hd] at hdefined
      cases hdefined
    · rw [hlookup, hd, Option.getD_some, hs.default rfl v hd]
      exact typedNew_restores (h.set hd (by decide) (by decide)) hs.valid hs.param htype
  · exact typedNew_restores h hs.valid hs.param htype

theorem typelessNew_restores (h : Data fs href) (hs : Supported lib .typeless fs)
    (htype : fs.lookup (str "type") = some (.string [])) :
    ∃ data, typelessNew lib href = some data ∧ Restores fs data := by
  obtain ⟨hvalue, hvalues⟩ := hs.typeless rfl
  have hno : (href.defined (str "value") || href.defined (str "values")) = false := by
    rw [h.defined_of_ne (by decide) (by decide), h.defined_of_ne (by decide) (by decide), Fields.defined, Fields.defined,
      hvalue, hvalues]
    rfl
  refine ⟨_, ?_, ((h.restores.erase hvalue).set hs.param (by decide) (by decide)).set htype (by decide) (by decide)⟩
  simp [typelessNew, h.baseNew_eq hs.valid, hno]

theorem multiTypeNew_restores (h : Data fs href) (hs : Supported lib .multiType fs) :
    ∃ data, multiTypeNew lib href = some data ∧ Restores fs data := by
  refine ⟨_, ?_, h.restores.set hs.param (by decide) (by decide)⟩
  simp [multiTypeNew, h.baseNew_eq hs.valid]

theorem construct_restores (hkeys : (fs.map Prod.fst).Nodup) (hs : Supported lib cls fs) :
    ∃ data, construct lib cls fs = some data ∧ Restores fs data := by
  have h := data_dataHash hkeys
  rcases classOf_cases hs.dispatched with rfl | rfl | ⟨t, htype, hmem⟩
  · exact absurd rfl hs.not_tag
  · exact multiTypeNew_restores h hs
  · simp only [typeNames, List.mem_cons, List.not_mem_nil, or_false, Prod.mk.injEq] at hmem
    rcases hmem with ⟨rfl, rfl⟩ | ⟨rfl, rfl⟩ | ⟨rfl, rfl⟩ | ⟨rfl, rfl⟩ | ⟨rfl, rfl⟩ | ⟨rfl, rfl⟩ | ⟨rfl, rfl⟩ | ⟨rfl, rfl⟩ |
      ⟨rfl, rfl⟩
    any_goals exact typedNew_restores h hs.valid hs.param htype
    · exact boolNew_restores h hs htype
    · exact typelessNew_restores h hs htype

theorem validate_tag (h : fs.lookup (str "values") = none) : validate lib .tag fs = true := by
  have hdefined : fs.defined (str "values") = false := by rw [Fields.defined, h]
  rw [validate, hdefined]
  simp only [Bool.false_eq_true, if_false]
  rcases fs.lookup (str "value") with _ | v
  · rfl
  · cases v <;> simp [validateDefined, validateValue]

theorem tagNew_restores (lib : Library) (hkeys : (fs.map Prod.fst).Nodup) (hs : SupportedTag fs) :
    ∃ data, construct lib .tag fs = some data ∧ Restores fs data := by
  have h := data_dataHash hkeys
  obtain ⟨t, htype, hvalid⟩ := hs.type
  have hno : ((dataHash fs).defined (str "value") || (dataHash fs).defined (str "values")) = false := by
    rw [h.defined_of_ne (by decide) (by decide), h.defined_of_ne (by decide) (by decide), Fields.defined, Fields.defined,
      hs.value, hs.values]
    rfl
  have hrest := ((h.restores.erase hs.value).set hs.param (by decide) (by decide)).set htype (by decide) (by decide)
  have hlookup := h.lookup_of_ne (show str "type2" ≠ str "children" by decide) (by decide)
  show ∃ data, tagNew lib ((fs.lookup (str "type")).getD .null) (dataHash fs) = some data ∧ _
  rcases htype2 : fs.lookup (str "type2") with _ | t2
  · refine ⟨_, ?_, hrest.set hs.tagnode (by decide) (by decide)⟩
    have hdefined : (dataHash fs).defined (str "type2") = false := by rw [Fields.defined, hlookup, htype2]
    simp [tagNew, htype, hvalid, h.baseNew_eq (validate_tag hs.values), hno, hdefined]
  · have hvalid2 := hs.type2 t2 htype2
    refine ⟨_, ?_, (hrest.set htype2 (by decide) (by decide)).set hs.tagnode (by decide) (by decide)⟩
    have hdefined : (dataHash fs).defined (str "type2") = true := by
      rw [Fields.defined, hlookup, htype2]
      cases t2 <;> first | rfl | cases hvalid2
    simp [tagNew, htype, hvalid, h.baseNew_eq (validate_tag hs.values), hno, hdefined, hlookup, htype2, hvalid2]

end Construct

/-! ## Lists of nodes -/

section Lists

variable {lib : Library}

theorem parseChildren_eq (fs : Fields) :
    parseChildren lib fs = (fs.lookup (str "children")).elim (some []) (parseHash lib) := by
  induction fs with
  | nil => simp [parseChildren]
  | cons p fs ih =>
    obtain ⟨k, v⟩ := p
    rw [parseChildren, List.lookup_cons]
    by_cases hk : k = str "children"
    · simp [hk]
    · rw [if_neg hk, ih, beq_eq_false_iff_ne.mpr (Ne.symm hk)]

theorem parseTags_eq (fs : Fields) : parseTags lib fs = (fs.lookup (str "tags")).elim (some []) (parseArray lib) := by
  induction fs with
  | nil => simp [parseTags]
  | cons p fs ih =>
    obtain ⟨k, v⟩ := p
    rw [parseTags, List.lookup_cons]
    by_cases hk : k = str "tags"
    · simp [hk]
    · rw [if_neg hk, ih, beq_eq_false_iff_ne.mpr (Ne.symm hk)]

/-- All of a list, one by one. -/
theorem mapM_iff {α β : Type} {f : α → Option β} {l : List α} {r : List β} :
    l.mapM f = some r ↔ List.Forall₂ (fun a b => f a = some b) l r := by
  induction l generalizing r with
  | nil =>
    rw [List.forall₂_nil_left_iff]
    simp [eq_comm]
  | cons a l ih =>
    rw [List.mapM_cons, List.forall₂_cons_left_iff]
    constructor
    · intro h
      obtain ⟨b, hb, h⟩ := Option.bind_eq_some_iff.mp h
      obtain ⟨r', hr', h⟩ := Option.bind_eq_some_iff.mp h
      cases h
      exact ⟨b, r', hb, ih.mp hr', rfl⟩
    · rintro ⟨b, r', hb, hr', rfl⟩
      rw [hb, ih.mpr hr']
      rfl

theorem parseMembers_eq (cs : Fields) :
    parseMembers lib cs = cs.mapM fun p => (recursiveParse lib p.2).map (Prod.mk p.1) := by
  induction cs with
  | nil => rfl
  | cons p cs ih =>
    obtain ⟨k, v⟩ := p
    rw [parseMembers, List.mapM_cons, ← ih]
    rcases recursiveParse lib v with _ | n
    · rfl
    · rcases parseMembers lib cs with _ | ns <;> rfl

theorem parseElements_eq (ts : List JsonValue) : parseElements lib ts = ts.mapM (recursiveParse lib) := by
  induction ts with
  | nil => rfl
  | cons t ts ih =>
    rw [parseElements, List.mapM_cons, ← ih]
    rcases recursiveParse lib t with _ | n
    · rfl
    · rcases parseElements lib ts with _ | ns <;> rfl

theorem memberTrees_eq (ns : List (Str × Node)) : memberTrees ns = ns.mapM fun p => p.2.getDataTree.map (Prod.mk p.1) := by
  induction ns with
  | nil => rfl
  | cons p ns ih =>
    obtain ⟨k, n⟩ := p
    rw [memberTrees, List.mapM_cons, ← ih]
    rcases n.getDataTree with _ | v
    · rfl
    · rcases memberTrees ns with _ | vs <;> rfl

theorem elementTrees_eq (ns : List Node) : elementTrees ns = ns.mapM Node.getDataTree := by
  induction ns with
  | nil => rfl
  | cons n ns ih =>
    rw [elementTrees, List.mapM_cons, ← ih]
    rcases n.getDataTree with _ | v
    · rfl
    · rcases elementTrees ns with _ | vs <;> rfl

theorem exists_of_forall₂ {α β : Type} {R : α → β → Prop} {l : List α} {r : List β} (h : List.Forall₂ R l r) {a : α}
    (ha : a ∈ l) : ∃ b ∈ r, R a b := by
  induction h with
  | nil => cases ha
  | @cons x y l r hxy _ ih =>
    rcases List.mem_cons.mp ha with rfl | ha
    · exact ⟨y, List.mem_cons_self, hxy⟩
    · obtain ⟨b, hb, hab⟩ := ih ha
      exact ⟨b, List.mem_cons_of_mem _ hb, hab⟩

theorem forall₂_of_exists {α β : Type} {R : α → β → Prop} {l : List α} (h : ∀ a ∈ l, ∃ b, R a b) : ∃ r, List.Forall₂ R l r := by
  induction l with
  | nil => exact ⟨[], .nil⟩
  | cons a l ih =>
    obtain ⟨b, hb⟩ := h a List.mem_cons_self
    obtain ⟨r, hr⟩ := ih fun a' ha' => h a' (List.mem_cons_of_mem _ ha')
    exact ⟨b :: r, .cons hb hr⟩

/-- Two steps, one by one. -/
theorem forall₂_both {α β γ : Type} {R : α → β → Prop} {S : β → γ → Prop} {l : List α} {m : List β} {r : List γ}
    (h : List.Forall₂ R l m) (h' : List.Forall₂ S m r) : List.Forall₂ (fun a c => ∃ b, R a b ∧ S b c) l r := by
  induction h generalizing r with
  | nil =>
    cases h'
    exact .nil
  | cons hab _ ih =>
    cases h' with
    | cons hbc h' => exact .cons ⟨_, hab, hbc⟩ (ih h')

end Lists

/-! ## What the tree says of its parts -/

section Parts

variable {fs gs : Fields}

theorem Back.field (h : Back (.object fs) (.object gs)) {k : Str} (h₁ : k ≠ str "children") (h₂ : k ≠ str "tags") :
    Field fs gs k := by
  cases h with
  | same => exact Or.inl rfl
  | node _ _ _ _ fields => exact fields k h₁ h₂

theorem Back.children_isSome (h : Back (.object fs) (.object gs)) :
    (fs.lookup (str "children")).isSome = (gs.lookup (str "children")).isSome := by
  cases h with
  | same => rfl
  | node _ _ _ _ _ hc hd both =>
    rw [hc, hd, Option.isSome_map, Option.isSome_map]
    exact both

theorem Back.child (h : Back (.object fs) (.object gs)) {l m : Fields} {k : Str} {c d : JsonValue}
    (hl : fs.lookup (str "children") = some (.object l)) (hm : gs.lookup (str "children") = some (.object m))
    (hc : l.lookup k = some c) (hd : m.lookup k = some d) : Back c d := by
  cases h with
  | same =>
    cases hl.symm.trans hm
    cases hc.symm.trans hd
    exact .same c
  | node _ _ _ _ _ hcs hds _ _ each =>
    obtain ⟨l', rfl, hl'⟩ := Option.map_eq_some_iff.mp (hcs.symm.trans hl)
    obtain ⟨m', rfl, hm'⟩ := Option.map_eq_some_iff.mp (hds.symm.trans hm)
    cases hl'
    cases hm'
    exact each l m k c d rfl rfl hc hd

theorem Back.tags_isSome (h : Back (.object fs) (.object gs)) :
    (fs.lookup (str "tags")).isSome = (gs.lookup (str "tags")).isSome := by
  cases h with
  | same => rfl
  | node _ _ _ _ _ _ _ _ _ _ ht hu number =>
    have hboth := congrArg Option.isSome number
    rw [Option.isSome_map, Option.isSome_map] at hboth
    rw [ht, hu, Option.isSome_map, Option.isSome_map]
    exact hboth

theorem Back.tag (h : Back (.object fs) (.object gs)) {l m : List JsonValue} {i : Nat} {t u : JsonValue}
    (hl : fs.lookup (str "tags") = some (.array l)) (hm : gs.lookup (str "tags") = some (.array m))
    (ht : l[i]? = some t) (hu : m[i]? = some u) : Back t u := by
  cases h with
  | same =>
    cases hl.symm.trans hm
    cases ht.symm.trans hu
    exact .same t
  | node _ _ _ _ _ _ _ _ _ _ hts hus _ every =>
    obtain ⟨l', rfl, hl'⟩ := Option.map_eq_some_iff.mp (hts.symm.trans hl)
    obtain ⟨m', rfl, hm'⟩ := Option.map_eq_some_iff.mp (hus.symm.trans hm)
    cases hl'
    cases hm'
    exact every l m i t u rfl rfl ht hu

/-- Hashes with the same names and related values. -/
theorem lookup_forall₂ {α β : Type} {R : α → β → Prop} {l : List (Str × α)} {m : List (Str × β)}
    (h : List.Forall₂ (fun p q => p.1 = q.1 ∧ R p.2 q.2) l m) (k : Str) :
    (l.lookup k).isSome = (m.lookup k).isSome ∧ ∀ c d, l.lookup k = some c → m.lookup k = some d → R c d := by
  induction h with
  | nil => exact ⟨rfl, fun c d hc => nomatch hc⟩
  | @cons p q l m hpq _ ih =>
    obtain ⟨k₁, a⟩ := p
    obtain ⟨k₂, b⟩ := q
    obtain ⟨hk, hab⟩ := hpq
    cases hk
    rw [List.lookup_cons, List.lookup_cons]
    by_cases hk : k = k₁
    · simp only [hk, beq_self_eq_true]
      refine ⟨rfl, fun c d hc hd => ?_⟩
      cases hc
      cases hd
      exact hab
    · simp only [beq_eq_false_iff_ne.mpr hk]
      exact ih

end Parts

/-! ## Nodes -/

section Nodes

variable {lib : Library} {fs data : Fields} {cls : Class}

/-- The node becomes an object, and that the same node again. -/
def Comes (lib : Library) (v : JsonValue) : Prop :=
  ∃ n out, recursiveParse lib v = some n ∧ n.getDataTree = some out ∧ Back v out

theorem hangs_of_tree {n : Node} {out : JsonValue} (h : n.getDataTree = some out) : n.hangs = true := by
  cases n with
  | raw v => simp [Node.getDataTree] at h
  | param _ _ _ _ => rfl

/-- An object that is no tag node. -/
theorem recursiveParse_node {b : Bool} (hparam : fs.lookup (str "param") = some (.bool b))
    (htype : b = true → fs.defined (str "type") = true) (hcls : (if b then classOf fs else some .nonParam) = some cls)
    (hne : cls ≠ .tag) (hdata : construct lib cls fs = some data) :
    recursiveParse lib (.object fs) = (parseChildren lib fs).bind fun cparams =>
      if cparams.all fun p => p.2.hangs then some (.param cls data cparams []) else none := by
  have hraw : ¬ (b && !Fields.defined fs (str "type")) = true := by
    cases b with
    | false => simp
    | true => simp [htype rfl]
  simp only [recursiveParse, hparam, if_neg hraw, hcls, hdata, if_neg hne]
  rcases parseChildren lib fs with _ | cparams <;> rfl

/-- The data with the children. -/
def withChildren (data : Fields) : Fields → Fields
  | [] => data
  | c :: cs => data.set (str "children") (.object (c :: cs))

theorem getDataTree_node (hne : cls ≠ .tag) (children : List (Str × Node)) :
    (Node.param cls data children []).getDataTree = (memberTrees children).map fun ds => .object (withChildren data ds) := by
  rw [Node.getDataTree, if_neg hne]
  rcases memberTrees children with _ | _ | ⟨d, ds⟩ <;> rfl

/-- An object of the class with its children, and the tree of it. -/
theorem comes_node_iff {b : Bool} (hparam : fs.lookup (str "param") = some (.bool b))
    (htype : b = true → fs.defined (str "type") = true) (hcls : (if b then classOf fs else some .nonParam) = some cls)
    (hne : cls ≠ .tag) (hdata : construct lib cls fs = some data) :
    Comes lib (.object fs) ↔ ∃ ns ds, parseChildren lib fs = some ns ∧ memberTrees ns = some ds ∧
      Back (.object fs) (.object (withChildren data ds)) := by
  rw [Comes, recursiveParse_node hparam htype hcls hne hdata]
  constructor
  · rintro ⟨n, out, hn, htree, hback⟩
    obtain ⟨ns, hns, hn⟩ := Option.bind_eq_some_iff.mp hn
    split at hn
    · cases hn
      rw [getDataTree_node hne] at htree
      obtain ⟨ds, hds, rfl⟩ := Option.map_eq_some_iff.mp htree
      exact ⟨ns, ds, hns, hds, hback⟩
    · cases hn
  · rintro ⟨ns, ds, hns, hds, hback⟩
    have hhang : ns.all (fun p => p.2.hangs) = true := by
      rw [List.all_eq_true]
      intro p hp
      rw [memberTrees_eq, mapM_iff] at hds
      obtain ⟨q, -, hq⟩ := exists_of_forall₂ hds hp
      obtain ⟨d, hd, -⟩ := Option.map_eq_some_iff.mp hq
      exact hangs_of_tree hd
    refine ⟨.param cls data ns [], _, ?_, ?_, hback⟩
    · rw [hns, Option.bind_some, if_pos hhang]
    · rw [getDataTree_node hne, hds]
      rfl

/-- The members of a hash become objects, and those the same members again. -/
theorem members_iff {l ds : Fields} : (∃ ns, parseMembers lib l = some ns ∧ memberTrees ns = some ds) ↔
    List.Forall₂ (fun p q => p.1 = q.1 ∧ ∃ n, recursiveParse lib p.2 = some n ∧ n.getDataTree = some q.2) l ds := by
  constructor
  · rintro ⟨ns, hns, hds⟩
    rw [parseMembers_eq, mapM_iff] at hns
    rw [memberTrees_eq, mapM_iff] at hds
    refine (forall₂_both hns hds).imp fun p q h => ?_
    obtain ⟨⟨k, n⟩, hn, hq⟩ := h
    obtain ⟨n', hn', heq⟩ := Option.map_eq_some_iff.mp hn
    cases heq
    obtain ⟨d, hd, rfl⟩ := Option.map_eq_some_iff.mp hq
    exact ⟨rfl, n, hn', hd⟩
  · intro h
    induction h with
    | nil => exact ⟨[], rfl, rfl⟩
    | @cons p q l ds hpq _ ih =>
      obtain ⟨k, c⟩ := p
      obtain ⟨k', d⟩ := q
      obtain ⟨hk, n, hn, hd⟩ := hpq
      cases hk
      obtain ⟨ns, hns, hds⟩ := ih
      refine ⟨(k, n) :: ns, ?_, ?_⟩
      · simp only [parseMembers, hn, hns]
      · simp only [memberTrees, hd, hds]

theorem forall₂_keys {α β : Type} {l : List (Str × α)} {m : List (Str × β)}
    (h : List.Forall₂ (fun p q => p.1 = q.1) l m) : l.map Prod.fst = m.map Prod.fst := by
  induction h with
  | nil => rfl
  | cons hpq _ ih => rw [List.map_cons, List.map_cons, hpq, ih]

/-- The fields of the node come back, but for what hangs on it. -/
def Restored (fs data : Fields) : Prop :=
  (∀ k, k ≠ str "children" → k ≠ str "tags" → Field fs data k) ∧ fs.lookup (str "tags") = none

theorem lookup_withChildren {ds : Fields} {k : Str} (hk : k ≠ str "children") :
    (withChildren data ds).lookup k = data.lookup k := by
  cases ds with
  | nil => rfl
  | cons d ds => rw [withChildren, Fields.lookup_set, if_neg hk]

/-- A node that is no tag node comes back exactly when its fields and its children do. -/
theorem comes_iff {b : Bool} (hparam : fs.lookup (str "param") = some (.bool b))
    (htype : b = true → fs.defined (str "type") = true) (hcls : (if b then classOf fs else some .nonParam) = some cls)
    (hne : cls ≠ .tag) (hdata : construct lib cls fs = some data) (hchildren : data.lookup (str "children") = none)
    (htags : data.lookup (str "tags") = none) {cs : Option Fields} (hcs : fs.lookup (str "children") = cs.map .object)
    (hnames : ∀ l, cs = some l → (l.map Prod.fst).Nodup) :
    Comes lib (.object fs) ↔ Restored fs data ∧ cs ≠ some [] ∧ ∀ l, cs = some l → ∀ p ∈ l, Comes lib p.2 := by
  rw [comes_node_iff hparam htype hcls hne hdata, parseChildren_eq, hcs]
  constructor
  · rintro ⟨ns, ds, hns, hds, hback⟩
    refine ⟨⟨fun k h₁ h₂ => ?_, ?_⟩, ?_, ?_⟩
    · have hfield := hback.field h₁ h₂
      rwa [Field, lookup_withChildren h₁] at hfield
    · have hboth := hback.tags_isSome
      rw [lookup_withChildren (by decide), htags] at hboth
      simpa using hboth
    · rintro rfl
      -- no children are written where there are none
      obtain rfl : ns = [] := by simpa [parseHash, parseMembers] using hns.symm
      obtain rfl : ds = [] := by simpa [memberTrees] using hds.symm
      have hboth := hback.children_isSome
      rw [hcs, withChildren, hchildren] at hboth
      cases hboth
    · rintro l rfl p hp
      have hall := members_iff.mp ⟨ns, by simpa [parseHash] using hns, hds⟩
      obtain ⟨q, hq, hpq, n, hn, hd⟩ := exists_of_forall₂ hall hp
      have hkeys := hnames l rfl
      have hlookup : ds.lookup p.1 = some q.2 := by
        rw [hpq]
        refine lookup_of_mem ?_ hq
        rwa [← forall₂_keys (hall.imp fun _ _ h => h.1)]
      rcases ds with _ | ⟨d, ds⟩
      · cases hq
      refine ⟨n, q.2, hn, hd, hback.child hcs ?_ (lookup_of_mem hkeys hp) hlookup⟩
      rw [withChildren, Fields.lookup_set, if_pos rfl]
  · rintro ⟨⟨hfields, hno⟩, hempty, hall⟩
    rcases cs with _ | l
    · refine ⟨[], [], rfl, rfl, ?_⟩
      exact .node none none none none hfields hcs hchildren rfl (fun l _ _ hl => nomatch hl)
        (fun l _ _ _ _ hl => nomatch hl) hno htags rfl fun l _ _ _ _ hl => nomatch hl
    · have hboth : ∀ p ∈ l, ∃ q : Str × JsonValue, p.1 = q.1 ∧
          (∃ n, recursiveParse lib p.2 = some n ∧ n.getDataTree = some q.2) ∧ Back p.2 q.2 := by
        intro p hp
        obtain ⟨n, out, hn, htree, hback⟩ := hall l rfl p hp
        exact ⟨(p.1, out), rfl, ⟨n, hn, htree⟩, hback⟩
      obtain ⟨ds, hds⟩ := forall₂_of_exists hboth
      obtain ⟨ns, hns, htrees⟩ := members_iff.mpr (hds.imp fun p q h => ⟨h.1, h.2.1⟩)
      have hlookup := fun k => lookup_forall₂ (R := Back) (hds.imp fun p q h => ⟨h.1, h.2.2⟩) k
      have hgs : (withChildren data ds).lookup (str "children") = some (.object ds) := by
        rcases ds with _ | ⟨d, ds⟩
        · cases hds
          exact absurd rfl hempty
        · rw [withChildren, Fields.lookup_set, if_pos rfl]
      refine ⟨ns, ds, by simpa [parseHash] using hns, htrees, ?_⟩
      refine .node (some l) (some ds) none none (fun k h₁ h₂ => ?_) hcs hgs rfl
        (fun l' m' k hl hm => ?_) (fun l' m' k c d hl hm hc hd => ?_) hno ?_ rfl fun l _ _ _ _ hl => nomatch hl
      · rw [Field, lookup_withChildren h₁]
        exact hfields k h₁ h₂
      · cases hl
        cases hm
        exact (hlookup k).1
      · cases hl
        cases hm
        exact (hlookup k).2 c d hc hd
      · rw [lookup_withChildren (by decide)]
        exact htags

theorem recursiveParse_tag (hs : SupportedTag fs) (hdata : construct lib .tag fs = some data)
    {ts : List JsonValue} (htags : fs.lookup (str "tags") = some (.array ts)) :
    recursiveParse lib (.object fs) = (parseElements lib ts).bind fun tags =>
      if tags.all Node.hangs then some (.param .tag data [] tags) else none := by
  obtain ⟨t, htype, hvalid⟩ := hs.type
  have hdefined : Fields.defined fs (str "type") = true := by
    rw [Fields.defined, htype]
    cases t <;> first | rfl | cases hvalid
  have hcls : classOf fs = some .tag := by
    rw [classOf, hs.tagnode]
    rfl
  have hchildren : parseChildren lib fs = some [] := by
    rw [parseChildren_eq, hs.children]
    rfl
  have hparse : parseTags lib fs = parseElements lib ts := by
    rw [parseTags_eq, htags]
    simp [parseArray]
  simp only [recursiveParse, hs.param, hdefined, Bool.not_true, Bool.and_false, Bool.false_eq_true, if_false, hchildren,
    if_true, hcls, hdata, hparse, List.isEmpty_nil, Bool.and_true]
  rcases parseElements lib ts with _ | tags <;> rfl

/-- The elements of an array become objects, and those the same elements again. -/
theorem elements_iff {l us : List JsonValue} : (∃ ns, parseElements lib l = some ns ∧ elementTrees ns = some us) ↔
    List.Forall₂ (fun t u => ∃ n, recursiveParse lib t = some n ∧ n.getDataTree = some u) l us := by
  constructor
  · rintro ⟨ns, hns, hus⟩
    rw [parseElements_eq, mapM_iff] at hns
    rw [elementTrees_eq, mapM_iff] at hus
    exact forall₂_both hns hus
  · intro h
    induction h with
    | nil => exact ⟨[], rfl, rfl⟩
    | cons htu _ ih =>
      obtain ⟨n, hn, hu⟩ := htu
      obtain ⟨ns, hns, hus⟩ := ih
      refine ⟨n :: ns, ?_, ?_⟩
      · simp only [parseElements, hn, hns]
      · simp only [elementTrees, hu, hus]

/-- A tag node comes back exactly when its tags do. -/
theorem comes_tag_iff (hkeys : (fs.map Prod.fst).Nodup) (hs : SupportedTag fs) {ts : List JsonValue}
    (htags : fs.lookup (str "tags") = some (.array ts)) : Comes lib (.object fs) ↔ ∀ t ∈ ts, Comes lib t := by
  obtain ⟨data, hdata, hrest⟩ := tagNew_restores lib hkeys hs
  rw [Comes, recursiveParse_tag hs hdata htags]
  constructor
  · rintro ⟨n, out, hn, htree, hback⟩ t ht
    obtain ⟨ns, hns, hn⟩ := Option.bind_eq_some_iff.mp hn
    split at hn
    · cases hn
      rw [Node.getDataTree, if_pos rfl] at htree
      rcases hus : elementTrees ns with _ | us
      · simp [hus] at htree
      · rw [hus] at htree
        cases htree
        have hall := elements_iff.mp ⟨ns, hns, hus⟩
        obtain ⟨i, hi, rfl⟩ := List.mem_iff_getElem.mp ht
        have hi' : i < us.length := hall.length_eq ▸ hi
        obtain ⟨n, hn, hu⟩ := hall.get hi hi'
        refine ⟨n, us[i], hn, hu, hback.tag htags ?_ (List.getElem?_eq_getElem hi) (List.getElem?_eq_getElem hi')⟩
        rw [Fields.lookup_set, if_pos rfl]
    · cases hn
  · intro hall
    have hboth : ∀ t ∈ ts, ∃ u, (∃ n, recursiveParse lib t = some n ∧ n.getDataTree = some u) ∧ Back t u := by
      intro t ht
      obtain ⟨n, out, hn, htree, hback⟩ := hall t ht
      exact ⟨out, ⟨n, hn, htree⟩, hback⟩
    obtain ⟨us, hus⟩ := forall₂_of_exists hboth
    obtain ⟨ns, hns, htrees⟩ := elements_iff.mpr (hus.imp fun t u h => h.1)
    have hhang : ns.all Node.hangs = true := by
      rw [List.all_eq_true]
      intro n hn
      rw [elementTrees_eq, mapM_iff] at htrees
      obtain ⟨u, -, hu⟩ := exists_of_forall₂ htrees hn
      exact hangs_of_tree hu
    have hgs : (data.set (str "tags") (.array us)).lookup (str "tags") = some (.array us) := by
      rw [Fields.lookup_set, if_pos rfl]
    have hno : (data.set (str "tags") (.array us)).lookup (str "children") = none := by
      rw [Fields.lookup_set, if_neg (by decide)]
      exact hrest.children
    refine ⟨.param .tag data [] ns, .object (data.set (str "tags") (.array us)), ?_, ?_, ?_⟩
    · rw [hns, Option.bind_some, if_pos hhang]
    · rw [Node.getDataTree, if_pos rfl, htrees]
    · refine .node none none (some ts) (some us) (fun k h₁ h₂ => ?_) hs.children hno rfl (fun l _ _ hl => nomatch hl)
        (fun l _ _ _ _ hl => nomatch hl) htags hgs ?_ fun l m i t u hl hm ht hu => ?_
      · rw [Field, Fields.lookup_set, if_neg h₂]
        exact hrest.fields k h₁ h₂
      · simp [hus.length_eq]
      · cases hl
        cases hm
        obtain ⟨hi, rfl⟩ := List.getElem?_eq_some_iff.mp ht
        obtain ⟨hi', rfl⟩ := List.getElem?_eq_some_iff.mp hu
        exact (hus.get hi hi').2

/-- All that is left of the fields of a node that is no parameter. -/
theorem construct_nonParam (lib : Library) (fs : Fields) :
    construct lib .nonParam fs = some [(str "param", .bool false)] := by
  have hvalid : validate lib .nonParam [(str "value", .null)] = true := rfl
  show nonParamNew lib none = _
  simp only [nonParamNew, baseNew, Option.getD_none, Fields.update, hvalid, if_true]
  rfl

theorem restored_nonParam (hparam : fs.lookup (str "param") = some (.bool false)) :
    Restored fs [(str "param", .bool false)] ↔ ∀ k, fs.lookup k ≠ none → k = str "param" ∨ k = str "children" := by
  have hlookup : ∀ k, k ≠ str "param" → List.lookup k [(str "param", JsonValue.bool false)] = none := by
    intro k hk
    rw [List.lookup_cons, beq_eq_false_iff_ne.mpr hk]
    rfl
  constructor
  · rintro ⟨hfields, htags⟩ k hk
    by_contra hno
    rw [not_or] at hno
    by_cases hktags : k = str "tags"
    · exact hk (hktags ▸ htags)
    · rcases hfields k hno.2 hktags with heq | ⟨-, hnone, -⟩
      · exact hk (heq.symm.trans (hlookup k hno.1))
      · exact hk hnone
  · intro h
    have hnone : ∀ k, k ≠ str "param" → k ≠ str "children" → fs.lookup k = none := by
      intro k h₁ h₂
      by_contra hk
      rcases h k hk with rfl | rfl
      · exact h₁ rfl
      · exact h₂ rfl
    refine ⟨fun k h₁ h₂ => Or.inl ?_, hnone _ (by decide) (by decide)⟩
    by_cases hk : k = str "param"
    · rw [hk, hparam]
      rfl
    · rw [hlookup k hk, hnone k hk h₁]

/-- In terms of the children that are there. -/
theorem whole_iff {cs : Option Fields} (hcs : fs.lookup (str "children") = cs.map .object) : Whole (.object fs) ↔
    (∃ b, fs.lookup (str "param") = some (.bool b)) ∧
      (fs.lookup (str "param") = some (.bool false) → ∀ k, fs.lookup k ≠ none → k = str "param" ∨ k = str "children") ∧
      cs ≠ some [] ∧ (∀ l, cs = some l → ∀ p ∈ l, Whole p.2) ∧
      ∀ l, fs.lookup (str "tags") = some (.array l) → ∀ t ∈ l, Whole t := by
  constructor
  · rintro ⟨hparam, hbare, hne, hbelow, htags⟩
    refine ⟨hparam, hbare, ?_, ?_, htags⟩
    · rintro rfl
      exact hne hcs
    · rintro l rfl
      exact hbelow l hcs
  · rintro ⟨hparam, hbare, hne, hbelow, htags⟩
    refine ⟨hparam, hbare, fun h => hne ?_, fun l h => hbelow l ?_, htags⟩
    · obtain ⟨l, rfl, hl⟩ := Option.map_eq_some_iff.mp (hcs.symm.trans h)
      cases hl
      rfl
    · obtain ⟨l', rfl, hl⟩ := Option.map_eq_some_iff.mp (hcs.symm.trans h)
      cases hl
      rfl

theorem recursiveParse_custom {v : JsonValue} (h : IsCustom v) : recursiveParse lib v = some (.raw v) := by
  obtain ⟨fs, rfl, hno⟩ := h
  rw [recursiveParse]
  split
  · rename_i b hb
    exact absurd hb (hno b)
  · rfl

/-- The induction over the message: which nodes come back wherever they hang. -/
theorem comes_iff_whole {v : JsonValue} (h : Message lib v) : Comes lib v ↔ Whole v := by
  induction h with
  | custom h =>
    refine iff_of_false ?_ ?_
    · rintro ⟨n, out, hn, htree, -⟩
      rw [recursiveParse_custom h] at hn
      cases hn
      simp [Node.getDataTree] at htree
    · obtain ⟨fs, rfl, hno⟩ := h
      rintro ⟨⟨b, hb⟩, -⟩
      exact hno b hb
  | @nonParam fs cs keys hparam hcs names below ih =>
    rw [comes_iff hparam (fun h => nomatch h) rfl (by decide) (construct_nonParam lib fs) rfl rfl hcs names, whole_iff hcs,
      restored_nonParam hparam]
    constructor
    · rintro ⟨hbare, hne, hall⟩
      refine ⟨⟨false, hparam⟩, fun _ => hbare, hne, fun l hl p hp => (ih l hl p hp).mp (hall l hl p hp), fun l htags => ?_⟩
      rcases hbare (str "tags") (by simp [htags]) with h | h
      · exact absurd h (by decide)
      · exact absurd h (by decide)
    · rintro ⟨-, hbare, hne, hall, -⟩
      exact ⟨hbare hparam, hne, fun l hl p hp => (ih l hl p hp).mpr (hall l hl p hp)⟩
  | @param fs cs cls keys supported hcs names below ih =>
    obtain ⟨data, hdata, hrest⟩ := construct_restores keys supported
    have hrestored : Restored fs data := ⟨hrest.fields, supported.tags⟩
    rw [comes_iff supported.param (fun _ => supported.type) (by rw [if_pos rfl]; exact supported.dispatched) supported.not_tag
      hdata hrest.children hrest.tags hcs names, whole_iff hcs]
    constructor
    · rintro ⟨-, hne, hall⟩
      refine ⟨⟨true, supported.param⟩, fun hfalse => ?_, hne, fun l hl p hp => (ih l hl p hp).mp (hall l hl p hp),
        fun l htags => ?_⟩
      · rw [supported.param] at hfalse
        cases hfalse
      · rw [supported.tags] at htags
        cases htags
    · rintro ⟨-, -, hne, hall, -⟩
      exact ⟨hrestored, hne, fun l hl p hp => (ih l hl p hp).mpr (hall l hl p hp)⟩
  | @tag fs ts keys supported htags below ih =>
    have hcs : fs.lookup (str "children") = (none : Option Fields).map .object := supported.children
    rw [comes_tag_iff keys supported htags, whole_iff hcs]
    constructor
    · intro hall
      refine ⟨⟨true, supported.param⟩, fun hfalse => ?_, fun h => (nomatch h), fun l hl => (nomatch hl), fun l hl t ht => ?_⟩
      · rw [supported.param] at hfalse
        cases hfalse
      · rw [htags] at hl
        cases hl
        exact (ih t ht).mp (hall t ht)
    · rintro ⟨-, -, -, -, hall⟩ t ht
      exact (ih t ht).mpr (hall ts htags t ht)

/-- A supported node is never left as it is. -/
theorem hangs_of_message {v : JsonValue} (h : Message lib v) (hc : ¬ IsCustom v) {n : Node}
    (hn : recursiveParse lib v = some n) : n.hangs = true := by
  cases h with
  | custom h => exact absurd h hc
  | @nonParam fs cs keys hparam =>
    rw [recursiveParse_node hparam (fun h => nomatch h) rfl (by decide) (construct_nonParam lib fs)] at hn
    obtain ⟨ns, -, hn⟩ := Option.bind_eq_some_iff.mp hn
    split at hn
    · cases hn
      rfl
    · cases hn
  | @param fs cs cls keys supported =>
    obtain ⟨data, hdata, -⟩ := construct_restores keys supported
    rw [recursiveParse_node supported.param (fun _ => supported.type) (by rw [if_pos rfl]; exact supported.dispatched)
      supported.not_tag hdata] at hn
    obtain ⟨ns, -, hn⟩ := Option.bind_eq_some_iff.mp hn
    split at hn
    · cases hn
      rfl
    · cases hn
  | @tag fs ts keys supported htags =>
    obtain ⟨data, hdata, -⟩ := tagNew_restores lib keys supported
    rw [recursiveParse_tag supported hdata htags] at hn
    obtain ⟨ns, -, hn⟩ := Option.bind_eq_some_iff.mp hn
    split at hn
    · cases hn
      rfl
    · cases hn

/-- A node of the message becomes the same node again, or is left as it is. -/
def Returns (lib : Library) (v : JsonValue) : Prop :=
  ∃ n out, recursiveParse lib v = some n ∧ n.tree = some out ∧ Back v out

theorem returns_iff {v : JsonValue} (h : Message lib v) : Returns lib v ↔ IsCustom v ∨ Whole v := by
  by_cases hc : IsCustom v
  · exact iff_of_true ⟨.raw v, v, recursiveParse_custom hc, rfl, .same v⟩ (Or.inl hc)
  · rw [← comes_iff_whole h, or_iff_right hc]
    constructor
    · rintro ⟨n, out, hn, htree, hback⟩
      cases n with
      | raw w => exact absurd (hangs_of_message h hc hn) (by simp [Node.hangs])
      | param cls data children tags => exact ⟨_, out, hn, htree, hback⟩
    · rintro ⟨n, out, hn, htree, hback⟩
      cases n with
      | raw w => simp [Node.getDataTree] at htree
      | param cls data children tags => exact ⟨_, out, hn, htree, hback⟩

end Nodes

/-! ## Messages that come back -/

/-- A message of supported nodes does not die and comes back, node by node, exactly when its text
    is not too long and every node is left alone or comes back with all that hangs on it. -/
theorem message_comes_back_iff (lib : Library) {input : Str} {ms : Fields} (hjson : lib.fromJson input = some (.object ms))
    (hkeys : (ms.map Prod.fst).Nodup) (hms : ∀ p ∈ ms, Message lib p.2) :
    (∃ hash, fromInput lib input = some hash ∧ hash.map Prod.fst = ms.map Prod.fst ∧
      ∀ k v n, ms.lookup k = some v → hash.lookup k = some n → ∃ out, n.tree = some out ∧ Back v out) ↔
      input.length ≤ 512 * 1024 ∧ ∀ p ∈ ms, IsCustom p.2 ∨ Whole p.2 := by
  by_cases hlong : input.length ≤ 512 * 1024
  case neg =>
    have hdies : fromInput lib input = none := by
      rw [fromInput, fromJsonInput, if_pos (by rw [maxMsgLen]; omega)]
    refine iff_of_false ?_ fun h => hlong h.1
    rintro ⟨hash, h, -⟩
    rw [hdies] at h
    cases h
  have hinput : fromInput lib input = parseMembers lib ms := by
    rw [fromInput, fromJsonInput, if_neg (by rw [maxMsgLen]; omega), hjson]
  rw [hinput, and_iff_right hlong]
  have hreturns : (∀ p ∈ ms, IsCustom p.2 ∨ Whole p.2) ↔ ∀ p ∈ ms, Returns lib p.2 :=
    forall_congr' fun p => forall_congr' fun hp => (returns_iff (hms p hp)).symm
  rw [hreturns]
  constructor
  · rintro ⟨hash, hhash, hnames, hback⟩ p hp
    rw [parseMembers_eq, mapM_iff] at hhash
    obtain ⟨q, hq, hpq⟩ := exists_of_forall₂ hhash hp
    obtain ⟨n, hn, rfl⟩ := Option.map_eq_some_iff.mp hpq
    have hlookup : hash.lookup p.1 = some n := lookup_of_mem (hnames ▸ hkeys) hq
    obtain ⟨out, htree, hout⟩ := hback p.1 p.2 n (lookup_of_mem hkeys hp) hlookup
    exact ⟨n, out, hn, htree, hout⟩
  · intro hall
    have hboth : ∀ p ∈ ms, ∃ q : Str × Node, p.1 = q.1 ∧ recursiveParse lib p.2 = some q.2 ∧
        ∃ out, q.2.tree = some out ∧ Back p.2 out := by
      intro p hp
      obtain ⟨n, out, hn, htree, hback⟩ := hall p hp
      exact ⟨(p.1, n), rfl, hn, out, htree, hback⟩
    obtain ⟨hash, hhash⟩ := forall₂_of_exists hboth
    refine ⟨hash, ?_, (forall₂_keys (hhash.imp fun _ _ h => h.1)).symm, fun k v n hv hn => ?_⟩
    · rw [parseMembers_eq, mapM_iff]
      refine hhash.imp fun p q h => ?_
      rw [h.2.1, h.1]
      rfl
    · exact (lookup_forall₂ (R := fun v n => ∃ out, Node.tree n = some out ∧ Back v out)
        (hhash.imp fun p q h => ⟨h.1, h.2.2⟩) k).2 v n hv hn

/-- Texts as they are, and JSON as it is read. -/
def sampleLibrary : Library where
  text
    | .string s => s
    | .number t => t
    | _ => []
  validateType _ _ := true
  fromJson := parseJson

/-- A text parameter with a child that is no parameter, and a custom object. -/
def sampleInput : Str :=
  str "\x7b\"a\":\x7b\"param\":true,\"type\":\"txt\",\"value\":\"x\",\"children\":\x7b\"b\":" ++
  str "\x7b\"param\":false\x7d\x7d\x7d,\"c\":\x7b\"n\":\"1\"\x7d\x7d"

def sampleChild : Fields := [(str "param", .bool false)]

def sampleParam : Fields :=
  [(str "param", .bool true), (str "type", .string (str "txt")), (str "value", .string (str "x")),
   (str "children", .object [(str "b", .object sampleChild)])]

def sampleMessage : Fields := [(str "a", .object sampleParam), (str "c", .object [(str "n", .string (str "1"))])]

theorem sampleInput_json : sampleLibrary.fromJson sampleInput = some (.object sampleMessage) := by rfl

theorem sampleChild_message : Message sampleLibrary (.object sampleChild) :=
  .nonParam (by decide) rfl (show sampleChild.lookup (str "children") = (none : Option Fields).map .object from rfl)
    (fun _ h => nomatch h) fun _ h => nomatch h

theorem sampleParam_message : Message sampleLibrary (.object sampleParam) := by
  have hcs : sampleParam.lookup (str "children") = (some [(str "b", .object sampleChild)] : Option Fields).map .object := rfl
  have hsupported : Supported sampleLibrary .txt sampleParam :=
    ⟨rfl, rfl, rfl, by decide, rfl, fun h => (nomatch h), fun h => (nomatch h), rfl⟩
  refine .param (by decide) hsupported hcs (fun l hl => ?_) fun l hl p hp => ?_
  · cases hl
    decide
  · cases hl
    rw [List.mem_singleton.mp hp]
    exact sampleChild_message

theorem a_message_comes_back : ∃ hash, fromInput sampleLibrary sampleInput = some hash ∧
    hash.map Prod.fst = sampleMessage.map Prod.fst ∧
    ∀ k v n, sampleMessage.lookup k = some v → hash.lookup k = some n → ∃ out, n.tree = some out ∧ Back v out := by
  have hnone : List.lookup (str "param") [(str "n", JsonValue.string (str "1"))] = none := rfl
  have hcustom : IsCustom (.object [(str "n", .string (str "1"))]) := ⟨_, rfl, fun b => by rw [hnone]; simp⟩
  have hmessages : ∀ p ∈ sampleMessage, Message sampleLibrary p.2 := by
    simp only [sampleMessage, List.forall_mem_cons]
    exact ⟨sampleParam_message, .custom hcustom, fun _ h => absurd h List.not_mem_nil⟩
  refine (message_comes_back_iff sampleLibrary sampleInput_json (by decide) hmessages).mpr ⟨by decide, ?_⟩
  have hchild : Whole (.object sampleChild) := by
    refine (whole_iff (show sampleChild.lookup (str "children") = (none : Option Fields).map .object from rfl)).mpr ?_
    refine ⟨⟨false, rfl⟩, fun _ k hk => ?_, fun h => (by cases h), fun _ h => (by cases h), fun _ h => by cases h⟩
    by_contra hno
    rw [not_or] at hno
    exact hk (by simp [sampleChild, List.lookup_cons, beq_eq_false_iff_ne.mpr hno.1])
  have hparam : Whole (.object sampleParam) := by
    refine (whole_iff (show sampleParam.lookup (str "children") =
      (some [(str "b", .object sampleChild)] : Option Fields).map .object from rfl)).mpr ?_
    refine ⟨⟨true, rfl⟩, fun h => (by cases h), by simp, fun l hl p hp => ?_, fun _ h => by cases h⟩
    cases hl
    rw [List.mem_singleton.mp hp]
    exact hchild
  simp only [sampleMessage, List.forall_mem_cons]
  exact ⟨Or.inr hparam, Or.inl hcustom, fun _ h => absurd h List.not_mem_nil⟩

/-- A node that is no parameter, with a name. -/
def namedInput : Str := str "\x7b\"a\":\x7b\"param\":false,\"name\":\"x\"\x7d\x7d"

def namedNode : Fields := [(str "param", .bool false), (str "name", .string (str "x"))]

/-- A custom object on a parameter without a type. -/
def hungInput : Str := str "\x7b\"a\":\x7b\"param\":true,\"type\":\"\",\"children\":\x7b\"b\":\x7b\x7d\x7d\x7d\x7d"

def hungNode : Fields :=
  [(str "param", .bool true), (str "type", .string []), (str "children", .object [(str "b", .object [])])]

/-- The name is lost, and the custom object ends the program. -/
theorem a_message_is_lost :
    (sampleLibrary.fromJson namedInput = some (.object [(str "a", .object namedNode)]) ∧
      Message sampleLibrary (.object namedNode) ∧
      ∃ n out, fromInput sampleLibrary namedInput = some [(str "a", n)] ∧ n.tree = some out ∧ ¬ Back (.object namedNode) out) ∧
    sampleLibrary.fromJson hungInput = some (.object [(str "a", .object hungNode)]) ∧
      Message sampleLibrary (.object hungNode) ∧ fromInput sampleLibrary hungInput = none := by
  refine ⟨⟨by rfl, ?_, _, .object [(str "param", .bool false)], by rfl, by rfl, fun h => ?_⟩, by rfl, ?_, by rfl⟩
  · exact .nonParam (by decide) rfl (show namedNode.lookup (str "children") = (none : Option Fields).map .object from rfl)
      (fun _ h => nomatch h) fun _ h => nomatch h
  · rcases h.field (show str "name" ≠ str "children" by decide) (by decide) with h | ⟨h, -⟩
    · cases h
    · exact absurd h (by decide)
  · have hcs : hungNode.lookup (str "children") = (some [(str "b", .object [])] : Option Fields).map .object := rfl
    have hsupported : Supported sampleLibrary .typeless hungNode :=
      ⟨rfl, rfl, rfl, by decide, rfl, fun _ => ⟨rfl, rfl⟩, fun h => (nomatch h), rfl⟩
    refine .param (by decide) hsupported hcs (fun l hl => ?_) fun l hl p hp => ?_
    · cases hl
      decide
    · cases hl
      rw [List.mem_singleton.mp hp]
      exact .custom ⟨[], rfl, fun b => by simp⟩

end VyattaRest.App
