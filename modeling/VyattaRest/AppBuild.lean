/-
  VyattaRest.AppBuild — messages of applications that are built from the running configuration
  (App/Msg.pm, App/Param/Util.pm, and what App/Param/Base.pm and App/Param/TagParam.pm have for it).

  For a template path `addTreeFromRunningCfg` makes an object, and below it one for every tag of the
  running configuration and every child of a template, down to a depth. An object has no path of its
  own but the root: `getMappedPath` puts it together from the objects above it. The client gets the
  message as JSON, sets a status and new values, and sends it back to MsgParser.

  A tag of type bool is kept as a boolean, which is no `true` or `false` in a path, and a tag node of
  that type without tags dies; so there are none here.
  - `tree_shows_configuration`: every object stands at the path of what it shows, with the children
    of the template and the tags of the configuration, down to the depth.
-/

import Mathlib.Data.List.Dedup
import VyattaRest.AppCommands

namespace VyattaRest.App

open VyattaRest.Lib

/-! ## The running configuration -/

/-- A template as Vyatta::Config parses it. -/
structure Tmpl where
  type : Option Str
  type2 : Option Str
  default : Option Str
  limit : Option Str
  enum : Option Str
  tag : Bool
  multi : Bool
  deriving DecidableEq

/-- What Vyatta::Config is asked. -/
structure Running where
  parseTmplAll : Str → Option Tmpl
  getTmplChildren : Str → List Str
  listOrigNodes : Str → List Str
  existsOrig : Str → Bool
  returnOrigValue : Str → Option Str
  returnOrigValues : Str → List Str

/-! ## New objects with a value -/

/-- The value of a constructor: a scalar, or a reference to an array. -/
inductive Given where
  | scalar (v : JsonValue)
  | list (vs : List JsonValue)

def Given.start : Given → Fields
  | .scalar v => [(str "value", v)]
  | .list vs => [(str "values", .array vs)]

section Create

variable (lib : Library)

/-- The constructor of the base class. -/
def newBase (cls : Class) (given : Given) (href : Fields) : Option Fields :=
  let data := given.start.update href
  if validate lib cls data then some data else none

/-- `new($value, $href)` of a class with one type. -/
def newTyped (cls : Class) (type : Str) (given : Given) (href : Fields) : Option Fields := do
  let data ← newBase lib cls given href
  return (data.set (str "param") (.bool true)).set (str "type") (.string type)

/-- `BoolParam::new`. -/
def newBool (given : Given) (href : Fields) : Option Fields :=
  match given with
  | .list _ => none
  | .scalar v => do
    let value ← str2bool v
    if href.defined (str "default") then
      let default ← str2bool ((href.lookup (str "default")).getD .null)
      newTyped lib .bool (str "bool") (.scalar value) (href.set (str "default") default)
    else newTyped lib .bool (str "bool") (.scalar value) href

/-- `createTypedParam`; `none` when it dies. -/
def createTypedParam (type : Option Str) (given : Given) (href : Fields) : Option (Class × Fields) :=
  match type with
  | none => (typelessNew lib href).map (Prod.mk .typeless)
  | some t =>
    if t = str "txt" then (newTyped lib .txt t given href).map (Prod.mk .txt)
    else if t = str "u32" then (newTyped lib .u32 t given href).map (Prod.mk .u32)
    else if t = str "ipv4" then (newTyped lib .ipv4 t given href).map (Prod.mk .ipv4)
    else if t = str "ipv4net" then (newTyped lib .ipv4net t given href).map (Prod.mk .ipv4net)
    else if t = str "ipv6" then (newTyped lib .ipv6 t given href).map (Prod.mk .ipv6)
    else if t = str "ipv6net" then (newTyped lib .ipv6net t given href).map (Prod.mk .ipv6net)
    else if t = str "macaddr" then (newTyped lib .macaddr t given href).map (Prod.mk .macaddr)
    else if t = str "bool" then (newBool lib given href).map (Prod.mk .bool)
    else none

/-- `createMultiTypedParam`. -/
def createMultiTypedParam (given : Given) (href : Fields) : Option (Class × Fields) :=
  if !href.defined (str "type") || !href.defined (str "type2") then none
  else (newBase lib .multiType given href).map fun data => (.multiType, data.set (str "param") (.bool true))

variable (run : Running)

/-- The fields of a template that are shown. -/
def withTmpl (tmpl : Tmpl) (href : Fields) : Fields :=
  let put := fun (fs : Fields) (k : Str) (v : Option Str) => v.elim fs fun t => fs.set k (.string t)
  put (put (put (put href (str "default") tmpl.default) (str "max_vals") tmpl.limit) (str "type2") tmpl.type2)
    (str "enum") tmpl.enum

/-- The object for a template path. -/
def createAt (path : Str) (tmpl : Tmpl) (href : Fields) : Option (Class × Fields) :=
  let href := withTmpl tmpl href
  if tmpl.tag then
    match tmpl.type with
    | none => none
    | some type => (tagNew lib (.string type) href).map (Prod.mk .tag)
  else
    let (given, href) :=
      if tmpl.type = none then (Given.scalar .null, href.set (str "exists") (.bool (run.existsOrig path)))
      else if tmpl.multi then (.list ((run.returnOrigValues path).map .string), href)
      else (.scalar ((run.returnOrigValue path).elim .null .string), href)
    if href.defined (str "type2") then
      createMultiTypedParam lib given (href.set (str "type") (tmpl.type.elim .null .string))
    else createTypedParam lib tmpl.type given href

/-- `createParamFromRunningCfg`, below an object with the objects above that one: no object when there
    is no template, and `none` when it dies. -/
def createParamFromRunningCfg (ppath : Str) (href : Fields) (parent : Option (Fields × List Fields)) :
    Option (Option (Class × Fields)) :=
  match parent with
  | none =>
    match run.parseTmplAll ppath with
    | none => some none
    | some tmpl => (createAt lib run ppath tmpl (href.set (str "cfg_path") (.string ppath))).map some
  | some (data, above) =>
    if !isMapped data then none
    else
      match getMappedPath lib data above with
      | none => none
      | some path =>
        let path := path ++ str " " ++ ppath
        match run.parseTmplAll path with
        | none => some none
        | some tmpl => (createAt lib run path tmpl (href.set (str "rel_path") (.string ppath))).map some

/-- `addTag($tval)`. -/
def addTag (data : Fields) (tval : Str) : Option (Class × Fields) :=
  let href : Fields := [(str "tag", .bool true), (str "rel_path", .string [])]
  let type := (data.lookup (str "type")).getD .null
  if data.defined (str "type2") then
    createMultiTypedParam lib (.scalar (.string tval))
      ((href.set (str "type") type).set (str "type2") ((data.lookup (str "type2")).getD .null))
  else createTypedParam lib (match type with | .string t => some t | _ => none) (.scalar (.string tval)) href

/-- `addTagsFromRunningCfg`: the values of the tags, or the dummy. -/
def tagValues (path : Str) : List Str :=
  if (run.listOrigNodes path).isEmpty then [tagDummy] else run.listOrigNodes path

/-- `addSubtreeFromRunningCfg`, within a number of calls one in another; `none` when it dies. The
    names of the children are the keys of a hash. -/
def addSubtree (limit : Nat) : Nat → Nat → Class → Fields → List Fields → Option Node
  | 0, _, _, _, _ => none
  | calls + 1, depth, cls, data, above =>
    if 0 < limit && limit < depth then some (.param cls data [] [])
    else if isTagNode data then
      match getMappedPath lib data above with
      | none => none
      | some path =>
        match (tagValues run path).mapM (addTag lib data) with
        | none => none
        | some made =>
          (made.mapM fun m => addSubtree limit calls (depth + 1) m.1 m.2 (data :: above)).map fun tags =>
            .param cls data [] tags
    else if isTypeless data || isTagValue data then
      match getMappedPath lib data above with
      | none => none
      | some path =>
        ((run.getTmplChildren path).dedup.mapM fun cname =>
          match createParamFromRunningCfg lib run cname [] (some (data, above)) with
          -- what is not defined has no method `setParent`
          | none | some none => none
          | some (some m) => (addSubtree limit calls (depth + 1) m.1 m.2 (data :: above)).map (Prod.mk cname)).map fun children =>
            .param cls data children []
    else some (.param cls data [] [])

/-! ## Messages -/

/-- `s/\s+(\S+)$//`: what is before the last word, and the word. -/
def cutLastWord (path : Str) : Option (Str × Str) :=
  let line := if path.getLast? = some 10 then path.dropLast else path
  let word := (line.reverse.takeWhile fun b => !isSpace b).reverse
  let front := line.take (line.length - word.length)
  if word = [] || front = [] then none
  else some ((front.reverse.dropWhile isSpace).reverse ++ path.drop line.length, word)

/-- `s/\s/_/g`. -/
def childName (rpath : Str) : Str := rpath.map fun b => if isSpace b then 95 else b

/-- One root of `addTreeFromRunningCfg`: a template path, or the path of a tag of the configuration. -/
def addRoot (limit calls : Nat) (rpath : Str) : Option Node :=
  match createParamFromRunningCfg lib run rpath [] none with
  | none => none
  | some (some m) => addSubtree lib run limit calls 1 m.1 m.2 []
  | some none =>
    match cutLastWord rpath with
    | none => none
    | some (tpath, tval) =>
      match createParamFromRunningCfg lib run tpath [] none with
      | none | some none => none
      | some (some (cls, data)) =>
        if !isTagNode data then none
        else
          match getMappedPath lib data [] with
          | none => none
          | some path =>
            if !run.existsOrig (path ++ str " " ++ tval) then none
            else
              match addTag lib data tval with
              | none => none
              | some m => (addSubtree lib run limit calls 1 m.1 m.2 [data]).map fun tag => .param cls data [] [tag]

/-- `addTreeFromRunningCfg`: all templates for an empty path. -/
def addTreeFromRunningCfg (limit calls : Nat) (rootPath : Str) (children : List (Str × Node)) : Option (List (Str × Node)) :=
  (if rootPath.all isSpace then run.getTmplChildren [] else [rootPath]).foldlM (fun children rpath =>
    (addRoot lib run limit calls rpath).map fun root => children.filter (·.1 ≠ childName rpath) ++
      [(childName rpath, root)]) children

end Create

/-! ## What a new object has -/

section New

variable {lib : Library} {run : Running} {cls : Class} {data href : Fields} {given : Given}

theorem lookup_withTmpl (tmpl : Tmpl) (href : Fields) (k : Str) : (withTmpl tmpl href).lookup k =
    (if k = str "enum" then tmpl.enum.map .string else none).or
      ((if k = str "type2" then tmpl.type2.map .string else none).or
        ((if k = str "max_vals" then tmpl.limit.map .string else none).or
          ((if k = str "default" then tmpl.default.map .string else none).or (href.lookup k)))) := by
  have hput : ∀ (fs : Fields) (k' : Str) (v : Option Str),
      (v.elim fs fun t => fs.set k' (.string t)).lookup k = (if k = k' then v.map .string else none).or (fs.lookup k) := by
    intro fs k' v
    cases v with
    | none => simp
    | some t =>
      rw [Option.elim_some, Fields.lookup_set]
      by_cases hk : k = k' <;> simp [hk]
  rw [withTmpl]
  simp only [hput]

theorem nodup_withTmpl (tmpl : Tmpl) (h : (href.map Prod.fst).Nodup) : ((withTmpl tmpl href).map Prod.fst).Nodup := by
  have hput : ∀ (fs : Fields) (k : Str) (v : Option Str), (fs.map Prod.fst).Nodup →
      ((v.elim fs fun t => fs.set k (.string t)).map Prod.fst).Nodup := by
    intro fs k v hfs
    cases v with
    | none => exact hfs
    | some t => exact Fields.nodup_set hfs k _
  exact hput _ _ _ (hput _ _ _ (hput _ _ _ (hput _ _ _ h)))

theorem nodup_update {fs : Fields} (h : (fs.map Prod.fst).Nodup) (gs : Fields) : ((fs.update gs).map Prod.fst).Nodup := by
  induction gs generalizing fs with
  | nil => exact h
  | cons p gs ih => exact ih (Fields.nodup_set h p.1 p.2)

theorem nodup_start (given : Given) : (given.start.map Prod.fst).Nodup := by
  cases given <;> exact List.nodup_singleton _

/-- The fields that make an object what it is. -/
def makings : List Str :=
  [str "param", str "type", str "type2", str "tagnode", str "value", str "values", str "default", str "tags"]

/-- The values are looked at, and of an object with two types the types. -/
theorem validate_same {fs gs : Fields} (hvalue : fs.lookup (str "value") = gs.lookup (str "value"))
    (hvalues : fs.lookup (str "values") = gs.lookup (str "values"))
    (htypes : cls = .multiType → fs.lookup (str "type") = gs.lookup (str "type") ∧
      fs.lookup (str "type2") = gs.lookup (str "type2")) :
    validate lib cls fs = validate lib cls gs := by
  have hdefined : validateDefined lib cls fs = validateDefined lib cls gs := by
    funext v
    unfold validateDefined validateValue typeText
    cases cls with
    | multiType =>
      obtain ⟨h₁, h₂⟩ := htypes rfl
      simp only [h₁, h₂]
    | _ => rfl
  unfold validate Fields.defined
  rw [hdefined, hvalues, hvalue]

theorem classOf_congr {fs gs : Fields} (h : ∀ k ∈ makings, fs.lookup k = gs.lookup k) : classOf fs = classOf gs := by
  unfold classOf Fields.defined
  rw [h (str "tagnode") (by decide), h (str "type2") (by decide), h (str "type") (by decide)]

theorem Supported.congr {fs gs : Fields} (hs : Supported lib cls fs) (h : ∀ k ∈ makings, fs.lookup k = gs.lookup k) :
    Supported lib cls gs where
  param := h (str "param") (by decide) ▸ hs.param
  type := by
    have := hs.type
    rwa [Fields.defined, h (str "type") (by decide)] at this
  dispatched := classOf_congr h ▸ hs.dispatched
  not_tag := hs.not_tag
  valid := validate_same (h _ (by decide)) (h _ (by decide)) (fun _ => ⟨h _ (by decide), h _ (by decide)⟩) ▸ hs.valid
  typeless := h (str "value") (by decide) ▸ h (str "values") (by decide) ▸ hs.typeless
  default := h (str "default") (by decide) ▸ hs.default
  tags := h (str "tags") (by decide) ▸ hs.tags

/-- The fields that come later: from below the object, and from the client. -/
def later : List Str := [str "children", str "tags", str "status", str "new-value", str "new-values"]

/-- A new object, which MsgParser makes again of its data. -/
structure Fresh (lib : Library) (cls : Class) (data : Fields) : Prop where
  keys : (data.map Prod.fst).Nodup
  later : ∀ k ∈ later, data.lookup k = none
  plain : cls ≠ .tag → Supported lib cls data
  tag : cls = .tag → SupportedTag data

/-- What a constructor is given: nothing that comes later, and no value. -/
structure Start (href : Fields) : Prop where
  keys : (href.map Prod.fst).Nodup
  later : ∀ k ∈ later, href.lookup k = none
  bare : ∀ k ∈ [str "value", str "values", str "tagnode"], href.lookup k = none

theorem Start.set (h : Start href) {k : Str} (v : JsonValue) (hk : k ∉ App.later ++ [str "value", str "values", str "tagnode"]) :
    Start (href.set k v) := by
  rw [List.mem_append, not_or] at hk
  refine ⟨Fields.nodup_set h.keys k v, fun k' hk' => ?_, fun k' hk' => ?_⟩
  · rw [Fields.lookup_set, if_neg (by rintro rfl; exact hk.1 hk')]
    exact h.later k' hk'
  · rw [Fields.lookup_set, if_neg (by rintro rfl; exact hk.2 hk')]
    exact h.bare k' hk'

theorem Start.withTmpl (h : Start href) (tmpl : Tmpl) : Start (withTmpl tmpl href) := by
  have hnone : ∀ k ∈ App.later ++ [str "value", str "values", str "tagnode"],
      k ≠ str "enum" ∧ k ≠ str "type2" ∧ k ≠ str "max_vals" ∧ k ≠ str "default" := by decide
  have hsame : ∀ k ∈ App.later ++ [str "value", str "values", str "tagnode"], (App.withTmpl tmpl href).lookup k =
      href.lookup k := by
    intro k hk
    obtain ⟨h₁, h₂, h₃, h₄⟩ := hnone k hk
    rw [lookup_withTmpl, if_neg h₁, if_neg h₂, if_neg h₃, if_neg h₄]
    simp
  refine ⟨nodup_withTmpl tmpl h.keys, fun k hk => ?_, fun k hk => ?_⟩
  · rw [hsame k (List.mem_append_left _ hk)]
    exact h.later k hk
  · rw [hsame k (List.mem_append_right _ hk)]
    exact h.bare k hk

theorem Start.lookup_update (h : Start href) (given : Given) (k : Str) :
    (given.start.update href).lookup k = (href.lookup k).or (given.start.lookup k) := Fields.lookup_update h.keys k

theorem lookup_start {k : Str} (h₁ : k ≠ str "value") (h₂ : k ≠ str "values") : given.start.lookup k = none := by
  cases given with
  | scalar v =>
    rw [Given.start, List.lookup_cons, beq_eq_false_iff_ne.mpr h₁]
    rfl
  | list vs =>
    rw [Given.start, List.lookup_cons, beq_eq_false_iff_ne.mpr h₂]
    rfl

/-- The data of the base class, with the fields that every class sets. -/
structure Made (given : Given) (href data : Fields) (t : JsonValue) : Prop where
  keys : (data.map Prod.fst).Nodup
  param : data.lookup (str "param") = some (.bool true)
  type : data.lookup (str "type") = some t
  value : data.lookup (str "value") = given.start.lookup (str "value")
  values : data.lookup (str "values") = given.start.lookup (str "values")
  others : ∀ k, k ≠ str "param" → k ≠ str "type" → k ≠ str "value" → k ≠ str "values" → data.lookup k = href.lookup k

theorem newTyped_made {t : Str} (hs : Start href) (h : newTyped lib cls t given href = some data) :
    Made given href data (.string t) ∧ validate lib cls (given.start.update href) = true := by
  rw [newTyped, newBase] at h
  by_cases hv : validate lib cls (given.start.update href) = true
  · simp only [hv, if_true, Option.bind_eq_bind, Option.bind_some] at h
    obtain rfl := Option.some.inj h
    refine ⟨⟨?_, ?_, ?_, ?_, ?_, ?_⟩, hv⟩
    · exact Fields.nodup_set (Fields.nodup_set (nodup_update (nodup_start given) href) _ _) _ _
    · rw [Fields.lookup_set, if_neg (by decide), Fields.lookup_set, if_pos rfl]
    · rw [Fields.lookup_set, if_pos rfl]
    · rw [Fields.lookup_set, if_neg (by decide), Fields.lookup_set, if_neg (by decide), hs.lookup_update,
        hs.bare _ (by decide), Option.none_or]
    · rw [Fields.lookup_set, if_neg (by decide), Fields.lookup_set, if_neg (by decide), hs.lookup_update,
        hs.bare _ (by decide), Option.none_or]
    · intro k h₁ h₂ h₃ h₄
      rw [Fields.lookup_set, if_neg h₂, Fields.lookup_set, if_neg h₁, hs.lookup_update, lookup_start h₃ h₄, Option.or_none]
  · simp [hv] at h

theorem Made.later {t : JsonValue} (hm : Made given href data t) (hs : Start href) : ∀ k ∈ App.later, data.lookup k = none := by
  intro k hk
  have hne : ∀ k ∈ App.later, k ≠ str "param" ∧ k ≠ str "type" ∧ k ≠ str "value" ∧ k ≠ str "values" := by decide
  obtain ⟨h₁, h₂, h₃, h₄⟩ := hne k hk
  rw [hm.others k h₁ h₂ h₃ h₄]
  exact hs.later k hk

theorem classOf_type {fs : Fields} {t : Str} (hmem : (cls, t) ∈ typeNames) (htag : fs.lookup (str "tagnode") = none)
    (htype2 : fs.lookup (str "type2") = none) (htype : fs.lookup (str "type") = some (.string t)) : classOf fs = some cls := by
  have hall : ∀ p ∈ typeNames, (if p.2 = str "txt" then some Class.txt
      else if p.2 = str "u32" then some .u32
      else if p.2 = str "ipv4" then some .ipv4
      else if p.2 = str "ipv4net" then some .ipv4net
      else if p.2 = str "ipv6" then some .ipv6
      else if p.2 = str "ipv6net" then some .ipv6net
      else if p.2 = str "macaddr" then some .macaddr
      else if p.2 = str "bool" then some .bool
      else if p.2 = [] then some .typeless
      else none) = some p.1 := by decide
  unfold classOf Fields.defined
  rw [htag, htype2, htype]
  exact hall _ hmem

theorem Start.fresh_typed (hs : Start href) {t : Str} (hmem : (cls, t) ∈ typeNames) (hne : cls ≠ .typeless)
    (htype2 : href.lookup (str "type2") = none)
    (hdefault : cls = .bool → ∀ v, href.lookup (str "default") = some v → str2bool v = some v)
    (h : newTyped lib cls t given href = some data) : Fresh lib cls data ∧ Made given href data (.string t) := by
  obtain ⟨hm, hv⟩ := newTyped_made hs h
  have hclasses : ∀ p ∈ typeNames, p.1 ≠ .tag ∧ p.1 ≠ .multiType := by decide
  obtain ⟨htag, hmulti⟩ := hclasses _ hmem
  refine ⟨⟨hm.keys, hm.later hs, fun _ => ?_, fun h => absurd h htag⟩, hm⟩
  refine ⟨hm.param, ?_, ?_, htag, ?_, fun h => absurd h hne, ?_, ?_⟩
  · rw [Fields.defined, hm.type]
  · refine classOf_type hmem ?_ ?_ hm.type
    · rw [hm.others _ (by decide) (by decide) (by decide) (by decide)]
      exact hs.bare _ (by decide)
    · rw [hm.others _ (by decide) (by decide) (by decide) (by decide)]
      exact htype2
  · rw [← hv]
    refine validate_same ?_ ?_ fun h => absurd h hmulti
    · rw [hm.value, hs.lookup_update, hs.bare _ (by decide), Option.none_or]
    · rw [hm.values, hs.lookup_update, hs.bare _ (by decide), Option.none_or]
  · intro hbool v hv
    rw [hm.others _ (by decide) (by decide) (by decide) (by decide)] at hv
    exact hdefault hbool v hv
  · exact hm.later hs _ (by decide)

theorem Start.fresh_bool (hs : Start href) (htype2 : href.lookup (str "type2") = none) (h : newBool lib given href = some data) :
    ∃ v v', given = .scalar v ∧ str2bool v = some v' ∧ Fresh lib .bool data ∧
      ∃ href', Made (.scalar v') href' data (.string (str "bool")) ∧ ∀ k, k ≠ str "default" → href'.lookup k = href.lookup k := by
  have hidem : ∀ v v', str2bool v = some v' → str2bool v' = some v' := by
    intro v v' hv
    cases v with
    | null =>
      obtain rfl := Option.some.inj hv
      rfl
    | bool b =>
      obtain rfl := Option.some.inj hv
      rfl
    | string s =>
      rw [str2bool] at hv
      split at hv
      · obtain rfl := Option.some.inj hv
        rfl
      · split at hv
        · obtain rfl := Option.some.inj hv
          rfl
        · cases hv
    | _ => cases hv
  cases given with
  | list vs => cases h
  | scalar v =>
    rw [newBool] at h
    obtain ⟨v', hv', h⟩ := Option.bind_eq_some_iff.mp h
    refine ⟨v, v', rfl, hv', ?_⟩
    split at h
    · obtain ⟨d, hd, h⟩ := Option.bind_eq_some_iff.mp h
      have hs' : Start (href.set (str "default") d) := hs.set d (by decide)
      obtain ⟨hf, hm⟩ := hs'.fresh_typed (by decide) (by decide) (by rw [Fields.lookup_set, if_neg (by decide)]; exact htype2) (by
        intro _ x hx
        rw [Fields.lookup_set, if_pos rfl] at hx
        exact Option.some.inj hx ▸ hidem _ _ hd) h
      exact ⟨hf, _, hm, fun k hk => by rw [Fields.lookup_set, if_neg hk]⟩
    · rename_i hno
      obtain ⟨hf, hm⟩ := hs.fresh_typed (by decide) (by decide) htype2 (by
        intro _ x hx
        rw [Fields.defined, hx] at hno
        cases x with
        | null => rfl
        | _ => exact absurd rfl hno) h
      exact ⟨hf, href, hm, fun _ _ => rfl⟩

theorem Start.fresh_multi (hs : Start href) (h : createMultiTypedParam lib given href = some (cls, data)) :
    Fresh lib cls data ∧ ∃ t, href.lookup (str "type") = some t ∧ Made given href data t ∧ cls = .multiType := by
  rw [createMultiTypedParam] at h
  by_cases hdefined : (!href.defined (str "type") || !href.defined (str "type2")) = true
  · rw [if_pos hdefined] at h
    cases h
  rw [if_neg hdefined] at h
  simp only [Bool.or_eq_true, Bool.not_eq_true', not_or, Bool.not_eq_false] at hdefined
  obtain ⟨htype, htype2⟩ := hdefined
  obtain ⟨t, ht⟩ : ∃ t, href.lookup (str "type") = some t := by
    unfold Fields.defined at htype
    cases hl : href.lookup (str "type") with
    | none =>
      rw [hl] at htype
      cases htype
    | some t => exact ⟨t, rfl⟩
  obtain ⟨base, hbase, hmk⟩ := Option.map_eq_some_iff.mp h
  obtain ⟨rfl, rfl⟩ := Prod.mk.inj hmk
  rw [newBase] at hbase
  by_cases hv : validate lib .multiType (given.start.update href) = true
  swap
  · simp [hv] at hbase
  simp only [hv, if_true] at hbase
  obtain rfl := Option.some.inj hbase
  have hm : Made given href ((given.start.update href).set (str "param") (.bool true)) t := by
    refine ⟨?_, ?_, ?_, ?_, ?_, ?_⟩
    · exact Fields.nodup_set (nodup_update (nodup_start given) href) _ _
    · rw [Fields.lookup_set, if_pos rfl]
    · rw [Fields.lookup_set, if_neg (by decide), hs.lookup_update, ht, Option.some_or]
    · rw [Fields.lookup_set, if_neg (by decide), hs.lookup_update, hs.bare _ (by decide), Option.none_or]
    · rw [Fields.lookup_set, if_neg (by decide), hs.lookup_update, hs.bare _ (by decide), Option.none_or]
    · intro k h₁ _ h₃ h₄
      rw [Fields.lookup_set, if_neg h₁, hs.lookup_update, lookup_start h₃ h₄, Option.or_none]
  refine ⟨⟨hm.keys, hm.later hs, fun _ => ?_, fun h => absurd h (by decide)⟩, t, ht, hm, rfl⟩
  have hlookup : ((given.start.update href).set (str "param") (.bool true)).lookup (str "type2") = href.lookup (str "type2") :=
    hm.others _ (by decide) (by decide) (by decide) (by decide)
  refine ⟨hm.param, ?_, ?_, by decide, ?_, fun h => absurd h (by decide), fun h => absurd h (by decide),
    hm.later hs _ (by decide)⟩
  · rw [Fields.defined, ht] at htype
    rw [Fields.defined, hm.type]
    exact htype
  · rw [Fields.defined] at htype2
    unfold classOf Fields.defined
    rw [hm.others _ (by decide) (by decide) (by decide) (by decide), hs.bare _ (by decide), hlookup, htype2]
    rfl
  · rw [← hv]
    refine validate_same ?_ ?_ fun _ => ⟨?_, ?_⟩
    · rw [Fields.lookup_set, if_neg (by decide)]
    · rw [Fields.lookup_set, if_neg (by decide)]
    · rw [Fields.lookup_set, if_neg (by decide)]
    · rw [Fields.lookup_set, if_neg (by decide)]

theorem Start.fresh_typeless (hs : Start href) (htype2 : href.lookup (str "type2") = none)
    (h : typelessNew lib href = some data) :
    Fresh lib .typeless data ∧ data.lookup (str "type") = some (.string []) ∧
      ∀ k, k ≠ str "param" → k ≠ str "type" → k ≠ str "value" → data.lookup k = href.lookup k := by
  rw [typelessNew] at h
  obtain ⟨base, hbase, h⟩ := Option.bind_eq_some_iff.mp h
  split at h
  · cases h
  obtain rfl := Option.some.inj h
  rw [baseNew] at hbase
  split at hbase
  swap
  · cases hbase
  obtain rfl := Option.some.inj hbase
  have hstart : ∀ k, k ≠ str "value" → List.lookup k [(str "value", JsonValue.null)] = none := by
    intro k hk
    rw [List.lookup_cons, beq_eq_false_iff_ne.mpr hk]
    rfl
  have hbase : ∀ k, k ≠ str "value" → (Fields.update [(str "value", .null)] href).lookup k = href.lookup k := by
    intro k hk
    rw [Fields.lookup_update hs.keys, hstart k hk, Option.or_none]
  generalize hdata : (((Fields.update [(str "value", .null)] ((some href).getD [])).erase (str "value")).set (str "param")
    (.bool true)).set (str "type") (.string []) = data
  have hparam : data.lookup (str "param") = some (.bool true) := by
    rw [← hdata, Fields.lookup_set, if_neg (by decide), Fields.lookup_set, if_pos rfl]
  have htype : data.lookup (str "type") = some (.string []) := by rw [← hdata, Fields.lookup_set, if_pos rfl]
  have hvalue : data.lookup (str "value") = none := by
    rw [← hdata, Fields.lookup_set, if_neg (by decide), Fields.lookup_set, if_neg (by decide), Fields.lookup_erase, if_pos rfl]
  have hothers : ∀ k, k ≠ str "param" → k ≠ str "type" → k ≠ str "value" → data.lookup k = href.lookup k := by
    intro k h₁ h₂ h₃
    rw [← hdata, Fields.lookup_set, if_neg h₂, Fields.lookup_set, if_neg h₁, Fields.lookup_erase, if_neg h₃]
    exact hbase k h₃
  have hvalues : data.lookup (str "values") = none := by
    rw [hothers _ (by decide) (by decide) (by decide)]
    exact hs.bare _ (by decide)
  have hne : ∀ k ∈ App.later, k ≠ str "param" ∧ k ≠ str "type" ∧ k ≠ str "value" := by decide
  have hlater : ∀ k ∈ App.later, data.lookup k = none := by
    intro k hk
    obtain ⟨h₁, h₂, h₃⟩ := hne k hk
    rw [hothers k h₁ h₂ h₃]
    exact hs.later k hk
  refine ⟨⟨?_, hlater, fun _ => ?_, fun h => absurd h (by decide)⟩, htype, hothers⟩
  · have hkeys : ((Fields.update [(str "value", .null)] href).map Prod.fst).Nodup :=
      nodup_update (nodup_start (.scalar .null)) href
    rw [← hdata]
    exact Fields.nodup_set (Fields.nodup_set (hkeys.sublist (List.filter_sublist.map _)) _ _) _ _
  refine ⟨hparam, ?_, ?_, by decide, ?_, fun _ => ⟨hvalue, hvalues⟩, fun h => absurd h (by decide), hlater _ (by decide)⟩
  · rw [Fields.defined, htype]
  · refine classOf_type (by decide) ?_ ?_ htype
    · rw [hothers _ (by decide) (by decide) (by decide)]
      exact hs.bare _ (by decide)
    · rw [hothers _ (by decide) (by decide) (by decide)]
      exact htype2
  · unfold validate Fields.defined
    rw [hvalues, hvalue]
    rfl

theorem Start.fresh_tag (hs : Start href) (hnull : href.lookup (str "type2") ≠ some .null) {t : Str}
    (h : tagNew lib (.string t) href = some data) :
    Fresh lib .tag data ∧ data.lookup (str "type") = some (.string t) ∧
      ∀ k, k ≠ str "param" → k ≠ str "type" → k ≠ str "value" → k ≠ str "tagnode" → data.lookup k = href.lookup k := by
  rw [tagNew] at h
  by_cases hvalid : isValidType (.string t) = true
  swap
  · simp [hvalid] at h
  simp only [hvalid, Bool.not_true, Bool.false_eq_true, if_false] at h
  obtain ⟨base, hbase, h⟩ := Option.bind_eq_some_iff.mp h
  split at h
  · cases h
  rw [baseNew] at hbase
  split at hbase
  swap
  · cases hbase
  obtain rfl := Option.some.inj hbase
  rw [Option.getD_some] at h
  have hbase : ∀ k, k ≠ str "value" → (Fields.update [(str "value", .null)] href).lookup k = href.lookup k := by
    intro k hk
    rw [Fields.lookup_update hs.keys, List.lookup_cons, beq_eq_false_iff_ne.mpr hk, List.lookup_nil, Option.or_none]
  -- the two ways to the end set the second type or not, and the tag node
  generalize hcommon : ((Fields.update [(str "value", .null)] href).erase (str "value")).set (str "param")
    (.bool true) = common at h
  have hlookup : ∀ k, common.lookup k = if k = str "param" then some (.bool true) else if k = str "value" then none
      else href.lookup k := by
    intro k
    rw [← hcommon, Fields.lookup_set, Fields.lookup_erase]
    by_cases hv : k = str "value"
    · rw [if_pos hv, if_pos hv]
    · rw [if_neg hv, if_neg hv, hbase k hv]
  have hnodup : (common.map Prod.fst).Nodup := by
    have hkeys : ((Fields.update [(str "value", .null)] href).map Prod.fst).Nodup :=
      nodup_update (nodup_start (.scalar .null)) href
    rw [← hcommon]
    exact Fields.nodup_set (hkeys.sublist (List.filter_sublist.map _)) _ _
  obtain ⟨hkeys, htype, htagnode, hothers, htype2⟩ : (data.map Prod.fst).Nodup ∧ data.lookup (str "type") = some (.string t) ∧
      data.lookup (str "tagnode") = some (.bool true) ∧
      (∀ k, k ≠ str "type" → k ≠ str "tagnode" → data.lookup k = common.lookup k) ∧
      ∀ t2, href.lookup (str "type2") = some t2 → isValidType t2 = true := by
    split at h
    · rename_i hdefined
      cases ht2 : href.lookup (str "type2") with
      | none =>
        rw [Fields.defined, ht2] at hdefined
        cases hdefined
      | some t2 =>
        rw [ht2] at h
        simp only at h
        split at h
        · rename_i hvalid2
          obtain rfl := Option.some.inj h
          refine ⟨Fields.nodup_set (Fields.nodup_set (Fields.nodup_set hnodup _ _) _ _) _ _, ?_, ?_, fun k h₁ h₂ => ?_, ?_⟩
          · rw [Fields.lookup_set, if_neg (by decide), Fields.lookup_set, if_neg (by decide), Fields.lookup_set, if_pos rfl]
          · rw [Fields.lookup_set, if_pos rfl]
          · rw [Fields.lookup_set, if_neg h₂, Fields.lookup_set]
            by_cases hk : k = str "type2"
            · rw [if_pos hk, hk, hlookup, if_neg (by decide), if_neg (by decide), ht2]
            · rw [if_neg hk, Fields.lookup_set, if_neg h₁]
          · intro t2' ht2'
            exact Option.some.inj ht2' ▸ hvalid2
        · cases h
    · rename_i hno
      obtain rfl := Option.some.inj h
      refine ⟨Fields.nodup_set (Fields.nodup_set hnodup _ _) _ _, ?_, ?_, fun k h₁ h₂ => ?_, fun t2 ht2 => ?_⟩
      · rw [Fields.lookup_set, if_neg (by decide), Fields.lookup_set, if_pos rfl]
      · rw [Fields.lookup_set, if_pos rfl]
      · rw [Fields.lookup_set, if_neg h₂, Fields.lookup_set, if_neg h₁]
      · rw [Fields.defined, ht2] at hno
        cases t2 with
        | null => exact absurd ht2 hnull
        | _ => exact absurd rfl hno
  have hrest : ∀ k, k ≠ str "param" → k ≠ str "type" → k ≠ str "value" → k ≠ str "tagnode" → data.lookup k = href.lookup k := by
    intro k h₁ h₂ h₃ h₄
    rw [hothers k h₂ h₄, hlookup, if_neg h₁, if_neg h₃]
  have hne : ∀ k ∈ App.later, k ≠ str "param" ∧ k ≠ str "type" ∧ k ≠ str "value" ∧ k ≠ str "tagnode" := by decide
  have hlater : ∀ k ∈ App.later, data.lookup k = none := by
    intro k hk
    obtain ⟨h₁, h₂, h₃, h₄⟩ := hne k hk
    rw [hrest k h₁ h₂ h₃ h₄]
    exact hs.later k hk
  refine ⟨⟨hkeys, hlater, fun h => absurd rfl h, fun _ => ⟨?_, htagnode, ⟨_, htype, hvalid⟩, ?_, ?_, ?_, ?_⟩⟩, htype, hrest⟩
  · rw [hothers _ (by decide) (by decide), hlookup, if_pos rfl]
  · intro t2 ht2
    rw [hrest _ (by decide) (by decide) (by decide) (by decide)] at ht2
    exact htype2 t2 ht2
  · rw [hothers _ (by decide) (by decide), hlookup, if_neg (by decide), if_pos rfl]
  · rw [hrest _ (by decide) (by decide) (by decide) (by decide)]
    exact hs.bare _ (by decide)
  · exact hlater _ (by decide)

/-- What a boolean is kept as. -/
def Kept (t : Str) (given given' : Given) : Prop :=
  if t = str "bool" then ∃ v v', given = .scalar v ∧ str2bool v = some v' ∧ given' = .scalar v' else given' = given

theorem Start.fresh_created (hs : Start href) (htype2 : href.lookup (str "type2") = none) {t : Str}
    (h : createTypedParam lib (some t) given href = some (cls, data)) :
    Fresh lib cls data ∧ cls ≠ .tag ∧ ∃ given' href', Kept t given given' ∧ Made given' href' data (.string t) ∧
      ∀ k, k ≠ str "default" → href'.lookup k = href.lookup k := by
  have htyped : ∀ {c : Class}, (c, t) ∈ typeNames → c ≠ .typeless → c ≠ .bool → t ≠ str "bool" →
      (newTyped lib c t given href).map (Prod.mk c) = some (cls, data) →
      Fresh lib cls data ∧ cls ≠ .tag ∧ ∃ given' href', Kept t given given' ∧ Made given' href' data (.string t) ∧
        ∀ k, k ≠ str "default" → href'.lookup k = href.lookup k := by
    intro c hmem hne hbool ht hnew
    obtain ⟨d, hd, hmk⟩ := Option.map_eq_some_iff.mp hnew
    obtain ⟨rfl, rfl⟩ := Prod.mk.inj hmk
    obtain ⟨hf, hm⟩ := hs.fresh_typed hmem hne htype2 (fun h => absurd h hbool) hd
    have hclasses : ∀ p ∈ typeNames, p.1 ≠ .tag := by decide
    exact ⟨hf, hclasses _ hmem, given, href, by rw [Kept, if_neg ht], hm, fun _ _ => rfl⟩
  rw [createTypedParam] at h
  iterate 7
    split at h
    · rename_i ht
      exact htyped (by rw [ht]; decide) (by decide) (by decide) (by rw [ht]; decide) h
  split at h
  · rename_i ht
    obtain ⟨d, hd, hmk⟩ := Option.map_eq_some_iff.mp h
    obtain ⟨rfl, rfl⟩ := Prod.mk.inj hmk
    obtain ⟨v, v', rfl, hv, hf, href', hm, hothers⟩ := hs.fresh_bool htype2 hd
    refine ⟨hf, by decide, _, href', ?_, ht ▸ hm, hothers⟩
    rw [Kept, if_pos ht]
    exact ⟨v, v', rfl, hv, rfl⟩
  · cases h

/-- A value of the configuration as it is shown. -/
def shownValue (tmpl : Tmpl) (value : Option Str) : JsonValue :=
  match value with
  | none => .null
  | some v => if tmpl.type = some (str "bool") ∧ tmpl.type2 = none then .bool (v = str "true") else .string v

/-- The object for a template path shows what the configuration has there. -/
structure Shows (run : Running) (path : Str) (tmpl : Tmpl) (data : Fields) : Prop where
  found : run.parseTmplAll path = some tmpl
  tag : isTagNode data = tmpl.tag
  type : data.lookup (str "type") = some (.string (tmpl.type.getD []))
  type2 : data.lookup (str "type2") = tmpl.type2.map .string
  single : ∀ t, tmpl.tag = false → tmpl.type = some t → tmpl.multi = false →
    data.lookup (str "value") = some (shownValue tmpl (run.returnOrigValue path))
  multi : ∀ t, tmpl.tag = false → tmpl.type = some t → tmpl.multi = true →
    data.lookup (str "values") = some (.array ((run.returnOrigValues path).map .string))
  typeless : tmpl.type = none → data.lookup (str "exists") = some (.bool (run.existsOrig path))

theorem isTagNode_of_none (h : data.lookup (str "tagnode") = none) : isTagNode data = false := by
  rw [isTagNode, h]
  rfl

/-- What `createParamFromRunningCfg` starts with: nothing but a path. -/
structure OnlyPath (href : Fields) : Prop extends Start href where
  only : ∀ k, href.lookup k ≠ none → k = str "cfg_path" ∨ k = str "rel_path"

theorem OnlyPath.none (h : OnlyPath href) {k : Str} (h₁ : k ≠ str "cfg_path") (h₂ : k ≠ str "rel_path") :
    href.lookup k = none := by
  by_contra hne
  rcases h.only k hne with rfl | rfl
  · exact h₁ rfl
  · exact h₂ rfl

/-- The value of an object with a type. -/
def givenAt (run : Running) (path : Str) (tmpl : Tmpl) : Given :=
  if tmpl.multi then .list ((run.returnOrigValues path).map .string) else .scalar ((run.returnOrigValue path).elim .null .string)

theorem shows_made {path : Str} {tmpl : Tmpl} (htmpl : run.parseTmplAll path = some tmpl) (htag : tmpl.tag = false) {t : Str}
    (htype : tmpl.type = some t)
    (hkept : (if tmpl.type2 = none then Kept t (givenAt run path tmpl) given else given = givenAt run path tmpl))
    (hm : Made given href data (.string t)) (hnone : href.lookup (str "tagnode") = none)
    (htype2 : href.lookup (str "type2") = tmpl.type2.map .string) : Shows run path tmpl data := by
  refine ⟨htmpl, ?_, ?_, ?_, ?_, ?_, ?_⟩
  · rw [htag]
    refine isTagNode_of_none ?_
    rw [hm.others _ (by decide) (by decide) (by decide) (by decide)]
    exact hnone
  · rw [hm.type, htype, Option.getD_some]
  · rw [hm.others _ (by decide) (by decide) (by decide) (by decide), htype2]
  · intro _ _ _ hsingle
    rw [hm.value]
    have hat : givenAt run path tmpl = .scalar ((run.returnOrigValue path).elim .null .string) := by
      rw [givenAt, if_neg (by simp [hsingle])]
    rw [hat] at hkept
    -- a boolean is kept as such, unless there is a second type
    by_cases hbool : t = str "bool" ∧ tmpl.type2 = none
    · rw [if_pos hbool.2, Kept, if_pos hbool.1] at hkept
      obtain ⟨v, v', hv, hv', rfl⟩ := hkept
      obtain rfl := Given.scalar.inj hv
      rw [Given.start, List.lookup_cons_self]
      cases hvalue : run.returnOrigValue path with
      | none =>
        rw [hvalue] at hv'
        obtain rfl := Option.some.inj hv'
        rfl
      | some x =>
        rw [hvalue, Option.elim_some, str2bool] at hv'
        rw [shownValue]
        simp only [htype, hbool, and_self, if_true]
        split at hv'
        · rename_i hx
          obtain rfl := Option.some.inj hv'
          rw [hx]
          rfl
        · split at hv'
          · rename_i hx
            obtain rfl := Option.some.inj hv'
            rw [hx]
            rfl
          · cases hv'
    · have hgiven : given = .scalar ((run.returnOrigValue path).elim .null .string) := by
        split at hkept
        · rename_i h2
          rwa [Kept, if_neg fun ht => hbool ⟨ht, h2⟩] at hkept
        · exact hkept
      rw [hgiven, Given.start, List.lookup_cons_self]
      cases run.returnOrigValue path with
      | none => rfl
      | some x =>
        rw [shownValue]
        have hno : ¬ (tmpl.type = some (str "bool") ∧ tmpl.type2 = none) := by
          rw [htype, Option.some.injEq]
          exact hbool
        simp only [hno, if_false]
        rfl
  · intro _ _ _ hmulti
    have hat : givenAt run path tmpl = .list ((run.returnOrigValues path).map .string) := by
      rw [givenAt, if_pos hmulti]
    rw [hat] at hkept
    rw [hm.values]
    split at hkept
    · rw [Kept] at hkept
      split at hkept
      · obtain ⟨v, v', hv, -, -⟩ := hkept
        cases hv
      · rw [hkept, Given.start, List.lookup_cons_self]
    · rw [hkept, Given.start, List.lookup_cons_self]
  · intro hno
    rw [htype] at hno
    cases hno

theorem createAt_shows (h : OnlyPath href) {path : Str} {tmpl : Tmpl} (htmpl : run.parseTmplAll path = some tmpl)
    (hnew : createAt lib run path tmpl href = some (cls, data)) :
    Fresh lib cls data ∧ Shows run path tmpl data ∧ data.lookup (str "tag") = none ∧
      ∀ k, k = str "cfg_path" ∨ k = str "rel_path" → data.lookup k = href.lookup k := by
  have hs := h.toStart.withTmpl tmpl
  have hhref : ∀ k, k ≠ str "enum" → k ≠ str "type2" → k ≠ str "max_vals" → k ≠ str "default" →
      (withTmpl tmpl href).lookup k = href.lookup k := by
    intro k h₁ h₂ h₃ h₄
    rw [lookup_withTmpl, if_neg h₁, if_neg h₂, if_neg h₃, if_neg h₄]
    simp
  have htype2 : (withTmpl tmpl href).lookup (str "type2") = tmpl.type2.map .string := by
    rw [lookup_withTmpl, if_neg (by decide), if_pos rfl, if_neg (by decide), if_neg (by decide), h.none (by decide) (by decide)]
    simp
  have hpath : ∀ k, k = str "cfg_path" ∨ k = str "rel_path" → (withTmpl tmpl href).lookup k = href.lookup k := by
    rintro k (rfl | rfl)
    · exact hhref _ (by decide) (by decide) (by decide) (by decide)
    · exact hhref _ (by decide) (by decide) (by decide) (by decide)
  have htagNone : (withTmpl tmpl href).lookup (str "tag") = none := by
    rw [hhref _ (by decide) (by decide) (by decide) (by decide)]
    exact h.none (by decide) (by decide)
  rw [createAt] at hnew
  simp only at hnew
  by_cases htag : tmpl.tag = true
  · rw [if_pos htag] at hnew
    cases htype : tmpl.type with
    | none =>
      rw [htype] at hnew
      cases hnew
    | some t =>
      rw [htype] at hnew
      obtain ⟨d, hd, hmk⟩ := Option.map_eq_some_iff.mp hnew
      obtain ⟨rfl, rfl⟩ := Prod.mk.inj hmk
      have hnull : (withTmpl tmpl href).lookup (str "type2") ≠ some .null := by
        rw [htype2]
        cases tmpl.type2 <;> simp
      obtain ⟨hf, hdt, hothers⟩ := hs.fresh_tag hnull hd
      refine ⟨hf, ⟨htmpl, ?_, ?_, ?_, ?_, ?_, ?_⟩, ?_, ?_⟩
      · rw [isTagNode, (hf.tag rfl).tagnode, htag]
        rfl
      · rw [hdt, htype, Option.getD_some]
      · rw [hothers _ (by decide) (by decide) (by decide) (by decide), htype2]
      · intro _ hno
        rw [htag] at hno
        cases hno
      · intro _ hno
        rw [htag] at hno
        cases hno
      · intro hno
        rw [htype] at hno
        cases hno
      · rw [hothers _ (by decide) (by decide) (by decide) (by decide)]
        exact htagNone
      · intro k hk
        rw [← hpath k hk]
        rcases hk with rfl | rfl
        · exact hothers _ (by decide) (by decide) (by decide) (by decide)
        · exact hothers _ (by decide) (by decide) (by decide) (by decide)
  rw [if_neg htag] at hnew
  have htag : tmpl.tag = false := by simpa using htag
  cases htype : tmpl.type with
  | none =>
    simp only [htype, if_true] at hnew
    have hs' := hs.set (k := str "exists") (.bool (run.existsOrig path)) (by decide)
    by_cases hdefined : ((withTmpl tmpl href).set (str "exists") (.bool (run.existsOrig path))).defined (str "type2") = true
    · -- an object with two types needs the first
      rw [if_pos hdefined, createMultiTypedParam, Fields.defined, Fields.lookup_set, if_pos rfl] at hnew
      cases hnew
    · rw [if_neg hdefined] at hnew
      obtain ⟨d, hd, hmk⟩ := Option.map_eq_some_iff.mp hnew
      obtain ⟨rfl, rfl⟩ := Prod.mk.inj hmk
      have htype2' : ((withTmpl tmpl href).set (str "exists") (.bool (run.existsOrig path))).lookup (str "type2") = none := by
        rw [Fields.defined, Fields.lookup_set, if_neg (by decide), htype2] at hdefined
        rw [Fields.lookup_set, if_neg (by decide), htype2]
        cases ht2 : tmpl.type2 with
        | none => rfl
        | some t2 =>
          rw [ht2] at hdefined
          exact absurd rfl hdefined
      obtain ⟨hf, hdt, hothers⟩ := hs'.fresh_typeless htype2' hd
      refine ⟨hf, ⟨htmpl, ?_, ?_, ?_, ?_, ?_, ?_⟩, ?_, ?_⟩
      · rw [htag]
        refine isTagNode_of_none ?_
        rw [hothers _ (by decide) (by decide) (by decide)]
        exact hs'.bare _ (by decide)
      · rw [hdt, htype]
        rfl
      · rw [hothers _ (by decide) (by decide) (by decide), Fields.lookup_set, if_neg (by decide), htype2]
      · intro t _ ht
        rw [htype] at ht
        cases ht
      · intro t _ ht
        rw [htype] at ht
        cases ht
      · intro _
        rw [hothers _ (by decide) (by decide) (by decide), Fields.lookup_set, if_pos rfl]
      · rw [hothers _ (by decide) (by decide) (by decide), Fields.lookup_set, if_neg (by decide)]
        exact htagNone
      · intro k hk
        rw [← hpath k hk]
        rcases hk with rfl | rfl
        · rw [hothers _ (by decide) (by decide) (by decide), Fields.lookup_set, if_neg (by decide)]
        · rw [hothers _ (by decide) (by decide) (by decide), Fields.lookup_set, if_neg (by decide)]
  | some t =>
    have hnew : (if (withTmpl tmpl href).defined (str "type2") then
        createMultiTypedParam lib (givenAt run path tmpl) ((withTmpl tmpl href).set (str "type") (.string t))
      else createTypedParam lib (some t) (givenAt run path tmpl) (withTmpl tmpl href)) = some (cls, data) := by
      rw [← hnew, givenAt, htype]
      cases tmpl.multi <;> rfl
    have htype2' : (withTmpl tmpl href).defined (str "type2") = tmpl.type2.isSome := by
      rw [Fields.defined, htype2]
      cases tmpl.type2 <;> rfl
    rw [htype2'] at hnew
    cases ht2 : tmpl.type2 with
    | some t2 =>
      rw [ht2, Option.isSome_some, if_pos rfl] at hnew
      have hs' := hs.set (k := str "type") (.string t) (by decide)
      obtain ⟨hf, t', ht', hm, rfl⟩ := hs'.fresh_multi hnew
      obtain rfl : .string t = t' := by
        rw [Fields.lookup_set, if_pos rfl] at ht'
        exact Option.some.inj ht'
      refine ⟨hf, shows_made htmpl htag htype (by rw [ht2, if_neg (by simp)]) hm (hs'.bare _ (by decide))
        (by rw [Fields.lookup_set, if_neg (by decide), htype2]), ?_, ?_⟩
      · rw [hm.others _ (by decide) (by decide) (by decide) (by decide), Fields.lookup_set, if_neg (by decide)]
        exact htagNone
      · intro k hk
        rw [← hpath k hk]
        rcases hk with rfl | rfl
        · rw [hm.others _ (by decide) (by decide) (by decide) (by decide), Fields.lookup_set, if_neg (by decide)]
        · rw [hm.others _ (by decide) (by decide) (by decide) (by decide), Fields.lookup_set, if_neg (by decide)]
    | none =>
      rw [ht2, Option.isSome_none, if_neg (by decide)] at hnew
      obtain ⟨hf, -, given', href', hkept, hm, hothers⟩ := hs.fresh_created (by rw [htype2, ht2]; rfl) hnew
      have hbare : href'.lookup (str "tagnode") = none := by
        rw [hothers _ (by decide)]
        exact hs.bare _ (by decide)
      refine ⟨hf, shows_made htmpl htag htype (by rw [if_pos ht2]; exact hkept) hm hbare
        (by rw [hothers _ (by decide), htype2]), ?_, ?_⟩
      · rw [hm.others _ (by decide) (by decide) (by decide) (by decide), hothers _ (by decide)]
        exact htagNone
      · intro k hk
        rw [← hpath k hk]
        rcases hk with rfl | rfl
        · rw [hm.others _ (by decide) (by decide) (by decide) (by decide), hothers _ (by decide)]
        · rw [hm.others _ (by decide) (by decide) (by decide) (by decide), hothers _ (by decide)]

theorem Fresh.tag_iff (h : Fresh lib cls data) : isTagNode data = true ↔ cls = .tag := by
  constructor
  · intro htag
    by_contra hne
    have hclass := (h.plain hne).dispatched
    rw [isTagNode] at htag
    rw [classOf, if_pos htag] at hclass
    exact hne (Option.some.inj hclass).symm
  · intro hcls
    rw [isTagNode, (h.tag hcls).tagnode]
    rfl

/-- What `addTag` starts with. -/
def tagStart : Fields := [(str "tag", .bool true), (str "rel_path", .string [])]

theorem tagStart_none {k : Str} (h₁ : k ≠ str "tag") (h₂ : k ≠ str "rel_path") : tagStart.lookup k = none := by
  rw [tagStart, List.lookup_cons, beq_eq_false_iff_ne.mpr h₁, List.lookup_cons, beq_eq_false_iff_ne.mpr h₂, List.lookup_nil]

theorem start_tagStart : Start tagStart := by
  have hne : ∀ k ∈ App.later ++ [str "value", str "values", str "tagnode"], k ≠ str "tag" ∧ k ≠ str "rel_path" := by decide
  refine ⟨by decide, fun k hk => ?_, fun k hk => ?_⟩
  · obtain ⟨h₁, h₂⟩ := hne k (List.mem_append_left _ hk)
    exact tagStart_none h₁ h₂
  · obtain ⟨h₁, h₂⟩ := hne k (List.mem_append_right _ hk)
    exact tagStart_none h₁ h₂

/-- A tag has its value, and a path that is nothing but the value. -/
structure IsTag (v : Str) (data : Fields) : Prop where
  value : data.lookup (str "value") = some (.string v)
  tag : data.lookup (str "tag") = some (.bool true)
  rel : data.lookup (str "rel_path") = some (.string [])
  cfg : data.lookup (str "cfg_path") = none
  node : isTagNode data = false

theorem isTag_made {given : Given} {href : Fields} {t : JsonValue} {v : Str} (hm : Made given href data t)
    (hgiven : given = .scalar (.string v))
    (hhref : ∀ k ∈ [str "tag", str "rel_path", str "cfg_path", str "tagnode"], href.lookup k = tagStart.lookup k) :
    IsTag v data := by
  refine ⟨?_, ?_, ?_, ?_, isTagNode_of_none ?_⟩
  · rw [hm.value, hgiven, Given.start, List.lookup_cons_self]
  · rw [hm.others _ (by decide) (by decide) (by decide) (by decide), hhref _ (by decide)]
    rfl
  · rw [hm.others _ (by decide) (by decide) (by decide) (by decide), hhref _ (by decide)]
    rfl
  · rw [hm.others _ (by decide) (by decide) (by decide) (by decide), hhref _ (by decide)]
    exact tagStart_none (by decide) (by decide)
  · rw [hm.others _ (by decide) (by decide) (by decide) (by decide), hhref _ (by decide)]
    exact tagStart_none (by decide) (by decide)

/-- The tags of a node that is not one of booleans. -/
theorem addTag_shows {node : Fields} {t : Str} (htype : node.lookup (str "type") = some (.string t))
    (hbool : t = str "bool" → node.defined (str "type2") = true) {v : Str} (h : addTag lib node v = some (cls, data)) :
    Fresh lib cls data ∧ IsTag v data := by
  rw [addTag, htype, Option.getD_some] at h
  simp only at h
  split at h
  · have hs := (start_tagStart.set (k := str "type") (.string t) (by decide)).set (k := str "type2")
      ((node.lookup (str "type2")).getD .null) (by decide)
    obtain ⟨hf, t', -, hm, rfl⟩ := hs.fresh_multi h
    refine ⟨hf, isTag_made hm rfl fun k hk => ?_⟩
    have hne : ∀ k ∈ [str "tag", str "rel_path", str "cfg_path", str "tagnode"], k ≠ str "type" ∧ k ≠ str "type2" := by decide
    obtain ⟨h₁, h₂⟩ := hne k hk
    rw [Fields.lookup_set, if_neg h₂, Fields.lookup_set, if_neg h₁]
  · rename_i hno
    obtain ⟨hf, -, given', href', hkept, hm, hothers⟩ :=
      start_tagStart.fresh_created (tagStart_none (by decide) (by decide)) h
    rw [Kept, if_neg fun ht => hno (hbool ht)] at hkept
    refine ⟨hf, isTag_made hm hkept fun k hk => hothers k ?_⟩
    have hne : ∀ k ∈ [str "tag", str "rel_path", str "cfg_path", str "tagnode"], k ≠ str "default" := by decide
    exact hne k hk

end New

/-! ## How a tree grows -/

section Trees

variable {lib : Library} {run : Running} {limit : Nat}

/-- Not beyond the depth; 0 is no limit. -/
def Inside (limit depth : Nat) : Prop := limit = 0 ∨ depth ≤ limit

/-- The trees that `addSubtree` makes of an object. -/
inductive Grown (lib : Library) (run : Running) (limit : Nat) : Nat → Class → Fields → List Fields → Node → Prop where
  | bare {depth : Nat} {cls : Class} {data : Fields} {above : List Fields}
      (h : Inside limit depth → isTagNode data = false ∧ isTypeless data = false ∧ isTagValue data = false) :
      Grown lib run limit depth cls data above (.param cls data [] [])
  | tags {depth : Nat} {cls : Class} {data : Fields} {above : List Fields} {path : Str} {made : List (Class × Fields)}
      {tags : List Node}
      (inside : Inside limit depth) (node : isTagNode data = true) (mapped : getMappedPath lib data above = some path)
      (adds : List.Forall₂ (fun v m => addTag lib data v = some m) (tagValues run path) made) (number : made.length = tags.length)
      (below : ∀ (i : Nat) m t, made[i]? = some m → tags[i]? = some t →
        Grown lib run limit (depth + 1) m.1 m.2 (data :: above) t) :
      Grown lib run limit depth cls data above (.param cls data [] tags)
  | children {depth : Nat} {cls : Class} {data : Fields} {above : List Fields} {path : Str} {children : List (Str × Node)}
      (inside : Inside limit depth) (node : isTagNode data = false) (opens : isTypeless data = true ∨ isTagValue data = true)
      (mapped : getMappedPath lib data above = some path) (names : children.map Prod.fst = (run.getTmplChildren path).dedup)
      (made : ∀ c ∈ children, ∃ m, createParamFromRunningCfg lib run c.1 [] (some (data, above)) = some (some m))
      (below : ∀ c ∈ children, ∀ m, createParamFromRunningCfg lib run c.1 [] (some (data, above)) = some (some m) →
        Grown lib run limit (depth + 1) m.1 m.2 (data :: above) c.2) :
      Grown lib run limit depth cls data above (.param cls data children [])

theorem forall₂_getElem {α β : Type} {R : α → β → Prop} {l : List α} {r : List β} (h : List.Forall₂ R l r) :
    ∀ (i : Nat) a b, l[i]? = some a → r[i]? = some b → R a b := by
  induction h with
  | nil => exact fun i a b ha => absurd ha (by simp)
  | cons hab _ ih =>
    intro i a b ha hb
    cases i with
    | zero =>
      obtain rfl := Option.some.inj ha
      obtain rfl := Option.some.inj hb
      exact hab
    | succ i => exact ih i a b ha hb

theorem forall₂_names {α : Type} {R : Str → Str × α → Prop} {names : List Str} {l : List (Str × α)}
    (h : List.Forall₂ (fun k c => k = c.1 ∧ R k c) names l) : names = l.map Prod.fst := by
  induction h with
  | nil => rfl
  | cons hkc _ ih => rw [List.map_cons, ← hkc.1, ← ih]

theorem grown_of_addSubtree : ∀ (calls : Nat) {depth : Nat} {cls : Class} {data : Fields} {above : List Fields} {n : Node},
    addSubtree lib run limit calls depth cls data above = some n → Grown lib run limit depth cls data above n := by
  intro calls
  induction calls with
  | zero => exact fun h => absurd h (by simp [addSubtree])
  | succ calls ih =>
    intro depth cls data above n h
    rw [addSubtree] at h
    by_cases hlimit : (0 < limit && limit < depth) = true
    · rw [if_pos hlimit] at h
      obtain rfl := Option.some.inj h
      refine .bare fun hin => ?_
      rw [Bool.and_eq_true, decide_eq_true_eq, decide_eq_true_eq] at hlimit
      rcases hin with hin | hin <;> omega
    rw [if_neg hlimit] at h
    have hin : Inside limit depth := by
      rw [Bool.and_eq_true, decide_eq_true_eq, decide_eq_true_eq] at hlimit
      rw [Inside]
      omega
    by_cases hnode : isTagNode data = true
    · rw [if_pos hnode] at h
      cases hpath : getMappedPath lib data above with
      | none =>
        rw [hpath] at h
        cases h
      | some path =>
        rw [hpath] at h
        simp only at h
        cases hmade : (tagValues run path).mapM (addTag lib data) with
        | none =>
          rw [hmade] at h
          cases h
        | some made =>
          rw [hmade] at h
          obtain ⟨tags, htags, rfl⟩ := Option.map_eq_some_iff.mp h
          have hall := mapM_iff.mp htags
          exact .tags hin hnode hpath (mapM_iff.mp hmade) hall.length_eq fun i m t hm ht => ih (forall₂_getElem hall i m t hm ht)
    rw [if_neg hnode] at h
    have hnode : isTagNode data = false := by simpa using hnode
    by_cases hopens : (isTypeless data || isTagValue data) = true
    swap
    · rw [if_neg hopens] at h
      obtain rfl := Option.some.inj h
      refine .bare fun _ => ⟨hnode, ?_⟩
      simpa using hopens
    rw [if_pos hopens] at h
    cases hpath : getMappedPath lib data above with
    | none =>
      rw [hpath] at h
      cases h
    | some path =>
      rw [hpath] at h
      obtain ⟨children, hchildren, rfl⟩ := Option.map_eq_some_iff.mp h
      have heach : List.Forall₂ (fun cname c => cname = c.1 ∧
        ∃ m, createParamFromRunningCfg lib run c.1 [] (some (data, above)) = some (some m) ∧
          addSubtree lib run limit calls (depth + 1) m.1 m.2 (data :: above) = some c.2)
            (run.getTmplChildren path).dedup children := by
        refine (mapM_iff.mp hchildren).imp fun cname c hc => ?_
        cases hnew : createParamFromRunningCfg lib run cname [] (some (data, above)) with
        | none =>
          rw [hnew] at hc
          cases hc
        | some made =>
          cases made with
          | none =>
            rw [hnew] at hc
            cases hc
          | some m =>
            rw [hnew] at hc
            obtain ⟨n, hn, rfl⟩ := Option.map_eq_some_iff.mp hc
            exact ⟨rfl, m, hnew, hn⟩
      have hback : ∀ c ∈ children, ∃ m, createParamFromRunningCfg lib run c.1 [] (some (data, above)) = some (some m) ∧
          addSubtree lib run limit calls (depth + 1) m.1 m.2 (data :: above) = some c.2 := by
        intro c hc
        obtain ⟨_, -, hmade⟩ := exists_of_forall₂ heach.flip hc
        exact hmade.2
      refine .children hin hnode (by simpa using hopens) hpath ?_ (fun c hc => ?_) fun c hc m hm => ?_
      · exact (forall₂_names heach).symm
      · obtain ⟨m, hm, -⟩ := hback c hc
        exact ⟨m, hm⟩
      · obtain ⟨m', hm', hn⟩ := hback c hc
        obtain rfl := Option.some.inj (Option.some.inj (hm.symm.trans hm'))
        exact ih hn

/-- The value of a tag. -/
def Node.value : Node → Option Str
  | .raw _ => none
  | .param _ data _ _ =>
    match data.lookup (str "value") with
    | some (.string v) => some v
    | _ => none

/-- How an object comes into the tree. -/
inductive Role where
  | root
  | child (name : Str)
  | tag (v : Str)

/-- The object for a template, which is no tag. -/
def Template (run : Running) (path : Str) (data : Fields) : Prop :=
  ∃ tmpl, Shows run path tmpl data ∧ data.lookup (str "tag") = none

/-- What there is at a path. Only a root has all of its path, the others what comes behind that of
    the object above. -/
def Is (run : Running) (path : Str) (data : Fields) : Role → Prop
  | .root => Template run path data ∧ data.lookup (str "cfg_path") = some (.string path)
  | .child name => Template run path data ∧ data.lookup (str "rel_path") = some (.string name) ∧
      data.lookup (str "cfg_path") = none
  | .tag v => IsTag v data

/-- A tree mirrors the configuration at a path: every object has the path of what it shows, the tags
    are those of the configuration, or the dummy, and the children those of the templates. -/
inductive Mirrors (lib : Library) (run : Running) (limit : Nat) : Nat → Role → Str → List Fields → Node → Prop where
  | mk {depth : Nat} {role : Role} {path : Str} {above : List Fields} {cls : Class} {data : Fields} {children : List (Str × Node)}
      {tags : List Node}
      (fresh : Fresh lib cls data) (is : Is run path data role) (mapped : getMappedPath lib data above = some path)
      (distinct : (children.map Prod.fst).Nodup)
      (names : ∀ k, k ∈ children.map Prod.fst ↔ Inside limit depth ∧ isTagNode data = false ∧
        (isTypeless data = true ∨ isTagValue data = true) ∧ k ∈ run.getTmplChildren path)
      (values : Inside limit depth → isTagNode data = true → tags.map Node.value = (tagValues run path).map some)
      (plain : ¬ (Inside limit depth ∧ isTagNode data = true) → tags = [])
      (below : ∀ c ∈ children, Mirrors lib run limit (depth + 1) (.child c.1) (path ++ str " " ++ c.1) (data :: above) c.2)
      (belowTag : ∀ t ∈ tags, ∀ v, t.value = some v →
        Mirrors lib run limit (depth + 1) (.tag v) (path ++ str " " ++ v) (data :: above) t) :
      Mirrors lib run limit depth role path above (.param cls data children tags)

/-- Scalars that are texts are written as they are. -/
def Textual (lib : Library) : Prop := ∀ s, lib.text (.string s) = s

/-- No tag node of booleans. -/
def NoBoolTags (run : Running) : Prop :=
  ∀ path tmpl, run.parseTmplAll path = some tmpl → tmpl.tag = true → tmpl.type = some (str "bool") → tmpl.type2 ≠ none

variable {data : Fields} {above : List Fields} {path : Str}

theorem textOf_string (htext : Textual lib) {k s : Str} (h : data.lookup k = some (.string s)) : textOf lib data k = s := by
  rw [textOf, Fields.defined, h]
  exact htext s

theorem mapped_child (htext : Textual lib) {parent : Fields} (hpath : getMappedPath lib parent above = some path) {name : Str}
    (hrel : data.lookup (str "rel_path") = some (.string name)) (hcfg : data.lookup (str "cfg_path") = none)
    (htag : data.lookup (str "tag") = none) : getMappedPath lib data (parent :: above) = some (path ++ str " " ++ name) := by
  have hvalue : isTagValue data = false := by
    rw [isTagValue, htag]
    rfl
  have hdefined : data.defined (str "rel_path") = true := by rw [Fields.defined, hrel]
  have hno : data.defined (str "cfg_path") = false := by rw [Fields.defined, hcfg]
  have hrelPath : relPath lib data = some name := by
    rw [relPath]
    simp only [hvalue, hdefined, if_true, Bool.false_eq_true, if_false]
    rw [textOf_string htext hrel]
  rw [getMappedPath, hno, hrelPath, hpath]
  rfl

theorem mapped_tag (htext : Textual lib) {parent : Fields} (hpath : getMappedPath lib parent above = some path) {v : Str}
    (ht : IsTag v data) (hnew : data.lookup (str "new-value") = none) :
    getMappedPath lib data (parent :: above) = some (path ++ str " " ++ v) := by
  have hvalue : isTagValue data = true := by
    rw [isTagValue, ht.tag]
    rfl
  have hdefined : data.defined (str "rel_path") = true := by rw [Fields.defined, ht.rel]
  have hno : data.defined (str "cfg_path") = false := by rw [Fields.defined, ht.cfg]
  have hnone : data.defined (str "new-value") = false := by rw [Fields.defined, hnew]
  have hrelPath : relPath lib data = some v := by
    rw [relPath]
    simp only [hvalue, hdefined, hnone, if_true, Bool.false_eq_true, if_false]
    rw [textOf_string htext ht.rel, textOf_string htext ht.value]
    rfl
  rw [getMappedPath, hno, hrelPath, hpath]
  rfl

theorem onlyPath_single (k v : Str) (hk : k = str "cfg_path" ∨ k = str "rel_path") : OnlyPath [(k, .string v)] := by
  have hnone : ∀ k', k' ≠ k → List.lookup k' [(k, JsonValue.string v)] = none := by
    intro k' hne
    rw [List.lookup_cons, beq_eq_false_iff_ne.mpr hne, List.lookup_nil]
  have hne : ∀ k' ∈ later ++ [str "value", str "values", str "tagnode"], k' ≠ str "cfg_path" ∧ k' ≠ str "rel_path" := by decide
  have hbare : ∀ k' ∈ later ++ [str "value", str "values", str "tagnode"], List.lookup k' [(k, JsonValue.string v)] = none := by
    intro k' hk'
    obtain ⟨h₁, h₂⟩ := hne k' hk'
    refine hnone k' ?_
    rcases hk with rfl | rfl
    · exact h₁
    · exact h₂
  refine ⟨⟨List.nodup_singleton _, fun k' hk' => hbare k' (List.mem_append_left _ hk'),
    fun k' hk' => hbare k' (List.mem_append_right _ hk')⟩, fun k' hk' => ?_⟩
  by_cases hkk : k' = k
  · exact hkk ▸ hk
  · exact absurd (hnone k' hkk) hk'

/-- A child that is made shows the configuration at its path. -/
theorem child_shows (htext : Textual lib) {parent : Fields} (hpath : getMappedPath lib parent above = some path) {name : Str}
    {m : Class × Fields} (h : createParamFromRunningCfg lib run name [] (some (parent, above)) = some (some m)) :
    Fresh lib m.1 m.2 ∧ Is run (path ++ str " " ++ name) m.2 (.child name) ∧
      getMappedPath lib m.2 (parent :: above) = some (path ++ str " " ++ name) := by
  rw [createParamFromRunningCfg] at h
  simp only [hpath] at h
  by_cases hmapped : (!isMapped parent) = true
  · rw [if_pos hmapped] at h
    cases h
  rw [if_neg hmapped] at h
  cases htmpl : run.parseTmplAll (path ++ str " " ++ name) with
  | none =>
    rw [htmpl] at h
    cases h
  | some tmpl =>
    rw [htmpl] at h
    obtain ⟨m', hm', hmm⟩ := Option.map_eq_some_iff.mp h
    obtain rfl := Option.some.inj hmm
    obtain ⟨hf, hshows, htag, hsame⟩ := createAt_shows (onlyPath_single (str "rel_path") name (Or.inr rfl)) htmpl hm'
    have hrel : m'.2.lookup (str "rel_path") = some (.string name) := hsame _ (Or.inr rfl)
    have hcfg : m'.2.lookup (str "cfg_path") = none := hsame _ (Or.inl rfl)
    exact ⟨hf, ⟨⟨tmpl, hshows, htag⟩, hrel, hcfg⟩, mapped_child htext hpath hrel hcfg htag⟩

/-- A tag that is made shows a tag of the configuration. -/
theorem tag_shows (htext : Textual lib) (hbools : NoBoolTags run) {parent : Fields} {role : Role} (his : Is run path parent role)
    (hnode : isTagNode parent = true) (hpath : getMappedPath lib parent above = some path) {v : Str} {m : Class × Fields}
    (h : addTag lib parent v = some m) : Fresh lib m.1 m.2 ∧ IsTag v m.2 ∧
      getMappedPath lib m.2 (parent :: above) = some (path ++ str " " ++ v) := by
  have htemplate : Template run path parent := by
    cases role with
    | root => exact his.1
    | child name => exact his.1
    | tag w =>
      have hno := IsTag.node his
      rw [hnode] at hno
      cases hno
  obtain ⟨tmpl, hshows, -⟩ := htemplate
  have htagged : tmpl.tag = true := hshows.tag.symm.trans hnode
  have hbool : tmpl.type.getD [] = str "bool" → parent.defined (str "type2") = true := by
    intro hbool
    have htype : tmpl.type = some (str "bool") := by
      cases htype : tmpl.type with
      | none =>
        rw [htype] at hbool
        cases hbool
      | some t =>
        rw [htype] at hbool
        exact congrArg some hbool
    have hne := hbools path tmpl hshows.found htagged htype
    rw [Fields.defined, hshows.type2]
    cases h2 : tmpl.type2 with
    | none => exact absurd h2 hne
    | some t2 => rfl
  obtain ⟨hf, ht⟩ := addTag_shows hshows.type hbool h
  exact ⟨hf, ht, mapped_tag htext hpath ht (hf.later _ (by decide))⟩

theorem IsTag.node_value {v : Str} (h : IsTag v data) (cls : Class) (children : List (Str × Node)) (tags : List Node) :
    (Node.param cls data children tags).value = some v := by
  rw [Node.value, h.value]

theorem Grown.data_eq {depth : Nat} {cls : Class} {n : Node} (h : Grown lib run limit depth cls data above n) :
    ∃ children tags, n = .param cls data children tags := by
  cases h with
  | bare => exact ⟨_, _, rfl⟩
  | tags => exact ⟨_, _, rfl⟩
  | children => exact ⟨_, _, rfl⟩

theorem Grown.mirrors (htext : Textual lib) (hbools : NoBoolTags run) {depth : Nat} {cls : Class} {n : Node}
    (h : Grown lib run limit depth cls data above n) : ∀ {role : Role} {path : Str}, Fresh lib cls data → Is run path data role →
    getMappedPath lib data above = some path → Mirrors lib run limit depth role path above n := by
  induction h with
  | @bare depth cls data above h =>
    intro role path hf his hpath
    refine .mk hf his hpath List.nodup_nil (fun k => ?_) (fun hin hnode => ?_) (fun _ => rfl) ?_ ?_
    · refine ⟨fun hk => absurd hk List.not_mem_nil, fun hk => ?_⟩
      obtain ⟨hin, -, hopens, -⟩ := hk
      obtain ⟨-, h₁, h₂⟩ := h hin
      rw [h₁, h₂] at hopens
      simp at hopens
    · rw [(h hin).1] at hnode
      cases hnode
    · exact fun c hc => absurd hc List.not_mem_nil
    · exact fun t ht => absurd ht List.not_mem_nil
  | @tags depth cls data above path' made tags hin hnode hmapped hadds hnumber hgrown ih =>
    intro role path hf his hpath
    obtain rfl : path' = path := Option.some.inj (hmapped.symm.trans hpath)
    -- every tag has been made of a value
    have hmade : ∀ (i : Nat) t, tags[i]? = some t → ∃ v m, (tagValues run path')[i]? = some v ∧ made[i]? = some m ∧
        addTag lib data v = some m := by
      intro i t ht
      have hi : i < tags.length := (List.getElem?_eq_some_iff.mp ht).1
      have hi' : i < made.length := hnumber ▸ hi
      have hv : i < (tagValues run path').length := hadds.length_eq ▸ hi'
      exact ⟨_, _, List.getElem?_eq_getElem hv, List.getElem?_eq_getElem hi',
        forall₂_getElem hadds i _ _ (List.getElem?_eq_getElem hv) (List.getElem?_eq_getElem hi')⟩
    have htag : ∀ (i : Nat) t, tags[i]? = some t → ∃ v, (tagValues run path')[i]? = some v ∧ t.value = some v ∧
        Mirrors lib run limit (depth + 1) (.tag v) (path' ++ str " " ++ v) (data :: above) t := by
      intro i t ht
      obtain ⟨v, m, hv, hm, hadd⟩ := hmade i t ht
      obtain ⟨hfm, htm, hpm⟩ := tag_shows htext hbools his hnode hpath hadd
      obtain ⟨cs, ts, rfl⟩ := (hgrown i m t hm ht).data_eq
      exact ⟨v, hv, htm.node_value _ _ _, ih i m _ hm ht hfm htm hpm⟩
    refine .mk hf his hpath List.nodup_nil (fun k => ?_) (fun _ _ => ?_) (fun hno => absurd ⟨hin, hnode⟩ hno) ?_
      fun t ht v hv => ?_
    · refine ⟨fun hk => absurd hk List.not_mem_nil, fun hk => ?_⟩
      obtain ⟨-, hno, -⟩ := hk
      rw [hnode] at hno
      cases hno
    · refine List.ext_getElem? fun i => ?_
      rw [List.getElem?_map, List.getElem?_map]
      cases ht : tags[i]? with
      | none =>
        have hlen : (tagValues run path').length ≤ i := by
          rw [hadds.length_eq, hnumber]
          exact List.getElem?_eq_none_iff.mp ht
        rw [List.getElem?_eq_none hlen]
        rfl
      | some t =>
        obtain ⟨v, hv, hval, -⟩ := htag i t ht
        rw [hv, Option.map_some, Option.map_some, hval]
    · exact fun c hc => absurd hc List.not_mem_nil
    · obtain ⟨i, hi⟩ := List.mem_iff_getElem?.mp ht
      obtain ⟨v', -, hval, hmirrors⟩ := htag i t hi
      obtain rfl : v' = v := Option.some.inj (hval.symm.trans hv)
      exact hmirrors
  | @children depth cls data above path' children hin hnode hopens hmapped hnames hmade hgrown ih =>
    intro role path hf his hpath
    obtain rfl : path' = path := Option.some.inj (hmapped.symm.trans hpath)
    refine .mk hf his hpath ?_ (fun k => ?_) (fun _ htag => ?_) (fun _ => rfl) (fun c hc => ?_) ?_
    · rw [hnames]
      exact List.nodup_dedup _
    · rw [hnames, List.mem_dedup]
      exact ⟨fun hk => ⟨hin, hnode, hopens, hk⟩, fun hk => hk.2.2.2⟩
    · rw [hnode] at htag
      cases htag
    · obtain ⟨m, hm⟩ := hmade c hc
      obtain ⟨hfm, hism, hpm⟩ := child_shows htext hpath hm
      exact ih c hc m hm hfm hism hpm
    · exact fun t ht => absurd ht List.not_mem_nil

end Trees

/-! ## The roots -/

section Roots

variable {lib : Library} {run : Running} {limit calls : Nat}

/-- A root shows a template of the configuration, or below the node of a tag one tag that is there. -/
inductive Rooted (lib : Library) (run : Running) (limit : Nat) (rpath : Str) : Node → Prop where
  | template {n : Node} (shows : Mirrors lib run limit 1 .root rpath [] n) : Rooted lib run limit rpath n
  | tag {cls : Class} {data : Fields} {tpath v : Str} {t : Node} (unknown : run.parseTmplAll rpath = none)
      (cut : cutLastWord rpath = some (tpath, v)) (fresh : Fresh lib cls data) (is : Is run tpath data .root)
      (node : isTagNode data = true) (mapped : getMappedPath lib data [] = some tpath)
      (found : run.existsOrig (tpath ++ str " " ++ v) = true) (value : t.value = some v)
      (shows : Mirrors lib run limit 1 (.tag v) (tpath ++ str " " ++ v) [data] t) :
      Rooted lib run limit rpath (.param cls data [] [t])

theorem root_shows (htext : Textual lib) {path : Str} {m : Class × Fields}
    (h : createParamFromRunningCfg lib run path [] none = some (some m)) :
    Fresh lib m.1 m.2 ∧ Is run path m.2 .root ∧ getMappedPath lib m.2 [] = some path := by
  rw [createParamFromRunningCfg] at h
  cases htmpl : run.parseTmplAll path with
  | none =>
    simp only [htmpl] at h
    cases h
  | some tmpl =>
    simp only [htmpl] at h
    obtain ⟨m', hm', hmm⟩ := Option.map_eq_some_iff.mp h
    obtain rfl := Option.some.inj hmm
    obtain ⟨hf, hshows, htag, hsame⟩ := createAt_shows (onlyPath_single (str "cfg_path") path (Or.inl rfl)) htmpl hm'
    have hcfg : m'.2.lookup (str "cfg_path") = some (.string path) := hsame _ (Or.inl rfl)
    have hdefined : m'.2.defined (str "cfg_path") = true := by rw [Fields.defined, hcfg]
    refine ⟨hf, ⟨⟨tmpl, hshows, htag⟩, hcfg⟩, ?_⟩
    rw [getMappedPath, if_pos hdefined, textOf_string htext hcfg]

theorem rooted_of_addRoot (htext : Textual lib) (hbools : NoBoolTags run) {rpath : Str} {n : Node}
    (h : addRoot lib run limit calls rpath = some n) : Rooted lib run limit rpath n := by
  rw [addRoot] at h
  cases hroot : createParamFromRunningCfg lib run rpath [] none with
  | none =>
    rw [hroot] at h
    cases h
  | some made =>
    rw [hroot] at h
    cases made with
    | some m =>
      obtain ⟨hf, his, hpath⟩ := root_shows htext hroot
      exact .template ((grown_of_addSubtree _ h).mirrors htext hbools hf his hpath)
    | none =>
      -- no template: the last word is a tag of the node that the others lead to
      have hunknown : run.parseTmplAll rpath = none := by
        rw [createParamFromRunningCfg] at hroot
        cases htmpl : run.parseTmplAll rpath with
        | none => rfl
        | some tmpl =>
          simp only [htmpl] at hroot
          obtain ⟨m, -, hm⟩ := Option.map_eq_some_iff.mp hroot
          cases hm
      simp only at h
      cases hcut : cutLastWord rpath with
      | none =>
        rw [hcut] at h
        cases h
      | some cut =>
        obtain ⟨tpath, v⟩ := cut
        simp only [hcut] at h
        cases hnode : createParamFromRunningCfg lib run tpath [] none with
        | none =>
          rw [hnode] at h
          cases h
        | some made =>
          cases made with
          | none =>
            rw [hnode] at h
            cases h
          | some m =>
            obtain ⟨cls, data⟩ := m
            obtain ⟨hf, his, hpath⟩ := root_shows htext hnode
            simp only [hnode, hpath] at h
            by_cases htag : isTagNode data = true
            swap
            · simp [htag] at h
            by_cases hexists : run.existsOrig (tpath ++ str " " ++ v) = true
            swap
            · rw [if_neg (by simp [htag]), if_pos (by simpa using hexists)] at h
              cases h
            simp only [htag, hexists, Bool.not_true, Bool.false_eq_true, if_false] at h
            cases hadd : addTag lib data v with
            | none =>
              rw [hadd] at h
              cases h
            | some m =>
              rw [hadd] at h
              obtain ⟨t, ht, rfl⟩ := Option.map_eq_some_iff.mp h
              obtain ⟨hfm, htm, hpm⟩ := tag_shows htext hbools his htag hpath hadd
              have hgrown := grown_of_addSubtree _ ht
              obtain ⟨children, tags, rfl⟩ := hgrown.data_eq
              exact .tag hunknown hcut hf his htag hpath hexists (htm.node_value _ _ _)
                (hgrown.mirrors htext hbools hfm htm hpm)

/-- The paths that an empty one stands for. -/
def rootPaths (run : Running) (rootPath : Str) : List Str :=
  if rootPath.all isSpace then run.getTmplChildren [] else [rootPath]

/-- What `addChild` has made of the members of a message, one root after another. -/
structure Added (lib : Library) (run : Running) (limit : Nat) (old : List (Str × Node)) (paths : List Str)
    (new : List (Str × Node)) : Prop where
  names : (old.map Prod.fst).Nodup → (new.map Prod.fst).Nodup
  added : ∀ path ∈ paths, childName path ∈ new.map Prod.fst
  kept : ∀ c ∈ old, (∀ path ∈ paths, childName path ≠ c.1) → c ∈ new
  only : ∀ c ∈ new, (c ∈ old ∧ ∀ path ∈ paths, childName path ≠ c.1) ∨
    ∃ path ∈ paths, c.1 = childName path ∧ Rooted lib run limit path c.2

theorem Added.nil (old : List (Str × Node)) : Added lib run limit old [] old :=
  ⟨id, fun _ h => absurd h List.not_mem_nil, fun _ h _ => h, fun _ h => Or.inl ⟨h, fun _ hp => absurd hp List.not_mem_nil⟩⟩

theorem Added.cons {old new : List (Str × Node)} {path : Str} {paths : List Str} {n : Node} (hn : Rooted lib run limit path n)
    (h : Added lib run limit (old.filter (·.1 ≠ childName path) ++ [(childName path, n)]) paths new) :
    Added lib run limit old (path :: paths) new := by
  have hmem : ∀ c : Str × Node, c ∈ old.filter (·.1 ≠ childName path) ++ [(childName path, n)] ↔
      (c ∈ old ∧ c.1 ≠ childName path) ∨ c = (childName path, n) := by
    intro c
    rw [List.mem_append, List.mem_filter, decide_eq_true_eq, List.mem_singleton]
  refine ⟨fun hold => h.names ?_, ?_, ?_, ?_⟩
  · rw [List.map_append, List.map_singleton]
    refine List.nodup_append.mpr ⟨hold.sublist (List.filter_sublist.map _), List.nodup_singleton _, ?_⟩
    intro k hk k' hk' heq
    obtain ⟨c, hc, rfl⟩ := List.mem_map.mp hk
    obtain rfl := List.mem_singleton.mp hk'
    exact of_decide_eq_true (List.mem_filter.mp hc).2 heq
  · rw [List.forall_mem_cons]
    refine ⟨?_, h.added⟩
    -- a later root of the same name takes its place
    by_cases hlater : ∃ path' ∈ paths, childName path' = childName path
    · obtain ⟨path', hpath', heq⟩ := hlater
      exact heq ▸ h.added path' hpath'
    · push Not at hlater
      exact List.mem_map.mpr ⟨_, h.kept _ ((hmem _).mpr (Or.inr rfl)) hlater, rfl⟩
  · intro c hc hno
    rw [List.forall_mem_cons] at hno
    exact h.kept c ((hmem c).mpr (Or.inl ⟨hc, fun heq => hno.1 heq.symm⟩)) hno.2
  · intro c hc
    rcases h.only c hc with ⟨hold, hno⟩ | ⟨path', hpath', heq, hrooted⟩
    · rcases (hmem c).mp hold with ⟨hc', hne⟩ | rfl
      · left
        rw [List.forall_mem_cons]
        exact ⟨hc', fun heq => hne heq.symm, hno⟩
      · exact Or.inr ⟨path, List.mem_cons_self, rfl, hn⟩
    · exact Or.inr ⟨path', List.mem_cons_of_mem _ hpath', heq, hrooted⟩

/-- The members of a message: those that were there, and for every path a root that shows the configuration. -/
theorem tree_shows_configuration (htext : Textual lib) (hbools : NoBoolTags run) {rootPath : Str} {old new : List (Str × Node)}
    (h : addTreeFromRunningCfg lib run limit calls rootPath old = some new) :
    Added lib run limit old (rootPaths run rootPath) new := by
  rw [addTreeFromRunningCfg] at h
  change (rootPaths run rootPath).foldlM _ old = some new at h
  generalize rootPaths run rootPath = paths at h
  induction paths generalizing old with
  | nil =>
    obtain rfl := Option.some.inj h
    exact .nil old
  | cons path paths ih =>
    rw [List.foldlM_cons] at h
    obtain ⟨mid, hmid, hrest⟩ := Option.bind_eq_some_iff.mp h
    obtain ⟨n, hn, rfl⟩ := Option.map_eq_some_iff.mp hmid
    exact .cons (rooted_of_addRoot htext hbools hn) (ih hrest)

end Roots

/-- A tag node at `a` with a tag `x` and a value below it. -/
def sampleRun : Running where
  parseTmplAll path :=
    if path = str "a" then some ⟨some (str "txt"), none, none, none, none, true, false⟩
    else if path = str "a x c" then some ⟨some (str "txt"), none, none, none, none, false, false⟩
    else none
  getTmplChildren path := if path = [] then [str "a"] else if path = str "a x" then [str "c"] else []
  listOrigNodes path := if path = str "a" then [str "x"] else []
  existsOrig path := path = str "a x" || path = str "a x c"
  returnOrigValue path := if path = str "a x c" then some (str "v") else none
  returnOrigValues _ := []

def builtTag : Fields :=
  [(str "type", .string (str "txt")), (str "param", .bool true), (str "rel_path", .string []), (str "tag", .bool true),
   (str "value", .string (str "x"))]

def builtLeaf : Fields :=
  [(str "type", .string (str "txt")), (str "param", .bool true), (str "rel_path", .string (str "c")),
    (str "value", .string (str "v"))]

def sampleRoot : List (Str × Node) :=
  [(str "a", .param .tag nodeData [] [.param .txt builtTag [(str "c", .param .txt builtLeaf [] [])] []])]

theorem sampleRoot_built : addTreeFromRunningCfg sampleLibrary sampleRun 0 4 (str "a") [] = some sampleRoot := by rfl

theorem sampleLibrary_textual : Textual sampleLibrary := fun _ => rfl

theorem sampleRun_noBoolTags : NoBoolTags sampleRun := by
  intro path tmpl htmpl htag hbool
  simp only [sampleRun] at htmpl
  split at htmpl
  · obtain rfl := Option.some.inj htmpl
    exact absurd hbool (by decide)
  · split at htmpl
    · obtain rfl := Option.some.inj htmpl
      cases htag
    · cases htmpl

theorem a_tree_is_shown : Added sampleLibrary sampleRun 0 [] [str "a"] sampleRoot :=
  tree_shows_configuration sampleLibrary_textual sampleRun_noBoolTags sampleRoot_built

end VyattaRest.App
