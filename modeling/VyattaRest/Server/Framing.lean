/-
  VyattaRest.Server.Framing — a response on the wire (`HTTP::serialize`, http.cc).

  The fields are written in the order of `Rest::KEY`, each on a line of its own, the status
  first. The body comes last in that order: it is checked for its size, read as JSON and printed
  compactly unless it is to stay as it is, and its length is the last line of the head. jansson
  is a parameter: `json_loads` and `json_dumps` may fail, and nothing else is asked of them.
  - `serialize_eq`: the loop over the fields is the lines of the head, and the body behind them.
  - `response_framed`: the head ends at the first blank line, has one line for every field, and
    its Content-Length is the number of bytes behind it.
-/

import VyattaRest.Lib.Frame
import VyattaRest.Server.Http

namespace VyattaRest.Server.Framing

open VyattaRest.Lib VyattaRest.Rest

/-! ## The source -/

/-- The order of `Rest::KEY`. -/
def keys : List Key :=
  [.reqUri, .reqAuthorization, .reqCookie, .reqQueryString, .reqMethod, .reqContentLength, .reqVyattaSpecificationVersion,
    .reqAccept, .reqHost, .reqPragma, .respDebug, .respCode, .respWwwAuth, .respContentType, .respLocation, .respCookie,
    .respVyattaSpecificationVersion, .respCacheControl, .respContentDisposition, .body]

/-- The entries of the map, as an iterator visits them. -/
def entries (h : Http) : List (Key × Str) := keys.filterMap fun k => (h.params k).map (k, ·)

def crlf : Str := [13, 10]

section

variable {J : Type} (jsonLoads : Str → Option J) (jsonDumps : J → Option Str)

/-- The text that goes out for a body. -/
def format (verbatimBody : Bool) (body : Str) : Str :=
  if !body.isEmpty && !verbatimBody then
    match jsonLoads (cstr body) with
    | none => body
    | some json =>
      match jsonDumps json with
      | none => body
      | some obuf => cstr obuf
  else body

/-- One round of the loop: the text so far, and the body once it has been met. -/
def serializeField (verbatimBody : Bool) (s : Str × Str) : Key × Str → Str × Str
  | (.respDebug, v) => (s.1 ++ (str "vyatta-debug: " ++ v ++ crlf), s.2)
  | (.respWwwAuth, v) => (s.1 ++ (str "WWW-Authenticate: " ++ v ++ crlf), s.2)
  | (.respContentType, v) => (s.1 ++ (str "Content-Type: " ++ v ++ crlf), s.2)
  | (.respLocation, v) => (s.1 ++ (str "Location: " ++ v ++ crlf), s.2)
  | (.respCookie, v) => (s.1 ++ (str "Set-Cookie: " ++ v ++ crlf), s.2)
  | (.respCacheControl, v) => (s.1 ++ (str "Cache-Control: " ++ v ++ crlf), s.2)
  | (.respContentDisposition, v) => (s.1 ++ (str "Content-Disposition: " ++ v ++ crlf), s.2)
  | (.respVyattaSpecificationVersion, v) => (s.1 ++ (str "Vyatta-Specification-Version: " ++ v ++ crlf), s.2)
  | (.body, v) =>
    let body := format jsonLoads jsonDumps verbatimBody v
    (s.1 ++ (str "Content-Length: " ++ dec body.length ++ crlf), body)
  | _ => s

def statusText : Option Str → Str
  | some v => str "Status: " ++ v ++ crlf
  | none => []

/-- A body that is too long makes another status and is cleared. -/
def checkSize (o : Str) (h : Http) : Str × Http :=
  match h.params .body with
  | some v => if v.length > maxBodySize then (str "Status: 500" ++ crlf, h.set .body []) else (o, h)
  | none => (o, h)

/-- The text, and the map as it is left. -/
def serialize (h : Http) : Str × Http :=
  let (o, h) := checkSize (statusText (h.params .respCode)) h
  let (o, body) := (entries h).foldl (serializeField jsonLoads jsonDumps h.verbatimBody) (o, [])
  (if body.isEmpty then o ++ crlf else o ++ (crlf ++ body), h)

end

/-! ## What a response says -/

/-- The name a field has in the head. The fields of a request have none. -/
def headerName : Key → Option Str
  | .respDebug => some (str "vyatta-debug")
  | .respCode => some (str "Status")
  | .respWwwAuth => some (str "WWW-Authenticate")
  | .respContentType => some (str "Content-Type")
  | .respLocation => some (str "Location")
  | .respCookie => some (str "Set-Cookie")
  | .respVyattaSpecificationVersion => some (str "Vyatta-Specification-Version")
  | .respCacheControl => some (str "Cache-Control")
  | .respContentDisposition => some (str "Content-Disposition")
  | .body => some (str "Content-Length")
  | _ => none

def headerLine (name v : Str) : Str := name ++ str ": " ++ v

def Oversized (h : Http) : Prop := ∃ v, h.params .body = some v ∧ maxBodySize < v.length

instance (h : Http) : Decidable (Oversized h) :=
  decidable_of_iff ((h.params .body).any fun v => decide (maxBodySize < v.length)) (by
    rcases hb : h.params .body with _ | v <;> simp [Oversized, hb])

/-- The value of a field, when the bytes behind the head are `body`. -/
def shown (h : Http) (body : Str) : Key → Option Str
  | .respCode => if Oversized h then some (str "500") else h.params .respCode
  | .body => (h.params .body).map fun _ => dec body.length
  | k => h.params k

/-- The fields of a head in order: the status comes first. -/
def headerKeys : List Key :=
  [.respCode, .respDebug, .respWwwAuth, .respContentType, .respLocation, .respCookie, .respVyattaSpecificationVersion,
    .respCacheControl, .respContentDisposition, .body]

/-- The line of a field, if it is present. -/
def fieldLine (h : Http) (body : Str) (k : Key) : Option Str :=
  (headerName k).bind fun name => (shown h body k).map (headerLine name)

def headLines (h : Http) (body : Str) : List Str := headerKeys.filterMap (fieldLine h body)

/-- A text without CR and LF. -/
def Plain (l : Str) : Prop := (13 : UInt8) ∉ l ∧ (10 : UInt8) ∉ l

/-- The fields of the head have values that fit on a line. The body may hold anything. -/
def PlainValues (h : Http) : Prop := ∀ k v, headerName k ≠ none → k ≠ .body → h.params k = some v → Plain v

/-- The text is a head of these lines and a body, to a reader who looks for the first blank
    line; without a line, for the first line end. -/
structure Framed (out : Str) (lines : List Str) (body : Str) : Prop where
  plain : ∀ l ∈ lines, Plain l
  head : lines ≠ [] → find (crlf ++ crlf) out = some (crlf.intercalate lines).length ∧
    out.take (crlf.intercalate lines).length = crlf.intercalate lines ∧
    out.drop ((crlf.intercalate lines).length + 4) = body
  none : lines = [] → find crlf out = some 0 ∧ out.drop 2 = body

section

variable {J : Type} {jsonLoads : Str → Option J} {jsonDumps : J → Option Str}

/-! ## The loop -/

/-- The line a round writes for a field other than the body. -/
def loopLine (h : Http) (k : Key) : Option Str :=
  if k = .respCode then none else (headerName k).bind fun name => (h.params k).map (headerLine name)

theorem serializeField_eq (verbatimBody : Bool) {k : Key} (hk : k ≠ .body) (o body v : Str) :
    serializeField jsonLoads jsonDumps verbatimBody (o, body) (k, v) =
      (o ++ ((if k = .respCode then none else (headerName k).map (headerLine · v)).map (· ++ crlf)).getD [], body) := by
  cases k <;> first | rfl | exact absurd rfl hk | simp [serializeField, headerName]

theorem foldl_fields (verbatimBody : Bool) (h : Http) (body : Str) : ∀ (ks : List Key) (o : Str), .body ∉ ks →
    (ks.filterMap fun k => (h.params k).map (k, ·)).foldl (serializeField jsonLoads jsonDumps verbatimBody) (o, body) =
      (o ++ (ks.filterMap (loopLine h)).flatMap (· ++ crlf), body) := by
  intro ks
  induction ks with
  | nil =>
    intro o _
    simp
  | cons k ks ih =>
    intro o hks
    obtain ⟨hk, hks⟩ := not_or.mp (List.mem_cons.not.mp hks)
    rcases hv : h.params k with _ | v
    · have hline : loopLine h k = none := by
        rw [loopLine, hv]
        split <;> simp
      rw [List.filterMap_cons_none (by rw [hv]; rfl), List.filterMap_cons_none hline, ih o hks]
    · rw [List.filterMap_cons_some (by rw [hv]; rfl), List.foldl_cons, serializeField_eq verbatimBody (Ne.symm hk), ih _ hks]
      have hline : loopLine h k = if k = .respCode then none else (headerName k).map (headerLine · v) := by
        rw [loopLine, hv]
        rcases headerName k with _ | name <;> rfl
      rw [← hline]
      rcases hl : loopLine h k with _ | l
      · rw [List.filterMap_cons_none hl]
        simp
      · rw [List.filterMap_cons_some hl]
        simp

variable (jsonLoads jsonDumps) in
/-- The bytes behind the head. -/
def outBody (h : Http) : Str :=
  if Oversized h then [] else ((h.params .body).map (format jsonLoads jsonDumps h.verbatimBody)).getD []

theorem headLines_eq (h : Http) (body : Str) : headLines h body =
    (fieldLine h body .respCode).toList ++ (keys.dropLast.filterMap (loopLine h) ++ (fieldLine h body .body).toList) := by
  have hmid : keys.dropLast.filterMap (loopLine h) = (headerKeys.tail.dropLast).filterMap (fieldLine h body) := rfl
  rw [hmid]
  show (([Key.respCode] ++ (headerKeys.tail.dropLast ++ [Key.body])).filterMap (fieldLine h body)) = _
  have hsingle : ∀ k : Key, [k].filterMap (fieldLine h body) = (fieldLine h body k).toList := by
    intro k
    rw [List.filterMap_cons]
    rcases fieldLine h body k with _ | l <;> rfl
  rw [List.filterMap_append, List.filterMap_append, hsingle, hsingle]

/-- The loop over all the fields. -/
theorem foldl_entries (h : Http) (o : Str) :
    (entries h).foldl (serializeField jsonLoads jsonDumps h.verbatimBody) (o, []) =
      let body := ((h.params .body).map (format jsonLoads jsonDumps h.verbatimBody)).getD []
      (o ++ (keys.dropLast.filterMap (loopLine h) ++ (fieldLine h body .body).toList).flatMap (· ++ crlf), body) := by
  have hentries : entries h = (keys.dropLast.filterMap fun k => (h.params k).map (k, ·)) ++
      [Key.body].filterMap fun k => (h.params k).map (k, ·) := by
    rw [← List.filterMap_append]
    rfl
  rw [hentries, List.foldl_append, foldl_fields h.verbatimBody h [] _ o (by decide)]
  rcases hb : h.params .body with _ | v
  · simp [hb, fieldLine, shown]
  · simp [hb, fieldLine, shown, headerName, headerLine, serializeField]
    rfl

theorem statusText_eq (v : Option Str) :
    statusText v = ((v.map (headerLine (str "Status"))).toList).flatMap (· ++ crlf) := by
  rcases v with _ | v
  · rfl
  · simp [headerLine, statusText]
    rfl

/-- The map after the check has the same fields, but for an oversized body. -/
theorem checkSize_eq (o : Str) (h : Http) :
    checkSize o h = if Oversized h then (str "Status: 500" ++ crlf, h.set .body []) else (o, h) := by
  unfold checkSize
  by_cases hover : Oversized h
  · rw [if_pos hover]
    obtain ⟨v, hv, hlen⟩ := hover
    rw [hv]
    exact if_pos hlen
  · rw [if_neg hover]
    rcases hv : h.params .body with _ | v
    · rfl
    · exact if_neg fun hlen => hover ⟨v, hv, hlen⟩

theorem filterMap_loopLine_set (h : Http) (v : Str) :
    keys.dropLast.filterMap (loopLine (h.set .body v)) = keys.dropLast.filterMap (loopLine h) := rfl

theorem frame_headLines (h : Http) (body : Str) : frame 13 10 (headLines h body) body =
    statusText (shown h body .respCode) ++
      (keys.dropLast.filterMap (loopLine h) ++ (fieldLine h body .body).toList).flatMap (· ++ crlf) ++ crlf ++ body := by
  rw [frame, headLines_eq, List.flatMap_append, statusText_eq]
  rfl

/-- The text of a response is its lines and its body. -/
theorem serialize_eq (h : Http) : (serialize jsonLoads jsonDumps h).1 =
    frame 13 10 (headLines h (outBody jsonLoads jsonDumps h)) (outBody jsonLoads jsonDumps h) := by
  have hlast : ∀ o body : Str, (if body.isEmpty then o ++ crlf else o ++ (crlf ++ body)) = o ++ crlf ++ body := by
    intro o body
    rcases body with _ | ⟨b, r⟩ <;> simp
  rw [frame_headLines, shown]
  by_cases hover : Oversized h
  · -- the cleared body is neither read nor printed
    have hbody : outBody jsonLoads jsonDumps h = [] := if_pos hover
    have hset : (((h.set .body []).params .body).map (format jsonLoads jsonDumps h.verbatimBody)).getD [] = [] := by
      simp [Http.set, format]
    have hfield : fieldLine (h.set .body []) [] .body = fieldLine h [] .body := by
      obtain ⟨v, hv, _⟩ := hover
      simp [fieldLine, shown, Http.set, hv]
    simp only [serialize, hlast, checkSize_eq, if_pos hover, hbody]
    rw [foldl_entries]
    simp only [filterMap_loopLine_set]
    rw [show (h.set .body []).verbatimBody = h.verbatimBody from rfl, hset, hfield]
    rfl
  · have hbody : outBody jsonLoads jsonDumps h = ((h.params .body).map (format jsonLoads jsonDumps h.verbatimBody)).getD [] :=
      if_neg hover
    simp only [serialize, hlast, checkSize_eq, if_neg hover]
    rw [foldl_entries, ← hbody]

/-! ## The head -/

/-- A value that is shown is a value of the map, the code 500 or a number. -/
theorem shown_plain {h : Http} (hvalues : PlainValues h) {body : Str} {k : Key} (hname : headerName k ≠ none) {v : Str}
    (hv : shown h body k = some v) : Plain v := by
  by_cases hk : k = .body
  · subst hk
    obtain ⟨_, _, rfl⟩ := Option.map_eq_some_iff.mp hv
    exact ⟨fun h => absurd (mem_dec _ h) (by decide), fun h => absurd (mem_dec _ h) (by decide)⟩
  · by_cases hc : k = .respCode
    · subst hc
      rw [shown] at hv
      split at hv
      · cases hv
        exact ⟨by decide, by decide⟩
      · exact hvalues _ v hname hk hv
    · refine hvalues k v hname hk ?_
      cases k <;> first | exact hv | exact absurd rfl hk | exact absurd rfl hc

theorem headerName_plain {k : Key} {name : Str} (h : headerName k = some name) : Plain name := by
  cases k <;> cases h <;> exact ⟨by decide, by decide⟩

theorem headLines_plain {h : Http} (hvalues : PlainValues h) {body l : Str}
    (hl : l ∈ headLines h body) : Plain l ∧ l ≠ [] := by
  obtain ⟨k, _, hk⟩ := List.mem_filterMap.mp hl
  obtain ⟨name, hname, hk⟩ := Option.bind_eq_some_iff.mp hk
  obtain ⟨v, hv, rfl⟩ := Option.map_eq_some_iff.mp hk
  obtain ⟨h₁, h₂⟩ := headerName_plain hname
  obtain ⟨h₃, h₄⟩ := shown_plain hvalues (by rw [hname]; exact Option.some_ne_none _) hv
  have hsep : Plain (str ": ") := ⟨by decide, by decide⟩
  refine ⟨⟨?_, ?_⟩, ?_⟩
  · simp [headerLine, h₁, h₃, hsep.1]
  · simp [headerLine, h₂, h₄, hsep.2]
  · intro hnil
    have := congrArg List.length hnil
    simp [headerLine, str] at this

/-- The lines that begin with a name are those of its field. -/
theorem headerName_inj {k k' : Key} {name : Str} (h : headerName k = some name) (h' : headerName k' = some name) : k = k' := by
  cases k <;> cases h <;> cases k' <;> first | rfl | exact absurd h' (by decide)

theorem colon_notMem {k : Key} {name : Str} (h : headerName k = some name) : (58 : UInt8) ∉ name := by
  cases k <;> cases h <;> decide

theorem prefix_headerLine {k k' : Key} {name name' v : Str} (h : headerName k = some name) (h' : headerName k' = some name') :
    (name ++ str ": ").isPrefixOf (headerLine name' v) = true ↔ k' = k := by
  have hname : ∀ {n : Str} (t : Str), (58 : UInt8) ∉ n → (n ++ (str ": " ++ t)).takeWhile (· ≠ 58) = n := by
    intro n t hn
    rw [List.takeWhile_append_of_pos (by simpa using fun x hx (e : x = 58) => hn (e ▸ hx))]
    exact List.append_nil n
  rw [List.isPrefixOf_iff_prefix]
  constructor
  · rintro ⟨t, ht⟩
    have := congrArg (List.takeWhile (· ≠ 58)) ht
    rw [headerLine, List.append_assoc, List.append_assoc, hname t (colon_notMem h), hname v (colon_notMem h')] at this
    subst this
    exact headerName_inj h' h
  · rintro rfl
    cases h.symm.trans h'
    exact List.prefix_append _ _

theorem filter_filterMap {κ : Type} {f : κ → Option Str} {p : Str → Bool} {k : κ} [DecidableEq κ]
    (hp : ∀ x l, f x = some l → (p l = true ↔ x = k)) : ∀ {ks : List κ}, ks.Nodup →
    (ks.filterMap f).filter p = if k ∈ ks then (f k).toList else [] := by
  intro ks
  induction ks with
  | nil => exact fun _ => rfl
  | cons x ks ih =>
    intro hnodup
    obtain ⟨hx, hks⟩ := List.nodup_cons.mp hnodup
    have ih := ih hks
    rcases hl : f x with _ | l
    · rw [List.filterMap_cons_none hl, ih]
      by_cases e : k = x
      · subst e
        simp [hx, hl]
      · simp [e]
    · rw [List.filterMap_cons_some hl, List.filter_cons, ih]
      by_cases e : k = x
      · subst e
        rw [if_pos ((hp k l hl).mpr rfl)]
        simp [hx, hl]
      · have hno : p l ≠ true := fun h => e ((hp x l hl).mp h).symm
        rw [if_neg hno]
        simp [e]

theorem filter_headLines (h : Http) (body : Str) {k : Key} {name : Str} (hname : headerName k = some name) :
    (headLines h body).filter (name ++ str ": ").isPrefixOf = ((shown h body k).map (headerLine name)).toList := by
  have hmem : k ∈ headerKeys := by
    cases k <;> first | decide | cases hname
  have hline : fieldLine h body k = (shown h body k).map (headerLine name) := by
    rw [fieldLine, hname]
    rfl
  rw [headLines, filter_filterMap (fun x l hl => ?_) (by decide), if_pos hmem, hline]
  obtain ⟨name', hname', hl⟩ := Option.bind_eq_some_iff.mp hl
  obtain ⟨v, _, rfl⟩ := Option.map_eq_some_iff.mp hl
  exact prefix_headerLine hname hname'

theorem framed_frame {lines : List Str} (h : ∀ l ∈ lines, Plain l ∧ l ≠ []) (body : Str) :
    Framed (frame 13 10 lines body) lines body where
  plain l hl := (h l hl).1
  head hne := ⟨find_frame (by decide) body hne fun l hl => ⟨(h l hl).1.1, (h l hl).2⟩, take_frame hne body, drop_frame hne body⟩
  none hnil := by
    subst hnil
    exact ⟨rfl, rfl⟩

/-- Whatever the body and the flag: the head ends at the first blank line, and has one line for
    every field that is present. The status is 500 for an oversized body and the code that is
    set otherwise. The length is given exactly when there is a body, and it is the number of
    bytes behind the head, none of an oversized one. -/
theorem response_framed (h : Http) (hvalues : PlainValues h) : ∃ body,
    Framed (serialize jsonLoads jsonDumps h).1 (headLines h body) body ∧
    (∀ k name, headerName k = some name →
      (headLines h body).filter (name ++ str ": ").isPrefixOf = ((shown h body k).map (headerLine name)).toList) ∧
    (Oversized h → body = []) := by
  refine ⟨outBody jsonLoads jsonDumps h, ?_, fun k name hname => filter_headLines h _ hname, fun hover => if_pos hover⟩
  rw [serialize_eq]
  exact framed_frame (fun l hl => headLines_plain hvalues hl) _

end

/-- A response with a list that is printed without its blanks. -/
def listResponse : Http :=
  ((Http.empty.set .respCode (str "200")).set .respContentType (str "application/json")).set .body (str "[ 1 ]")

def loadsList (s : Str) : Option Unit := if s = str "[ 1 ]" then some () else none

theorem listResponse_framed :
    (serialize loadsList (fun _ => some (str "[1]")) listResponse).1 =
      str "Status: 200\x0d\nContent-Type: application/json\x0d\nContent-Length: 3\x0d\n\x0d\n[1]" ∧
    ∃ body, Framed (serialize loadsList (fun _ => some (str "[1]")) listResponse).1 (headLines listResponse body) body ∧
      (headLines listResponse body).filter (str "Content-Length: ").isPrefixOf = [str "Content-Length: " ++ dec body.length] := by
  have hvalues : PlainValues listResponse := by
    intro k v _ hk hv
    cases k <;> first | exact absurd rfl hk | (cases hv; exact ⟨by decide, by decide⟩) | cases hv
  refine ⟨by decide, ?_⟩
  obtain ⟨body, hframed, hfields, _⟩ := response_framed listResponse hvalues
  exact ⟨body, hframed, hfields .body (str "Content-Length") rfl⟩

end VyattaRest.Server.Framing
