/-
  VyattaRest.Server.ConfUrls — the URLs of configuration sessions (confmode.cc).

  `/rest/conf/ID/` and a path: each method takes the path from `pos + 2` on, where `pos` is where
  the `/` behind the id is. Without that `/` a PUT is refused, a POST makes a new session, and a
  GET takes it from 1 on, since `npos + 2` is 1.
  - `conf_url`: the id and the path that the methods go on with.
  - `without_a_slash`: a PUT that asks for nothing, a GET that asks for a node with the name of
    the session, and a blank that a GET takes off its path.
-/

import VyattaRest.Server.ConfCalls

namespace VyattaRest.Server.ConfMode

open VyattaRest.Lib VyattaRest.Rest VyattaRest.Lib.Prog

/-! ## What is addressed -/

def sessionUrl (id : Str) : Str := confReqRoot ++ str "/" ++ id

def relative (segments : List Str) : Str := (str "/").intercalate segments

def pathUrl (id : Str) (segments : List Str) : Str := sessionUrl id ++ str "/" ++ relative segments

/-- The file of a session, as it is read, names the user as its owner and has a description. -/
def Live (buf user tag : Str) : Prop :=
  ∃ pos, find (str "/") (cstr buf) = some pos ∧ (cstr buf).take pos = user ∧ (cstr buf).drop (pos + 1) = tag

/-- The request reads the file of the session, and with what is there it goes on as `rest`. -/
def GoesOn (s : Session) (id buf : Str) (rest : Act Session) : Prop :=
  ∃ k, process s = .call (.fgets (vyattaModifyFile ++ id)) k ∧ k (some (some buf)) = rest

/-- configd is asked for the node at the path. -/
def nodeAt (s : Session) (id path : Str) : Act Session :=
  Configuration.withConnections do
    match ← Configuration.getConfiguredNode path id with
    | none => return s.error .commandNotFound
    | some p =>
      let json ← nodeJson p
      return s.setResponse .body json.serialize

/-- A blank in front of a path is taken off. -/
def withoutBlank (path : Str) : Str := if path.head? = some 32 then path.drop 1 else path

/-- The path is translated into a command. -/
def editAt (s : Session) (id path : Str) : Act Session :=
  match putCommand path with
  | none => return s.error .commandNotFound
  | some cmd => do return putReply s (← execute (commandLine id cmd) [])

/-- The path is the action. -/
def runAction (s : Session) (id path : Str) : Act Session :=
  if path = str "commit" ∨ path = str "save" then commitOrSave s (Configuration.convConfId id) path
  else if path = str "discard" then do
    discardSession id false
    return s
  else
    match ShellAction.find? path with
    | none => return s.error .validationFailure
    | some a => do
      let tmp ← a.command path
      let (status, stdout) ← execute (commandLine id tmp) (str " ")
      let s := if status ≠ 0 then s.error .configurationError else s
      return s.setResponse .body (Json.empty.addValue (str "message") (escapeOutput stdout)).serialize

/-- A description that is the id itself is looked up. -/
def actionAt (s : Session) (id tag path : Str) : Act Session := do
  match ← (if tag = id then readConfModifyFileFromTag tag s.user else return some id) with
  | none => return s.error .validationFailure
  | some id => runAction s id path

/-- A new session. -/
def createAs (s : Session) (description : Str) : Act Session := do
  let known ← knownDescription description s.user
  if known.isSome then return s.error .confmodeDupDescError
  let id ← perform .generateToken
  if id.length < 16 then return s.error .validationFailure
  let _ ← setupSession (Configuration.convConfId id)
  if !(← createConfModifyFile id s.user description) then return s.error .serverError
  return (s.setResponse .respLocation (str "rest/conf/" ++ id)).error .created

/-! ## Where the id ends -/

section Lookup

variable {id buf user tag path rest : Str}

theorem find_slash (hid : (47 : UInt8) ∉ id) (rel : Str) : find (str "/") (id ++ 47 :: rel) = some id.length := by
  have htag : Tag (str "/") 47 := ⟨[], rfl, by simp⟩
  have hhere : find (str "/") (47 :: rel) = some 0 := if_pos rfl
  rw [find_skip htag hid, hhere, Option.map_some, Nat.zero_add]

theorem find_no_slash (hid : (47 : UInt8) ∉ id) : find (str "/") id = none :=
  find_none_of_notMem ⟨[], rfl, by simp⟩ hid

/-- The id is what is in front of the next `/`, or all there is. -/
theorem id_of_rest (hid : (47 : UInt8) ∉ id) (hrest : (∃ rel, rest = id ++ 47 :: rel) ∨ rest = id ∧ id.length ≤ npos) :
    substr (47 :: rest) 1 ((find (str "/") rest).getD npos) = id := by
  rcases hrest with ⟨rel, rfl⟩ | ⟨rfl, hlen⟩
  · rw [find_slash hid]
    exact List.take_left
  · rw [find_no_slash hid]
    exact List.take_of_length_le hlen

theorem readConfModifyFile_live (hlive : Live buf user tag) (id user' description : Str) :
    ∃ k, readConfModifyFile id user' description = .call (.fgets (vyattaModifyFile ++ id)) k ∧
      k (some (some buf)) = pure (true, user, tag) := by
  obtain ⟨pos, hpos, rfl, rfl⟩ := hlive
  refine ⟨_, rfl, ?_⟩
  have hle := find_le hpos
  rw [show (str "/").length = 1 from rfl] at hle
  simp only [Prog.bind, hpos]
  rw [substrAt_of_le _ (Nat.zero_le _), substrFrom_of_le hle]
  rfl

/-- The head of the request reads the file of the session, and finds it. -/
theorem lookup_live (hid : (47 : UInt8) ∉ id) (hrest : (∃ rel, rest = id ++ 47 :: rel) ∨ rest = id ∧ id.length ≤ npos)
    (hlive : Live buf user tag) (method : Str) :
    ∃ k, lookup (confReqRoot ++ 47 :: rest) method user = .call (.fgets (vyattaModifyFile ++ id)) k ∧
      k (some (some buf)) = pure (some ⟨47 :: rest, id, tag, user⟩) := by
  obtain ⟨k, hread, hk⟩ := readConfModifyFile_live hlive id user []
  have hdrop : (confReqRoot ++ 47 :: rest).drop confReqRoot.length = 47 :: rest := List.drop_left
  unfold lookup
  rw [if_neg (by rw [List.length_append, List.length_cons]; omega),
    substrFrom_of_le (by rw [List.length_append]; omega), ret_bind, hdrop,
    substrFrom_of_le (by rw [List.length_cons]; omega), ret_bind, List.drop_one, List.tail_cons,
    substrAt_of_le _ (by rw [List.length_cons]; omega), ret_bind, id_of_rest hid hrest, hread]
  refine ⟨_, rfl, ?_⟩
  rw [hk]
  rfl

end Lookup

/-! ## What the methods go on with -/

section Methods

variable {s : Session} {id buf tag rest rel : Str} {t : Target}

theorem process_live (hauth : s.authType ≠ .none) (haccess : s.accessLevel = .vyattaCfg) (hmethod : s.method ≠ [])
    (huri : s.uri = confReqRoot ++ 47 :: rest) (hid : (47 : UInt8) ∉ id)
    (hrest : (∃ rel, rest = id ++ 47 :: rel) ∨ rest = id ∧ id.length ≤ npos) (hlive : Live buf s.user tag) :
    GoesOn s id buf (handle s s.uri s.method ⟨47 :: rest, id, tag, s.user⟩) := by
  obtain ⟨k, hlookup, hk⟩ := lookup_live hid hrest hlive s.method
  have huri' : s.request.get .reqUri = confReqRoot ++ 47 :: rest := huri
  have hmethod' : s.request.get .reqMethod ≠ [] := hmethod
  have hne : (confReqRoot ++ 47 :: rest).isEmpty = false := rfl
  rw [GoesOn, process, if_neg hauth]
  simp only [huri', hne, Bool.false_eq_true, if_false, haccess, ne_eq, not_true_eq_false, List.isEmpty_iff, hmethod']
  rw [if_neg (by rw [List.length_append]; omega), hlookup]
  refine ⟨_, rfl, ?_⟩
  rw [hk]
  rfl

theorem pathAfterId_rel (hid : (47 : UInt8) ∉ id) (rel : Str) : pathAfterId (47 :: (id ++ 47 :: rel)) = pure rel := by
  have hdrop : (47 :: (id ++ 47 :: rel)).drop (id.length + 2) = rel := by
    rw [List.drop_succ_cons, ← List.drop_drop, List.drop_left]
    rfl
  rw [pathAfterId, substrFrom_of_le (by rw [List.length_cons]; omega), ret_bind, List.drop_one, List.tail_cons, find_slash hid]
  simp only
  rw [substrFrom_of_le (by rw [List.length_cons, List.length_append, List.length_cons]; omega), hdrop]

theorem getNode_at (hid : (47 : UInt8) ∉ id) (ht : t.confPathWithId = 47 :: (id ++ 47 :: rel)) (huser : t.user = s.user) :
    getNode s t = nodeAt s t.id (withoutBlank rel) := by
  rw [getNode, if_neg (not_not.mpr huser), ht, pathAfterId_rel hid, ret_bind]
  rfl

theorem put_at (hid : (47 : UInt8) ∉ id) (ht : t.confPathWithId = 47 :: (id ++ 47 :: rel)) (huser : t.user = s.user) :
    put s t = editAt s t.id rel := by
  have hdrop : (47 :: (id ++ 47 :: rel)).drop (id.length + 2) = rel := by
    rw [List.drop_succ_cons, ← List.drop_drop, List.drop_left]
    rfl
  rw [put, if_neg (not_not.mpr huser), ht, List.isEmpty_cons, if_neg Bool.false_ne_true,
    substrFrom_of_le (by rw [List.length_cons]; omega), ret_bind,
    List.drop_one, List.tail_cons, find_slash hid]
  simp only
  rw [if_neg (by rw [List.length_cons, List.length_append, List.length_cons]; omega),
    substrFrom_of_le (by rw [List.length_cons, List.length_append, List.length_cons]; omega), hdrop, ret_bind, editAt]
  cases putCommand rel with
  | none => rfl
  | some cmd =>
    refine congrArg (Prog.bind _) (funext fun r => ?_)
    rw [putReply, apply_ite pure]

theorem action_at (hid : (47 : UInt8) ∉ id) (ht : t.confPathWithId = 47 :: (id ++ 47 :: rel)) (huser : t.user = s.user) :
    action s t = actionAt s t.id t.tag rel := by
  rw [action, actionAt, actionId, huser, ht]
  refine congrArg (Prog.bind _) (funext fun r => ?_)
  cases r with
  | none => rfl
  | some id' =>
    simp only
    rw [if_neg (not_not.mpr rfl), pathAfterId_rel hid, ret_bind]
    rfl

theorem post_at (hid : (47 : UInt8) ∉ id) (ht : t.confPathWithId = 47 :: (id ++ 47 :: rel)) (huser : t.user = s.user) :
    post s t = actionAt s t.id t.tag rel := by
  rw [post, ht, if_neg (List.cons_ne_nil _ _), substrFrom_of_le (by rw [List.length_cons]; omega), ret_bind, List.drop_one,
    List.tail_cons, find_slash hid, Option.isNone_some, if_neg Bool.false_ne_true, action_at hid ht huser]

/-- A GET without a path goes on with the id as the path. -/
theorem getNode_short (hid : (47 : UInt8) ∉ id) (ht : t.confPathWithId = 47 :: id) (huser : t.user = s.user) :
    getNode s t = nodeAt s t.id (withoutBlank id) := by
  rw [getNode, if_neg (not_not.mpr huser), ht, pathAfterId, substrFrom_of_le (by rw [List.length_cons]; omega), ret_bind,
    List.drop_one, List.tail_cons, find_no_slash hid]
  rfl

/-- A PUT without a path is refused. -/
theorem put_short (hid : (47 : UInt8) ∉ id) (ht : t.confPathWithId = 47 :: id) (huser : t.user = s.user) :
    put s t = pure (s.error .validationFailure) := by
  rw [put, if_neg (not_not.mpr huser), ht, List.isEmpty_cons, if_neg Bool.false_ne_true,
    substrFrom_of_le (by rw [List.length_cons]; omega), ret_bind,
    List.drop_one, List.tail_cons, find_no_slash hid]

/-- A POST without one makes a new session. -/
theorem post_short (hid : (47 : UInt8) ∉ id) (ht : t.confPathWithId = 47 :: id) (huser : t.user = s.user) :
    post s t = createAs s id := by
  rw [post, ht, if_neg (List.cons_ne_nil _ _), substrFrom_of_le (by rw [List.length_cons]; omega), ret_bind, List.drop_one,
    List.tail_cons, find_no_slash hid, Option.isNone_none, if_pos rfl, create, newDescription, ht, if_neg (List.cons_ne_nil _ _),
    substrFrom_of_le (by rw [List.length_cons]; omega), ret_bind, List.drop_one, List.tail_cons, huser]
  rfl

end Methods

/-- A URL with a path is taken apart into the id and the path; a GET goes on without a blank in front of it,
    and a POST looks an id up that is also the description. Without a `/` behind the id a PUT is refused, and
    a POST makes a session with the id as its description. -/
theorem conf_url {s : Session} (hauth : s.authType ≠ .none) (haccess : s.accessLevel = .vyattaCfg) {id : Str}
    (hid : (47 : UInt8) ∉ id) {buf tag : Str} (hlive : Live buf s.user tag) :
    (∀ segments, s.uri = pathUrl id segments →
      (s.method = str "GET" → GoesOn s id buf (nodeAt s id (withoutBlank (relative segments)))) ∧
      (s.method = str "PUT" → GoesOn s id buf (editAt s id (relative segments))) ∧
      (s.method = str "POST" → GoesOn s id buf (actionAt s id tag (relative segments)))) ∧
    (s.uri = sessionUrl id → id.length ≤ npos →
      (s.method = str "PUT" → GoesOn s id buf (pure (s.error .validationFailure))) ∧
      (s.method = str "POST" → GoesOn s id buf (createAs s id))) := by
  have hmethod : ∀ m : Str, m ≠ [] → s.method = m → s.method ≠ [] := fun m hm h => h ▸ hm
  constructor
  · intro segments huri
    have huri' : s.uri = confReqRoot ++ 47 :: (id ++ 47 :: relative segments) := by
      rw [huri, pathUrl, sessionUrl, List.append_assoc, List.append_assoc, List.append_assoc]
      rfl
    have hpath : s.uri ≠ confReqRoot := by
      rw [huri']
      exact fun h => List.cons_ne_nil _ _ (List.append_right_eq_self.mp h)
    have hgoes : s.method ≠ [] → GoesOn s id buf
        (handle s s.uri s.method ⟨47 :: (id ++ 47 :: relative segments), id, tag, s.user⟩) :=
      fun hm => process_live hauth haccess hm huri' hid (Or.inl ⟨_, rfl⟩) hlive
    refine ⟨fun h => ?_, fun h => ?_, fun h => ?_⟩
    · have hget := hgoes (hmethod _ (by decide) h)
      rw [handle, h, if_pos rfl, if_neg hpath, getNode_at hid rfl rfl] at hget
      exact hget
    · have hput := hgoes (hmethod _ (by decide) h)
      rw [handle, h, if_neg (by decide), if_pos rfl, put_at hid rfl rfl] at hput
      exact hput
    · have hpost := hgoes (hmethod _ (by decide) h)
      rw [handle, h, if_neg (by decide), if_neg (by decide), if_neg (by decide), if_pos rfl, post_at hid rfl rfl] at hpost
      exact hpost
  · intro huri hlen
    have huri' : s.uri = confReqRoot ++ 47 :: id := by
      rw [huri, sessionUrl, List.append_assoc]
      rfl
    have hgoes : s.method ≠ [] → GoesOn s id buf (handle s s.uri s.method ⟨47 :: id, id, tag, s.user⟩) :=
      fun hm => process_live hauth haccess hm huri' hid (Or.inr ⟨rfl, hlen⟩) hlive
    refine ⟨fun h => ?_, fun h => ?_⟩
    · have hput := hgoes (hmethod _ (by decide) h)
      rw [handle, h, if_neg (by decide), if_pos rfl, put_short hid rfl rfl] at hput
      exact hput
    · have hpost := hgoes (hmethod _ (by decide) h)
      rw [handle, h, if_neg (by decide), if_neg (by decide), if_neg (by decide), if_pos rfl, post_short hid rfl rfl] at hpost
      exact hpost

/-! ## A session without a path -/

section Sample

variable {s : Session} {id buf path path' : Str} {rest rest' : Act Session}

theorem GoesOn.unique (h : GoesOn s id buf rest) (h' : GoesOn s id buf rest') : rest = rest' := by
  obtain ⟨k, hk, rfl⟩ := h
  obtain ⟨k', hk', rfl⟩ := h'
  have heq := hk.symm.trans hk'
  injection heq with _ heq
  rw [heq]

/-- What configd is asked for first, on the connection of the session. -/
theorem nodeAt_asks (s : Session) (id path : Str) : ((nodeAt s id path).replay [⟨.configdOpen, true⟩, ⟨.opdOpen, true⟩,
    ⟨.configdSetSessionId (Configuration.convConfId id), ()⟩]).bind next? = some (.configdTmplValidatePath path) := by
  change (replay (.call Call.configdOpen fun _ => .call Call.opdOpen fun _ =>
    .call (Call.configdSetSessionId (Configuration.convConfId id)) fun _ => .call (Call.configdTmplValidatePath path) _) _).bind
      next? = _
  rw [replay, dif_pos rfl, replay, dif_pos rfl, replay, dif_pos rfl]
  rfl

theorem nodeAt_injective (h : nodeAt s id path = nodeAt s id path') : path = path' := by
  have hasks := nodeAt_asks s id path
  rw [h, nodeAt_asks] at hasks
  exact (Call.configdTmplValidatePath.inj (Option.some.inj hasks)).symm

def sampleId : Str := str "0123456789ABCDEF"

/-- A request of its owner. -/
def sampleRequest (method url : Str) : Session := confSession method url (str "admin")

def sampleFile : Str := str "admin/first"

theorem sampleFile_live : Live sampleFile (str "admin") (str "first") := ⟨5, by decide, by decide, by decide⟩

/-- A GET, a PUT and a POST of the owner. -/
theorem the_path_of_a_session :
    GoesOn (sampleRequest (str "GET") (pathUrl sampleId [str "system", str "login"])) sampleId sampleFile
      (nodeAt (sampleRequest (str "GET") (pathUrl sampleId [str "system", str "login"])) sampleId (str "system/login")) ∧
    GoesOn (sampleRequest (str "PUT") (pathUrl sampleId [str "set", str "system"])) sampleId sampleFile
      (editAt (sampleRequest (str "PUT") (pathUrl sampleId [str "set", str "system"])) sampleId (str "set/system")) ∧
    GoesOn (sampleRequest (str "POST") (pathUrl sampleId [str "commit"])) sampleId sampleFile
      (actionAt (sampleRequest (str "POST") (pathUrl sampleId [str "commit"])) sampleId (str "first") (str "commit")) := by
  have hauth : AuthType.vyattaSession ≠ .none := by decide
  have hid : (47 : UInt8) ∉ sampleId := by decide
  refine ⟨?_, ?_, ?_⟩
  · exact ((conf_url hauth rfl hid sampleFile_live).1 [str "system", str "login"] rfl).1 rfl
  · exact ((conf_url hauth rfl hid sampleFile_live).1 [str "set", str "system"] rfl).2.1 rfl
  · exact ((conf_url hauth rfl hid sampleFile_live).1 [str "commit"] rfl).2.2 rfl

/-- A PUT without a path is refused before the path, which is meant to be that of the root, is translated; a GET
    without one asks for a node with the name of the session instead of the root; and a GET does not ask for the
    node of a path that begins with a blank. -/
theorem without_a_slash :
    Live sampleFile (str "admin") (str "first") ∧
    ¬ GoesOn (sampleRequest (str "PUT") (sessionUrl sampleId)) sampleId sampleFile
      (editAt (sampleRequest (str "PUT") (sessionUrl sampleId)) sampleId (relative [])) ∧
    ¬ GoesOn (sampleRequest (str "GET") (sessionUrl sampleId)) sampleId sampleFile
      (nodeAt (sampleRequest (str "GET") (sessionUrl sampleId)) sampleId (relative [])) ∧
    ¬ GoesOn (sampleRequest (str "GET") (pathUrl sampleId [str " system"])) sampleId sampleFile
      (nodeAt (sampleRequest (str "GET") (pathUrl sampleId [str " system"])) sampleId (relative [str " system"])) := by
  have hauth : AuthType.vyattaSession ≠ .none := by decide
  have hid : (47 : UInt8) ∉ sampleId := by decide
  have hlen : sampleId.length ≤ npos := by decide
  refine ⟨sampleFile_live, fun h => ?_, fun h => ?_, fun h => ?_⟩
  · have hput := @process_live (sampleRequest (str "PUT") (sessionUrl sampleId)) sampleId sampleFile
      (str "first") sampleId hauth rfl
      (by decide) rfl hid (Or.inr ⟨rfl, hlen⟩) sampleFile_live
    have heq := (hput.unique h).symm
    have hcode := congrArg (fun p => (result? p).map fun s => s.response.get .respCode) heq
    revert hcode
    decide
  · have hget := @process_live (sampleRequest (str "GET") (sessionUrl sampleId)) sampleId sampleFile
      (str "first") sampleId hauth rfl
      (by decide) rfl hid (Or.inr ⟨rfl, hlen⟩) sampleFile_live
    have hmethod : (sampleRequest (str "GET") (sessionUrl sampleId)).method = str "GET" := rfl
    rw [handle, if_pos hmethod, if_neg (by decide), getNode_short hid rfl rfl] at hget
    exact absurd (nodeAt_injective (hget.unique h)) (by decide)
  · have hget := @process_live (sampleRequest (str "GET") (pathUrl sampleId [str " system"])) sampleId sampleFile (str "first")
      (sampleId ++ 47 :: str " system") hauth rfl (by decide) rfl hid (Or.inl ⟨_, rfl⟩) sampleFile_live
    have hmethod : (sampleRequest (str "GET") (pathUrl sampleId [str " system"])).method = str "GET" := rfl
    rw [handle, if_pos hmethod, if_neg (by decide), getNode_at hid rfl rfl] at hget
    exact absurd (nodeAt_injective (hget.unique h)) (by decide)

end Sample

end VyattaRest.Server.ConfMode
