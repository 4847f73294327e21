/-
  VyattaRest.Server.ServiceIndex — the list of services (servicemode.cc).

  The loop of `service_index` asks for the template of each service and goes to the next one
  after it has added the service. Where there is no template it does not, and asks for that
  template again.
  - `index_iff`: the request is answered with the services that have a template, in order,
    exactly when all of them have one.
  - `asked_again`: for as long as configd has no template the loop asks for it.
  - `a_service_without_a_template`.
-/

import VyattaRest.Server.AppMode

namespace VyattaRest.Server.ServiceMode

open VyattaRest.Lib VyattaRest.Rest

/-! ## The list that is meant -/

section Index

variable (answer : (c : Call) → c.Answer)

/-- What `get_operational_node` returns. -/
def services : List NodeParams :=
  ((Configuration.getOperationalNode serviceCommandDir {}).run answer).elim [] TemplateParams.childrenColl

def templatePath (np : NodeParams) : Str := serviceCommandDir ++ str "/" ++ np.name

/-- What `get_template_node` finds for a service. -/
def template (np : NodeParams) : Option TemplateParams := ((Configuration.getTemplateNode (templatePath np) {}).run answer).join

def serviceText (np : NodeParams) (p : TemplateParams) : Str :=
  str "\x7b\"id\":\"" ++ np.name ++ str "\",\"description\":\"" ++ p.help ++ str "\"\x7d"

/-- The object that lists these services. -/
def listing : List Str → Json
  | [] => Json.empty
  | text :: texts => { array := OrdMap.empty.insert (str "services") (text :: texts), value := OrdMap.empty }

/-- The services that have a template. -/
def found (nps : List NodeParams) : List Str := nps.filterMap fun np => (template answer np).map (serviceText np)

/-- After some number of rounds the loop is through, and the response lists the services that have a template. -/
def Indexes (s : Session) : Prop :=
  ∃ rounds, (serviceIndex rounds s).run answer = some (s.setResponse .body (listing (found answer (services answer))).serialize)

end Index

/-! ## The loop -/

section Loop

variable {answer : (c : Call) → c.Answer} {np : NodeParams} {nps : List NodeParams}

theorem listing_add (texts : List Str) (np : NodeParams) (p : TemplateParams) :
    (listing texts).addArray (str "services") (serviceText np p) true = listing (texts ++ [serviceText np p]) := by
  cases texts with
  | nil => rfl
  | cons text texts => rfl

theorem getTemplateNode_returns (answer : (c : Call) → c.Answer) (cpath : Str) (p : TemplateParams) :
    ∃ r, (Configuration.getTemplateNode cpath p).run answer = some r := by
  have hok : ∀ c : Call, c.isQuery = true → (fun _ : Call => True) c := fun _ _ => trivial
  have henv : ∀ c : Call, (fun (c : Call) (a : c.Answer) => a = answer c) c (answer c) := fun _ => rfl
  obtain ⟨r, hr, -⟩ := Prog.run_of_wp henv (@Configuration.getTemplateNode_wp _ _ False hok cpath p)
  exact ⟨r, hr⟩

/-- A round goes on to the next service, or stays at one that has no template. -/
theorem serviceRows_cons (rounds : Nat) (json : Json) : (serviceRows (rounds + 1) (np :: nps) json).run answer =
    ((template answer np).elim (serviceRows rounds (np :: nps) json) fun p =>
      serviceRows rounds nps (json.addArray (str "services") (serviceText np p) true)).run answer := by
  obtain ⟨r, hr⟩ := getTemplateNode_returns answer (templatePath np) {}
  have htemplate : template answer np = r := by
    rw [template, hr]
    rfl
  rw [serviceRows, Prog.run_bind, htemplate]
  change (((Configuration.getTemplateNode (templatePath np) {}).run answer).bind _) = _
  rw [hr]
  cases r <;> rfl

theorem serviceRows_found {p : TemplateParams} (rounds : Nat) (json : Json) (hp : template answer np = some p) :
    (serviceRows (rounds + 1) (np :: nps) json).run answer =
      (serviceRows rounds nps (json.addArray (str "services") (serviceText np p) true)).run answer := by
  rw [serviceRows_cons, hp]
  rfl

theorem serviceRows_again (rounds : Nat) (json : Json) (hp : template answer np = none) :
    (serviceRows (rounds + 1) (np :: nps) json).run answer = (serviceRows rounds (np :: nps) json).run answer := by
  rw [serviceRows_cons, hp]
  rfl

/-- The loop stays at a service that has no template. -/
theorem serviceRows_stuck (json : Json) (hp : template answer np = none) :
    ∀ rounds, (serviceRows rounds (np :: nps) json).run answer = none := by
  intro rounds
  induction rounds with
  | zero => rfl
  | succ rounds ih => rw [serviceRows_again rounds json hp, ih]

theorem serviceRows_all (h : ∀ np ∈ nps, (template answer np).isSome) : ∀ texts, ∃ rounds,
    (serviceRows rounds nps (listing texts)).run answer = some (listing (texts ++ found answer nps)) := by
  induction nps with
  | nil =>
    intro texts
    refine ⟨0, ?_⟩
    rw [found, List.filterMap_nil, List.append_nil]
    rfl
  | cons np nps ih =>
    intro texts
    obtain ⟨p, hp⟩ := Option.isSome_iff_exists.mp (h np List.mem_cons_self)
    obtain ⟨rounds, hrounds⟩ := ih (fun np' hnp' => h np' (List.mem_cons_of_mem _ hnp')) (texts ++ [serviceText np p])
    have hfound : found answer (np :: nps) = serviceText np p :: found answer nps := by
      rw [found, List.filterMap_cons, hp]
      rfl
    refine ⟨rounds + 1, ?_⟩
    rw [serviceRows_found rounds _ hp, listing_add, hrounds, hfound, List.append_assoc]
    rfl

/-- It is through only if it has been at every service. -/
theorem template_of_through : ∀ (rounds : Nat) {nps : List NodeParams} {json json' : Json},
    (serviceRows rounds nps json).run answer = some json' → ∀ np ∈ nps, (template answer np).isSome := by
  intro rounds
  induction rounds with
  | zero =>
    intro nps json json' h np hnp
    cases nps with
    | nil => cases hnp
    | cons _ _ => cases h
  | succ rounds ih =>
    intro nps json json' h
    cases nps with
    | nil => exact fun np hnp => by cases hnp
    | cons np nps =>
      have hnp : (template answer np).isSome := by
        by_contra hno
        rw [serviceRows_stuck json (Option.not_isSome_iff_eq_none.mp hno)] at h
        cases h
      obtain ⟨p, hp⟩ := Option.isSome_iff_exists.mp hnp
      rw [serviceRows_found rounds json hp] at h
      exact List.forall_mem_cons.mpr ⟨hnp, ih h⟩

theorem opTemplateEntries_wp {env : (c : Call) → c.Answer → Prop} : ∀ (entries : List Str) (cpath : Str) (p : TemplateParams),
    (Configuration.opTemplateEntries entries cpath p).wp env (fun _ => True) False fun _ => True := by
  intro entries
  induction entries with
  | nil => exact fun _ _ => trivial
  | cons entry rest ih =>
    intro cpath p
    rw [Configuration.opTemplateEntries]
    split
    · exact ih _ _
    · refine (Prog.wp_ite _ _ _).mpr ⟨fun _ => ih _ _, fun _ => (Prog.wp_ite _ _ _).mpr ⟨fun _ => ?_, fun _ => ?_⟩⟩
      · exact (wp_then _ _ _).mpr ⟨trivial, fun allowed _ => ih _ _⟩
      · exact (Prog.wp_ite _ _ _).mpr ⟨fun _ => ih _ _, fun _ => ih _ _⟩

theorem getOperationalNode_wp {env : (c : Call) → c.Answer → Prop} (path : Str) (p : TemplateParams) :
    (Configuration.getOperationalNode path p).wp env (fun _ => True) False fun _ => True := by
  refine (wp_then _ _ _).mpr ⟨trivial, fun tmpl _ => ?_⟩
  cases tmpl with
  | none =>
    refine (wp_then _ _ _).mpr ⟨trivial, fun children _ => ?_⟩
    exact (Prog.wp_ite _ _ _).mpr ⟨fun _ => trivial, fun _ => trivial⟩
  | some entries =>
    refine (Prog.wp_bind _ _ _).mpr (Prog.wp_mono (opTemplateEntries_wp entries _ p) fun _ _ => ?_)
    refine (wp_then _ _ _).mpr ⟨trivial, fun children _ => ?_⟩
    exact (Prog.wp_ite _ _ _).mpr ⟨fun _ => trivial, fun _ => trivial⟩

theorem serviceIndex_run (rounds : Nat) (s : Session) : (serviceIndex rounds s).run answer =
    ((serviceRows rounds (services answer) Json.empty).run answer).map fun json => s.setResponse .body json.serialize := by
  have hreturns : ∃ q, (Configuration.getOperationalNode serviceCommandDir {}).run answer = some q ∧ True :=
    Prog.run_of_wp (fun _ => trivial) (@getOperationalNode_wp (fun _ _ => True) serviceCommandDir {})
  obtain ⟨q, hq, -⟩ := hreturns
  have hservices : services answer = q.childrenColl := by
    rw [services, hq]
    rfl
  rw [hservices]
  change (((Configuration.getOperationalNode serviceCommandDir {} >>= fun params =>
    serviceRows rounds params.childrenColl Json.empty >>= fun json => pure (s.setResponse .body json.serialize)) >>= _).run
      answer) = _
  rw [Prog.run_bind, Prog.run_bind, hq, Option.bind_some, Prog.run_bind]
  rcases (serviceRows rounds q.childrenColl Json.empty).run answer with _ | json
  · rfl
  · rfl

end Loop

/-- The list comes, and has the services that have a template, exactly if there is no service without one. -/
theorem index_iff (answer : (c : Call) → c.Answer) (s : Session) :
    Indexes answer s ↔ ∀ np ∈ services answer, (template answer np).isSome := by
  constructor
  · rintro ⟨rounds, h⟩
    rw [serviceIndex_run] at h
    obtain ⟨json, hjson, -⟩ := Option.map_eq_some_iff.mp h
    exact template_of_through rounds hjson
  · intro h
    obtain ⟨rounds, hrounds⟩ := serviceRows_all h []
    refine ⟨rounds, ?_⟩
    rw [serviceIndex_run]
    exact Option.map_eq_some_iff.mpr ⟨_, hrounds, rfl⟩

/-- While configd does not know the template, whatever else it answers, the loop does nothing but ask for it. -/
theorem asked_again {env : (c : Call) → c.Answer → Prop} (np : NodeParams) (nps : List NodeParams) (json : Json)
    (h : env (.configdTmplValidatePath (templatePath np)) false) (rounds : Nat) : ∀ n,
      Prog.Exec env (serviceRows (rounds + n) (np :: nps) json)
        (List.replicate n ⟨.configdTmplValidatePath (templatePath np), false⟩) (serviceRows rounds (np :: nps) json) := by
  intro n
  induction n with
  | zero => exact .nil _
  | succ n ih =>
    rw [List.replicate_succ]
    exact .cons h ih

/-- opd has one service; beyond that nothing is there and nothing works. -/
def sampleAnswer : (c : Call) → c.Answer
  | .opdChildren _ => [str "https"]
  | .sessionLines | .configdTmplGetChildren _ | .configdTmplGetAllowed _ | .configdNodeGet _ _ | .configdAuthGetperms
  | .opdAllowed _ | .opdGetperms | .generateToken | .jsonDumps _ => []
  | .getpwnam _ | .getgrouplist _ _ | .getgrgid _ | .fgets _ | .readdir _ | .stat _ | .popen _ | .recv | .lstat _ | .fread _ _
  | .configdTmplGet _ | .opdTmpl _ => none
  | .setgroups _ | .setegid _ | .seteuid _ | .setloginuid _ | .setuid _ | .setgid _ | .pamStart _ _ _ | .pamAuthenticate
  | .pamAcctMgmt | .pamEnd | .lock | .fputsSession _ | .fopenWrite _ | .fputs _ _ | .unlink _ | .connect | .send _ | .configdOpen
  | .configdSessSetup | .configdSessTeardown | .configdSessChanged | .configdDiscard | .configdTmplValidatePath _
  | .configdNodeExists _ _ | .opdOpen | .opdExpand _ => false
  | .unlock | .configdClose | .configdSetSessionId _ | .opdClose => ()
  | .gettimeofday | .uninitialized => 0
  | .errno => 0
  | .base64Decode _ => ([], 0)
  | .systemOut _ => (0, [])
  | .configdCommit | .configdSave => .error []
  | .configdNodeGetType _ => .error
  | .configdNodeGetStatus _ => .error

/-- The request for the services is never answered, not even with an empty list. -/
theorem a_service_without_a_template : services sampleAnswer = [{ name := str "https", state := .active }] ∧
    (∀ s, ¬ Indexes sampleAnswer s) ∧ ∀ rounds s, (serviceIndex rounds s).run sampleAnswer = none := by
  have hservices : services sampleAnswer = [{ name := str "https", state := .active }] := rfl
  have hnone : ∀ rounds s, (serviceIndex rounds s).run sampleAnswer = none := by
    intro rounds s
    rw [serviceIndex_run, hservices, serviceRows_stuck _ rfl]
    rfl
  refine ⟨hservices, ?_, hnone⟩
  rintro s ⟨rounds, h⟩
  rw [hnone] at h
  cases h

end VyattaRest.Server.ServiceMode
