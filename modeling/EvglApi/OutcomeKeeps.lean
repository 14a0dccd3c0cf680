/-
# Workers leave what is agreed on

The program of a worker once more, statement by statement: the worker makes progress through
the targets of its job and concludes with the status they add up to.
-/
import EvglApi.OutcomeSteps

open Concurrency Mvcc

namespace Service

variable {env : Deployment} {calm : Prop} {w w' : World} {r : Role} {j : Uuid} {α : Type}

/-! ## Rules -/

namespace Adds

variable {D : Discipline (service env)} {X : Extension D} {Q : α → World → Prop}
  {E : ApiError → World → Prop}

/-- A statement of the database fails as the draw says, or is executed. -/
theorem query {k : Query α} (hallows : X.allows r (.query k))
    (h : ∀ w', X.Finds r w w' → D.needs r (.query k) w' →
      (∀ x text, x.fails = some text → X.assume r (.query k) x w' →
        E (.ofDb (.failure text)) w') ∧
      ∀ x a w'', X.assume r (.query k) x w' → k.exec x w' = some (a, w'') → D.inv w'' →
        either Q E (a.mapError .ofDb) w'') :
    Adds X r (Api.query k) Q E w := by
  refine Adds.attempt hallows fun w' hfinds hneeds x a w'' hassume hstep hinv => ?_
  obtain ⟨hfails, hexec⟩ := h w' hfinds hneeds
  change Stmt.exec (.query k) x w' = some (a, w'') at hstep
  rcases Stmt.exec_query hstep with ⟨text, hx, rfl, rfl⟩ | ⟨-, hstep⟩
  · exact hfails x text hx hassume
  · exact hexec x a w'' hassume hstep hinv

theorem rollbackOnError {n : ℕ} {p : Api α}
    (h : Adds X r p Q (fun e => X.wp r (.step (.rollback n) fun _ => .pure (.error e)) (either Q E))
      w) : Adds X r (Api.rollbackOnError n p) Q E w := by
  show X.wp r (p.run.bind _) (either Q E) w
  refine Extension.wp_bind (Extension.wp_mono (fun a w h => ?_) h)
  cases a with
  | ok a => exact h
  | error e => exact h

theorem spawn {r' : Role} {child : Prog Stmt Role Outcome Outcome} {Q : Unit → World → Prop}
    (h : ∀ w', X.Finds r w w' → ¬ D.taken w' r' → D.inv (w'.enter r') →
      X.wp r' child (X.post r') (w'.enter r') ∧ Q () (w'.enter r')) :
    Adds X r (Api.spawn r' child) Q E w := h

end Adds

/-! ## Workers -/

/-- A worker that was spared has left nothing open when it returns with an error. -/
def settles (calm : Prop) (j : Uuid) (_ : ApiError) (w : World) : Prop := calm → Settled w j

section Worker

variable {Q : α → World → Prop}

/-- A query whose failure a worker does not get over. -/
theorem adds_query {k : Query α} (habides : Abides (.worker j) (.query k))
    (hspared : ∀ x w, (Stmt.query k).spared env x w = true → x.fails = none)
    (h : ∀ w', (outcomes env calm).Finds (.worker j) w w' → Needs env (.worker j) (.query k) w' →
      ∀ x a w'', (calm → (Stmt.query k).spared env x w' = true) → k.exec x w' = some (a, w'') →
        Inv env w'' → either Q (settles calm j) (a.mapError .ofDb) w'') :
    Adds (outcomes env calm) (.worker j) (Api.query k) Q (settles calm j) w := by
  refine Adds.query habides fun w' hfinds hneeds => ⟨fun x text hfails hassume hcalm => ?_, ?_⟩
  · rw [hspared x w' (hassume hcalm)] at hfails
    cases hfails
  · exact fun x a w'' hassume hexec hinv => h w' hfinds hneeds x a w'' hassume hexec hinv

theorem fails_of_isNone {x : Draw} (h : x.fails.isNone = true) : x.fails = none :=
  Option.isNone_iff_eq_none.mp h

theorem adds_emit {job : JobRow} {P : World → Prop} (hP : Stable (.worker job.id) P) (h : P w)
    {provider : Option ProviderKind} {status : PublicationStatus} {attempt : ℕ} {message : String}
    {publication : Option Publication} {E : ApiError → World → Prop} :
    Adds (outcomes env calm) (.worker job.id)
      (emit job provider status attempt message publication) (fun _ => P) E w := by
  refine Adds.stmt rfl fun w' hfinds _ x u w'' _ hstep _ => ?_
  obtain ⟨-, rfl⟩ := Prod.mk.inj (Option.some.inj hstep)
  have hquiet := quiet_log (e := .emitted
    { jobId := job.id, eventId := job.eventId, provider, status, attempt, message
      occurredAt := x.now, publication }) hfinds.inv rfl rfl
  exact hP _ _ (hquiet.rely _) (hP _ _ hfinds.rely h)

variable {job : JobRow} {t : Uuid} {rest : List Uuid} {status : PublicationStatus}

/-- A target that fails is through. -/
theorem adds_failTarget (h : Progress calm job.id none (t :: rest) w)
    {provider : Option ProviderKind} {attempt : ℕ} {why : TargetFailure} :
    Adds (outcomes env calm) (.worker job.id) (failTarget job t provider attempt why)
      (fun _ => Progress calm job.id none rest) (settles calm job.id) w := by
  refine Adds.bind (adds_query trivial (fun _ _ => fails_of_isNone) ?_)
  intro w' hfinds _ x u w'' _ hstep _
  obtain ⟨rfl, rfl⟩ := Prod.mk.inj (Option.some.inj hstep)
  have h' := stable_progress none (t :: rest) _ _ hfinds.rely h
  refine adds_emit (stable_progress none rest) ?_
  exact h'.fail hfinds.inv hfinds.taken (fun _ => rfl) fun _ => rfl

theorem adds_targetRunning (h : Progress calm j none (t :: rest) w) (attempt : ℕ) :
    Adds (outcomes env calm) (.worker j) (Store.targetRunning t attempt)
      (fun _ => Progress calm j none (t :: rest)) (settles calm j) w := by
  refine adds_query trivial (fun _ _ => fails_of_isNone) ?_
  intro w' hfinds _ x u w'' _ hstep _
  obtain ⟨rfl, rfl⟩ := Prod.mk.inj (Option.some.inj hstep)
  exact (stable_progress none (t :: rest) _ _ hfinds.rely h).attempt hfinds.inv hfinds.taken
    fun _ => rfl

/-- The answer that was due is stored, and the target is through. -/
theorem adds_targetComplete (h : Progress calm j (some (t, status)) (t :: rest) w)
    (value : Value) :
    Adds (outcomes env calm) (.worker j) (Store.targetComplete t status value)
      (fun _ => Progress calm j none rest) (settles calm j) w := by
  refine adds_query trivial (fun _ _ => fails_of_isNone) ?_
  intro w' hfinds _ x u w'' _ hstep _
  obtain ⟨rfl, rfl⟩ := Prod.mk.inj (Option.some.inj hstep)
  have h' := stable_progress (some (t, status)) (t :: rest) _ _ hfinds.rely h
  exact h'.complete hfinds.inv hfinds.taken (fun _ => rfl) fun _ => rfl

/-- What a call leaves behind: its answer is due, and it encodes if the worker is spared. -/
def Answer (env : Deployment) (calm : Prop) (j t : Uuid) (rest : List Uuid) :
    Except ProviderError Publication → World → Prop
  | .ok p, w => Progress calm j (some (t, p.status)) (t :: rest) w ∧
      (calm → (env.publicationToValue p).isOk = true)
  | .error _, w => Progress calm j none (t :: rest) w

/-- The answer of an adapter is due to be stored. -/
theorem adds_publish {call : PublishCall} (hjob : call.target.jobId = j)
    (h : Progress calm j none (call.target.id :: rest) w) {E : ApiError → World → Prop} :
    Adds (outcomes env calm) (.worker j) (Tries.stmt (.publish call))
      (Answer env calm j call.target.id rest) E w := by
  refine Adds.stmt trivial fun w' hfinds _ x answer w'' hassume hstep _ => ?_
  have hclosing : calm → closing env x.publication = true := hassume
  obtain ⟨rfl, rfl⟩ := Prod.mk.inj (Option.some.inj hstep)
  have h' := stable_progress none _ _ _ hfinds.rely h
  generalize x.publication = answer at hclosing ⊢
  cases answer with
  | error e =>
      refine h'.log fun _ _ heq => ?_
      cases heq
  | ok p =>
      have hboth : calm → _ ∧ _ := fun hcalm => Bool.and_eq_true_iff.mp (hclosing hcalm)
      exact ⟨h'.answer hjob fun hcalm => of_decide_eq_true (hboth hcalm).2,
        fun hcalm => (hboth hcalm).1⟩

/-- The loop over the attempts. -/
theorem adds_publishLoop {call : PublishCall} (hjob : call.target.jobId = job.id)
    (attempts : List ℕ) (a : ℕ) (h : Progress calm job.id none (call.target.id :: rest) w) :
    Adds (outcomes env calm) (.worker job.id) (publishLoop env job call a attempts)
      (fun _ => Progress calm job.id none rest) (settles calm job.id) w := by
  induction attempts generalizing w a with
  | nil => exact adds_failTarget h
  | cons attempt attempts ih =>
      unfold publishLoop
      refine Adds.andThen (adds_targetRunning h attempt) fun _ w h => ?_
      refine Adds.andThen (adds_emit (stable_progress none _) h) fun _ w h => ?_
      refine Adds.andThen (adds_publish hjob h) fun answer w h => ?_
      cases answer with
      | ok p =>
          obtain ⟨h, hencodes⟩ := h
          refine Adds.bind (Adds.result (fun value _ => ?_) fun e he hcalm => ?_)
          · refine Adds.andThen (adds_targetComplete h value) fun _ w h => ?_
            exact adds_emit (stable_progress none rest) h
          -- a publication that the worker cannot encode ends the loop, which `calm` excludes
          · obtain ⟨e', he', -⟩ := Fallible.mapError_eq_error.mp he
            have hok := hencodes hcalm
            rw [he'] at hok
            cases hok
      | error error =>
          show Adds _ _ (if _ then _ else _) _ _ _
          split
          · refine Adds.andThen (adds_emit (stable_progress none _) h) fun _ w h => ?_
            exact ih attempt h
          · exact adds_failTarget h

/-- The connection is looked up; a failure does not matter. -/
theorem adds_getConnection {P : World → Prop} (hP : Stable (.worker j) P) (h : P w)
    (userId id : Uuid) :
    Adds (outcomes env calm) (.worker j) (Store.getConnection userId id) (fun _ => P)
      (fun _ => P) w := by
  have hread : Adds (outcomes env calm) (.worker j) (Api.query (.selectConnection id userId))
      (fun _ => P) (fun _ => P) w := by
    refine Adds.query trivial fun w' hfinds _ => ?_
    have h' := hP _ _ hfinds.rely h
    refine ⟨fun _ _ _ _ => h', fun x a w'' _ hstep _ => ?_⟩
    obtain ⟨rfl, rfl⟩ := Prod.mk.inj (Option.some.inj hstep)
    exact h'
  refine Adds.andThen hread fun answer w h => ?_
  cases answer with
  | none => exact Adds.throw h
  | some connection => exact Adds.pure h

/-- The turn of one target. -/
theorem adds_processTarget {event : EventDraft} {target : TargetRow}
    (hjob : target.jobId = job.id) (h : Progress calm job.id none (target.id :: rest) w) :
    Adds (outcomes env calm) (.worker job.id) (processTarget env job event target)
      (fun _ => Progress calm job.id none rest) (settles calm job.id) w := by
  unfold processTarget
  rw [if_neg (not_not.mpr hjob)]
  cases env.fromStr target.provider with
  | error error => exact adds_failTarget h
  | ok provider =>
      refine Adds.bind (Adds.caught ?_)
      refine (adds_getConnection (stable_progress none _) h job.userId target.connectionId).mono
        (fun connection w h => ?_) fun e w h => adds_failTarget h
      show Adds _ _ (if _ then _ else _) _ _ _
      split
      · exact adds_failTarget h
      · cases env.decrypt connection.aad connection.tokenEnvelope with
        | error error => exact adds_failTarget h
        | ok tokens => exact adds_publishLoop hjob [1, 2, 3] 0 h

/-- The loop over the targets. -/
theorem adds_processTargets {event : EventDraft} (targets : List TargetRow)
    (hjob : ∀ t ∈ targets, t.jobId = job.id)
    (h : Progress calm job.id none (targets.map fun t => t.id) w) :
    Adds (outcomes env calm) (.worker job.id) (processTargets env job event targets)
      (fun _ => Progress calm job.id none []) (settles calm job.id) w := by
  induction targets generalizing w with
  | nil => exact Adds.pure h
  | cons t targets ih =>
      refine Adds.andThen (adds_processTarget (hjob t List.mem_cons_self) h) fun _ w h => ?_
      exact ih (fun t ht => hjob t (List.mem_cons_of_mem _ ht)) h

/-! ### The beginning -/

/-- Nothing has been recorded about the job. -/
def Untouched (j : Uuid) (w : World) : Prop := ∀ e ∈ w.trace, e.job ≠ some j

theorem stable_untouched : Stable (.worker j) (Untouched j) :=
  fun _ _ hrely h e he hjob => h e (hrely.traced e hjob he) hjob

/-- The event is found, and reads as one if the worker is spared. -/
theorem adds_getEvent (h : Untouched j w) (userId eventId : Uuid) :
    Adds (outcomes env calm) (.worker j) (Store.getEvent env userId eventId)
      (fun _ => Untouched j) (settles calm j) w := by
  have hread : Adds (outcomes env calm) (.worker j)
      (Api.query (.selectEventDocument eventId userId))
      (fun answer w => Untouched j w ∧
        (calm → ∃ document, answer = some document ∧ (env.eventFromValue document).isOk = true))
      (settles calm j) w := by
    refine adds_query trivial (fun x w h => fails_of_isNone (Bool.and_eq_true_iff.mp h).1) ?_
    intro w' hfinds hneeds x a w'' hspared hstep _
    obtain ⟨rfl, rfl⟩ := Prod.mk.inj (Option.some.inj hstep)
    refine ⟨stable_untouched _ _ hfinds.rely h, fun hcalm => ?_⟩
    -- the event of the job is still there, and it belongs to the owner of the job
    obtain ⟨e, he, hid, howner⟩ := hneeds
    obtain ⟨e', hfind, -⟩ := Keyed.exists_found
      (p := fun e : EventRow => e.id = eventId ∧ e.ownerId = userId) he ⟨hid, howner⟩
    have hreads := (Bool.and_eq_true_iff.mp (hspared hcalm)).2
    rw [hfind] at hreads ⊢
    exact ⟨e'.document, rfl, hreads⟩
  refine Adds.andThen hread fun answer w h => ?_
  obtain ⟨huntouched, hreads⟩ := h
  cases answer with
  | none =>
      refine Adds.throw fun hcalm => ?_
      obtain ⟨document, hnone, -⟩ := hreads hcalm
      cases hnone
  | some document =>
      refine Adds.result (fun _ _ => huntouched) fun e he hcalm => ?_
      obtain ⟨document', hsome, hok⟩ := hreads hcalm
      obtain rfl := Option.some.inj hsome
      obtain ⟨e', he', -⟩ := Fallible.mapError_eq_error.mp he
      rw [he'] at hok
      cases hok

/-- The job is running. -/
def Running (j : Uuid) (w : World) : Prop :=
  ∃ v ∈ w.jobs, v.row.id = j ∧ v.committed = true ∧ v.row.status = "running"

theorem stable_running : Stable (.worker j) (Running j) := by
  intro w w' hrely h
  obtain ⟨v, hv, hid, hrest⟩ := h
  exact ⟨v, (hrely.jobs v hid).mpr hv, hid, hrest⟩

/-- The targets of a running job are not selected in vain, if the worker is spared. -/
theorem Running.fails_eq_none (h : Running j w) {x : Draw}
    (hspared : (Stmt.query (.selectTargets j)).spared env x w = true) : x.fails = none := by
  obtain ⟨v, hv, hid, hc, hstatus⟩ := h
  rcases Bool.or_eq_true_iff.mp hspared with hnone | hover
  · exact fails_of_isNone hnone
  · have hall := List.all_eq_true.mp hover v.row (Table.mem_rows_none.mpr ⟨v, hv, hc, rfl⟩)
    have hterminal : Terminal v.row.status := of_decide_eq_true hall hid
    rw [hstatus] at hterminal
    exact absurd (Or.inr rfl) hterminal.not_inProgress

/-- All targets of an untouched job are still to come. -/
theorem progress_claimed (h : Untouched j w) (hinv : Inv env w) (htaken : j ∈ w.workers) :
    Progress calm j none ((claimed w j).map fun t => t.id) w := by
  have hnone : ∀ {t s}, ¬ w.Reported j t s := by
    rintro t s ⟨call, fields, hmem, hjob, -⟩
    exact h _ hmem (congrArg some hjob)
  refine ⟨fun v hv hjob => Or.inl (List.mem_map.mpr ⟨v.row, mem_claimed.mpr ⟨hjob, v, hv, ?_, rfl⟩,
    rfl⟩), fun _ _ hreport => absurd hreport hnone, nofun, fun i hi => ?_, nodup_claimed hinv j,
    fun _ _ _ hreport => absurd hreport hnone⟩
  · exact hinv.target_committed_of_worker hv (hjob.symm ▸ htaken)
  · obtain ⟨t, ht, rfl⟩ := List.mem_map.mp hi
    obtain ⟨hjob, v, hv, -, rfl⟩ := mem_claimed.mp ht
    exact ⟨v, hv, rfl, hjob⟩

/-- All targets of the job are ahead when the worker starts. -/
theorem adds_claimTargets (h : Untouched j w) :
    Adds (outcomes env calm) (.worker j) (Store.claimTargets j)
      (fun targets w => (∀ t ∈ targets, t.jobId = j) ∧
        Progress calm j none (targets.map fun t => t.id) w) (settles calm j) w := by
  have hstart : Adds (outcomes env calm) (.worker j) (Api.query (.updateJobRunning j))
      (fun _ w => Untouched j w ∧ Running j w) (settles calm j) w := by
    refine adds_query trivial (fun _ _ => fails_of_isNone) ?_
    intro w' hfinds _ x a w'' _ hstep _
    obtain ⟨rfl, rfl⟩ := Prod.mk.inj (Option.some.inj hstep)
    have h' := stable_untouched _ _ hfinds.rely h
    refine ⟨h', ?_⟩
    obtain ⟨v, hv, hid, hc, row, hrow⟩ := exists_updateJob hfinds.inv hfinds.taken
      (f := fun j => { j with status := "running", updatedAt := x.now }) fun _ => rfl
    exact ⟨v, hv, hid, hc, hrow ▸ rfl⟩
  refine Adds.andThen hstart fun _ w h => ?_
  obtain ⟨huntouched, hrunning⟩ := h
  refine Adds.query trivial fun w' hfinds _ => ⟨fun x text hfails hassume hcalm => ?_, ?_⟩
  · have hrunning' := stable_running _ _ hfinds.rely hrunning
    rw [hrunning'.fails_eq_none (hassume hcalm)] at hfails
    cases hfails
  · intro x a w'' _ hstep _
    obtain ⟨rfl, rfl⟩ := Prod.mk.inj (Option.some.inj hstep)
    refine ⟨fun t ht => (mem_claimed.mp ht).1, ?_⟩
    exact progress_claimed (stable_untouched _ _ hfinds.rely huntouched) hfinds.inv hfinds.taken

/-! ### The end -/

theorem adds_countTargets {P : World → Prop} (hP : Stable (.worker j) P) (h : P w)
    (name : String) :
    Adds (outcomes env calm) (.worker j) (Api.query (.countTargets j name))
      (fun count w => (0 < count ↔ w.HasTarget j name) ∧ P w) (settles calm j) w := by
  refine adds_query trivial (fun _ _ => fails_of_isNone) ?_
  intro w' hfinds _ x a w'' _ hstep _
  obtain ⟨rfl, rfl⟩ := Prod.mk.inj (Option.some.inj hstep)
  exact ⟨countP_pos_iff_hasTarget hfinds.inv hfinds.taken name, hP _ _ hfinds.rely h⟩

theorem stable_count (count : ℕ) (name : String) :
    Stable (.worker j) fun w => 0 < count ↔ w.HasTarget j name := by
  intro w w' hrely h
  have hrely : RelyWorker j w w' := hrely
  rw [hrely.hasTarget_iff]
  exact h

/-- The two counts are those of the stored rows, since nobody else changes them. -/
theorem adds_finishJob (h : Progress calm j none [] w) :
    Adds (outcomes env calm) (.worker j) (Store.finishJob j) (fun _ => Concluded calm j)
      (settles calm j) w := by
  have hstable : Stable (.worker j) (Progress calm j none []) := stable_progress none []
  refine Adds.andThen (adds_countTargets hstable h "failed") fun failures w h => ?_
  have hstable' := (stable_count failures "failed").and hstable
  refine Adds.andThen (adds_countTargets hstable' h "action_required") fun actions w h => ?_
  have hstable'' := (stable_count actions "action_required").and hstable'
  refine adds_query trivial (fun _ _ => fails_of_isNone) ?_
  intro w' hfinds _ x a w'' _ hstep _
  obtain ⟨rfl, rfl⟩ := Prod.mk.inj (Option.some.inj hstep)
  obtain ⟨hactions, hfailures, hprogress⟩ := hstable'' _ _ hfinds.rely h
  exact hprogress.conclude hfinds.inv hfinds.taken (tally_summary hfailures hactions)
    (fun _ => rfl) fun _ => rfl

/-- The job that is found again has the stored status. -/
theorem adds_getJob (h : Concluded calm j w) (userId : Uuid) :
    Adds (outcomes env calm) (.worker j) (Store.getJob userId j)
      (fun found w => Concluded calm j w ∧ ∀ v ∈ w.jobs, v.row.id = j →
        v.row.status = found.1.status) (settles calm j) w := by
  have hstable : ∀ row : JobRow, Stable (.worker j) fun w => Concluded calm j w ∧
      ∀ v ∈ w.jobs, v.row.id = j → v.row.status = row.status := by
    intro row w w' hrely h
    refine ⟨stable_concluded w w' hrely h.1, fun v hv hid => ?_⟩
    exact h.2 v ((hrely.jobs v hid).mp hv) hid
  have hread : Adds (outcomes env calm) (.worker j) (Api.query (.selectJob j userId))
      (fun answer w => Concluded calm j w ∧ ∀ row, answer = some row →
        ∀ v ∈ w.jobs, v.row.id = j → v.row.status = row.status) (settles calm j) w := by
    refine Adds.query trivial fun w' hfinds _ => ?_
    have h' := stable_concluded _ _ hfinds.rely h
    refine ⟨fun _ _ _ _ => h'.settled, fun x a w'' _ hstep _ => ?_⟩
    obtain ⟨rfl, rfl⟩ := Prod.mk.inj (Option.some.inj hstep)
    refine ⟨h', fun row hfound v hv hid => ?_⟩
    obtain ⟨hmem, hrow, -⟩ := Keyed.found hfound
    obtain ⟨u, hu, -, rfl⟩ := Table.mem_rows_none.mp hmem
    -- a job has one row
    rw [hfinds.inv.eq_of_jobId hv hu (hid.trans hrow.symm)]
  refine Adds.andThen hread fun answer w h => ?_
  cases answer with
  | none => exact Adds.throw h.1.settled
  | some row =>
      refine Adds.bind (Adds.query trivial fun w' hfinds _ => ?_)
      have h' := hstable row _ _ hfinds.rely ⟨h.1, h.2 row rfl⟩
      refine ⟨fun _ _ _ _ => h'.1.settled, fun x a w'' _ hstep _ => ?_⟩
      obtain ⟨rfl, rfl⟩ := Prod.mk.inj (Option.some.inj hstep)
      exact Adds.pure h'

/-- The last update carries the stored status. -/
theorem adds_announce {name : String} (h : Concluded calm job.id w)
    (hname : ∀ v ∈ w.jobs, v.row.id = job.id → v.row.status = name) (message : String) :
    Adds (outcomes env calm) (.worker job.id)
      (emit job none (finalStatus name) 0 message none) (fun _ => Announced calm job.id)
      (settles calm job.id) w := by
  refine Adds.stmt rfl fun w' hfinds _ x u w'' _ hstep _ => ?_
  obtain ⟨-, rfl⟩ := Prod.mk.inj (Option.some.inj hstep)
  have hrely : RelyWorker job.id w w' := hfinds.rely
  have h' := stable_concluded w w' hrely h
  let update : JobUpdate :=
    { jobId := job.id, eventId := job.eventId, provider := none, status := finalStatus name
      attempt := 0, message, occurredAt := x.now, publication := none }
  have hquiet : Quiet w' (w'.log (.emitted update)) := quiet_log hfinds.inv rfl rfl
  refine ⟨stable_concluded _ _ (hquiet.rely _) h', update, ?_, fun v hv hid => ?_⟩
  · show (World.jobUpdates (w'.log (.emitted update)) job.id).getLast? = some update
    rw [World.jobUpdates, World.log, List.filterMap_append]
    simp [Effect.jobUpdate, update]
  · show finalStatus name = _
    rw [hname v ((hrely.jobs v hid).mp hv) hid]

/-- **The program of a worker** announces the status that its targets add up to, or settles
the job. -/
theorem adds_runWorker (h : Untouched job.id w) :
    Adds (outcomes env calm) (.worker job.id) (runWorker env job)
      (fun _ => Announced calm job.id) (settles calm job.id) w := by
  unfold runWorker
  refine Adds.andThen (adds_getEvent h job.userId job.eventId) fun event w h => ?_
  refine Adds.andThen (adds_claimTargets h) fun targets w h => ?_
  obtain ⟨hjob, h⟩ := h
  refine Adds.andThen (adds_emit (stable_progress none _) h) fun _ w h => ?_
  refine Adds.andThen (adds_processTargets targets hjob h) fun _ w h => ?_
  refine Adds.andThen (adds_finishJob h) fun _ w h => ?_
  refine Adds.andThen (adds_getJob h job.userId) fun found w h => ?_
  exact adds_announce h.1 h.2 "job finished"

end Worker

/-- What a worker leaves behind. -/
theorem adds_worker {job : JobRow} (h : Untouched job.id w) :
    (outcomes env calm).wp (.worker job.id) (worker env job)
      ((outcomes env calm).post (.worker job.id)) w := by
  rw [worker]
  refine Extension.wp_bind (Extension.wp_mono (fun a w h => ?_) (adds_runWorker h))
  cases a with
  | ok u => exact ⟨fun _ => h, h.toConcluded.settled⟩
  | error e => exact ⟨fun hok => (by cases hok), h⟩

end Service
