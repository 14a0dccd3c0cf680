/-
# The channel of a job follows a script

Whatever the programs of the service do at the same time, what has been told of a job is the
beginning of a script for its targets; and when its worker has returned well, it is the script
that ends with the stored rows.

* `hospitable_narration`: requests start workers of committed jobs of which nothing was told.
* `script_of_finished` is what a finished worker has told.
* `channel_isBeginning` is what was told at any time: the workers can be run to their ends, and
  a channel only grows.
-/
import EvglApi.AtMostOnce
import EvglApi.Locks
import EvglApi.Narration
import EvglApi.Orphans
import EvglApi.WebSocket

open Concurrency Mvcc

namespace Service

variable {env : Deployment} {p p' : Pool Stmt Role Outcome World} {w w' : World} {j : Uuid} {n : ℕ}
  {q : Request} {job : JobRow} {α : Type} {calm : Prop}

/-! ## Requests -/

section Request

variable {P : World → Prop} {Q : α → World → Prop}

/-- A program that emits nothing and starts none. -/
theorem narrates_of_only {p : Api α} (hp : Only Stmt.Silent p) :
    Adds (narration env calm) (.request n q) p (fun _ _ => True) (fun _ _ => True) w :=
  Extension.wp_mono (fun a _ _ => by cases a <;> trivial) (Extension.wp_of_every hp
    (fun hst => hst) (fun _ _ _ _ => trivial) (fun _ _ _ _ _ _ _ _ => trivial) trivial)

theorem narrates_any (k : Query α) :
    Adds (narration env calm) (.request n q) (Api.query k) (fun _ _ => True) (fun _ _ => True) w :=
  narrates_of_only (Only.query trivial)

/-- The request has inserted the job, and not committed it yet. -/
def Proposed (n : ℕ) (job : JobRow) (w : World) : Prop := job ∈ w.jobs.pending n

theorem Proposed.of_finds (h : Proposed n job w)
    (hfinds : (narration env calm).Finds (.request n q) w w') : Proposed n job w' := by
  have hrely : RelyRequest n w w' := hfinds.rely
  rw [Proposed, hrely.pendingJobs]
  exact h

theorem OwnJob.of_finds (h : OwnJob w job)
    (hfinds : (narration env calm).Finds (.request n q) w w') : OwnJob w' job := by
  have hrely : RelyRequest n w w' := hfinds.rely
  obtain ⟨v, hv, hc, hfixed⟩ := h
  obtain ⟨v', hv', hc', -, hfixed'⟩ := hrely.committed v hv hc
  exact ⟨v', hv', hc', hfixed'.trans hfixed⟩

/-- A statement that tells nothing and leaves the jobs alone. -/
def Stmt.Unhired {β : Type} (st : Stmt β) : Prop :=
  st.Silent ∧ ∀ x w b w', st.exec x w = some (b, w') → w'.jobs = w.jobs

theorem unhired_query {k : Query α}
    (hk : ∀ x w a w', k.exec x w = some (a, w') → w'.jobs = w.jobs) : (Stmt.query k).Unhired := by
  refine ⟨trivial, fun x w b w' hexec => ?_⟩
  obtain ⟨text, -, rfl, rfl⟩ | ⟨-, hexec⟩ := Stmt.exec_query hexec
  · rfl
  · exact hk x w b w' hexec

/-- The insertion of the targets leaves the new job as it is, pending and without a worker.
-/
theorem narrates_enqueueTargets (h : Proposed n job w) (userId jobId : Uuid)
    (targets : List PublishTarget) :
    Adds (narration env calm) (.request n q) (Store.enqueueTargets env n userId jobId targets)
      (fun _ => Proposed n job) (fun _ _ => True) w := by
  have honly : Only Stmt.Unhired (Store.enqueueTargets env n userId jobId targets) := by
    refine only_enqueueTargets (fun _ => unhired_query ?_) (fun _ _ _ => unhired_query ?_) targets
    · intro x w a w' hexec
      obtain ⟨-, rfl⟩ := Prod.mk.inj (Option.some.inj hexec)
      rfl
    · intro x w a w' hexec
      obtain ⟨e, -, rfl⟩ | ⟨row, -, rfl, -⟩ := insertTarget_cases hexec
      · rfl
      · rfl
  refine Extension.wp_mono (fun a w h => ?_) (Extension.wp_of_every (A := Proposed n job) honly
    (fun hst => hst.1) (fun _ _ hfinds h => h.of_finds hfinds)
    (fun hst x s b s' _ hexec h => ?_) h)
  · cases a with
    | ok u => exact h
    | error e => trivial
  · rw [Proposed, hst.2 x s b s' hexec]
    exact h

theorem narrates_insertJob (userId eventId : Uuid) (key : String) :
    Adds (narration env calm) (.request n q) (Api.query (.insertJob n userId eventId key))
      (fun job => Proposed n job) (fun _ _ => True) w := by
  refine Adds.query trivial fun w' _ _ => ⟨fun _ _ _ _ => trivial, fun x a w'' _ hstep _ => ?_⟩
  obtain ⟨e, rfl, rfl⟩ | ⟨row, rfl, rfl, -⟩ := insertJob_cases hstep
  · trivial
  · exact Table.mem_pending.mpr (List.mem_append_right _ (List.mem_singleton_self _))

/-- After the commit the job is there for its worker. -/
theorem narrates_commit (h : Proposed n job w) :
    Adds (narration env calm) (.request n q) (Api.query (.commit n)) (fun _ w => OwnJob w job)
      (fun _ _ => True) w := by
  refine Adds.query trivial fun w' hfinds _ => ⟨fun _ _ _ _ => trivial, ?_⟩
  intro x a w'' _ hstep _
  obtain ⟨rfl, rfl⟩ := Prod.mk.inj (Option.some.inj hstep)
  have hmem := Table.mem_commit_of_mem (n := n) (Table.mem_pending.mp (h.of_finds hfinds))
  exact ⟨_, hmem, by simp, rfl⟩

/-- A job that the request has created is there, and nothing has been told of it. -/
theorem narrates_enqueueJob (userId eventId : Uuid) (key : String) (targets : List PublishTarget) :
    Adds (narration env calm) (.request n q) (Store.enqueueJob env n userId eventId key targets)
      (fun result w => result.created = true → OwnJob w result.job) (fun _ _ => True) w := by
  unfold Store.enqueueJob
  refine Adds.bind ((narrates_any (.begin n)).mono (fun _ w _ => ?_) fun _ _ _ => trivial)
  refine Adds.rollbackOnError (Adds.mono ?_ (fun _ _ h => h) fun _ _ (_ : True) =>
    ⟨trivial, fun _ _ _ _ _ _ _ _ _ => trivial⟩)
  refine Adds.bind ((narrates_any (.selectJobByKey n userId key)).mono (fun answer w _ => ?_)
    fun _ _ _ => trivial)
  cases answer with
  | some existing =>
      refine Adds.bind ((narrates_any (.commit n)).mono (fun _ w _ => ?_) fun _ _ _ => trivial)
      exact Adds.pure fun hcreated => nomatch hcreated
  | none =>
      refine Adds.bind ((narrates_insertJob userId eventId key).mono (fun job w h => ?_)
        fun _ _ _ => trivial)
      refine Adds.bind ((narrates_enqueueTargets h userId job.id targets).mono (fun _ w h => ?_)
        fun _ _ _ => trivial)
      refine Adds.bind ((narrates_commit h).mono (fun _ w h => ?_) fun _ _ _ => trivial)
      exact Adds.pure fun _ => h

/-- The worker is started on a job that nothing has been told of. -/
theorem narrates_crossPost (userId eventId : Uuid) (key : Option String)
    (targets : List PublishTarget) :
    Adds (narration env calm) (.request n q) (Events.crossPost env n userId eventId key targets)
      (fun _ _ => True) (fun _ _ => True) w := by
  unfold Events.crossPost
  cases key with
  | none => exact Adds.throw trivial
  | some key =>
      refine Adds.bind (Adds.result (fun _ _ => ?_) fun _ _ => trivial)
      have hevent : Only Stmt.Silent (Store.getEvent env userId eventId) := only_getEvent trivial
      refine Adds.bind ((narrates_of_only hevent).mono (fun _ w _ => ?_) fun _ _ _ => trivial)
      refine Adds.bind ((narrates_enqueueJob userId eventId key targets).mono
        (fun enqueued w h => ?_) fun _ _ _ => trivial)
      show Adds _ _ (if _ then _ else _) _ _ _
      split
      · next hcreated =>
          refine Adds.bind (Adds.spawn fun w' hfinds hfree hinv => ⟨?_, Adds.pure trivial⟩)
          have hown := (h hcreated).of_finds hfinds
          refine narrates_worker ⟨hown, ?_⟩
          -- nothing has been told of a job without a worker
          rw [channel_enter]
          exact hfinds.inv.2 _ hfree
      · exact Adds.pure trivial

end Request

/-- A request may arrive at any time. -/
theorem hospitable_narration (env : Deployment) (calm : Prop) :
    (narration env calm).discipline.Hospitable := by
  refine Extension.hospitable (Discipline.hospitable_standing (fun _ _ => untold_enter _)
    (hospitable_ownership env)) fun q w _ _ _ => ?_
  have hhandle : Adds (narration env calm) (.request w.requests.length q)
      (handle env w.requests.length q) (fun _ _ => True) (fun _ _ => True)
      (w.enter (.request w.requests.length q)) := by
    have hother : q.NotCrossPost → Adds (narration env calm) (.request w.requests.length q)
        (handle env w.requests.length q) (fun _ _ => True) (fun _ _ => True)
        (w.enter (.request w.requests.length q)) := fun hq =>
      narrates_of_only (Prog.Every.mono (fun h => h.2) (only_handle hq))
    cases q with
    | crossPost userId eventId key targets => exact narrates_crossPost userId eventId key targets
    | _ => exact hother trivial
  exact Extension.wp_bind (Extension.wp_mono (fun _ _ _ => trivial) hhandle)

/-! ## Runs -/

/-- What a worker meets with in this turn is kind. -/
def kindly (env : Deployment) : Thread Stmt Role Outcome → Draw → World → Bool
  | ⟨.worker _, _⟩, x, _ => x.kind env
  | _, _, _ => true

/-- Every run keeps to the narration, and if all is kind no worker stops on the way. -/
theorem narration_of_run {ls : List (Label Draw Request)} (hp : Reachable env p)
    (hok : (narration env calm).discipline.PoolOk p)
    (hkind : calm → p.meets (service env) (kindly env) ls = true ∧
      ∀ q, Reachable env q → Legible env q.shared)
    (hrun : p.run (service env) ls = some p') :
    (narration env calm).discipline.FollowsAll p ls ∧
      (narration env calm).discipline.PoolOk p' := by
  have hreach : ∀ q, Pool.Reaches (service env) p q → Untold q.shared := fun q hq =>
    untold_of_reachable (Pool.Reaches.trans hp hq)
  have hfollows : (narration env calm).discipline.FollowsAll p ls := by
    by_cases hcalm : calm
    · obtain ⟨hmeets, hlegible⟩ := hkind hcalm
      refine Extension.followsAll_standing
        (f := fun t x w => kindly env t x w && decide (Legible env w)) (fun _ => trivial)
        (fun r st k x w hturn => ⟨trivial, ?_⟩) hreach ?_
      · obtain ⟨hx, hw⟩ := Bool.and_eq_true_iff.mp hturn
        rintro ⟨j, rfl⟩ -
        exact ⟨hx, of_decide_eq_true hw⟩
      · refine Pool.meets_of_reaches (fun q hq t x hx => ?_) hmeets
        exact Bool.and_eq_true_iff.mpr
          ⟨hx, decide_eq_true (hlegible q (Pool.Reaches.trans hp hq))⟩
    · exact Extension.followsAll_standing (fun _ => trivial)
        (fun r st k x w _ => ⟨trivial, fun _ h => absurd h hcalm⟩) hreach Pool.meets_true
  exact ⟨hfollows, hok.run (hospitable_narration env calm) hfollows hrun⟩

theorem narration_idle : (narration env calm).discipline.PoolOk idleService :=
  Discipline.poolOk_nil ⟨inv_empty, fun _ _ => rfl⟩

/-- Whatever the workers meet with. -/
theorem narration_of_reachable (h : Reachable env p) :
    (narration env False).discipline.PoolOk p := by
  obtain ⟨ls, hrun⟩ := h
  exact (narration_of_run ⟨[], rfl⟩ narration_idle False.elim hrun).2

/-- The targets of the jobs with workers are settled. -/
structure Enlists (w w' : World) : Prop where
  workers : w.workers ⊆ w'.workers
  targets : ∀ j ∈ w.workers, ∀ f, f ∈ w'.targetsOf j ↔ f ∈ w.targetsOf j

theorem Enlists.refl (w : World) : Enlists w w := ⟨fun _ h => h, fun _ _ _ => Iff.rfl⟩

theorem Enlists.trans {w w' w'' : World} (h : Enlists w w') (h' : Enlists w' w'') :
    Enlists w w'' :=
  ⟨fun _ hj => h'.workers (h.workers hj),
    fun j hj f => (h'.targets j (h.workers hj) f).trans (h.targets j hj f)⟩

theorem mem_targetsOf {f : TargetFixed} :
    f ∈ w.targetsOf j ↔ ∃ v ∈ w.targets, v.row.jobId = j ∧ v.row.toTargetFixed = f := by
  rw [World.targetsOf, List.mem_filter, List.mem_map, decide_eq_true_iff]
  constructor
  · rintro ⟨⟨v, hv, rfl⟩, hjob⟩
    exact ⟨v, hv, hjob, rfl⟩
  · rintro ⟨v, hv, hjob, rfl⟩
    exact ⟨⟨v, hv, rfl⟩, hjob⟩

/-- A worker leaves the fixed columns alone, and the others leave its targets alone. -/
theorem enlists_of_guar {r : Role} (hguar : Guar r w w') (hdoes : Discretion r w w') :
    Enlists w w' := by
  refine ⟨hguar.workers, fun j hj f => ?_⟩
  by_cases hr : r = .worker j
  · rw [hdoes.targets j hr]
  · have hrely : RelyWorker j w w' := hguar.others (.worker j) hr hj
    rw [mem_targetsOf, mem_targetsOf]
    constructor
    · rintro ⟨v, hv, hjob, hf⟩
      exact ⟨v, (hrely.targets v hjob).mp hv, hjob, hf⟩
    · rintro ⟨v, hv, hjob, hf⟩
      exact ⟨v, (hrely.targets v hjob).mpr hv, hjob, hf⟩

/-- The targets of a committed job are the same for the rest of the run. -/
theorem enlists_of_reaches (hp : Reachable env p) (h : Pool.Reaches (service env) p p') :
    Enlists p.shared p'.shared := by
  obtain ⟨ls, hrun⟩ := h
  have hok := narration_of_reachable hp
  have hstep : ∀ {r w w'}, (narration env False).discipline.inv w →
      (narration env False).discipline.inv w' →
      (narration env False).discipline.guar r w w' → Enlists w w' :=
    fun _ _ hguar => enlists_of_guar hguar.1 hguar.2
  exact hok.run_rel Enlists.refl Enlists.trans hstep (hospitable_narration env False)
    (narration_of_run hp hok False.elim hrun).1 hrun

/-! ## Finished workers -/

/-- Without assumptions on what the workers meet with, the service still keeps what it can. -/
theorem outcomes_of_reachable (h : Reachable env p) :
    (outcomes env False).discipline.PoolOk p ∧ Discipline.Manned Taken p := by
  obtain ⟨ls, hrun⟩ := h
  refine outcomes_of_run (Discipline.followsAll_of_assume ?_ (fun _ => trivial) _ _) hrun
  intro β r st x w
  cases r with
  | request n q => exact ⟨trivial, trivial⟩
  | worker k => exact ⟨trivial, False.elim⟩

/-- A worker that has returned well has told a script. -/
theorem Completed.script (h : Completed env job w) (hinv : Inv env w)
    (htaken : job.id ∈ w.workers) :
    ∃ status last, Script env job.id job.eventId (claimed w job.id) status (w.channel job.id) ∧
      (w.channel job.id).getLast? = some last ∧ last.status = status ∧ last.provider = none := by
  obtain ⟨-, done, said, status, hnarrated, hsaid⟩ := h
  obtain ⟨first, courses, hfirst, htold, hchannel⟩ := hnarrated.told
  refine ⟨status, said, ⟨first, courses, said, hfirst, hnarrated.roster.courses hinv htaken htold,
    hsaid, hchannel⟩, ?_, ?_⟩
  · rw [hchannel, ← List.cons_append, List.getLast?_concat]
  · obtain ⟨now, rfl⟩ := hsaid
    exact ⟨rfl, rfl⟩

/-- What was told about the job as a whole. -/
theorem jobUpdates_eq (w : World) (j : Uuid) :
    w.jobUpdates j = (w.channel j).filter (·.provider.isNone) := by
  rw [World.jobUpdates, World.channel, List.filter_filter, List.filter_filterMap]
  congr 1
  funext e
  cases e with
  | emitted u => simp [Effect.jobUpdate, Effect.update, Option.filter, and_comm]
  | _ => rfl

/-- The last update of a job, if it is about the job as a whole. -/
theorem getLast_jobUpdates {u : JobUpdate} (hlast : (w.channel j).getLast? = some u)
    (hprovider : u.provider = none) : (w.jobUpdates j).getLast? = some u := by
  obtain ⟨sent, hsent⟩ := List.getLast?_eq_some_iff.mp hlast
  rw [jobUpdates_eq, hsent, List.filter_append, List.filter_singleton, hprovider]
  exact List.getLast?_concat

/-- What was told of job `j` is the script that ends with its stored rows. -/
def Scripted (env : Deployment) (w : World) (j : Uuid) : Prop :=
  ∃ v ∈ w.jobs, v.row.id = j ∧ v.committed = true ∧
    Script env j v.row.eventId (claimed w j) (finalStatus v.row.status) (w.channel j)

/-- The channel of a job whose worker has returned well is a whole script. -/
theorem scripted_of_finishedWell (h : Reachable env p) (hfinished : FinishedWell p j) :
    Scripted env p.shared j := by
  have hok := narration_of_reachable h
  have hinv : Inv env p.shared := hok.inv.1
  obtain ⟨i, hi⟩ := List.getElem?_of_mem hfinished
  obtain ⟨job, rfl, hcompleted⟩ : ∃ job : JobRow, job.id = j ∧ Completed env job p.shared :=
    (hok.post hi).2
  have htaken : job.id ∈ p.shared.workers := hok.taken _ hfinished
  obtain ⟨status, last, hscript, hlast, hstatus, hprovider⟩ := hcompleted.script hinv htaken
  obtain ⟨v, hv, hc, hfixed⟩ := hcompleted.1
  have hid : v.row.id = job.id := congrArg JobFixed.id hfixed
  -- the last update carries the stored status
  obtain ⟨u, hu, hagrees⟩ := ((left_of_ended (outcomes_of_reachable h).1 hi).1 rfl).update
  rw [getLast_jobUpdates hlast hprovider] at hu
  obtain rfl := Option.some.inj hu
  refine ⟨v, hv, hid, hc, ?_⟩
  rw [← hagrees v hv hid, hstatus, congrArg JobFixed.eventId hfixed]
  exact hscript

/-- **What a finished worker has told.**  When the worker of a job has returned well, the channel
of the job is the script that ends with the stored rows of its targets, in the order of their ids,
and with the stored status of the job; and nothing is sent on it any more. -/
theorem script_of_finished (h : Reachable env p) (hfinished : FinishedWell p j) :
    Scripted env p.shared j ∧ ∀ p', Pool.Reaches (service env) p p' →
      Scripted env p'.shared j ∧ p'.shared.channel j = p.shared.channel j := by
  refine ⟨scripted_of_finishedWell h hfinished, fun p' hreaches => ?_⟩
  obtain ⟨ls, hrun⟩ := hreaches
  obtain ⟨hfinished', hsame⟩ := hfinished.run h hrun
  exact ⟨scripted_of_finishedWell (h.run hrun) hfinished', hsame⟩

namespace Sample

/-- What has been told of job 30, with the numbers of the attempts. -/
def told (p : Pool Stmt Role Outcome World) : List (String × ℕ) :=
  (p.shared.channel 30).map fun u => (u.message, u.attempt)

end Sample

/-- The channel of a job whose target is published at the second attempt. -/
theorem script_of_finished_sample :
    ∃ p, idleService.run (service Sample.deployment)
        (Sample.connect ++ Sample.enqueue ++ Sample.work) = some p ∧
      Sample.told p = [("job started", 0), ("provider request started", 1),
        ("503 unavailable", 1), ("provider request started", 2),
        ("provider request completed", 2), ("job finished", 0)] ∧
      Scripted Sample.deployment p.shared 30 := by
  have hrun : ((idleService.run (service Sample.deployment)
      (Sample.connect ++ Sample.enqueue ++ Sample.work)).map fun p =>
        (Sample.told p, Sample.finishedJobs p)) = some ([("job started", 0),
          ("provider request started", 1), ("503 unavailable", 1), ("provider request started", 2),
          ("provider request completed", 2), ("job finished", 0)], [30]) := by decide +kernel
  obtain ⟨p, hp, hseen⟩ := Option.map_eq_some_iff.mp hrun
  obtain ⟨htold, hjobs⟩ := Prod.mk.inj hseen
  have hfinished : FinishedWell p 30 := Sample.mem_finishedJobs.mp (hjobs ▸ List.mem_cons_self)
  exact ⟨p, hp, htold, (script_of_finished ⟨_, hp⟩ hfinished).1⟩

/-! ## Any time -/

theorem Beginning.of_prefix {e : Uuid} {ts : List TargetFixed} {updates updates' : List JobUpdate}
    (h : Beginning env j e ts updates') (hgrown : updates <+: updates') :
    Beginning env j e ts updates := by
  obtain ⟨rows, status, all, hrows, hscript, hall⟩ := h
  exact ⟨rows, status, all, hrows, hscript, hgrown.trans hall⟩

/-- A job with a worker keeps its targets. -/
theorem Enlists.claimed (h : Enlists w w') (hinv : Inv env w) (hinv' : Inv env w')
    (htaken : j ∈ w.workers) :
    (claimed w' j).map TargetRow.toTargetFixed = (claimed w j).map TargetRow.toTargetFixed := by
  have hroster := roster_claimed hinv htaken
  have hroster' : Roster j [] (Service.claimed w j) w' := by
    refine ⟨fun f => (hroster.rows f).trans ?_, hroster.sorted⟩
    rw [← mem_targetsOf, ← mem_targetsOf]
    exact (h.targets j htaken f).symm
  exact hroster'.map_claimed hinv' (h.workers htaken)

theorem channel_prefix_of_reaches (hp : Reachable env p)
    (h : Pool.Reaches (service env) p p') : p.shared.channel j <+: p'.shared.channel j := by
  refine Pool.Reaches.induct (I := fun q => p.shared.channel j <+: q.shared.channel j) h
    (List.prefix_refl _) fun hq hgrown hact => hgrown.trans ?_
  exact channel_prefix_act (Pool.Reaches.trans hp hq) hact

/-- What a worker that has returned, well or not, has told. -/
theorem beginning_of_ended {a : Outcome} (h : Reachable env p)
    (hended : ⟨.worker j, .pure a⟩ ∈ p.threads) (hsaid : p.shared.channel j ≠ []) :
    ∃ v ∈ p.shared.jobs, v.row.id = j ∧ Beginning env j v.row.eventId
      ((claimed p.shared j).map TargetRow.toTargetFixed) (p.shared.channel j) := by
  have hok := narration_of_reachable h
  have hinv : Inv env p.shared := hok.inv.1
  have htaken : j ∈ p.shared.workers := hok.taken _ hended
  obtain ⟨i, hi⟩ := List.getElem?_of_mem hended
  have hpost : Narrates False env (.worker j) a p.shared := (hok.post hi).2
  -- the job that the worker was started with is the stored one
  have hstored : ∀ {job : JobRow}, job.id = j → OwnJob p.shared job →
      Beginning env j job.eventId ((claimed p.shared j).map TargetRow.toTargetFixed)
        (p.shared.channel j) →
      ∃ v ∈ p.shared.jobs, v.row.id = j ∧ Beginning env j v.row.eventId
        ((claimed p.shared j).map TargetRow.toTargetFixed) (p.shared.channel j) := by
    rintro job rfl ⟨v, hv, -, hfixed⟩ hbeginning
    refine ⟨v, hv, congrArg JobFixed.id hfixed, ?_⟩
    rw [congrArg JobFixed.eventId hfixed]
    exact hbeginning
  cases a with
  | reply r => exact hpost.elim
  | finished r =>
      cases r with
      | ok u =>
          obtain ⟨job, rfl, hcompleted⟩ := hpost
          obtain ⟨status, -, hscript, -⟩ := hcompleted.script hinv htaken
          exact hstored rfl hcompleted.1 ⟨_, status, _, rfl, hscript, List.prefix_refl _⟩
      | error e =>
          obtain ⟨job, rfl, -, hown, hnothing | ⟨done, said, rest, hnarrated, hpartial⟩⟩ := hpost
          · exact absurd hnothing hsaid
          · refine hstored rfl hown ?_
            rw [hnarrated.roster.map_claimed hinv htaken]
            exact hnarrated.isBeginning hpartial

/-- **What is told at any time.**  Whatever the programs of the service do at the same time, a
channel on which something was sent is that of a committed job, and what was sent on it so far is
the beginning of a script for the targets of this job, in the order of their ids. -/
theorem channel_isBeginning (h : Reachable env p) (hsaid : p.shared.channel j ≠ []) :
    ∃ v ∈ p.shared.jobs, v.row.id = j ∧ v.committed = true ∧ Beginning env j v.row.eventId
      ((claimed p.shared j).map TargetRow.toTargetFixed) (p.shared.channel j) := by
  have hinv : Inv env p.shared := h.poolOk.inv
  have htaken : j ∈ p.shared.workers := by
    by_contra hfree
    exact hsaid (untold_of_reachable h j hfree)
  -- the programs are run to their ends, and the channel only grows meanwhile
  obtain ⟨p', hdrains, hended⟩ := exists_drained h (fun _ _ => {}) fun _ _ => rfl
  have hreaches := hdrains.reaches
  have h' : Reachable env p' := Pool.Reaches.trans h hreaches
  have henlists := enlists_of_reaches h hreaches
  have hgrown : p.shared.channel j <+: p'.shared.channel j := channel_prefix_of_reaches h hreaches
  have hsaid' : p'.shared.channel j ≠ [] := fun hnil => hsaid (List.prefix_nil.mp (hnil ▸ hgrown))
  obtain ⟨⟨r, prog⟩, ht, rfl⟩ :=
    (outcomes_of_reachable h').2 (.worker j) (henlists.workers htaken)
  obtain ⟨a, rfl⟩ := hended _ ht
  obtain ⟨v', hv', hid', hbeginning⟩ := beginning_of_ended h' ht hsaid'
  have hinv' : Inv env p'.shared := h'.poolOk.inv
  obtain ⟨v, hv, hid, hc⟩ := hinv.spawned j htaken
  obtain ⟨v'', hv'', -, hfixed, -⟩ := (evolves_of_reaches h hreaches).jobs v hv hc
  obtain rfl := hinv'.eq_of_jobId hv' hv''
    (hid'.trans (hid.symm.trans (congrArg JobFixed.id hfixed).symm))
  rw [congrArg JobFixed.eventId hfixed, henlists.claimed hinv hinv' htaken] at hbeginning
  exact ⟨v, hv, hid, hc, hbeginning.of_prefix hgrown⟩

/-- A worker that the database lets down between two attempts. -/
theorem channel_isBeginning_sample :
    ∃ p, idleService.run (service Sample.deployment) (Sample.connect ++ Sample.enqueue ++
        Sample.work.take 9 ++ [.turn 4 { fails := some "connection reset" }]) = some p ∧
      Sample.told p =
        [("job started", 0), ("provider request started", 1), ("503 unavailable", 1)] ∧
      ∃ v ∈ p.shared.jobs, v.row.id = 30 ∧ v.committed = true ∧
        Beginning Sample.deployment 30 v.row.eventId
          ((claimed p.shared 30).map TargetRow.toTargetFixed) (p.shared.channel 30) := by
  have hrun : ((idleService.run (service Sample.deployment) (Sample.connect ++ Sample.enqueue ++
      Sample.work.take 9 ++ [.turn 4 { fails := some "connection reset" }])).map Sample.told) =
        some [("job started", 0), ("provider request started", 1), ("503 unavailable", 1)] := by
    decide +kernel
  obtain ⟨p, hp, htold⟩ := Option.map_eq_some_iff.mp hrun
  refine ⟨p, hp, htold, channel_isBeginning ⟨_, hp⟩ fun hnil => ?_⟩
  rw [Sample.told, hnil] at htold
  cases htold

end Service
