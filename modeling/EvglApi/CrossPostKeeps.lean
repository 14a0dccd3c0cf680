/-
# The cross-post handler keeps the discipline

The transaction of a cross-post request inserts one job and then its targets one by
one.  `Enqueued` is the state of the loop: the uncommitted rows of the request are
the job and the targets inserted so far.
-/
import EvglApi.RequestKeeps

open Concurrency Mvcc

namespace Service

variable {env : Deployment} {w w' : World} {n : ℕ} {q : Request} {α : Type}

/-! ## The end of the transaction -/

/-- The errors of a handler are not restricted. -/
def anyError (_ : ApiError) (_ : World) : Prop := True

/-- An early return rolls the transaction back. -/
theorem keeps_transaction {p : Api α} {Q : α → World → Prop} {A : World → Prop}
    (hstable : Stable (.request n q) A) (hA : A w)
    (h : ∀ w, A w → Keeps (ownership env) (.request n q) p Q anyError w) :
    Keeps (ownership env) (.request n q) (Api.transaction n p) Q anyError w := by
  have hbegin : Keeps (ownership env) (.request n q) (Api.query (.begin n))
      (fun _ => A) anyError w :=
    keeps_read (fun _ _ => rfl) fun w' hrely _ _ =>
      ⟨trivial, fun _ => trivial, hstable _ _ hrely hA⟩
  refine Keeps.andThen hbegin fun _ w hA => ?_
  refine Keeps.rollbackOnError ((h w hA).mono (fun _ _ h => h) fun e w _ => ?_)
  intro w' _ hinv htaken
  refine ⟨trivial, fun x a w'' _ hstep => ?_⟩
  obtain ⟨-, rfl⟩ := Prod.mk.inj (Option.some.inj hstep)
  exact ⟨guar_rollback hinv htaken, hinv.rollback n, trivial⟩

/-- What a handler knows of the event it has looked up. -/
def EventStored (w : World) (userId eventId : Uuid) : Prop :=
  ∃ e ∈ w.events, e.id = eventId ∧ e.ownerId = userId

theorem stable_eventStored (userId eventId : Uuid) :
    Stable (.request n q) fun w => EventStored w userId eventId := by
  intro w w' hrely h
  obtain ⟨e, he, hrest⟩ := h
  exact ⟨e, hrely.events he, hrest⟩

/-- The event that a request has read is one of its user. -/
theorem keeps_getEvent_request {userId eventId : Uuid} (hidle : Idle n w) :
    Keeps (ownership env) (.request n q) (Store.getEvent env userId eventId)
      (fun _ w => Idle n w ∧ EventStored w userId eventId) anyError w := by
  unfold Store.getEvent
  have hread : Keeps (ownership env) (.request n q) (Api.query (.selectEventDocument eventId userId))
      (fun answer w => Idle n w ∧ ∀ document, answer = some document → EventStored w userId eventId)
      anyError w := by
    refine keeps_read (fun _ _ => rfl) fun w' hrely _ _ => ⟨trivial, fun _ => trivial,
      stable_idle n q _ _ hrely hidle, fun document hdocument => ?_⟩
    obtain ⟨e, hfind, -⟩ := Option.map_eq_some_iff.mp hdocument
    obtain ⟨he, hid, howner⟩ := Keyed.found hfind
    exact ⟨e, he, hid, howner⟩
  refine Keeps.andThen hread fun answer w h => ?_
  cases answer with
  | none => exact Keeps.throw trivial
  | some document => exact Keeps.result (fun _ _ => ⟨h.1, h.2 document rfl⟩) fun _ _ => trivial

/-! ## The replay -/

/-- The job with the key of the request is stored. -/
def Stored (w : World) (job : JobRow) : Prop := ∃ m, w.HasJob m job.toJobFixed

theorem stable_stored (job : JobRow) : Stable (.request n q) fun w => Stored w job := by
  intro w w' hrely h
  obtain ⟨m, hm⟩ := h
  exact ⟨m, hrely.hasJob hm⟩

/-- A row that an idle request sees is committed. -/
theorem Idle.stored (hidle : Idle n w) {job : JobRow} (h : job ∈ w.jobs.rows (some n)) :
    Stored w job := by
  obtain ⟨v, hv, hvisible, rfl⟩ := Table.mem_rows.mp h
  have hc : v.committed = true := by
    by_contra hc
    have hx : v.xmin = n := by
      rw [Version.visibleTo, Bool.or_eq_true] at hvisible
      have hsome := hvisible.resolve_left hc
      exact (Option.some.inj (beq_iff_eq.mp hsome)).symm
    have hpending : v.row ∈ w.jobs.pending n := by
      rw [Table.mem_pending, ← hx, ← Bool.eq_false_iff.mpr hc]
      exact hv
    rw [hidle.1] at hpending
    cases hpending
  exact ⟨v.xmin, v, hv, hc, rfl, rfl⟩

/-- The commit of a request that has found its key changes nothing. -/
theorem keeps_replay {job : JobRow} (hidle : Idle n w) (hjob : Stored w job) :
    Keeps (ownership env) (.request n q) (Api.query (.commit n))
      (fun _ w => Idle n w ∧ Stored w job) anyError w := by
  refine keeps_query fun w' hrely hinv htaken => ⟨trivial, fun _ => trivial, ?_⟩
  intro x a w'' hstep
  obtain ⟨rfl, rfl⟩ := Prod.mk.inj (Option.some.inj hstep)
  obtain ⟨hguar, hinv', hidle'⟩ := (stable_idle n q _ _ hrely hidle).commit hinv htaken
  obtain ⟨m, v, hv, hc, hrest⟩ := stable_stored job _ _ hrely hjob
  exact ⟨hguar, hinv', hidle', m, v, Table.mem_commit_of_committed hv hc, hc, hrest⟩

/-! ## The new job -/

/-- The uncommitted rows of the request are the job and the targets inserted so far. -/
structure Enqueued (env : Deployment) (n : ℕ) (job : JobRow) (done : List PublishTarget)
    (w : World) : Prop where
  jobs : w.jobs.pending n = [job]
  targets : (w.targets.pending n).map (fun t => t.toTargetFixed.columns) =
    done.map (PublishTarget.columns env)
  own : ∀ t ∈ w.targets.pending n, t.jobId = job.id
  unspawned : job.id ∉ w.workers

theorem Enqueued.mem_jobs {job : JobRow} {done : List PublishTarget}
    (h : Enqueued env n job done w) : (⟨n, false, job⟩ : Version JobRow) ∈ w.jobs := by
  rw [← Table.mem_pending, h.jobs]
  exact List.mem_singleton_self job

/-- The others leave the job and the targets of an open transaction alone. -/
theorem stable_enqueued (job : JobRow) (done : List PublishTarget) :
    Stable (.request n q) (Enqueued env n job done) := by
  intro w w' hrely h
  refine ⟨hrely.pendingJobs.trans h.jobs, ?_, ?_, ?_⟩
  · rw [hrely.pendingTargets]
    exact h.targets
  · rw [hrely.pendingTargets]
    exact h.own
  · exact hrely.unspawned _ h.mem_jobs rfl h.unspawned

/-- The user of a connection that was found, and the name of its provider, are what they
were for as long as the connection exists. -/
structure Found (id userId : Uuid) (provider : String) (w : World) : Prop where
  drawn : id ∈ w.drawn
  same : ∀ c ∈ w.connections, c.id = id → c.userId = userId ∧ c.provider = provider

theorem stable_found (id userId : Uuid) (provider : String) :
    Stable (.request n q) (Found id userId provider) := by
  intro w w' hrely h
  refine ⟨hrely.drawn h.drawn, fun c' hc' hid => ?_⟩
  obtain ⟨c, hc, heq⟩ := hrely.connections c' hc' (hid.symm ▸ h.drawn)
  obtain ⟨huser, hprovider⟩ := h.same c hc ((congrArg ConnectionFixed.id heq).trans hid)
  exact ⟨(congrArg ConnectionFixed.userId heq).symm.trans huser,
    (congrArg ConnectionFixed.provider heq).symm.trans hprovider⟩

/-- The job is inserted for the user and the key, without targets yet. -/
theorem keeps_insertJob {userId eventId : Uuid} {key : String} {targets : List PublishTarget}
    (hidle : Idle n w) (hevent : EventStored w userId eventId) :
    Keeps (ownership env) (.request n (.crossPost userId eventId (some key) targets))
      (Api.query (.insertJob n userId eventId key))
      (fun job w => Enqueued env n job [] w ∧ job.userId = userId ∧ job.idempotencyKey = key ∧
        w.Asked n job.toJobFixed targets) anyError w := by
  refine keeps_query fun w' hrely hinv htaken => ⟨trivial, fun _ => trivial, ?_⟩
  intro x a w'' hstep
  have hidle' := stable_idle n _ _ _ hrely hidle
  obtain ⟨e, rfl, rfl⟩ | ⟨row, rfl, rfl, hfresh, huser, hid, hkey, -, hunused⟩ :=
    insertJob_cases hstep
  · exact ⟨(Quiet.refl hinv).guar _, hinv, trivial⟩
  · have hasked : w'.Asked n row.toJobFixed targets := by
      show w'.requests[n]? = some (.crossPost row.userId row.eventId (some row.idempotencyKey) _)
      rw [huser, hid, hkey]
      exact htaken
    have hevent' : w'.EventOwned row.toJobFixed := by
      obtain ⟨e, he, heid, howner⟩ := stable_eventStored userId eventId _ _ hrely hevent
      exact ⟨e, he, heid.trans hid.symm, howner.trans huser.symm⟩
    have hkeys : ∀ v ∈ w'.jobs, ¬ v.row.hasKey row.userId row.idempotencyKey := by
      rw [huser, hkey]
      exact hunused
    -- a worker of the job would have drawn its identifier
    have hunspawned : row.id ∉ w'.workers := by
      intro hworker
      obtain ⟨v, hv, hvid, -⟩ := hinv.spawned _ hworker
      exact hfresh (hvid ▸ hinv.jobDrawn v hv)
    -- the job is the only row that the transaction has inserted
    have hpending : (w'.addJob n row).jobs.pending n = [row] := by
      show (w'.jobs.insert n row).pending n = [row]
      rw [Table.pending_insert_self, hidle'.1]
      rfl
    have htargets : (w'.addJob n row).targets.pending n = [] := hidle'.2
    refine ⟨guar_addJob hinv htaken hfresh, hinv.addJob hfresh hkeys hevent' hasked,
      ⟨hpending, ?_, ?_, hunspawned⟩, huser, hkey, hasked⟩
    · rw [htargets]
      rfl
    · rw [htargets]
      intro t ht
      cases ht

/-- One element of the target list, whose connection was found with the right provider. -/
theorem keeps_insertTarget {job : JobRow} {done : List PublishTarget} {target : PublishTarget}
    (henqueued : Enqueued env n job done w)
    (hfound : Found target.connectionId job.userId (env.asStr target.provider) w) :
    Keeps (ownership env) (.request n q)
      (Api.query (.insertTarget n job.id target.connectionId (env.asStr target.provider)
        target.options))
      (fun _ w => Enqueued env n job (done ++ [target]) w) anyError w := by
  refine keeps_query fun w' hrely hinv htaken => ⟨trivial, fun _ => trivial, ?_⟩
  intro x a w'' hstep
  have henqueued' := stable_enqueued job done _ _ hrely henqueued
  have hfound' := stable_found _ _ _ _ _ hrely hfound
  obtain ⟨e, rfl, rfl⟩ | ⟨row, rfl, rfl, hfresh, hjobId, hcolumns, -, hattempt, c, hc, hid⟩ :=
    insertTarget_cases hstep
  · exact ⟨(Quiet.refl hinv).guar _, hinv, trivial⟩
  · obtain ⟨hconnection, hprovider, -⟩ := Prod.mk.inj hcolumns |>.imp id Prod.mk.inj
    -- the connection that was found is the one the row refers to
    have howned : World.ConnectionOwned env w' job.toJobFixed row.toTargetFixed := by
      obtain ⟨huser, hname⟩ := hfound'.same c hc hid
      exact ⟨⟨target.provider, hprovider⟩, c, hc, hid.trans hconnection.symm, huser,
        hname.trans hprovider.symm⟩
    have hpending : (w'.addTarget n row).targets.pending n = w'.targets.pending n ++ [row] :=
      Table.pending_insert_self
    refine ⟨guar_addTarget hinv htaken henqueued'.mem_jobs hjobId,
      hinv.addTarget hfresh henqueued'.mem_jobs hjobId hattempt howned,
      henqueued'.jobs, ?_, ?_, henqueued'.unspawned⟩
    · rw [hpending, List.map_append, List.map_append, henqueued'.targets]
      show _ ++ [row.toTargetFixed.columns] = _ ++ [_]
      rw [hcolumns]
      rfl
    · rw [hpending]
      intro t ht
      rcases List.mem_append.mp ht with ht | ht
      · exact henqueued'.own t ht
      · rw [List.mem_singleton.mp ht]
        exact hjobId

/-- The loop over the targets. -/
theorem keeps_enqueueTargets {job : JobRow} {done : List PublishTarget}
    (targets : List PublishTarget) (henqueued : Enqueued env n job done w) :
    Keeps (ownership env) (.request n q)
      (Store.enqueueTargets env n job.userId job.id targets)
      (fun _ w => Enqueued env n job (done ++ targets) w) anyError w := by
  induction targets generalizing done w with
  | nil =>
      rw [List.append_nil]
      exact Keeps.pure henqueued
  | cons target targets ih =>
      -- the connection is looked up with the owner of the job
      have hread : Keeps (ownership env) (.request n q)
          (Api.query (.selectConnectionProvider n target.connectionId job.userId))
          (fun answer w => Enqueued env n job done w ∧
            ∀ provider, answer = some provider → Found target.connectionId job.userId provider w)
          anyError w := by
        refine keeps_read (fun _ _ => rfl) fun w' hrely hinv _ => ⟨trivial, fun _ => trivial,
          stable_enqueued job done _ _ hrely henqueued, fun provider hprovider => ?_⟩
        obtain ⟨c, hfind, rfl⟩ := Option.map_eq_some_iff.mp hprovider
        obtain ⟨hmem, hid, huser⟩ := Keyed.found hfind
        refine ⟨hid ▸ hinv.connectionDrawn c hmem, fun c' hc' hid' => ?_⟩
        rw [List.inj_on_of_nodup_map hinv.connectionIds hc' hmem (hid'.trans hid.symm)]
        exact ⟨huser, rfl⟩
      unfold Store.enqueueTargets
      refine Keeps.andThen hread fun answer w h => ?_
      cases answer with
      | none => exact Keeps.throw trivial
      | some provider =>
          show Keeps _ _ (if _ then _ else _) _ _ _
          split
          · exact Keeps.throw trivial
          · next hname =>
              have hfound := h.2 provider rfl
              rw [not_not.mp hname] at hfound
              refine Keeps.andThen (keeps_insertTarget h.1 hfound) fun _ w h => ?_
              have hrest := ih h
              rwa [List.append_assoc] at hrest

/-! ## The commit of the new job -/

/-- The targets of the new job are the uncommitted ones of the request. -/
theorem Enqueued.targetsOf {job : JobRow} {done : List PublishTarget}
    (h : Enqueued env n job done w) (hinv : Inv env w) :
    w.targetsOf job.id = (w.targets.pending n).map fun t => t.toTargetFixed := by
  rw [World.targetsOf, List.filter_map, Table.pending, List.map_map]
  show (w.targets.filter _).map _ = (w.targets.filter _).map _
  congr 1
  apply List.filter_congr
  intro v hv
  rw [Bool.eq_iff_iff, Bool.and_eq_true, Bool.not_eq_true', beq_iff_eq]
  show decide (v.row.jobId = job.id) = true ↔ _
  rw [decide_eq_true_iff]
  constructor
  · intro hid
    obtain ⟨u, hu, huid, hx, hc, -⟩ := hinv.targetJob v hv
    obtain rfl := hinv.eq_of_jobId hu h.mem_jobs (huid.trans hid)
    exact ⟨hc.symm, hx.symm⟩
  · rintro ⟨hc, hx⟩
    refine h.own v.row (Table.mem_pending.mpr ?_)
    rw [← hc, ← hx]
    exact hv

/-- The committed job of request `n`, before its worker is spawned. -/
def Created (n : ℕ) (job : JobRow) (w : World) : Prop :=
  w.HasJob n job.toJobFixed ∧ job.id ∉ w.workers

theorem stable_created (job : JobRow) : Stable (.request n q) (Created n job) := by
  intro w w' hrely h
  obtain ⟨⟨v, hv, hc, hx, heq⟩, hfree⟩ := h
  have hid : v.row.id = job.id := congrArg JobFixed.id heq
  refine ⟨hrely.hasJob ⟨v, hv, hc, hx, heq⟩, ?_⟩
  rw [← hid] at hfree ⊢
  exact hrely.unspawned v hv hx hfree

/-- With the commit the job has the targets that were asked for. -/
theorem keeps_commitJob {userId eventId : Uuid} {key : Option String}
    {targets : List PublishTarget} {job : JobRow} (henqueued : Enqueued env n job targets w) :
    Keeps (ownership env) (.request n (.crossPost userId eventId key targets))
      (Api.query (.commit n)) (fun _ w => Created n job w) anyError w := by
  refine keeps_query fun w' hrely hinv htaken => ⟨trivial, fun _ => trivial, ?_⟩
  intro x a w'' hstep
  have henqueued' := stable_enqueued job targets _ _ hrely henqueued
  obtain ⟨rfl, rfl⟩ := Prod.mk.inj (Option.some.inj hstep)
  refine ⟨guar_commit hinv htaken, hinv.commit fun job' hjob' targets' hasked => ?_, ?_,
    henqueued'.unspawned⟩
  · -- there is one uncommitted job, and one request with this number
    rw [henqueued'.jobs] at hjob'
    obtain rfl := List.mem_singleton.mp hjob'
    have hsame : some (Request.crossPost userId eventId key targets) = some _ :=
      htaken.symm.trans hasked
    obtain ⟨-, -, -, rfl⟩ := Request.crossPost.inj (Option.some.inj hsame)
    rw [henqueued'.targetsOf hinv, List.map_map]
    exact List.Perm.of_eq henqueued'.targets
  · have hmem := Table.mem_commit_of_mem (n := n) henqueued'.mem_jobs
    exact ⟨_, hmem, by simp, rfl, rfl⟩

/-- The look-up of the key finds a stored job of the user, or none. -/
theorem keeps_selectJobByKey {userId : Uuid} {key : String} {A : World → Prop}
    (hstable : Stable (.request n q) A) (hidle : ∀ w, A w → Idle n w) (hA : A w) :
    Keeps (ownership env) (.request n q) (Api.query (.selectJobByKey n userId key))
      (fun answer w => A w ∧ ∀ job, answer = some job → Stored w job ∧ job.hasKey userId key)
      anyError w := by
  refine keeps_query fun w' hrely hinv htaken => ⟨trivial, fun _ => trivial, ?_⟩
  intro x a w'' hstep
  have hA' := hstable _ _ hrely hA
  have hquiet := quiet_selectJobByKey hinv hstep
  refine ⟨hquiet.guar _, hquiet.inv hinv, ?_⟩
  have hafter : A w'' := hstable _ _ (hquiet.rely _) hA'
  change w'.selectJobByKey n userId key = some (a, w'') at hstep
  unfold World.selectJobByKey at hstep
  split at hstep
  · next job hfind =>
      obtain ⟨rfl, rfl⟩ := Prod.mk.inj (Option.some.inj hstep)
      refine ⟨hafter, fun job' heq => ?_⟩
      obtain rfl := Option.some.inj heq
      obtain ⟨hmem, hkey⟩ := Keyed.found hfind
      exact ⟨(hidle _ hA').stored hmem, hkey⟩
  · obtain ⟨rfl, rfl⟩ := Prod.mk.inj (Option.some.inj hstep)
    exact ⟨hafter, fun job' heq => by cases heq⟩

/-- What a handler knows after `enqueue_job`: the job is stored under the user and the
key, and it is the request's own and without a worker if it was created. -/
structure Enqueue (n : ℕ) (userId : Uuid) (key : String) (result : Store.EnqueueResult)
    (w : World) : Prop where
  stored : Stored w result.job
  userId : result.job.userId = userId
  key : result.job.idempotencyKey = key
  created : result.created = true → Created n result.job w

/-- Whether the job is created or found, it is stored under the user and the key. -/
theorem keeps_enqueueJob {userId eventId : Uuid} {key : String} {targets : List PublishTarget}
    (hidle : Idle n w) (hevent : EventStored w userId eventId) :
    Keeps (ownership env) (.request n (.crossPost userId eventId (some key) targets))
      (Store.enqueueJob env n userId eventId key targets) (Enqueue n userId key) anyError w := by
  have hstable : Stable (.request n (.crossPost userId eventId (some key) targets)) fun w =>
      Idle n w ∧ EventStored w userId eventId :=
    (stable_idle n _).and (stable_eventStored userId eventId)
  unfold Store.enqueueJob
  refine keeps_transaction hstable ⟨hidle, hevent⟩ fun w h => ?_
  refine Keeps.andThen (keeps_selectJobByKey hstable (fun _ h => h.1) h) fun answer w h => ?_
  obtain ⟨⟨hidle, hevent⟩, hfound⟩ := h
  cases answer with
  | some existing =>
      obtain ⟨hstored, huser, hkey⟩ := hfound existing rfl
      refine Keeps.andThen (keeps_replay hidle hstored) fun _ w h => ?_
      exact Keeps.pure ⟨h.2, huser, hkey, fun h => by cases h⟩
  | none =>
      refine Keeps.andThen (keeps_insertJob hidle hevent) fun job w h => ?_
      obtain ⟨henqueued, rfl, rfl, -⟩ := h
      refine Keeps.andThen (keeps_enqueueTargets targets henqueued) fun _ w h => ?_
      refine Keeps.andThen (keeps_commitJob h) fun _ w h => ?_
      exact Keeps.pure ⟨⟨n, h.1⟩, rfl, rfl, fun _ => h⟩

/-! ## The worker of the new job -/

/-- A committed job may get its worker. -/
theorem Inv.spawn {job : JobRow} (h : Inv env w) (hjob : w.HasJob n job.toJobFixed) :
    Inv env (w.enter (.worker job.id)) :=
  { h with
    spawned := by
      intro j hj
      rcases List.mem_append.mp hj with hj | hj
      · exact h.spawned j hj
      · obtain ⟨v, hv, hc, -, heq⟩ := hjob
        exact ⟨v, hv, (congrArg JobFixed.id heq).trans (List.mem_singleton.mp hj).symm, hc⟩
    idle := fun t ht hfree => h.idle t ht fun hj => hfree (List.mem_append_left _ hj)
    jobTraced := fun e he j hj => List.mem_append_left _ (h.jobTraced e he j hj) }

theorem guar_spawn {job : JobRow} (h : Inv env w) (hself : Taken w (.request n q))
    (hjob : w.HasJob n job.toJobFixed) :
    Guar (.request n q) w (w.enter (.worker job.id)) where
  requests := List.prefix_refl _
  workers := fun _ hj => List.mem_append_left _ hj
  others := by
    intro r' hne htaken
    cases r' with
    | request m q' =>
        have hmn := number_ne hself htaken hne
        exact
          { requests := List.prefix_refl _
            events := fun _ he => he
            drawn := fun _ hd => hd
            connections := fun c hc _ => ⟨c, hc, rfl⟩
            pendingJobs := rfl
            pendingTargets := rfl
            committed := fun v hv hc => ⟨v, hv, hc, rfl, rfl⟩
            unspawned := by
              intro v hv hx hfree hmem
              rcases List.mem_append.mp hmem with hmem | hmem
              · exact hfree hmem
              · -- the job of the new worker was inserted by this request
                obtain ⟨u, hu, -, hux, heq⟩ := hjob
                have hid : v.row.id = u.row.id :=
                  (List.mem_singleton.mp hmem).trans (congrArg JobFixed.id heq).symm
                obtain rfl := h.eq_of_jobId hv hu hid
                exact hmn (hx.symm.trans hux) }
    | worker k =>
        exact
          { events := fun _ he => he
            jobs := fun _ _ => Iff.rfl
            targets := fun _ _ => Iff.rfl
            trace := fun _ he => he
            traced := fun _ _ he => he }
  evolves := .of_eq (List.prefix_refl _) rfl rfl

/-- A job without a worker is fresh when its worker is started. -/
theorem fresh_spawn {job : JobRow} (h : Inv env w) (hcreated : Created n job w) :
    Fresh (w.enter (.worker job.id)) job := by
  obtain ⟨⟨v, hv, hc, -, heq⟩, hfree⟩ := hcreated
  refine ⟨⟨v, hv, hc, heq⟩, fun e he hjob => hfree (h.jobTraced e he _ hjob), ?_⟩
  intro t ht hjob
  exact h.idle t ht (hjob ▸ hfree)

/-- The cross-post handler keeps the discipline. -/
theorem keeps_crossPost {userId eventId : Uuid} {key : Option String}
    {targets : List PublishTarget} (hidle : Idle n w) :
    Keeps (ownership env) (.request n (.crossPost userId eventId key targets))
      (Events.crossPost env n userId eventId key targets)
      (fun response => JobReply (.crossPost userId eventId key targets) (.ok response))
      anyError w := by
  unfold Events.crossPost
  cases key with
  | none => exact Keeps.throw trivial
  | some key =>
      refine Keeps.bind (Keeps.result (fun _ _ => ?_) fun _ _ => trivial)
      refine Keeps.andThen (keeps_getEvent_request hidle) fun _ w h => ?_
      refine Keeps.andThen (keeps_enqueueJob h.1 h.2) fun enqueued w h => ?_
      -- whatever the status, the answer is the job that is stored
      have hreply : ∀ status w, Stored w enqueued.job →
          JobReply (.crossPost userId eventId (some key) targets)
            (.ok (.job status enqueued.job)) w := by
        intro status w hstored user event key' targets' status' job hq hr
        obtain ⟨rfl, -, rfl, -⟩ := Request.crossPost.inj hq
        obtain ⟨-, rfl⟩ := Response.job.inj (Except.ok.inj hr)
        exact ⟨hstored, h.userId, congrArg some h.key.symm⟩
      show Keeps _ _ (if _ then _ else _) _ _ _
      split
      · next hcreated =>
          -- only the request that has created the job starts its worker
          refine Keeps.bind (Keeps.spawn fun w' hrely hinv htaken => ?_)
          have hown : Created n enqueued.job w' :=
            stable_created (q := .crossPost userId eventId (some key) targets) enqueued.job _ _ hrely
              (h.created hcreated)
          refine ⟨hown.2, guar_spawn hinv htaken hown.1, hinv.spawn hown.1,
            List.mem_append_right _ (List.mem_singleton_self _), wp_worker (fresh_spawn hinv hown),
            ?_⟩
          exact Keeps.pure (hreply 202 _ ⟨n, hown.1⟩)
      · exact Keeps.pure (hreply 200 _ h.stored)

/-! ## Arrivals -/

/-- A new request has no uncommitted rows. -/
theorem idle_arrival (h : Inv env w) (q : Request) :
    Idle w.requests.length (w.enter (.request w.requests.length q)) := by
  have hjobs : ∀ v ∈ w.jobs, v.xmin ≠ w.requests.length := fun v hv => (h.xmin_lt hv).ne
  constructor
  · rw [List.eq_nil_iff_forall_not_mem]
    intro job hjob
    exact hjobs _ (Table.mem_pending.mp hjob) rfl
  · rw [List.eq_nil_iff_forall_not_mem]
    intro t ht
    obtain ⟨v, hv, -, hx, -⟩ := h.targetJob _ (Table.mem_pending.mp ht)
    exact hjobs v hv hx

theorem Inv.arrive (h : Inv env w) (q : Request) (n : ℕ) :
    Inv env (w.enter (.request n q)) :=
  { h with
    asked := by
      intro v hv
      obtain ⟨targets, hasked, hperm⟩ := h.asked v hv
      refine ⟨targets, ?_, hperm⟩
      have hlt := h.xmin_lt hv
      show (w.requests ++ [q])[v.xmin]? = _
      rw [List.getElem?_append_left hlt]
      exact hasked }

theorem guar_arrive (q : Request) (n : ℕ) (r : Role) : Guar r w (w.enter (.request n q)) where
  requests := List.prefix_append _ _
  workers := fun _ hj => hj
  others := by
    intro r' _ _
    cases r' with
    | request m q' =>
        exact
          { requests := List.prefix_append _ _
            events := fun _ he => he
            drawn := fun _ hd => hd
            connections := fun c hc _ => ⟨c, hc, rfl⟩
            pendingJobs := rfl
            pendingTargets := rfl
            committed := fun v hv hc => ⟨v, hv, hc, rfl, rfl⟩
            unspawned := fun _ _ _ hfree => hfree }
    | worker k =>
        exact
          { events := fun _ he => he
            jobs := fun _ _ => Iff.rfl
            targets := fun _ _ => Iff.rfl
            trace := fun _ he => he
            traced := fun _ _ he => he }
  evolves := .of_eq (List.prefix_refl _) rfl rfl

/-- Only the start of a program takes its role. -/
theorem taken_of_enter {r r' : Role} (hfree : ¬ Taken w r) (htaken : Taken (w.enter r) r)
    (h : Taken (w.enter r) r') : Taken w r' ∨ r' = r := by
  cases r with
  | worker j =>
      cases r' with
      | request m q' => exact Or.inl h
      | worker k =>
          rcases List.mem_append.mp h with hk | hk
          · exact Or.inl hk
          · exact Or.inr (congrArg Role.worker (List.mem_singleton.mp hk))
  | request n q =>
      cases r' with
      | worker k => exact Or.inl h
      | request m q' =>
          change (w.requests ++ [q])[m]? = some q' at h
          change (w.requests ++ [q])[n]? = some q at htaken
          change ¬ w.requests[n]? = some q at hfree
          by_cases hlt : m < w.requests.length
          · rw [List.getElem?_append_left hlt] at h
            exact Or.inl h
          · -- the new request has the next number
            refine Or.inr ?_
            have hlength : ∀ {i : ℕ} {q'' : Request}, ¬ i < w.requests.length →
                (w.requests ++ [q])[i]? = some q'' → i = w.requests.length := by
              intro i q'' hle hi
              obtain ⟨hi, -⟩ := List.getElem?_eq_some_iff.mp hi
              rw [List.length_append, List.length_singleton] at hi
              omega
            have hn : n = w.requests.length := by
              refine hlength (fun hlt => hfree ?_) htaken
              rwa [List.getElem?_append_left hlt] at htaken
            obtain rfl := hlength hlt h
            subst hn
            rw [List.getElem?_append_right (le_refl _), Nat.sub_self] at h
            obtain rfl := Option.some.inj h
            rfl

/-- A statement takes no role. -/
theorem taken_of_exec {β : Type} {st : Stmt β} {x : Draw} {b : β} {r : Role}
    (hexec : st.exec x w = some (b, w')) (h : Taken w' r) : Taken w r := by
  have hframe := Stmt.exec_frame hexec
  cases r with
  | request n q =>
      unfold Taken at h ⊢
      rwa [hframe.requests] at h
  | worker j =>
      unfold Taken at h ⊢
      rwa [hframe.workers] at h

/-- Every request starts a program that keeps the discipline. -/
theorem hospitable_ownership (env : Deployment) : (ownership env).Hospitable := by
  intro q w _ hinv
  refine ⟨?_, guar_arrive q w.requests.length _, hinv.arrive q w.requests.length, ?_, ?_⟩
  · show w.requests[w.requests.length]? ≠ some q
    rw [List.getElem?_eq_none (le_refl _)]
    simp
  · show (w.requests ++ [q])[w.requests.length]? = some q
    simp
  · have hidle := idle_arrival hinv q
    cases q with
    | crossPost userId eventId key targets =>
        show (ownership env).wp _ (respond env _ _) _ _
        rw [respond, Discipline.wp_bind]
        refine Discipline.wp_mono (fun r w h => ?_) (keeps_crossPost hidle)
        cases r with
        | ok response => exact h
        | error e =>
            intro user event key' targets' status job _ hr
            cases hr
    | _ => exact wp_respond_of_notCrossPost trivial hidle

/-! ## Runs -/

/-- The service before the first request. -/
def idleService : Pool Stmt Role Outcome World := ⟨World.empty, []⟩

/-- What the service reaches under some schedule of requests, statements and inputs. -/
def Reachable (env : Deployment) (p : Pool Stmt Role Outcome World) : Prop :=
  Pool.Reaches (service env) idleService p

/-- In every state that the service reaches, everything is in order. -/
theorem Reachable.poolOk {p : Pool Stmt Role Outcome World} (h : Reachable env p) :
    (ownership env).PoolOk p := by
  obtain ⟨ls, hls⟩ := h
  have hstart : (ownership env).PoolOk idleService := Discipline.poolOk_nil inv_empty
  exact hstart.run (hospitable_ownership env)
    (Discipline.followsAll_of_assume (fun _ _ _ _ => trivial) (fun _ => trivial) _ _) hls

end Service
