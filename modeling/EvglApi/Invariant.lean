/-
# What handlers and workers agree on

* `Inv` is the invariant of the store: unique ids and keys, every job belongs to an
  event of its user, every target to a job and to a connection of that job's user,
  every job to the request that asked for it, and every recorded call to a job that
  has a worker.
* `Rely` is what a program may count on while the others are at work.  A request
  owns its uncommitted rows, a worker owns its job, the job's targets and what is
  recorded about them.
* `Evolves` is what no step undoes: stored outcomes, attempt numbers and the record.
-/
import EvglApi.Service
import EvglApi.RelyGuarantee

open Concurrency Mvcc

namespace Service

variable (env : Deployment)

/-! ## The record -/

namespace Effect

/-- The job that a recorded call or outcome is about. -/
def job : Effect → Option Uuid
  | .published call _ => some call.target.jobId
  | .outcome j _ => some j
  | .finished j => some j
  | _ => none

/-- The job and the target that a recorded call or outcome is about. -/
def target : Effect → Option (Uuid × Uuid)
  | .published call _ => some (call.target.jobId, call.target.id)
  | .outcome j t => some (j, t)
  | _ => none

/-- A target is closed by a successful call and by the storing of its outcome. -/
def Closes (t : Uuid) : Effect → Prop
  | .published call (.ok _) => call.target.id = t
  | .outcome _ t' => t' = t
  | _ => False

/-- The later effect is not a call on a target that the earlier one has closed. -/
def NotAgain (e e' : Effect) : Prop :=
  ∀ call result, e' = .published call result → ¬ e.Closes call.target.id

/-- An effect that closes a target is recorded about that target. -/
theorem Closes.target_eq {t : Uuid} {e : Effect} (h : e.Closes t) :
    ∃ j, e.job = some j ∧ e.target = some (j, t) := by
  cases e with
  | published call result =>
      cases result with
      | ok p => obtain rfl : call.target.id = t := h; exact ⟨_, rfl, rfl⟩
      | error e => exact h.elim
  | outcome j t' => obtain rfl : t' = t := h; exact ⟨_, rfl, rfl⟩
  | _ => exact h.elim

end Effect

/-! ## The invariant -/

/-- The columns that a target takes from an element of the request. -/
def PublishTarget.columns (t : PublishTarget) : Uuid × String × Value :=
  (t.connectionId, env.asStr t.provider, t.options)

namespace World

/-- The targets of a job. -/
def targetsOf (w : World) (j : Uuid) : List TargetFixed :=
  (w.targets.map fun v => v.row.toTargetFixed).filter (·.jobId = j)

/-- The targets of a job depend on the table of targets. -/
theorem targetsOf_congr {w w' : World} (h : w'.targets = w.targets) (j : Uuid) :
    w'.targetsOf j = w.targetsOf j := by
  rw [targetsOf, h, targetsOf]

/-- Request `n` has asked for the job with these targets. -/
def Asked (w : World) (n : ℕ) (job : JobFixed) (targets : List PublishTarget) : Prop :=
  w.requests[n]? =
    some (.crossPost job.userId job.eventId (some job.idempotencyKey) targets)

/-- The event of the job exists and belongs to the job's user. -/
def EventOwned (w : World) (job : JobFixed) : Prop :=
  ∃ e ∈ w.events, e.id = job.eventId ∧ e.ownerId = job.userId

/-- The connection of the target exists, belongs to the job's user and has the
target's provider, which is the name of a provider. -/
def ConnectionOwned (w : World) (job : JobFixed) (t : TargetFixed) : Prop :=
  (∃ p, t.provider = env.asStr p) ∧
    ∃ c ∈ w.connections, c.id = t.connectionId ∧ c.userId = job.userId ∧ c.provider = t.provider

end World

structure Inv (w : World) : Prop where
  jobIds : (w.jobs.map fun v => v.row.id).Nodup
  jobKeys : (w.jobs.map fun v => (v.row.userId, v.row.idempotencyKey)).Nodup
  targetIds : (w.targets.map fun v => v.row.id).Nodup
  connectionIds : (w.connections.map fun c => c.id).Nodup
  jobDrawn : ∀ v ∈ w.jobs, v.row.id ∈ w.drawn
  targetDrawn : ∀ v ∈ w.targets, v.row.id ∈ w.drawn
  connectionDrawn : ∀ c ∈ w.connections, c.id ∈ w.drawn
  eventOwned : ∀ v ∈ w.jobs, w.EventOwned v.row.toJobFixed
  targetJob : ∀ t ∈ w.targets, ∃ v ∈ w.jobs, v.row.id = t.row.jobId ∧ v.xmin = t.xmin ∧
    v.committed = t.committed ∧ w.ConnectionOwned env v.row.toJobFixed t.row.toTargetFixed
  /-- A job was asked for by the request that inserted it; a committed one has the
  targets of the request. -/
  asked : ∀ v ∈ w.jobs, ∃ targets, w.Asked v.xmin v.row.toJobFixed targets ∧
    (v.committed = true → ((w.targetsOf v.row.id).map TargetFixed.columns).Perm
      (targets.map (PublishTarget.columns env)))
  spawned : ∀ j ∈ w.workers, ∃ v ∈ w.jobs, v.row.id = j ∧ v.committed = true
  /-- Nothing has been tried at the targets of a job without a worker. -/
  idle : ∀ t ∈ w.targets, t.row.jobId ∉ w.workers → t.row.attempt = 0
  jobTraced : ∀ e ∈ w.trace, ∀ j, e.job = some j → j ∈ w.workers
  targetTraced : ∀ e ∈ w.trace, ∀ j t, e.target = some (j, t) →
    ∃ v ∈ w.targets, v.row.id = t ∧ v.row.jobId = j
  upserted : ∀ c ∈ w.connections, Effect.upserted c ∈ w.trace
  once : w.trace.Pairwise Effect.NotAgain

/-! ## What never changes back -/

/-- Committed rows stay; attempt numbers never decrease, and a row whose outcome has
been stored does not change any more. -/
structure Evolves (w w' : World) : Prop where
  trace : w.trace <+: w'.trace
  targets : ∀ v ∈ w.targets, v.committed = true → ∃ v' ∈ w'.targets, v'.committed = true ∧
    v'.row.id = v.row.id ∧ v.row.attempt ≤ v'.row.attempt ∧
      (Effect.outcome v.row.jobId v.row.id ∈ w.trace → v'.row = v.row)
  jobs : ∀ v ∈ w.jobs, v.committed = true → ∃ v' ∈ w'.jobs, v'.committed = true ∧
    v'.row.toJobFixed = v.row.toJobFixed ∧ (Effect.finished v.row.id ∈ w.trace → v'.row = v.row)

/-- A step that only adds to the record. -/
theorem Evolves.of_eq {w w' : World} (htrace : w.trace <+: w'.trace)
    (htargets : w'.targets = w.targets) (hjobs : w'.jobs = w.jobs) : Evolves w w' where
  trace := htrace
  targets := fun v hv hc => ⟨v, htargets ▸ hv, hc, rfl, le_refl _, fun _ => rfl⟩
  jobs := fun v hv hc => ⟨v, hjobs ▸ hv, hc, rfl, fun _ => rfl⟩

theorem Evolves.refl (w : World) : Evolves w w := .of_eq (List.prefix_refl _) rfl rfl

/-- Two steps that undo nothing undo nothing together: once its outcome is stored, a row stays
through both. -/
theorem Evolves.trans {w w' w'' : World} (h : Evolves w w') (h' : Evolves w' w'') :
    Evolves w w'' where
  trace := h.trace.trans h'.trace
  targets := by
    intro v hv hc
    obtain ⟨v', hv', hc', hid', hle', hsame'⟩ := h.targets v hv hc
    obtain ⟨v'', hv'', hc'', hid'', hle'', hsame''⟩ := h'.targets v' hv' hc'
    refine ⟨v'', hv'', hc'', hid''.trans hid', hle'.trans hle'', fun hmem => ?_⟩
    have hrow := hsame' hmem
    refine (hsame'' ?_).trans hrow
    rw [hrow]
    exact h.trace.subset hmem
  jobs := by
    intro v hv hc
    obtain ⟨v', hv', hc', heq', hsame'⟩ := h.jobs v hv hc
    obtain ⟨v'', hv'', hc'', heq'', hsame''⟩ := h'.jobs v' hv' hc'
    refine ⟨v'', hv'', hc'', heq''.trans heq', fun hmem => ?_⟩
    have hrow := hsame' hmem
    refine (hsame'' ?_).trans hrow
    rw [hrow]
    exact h.trace.subset hmem

/-! ## Rely and guarantee -/

/-- What request `n` may count on. -/
structure RelyRequest (n : ℕ) (w w' : World) : Prop where
  requests : w.requests <+: w'.requests
  events : w.events ⊆ w'.events
  drawn : w.drawn ⊆ w'.drawn
  /-- A connection with an old id is an old connection. -/
  connections : ∀ c' ∈ w'.connections, c'.id ∈ w.drawn →
    ∃ c ∈ w.connections, c.toConnectionFixed = c'.toConnectionFixed
  pendingJobs : w'.jobs.pending n = w.jobs.pending n
  pendingTargets : w'.targets.pending n = w.targets.pending n
  committed : ∀ v ∈ w.jobs, v.committed = true → ∃ v' ∈ w'.jobs, v'.committed = true ∧
    v'.xmin = v.xmin ∧ v'.row.toJobFixed = v.row.toJobFixed
  unspawned : ∀ v ∈ w.jobs, v.xmin = n → v.row.id ∉ w.workers → v.row.id ∉ w'.workers

/-- What the worker of job `j` may count on. -/
structure RelyWorker (j : Uuid) (w w' : World) : Prop where
  events : w.events ⊆ w'.events
  jobs : ∀ v : Version JobRow, v.row.id = j → (v ∈ w'.jobs ↔ v ∈ w.jobs)
  targets : ∀ v : Version TargetRow, v.row.jobId = j → (v ∈ w'.targets ↔ v ∈ w.targets)
  trace : w.trace ⊆ w'.trace
  traced : ∀ e : Effect, e.job = some j → e ∈ w'.trace → e ∈ w.trace

def Rely : Role → World → World → Prop
  | .request n _ => RelyRequest n
  | .worker j => RelyWorker j

/-- Every role may count on a world that does not change. -/
theorem Rely.refl (r : Role) (w : World) : Rely r w w := by
  cases r with
  | request n q =>
      exact ⟨List.prefix_refl _, fun _ h => h, fun _ h => h, fun c hc _ => ⟨c, hc, rfl⟩, rfl, rfl,
        fun v hv hc => ⟨v, hv, hc, rfl, rfl⟩, fun _ _ _ h => h⟩
  | worker j => exact ⟨fun _ h => h, fun _ _ => Iff.rfl, fun _ _ => Iff.rfl, fun _ h => h,
      fun _ _ h => h⟩

/-- The step changes the jobs, the targets and the trace at most, and draws ids. -/
structure OnlyRows (w w' : World) : Prop where
  requests : w'.requests = w.requests
  workers : w'.workers = w.workers
  events : w'.events = w.events
  connections : w'.connections = w.connections
  drawn : w.drawn ⊆ w'.drawn

/-- A step on jobs and targets, seen from a request: its pending rows are as before, and the
committed jobs stay. -/
theorem RelyRequest.of_rows {n : ℕ} {w w' : World} (h : OnlyRows w w')
    (hjobs : w'.jobs.pending n = w.jobs.pending n)
    (htargets : w'.targets.pending n = w.targets.pending n)
    (hcommitted : ∀ v ∈ w.jobs, v.committed = true → ∃ v' ∈ w'.jobs, v'.committed = true ∧
      v'.xmin = v.xmin ∧ v'.row.toJobFixed = v.row.toJobFixed) : RelyRequest n w w' where
  requests := h.requests ▸ List.prefix_refl _
  events := h.events ▸ fun _ he => he
  drawn := h.drawn
  connections := fun c hc _ => ⟨c, h.connections ▸ hc, rfl⟩
  pendingJobs := hjobs
  pendingTargets := htargets
  committed := hcommitted
  unspawned := fun _ _ _ hfree => h.workers ▸ hfree

/-- A step on jobs and targets, seen from a worker: its job, the targets of the job and the record
are as before. -/
theorem RelyWorker.of_rows {j : Uuid} {w w' : World} (h : OnlyRows w w')
    (htrace : w'.trace = w.trace)
    (hjobs : ∀ v : Version JobRow, v.row.id = j → (v ∈ w'.jobs ↔ v ∈ w.jobs))
    (htargets : ∀ v : Version TargetRow, v.row.jobId = j → (v ∈ w'.targets ↔ v ∈ w.targets)) :
    RelyWorker j w w' where
  events := h.events ▸ fun _ he => he
  jobs := hjobs
  targets := htargets
  trace := htrace ▸ fun _ he => he
  traced := fun _ _ he => htrace ▸ he

/-- An own job is still there. -/
theorem RelyRequest.exists_job {n : ℕ} {w w' : World} (h : RelyRequest n w w')
    {v : Version JobRow} (hv : v ∈ w.jobs) (hx : v.xmin = n) :
    ∃ v' ∈ w'.jobs, v'.xmin = n ∧ v'.row.toJobFixed = v.row.toJobFixed := by
  obtain ⟨x, c, row⟩ := v
  obtain rfl : x = n := hx
  cases c with
  | true =>
      obtain ⟨v', hv', -, hx', heq⟩ := h.committed _ hv rfl
      exact ⟨v', hv', hx', heq⟩
  | false =>
      have hpending : row ∈ w'.jobs.pending x := by
        rw [h.pendingJobs]
        exact Table.mem_pending.mpr hv
      exact ⟨_, Table.mem_pending.mp hpending, rfl, rfl⟩

/-- What a request may count on adds up.  A job of its own is found again after the first step, so
the second one cannot give it a worker either. -/
theorem RelyRequest.trans {n : ℕ} {w w' w'' : World} (h : RelyRequest n w w')
    (h' : RelyRequest n w' w'') : RelyRequest n w w'' where
  requests := h.requests.trans h'.requests
  events := fun _ he => h'.events (h.events he)
  drawn := fun _ hd => h'.drawn (h.drawn hd)
  connections := by
    intro c'' hc'' hid
    obtain ⟨c', hc', heq'⟩ := h'.connections c'' hc'' (h.drawn hid)
    have hid' : c'.id = c''.id := congrArg ConnectionFixed.id heq'
    obtain ⟨c, hc, heq⟩ := h.connections c' hc' (hid' ▸ hid)
    exact ⟨c, hc, heq.trans heq'⟩
  pendingJobs := h'.pendingJobs.trans h.pendingJobs
  pendingTargets := h'.pendingTargets.trans h.pendingTargets
  committed := by
    intro v hv hc
    obtain ⟨v', hv', hc', hx', heq'⟩ := h.committed v hv hc
    obtain ⟨v'', hv'', hc'', hx'', heq''⟩ := h'.committed v' hv' hc'
    exact ⟨v'', hv'', hc'', hx''.trans hx', heq''.trans heq'⟩
  unspawned := by
    intro v hv hx hfree
    obtain ⟨v', hv', hx', heq'⟩ := h.exists_job hv hx
    have hid' : v'.row.id = v.row.id := congrArg JobFixed.id heq'
    rw [← hid'] at hfree ⊢
    rw [hid'] at hfree
    exact h'.unspawned v' hv' hx' (hid' ▸ h.unspawned v hv hx hfree)

/-- What a worker may count on adds up. -/
theorem RelyWorker.trans {j : Uuid} {w w' w'' : World} (h : RelyWorker j w w')
    (h' : RelyWorker j w' w'') : RelyWorker j w w'' where
  events := fun _ he => h'.events (h.events he)
  jobs := fun v hv => (h'.jobs v hv).trans (h.jobs v hv)
  targets := fun v hv => (h'.targets v hv).trans (h.targets v hv)
  trace := fun _ he => h'.trace (h.trace he)
  traced := fun e he hmem => h.traced e he (h'.traced e he hmem)

theorem Rely.trans {r : Role} {w w' w'' : World} (h : Rely r w w') (h' : Rely r w' w'') :
    Rely r w w'' := by
  cases r with
  | request n q => exact RelyRequest.trans h h'
  | worker j => exact RelyWorker.trans h h'

/-! ## The discipline -/

/-- The program has been started. -/
def Taken (w : World) : Role → Prop
  | .request n q => w.requests[n]? = some q
  | .worker j => j ∈ w.workers

/-- What a step in the role may do. -/
structure Guar (r : Role) (w w' : World) : Prop where
  requests : w.requests <+: w'.requests
  workers : w.workers ⊆ w'.workers
  others : ∀ r', r ≠ r' → Taken w r' → Rely r' w w'
  evolves : Evolves w w'

/-- A program that has been started stays started. -/
theorem Taken.mono {w w' : World} (hrequests : w.requests <+: w'.requests)
    (hworkers : w.workers ⊆ w'.workers) {r : Role} (h : Taken w r) : Taken w' r := by
  cases r with
  | request n q =>
      obtain ⟨hn, hq⟩ := List.getElem?_eq_some_iff.mp h
      obtain ⟨rest, heq⟩ := hrequests
      show w'.requests[n]? = some q
      rw [← heq, List.getElem?_append_left hn]
      exact h
  | worker j => exact hworkers h

theorem Guar.trans {r : Role} {w w' w'' : World} (h : Guar r w w') (h' : Guar r w' w'') :
    Guar r w w'' where
  requests := h.requests.trans h'.requests
  workers := fun _ hj => h'.workers (h.workers hj)
  others := fun r' hne htaken =>
    (h.others r' hne htaken).trans (h'.others r' hne (htaken.mono h.requests h.workers))
  evolves := h.evolves.trans h'.evolves

/-- The job with this fixed part is committed, and request `n` inserted it. -/
def World.HasJob (w : World) (n : ℕ) (job : JobFixed) : Prop :=
  ∃ v ∈ w.jobs, v.committed = true ∧ v.xmin = n ∧ v.row.toJobFixed = job

/-- A stored job stays stored, with the request that inserted it. -/
theorem RelyRequest.hasJob {n m : ℕ} {w w' : World} {job : JobFixed} (h : RelyRequest n w w')
    (hjob : w.HasJob m job) : w'.HasJob m job := by
  obtain ⟨v, hv, hc, hx, heq⟩ := hjob
  obtain ⟨v', hv', hc', hx', heq'⟩ := h.committed v hv hc
  exact ⟨v', hv', hc', hx'.trans hx, heq'.trans heq⟩

/-- A reply to a cross-post request with a job: the job is stored under the user and
the key of the request. -/
def JobReply (q : Request) (r : Except ApiError Response) (w : World) : Prop :=
  ∀ user eventId key targets status job,
    q = .crossPost user eventId key targets → r = .ok (.job status job) →
      (∃ m, w.HasJob m job.toJobFixed) ∧ job.userId = user ∧ key = some job.idempotencyKey

/-- The errors with which a worker may end. -/
def WorkerError (e : ApiError) : Prop :=
  (∃ error, e = .internal (.db error)) ∨ ∃ error, e = .internal (.json error)

/-- What holds of a finished program. -/
def Ended : Role → Outcome → World → Prop
  | .request _ q, .reply r, w => JobReply q r w
  | .worker _, .finished r, _ => ∀ e, r = .error e → WorkerError e
  | _, _, _ => False

/-- Provider names parse back to the provider. -/
def Deployment.NamesParse : Prop := ∀ p, env.fromStr (env.asStr p) = .ok p

/-- A call of the worker of job `j` is about a target of the job, publishes an event of
the job's user, and uses the credentials of a stored connection of that user. -/
def Rightful (j : Uuid) (call : PublishCall) (w : World) : Prop :=
  ∃ v ∈ w.jobs, v.row.id = j ∧ v.row.id = call.target.jobId ∧
    (∃ e ∈ w.events, e.id = v.row.eventId ∧ e.ownerId = v.row.userId ∧
      env.eventFromValue e.document = .ok call.event) ∧
    ∃ c, Effect.upserted c ∈ w.trace ∧ c.id = call.target.connectionId ∧
      c.userId = v.row.userId ∧ c.provider = call.target.provider ∧
      env.decrypt c.aad c.tokenEnvelope = .ok call.tokens

/-- What holds whenever the worker of job `j` is about to execute a statement: what it
selects exists, it does not give a target up for an unreadable provider or a missing
connection, and its calls are rightful. -/
def WorkerNeeds (j : Uuid) {β : Type} : Stmt β → World → Prop
  | .query (.selectEventDocument id ownerId), w => ∃ e ∈ w.events, e.id = id ∧ e.ownerId = ownerId
  | .query (.selectConnection id userId), w => ∃ c ∈ w.connections, c.id = id ∧ c.userId = userId
  | .query (.selectJob id userId), w =>
      ∃ v ∈ w.jobs, v.committed = true ∧ v.row.id = id ∧ v.row.userId = userId
  | .query (.updateTargetFailed _ _ why), _ =>
      (env.NamesParse → ∀ e, why ≠ .invalidProvider e) ∧
        ∀ text, why ≠ .connectionUnavailable (.notFound text)
  | .publish call, w => Rightful env j call w
  | _, _ => True

def Needs : Role → {β : Type} → Stmt β → World → Prop
  | .request _ _, _, _, _ => True
  | .worker j, _, st, w => WorkerNeeds env j st w

/-- Every handler and every worker keeps the invariant and its guarantee, under every
schedule. -/
def ownership : Discipline (service env) where
  inv := Inv env
  assume _ _ _ _ := True
  admits _ := True
  needs r st w := Needs env r st w
  guar := Guar
  rely := Rely
  taken := Taken
  post := Ended
  rely_refl := Rely.refl
  rely_trans := Rely.trans
  rely_of_guar _ _ _ htaken hne hguar := hguar.others _ hne htaken
  taken_of_guar hguar htaken := htaken.mono hguar.requests hguar.workers
  post_of_rely {r a _ _} hrely hpost := by
    cases r with
    | request n q =>
        cases a with
        | reply r =>
            intro user eventId key targets status job hq hr
            obtain ⟨⟨m, hjob⟩, hrest⟩ := hpost user eventId key targets status job hq hr
            exact ⟨⟨m, hrely.hasJob hjob⟩, hrest⟩
        | finished r => exact hpost.elim
    | worker j =>
        cases a with
        | reply r => exact hpost.elim
        | finished r => exact hpost

end Service
