/-
# What becomes of a job

What the programs of the service agree on besides: only the worker of a job announces
anything about the job as a whole, and only the request that inserted a job commits it.

* `Reported` is what an adapter has answered about a target, `jobUpdates` what has been
  announced about a job as a whole.
* `Stmt.spared` says which failures a worker gets over.
* `Left` is what a finished program leaves behind: a request its jobs with a worker each, a
  worker the status that its targets add up to, and if it was spared no open target.
-/
import EvglApi.CrossPostKeeps
import EvglApi.Extension

open Concurrency Mvcc

namespace Service

variable (env : Deployment)

/-! ## Statuses -/

/-- A status with which a job is over. -/
def Terminal (status : String) : Prop :=
  status = "failed" ∨ status = "action_required" ∨ status = "published"

instance : DecidablePred Terminal := fun _ => inferInstanceAs (Decidable (_ ∨ _ ∨ _))

/-- A status with which somebody is still to work on a job or a target. -/
def InProgress (status : String) : Prop := status = "queued" ∨ status = "running"

instance : DecidablePred InProgress := fun _ => inferInstanceAs (Decidable (_ ∨ _))

/-- Nobody is still to work on a job that is over. -/
theorem Terminal.not_inProgress {status : String} (h : Terminal status) : ¬ InProgress status := by
  rcases h with rfl | rfl | rfl
  all_goals decide

/-- The stored text tells the status. -/
theorem statusName_injective : Function.Injective statusName := by
  intro s s' h
  cases s <;> cases s' <;> first | rfl | exact absurd h (by decide)

namespace World

/-- An adapter has answered that target `t` of job `j` is published, with this status. -/
def Reported (w : World) (j t : Uuid) (status : PublicationStatus) : Prop :=
  ∃ call fields, Effect.published call (.ok ⟨status, fields⟩) ∈ w.trace ∧
    call.target.jobId = j ∧ call.target.id = t

/-- Some target of job `j` has the status. -/
def HasTarget (w : World) (j : Uuid) (status : String) : Prop :=
  ∃ v ∈ w.targets, v.row.jobId = j ∧ v.row.status = status

end World

/-- The update, if it is about job `j` as a whole. -/
def Effect.jobUpdate (j : Uuid) : Effect → Option JobUpdate
  | .emitted u => if u.jobId = j ∧ u.provider = none then some u else none
  | _ => none

/-- What has been announced about job `j` as a whole. -/
def World.jobUpdates (w : World) (j : Uuid) : List JobUpdate :=
  w.trace.filterMap (Effect.jobUpdate j)

/-- The job has a terminal status, and none of its targets is still to be worked on. -/
structure Settled (w : World) (j : Uuid) : Prop where
  job : ∃ v ∈ w.jobs, v.row.id = j ∧ v.committed = true ∧ Terminal v.row.status
  targets : ∀ v ∈ w.targets, v.row.jobId = j → ¬ InProgress v.row.status

/-- The status is the one that the targets of job `j` add up to in `finish_job`. -/
structure Tally (w : World) (j : Uuid) (status : String) : Prop where
  failed : status = "failed" ↔ w.HasTarget j "failed"
  action : status = "action_required" ↔
    ¬ w.HasTarget j "failed" ∧ w.HasTarget j "action_required"
  terminal : Terminal status

/-! ## Failures -/

/-- The answer can be stored, and closes the target. -/
def closing : Except ProviderError Publication → Bool
  | .ok publication => (env.publicationToValue publication).isOk &&
      decide (publication.status ≠ .queued ∧ publication.status ≠ .running)
  | .error _ => true

/-- The worker gets over what the statement meets with: a query succeeds, unless it selects
a connection or a job, or the targets of a job that is over; the document of an event reads
as one; a publication encodes, and is not reported queued or running. -/
def Stmt.spared {β : Type} : Stmt β → Draw → World → Bool
  | .query (.selectEventDocument id ownerId), x, w => x.fails.isNone &&
      (w.events.find? fun e => e.id = id ∧ e.ownerId = ownerId).all fun e =>
        (env.eventFromValue e.document).isOk
  | .query (.selectConnection _ _), _, _ => true
  | .query (.selectJob _ _), _, _ => true
  | .query (.selectTargets jobId), x, w => x.fails.isNone ||
      (w.jobs.rows none).all fun j => j.id = jobId → Terminal j.status
  | .query _, x, _ => x.fails.isNone
  | .publish _, x, _ => closing env x.publication
  | _, _, _ => true

/-! ## What the programs agree on -/

/-- A role inserts and commits its own jobs only, and announces its own job only. -/
def Abides {β : Type} : Role → Stmt β → Prop
  | .request n _, .query (.insertJob m _ _ _) => m = n
  | .request n _, .query (.commit m) => m = n
  | .request _ _, .emit .. => False
  | .worker _, .query (.insertJob ..) => False
  | .worker _, .query (.commit _) => False
  | .worker j, .emit job _ _ _ _ _ => job.id = j
  | _, _ => True

/-- The jobs of other requests keep their ids and their marks. -/
def SameJobs (r : Role) (w w' : World) : Prop :=
  ∀ v' ∈ w'.jobs, (∀ q, r ≠ .request v'.xmin q) → ∃ v ∈ w.jobs, v.xmin = v'.xmin ∧
    v.row.id = v'.row.id ∧ v.committed = v'.committed

/-- What a step in the role leaves alone: what was announced about the jobs of others, and
the jobs of other requests but for their status. -/
structure Leaves (r : Role) (w w' : World) : Prop where
  updates : ∀ k, r ≠ .worker k → w'.jobUpdates k = w.jobUpdates k
  jobs : SameJobs r w w'

/-- What a role may count on besides. -/
def Undisputed : Role → World → World → Prop
  | .request n _, w, w' => w.workers ⊆ w'.workers ∧ ∀ v' ∈ w'.jobs, v'.xmin = n →
      ∃ v ∈ w.jobs, v.xmin = n ∧ v.row.id = v'.row.id ∧ v.committed = v'.committed
  | .worker j, w, w' => w'.jobUpdates j = w.jobUpdates j

/-- The worker of job `j` has gone through the targets, but for those in `rest`; the answer
`due` of an adapter is still to be stored. -/
structure Progress (calm : Prop) (j : Uuid) (due : Option (Uuid × PublicationStatus))
    (rest : List Uuid) (w : World) : Prop where
  rows : ∀ v ∈ w.targets, v.row.jobId = j →
    v.row.id ∈ rest ∨ v.row.status = "failed" ∨ ∃ s, w.Reported j v.row.id s
  stored : ∀ t s, w.Reported j t s → due = some (t, s) ∨
    t ∉ rest ∧ ∀ v ∈ w.targets, v.row.jobId = j → v.row.id = t → v.row.status = statusName s
  answered : ∀ t s, due = some (t, s) → w.Reported j t s
  ahead : ∀ t ∈ rest, ∃ v ∈ w.targets, v.row.id = t ∧ v.row.jobId = j
  nodup : rest.Nodup
  spared : calm → ∀ t s, w.Reported j t s → s ≠ .queued ∧ s ≠ .running

/-- The worker of job `j` has stored the status of the job. -/
structure Concluded (calm : Prop) (j : Uuid) (w : World) : Prop where
  progress : Progress calm j none [] w
  job : ∃ v ∈ w.jobs, v.row.id = j ∧ v.committed = true ∧ Tally w j v.row.status

/-- The worker of job `j` has announced the status of the job. -/
structure Announced (calm : Prop) (j : Uuid) (w : World) : Prop extends Concluded calm j w where
  update : ∃ u, (w.jobUpdates j).getLast? = some u ∧
    ∀ v ∈ w.jobs, v.row.id = j → u.status = finalStatus v.row.status

/-- What a finished program leaves behind. -/
def Left (calm : Prop) : Role → Outcome → World → Prop
  | .request n _, _, w => ∀ v ∈ w.jobs, v.xmin = n → v.row.id ∈ w.workers
  | .worker j, .finished r, w => (r = .ok () → Announced calm j w) ∧ (calm → Settled w j)
  | .worker _, .reply _, _ => False

/-! ## What the statements do -/

variable {env} {w w' : World} {β : Type} {x : Draw} {r : Role}

/-- Recorded effects other than updates about a whole job. -/
theorem jobUpdates_append (es : List Effect) {j : Uuid} (htrace : w'.trace = w.trace ++ es)
    (hes : ∀ e ∈ es, e.jobUpdate j = none) : w'.jobUpdates j = w.jobUpdates j := by
  rw [World.jobUpdates, htrace, List.filterMap_append, List.filterMap_eq_nil_iff.mpr hes,
    List.append_nil, World.jobUpdates]

/-- An effect that is no update announces nothing. -/
theorem jobUpdate_eq_none {e : Effect} (he : e.update = none) (j : Uuid) :
    e.jobUpdate j = none := by
  cases e with
  | emitted u => cases he
  | _ => rfl

/-- No query announces anything. -/
theorem jobUpdates_query {k : Query β} {a : Except DbError β} (hexec : k.exec x w = some (a, w'))
    (j : Uuid) : w'.jobUpdates j = w.jobUpdates j := by
  obtain ⟨es, htrace, hes⟩ := Query.exec_trace hexec
  exact jobUpdates_append es htrace fun e he => jobUpdate_eq_none (hes e he) j

theorem sameJobs_of_eq (h : w'.jobs = w.jobs) : SameJobs r w w' := by
  intro v hv _
  rw [h] at hv
  exact ⟨v, hv, rfl, rfl, rfl⟩

/-- An update of a job keeps the ids and the marks. -/
theorem sameJobs_updateJob {j : Uuid} {f : JobRow → JobRow}
    (hf : ∀ r, (f r).toJobFixed = r.toJobFixed) : SameJobs r w (w.updateJob j f) := by
  intro v hv _
  obtain ⟨u, hu, hx, hc, hfixed⟩ := exists_of_mem_updateJob hf hv
  exact ⟨u, hu, hx, (congrArg JobFixed.id hfixed).symm, hc⟩

/-- A query leaves the jobs of other requests alone, if it inserts and commits for its own request
only. -/
theorem sameJobs_query {k : Query β} {a : Except DbError β} (habides : Abides r (.query k))
    (hexec : k.exec x w = some (a, w')) : SameJobs r w w' := by
  cases k with
  | commit m =>
      obtain ⟨-, rfl⟩ := Prod.mk.inj (Option.some.inj hexec)
      cases r with
      | worker j => exact habides.elim
      | request n q =>
          obtain rfl : m = n := habides
          intro v hv hother
          obtain ⟨u, hu, hx, hrow, hc⟩ := Table.exists_of_mem_commit hv
          refine ⟨u, hu, hx, congrArg (fun j : JobRow => j.id) hrow, ?_⟩
          rw [Bool.eq_iff_iff, hc]
          refine ⟨Or.inl, fun h => h.resolve_right fun hm => ?_⟩
          rw [hx] at hm
          exact hother q (by rw [hm])
  | insertJob m userId eventId key =>
      cases r with
      | worker j => exact habides.elim
      | request n q =>
          obtain rfl : m = n := habides
          obtain ⟨e, -, rfl⟩ | ⟨row, -, rfl, -⟩ := insertJob_cases hexec
          · exact sameJobs_of_eq rfl
          · intro v hv hother
            rcases Table.mem_insert.mp hv with hv | rfl
            · exact ⟨v, hv, rfl, rfl, rfl⟩
            · exact absurd rfl (hother q)
  | updateJobRunning id =>
      obtain ⟨-, rfl⟩ := Prod.mk.inj (Option.some.inj hexec)
      exact sameJobs_updateJob fun _ => rfl
  | updateJobStatus id status =>
      obtain ⟨-, rfl⟩ := Prod.mk.inj (Option.some.inj hexec)
      intro v hv hother
      refine sameJobs_updateJob (w := w) (j := id)
        (f := fun j => { j with status, updatedAt := x.now }) (fun _ => rfl) v hv hother
  | _ => exact sameJobs_of_eq ((Query.exec_frame hexec).jobs (by simp))

/-- A statement that a role may execute leaves alone what the role has to leave alone: only `emit`
announces, and only about the own job of a worker. -/
theorem leaves_of_exec {st : Stmt β} {b : β} (habides : Abides r st)
    (hexec : st.exec x w = some (b, w')) : Leaves r w w' := by
  have hrecorded : ∀ es : List Effect, w'.trace = w.trace ++ es →
      (∀ e ∈ es, ∀ j, r ≠ .worker j → e.jobUpdate j = none) → w'.jobs = w.jobs → Leaves r w w' :=
    fun es htrace hes hjobs => ⟨fun j hj => jobUpdates_append es htrace fun e he => hes e he j hj,
      sameJobs_of_eq hjobs⟩
  have hframe := Stmt.exec_frame hexec
  have hsame : w'.trace = w.trace → w'.jobs = w.jobs → Leaves r w w' := fun htrace hjobs =>
    hrecorded [] (by simp [htrace]) (by simp) hjobs
  cases st with
  | query k =>
      rcases Stmt.exec_query hexec with ⟨text, -, -, rfl⟩ | ⟨-, hexec⟩
      · exact hsame rfl rfl
      · exact ⟨fun j _ => jobUpdates_query hexec j, sameJobs_query habides hexec⟩
  | rollback m =>
      obtain ⟨-, rfl⟩ := Prod.mk.inj (Option.some.inj hexec)
      exact ⟨fun _ _ => rfl, fun v hv _ => ⟨v, (Table.mem_rollback.mp hv).1, rfl, rfl, rfl⟩⟩
  | newUuid | randomUrlsafe | resolveAccounts =>
      exact hsame (hframe.trace (by simp)) (hframe.jobs (by simp))
  | encrypt aad tokens =>
      rcases Stmt.exec_encrypt hexec with ⟨e, -, rfl⟩ | ⟨envelope, -, rfl⟩
      · exact hsame rfl rfl
      · exact hrecorded _ rfl (by simp [Effect.jobUpdate]) rfl
  | emit job provider status attempt message publication =>
      obtain ⟨-, rfl⟩ := Prod.mk.inj (Option.some.inj hexec)
      refine hrecorded _ rfl (fun e he j hj => ?_) rfl
      rw [List.mem_singleton.mp he]
      -- a worker announces its own job only
      cases r with
      | request n q => exact habides.elim
      | worker k =>
          obtain rfl : job.id = k := habides
          have hne : job.id ≠ j := fun heq => hj (by rw [heq])
          simp [Effect.jobUpdate, hne]
  | _ =>
      obtain ⟨-, rfl⟩ := Prod.mk.inj (Option.some.inj hexec)
      exact hrecorded _ rfl (by simp [Effect.jobUpdate]) rfl

/-! ## What the others leave alone -/

section Stable

variable {calm : Prop} {j t : Uuid} {status : PublicationStatus}

/-- Nobody else records an answer about the worker's job. -/
theorem RelyWorker.reported_iff (h : RelyWorker j w w') :
    w'.Reported j t status ↔ w.Reported j t status := by
  constructor
  · rintro ⟨call, fields, hmem, hjob, hid⟩
    exact ⟨call, fields, h.traced _ (congrArg some hjob) hmem, hjob, hid⟩
  · rintro ⟨call, fields, hmem, hjob, hid⟩
    exact ⟨call, fields, h.trace hmem, hjob, hid⟩

/-- Nobody else changes the statuses of the targets of the worker's job. -/
theorem RelyWorker.hasTarget_iff (h : RelyWorker j w w') {status : String} :
    w'.HasTarget j status ↔ w.HasTarget j status := by
  constructor
  · rintro ⟨v, hv, hjob, hstatus⟩
    exact ⟨v, (h.targets v hjob).mp hv, hjob, hstatus⟩
  · rintro ⟨v, hv, hjob, hstatus⟩
    exact ⟨v, (h.targets v hjob).mpr hv, hjob, hstatus⟩

theorem stable_tally (status : String) : Stable (.worker j) fun w => Tally w j status := by
  intro w w' hrely h
  have hrely : RelyWorker j w w' := hrely
  refine ⟨?_, ?_, h.terminal⟩
  · rw [hrely.hasTarget_iff]
    exact h.failed
  · rw [hrely.hasTarget_iff, hrely.hasTarget_iff]
    exact h.action

theorem stable_settled : Stable (.worker j) fun w => Settled w j := by
  intro w w' hrely h
  obtain ⟨v, hv, hid, hrest⟩ := h.job
  refine ⟨⟨v, (hrely.jobs v hid).mpr hv, hid, hrest⟩, fun t ht hjob => ?_⟩
  exact h.targets t ((hrely.targets t hjob).mp ht) hjob

/-- What the worker knows about its targets survives the steps of the others. -/
theorem stable_progress (due : Option (Uuid × PublicationStatus)) (rest : List Uuid) :
    Stable (.worker j) (Progress calm j due rest) := by
  intro w w' hrely h
  have hrely : RelyWorker j w w' := hrely
  refine ⟨fun v hv hjob => ?_, fun t s hreport => ?_, fun t s hdue => ?_, fun t ht => ?_, h.nodup,
    fun hcalm t s hreport => h.spared hcalm t s (hrely.reported_iff.mp hreport)⟩
  · refine (h.rows v ((hrely.targets v hjob).mp hv) hjob).imp id (Or.imp id ?_)
    rintro ⟨s, hreport⟩
    exact ⟨s, hrely.reported_iff.mpr hreport⟩
  · refine (h.stored t s (hrely.reported_iff.mp hreport)).imp id fun hstored => ?_
    exact ⟨hstored.1, fun v hv hjob => hstored.2 v ((hrely.targets v hjob).mp hv) hjob⟩
  · exact hrely.reported_iff.mpr (h.answered t s hdue)
  · obtain ⟨v, hv, hid, hjob⟩ := h.ahead t ht
    exact ⟨v, (hrely.targets v hjob).mpr hv, hid, hjob⟩

theorem stable_concluded : Stable (.worker j) (Concluded calm j) := by
  intro w w' hrely h
  obtain ⟨v, hv, hid, hc, htally⟩ := h.job
  exact ⟨stable_progress none [] w w' hrely h.progress, v, (hrely.jobs v hid).mpr hv, hid, hc,
    stable_tally _ w w' hrely htally⟩

/-- The last announcement stays the last, and stays true of the stored job. -/
theorem Announced.of_rely (hrely : RelyWorker j w w') (hmore : w'.jobUpdates j = w.jobUpdates j)
    (h : Announced calm j w) : Announced calm j w' := by
  obtain ⟨u, hlast, hstatus⟩ := h.update
  refine ⟨stable_concluded w w' hrely h.toConcluded, u, ?_, fun v hv hid => ?_⟩
  · rw [hmore]
    exact hlast
  · exact hstatus v ((hrely.jobs v hid).mp hv) hid

end Stable

theorem undisputed_refl (r : Role) (w : World) : Undisputed r w w := by
  cases r with
  | request n q => exact ⟨fun _ h => h, fun v hv hx => ⟨v, hv, hx, rfl, rfl⟩⟩
  | worker j => exact rfl

/-- What a role may count on besides adds up. -/
theorem Undisputed.trans {w'' : World} (h : Undisputed r w w') (h' : Undisputed r w' w'') :
    Undisputed r w w'' := by
  cases r with
  | request n q =>
      refine ⟨fun _ hj => h'.1 (h.1 hj), fun v'' hv'' hx'' => ?_⟩
      obtain ⟨v', hv', hx', hid', hc'⟩ := h'.2 v'' hv'' hx''
      obtain ⟨v, hv, hx, hid, hc⟩ := h.2 v' hv' hx'
      exact ⟨v, hv, hx, hid.trans hid', hc.trans hc'⟩
  | worker j => exact Eq.trans h' h

/-- What one role leaves alone, the others may count on.  Two requests differ in their numbers, so
that a row of the one is a row of nobody else. -/
theorem undisputed_of_leaves {r' : Role} (htaken : Taken w' r) (htaken' : Taken w r')
    (hne : r ≠ r') (hguar : Guar r w w') (h : Leaves r w w') : Undisputed r' w w' := by
  cases r' with
  | request n q =>
      refine ⟨hguar.workers, fun v hv hx => ?_⟩
      have hother : ∀ q', r ≠ .request v.xmin q' := by
        rintro q' rfl
        -- one request has this number
        rw [hx] at htaken hne
        have hq : w'.requests[n]? = some q := htaken'.mono hguar.requests hguar.workers
        obtain rfl := Option.some.inj (hq.symm.trans htaken)
        exact hne rfl
      obtain ⟨u, hu, hux, hid, hc⟩ := h.jobs v hv hother
      exact ⟨u, hu, hux.trans hx, hid, hc⟩
  | worker j => exact h.updates j hne

/-- What a finished program has left behind stays. -/
theorem left_of_rely {calm : Prop} {a : Outcome} (hrely : Rely r w w')
    (hmore : Undisputed r w w') (h : Left calm r a w) : Left calm r a w' := by
  cases r with
  | request n q =>
      intro v' hv' hx'
      obtain ⟨v, hv, hx, hid, -⟩ := hmore.2 v' hv' hx'
      exact hid ▸ hmore.1 (h v hv hx)
  | worker j =>
      cases a with
      | reply r => exact h.elim
      | finished r =>
          exact ⟨fun hr => (h.1 hr).of_rely hrely hmore,
            fun hcalm => stable_settled w w' hrely (h.2 hcalm)⟩

/-- What the programs of the service agree on besides.  Under `calm` the workers are spared. -/
def outcomes (env : Deployment) (calm : Prop) : Extension (ownership env) where
  allows := Abides
  does := Leaves
  assume r st x w :=
    match r with
    | .worker _ => calm → st.spared env x w = true
    | .request _ _ => True
  rely := Undisputed
  post := Left calm
  does_of_exec habides hexec := leaves_of_exec habides hexec
  does_of_enter r r' w := by
    cases r' with
    | request n q => exact ⟨fun _ _ => rfl, sameJobs_of_eq rfl⟩
    | worker j => exact ⟨fun _ _ => rfl, sameJobs_of_eq rfl⟩
  rely_refl := undisputed_refl
  rely_trans := Undisputed.trans
  rely_of_does _ _ htaken htaken' hne hguar hdoes :=
    undisputed_of_leaves htaken htaken' hne hguar hdoes
  post_of_rely hrely hmore hpost := left_of_rely hrely hmore hpost

end Service
