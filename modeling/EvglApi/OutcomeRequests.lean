/-
# Requests serve the jobs they commit

The handlers once more, for the jobs that a request has inserted: a transaction that fails
leaves none, and one that has committed a job starts its worker.
-/
import EvglApi.OutcomeKeeps

open Concurrency Mvcc

namespace Service

variable {env : Deployment} {calm : Prop} {w w' : World} {α : Type}

/-! ## Jobs of a request -/

/-- The ids and marks of the jobs that request `n` has inserted satisfy `P`. -/
def OwnJobs (n : ℕ) (P : Uuid → Bool → Prop) (w : World) : Prop :=
  ∀ v ∈ w.jobs, v.xmin = n → P v.row.id v.committed

/-- Request `n` has inserted no job. -/
def Jobless (n : ℕ) : World → Prop := OwnJobs n fun _ _ => False

/-- Request `n` has inserted this job at most, and not committed it. -/
def Drafted (n : ℕ) (job : Uuid) : World → Prop := OwnJobs n fun id c => id = job ∧ c = false

/-- Request `n` has inserted this job at most. -/
def Owns (n : ℕ) (job : Uuid) : World → Prop := OwnJobs n fun id _ => id = job

/-- Request `n` has committed no job. -/
def Uncommitted (n : ℕ) : World → Prop := OwnJobs n fun _ c => c = false

section Request

variable {n : ℕ} {q : Request} {P P' : Uuid → Bool → Prop} {Q : α → World → Prop}

theorem OwnJobs.mono (h : OwnJobs n P w) (hP : ∀ id c, P id c → P' id c) : OwnJobs n P' w :=
  fun v hv hx => hP _ _ (h v hv hx)

theorem Jobless.ownJobs (h : Jobless n w) : OwnJobs n P w := h.mono fun _ _ => False.elim

theorem OwnJobs.of_finds (hfinds : (outcomes env calm).Finds (.request n q) w w')
    (h : OwnJobs n P w) : OwnJobs n P w' := by
  intro v' hv' hx'
  obtain ⟨v, hv, hx, hid, hc⟩ := hfinds.more.2 v' hv' hx'
  rw [← hid, ← hc]
  exact h v hv hx

/-- A query that does not touch the jobs. -/
theorem adds_aside {k : Query α} (habides : Abides (.request n q) (.query k))
    (hjobs : ∀ x w a w', k.exec x w = some (a, w') → w'.jobs = w.jobs) (h : OwnJobs n P w) :
    Adds (outcomes env calm) (.request n q) (Api.query k) (fun _ => OwnJobs n P)
      (fun _ => OwnJobs n P) w := by
  refine Adds.query habides fun w' hfinds _ => ⟨fun _ _ _ _ => h.of_finds hfinds, ?_⟩
  intro x a w'' _ hstep _
  have h' : OwnJobs n P w'' := by
    unfold OwnJobs
    rw [hjobs x w' a w'' hstep]
    exact h.of_finds hfinds
  cases a with
  | ok a => exact h'
  | error e => exact h'

/-- A statement of another handler does not insert a job. -/
theorem jobless_of_exec {β : Type} {st : Stmt β} (hst : st.OfRequest n) (hinv : Inv env w)
    {x : Draw} {b : β} (hexec : st.exec x w = some (b, w')) (h : Jobless n w) :
    Jobless n w' := by
  rcases hst.1.exec hinv hexec with hquiet | rfl | rfl
  · unfold Jobless OwnJobs
    rw [hquiet.jobs]
    exact h
  · intro v hv hx
    obtain ⟨u, hu, hux, -⟩ := Table.exists_of_mem_commit hv
    exact h u hu (hux.trans hx)
  · intro v hv hx
    exact h v (Table.mem_rollback.mp hv).1 hx

/-- The statements of a request concern its own jobs. -/
theorem abides_of_ofRequest {β : Type} {st : Stmt β} (hst : st.OfRequest n) :
    Abides (.request n q) st := by
  obtain ⟨hharmless, hsilent⟩ := hst
  cases st with
  | query k =>
      cases k with
      | insertJob m userId eventId key => exact hharmless.elim
      | commit m => exact hharmless
      | _ => trivial
  | emit job provider status attempt message publication => exact hsilent.elim
  | _ => trivial

/-- The programs of the other handlers insert no job. -/
theorem adds_of_only {p : Api α} (hp : Only (Stmt.OfRequest n) p) (h : Jobless n w) :
    Adds (outcomes env calm) (.request n q) p (fun _ => Jobless n) (fun _ => Jobless n) w := by
  refine Extension.wp_mono (fun a w h => ?_) (Extension.wp_of_every hp abides_of_ofRequest
    (fun _ _ hfinds h => OwnJobs.of_finds hfinds h)
    (fun hst _ _ _ _ hinv hexec h => jobless_of_exec hst hinv hexec h) h)
  cases a with
  | ok a => exact h
  | error e => exact h

/-- An early return rolls the transaction back. -/
theorem adds_transaction {p : Api α} (h : Jobless n w)
    (hp : ∀ w, Jobless n w →
      Adds (outcomes env calm) (.request n q) p Q (fun _ => Uncommitted n) w) :
    Adds (outcomes env calm) (.request n q) (Api.transaction n p) Q (fun _ => Jobless n) w := by
  have hbegin : Adds (outcomes env calm) (.request n q) (Api.query (.begin n))
      (fun _ => Jobless n) (fun _ => Jobless n) w := by
    refine adds_aside trivial (fun _ _ _ _ hstep => ?_) h
    obtain ⟨-, rfl⟩ := Prod.mk.inj (Option.some.inj hstep)
    rfl
  refine Adds.andThen hbegin fun _ w h => ?_
  refine Adds.rollbackOnError ((hp w h).mono (fun _ _ h => h) fun e w h => ?_)
  refine ⟨trivial, fun w' hfinds _ x u w'' _ hstep _ => ?_⟩
  obtain ⟨-, rfl⟩ := Prod.mk.inj (Option.some.inj hstep)
  intro v hv hx
  obtain ⟨hv, hkept⟩ := Table.mem_rollback.mp hv
  have hc := OwnJobs.of_finds hfinds h v hv hx
  rw [hc] at hkept
  exact hkept.elim (fun htrue => by cases htrue) fun hne => hne hx

/-- The job that the request inserts is its only one. -/
theorem adds_insertJob (h : Jobless n w) (userId eventId : Uuid) (key : String) :
    Adds (outcomes env calm) (.request n q) (Api.query (.insertJob n userId eventId key))
      (fun job => Drafted n job.id) (fun _ => Uncommitted n) w := by
  refine Adds.query rfl fun w' hfinds _ => ?_
  have h' := OwnJobs.of_finds hfinds h
  refine ⟨fun _ _ _ _ => Jobless.ownJobs h', fun x a w'' _ hstep _ => ?_⟩
  obtain ⟨e, rfl, rfl⟩ | ⟨row, rfl, rfl, -⟩ := insertJob_cases hstep
  · have huncommitted : Uncommitted n w'' := Jobless.ownJobs h'
    exact huncommitted
  · intro v hv hx
    rcases Table.mem_insert.mp hv with hv | rfl
    · exact (h' v hv hx).elim
    · exact ⟨rfl, rfl⟩

theorem adds_enqueueTargets {job : Uuid} (h : Drafted n job w) (userId : Uuid)
    (targets : List PublishTarget) :
    Adds (outcomes env calm) (.request n q) (Store.enqueueTargets env n userId job targets)
      (fun _ => Drafted n job) (fun _ => Uncommitted n) w := by
  have huncommitted : ∀ {w}, Drafted n job w → Uncommitted n w :=
    fun h => OwnJobs.mono h fun _ _ hboth => hboth.2
  induction targets generalizing w with
  | nil => exact Adds.pure h
  | cons target targets ih =>
      -- neither statement touches the jobs
      have hread : Adds (outcomes env calm) (.request n q)
          (Api.query (.selectConnectionProvider n target.connectionId userId))
          (fun _ => Drafted n job) (fun _ => Drafted n job) w := by
        refine adds_aside trivial (fun _ _ _ _ hstep => ?_) h
        obtain ⟨-, rfl⟩ := Prod.mk.inj (Option.some.inj hstep)
        rfl
      unfold Store.enqueueTargets
      refine Adds.bind (hread.mono (fun answer w h => ?_) fun _ _ h => huncommitted h)
      cases answer with
      | none => exact Adds.throw (huncommitted h)
      | some provider =>
          show Adds _ _ (if _ then _ else _) _ _ _
          split
          · exact Adds.throw (huncommitted h)
          · have hinsert : Adds (outcomes env calm) (.request n q)
                (Api.query (.insertTarget n job target.connectionId
                  (env.asStr target.provider) target.options))
                (fun _ => Drafted n job) (fun _ => Drafted n job) w := by
              refine adds_aside trivial (fun _ _ _ _ hstep => ?_) h
              obtain ⟨e, -, rfl⟩ | ⟨row, -, rfl, -⟩ := insertTarget_cases hstep
              · rfl
              · rfl
            refine Adds.bind (hinsert.mono (fun _ w h => ?_) fun _ _ h => huncommitted h)
            exact ih h

/-- The transaction of the new job is committed. -/
theorem adds_commit {job : Uuid} (h : Drafted n job w) :
    Adds (outcomes env calm) (.request n q) (Api.query (.commit n)) (fun _ => Owns n job)
      (fun _ => Uncommitted n) w := by
  refine Adds.query rfl fun w' hfinds _ => ?_
  have h' := OwnJobs.of_finds hfinds h
  refine ⟨fun _ _ _ _ => h'.mono fun _ _ hboth => hboth.2, fun x a w'' _ hstep _ => ?_⟩
  obtain ⟨rfl, rfl⟩ := Prod.mk.inj (Option.some.inj hstep)
  intro v hv hx
  obtain ⟨u, hu, hux, hrow, -⟩ := Table.exists_of_mem_commit hv
  rw [← hrow]
  exact (h' u hu (hux.trans hx)).1

/-- What is known of the jobs of the request after `enqueue_job`. -/
def EnqueueOwns (n : ℕ) (result : Store.EnqueueResult) (w : World) : Prop :=
  (result.created = true → Owns n result.job.id w) ∧ (result.created = false → Jobless n w)

/-- After an error the request has no job left, since the transaction is rolled back. -/
theorem adds_enqueueJob (h : Jobless n w) (userId eventId : Uuid) (key : String)
    (targets : List PublishTarget) :
    Adds (outcomes env calm) (.request n q) (Store.enqueueJob env n userId eventId key targets)
      (EnqueueOwns n) (fun _ => Jobless n) w := by
  unfold Store.enqueueJob
  refine adds_transaction h fun w h => ?_
  have hread : Adds (outcomes env calm) (.request n q) (Api.query (.selectJobByKey n userId key))
      (fun _ => Jobless n) (fun _ => Jobless n) w := by
    refine adds_aside trivial (fun _ w _ _ hstep => ?_) h
    change w.selectJobByKey n userId key = some _ at hstep
    unfold World.selectJobByKey at hstep
    split at hstep
    · obtain ⟨-, rfl⟩ := Prod.mk.inj (Option.some.inj hstep)
      rfl
    · obtain ⟨-, rfl⟩ := Prod.mk.inj (Option.some.inj hstep)
      rfl
  refine Adds.bind (hread.mono (fun answer w h => ?_) fun _ _ h => Jobless.ownJobs h)
  cases answer with
  | some existing =>
      -- the commit of a transaction that has inserted nothing
      have hquery : Only (Stmt.OfRequest n) (Api.query (.commit n)) := Only.query ⟨rfl, trivial⟩
      refine Adds.bind ((adds_of_only hquery h).mono (fun _ w h => ?_)
        fun _ _ h => Jobless.ownJobs h)
      exact Adds.pure ⟨nofun, fun _ => h⟩
  | none =>
      refine Adds.andThen (adds_insertJob h userId eventId key) fun job w h => ?_
      refine Adds.andThen (adds_enqueueTargets h userId targets) fun _ w h => ?_
      refine Adds.andThen (adds_commit h) fun _ w h => ?_
      exact Adds.pure ⟨fun _ => h, nofun⟩

/-- Every job of request `n` has a worker. -/
def Served (n : ℕ) (w : World) : Prop := ∀ v ∈ w.jobs, v.xmin = n → v.row.id ∈ w.workers

theorem Jobless.served (h : Jobless n w) : Served n w := fun v hv hx => (h v hv hx).elim

/-- A cross-post request starts the worker of the job it has committed. -/
theorem adds_crossPost (h : Jobless n w) (userId eventId : Uuid) (key : Option String)
    (targets : List PublishTarget) :
    Adds (outcomes env calm) (.request n q)
      (Events.crossPost env n userId eventId key targets) (fun _ => Served n)
      (fun _ => Served n) w := by
  unfold Events.crossPost
  cases key with
  | none => exact Adds.throw h.served
  | some key =>
      refine Adds.bind (Adds.result (fun _ _ => ?_) fun _ _ => h.served)
      have hevent : Only (Stmt.OfRequest n) (Store.getEvent env userId eventId) :=
        only_getEvent ⟨trivial, trivial⟩
      refine Adds.bind ((adds_of_only hevent h).mono (fun _ w h => ?_)
        fun _ _ h => Jobless.served h)
      refine Adds.bind ((adds_enqueueJob h userId eventId key targets).mono
        (fun enqueued w h => ?_) fun _ _ h => Jobless.served h)
      show Adds _ _ (if _ then _ else _) _ _ _
      split
      · next hcreated =>
          refine Adds.bind (Adds.spawn fun w' hfinds hfree hinv => ⟨?_, ?_⟩)
          · -- nothing is recorded about a job without a worker
            exact adds_worker fun e he hjob => hfree (hfinds.inv.jobTraced e he _ hjob)
          · have howns := OwnJobs.of_finds hfinds (h.1 hcreated)
            refine Adds.pure fun v hv hx => List.mem_append_right _ ?_
            rw [howns v hv hx]
            exact List.mem_singleton_self _
      · next hreplayed =>
          exact Adds.pure (h.2 (Bool.eq_false_iff.mpr hreplayed)).served

/-- What a request leaves behind. -/
theorem adds_respond (h : Jobless n w) :
    (outcomes env calm).wp (.request n q) (respond env n q)
      ((outcomes env calm).post (.request n q)) w := by
  have hhandle : Adds (outcomes env calm) (.request n q) (handle env n q) (fun _ => Served n)
      (fun _ => Served n) w := by
    have hother : q.NotCrossPost → Adds (outcomes env calm) (.request n q) (handle env n q)
        (fun _ => Served n) (fun _ => Served n) w := fun hq =>
      (adds_of_only (only_handle hq) h).mono (fun _ _ h => Jobless.served h)
        fun _ _ h => Jobless.served h
    cases q with
    | crossPost userId eventId key targets => exact adds_crossPost h userId eventId key targets
    | _ => exact hother trivial
  rw [respond]
  refine Extension.wp_bind (Extension.wp_mono (fun a w h => ?_) hhandle)
  cases a with
  | ok a => exact h
  | error e => exact h

end Request

/-- Every request starts a program that keeps what is agreed on besides. -/
theorem hospitable_outcomes (env : Deployment) (calm : Prop) :
    (outcomes env calm).discipline.Hospitable := by
  refine Extension.hospitable (hospitable_ownership env) fun q w _ hinv _ => adds_respond ?_
  intro v hv hx
  exact (hinv.xmin_lt hv).ne hx

end Service
