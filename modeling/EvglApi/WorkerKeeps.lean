/-
# The worker keeps the discipline

The worker goes through the targets of its job one by one.  `Loop` is what holds
between two of them: the job is not finished and the remaining targets are open.
Within the turn of a target, `Active` says that it has no outcome yet and no more
attempts than the loop has counted, and `Unclosed` that no call has succeeded.
-/
import EvglApi.WorkerSteps
import EvglApi.ApiRules
import EvglApi.Fallible

open Concurrency Mvcc

namespace Service

variable {env : Deployment} {w w' : World} {r : Role} {α : Type}

/-! ## Statements under the discipline -/

/-- The others do not disturb the property. -/
def Stable (r : Role) (P : World → Prop) : Prop := ∀ w w', Rely r w w' → P w → P w'

/-- What the others keep, they keep together. -/
theorem Stable.and {P P' : World → Prop} (h : Stable r P) (h' : Stable r P') :
    Stable r fun w => P w ∧ P' w :=
  fun w w' hrely hP => ⟨h w w' hrely hP.1, h' w w' hrely hP.2⟩

/-- A statement of the database under the discipline. -/
theorem keeps_query {q : Query α} {Q : α → World → Prop} {E : ApiError → World → Prop}
    (h : ∀ w', Rely r w w' → Inv env w' → Taken w' r → Needs env r (.query q) w' ∧
      (∀ text, E (.ofDb (.failure text)) w') ∧
      ∀ x a w'', q.exec x w' = some (a, w'') →
        Guar r w' w'' ∧ Inv env w'' ∧ either Q E (a.mapError .ofDb) w'') :
    Keeps (ownership env) r (Api.query q) Q E w := by
  refine Keeps.query fun w' hrely hinv htaken => ?_
  obtain ⟨hneeds, hfails, hexec⟩ := h w' hrely hinv htaken
  exact ⟨hneeds, fun x text _ _ => ⟨(Quiet.refl hinv).guar r, hfails text⟩,
    fun x a w'' _ _ hstep => hexec x a w'' hstep⟩

/-- A statement that only reads. -/
theorem keeps_read {q : Query α} {Q : α → World → Prop} {E : ApiError → World → Prop}
    {f : World → α} (hread : ∀ x w, q.exec x w = some (.ok (f w), w))
    (h : ∀ w', Rely r w w' → Inv env w' → Taken w' r → Needs env r (.query q) w' ∧
      (∀ text, E (.ofDb (.failure text)) w') ∧ Q (f w') w') :
    Keeps (ownership env) r (Api.query q) Q E w := by
  refine keeps_query fun w' hrely hinv htaken => ?_
  obtain ⟨hneeds, hfails, hQ⟩ := h w' hrely hinv htaken
  refine ⟨hneeds, hfails, fun x a w'' hstep => ?_⟩
  rw [hread] at hstep
  obtain ⟨rfl, rfl⟩ := Prod.mk.inj (Option.some.inj hstep)
  exact ⟨(Quiet.refl hinv).guar r, hinv, hQ⟩

/-! ## What a worker knows -/

/-- The job of the worker is committed. -/
def OwnJob (w : World) (job : JobRow) : Prop :=
  ∃ v ∈ w.jobs, v.committed = true ∧ v.row.toJobFixed = job.toJobFixed

/-- A job that is updated is still there. -/
theorem OwnJob.updateJob {job : JobRow} {j : Uuid} (h : OwnJob w job) {f : JobRow → JobRow}
    (hf : ∀ r, (f r).toJobFixed = r.toJobFixed) : OwnJob (w.updateJob j f) job := by
  obtain ⟨v, hv, hc, hfixed⟩ := h
  obtain ⟨v', hv', -, hc', hfixed'⟩ := mem_updateJob_of_mem hf hv
  exact ⟨v', hv', hc' ▸ hc, hfixed'.trans hfixed⟩

/-- The worker finds its job. -/
theorem OwnJob.exists_found {job : JobRow} (hown : OwnJob w job) :
    ∃ row, (w.jobs.rows none).find? (fun j => j.id = job.id ∧ j.userId = job.userId) =
      some row := by
  obtain ⟨v, hv, hc, heq⟩ := hown
  obtain ⟨row, hfind, -⟩ := Keyed.exists_found
    (p := fun j : JobRow => j.id = job.id ∧ j.userId = job.userId)
    (Table.mem_rows_none.mpr ⟨v, hv, hc, rfl⟩)
    ⟨congrArg JobFixed.id heq, congrArg JobFixed.userId heq⟩
  exact ⟨row, hfind⟩

/-- The event of the job is stored and reads as `event`. -/
def EventRead (env : Deployment) (w : World) (job : JobRow) (event : EventDraft) : Prop :=
  ∃ e ∈ w.events, e.id = job.eventId ∧ e.ownerId = job.userId ∧
    env.eventFromValue e.document = .ok event

/-- The target belongs to the job, has had at most `a` attempts and has no outcome. -/
structure Active (w : World) (j : Uuid) (t : TargetRow) (a : ℕ) : Prop where
  job : t.jobId = j
  row : ∃ v ∈ w.targets, v.row.toTargetFixed = t.toTargetFixed
  attempt : ∀ v ∈ w.targets, v.row.jobId = j → v.row.id = t.id → v.row.attempt ≤ a
  undecided : Effect.outcome j t.id ∉ w.trace

/-- No recorded call or outcome closes the target. -/
def Unclosed (w : World) (j : Uuid) (t : TargetRow) : Prop :=
  ∀ e ∈ w.trace, e.job = some j → ¬ e.Closes t.id

/-- The state of the worker's loop before the targets `rest`. -/
structure Loop (env : Deployment) (w : World) (job : JobRow) (event : EventDraft)
    (rest : List TargetRow) : Prop where
  own : OwnJob w job
  read : EventRead env w job event
  unfinished : Effect.finished job.id ∉ w.trace
  active : ∀ t ∈ rest, Active w job.id t 0
  unclosed : ∀ t ∈ rest, Unclosed w job.id t

theorem stable_ownJob (job : JobRow) : Stable (.worker job.id) fun w => OwnJob w job := by
  intro w w' hrely h
  obtain ⟨v, hv, hc, heq⟩ := h
  exact ⟨v, (hrely.jobs v (congrArg JobFixed.id heq)).mpr hv, hc, heq⟩

theorem stable_eventRead (env : Deployment) (job : JobRow) (event : EventDraft) (j : Uuid) :
    Stable (.worker j) fun w => EventRead env w job event := by
  intro w w' hrely h
  obtain ⟨e, he, hrest⟩ := h
  exact ⟨e, hrely.events he, hrest⟩

/-- The others leave the row of the next target alone. -/
theorem stable_active {j : Uuid} {t : TargetRow} {a : ℕ} :
    Stable (.worker j) fun w => Active w j t a := by
  intro w w' hrely h
  refine ⟨h.job, ?_, fun v hv hjob hid => ?_, fun hmem => ?_⟩
  · obtain ⟨v, hv, heq⟩ := h.row
    have hjob : v.row.jobId = j := (congrArg TargetFixed.jobId heq).trans h.job
    exact ⟨v, (hrely.targets v hjob).mpr hv, heq⟩
  · exact h.attempt v ((hrely.targets v hjob).mp hv) hjob hid
  · exact h.undecided (hrely.traced _ rfl hmem)

theorem stable_unclosed {j : Uuid} {t : TargetRow} :
    Stable (.worker j) fun w => Unclosed w j t :=
  fun _ _ hrely h e he hjob => h e (hrely.traced e hjob he) hjob

/-- The others leave alone what the loop needs for the targets that are still to come. -/
theorem stable_loop (env : Deployment) (job : JobRow) (event : EventDraft)
    (rest : List TargetRow) : Stable (.worker job.id) fun w => Loop env w job event rest := by
  intro w w' hrely h
  refine ⟨stable_ownJob job w w' hrely h.own, stable_eventRead env job event _ w w' hrely h.read,
    fun hmem => h.unfinished (hrely.traced _ rfl hmem), ?_, ?_⟩
  · exact fun t ht => stable_active w w' hrely (h.active t ht)
  · exact fun t ht => stable_unclosed w w' hrely (h.unclosed t ht)

theorem Loop.tail {job : JobRow} {event : EventDraft} {t : TargetRow} {rest : List TargetRow}
    (h : Loop env w job event (t :: rest)) : Loop env w job event rest :=
  ⟨h.own, h.read, h.unfinished, fun t ht => h.active t (List.mem_cons_of_mem _ ht),
    fun t ht => h.unclosed t (List.mem_cons_of_mem _ ht)⟩

/-- The job of an active target is the worker's own, and it is owned by the user. -/
theorem Active.owned {job : JobRow} {t : TargetRow} {a : ℕ} (h : Active w job.id t a)
    (hinv : Inv env w) (hown : OwnJob w job) :
    World.ConnectionOwned env w job.toJobFixed t.toTargetFixed := by
  obtain ⟨v, hv, heq⟩ := h.row
  obtain ⟨u, hu, hid, -, -, howned⟩ := hinv.targetJob v hv
  obtain ⟨u', hu', -, heq'⟩ := hown
  have hjob : v.row.jobId = job.id := (congrArg TargetFixed.jobId heq).trans h.job
  have hsame : u = u' :=
    hinv.eq_of_jobId hu hu' ((hid.trans hjob).trans (congrArg JobFixed.id heq').symm)
  rw [hsame, heq', heq] at howned
  exact howned

/-- All rows with the id of an active target belong to the job. -/
theorem Active.jobId_eq {j : Uuid} {t : TargetRow} {a : ℕ} (h : Active w j t a)
    (hinv : Inv env w) : ∀ v ∈ w.targets, v.row.id = t.id → v.row.jobId = j := by
  intro v hv hid
  obtain ⟨u, hu, heq⟩ := h.row
  rw [hinv.eq_of_targetId hv hu (hid.trans (congrArg TargetFixed.id heq).symm)]
  exact (congrArg TargetFixed.jobId heq).trans h.job

/-! ## What the steps of the worker do to this -/

/-- The worker's own update of a row counts the attempts up. -/
theorem Active.updateTarget {j : Uuid} {t : TargetRow} {a b : ℕ} (h : Active w j t a)
    {g : TargetRow → TargetRow} (hg : ∀ r, (g r).toTargetFixed = r.toTargetFixed)
    (hattempt : ∀ r, r.attempt ≤ a → (g r).attempt ≤ b) (hab : a ≤ b) :
    Active (w.updateTarget t.id g) j t b := by
  refine ⟨h.job, ?_, fun v hv hjob hid => ?_, h.undecided⟩
  · obtain ⟨v, hv, heq⟩ := h.row
    obtain ⟨v', hv', -, -, hfixed, -⟩ := mem_updateTarget_of_mem hg hv
    exact ⟨v', hv', hfixed.trans heq⟩
  · obtain ⟨u, hu, -, -, hfixed, hrow⟩ := exists_of_mem_updateTarget hg hv
    have hle : u.row.attempt ≤ a := h.attempt u hu
      ((congrArg TargetFixed.jobId hfixed).symm.trans hjob)
      ((congrArg TargetFixed.id hfixed).symm.trans hid)
    rcases hrow with hrow | ⟨hrow, -⟩
    · rw [hrow]
      exact hle.trans hab
    · rw [hrow]
      exact hattempt u.row hle

/-- An update of another target. -/
theorem Active.updateTarget_of_ne {j i : Uuid} {t : TargetRow} {a : ℕ} (h : Active w j t a)
    {g : TargetRow → TargetRow} (hg : ∀ r, (g r).toTargetFixed = r.toTargetFixed)
    (hne : t.id ≠ i) : Active (w.updateTarget i g) j t a := by
  refine ⟨h.job, ?_, fun v hv hjob hid => ?_, h.undecided⟩
  · obtain ⟨v, hv, heq⟩ := h.row
    have hid : v.row.id ≠ i := (congrArg TargetFixed.id heq).trans_ne hne
    exact ⟨v, (mem_updateTarget_of_ne hg hid).mpr hv, heq⟩
  · exact h.attempt v ((mem_updateTarget_of_ne hg (hid.trans_ne hne)).mp hv) hjob hid

/-- A row is open until an outcome is recorded for it. -/
theorem Active.log {j : Uuid} {t : TargetRow} {a : ℕ} (h : Active w j t a) {e : Effect}
    (he : e ≠ .outcome j t.id) : Active (w.log e) j t a := by
  refine ⟨h.job, h.row, h.attempt, fun hmem => ?_⟩
  rcases List.mem_append.mp hmem with hmem | hmem
  · exact h.undecided hmem
  · exact he (List.mem_singleton.mp hmem).symm

theorem Unclosed.log {j : Uuid} {t : TargetRow} (h : Unclosed w j t) {e : Effect}
    (he : ¬ e.Closes t.id) : Unclosed (w.log e) j t := by
  intro e' hmem hjob
  rcases List.mem_append.mp hmem with hmem | hmem
  · exact h e' hmem hjob
  · rw [List.mem_singleton.mp hmem]
    exact he

/-- An update of the target at hand does not touch the remaining ones. -/
theorem Loop.updateTarget {job : JobRow} {event : EventDraft} {rest : List TargetRow} {i : Uuid}
    (h : Loop env w job event rest) {g : TargetRow → TargetRow}
    (hg : ∀ r, (g r).toTargetFixed = r.toTargetFixed) (hne : ∀ t ∈ rest, t.id ≠ i) :
    Loop env (w.updateTarget i g) job event rest :=
  ⟨h.own, h.read, h.unfinished, fun t ht => (h.active t ht).updateTarget_of_ne hg (hne t ht),
    h.unclosed⟩

/-- A call or an outcome of the target at hand does not touch the remaining ones. -/
theorem Loop.log {job : JobRow} {event : EventDraft} {rest : List TargetRow} {e : Effect}
    {j i : Uuid} (h : Loop env w job event rest) (he : e.target = some (j, i))
    (hne : ∀ t ∈ rest, t.id ≠ i) : Loop env (w.log e) job event rest := by
  refine ⟨h.own, h.read, fun hmem => ?_, fun t ht => (h.active t ht).log ?_,
    fun t ht => (h.unclosed t ht).log ?_⟩
  · rcases List.mem_append.mp hmem with hmem | hmem
    · exact h.unfinished hmem
    · rw [← List.mem_singleton.mp hmem] at he
      cases he
  · rintro rfl
    cases he
    exact hne t ht rfl
  · intro hcloses
    obtain ⟨k, -, hk⟩ := hcloses.target_eq
    rw [he] at hk
    cases hk
    exact hne t ht rfl

/-- Storing the outcome of the target at hand. -/
theorem storeOutcome {job : JobRow} {event : EventDraft} {t : TargetRow} {rest : List TargetRow}
    {a : ℕ} (hinv : Inv env w) (htaken : job.id ∈ w.workers) (hactive : Active w job.id t a)
    (hloop : Loop env w job event rest) (hne : ∀ t' ∈ rest, t'.id ≠ t.id)
    {g : TargetRow → TargetRow} (hg : ∀ r, (g r).toTargetFixed = r.toTargetFixed)
    (hattempt : ∀ r, r.attempt ≤ a → r.attempt ≤ (g r).attempt) :
    Guar (.worker job.id) w ((w.updateTarget t.id g).logOutcome t.id) ∧
      Inv env ((w.updateTarget t.id g).logOutcome t.id) ∧
      Loop env ((w.updateTarget t.id g).logOutcome t.id) job event rest := by
  have hjobId := hactive.jobId_eq hinv
  have hguar : Guar (.worker job.id) w (w.updateTarget t.id g) :=
    guar_updateTarget hg hjobId
      (fun v hv hid => hattempt v.row (hactive.attempt v hv (hjobId v hv hid) hid))
      hactive.undecided
  have hinv' : Inv env (w.updateTarget t.id g) :=
    hinv.updateTarget hg fun v hv hid => (hjobId v hv hid).symm ▸ htaken
  -- the outcome is recorded for the one row of the target
  obtain ⟨v, hv, heq⟩ := hactive.row
  obtain ⟨v', hv', -, -, hfixed, -⟩ := mem_updateTarget_of_mem hg hv
  have hid : v'.row.id = t.id := congrArg TargetFixed.id (hfixed.trans heq)
  have hjob : v'.row.jobId = job.id :=
    (congrArg TargetFixed.jobId (hfixed.trans heq)).trans hactive.job
  have hcommitted := hinv'.target_committed_of_worker hv' (hjob.symm ▸ htaken)
  have hlog := logOutcome_eq hinv' hv' hcommitted
  rw [hid, hjob] at hlog
  rw [hlog]
  refine ⟨hguar.trans (guar_log rfl), ?_, (hloop.updateTarget hg hne).log rfl hne⟩
  refine hinv'.log (e := .outcome job.id t.id) htaken rfl ?_ ?_
  · intro k t' hk
    cases hk
    exact ⟨v', hv', hid, hjob⟩
  · intro e' _ call result hcall
    cases hcall

/-! ## The programs of the worker -/

section Programs

variable {job : JobRow} {event : EventDraft} {t : TargetRow} {rest : List TargetRow} {a b : ℕ}

/-- An error that ends a worker. -/
def stops (e : ApiError) (_ : World) : Prop := WorkerError e

theorem stops_db (text : String) : stops (.ofDb (.failure text)) w := Or.inl ⟨_, rfl⟩

theorem keeps_emit {j : Uuid} {P : World → Prop} (hP : Stable (.worker j) P) (h : P w)
    {provider : Option ProviderKind} {status : PublicationStatus} {message : String}
    {publication : Option Publication} {E : ApiError → World → Prop} :
    Keeps (ownership env) (.worker j) (emit job provider status a message publication)
      (fun _ => P) E w := by
  refine Keeps.stmt fun w' hrely hinv htaken => ⟨trivial, fun x u w'' _ hstep => ?_⟩
  obtain ⟨-, rfl⟩ := Prod.mk.inj (Option.some.inj hstep)
  have hquiet := quiet_log (e := .emitted
    { jobId := job.id, eventId := job.eventId, provider, status, attempt := a, message
      occurredAt := x.now, publication }) hinv rfl rfl
  exact ⟨hquiet.guar _, hquiet.inv hinv, hP _ _ (hquiet.rely _) (hP _ _ hrely h)⟩

/-- `fail_target` closes the row of its target and leaves the rest of the loop as it was. -/
theorem keeps_failTarget (hactive : Active w job.id t a) (hloop : Loop env w job event rest)
    (hne : ∀ t' ∈ rest, t'.id ≠ t.id) (hab : a ≤ b) {provider : Option ProviderKind}
    {why : TargetFailure}
    (hwhy : ∀ w', Inv env w' → OwnJob w' job → Active w' job.id t a →
      WorkerNeeds env job.id (.query (.updateTargetFailed t.id b why)) w') :
    Keeps (ownership env) (.worker job.id) (failTarget job t.id provider b why)
      (fun _ w => Loop env w job event rest) stops w := by
  refine Keeps.bind (keeps_query fun w' hrely hinv htaken => ?_)
  have hactive' := stable_active _ _ hrely hactive
  have hloop' := stable_loop env job event rest _ _ hrely hloop
  refine ⟨hwhy w' hinv hloop'.own hactive', stops_db, fun x u w'' hstep => ?_⟩
  obtain ⟨rfl, rfl⟩ := Prod.mk.inj (Option.some.inj hstep)
  obtain ⟨hguar, hinv', hrest⟩ := storeOutcome hinv htaken hactive' hloop' hne
    (g := fun t => { t with status := "failed", attempt := b, error := some why.message })
    (fun _ => rfl) (fun r hr => hr.trans hab)
  exact ⟨hguar, hinv', keeps_emit (stable_loop env job event rest) hrest⟩

/-- A row that is open may be marked running. -/
theorem keeps_targetRunning (hactive : Active w job.id t a) (hunclosed : Unclosed w job.id t)
    (hloop : Loop env w job event rest) (hne : ∀ t' ∈ rest, t'.id ≠ t.id) (hab : a ≤ b) :
    Keeps (ownership env) (.worker job.id) (Store.targetRunning t.id b)
      (fun _ w => (Active w job.id t b ∧ Unclosed w job.id t) ∧ Loop env w job event rest)
      stops w := by
  refine keeps_query fun w' hrely hinv htaken => ⟨trivial, stops_db, fun x u w'' hstep => ?_⟩
  obtain ⟨rfl, rfl⟩ := Prod.mk.inj (Option.some.inj hstep)
  have hactive' := stable_active _ _ hrely hactive
  have hunclosed' : Unclosed w' job.id t := stable_unclosed _ _ hrely hunclosed
  have hjobId := hactive'.jobId_eq hinv
  have hg : ∀ r : TargetRow, ({ r with status := "running", attempt := b, error := none } :
      TargetRow).toTargetFixed = r.toTargetFixed := fun _ => rfl
  refine ⟨?_, ?_, ?_⟩
  · refine guar_updateTarget hg hjobId (fun v hv hid => ?_) hactive'.undecided
    exact (hactive'.attempt v hv (hjobId v hv hid) hid).trans hab
  · exact hinv.updateTarget hg fun v hv hid => (hjobId v hv hid).symm ▸ htaken
  · refine ⟨⟨?_, hunclosed'⟩, ?_⟩
    · exact hactive'.updateTarget hg (fun _ _ => le_refl _) hab
    · exact (stable_loop env job event rest _ _ hrely hloop).updateTarget hg hne

/-- What the worker has read of the connection of a call. -/
def Credentials (env : Deployment) (w : World) (job : JobRow) (call : PublishCall) : Prop :=
  ∃ c, Effect.upserted c ∈ w.trace ∧ c.id = call.target.connectionId ∧ c.userId = job.userId ∧
    c.provider = call.target.provider ∧ env.decrypt c.aad c.tokenEnvelope = .ok call.tokens

theorem stable_credentials (env : Deployment) (job : JobRow) (call : PublishCall) :
    Stable (.worker job.id) fun w => Credentials env w job call := by
  intro w w' hrely h
  obtain ⟨c, hc, hrest⟩ := h
  exact ⟨c, hrely.trace hc, hrest⟩

theorem credentials_of_guar {call : PublishCall} (h : Guar r w w')
    (hcredentials : Credentials env w job call) : Credentials env w' job call := by
  obtain ⟨c, hc, hrest⟩ := hcredentials
  exact ⟨c, h.evolves.trace.subset hc, hrest⟩

/-- The calls of a worker are rightful. -/
theorem rightful {call : PublishCall} (hactive : Active w job.id call.target a)
    (hown : OwnJob w job) (hread : EventRead env w job call.event)
    (hcredentials : Credentials env w job call) : Rightful env job.id call w := by
  obtain ⟨v, hv, -, heq⟩ := hown
  obtain ⟨e, he, hid, howner, hdocument⟩ := hread
  obtain ⟨c, hc, hcid, huser, hrest⟩ := hcredentials
  refine ⟨v, hv, congrArg JobFixed.id heq, ?_, ⟨e, he, ?_, ?_, hdocument⟩, c, hc, hcid, ?_, hrest⟩
  · exact (congrArg JobFixed.id heq).trans hactive.job.symm
  · exact hid.trans (congrArg JobFixed.eventId heq).symm
  · exact howner.trans (congrArg JobFixed.userId heq).symm
  · exact huser.trans (congrArg JobFixed.userId heq).symm

/-- A call is made at an open target with the credentials of its connection. -/
theorem keeps_publish {call : PublishCall} (hactive : Active w job.id call.target a)
    (hunclosed : Unclosed w job.id call.target) (hloop : Loop env w job call.event rest)
    (hne : ∀ t' ∈ rest, t'.id ≠ call.target.id) (hcredentials : Credentials env w job call) :
    Keeps (ownership env) (.worker job.id) (Tries.stmt (.publish call))
      (fun answer w => Active w job.id call.target a ∧ Loop env w job call.event rest ∧
        Credentials env w job call ∧ ((∃ e, answer = .error e) → Unclosed w job.id call.target))
      stops w := by
  refine Keeps.stmt fun w' hrely hinv htaken => ?_
  have hactive' := stable_active _ _ hrely hactive
  have hunclosed' := stable_unclosed _ _ hrely hunclosed
  have hloop' := stable_loop env job _ rest _ _ hrely hloop
  have hcredentials' := stable_credentials env job call _ _ hrely hcredentials
  refine ⟨rightful hactive' hloop'.own hloop'.read hcredentials', fun x answer w'' _ hstep => ?_⟩
  obtain ⟨rfl, rfl⟩ := Prod.mk.inj (Option.some.inj hstep)
  have hjob : (Effect.published call x.publication).job = some job.id :=
    congrArg some hactive'.job
  refine ⟨guar_log hjob, hinv.log htaken hjob ?_ ?_, ?_⟩
  · intro k t' hk
    cases hk
    obtain ⟨v, hv, heq⟩ := hactive'.row
    exact ⟨v, hv, congrArg TargetFixed.id heq, congrArg TargetFixed.jobId heq⟩
  · -- whatever closes the target is recorded about this job
    intro e' he' call' result hcall hcloses
    obtain ⟨rfl, -⟩ := Effect.published.inj hcall
    obtain ⟨k, hk, htarget⟩ := hcloses.target_eq
    obtain ⟨v, hv, heq⟩ := hactive'.row
    have hid : v.row.id = call.target.id := congrArg TargetFixed.id heq
    have hsame := hinv.jobId_of_traced he' htarget hv hid
    rw [← hsame, hactive'.jobId_eq hinv v hv hid] at hk
    exact hunclosed' e' he' hk hcloses
  · refine ⟨hactive'.log (by simp), hloop'.log rfl hne, ?_, ?_⟩
    · obtain ⟨c, hc, hrest⟩ := hcredentials'
      exact ⟨c, List.mem_append_left _ hc, hrest⟩
    · rintro ⟨e, he⟩
      refine hunclosed'.log ?_
      rw [he]
      exact id

/-- The outcome closes the row after a successful call. -/
theorem keeps_targetComplete (hactive : Active w job.id t a) (hloop : Loop env w job event rest)
    (hne : ∀ t' ∈ rest, t'.id ≠ t.id) {status : PublicationStatus} {value : Value} :
    Keeps (ownership env) (.worker job.id) (Store.targetComplete t.id status value)
      (fun _ w => Loop env w job event rest) stops w := by
  refine keeps_query fun w' hrely hinv htaken => ⟨trivial, stops_db, fun x u w'' hstep => ?_⟩
  obtain ⟨rfl, rfl⟩ := Prod.mk.inj (Option.some.inj hstep)
  exact storeOutcome hinv htaken (stable_active _ _ hrely hactive)
    (stable_loop env job event rest _ _ hrely hloop) hne
    (g := fun t => { t with status := statusName status, result := some value, error := none })
    (fun _ => rfl) (fun _ _ => le_refl _)

/-- The loop over the attempts, in whose order the numbers do not decrease. -/
theorem keeps_publishLoop {call : PublishCall} (attempts : List ℕ)
    (hsorted : (a :: attempts).IsChain (· ≤ ·)) (hactive : Active w job.id call.target a)
    (hunclosed : Unclosed w job.id call.target) (hloop : Loop env w job call.event rest)
    (hne : ∀ t' ∈ rest, t'.id ≠ call.target.id) (hcredentials : Credentials env w job call) :
    Keeps (ownership env) (.worker job.id) (publishLoop env job call a attempts)
      (fun _ w => Loop env w job call.event rest) stops w := by
  have hgiveUp : ∀ {w b text}, Active w job.id call.target b → Loop env w job call.event rest →
      Keeps (ownership env) (.worker job.id)
        (failTarget job call.target.id (some call.provider) b (.publishFailed text))
        (fun _ w => Loop env w job call.event rest) stops w := by
    intro w b text hactive hloop
    refine keeps_failTarget hactive hloop hne (le_refl b) fun _ _ _ _ => ?_
    refine ⟨fun _ e => ?_, fun text => ?_⟩
    · simp
    · simp
  induction attempts generalizing w a with
  | nil => exact hgiveUp hactive hloop
  | cons attempt attempts ih =>
      obtain ⟨hle, hsorted⟩ := List.isChain_cons_cons.mp hsorted
      have hstable : Stable (.worker job.id) fun w =>
          ((Active w job.id call.target attempt ∧ Unclosed w job.id call.target) ∧
            Loop env w job call.event rest) ∧ Credentials env w job call :=
        ((stable_active.and stable_unclosed).and (stable_loop env job _ rest)).and
          (stable_credentials env job call)
      unfold publishLoop
      -- the first statement of an attempt, with what is known of the credentials carried along
      have hrunning := keeps_targetRunning hactive hunclosed hloop hne hle
      have hframed := hrunning.frame (P := fun w => Credentials env w job call)
        (fun w w' => stable_credentials env job call w w') (fun _ _ => credentials_of_guar)
        hcredentials
      refine Keeps.andThen hframed fun _ w h => ?_
      refine Keeps.andThen (keeps_emit hstable h) fun _ w h => ?_
      obtain ⟨⟨⟨hactive, hunclosed⟩, hloop⟩, hcredentials⟩ := h
      refine Keeps.andThen (keeps_publish hactive hunclosed hloop hne hcredentials)
        fun answer w h => ?_
      obtain ⟨hactive, hloop, hcredentials, hunclosed⟩ := h
      cases answer with
      | ok publication =>
          refine Keeps.bind (Keeps.result (fun value _ => ?_) fun e he => ?_)
          · refine Keeps.andThen (keeps_targetComplete hactive hloop hne) fun _ w h => ?_
            exact keeps_emit (stable_loop env job _ rest) h
          · obtain ⟨e', -, rfl⟩ := Fallible.mapError_eq_error.mp he
            exact Or.inr ⟨_, rfl⟩
      | error error =>
          have hunclosed := hunclosed ⟨error, rfl⟩
          show Keeps _ _ (if _ then _ else _) _ _ _
          split
          · refine Keeps.andThen (keeps_emit hstable ⟨⟨⟨hactive, hunclosed⟩, hloop⟩, hcredentials⟩)
              fun _ w h => ?_
            obtain ⟨⟨⟨hactive, hunclosed⟩, hloop⟩, hcredentials⟩ := h
            -- the answer was an error, so the target is still open for the next attempt
            exact ih hsorted hactive hunclosed hloop hcredentials
          · exact hgiveUp hactive hloop

/-- The connection of an open target is found, unless the database fails. -/
theorem keeps_getConnection (hloop : Loop env w job event (t :: rest)) :
    Keeps (ownership env) (.worker job.id) (Store.getConnection job.userId t.connectionId)
      (fun c w => Loop env w job event (t :: rest) ∧ Effect.upserted c ∈ w.trace ∧
        c.id = t.connectionId ∧ c.userId = job.userId ∧ c.provider = t.provider)
      (fun e w => Loop env w job event (t :: rest) ∧ ∃ error, e = .ofDb error) w := by
  unfold Store.getConnection
  have hread : Keeps (ownership env) (.worker job.id)
      (Api.query (.selectConnection t.connectionId job.userId))
      (fun answer w => ∃ c, answer = some c ∧ Loop env w job event (t :: rest) ∧
        Effect.upserted c ∈ w.trace ∧ c.id = t.connectionId ∧ c.userId = job.userId ∧
          c.provider = t.provider)
      (fun e w => Loop env w job event (t :: rest) ∧ ∃ error, e = .ofDb error) w := by
    refine keeps_read (fun _ _ => rfl) fun w' hrely hinv _ => ?_
    have hloop' := stable_loop env job event _ _ _ hrely hloop
    obtain ⟨-, c, hc, hid, huser, hprovider⟩ :=
      (hloop'.active t List.mem_cons_self).owned hinv hloop'.own
    refine ⟨⟨c, hc, hid, huser⟩, fun text => ⟨hloop', _, rfl⟩, ?_⟩
    obtain ⟨c', hfind, hmem, hid', huser'⟩ := Keyed.exists_found
      (p := fun c : ConnectionRow => c.id = t.connectionId ∧ c.userId = job.userId) hc ⟨hid, huser⟩
    obtain rfl : c' = c :=
      List.inj_on_of_nodup_map hinv.connectionIds hmem hc (hid'.trans hid.symm)
    exact ⟨c', hfind, hloop', hinv.upserted c' hmem, hid', huser', hprovider⟩
  refine Keeps.andThen hread fun answer w h => ?_
  obtain ⟨c, rfl, h⟩ := h
  exact Keeps.pure h

/-- The turn of one target. -/
theorem keeps_processTarget (hloop : Loop env w job event (t :: rest))
    (hne : ∀ t' ∈ rest, t'.id ≠ t.id) :
    Keeps (ownership env) (.worker job.id) (processTarget env job event t)
      (fun _ w => Loop env w job event rest) stops w := by
  have hactive := hloop.active t List.mem_cons_self
  unfold processTarget
  rw [if_neg (not_not.mpr hactive.job)]
  cases hprovider : env.fromStr t.provider with
  | error error =>
      -- the provider of a stored target is the name of one
      refine keeps_failTarget hactive hloop.tail hne (le_refl 0) fun w' hinv hown hactive' => ?_
      refine ⟨fun hnames e _ => ?_, fun text => by simp⟩
      obtain ⟨⟨p, hp⟩, -⟩ := hactive'.owned hinv hown
      have hparse := hnames p
      rw [← hp] at hparse
      cases hprovider.symm.trans hparse
  | ok provider =>
      refine Keeps.bind (Keeps.caught ?_)
      refine (keeps_getConnection hloop).mono (fun connection w h => ?_) fun e w h => ?_
      · obtain ⟨hloop, hupserted, hid, huser, hname⟩ := h
        have hactive := hloop.active t List.mem_cons_self
        have hgiveUp : ∀ {why}, (∀ e, why ≠ .invalidProvider e) →
            (∀ e, why ≠ .connectionUnavailable e) →
            Keeps (ownership env) (.worker job.id) (failTarget job t.id (some provider) 0 why)
              (fun _ w => Loop env w job event rest) stops w :=
          fun hinvalid hunavailable => keeps_failTarget hactive hloop.tail hne (le_refl 0)
            fun _ _ _ _ => ⟨fun _ => hinvalid, fun text => hunavailable _⟩
        show Keeps _ _ (if _ then _ else _) _ _ _
        split
        · exact hgiveUp (by simp) (by simp)
        · cases hdecrypt : env.decrypt connection.aad connection.tokenEnvelope with
          | error error => exact hgiveUp (by simp) (by simp)
          | ok tokens =>
              exact keeps_publishLoop [1, 2, 3] (by decide) hactive
                (hloop.unclosed t List.mem_cons_self) hloop.tail hne
                ⟨connection, hupserted, hid, huser, hname, hdecrypt⟩
      · obtain ⟨hloop, error, rfl⟩ := h
        refine keeps_failTarget (hloop.active t List.mem_cons_self) hloop.tail hne (le_refl 0)
          fun _ _ _ _ => ?_
        exact ⟨fun _ e => by simp, fun text => by simp [ApiError.ofDb]⟩

/-- The loop over the targets. -/
theorem keeps_processTargets (targets : List TargetRow)
    (hnodup : (targets.map fun t => t.id).Nodup) (hloop : Loop env w job event targets) :
    Keeps (ownership env) (.worker job.id) (processTargets env job event targets)
      (fun _ w => Loop env w job event []) stops w := by
  induction targets generalizing w with
  | nil => exact Keeps.pure hloop
  | cons t targets ih =>
      rw [List.map_cons, List.nodup_cons] at hnodup
      have hne : ∀ t' ∈ targets, t'.id ≠ t.id := by
        intro t' ht' heq
        exact hnodup.1 (heq ▸ List.mem_map_of_mem ht')
      refine Keeps.andThen (keeps_processTarget hloop hne) fun _ w h => ?_
      exact ih hnodup.2 h

/-! ## The whole run -/

/-- The state in which a worker starts: nothing has been tried for its job. -/
structure Fresh (w : World) (job : JobRow) : Prop where
  own : OwnJob w job
  untraced : ∀ e ∈ w.trace, e.job ≠ some job.id
  untried : ∀ v ∈ w.targets, v.row.jobId = job.id → v.row.attempt = 0

theorem stable_fresh (job : JobRow) : Stable (.worker job.id) fun w => Fresh w job := by
  intro w w' hrely h
  refine ⟨stable_ownJob job w w' hrely h.own, fun e he hjob => ?_, fun v hv hjob => ?_⟩
  · exact h.untraced e (hrely.traced e hjob he) hjob
  · exact h.untried v ((hrely.targets v hjob).mp hv) hjob

/-- The event of the job is found and read, unless the database or the decoding fails. -/
theorem keeps_getEvent (hfresh : Fresh w job) :
    Keeps (ownership env) (.worker job.id) (Store.getEvent env job.userId job.eventId)
      (fun event w => Fresh w job ∧ EventRead env w job event) stops w := by
  unfold Store.getEvent
  have hread : Keeps (ownership env) (.worker job.id)
      (Api.query (.selectEventDocument job.eventId job.userId))
      (fun answer w => Fresh w job ∧ ∃ e ∈ w.events, e.id = job.eventId ∧
        e.ownerId = job.userId ∧ answer = some e.document) stops w := by
    refine keeps_read (fun _ _ => rfl) fun w' hrely hinv _ => ?_
    have hfresh' := stable_fresh job _ _ hrely hfresh
    obtain ⟨v, hv, -, heq⟩ := hfresh'.own
    obtain ⟨e, he, hid, howner⟩ := heq ▸ hinv.eventOwned v hv
    refine ⟨⟨e, he, hid, howner⟩, stops_db, hfresh', ?_⟩
    obtain ⟨e', hfind, he', hid', howner'⟩ := Keyed.exists_found
      (p := fun e : EventRow => e.id = job.eventId ∧ e.ownerId = job.userId) he ⟨hid, howner⟩
    exact ⟨e', he', hid', howner', congrArg (Option.map _) hfind⟩
  refine Keeps.andThen hread fun answer w h => ?_
  obtain ⟨hfresh, e, he, hid, howner, rfl⟩ := h
  refine Keeps.result (fun event hevent => ?_) fun error herror => ?_
  · exact ⟨hfresh, e, he, hid, howner, Fallible.mapError_eq_ok.mp hevent⟩
  · obtain ⟨e', -, rfl⟩ := Fallible.mapError_eq_error.mp herror
    exact Or.inr ⟨_, rfl⟩

/-- The rows that `claim_targets` reads. -/
def claimed (w : World) (j : Uuid) : List TargetRow :=
  ((w.targets.rows none).filter (·.jobId = j)).insertionSort fun a b => a.id ≤ b.id

theorem claimed_perm_filter (w : World) (j : Uuid) :
    (claimed w j).Perm ((w.targets.rows none).filter (·.jobId = j)) :=
  List.perm_insertionSort _ _

theorem mem_claimed {j : Uuid} :
    t ∈ claimed w j ↔ t.jobId = j ∧ ∃ v ∈ w.targets, v.committed = true ∧ v.row = t := by
  rw [(claimed_perm_filter w j).mem_iff, List.mem_filter, decide_eq_true_iff,
    Table.mem_rows_none, and_comm]

/-- No target is claimed twice. -/
theorem nodup_claimed_of_ids (hids : ((w.targets.rows none).map (·.id)).Nodup) (j : Uuid) :
    ((claimed w j).map fun t => t.id).Nodup :=
  ((claimed_perm_filter w j).map _).nodup_iff.mpr ((List.filter_sublist.map _).nodup hids)

theorem nodup_claimed (hinv : Inv env w) (j : Uuid) :
    ((claimed w j).map fun t => t.id).Nodup := by
  refine nodup_claimed_of_ids ?_ j
  rw [Table.rows, List.map_map]
  exact (List.filter_sublist.map _).nodup hinv.targetIds

/-- The claimed targets are those of the job, each open and once. -/
theorem keeps_claimTargets (hfresh : Fresh w job) (hread : EventRead env w job event) :
    Keeps (ownership env) (.worker job.id) (Store.claimTargets job.id)
      (fun targets w => (targets.map fun t => t.id).Nodup ∧ Loop env w job event targets)
      stops w := by
  unfold Store.claimTargets
  have hstable : Stable (.worker job.id) fun w => Fresh w job ∧ EventRead env w job event :=
    (stable_fresh job).and (stable_eventRead env job event job.id)
  refine Keeps.andThen (keeps_query (Q := fun _ w => Fresh w job ∧ EventRead env w job event)
    fun w' hrely hinv htaken => ?_) fun _ w h => ?_
  · refine ⟨trivial, stops_db, fun x a w'' hstep => ?_⟩
    obtain ⟨hfresh', hread'⟩ := hstable _ _ hrely ⟨hfresh, hread⟩
    obtain ⟨rfl, rfl⟩ := Prod.mk.inj (Option.some.inj hstep)
    have hf : ∀ r : JobRow, ({ r with status := "running", updatedAt := x.now } :
        JobRow).toJobFixed = r.toJobFixed := fun _ => rfl
    refine ⟨guar_updateJob hf fun hmem => hfresh'.untraced _ hmem rfl, hinv.updateJob hf,
      ⟨?_, hfresh'.untraced, hfresh'.untried⟩, hread'⟩
    -- the update keeps the columns that identify the job
    obtain ⟨v, hv, hc, heq⟩ := hfresh'.own
    obtain ⟨v', hv', -, hc', hfixed⟩ := mem_updateJob_of_mem hf hv
    exact ⟨v', hv', hc' ▸ hc, hfixed.trans heq⟩
  · refine keeps_read (fun _ _ => rfl) fun w' hrely hinv _ => ⟨trivial, stops_db, ?_⟩
    obtain ⟨hfresh, hread⟩ := hstable _ _ hrely h
    refine ⟨nodup_claimed hinv job.id, hfresh.own, hread, fun hmem => hfresh.untraced _ hmem rfl,
      fun t ht => ?_, fun t _ e he hjob => absurd hjob (hfresh.untraced e he)⟩
    obtain ⟨hjob, v, hv, -, rfl⟩ := mem_claimed.mp ht
    exact ⟨hjob, ⟨v, hv, rfl⟩, fun u hu hj _ => (hfresh.untried u hu hj).le,
      fun hmem => hfresh.untraced _ hmem rfl⟩

/-- The status is stored after the last target. -/
theorem keeps_finishJob (hloop : Loop env w job event []) :
    Keeps (ownership env) (.worker job.id) (Store.finishJob job.id)
      (fun _ w => OwnJob w job) stops w := by
  unfold Store.finishJob
  have hcount : ∀ {w status}, Loop env w job event [] →
      Keeps (ownership env) (.worker job.id) (Api.query (.countTargets job.id status))
        (fun _ w => Loop env w job event []) stops w := by
    intro w status hloop
    refine keeps_read (fun _ _ => rfl) fun w' hrely _ _ => ⟨trivial, stops_db, ?_⟩
    exact stable_loop env job event [] _ _ hrely hloop
  refine Keeps.andThen (hcount hloop) fun failures w h => ?_
  refine Keeps.andThen (hcount h) fun actions w h => ?_
  refine keeps_query fun w' hrely hinv htaken => ⟨trivial, stops_db, fun x a w'' hstep => ?_⟩
  have hloop' := stable_loop env job event [] _ _ hrely h
  obtain ⟨rfl, rfl⟩ := Prod.mk.inj (Option.some.inj hstep)
  have hf : ∀ r : JobRow, ({ r with status := Store.summary failures actions, updatedAt := x.now } :
      JobRow).toJobFixed = r.toJobFixed := fun _ => rfl
  have hinv' := hinv.updateJob (j := job.id) hf
  refine ⟨(guar_updateJob hf hloop'.unfinished).trans (guar_log rfl),
    hinv'.log (e := .finished job.id) htaken rfl (fun _ _ hk => by cases hk)
      (fun _ _ call result hcall => by cases hcall), ?_⟩
  obtain ⟨v, hv, hc, heq⟩ := hloop'.own
  obtain ⟨v', hv', -, hc', hfixed⟩ := mem_updateJob_of_mem hf hv
  exact ⟨v', hv', hc' ▸ hc, hfixed.trans heq⟩

/-- The job is found again, unless the database fails. -/
theorem keeps_getJob (hown : OwnJob w job) :
    Keeps (ownership env) (.worker job.id) (Store.getJob job.userId job.id)
      (fun _ _ => True) stops w := by
  unfold Store.getJob
  have hread : Keeps (ownership env) (.worker job.id) (Api.query (.selectJob job.id job.userId))
      (fun answer _ => ∃ found, answer = some found) stops w := by
    refine keeps_read (fun _ _ => rfl) fun w' hrely _ _ => ?_
    obtain ⟨v, hv, hc, heq⟩ := stable_ownJob job _ _ hrely hown
    have hid : v.row.id = job.id := congrArg JobFixed.id heq
    have huser : v.row.userId = job.userId := congrArg JobFixed.userId heq
    exact ⟨⟨v, hv, hc, hid, huser⟩, stops_db, (stable_ownJob job _ _ hrely hown).exists_found⟩
  refine Keeps.andThen hread fun answer w h => ?_
  obtain ⟨found, rfl⟩ := h
  refine Keeps.bind (keeps_read (fun _ _ => rfl) fun _ _ _ _ => ⟨trivial, stops_db, ?_⟩)
  trivial

/-- A worker that is started for a fresh job keeps the discipline. -/
theorem keeps_runWorker (hfresh : Fresh w job) :
    Keeps (ownership env) (.worker job.id) (runWorker env job) (fun _ _ => True) stops w := by
  unfold runWorker
  refine Keeps.andThen (keeps_getEvent hfresh) fun event w h => ?_
  refine Keeps.andThen (keeps_claimTargets h.1 h.2) fun targets w h => ?_
  obtain ⟨hnodup, hloop⟩ := h
  refine Keeps.andThen (keeps_emit (stable_loop env job event targets) hloop) fun _ w hloop => ?_
  refine Keeps.andThen (keeps_processTargets targets hnodup hloop) fun _ w h => ?_
  refine Keeps.andThen (keeps_finishJob h) fun _ w h => ?_
  refine Keeps.andThen (keeps_getJob h) fun found w _ => ?_
  exact keeps_emit (fun _ _ _ h => h) trivial

end Programs

/-- The program of a worker keeps the discipline. -/
theorem wp_worker {job : JobRow} (hfresh : Fresh w job) :
    (ownership env).wp (.worker job.id) (worker env job) ((ownership env).post (.worker job.id))
      w := by
  rw [worker, Discipline.wp_bind]
  refine Discipline.wp_mono (fun a w h => ?_) (keeps_runWorker hfresh)
  intro e he
  rw [he] at h
  exact h

end Service
