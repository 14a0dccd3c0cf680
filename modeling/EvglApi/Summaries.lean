/-
# When the status of a job sums up its targets

`finish_job` looks at two statuses of the targets and takes the absence of both for success.
After a run of the worker that returned well, the job, its last update and its targets agree
unless every target was published, none of them with a failure or a required action, and one
of them with a status that is not final.

When the only target is reported queued, the job is published while its target is queued.
-/
import EvglApi.Orphans

open Concurrency Mvcc

namespace Service

variable {env : Deployment} {p : Pool Stmt Role Outcome World} {calm : Prop} {w : World}
  {j t : Uuid} {s : PublicationStatus}

/-! ## Agreement -/

/-- The status of job `j` sums up its targets, and the last update carries it. -/
structure SumsUp (w : World) (j : Uuid) (status : String) : Prop where
  update : ∃ u, (w.jobUpdates j).getLast? = some u ∧ statusName u.status = status
  failed : status = "failed" ↔ w.HasTarget j "failed"
  action : status = "action_required" ↔
    ¬ w.HasTarget j "failed" ∧ w.HasTarget j "action_required"
  published : status = "published" →
    ∀ t ∈ w.targets, t.row.jobId = j → t.row.status = "published"

/-- Job `j` is stored with a status that sums up its targets. -/
def JobSumsUp (w : World) (j : Uuid) : Prop :=
  ∃ v ∈ w.jobs, v.row.id = j ∧ v.committed = true ∧ SumsUp w j v.row.status

/-- A publication with this status is not over. -/
def Unfinished (s : PublicationStatus) : Prop := s = .queued ∨ s = .running ∨ s = .retrying

/-- Some target of job `j` was not published, or was published with a status that
`finish_job` looks at. -/
def Noticed (w : World) (j : Uuid) : Prop :=
  (∃ v ∈ w.targets, v.row.jobId = j ∧ ∀ s, ¬ w.Reported j v.row.id s) ∨
    (∃ t, w.Reported j t .failed) ∨ ∃ t, w.Reported j t .actionRequired

/-- If an adapter has answered that a target is published but not over, then there is
another target that decides on the status. -/
def Decided (w : World) (j : Uuid) : Prop :=
  (∃ t s, w.Reported j t s ∧ Unfinished s) → Noticed w j

/-! ## Targets of a concluded job -/

namespace Concluded

/-- What was reported about a target is stored. -/
theorem row_of_reported (h : Concluded calm j w) (hinv : Inv env w) (hreport : w.Reported j t s) :
    ∃ v ∈ w.targets, v.row.id = t ∧ v.row.jobId = j ∧ v.row.status = statusName s := by
  obtain ⟨-, hstored⟩ := (h.progress.stored t s hreport).resolve_left nofun
  obtain ⟨call, fields, hmem, hjob, hid⟩ := hreport
  obtain ⟨v, hv, hvid, hvjob⟩ := hinv.targetTraced _ hmem j t (by rw [← hjob, ← hid]; rfl)
  exact ⟨v, hv, hvid, hvjob, hstored v hv hvjob hvid⟩

/-- A target has what was reported about it, or has failed. -/
theorem status_of_row (h : Concluded calm j w) {v : Version TargetRow} (hv : v ∈ w.targets)
    (hjob : v.row.jobId = j) :
    (∃ s, w.Reported j v.row.id s ∧ v.row.status = statusName s) ∨
      (∀ s, ¬ w.Reported j v.row.id s) ∧ v.row.status = "failed" := by
  by_cases hreported : ∃ s, w.Reported j v.row.id s
  · obtain ⟨s, hreport⟩ := hreported
    obtain ⟨-, hstored⟩ := (h.progress.stored _ s hreport).resolve_left nofun
    exact Or.inl ⟨s, hreport, hstored v hv hjob rfl⟩
  · have hnone : ∀ s, ¬ w.Reported j v.row.id s := fun s hs => hreported ⟨s, hs⟩
    refine Or.inr ⟨hnone, ?_⟩
    rcases h.progress.rows v hv hjob with hnil | hfailed | hreport
    · cases hnil
    · exact hfailed
    · exact absurd hreport hreported

/-- A target with a status other than a failure has been reported with it. -/
theorem reported_of_hasTarget (h : Concluded calm j w) (hs : s ≠ .failed)
    (hhas : w.HasTarget j (statusName s)) : ∃ t, w.Reported j t s := by
  obtain ⟨v, hv, hjob, hstatus⟩ := hhas
  rcases h.status_of_row hv hjob with ⟨s', hreport, hs'⟩ | ⟨-, hfailed⟩
  · obtain rfl := statusName_injective (hs'.symm.trans hstatus)
    exact ⟨v.row.id, hreport⟩
  · have hname : statusName s = statusName .failed := hstatus.symm.trans hfailed
    exact absurd (statusName_injective hname) hs

/-- Some target is noticed exactly if the targets have one of the two statuses. -/
theorem noticed_iff (h : Concluded calm j w) (hinv : Inv env w) :
    Noticed w j ↔ w.HasTarget j "failed" ∨ w.HasTarget j "action_required" := by
  constructor
  · rintro (⟨v, hv, hjob, hnone⟩ | ⟨t, hreport⟩ | ⟨t, hreport⟩)
    · rcases h.status_of_row hv hjob with ⟨s, hreport, -⟩ | ⟨-, hfailed⟩
      · exact absurd hreport (hnone s)
      · exact Or.inl ⟨v, hv, hjob, hfailed⟩
    · obtain ⟨v, hv, -, hjob, hstatus⟩ := h.row_of_reported hinv hreport
      exact Or.inl ⟨v, hv, hjob, hstatus⟩
    · obtain ⟨v, hv, -, hjob, hstatus⟩ := h.row_of_reported hinv hreport
      exact Or.inr ⟨v, hv, hjob, hstatus⟩
  · rintro (⟨v, hv, hjob, hstatus⟩ | haction)
    · rcases h.status_of_row hv hjob with ⟨s, hreport, hs⟩ | ⟨hnone, -⟩
      · obtain rfl : s = .failed := statusName_injective (hs.symm.trans hstatus)
        exact Or.inr (Or.inl ⟨v.row.id, hreport⟩)
      · exact Or.inl ⟨v, hv, hjob, hnone⟩
    · exact Or.inr (Or.inr (h.reported_of_hasTarget (s := .actionRequired) (by decide) haction))

end Concluded

/-- A terminal status is the name of the status that the last update carries. -/
theorem statusName_finalStatus {status : String} (h : Terminal status) :
    statusName (finalStatus status) = status := by
  rcases h with rfl | rfl | rfl
  all_goals rfl

namespace Announced

theorem sumsUp_of_decided (h : Announced calm j w) (hinv : Inv env w) (hdecided : Decided w j) :
    JobSumsUp w j := by
  obtain ⟨v, hv, hid, hc, htally⟩ := h.job
  obtain ⟨u, hlast, hstatus⟩ := h.update
  refine ⟨v, hv, hid, hc, ⟨u, hlast, ?_⟩, htally.failed, htally.action, fun hpublished => ?_⟩
  · rw [hstatus v hv hid]
    exact statusName_finalStatus htally.terminal
  · -- neither of the two statuses occurs among the targets
    have hnotFailed : ¬ w.HasTarget j "failed" := fun hfailed =>
      absurd (hpublished.symm.trans (htally.failed.mpr hfailed)) (by decide)
    have hnotAction : ¬ w.HasTarget j "action_required" := fun haction =>
      absurd (hpublished.symm.trans (htally.action.mpr ⟨hnotFailed, haction⟩)) (by decide)
    have hunnoticed : ¬ Noticed w j := by
      rw [h.noticed_iff hinv, not_or]
      exact ⟨hnotFailed, hnotAction⟩
    intro t ht hjob
    rcases h.status_of_row ht hjob with ⟨s, hreport, hs⟩ | ⟨-, hfailed⟩
    · have hfinished : ¬ Unfinished s := fun hs' => hunnoticed (hdecided ⟨_, s, hreport, hs'⟩)
      rw [hs]
      cases s with
      | published => rfl
      | failed => exact absurd ⟨t, ht, hjob, hs⟩ hnotFailed
      | actionRequired => exact absurd ⟨t, ht, hjob, hs⟩ hnotAction
      | queued => exact absurd (Or.inl rfl) hfinished
      | running => exact absurd (Or.inr (Or.inl rfl)) hfinished
      | retrying => exact absurd (Or.inr (Or.inr rfl)) hfinished
    · exact absurd ⟨t, ht, hjob, hfailed⟩ hnotFailed

theorem decided_of_sumsUp (h : Announced calm j w) (hinv : Inv env w) (hsumsUp : JobSumsUp w j) :
    Decided w j := by
  rintro ⟨t, s, hreport, hs⟩
  rw [h.noticed_iff hinv]
  obtain ⟨v, hv, hid, -, hsumsUp⟩ := hsumsUp
  obtain ⟨v', hv', hid', -, htally⟩ := h.job
  obtain rfl := hinv.eq_of_jobId hv hv' (hid.trans hid'.symm)
  rcases htally.terminal with hfailed | haction | hpublished
  · exact Or.inl (hsumsUp.failed.mp hfailed)
  · exact Or.inr (hsumsUp.action.mp haction).2
  · -- the target that is not over would have to be published
    obtain ⟨u, hu, -, hjob, hstatus⟩ := h.row_of_reported hinv hreport
    have hsame : statusName s = statusName .published :=
      hstatus.symm.trans (hsumsUp.published hpublished u hu hjob)
    obtain rfl := statusName_injective hsame
    rcases hs with hs | hs | hs
    all_goals cases hs

end Announced

/-- After a run of the worker that returned well, the stored status of the job, the last
update and the stored statuses of the targets agree exactly if the status is decided. -/
theorem summary_agrees_iff {i : ℕ} (h : Reachable env p)
    (ht : p.threads[i]? = some ⟨.worker j, .pure (.finished (.ok ()))⟩) :
    JobSumsUp p.shared j ↔ Decided p.shared j := by
  obtain ⟨ls, hrun⟩ := h
  have hassume : ∀ {β : Type} (r : Role) (st : Stmt β) (x : Draw) (w : World),
      (outcomes env False).discipline.assume r st x w := by
    intro β r st x w
    cases r with
    | request n q => exact ⟨trivial, trivial⟩
    | worker k => exact ⟨trivial, False.elim⟩
  have hfollows : (outcomes env False).discipline.FollowsAll idleService ls :=
    Discipline.followsAll_of_assume hassume (fun _ => trivial) _ _
  obtain ⟨hok, -⟩ := outcomes_of_run hfollows hrun
  have hinv : Inv env p.shared := hok.inv
  have hannounced : Announced False j p.shared := (left_of_ended hok ht).1 rfl
  exact ⟨hannounced.decided_of_sumsUp hinv, hannounced.sumsUp_of_decided hinv⟩

/-! ## Runs -/

namespace Sample

/-- The worker, whose only call is answered with this status. -/
def report (status : PublicationStatus) : List (Label Draw Request) :=
  List.replicate 7 (.turn 4 {}) ++
    [.turn 4 { publication := .ok ⟨status, .null⟩ }] ++ List.replicate 8 (.turn 4 {})

/-- A worker that has returned well, with the statuses of its job and of the targets. -/
def summaries (p : Pool Stmt Role Outcome World) : List (Uuid × List String × List String) :=
  p.threads.filterMap fun t =>
    match t with
    | ⟨.worker j, .pure (.finished (.ok _))⟩ =>
        some (j, (p.shared.jobs.filter fun v => v.row.id = j).map fun v => v.row.status,
          (p.shared.targets.filter fun v => v.row.jobId = j).map fun v => v.row.status)
    | _ => none

/-- A listed worker has returned well. -/
theorem ended_of_mem_summaries {p : Pool Stmt Role Outcome World} {j : Uuid}
    {jobs targets : List String} (h : (j, jobs, targets) ∈ summaries p) :
    (∃ i : ℕ, p.threads[i]? = some ⟨.worker j, .pure (.finished (.ok ()))⟩) ∧
      ((p.shared.jobs.filter fun v => v.row.id = j).map fun v => v.row.status) = jobs ∧
      ((p.shared.targets.filter fun v => v.row.jobId = j).map fun v => v.row.status) = targets := by
  obtain ⟨t, ht, hsome⟩ := List.mem_filterMap.mp h
  obtain ⟨i, hi⟩ := List.getElem?_of_mem ht
  split at hsome
  · obtain ⟨rfl, hrest⟩ := Prod.mk.inj (Option.some.inj hsome)
    exact ⟨⟨i, hi⟩, (Prod.mk.inj hrest).1, (Prod.mk.inj hrest).2⟩
  · cases hsome

end Sample

/-- A target that needs an action decides on the status. -/
theorem summary_agrees_iff_sample :
    ∃ p, idleService.run (service Sample.deployment)
        (Sample.connect ++ Sample.enqueue ++ Sample.report .actionRequired) = some p ∧
      Sample.summaries p = [(30, ["action_required"], ["action_required"])] ∧
      (JobSumsUp p.shared 30 ↔ Decided p.shared 30) := by
  have hrun : ((idleService.run (service Sample.deployment)
      (Sample.connect ++ Sample.enqueue ++ Sample.report .actionRequired)).map Sample.summaries) =
        some [(30, ["action_required"], ["action_required"])] := by decide +kernel
  obtain ⟨p, hp, hsummaries⟩ := Option.map_eq_some_iff.mp hrun
  obtain ⟨⟨i, hi⟩, -⟩ := Sample.ended_of_mem_summaries (hsummaries ▸ List.mem_cons_self)
  exact ⟨p, hp, hsummaries, summary_agrees_iff ⟨_, hp⟩ hi⟩

/-- When the only target is reported queued, the job is published while its target is not. -/
theorem not_summary_agrees :
    ¬ ∀ (env : Deployment) (p : Pool Stmt Role Outcome World) (i : ℕ) (j : Uuid),
      Reachable env p → p.threads[i]? = some ⟨.worker j, .pure (.finished (.ok ()))⟩ →
        JobSumsUp p.shared j := by
  intro h
  have hrun : ((idleService.run (service Sample.deployment)
      (Sample.connect ++ Sample.enqueue ++ Sample.report .queued)).map Sample.summaries) =
        some [(30, ["published"], ["queued"])] := by decide +kernel
  obtain ⟨p, hp, hsummaries⟩ := Option.map_eq_some_iff.mp hrun
  obtain ⟨⟨i, hi⟩, hjobs, htargets⟩ :=
    Sample.ended_of_mem_summaries (hsummaries ▸ List.mem_cons_self)
  obtain ⟨v, hv, hid, -, hsumsUp⟩ := h _ p i 30 ⟨_, hp⟩ hi
  have hstatus : v.row.status ∈ ["published"] := by
    rw [← hjobs]
    exact List.mem_map.mpr ⟨v, List.mem_filter.mpr ⟨hv, decide_eq_true hid⟩, rfl⟩
  have hqueued : "queued" ∈ (p.shared.targets.filter fun t => t.row.jobId = 30).map
      fun t => t.row.status := by
    rw [htargets]
    exact List.mem_singleton_self _
  obtain ⟨t, ht, hname⟩ := List.mem_map.mp hqueued
  obtain ⟨ht, hjob⟩ := List.mem_filter.mp ht
  have hpublished := hsumsUp.published (List.mem_singleton.mp hstatus) t ht (of_decide_eq_true hjob)
  exact absurd (hname.symm.trans hpublished) (by decide)

end Service
