/-
# Which failures orphan a job

A worker leaves its job queued or running when a statement fails that it does not get over.
In every run in which the workers are spared such failures, no job is orphaned: every worker
that has ended has left a terminal status and no open target, and every job that is queued
or running has a worker at work, or its worker is just about to be started.

When the first query of a worker fails, the worker is gone and the job stays queued.
-/
import EvglApi.AtMostOnce
import EvglApi.OutcomeRequests

open Concurrency Mvcc

namespace Service

variable {env : Deployment} {p : Pool Stmt Role Outcome World} {ls : List (Label Draw Request)}

/-! ## Schedules -/

/-- A worker gets over what it meets with in this turn. -/
def spared (env : Deployment) : Thread Stmt Role Outcome → Draw → World → Bool
  | ⟨.worker _, .step st _⟩, x, w => st.spared env x w
  | _, _, _ => true

/-- In the run under the schedule, the workers get over what they meet with. -/
def workersSpared (env : Deployment) (p : Pool Stmt Role Outcome World)
    (ls : List (Label Draw Request)) : Bool :=
  p.meets (service env) (spared env) ls

/-- The number of statements that fail under the schedule. -/
def failures (ls : List (Label Draw Request)) : ℕ :=
  ls.countP fun
    | .arrive _ => false
    | .turn _ x => x.fails.isSome

/-! ## Jobs and their workers -/

/-- A program with the role is at work. -/
def AtWork (p : Pool Stmt Role Outcome World) (r : Role) : Prop :=
  ∃ prog, ⟨r, prog⟩ ∈ p.threads ∧ ∀ a, prog ≠ .pure a

/-- No job is orphaned. -/
structure NoOrphans (p : Pool Stmt Role Outcome World) : Prop where
  /-- A worker that has ended, well or not, has left nothing open. -/
  ended : ∀ (i : ℕ) j a, p.threads[i]? = some ⟨.worker j, .pure a⟩ → Settled p.shared j
  /-- A job in progress has a worker at work, or the request that has committed it has still
  to start the worker. -/
  live : ∀ v ∈ p.shared.jobs, v.committed = true → InProgress v.row.status →
    AtWork p (.worker v.row.id) ∨
      v.row.id ∉ p.shared.workers ∧ ∃ q, AtWork p (.request v.xmin q)

/-- A role that has been taken is at work, or its program has ended. -/
theorem atWork_or_ended (hmanned : Discipline.Manned Taken p) {r : Role} (h : Taken p.shared r) :
    AtWork p r ∨ ∃ (i : ℕ) (a : Outcome), p.threads[i]? = some ⟨r, .pure a⟩ := by
  obtain ⟨⟨r, prog⟩, ht, rfl⟩ := hmanned r h
  by_cases hended : ∃ a, prog = .pure a
  · obtain ⟨a, rfl⟩ := hended
    obtain ⟨i, hi⟩ := List.getElem?_of_mem ht
    exact Or.inr ⟨i, a, hi⟩
  · exact Or.inl ⟨prog, ht, fun a heq => hended ⟨a, heq⟩⟩

section Run

variable {calm : Prop}

/-- The service keeps what is agreed on besides, and every role keeps its thread. -/
theorem outcomes_of_run (hfollows : (outcomes env calm).discipline.FollowsAll idleService ls)
    (hrun : idleService.run (service env) ls = some p) :
    (outcomes env calm).discipline.PoolOk p ∧ Discipline.Manned Taken p := by
  have hstart : (outcomes env calm).discipline.PoolOk idleService :=
    Discipline.poolOk_nil inv_empty
  refine ⟨hstart.run (hospitable_outcomes env calm) hfollows hrun, ?_⟩
  refine hstart.manned_run (fun st x s b s' r hexec h => taken_of_exec hexec h)
    (fun r s r' hfree htaken h => taken_of_enter hfree htaken h) (hospitable_outcomes env calm)
    hfollows ?_ hrun
  intro r hr
  cases r with
  | request n q => cases hr
  | worker j => cases hr

/-- A finished worker has left what it should. -/
theorem left_of_ended (hok : (outcomes env calm).discipline.PoolOk p) {i : ℕ} {r : Role}
    {a : Outcome} (ht : p.threads[i]? = some ⟨r, .pure a⟩) : Left calm r a p.shared :=
  (hok.post ht).2

theorem settled_of_ended (hok : (outcomes env calm).discipline.PoolOk p) (hcalm : calm) {i : ℕ}
    {j : Uuid} {a : Outcome} (ht : p.threads[i]? = some ⟨.worker j, .pure a⟩) :
    Settled p.shared j := by
  have hleft := left_of_ended hok ht
  cases a with
  | reply r => exact hleft.elim
  | finished r => exact hleft.2 hcalm

end Run

/-- In every run in which the workers are spared, no job is orphaned. -/
theorem no_orphans (hrun : idleService.run (service env) ls = some p)
    (hspared : workersSpared env idleService ls = true) : NoOrphans p := by
  have hfollows : (outcomes env True).discipline.FollowsAll idleService ls := by
    refine Discipline.followsAll_of_meets (fun _ _ => trivial) ?_ hspared
    intro β i r st k x w _ hturn
    refine ⟨trivial, ?_⟩
    cases r with
    | request n q => trivial
    | worker j => exact fun _ => hturn
  obtain ⟨hok, hmanned⟩ := outcomes_of_run hfollows hrun
  have hinv : Inv env p.shared := hok.inv
  refine ⟨fun i j a ht => settled_of_ended hok trivial ht, fun v hv _ hprogress => ?_⟩
  by_cases hworker : v.row.id ∈ p.shared.workers
  · have htaken : Taken p.shared (.worker v.row.id) := hworker
    refine Or.inl ((atWork_or_ended hmanned htaken).resolve_right ?_)
    rintro ⟨i, a, ht⟩
    -- the worker would have left a terminal status
    obtain ⟨u, hu, hid, -, hterminal⟩ := (settled_of_ended hok trivial ht).job
    rw [hinv.eq_of_jobId hu hv hid] at hterminal
    exact hterminal.not_inProgress hprogress
  · obtain ⟨targets, hasked, -⟩ := hinv.asked v hv
    have htaken : Taken p.shared (.request v.xmin (.crossPost v.row.userId v.row.eventId
        (some v.row.idempotencyKey) targets)) := hasked
    refine Or.inr ⟨hworker, _, (atWork_or_ended hmanned htaken).resolve_right ?_⟩
    rintro ⟨i, a, ht⟩
    exact hworker (left_of_ended hok ht v hv rfl)

/-! ## Runs -/

namespace Sample

/-- The worker whose first query fails. -/
def stumble : List (Label Draw Request) := [.turn 4 { fails := some "connection reset" }]

/-- The job of a worker that has ended with an error, and the status of its job. -/
def abandoned (p : Pool Stmt Role Outcome World) : List (Uuid × List String) :=
  p.threads.filterMap fun t =>
    match t with
    | ⟨.worker j, .pure (.finished (.error _))⟩ =>
        some (j, (p.shared.jobs.filter fun v => v.row.id = j).map fun v => v.row.status)
    | _ => none

end Sample

/-- The worker publishes in the second attempt, and leaves nothing open. -/
theorem no_orphans_sample :
    ∃ p, idleService.run (service Sample.deployment)
        (Sample.connect ++ Sample.enqueue ++ Sample.work) = some p ∧
      (p.shared.jobs.map fun v => v.row.status) = ["published"] ∧ NoOrphans p := by
  have hrun : ((idleService.run (service Sample.deployment)
      (Sample.connect ++ Sample.enqueue ++ Sample.work)).map fun p =>
        p.shared.jobs.map fun v => v.row.status) = some ["published"] := by decide +kernel
  obtain ⟨p, hp, hstatus⟩ := Option.map_eq_some_iff.mp hrun
  have hspared : workersSpared Sample.deployment idleService
      (Sample.connect ++ Sample.enqueue ++ Sample.work) = true := by decide +kernel
  exact ⟨p, hp, hstatus, no_orphans hp hspared⟩

/-- One failing query orphans a job. -/
theorem not_no_orphans :
    ¬ ∀ (env : Deployment) (ls : List (Label Draw Request)) (p : Pool Stmt Role Outcome World),
      idleService.run (service env) ls = some p → failures ls ≤ 1 → NoOrphans p := by
  intro h
  have hrun : ((idleService.run (service Sample.deployment)
      (Sample.connect ++ Sample.enqueue ++ Sample.stumble)).map Sample.abandoned) =
        some [(30, ["queued"])] := by decide +kernel
  obtain ⟨p, hp, habandoned⟩ := Option.map_eq_some_iff.mp hrun
  have hone : failures (Sample.connect ++ Sample.enqueue ++ Sample.stumble) ≤ 1 := by decide
  have hmem : (30, ["queued"]) ∈ Sample.abandoned p := habandoned ▸ List.mem_cons_self
  obtain ⟨t, ht, hsome⟩ := List.mem_filterMap.mp hmem
  obtain ⟨i, hi⟩ := List.getElem?_of_mem ht
  split at hsome
  · next j e =>
      obtain ⟨rfl, hstatus⟩ := Prod.mk.inj (Option.some.inj hsome)
      obtain ⟨v, hv, hid, -, hterminal⟩ := ((h _ _ p hp hone).ended i _ _ hi).job
      have hqueued : v.row.status ∈ ["queued"] := by
        rw [← hstatus]
        exact List.mem_map.mpr ⟨v, List.mem_filter.mpr ⟨hv, decide_eq_true hid⟩, rfl⟩
      rw [List.mem_singleton.mp hqueued] at hterminal
      exact absurd (Or.inl rfl) hterminal.not_inProgress
  · cases hsome

end Service
