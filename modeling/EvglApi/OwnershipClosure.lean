/-
# Jobs stay within their user

In every state that the service reaches, a job belongs to an event of its user, and
each of its targets to a connection of that user with the target's provider.  What a
worker selects therefore exists: it ends with an error only if the database or the
JSON codec fails, it gives no target up for an unreadable provider or a missing
connection, and it publishes an event of the job's user with that user's
credentials.
-/
import EvglApi.AtMostOnce

open Concurrency Mvcc

namespace Service

variable {env : Deployment} {p : Pool Stmt Role Outcome World}

/-- Every job has an event of its user, and every target of the job a connection of that
user with the provider of the target. -/
structure OwnershipClosed (w : World) : Prop where
  events : ∀ v ∈ w.jobs, ∃ e ∈ w.events, e.id = v.row.eventId ∧ e.ownerId = v.row.userId
  jobs : ∀ t ∈ w.targets, ∃ v ∈ w.jobs, v.row.id = t.row.jobId
  connections : ∀ t ∈ w.targets, ∀ v ∈ w.jobs, v.row.id = t.row.jobId →
    ∃ c ∈ w.connections, c.id = t.row.connectionId ∧ c.userId = v.row.userId ∧
      c.provider = t.row.provider

/-- Whatever a worker is about to do, what it needs is there. -/
def WorkersServed (env : Deployment) (p : Pool Stmt Role Outcome World) : Prop :=
  ∀ (i : ℕ) (j : Uuid) (β : Type) (st : Stmt β) (k : β → Prog Stmt Role Outcome Outcome),
    p.threads[i]? = some ⟨.worker j, .step st k⟩ → WorkerNeeds env j st p.shared

/-- A finished worker has ended well, or with a failure of the database or of the codec. -/
def WorkersEndWell (p : Pool Stmt Role Outcome World) : Prop :=
  ∀ (i : ℕ) (j : Uuid) (r : Except ApiError Unit),
    p.threads[i]? = some ⟨.worker j, .pure (.finished r)⟩ → ∀ e, r = .error e → WorkerError e

theorem Inv.ownershipClosed {w : World} (h : Inv env w) : OwnershipClosed w where
  events := h.eventOwned
  jobs := by
    intro t ht
    obtain ⟨v, hv, hid, -⟩ := h.targetJob t ht
    exact ⟨v, hv, hid⟩
  connections := by
    intro t ht v hv hid
    obtain ⟨v', hv', hid', -, -, -, howned⟩ := h.targetJob t ht
    rw [h.eq_of_jobId hv hv' (hid.trans hid'.symm)]
    exact howned

/-- Ownership closure, in every state that the service reaches. -/
theorem ownership_closed (h : Reachable env p) :
    OwnershipClosed p.shared ∧ WorkersServed env p ∧ WorkersEndWell p := by
  have hok := h.poolOk
  refine ⟨Inv.ownershipClosed hok.inv, ?_, ?_⟩
  · intro i j β st k ht
    exact hok.needs ht
  · intro i j r ht
    exact hok.post ht

/-- A run in which the worker is about to publish. -/
theorem ownership_closed_sample :
    ∃ p, idleService.run (service Sample.deployment)
        (Sample.connect ++ Sample.enqueue ++ Sample.work.take 7) = some p ∧
      (p.shared.targets.map fun v => (v.row.status, v.row.attempt)) = [("running", 1)] ∧
      OwnershipClosed p.shared ∧ WorkersServed Sample.deployment p ∧ WorkersEndWell p := by
  have hrun : ((idleService.run (service Sample.deployment)
      (Sample.connect ++ Sample.enqueue ++ Sample.work.take 7)).map fun p =>
        p.shared.targets.map fun v => (v.row.status, v.row.attempt)) =
          some [("running", 1)] := by decide +kernel
  obtain ⟨p, hp, hrow⟩ := Option.map_eq_some_iff.mp hrun
  exact ⟨p, hp, hrow, ownership_closed ⟨_, hp⟩⟩

end Service
