/-
# The job that answers a cross-post request

The job in the reply was stored by a request of the same user with the same key.  It
is the job that was asked for exactly if that request named the same event and, up
to their order, the same targets: the look-up of the key compares neither.
-/
import EvglApi.OwnershipClosure

open Concurrency Mvcc

namespace Service

variable {env : Deployment} {p : Pool Stmt Role Outcome World}

/-- The job is for this event, and its targets are these, one for each element. -/
def JobIsFor (env : Deployment) (w : World) (job : JobRow) (eventId : Uuid)
    (targets : List PublishTarget) : Prop :=
  job.eventId = eventId ∧ ((w.targetsOf job.id).map TargetFixed.columns).Perm
    (targets.map (PublishTarget.columns env))

/-- Request `m`, which stored the job, was for this event and these targets. -/
def StoredFor (env : Deployment) (w : World) (m : ℕ) (eventId : Uuid)
    (targets : List PublishTarget) : Prop :=
  ∃ user key targets', w.requests[m]? = some (.crossPost user eventId key targets') ∧
    (targets'.map (PublishTarget.columns env)).Perm (targets.map (PublishTarget.columns env))

/-- A reply to a cross-post request with a job. -/
def Replied (p : Pool Stmt Role Outcome World) (user eventId : Uuid) (key : Option String)
    (targets : List PublishTarget) (job : JobRow) : Prop :=
  ∃ (i n status : ℕ), p.threads[i]? = some
    ⟨.request n (.crossPost user eventId key targets), .pure (.reply (.ok (.job status job)))⟩

/-- The answer belongs to the request exactly if the request that stored the job, which
had the same user and key, was for the same event and targets. -/
theorem reply_belongs_iff {user eventId : Uuid} {key : Option String}
    {targets : List PublishTarget} {job : JobRow} (h : Reachable env p)
    (hreply : Replied p user eventId key targets job) :
    ∃ m event targets', p.shared.HasJob m job.toJobFixed ∧
      p.shared.requests[m]? = some (.crossPost user event key targets') ∧
      (JobIsFor env p.shared job eventId targets ↔ StoredFor env p.shared m eventId targets) := by
  obtain ⟨i, n, status, ht⟩ := hreply
  have hok := h.poolOk
  have hinv : Inv env p.shared := hok.inv
  have hpost : JobReply (.crossPost user eventId key targets) (.ok (.job status job)) p.shared :=
    hok.post ht
  obtain ⟨⟨m, hjob⟩, rfl, rfl⟩ := hpost _ _ _ _ _ _ rfl rfl
  have hstored := hjob
  obtain ⟨v, hv, hc, rfl, heq⟩ := hstored
  obtain ⟨targets', hasked, hperm⟩ := hinv.asked v hv
  rw [heq] at hasked
  rw [congrArg JobFixed.id heq] at hperm
  refine ⟨v.xmin, job.eventId, targets', hjob, hasked, ?_⟩
  constructor
  · rintro ⟨rfl, hsame⟩
    exact ⟨_, _, targets', hasked, (hperm hc).symm.trans hsame⟩
  · rintro ⟨user', key', targets'', hrequest, hsame⟩
    obtain ⟨-, rfl, -, rfl⟩ := Request.crossPost.inj (Option.some.inj (hasked.symm.trans hrequest))
    exact ⟨rfl, (hperm hc).trans hsame⟩

namespace Sample

/-- A second cross-post request with the same key, for another event. -/
def reuse (eventId : Uuid) : List (Label Draw Request) :=
  post eventId :: List.replicate 4 (.turn 5 {})

/-- The event that a finished cross-post request named, and the one of the job it got. -/
def replies (p : Pool Stmt Role Outcome World) : List (Uuid × Uuid) :=
  p.threads.filterMap fun t =>
    match t with
    | ⟨.request _ (.crossPost _ eventId _ _), .pure (.reply (.ok (.job _ job)))⟩ =>
        some (eventId, job.eventId)
    | _ => none

/-- A listed reply is a reply. -/
theorem replied_of_mem_replies {p : Pool Stmt Role Outcome World} {asked got : Uuid}
    (h : (asked, got) ∈ replies p) :
    ∃ user key targets job, Replied p user asked key targets job ∧ job.eventId = got := by
  obtain ⟨t, ht, hsome⟩ := List.mem_filterMap.mp h
  obtain ⟨i, hi⟩ := List.getElem?_of_mem ht
  split at hsome
  · next n user eventId key targets status job =>
      obtain ⟨rfl, rfl⟩ := Prod.mk.inj (Option.some.inj hsome)
      exact ⟨user, key, targets, job, ⟨i, n, status, hi⟩, rfl⟩
  · cases hsome

end Sample

/-- The same request twice: the second reply is the first one's job. -/
theorem reply_belongs_iff_sample :
    ∃ p user key targets job, idleService.run (service Sample.deployment)
        (Sample.connect ++ Sample.enqueue ++ Sample.reuse 20) = some p ∧
      Sample.replies p = [(20, 20), (20, 20)] ∧
      ∃ m event targets', p.shared.HasJob m job.toJobFixed ∧
        p.shared.requests[m]? = some (.crossPost user event key targets') ∧
        (JobIsFor Sample.deployment p.shared job 20 targets ↔
          StoredFor Sample.deployment p.shared m 20 targets) := by
  have hrun : ((idleService.run (service Sample.deployment)
      (Sample.connect ++ Sample.enqueue ++ Sample.reuse 20)).map Sample.replies) =
        some [(20, 20), (20, 20)] := by decide +kernel
  obtain ⟨p, hp, hreplies⟩ := Option.map_eq_some_iff.mp hrun
  have hmem : (20, 20) ∈ Sample.replies p := hreplies ▸ List.mem_cons_self
  obtain ⟨user, key, targets, job, hreply, -⟩ := Sample.replied_of_mem_replies hmem
  exact ⟨p, user, key, targets, job, hp, hreplies, reply_belongs_iff ⟨_, hp⟩ hreply⟩

/-- A key that was used for one event is answered with that event's job when it comes
with another event. -/
theorem not_reply_belongs :
    ¬ ∀ (env : Deployment) (p : Pool Stmt Role Outcome World) (user eventId : Uuid)
        (key : Option String) (targets : List PublishTarget) (job : JobRow),
      Reachable env p → Replied p user eventId key targets job →
        JobIsFor env p.shared job eventId targets := by
  intro h
  have hrun : ((idleService.run (service Sample.deployment)
      (Sample.connect ++ Sample.enqueue ++ Sample.reuse 21)).map Sample.replies) =
        some [(20, 20), (21, 20)] := by decide +kernel
  obtain ⟨p, hp, hreplies⟩ := Option.map_eq_some_iff.mp hrun
  have hmem : (21, 20) ∈ Sample.replies p := hreplies ▸ List.mem_cons_of_mem _ List.mem_cons_self
  obtain ⟨user, key, targets, job, hreply, hevent⟩ := Sample.replied_of_mem_replies hmem
  obtain ⟨hsame, -⟩ := h Sample.deployment p user 21 key targets job ⟨_, hp⟩ hreply
  exact absurd (hevent.symm.trans hsame) (by decide)

end Service
