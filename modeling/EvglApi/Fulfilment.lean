/-
# Accepted jobs are carried through

When no program can take another turn although the database does not fail, every job has come to
its end: its worker has returned well and told the whole script.  Without new clients it comes to
that in whatever order the programs take their turns.

* `legible_of_reachable`: a stored event reads as one if what is written can be read.
* `Fulfilled` is what becomes of a job; `accepted_jobs_complete` says it of all jobs, and of those
  that requests were answered with.
-/
import EvglApi.Announcements
import EvglApi.ReplyBelongs
import EvglApi.Scripts

open Concurrency Mvcc

namespace Service

variable {env : Deployment} {p : Pool Stmt Role Outcome World} {ls : List (Label Draw Request)}
  {v : Version JobRow}

/-! ## Events -/

/-- What is written of an event can be read. -/
def Deployment.ReadsBack (env : Deployment) : Prop :=
  ∀ event document, env.eventToValue event = .ok document →
    (env.eventFromValue document).isOk = true

/-- What is stored of an event was written of one. -/
theorem exists_event_of_row (h : Reachable env p) {row : EventRow} (hrow : row ∈ p.shared.events) :
    ∃ event, env.eventToValue event = .ok row.document := by
  have hstored : row.entry ∈ p.shared.stored := Multiset.mem_coe.mpr (List.mem_map_of_mem hrow)
  have hentry : ∀ {event : EventDraft}, event.entry env = row.entry →
      ∃ event, env.eventToValue event = .ok row.document := fun {event} heq =>
    ⟨event, (Prod.mk.inj (Prod.mk.inj heq).2).2⟩
  rw [← announced_add_owed h] at hstored
  rcases Multiset.mem_add.mp hstored with hannounced | howed
  · obtain ⟨event, -, heq⟩ := List.mem_map.mp (Multiset.mem_coe.mp hannounced)
    exact hentry heq
  · obtain ⟨t, -, ht⟩ := exists_of_mem_held howed
    obtain ⟨event, k, hprog⟩ : AboutToAnnounce t.prog := by
      by_contra hnot
      rw [owed_eq_zero hnot] at ht
      exact Multiset.notMem_zero _ ht
    rw [hprog] at ht
    exact hentry (Multiset.mem_singleton.mp ht).symm

theorem legible_of_reachable (hreads : env.ReadsBack) (h : Reachable env p) :
    Legible env p.shared := by
  intro row hrow
  obtain ⟨event, hevent⟩ := exists_event_of_row h hrow
  exact hreads event row.document hevent

/-! ## Jobs -/

/-- The job has come to its end. -/
structure Fulfilled (env : Deployment) (p : Pool Stmt Role Outcome World) (v : Version JobRow) :
    Prop where
  committed : v.committed = true
  finished : FinishedWell p v.row.id
  terminal : Terminal v.row.status
  script : Script env v.row.id v.row.eventId (claimed p.shared v.row.id)
    (finalStatus v.row.status) (p.shared.channel v.row.id)

/-- When no program can go on although nothing fails, all have ended. -/
theorem ended_of_rest (h : Reachable env p)
    (hrest : ∀ i x, x.kind env = true → p.act (service env) (.turn i x) = none) : p.Ended := by
  by_contra hnot
  obtain ⟨i, hturn⟩ := (locking env).progress (locksHeld_of_reachable h) hnot
  obtain ⟨id, hid⟩ := Infinite.exists_notMem_finset p.shared.drawn.toFinset
  obtain ⟨p', hact⟩ := hturn { uuid := id, publication := .error (.other "") }
    ⟨rfl, fun hmem => hid (List.mem_toFinset.mpr hmem)⟩
  rw [hrest i _ rfl] at hact
  cases hact

/-- A job whose transaction has ended is committed. -/
theorem committed_of_ended (h : Reachable env p) (hended : p.Ended) (hv : v ∈ p.shared.jobs) :
    v.committed = true := by
  by_contra hnot
  have hpending : v.row ∈ p.shared.jobs.pending v.xmin := by
    refine Table.mem_pending.mpr ?_
    rw [← Bool.eq_false_iff.mpr hnot]
    exact hv
  obtain ⟨t, ht, hholds⟩ := (locksHeld_of_reachable h).held v.xmin fun hunlocked => by
    rw [hunlocked.jobs] at hpending
    cases hpending
  obtain ⟨a, ha⟩ := hended t ht
  rw [ha] at hholds
  cases hholds with
  | pure h => exact h

/-- The worker of a job, if all programs have ended and the workers met with nothing unkind. -/
theorem finishedWell_of_ended (hok : (narration env True).discipline.PoolOk p)
    (h : Reachable env p) (hended : p.Ended) (hv : v ∈ p.shared.jobs) :
    FinishedWell p v.row.id := by
  obtain ⟨houtcomes, hmanned⟩ := outcomes_of_reachable h
  have hinv : Inv env p.shared := h.poolOk.inv
  -- the request that stored the job has started its worker
  obtain ⟨targets, hasked, -⟩ := hinv.asked v hv
  obtain ⟨⟨r, prog⟩, ht, rfl⟩ := hmanned (.request v.xmin (.crossPost v.row.userId v.row.eventId
    (some v.row.idempotencyKey) targets)) hasked
  obtain ⟨a, rfl⟩ := hended _ ht
  obtain ⟨i, hi⟩ := List.getElem?_of_mem ht
  have hworker : v.row.id ∈ p.shared.workers := left_of_ended houtcomes hi v hv rfl
  obtain ⟨⟨r, prog⟩, ht, rfl⟩ := hmanned (.worker v.row.id) hworker
  obtain ⟨a, rfl⟩ := hended _ ht
  obtain ⟨i, hi⟩ := List.getElem?_of_mem ht
  have hpost : Narrates True env (.worker v.row.id) a p.shared := (hok.post hi).2
  cases a with
  | reply r => exact hpost.elim
  | finished r =>
      cases r with
      | ok u => exact ht
      | error e =>
          obtain ⟨job, -, hlapsed⟩ := hpost
          exact absurd trivial hlapsed.1

/-- **Accepted jobs are carried through.**  In a run in which the workers met with no failure of
the database and no publication that cannot be stored, when no program can take another turn on
such an input, all programs have ended and every job is fulfilled; and the job of every good reply
to a cross-post request is among them. -/
theorem accepted_jobs_complete (hreads : env.ReadsBack)
    (hrun : idleService.run (service env) ls = some p)
    (hkind : idleService.meets (service env) (kindly env) ls = true)
    (hrest : ∀ i x, x.kind env = true → p.act (service env) (.turn i x) = none) :
    p.Ended ∧ (∀ v ∈ p.shared.jobs, Fulfilled env p v) ∧
      ∀ user event key targets job, Replied p user event key targets job →
        ∃ v ∈ p.shared.jobs, v.row.toJobFixed = job.toJobFixed ∧ Fulfilled env p v := by
  have h : Reachable env p := ⟨ls, hrun⟩
  have hinv : Inv env p.shared := h.poolOk.inv
  have hended : p.Ended := ended_of_rest h hrest
  have hok : (narration env True).discipline.PoolOk p := (narration_of_run ⟨[], rfl⟩
    narration_idle (fun _ => ⟨hkind, fun q hq => legible_of_reachable hreads hq⟩) hrun).2
  have hjobs : ∀ v ∈ p.shared.jobs, Fulfilled env p v := by
    intro v hv
    have hfinished := finishedWell_of_ended hok h hended hv
    obtain ⟨u, hu, hid, -, hscript⟩ := scripted_of_finishedWell h hfinished
    obtain rfl := hinv.eq_of_jobId hu hv hid
    obtain ⟨i, hi⟩ := List.getElem?_of_mem hfinished
    obtain ⟨w, hw, hid', -, htally⟩ := ((left_of_ended (outcomes_of_reachable h).1 hi).1 rfl).job
    obtain rfl := hinv.eq_of_jobId hw hv hid'
    exact ⟨committed_of_ended h hended hv, hfinished, htally.terminal, hscript⟩
  refine ⟨hended, hjobs, ?_⟩
  rintro user event key targets job ⟨i, n, status, ht⟩
  have hreply : JobReply (.crossPost user event key targets) (.ok (.job status job)) p.shared :=
    h.poolOk.post ht
  obtain ⟨⟨m, v, hv, -, -, hfixed⟩, -, -⟩ := hreply _ _ _ _ _ _ rfl rfl
  exact ⟨v, hv, hfixed, hjobs v hv⟩

namespace Sample

/-- A deployment that writes only the events it can read. -/
def strict : Deployment :=
  { deployment with
    eventToValue := fun event => (eventToValue event).bind fun document =>
      (eventFromValue document).map fun _ => document }

theorem readsBack_strict : strict.ReadsBack := by
  intro event document hwritten
  change ((eventToValue event).bind fun written =>
    (eventFromValue written).map fun _ => written) = .ok document at hwritten
  cases hvalue : eventToValue event with
  | error e =>
      rw [hvalue] at hwritten
      cases hwritten
  | ok written =>
      rw [hvalue] at hwritten
      change (eventFromValue written).map (fun _ => written) = .ok document at hwritten
      cases hread : eventFromValue written with
      | error e =>
          rw [hread] at hwritten
          cases hwritten
      | ok read =>
          rw [hread] at hwritten
          obtain rfl := Except.ok.inj hwritten
          show (eventFromValue written).isOk = true
          rw [hread]
          rfl

/-- Whether the program has ended. -/
def hasEnded (t : Thread Stmt Role Outcome) : Bool :=
  match t.prog with
  | .pure _ => true
  | _ => false

theorem ended_of_all (h : p.threads.all hasEnded = true) : p.Ended := by
  rintro ⟨r, prog⟩ ht
  have hpure : hasEnded ⟨r, prog⟩ = true := List.all_eq_true.mp h _ ht
  cases prog with
  | pure a => exact ⟨a, rfl⟩
  | step st k => cases hpure
  | fork r' child k => cases hpure

end Sample

/-- A job with a retry. -/
theorem accepted_jobs_complete_sample :
    ∃ p, idleService.run (service Sample.strict)
        (Sample.connect ++ Sample.enqueue ++ Sample.work) = some p ∧
      p.shared.jobs.map (fun v => (v.row.id, v.row.status)) = [(30, "published")] ∧
      p.Ended ∧ (∀ v ∈ p.shared.jobs, Fulfilled Sample.strict p v) ∧
      ∀ user event key targets job, Replied p user event key targets job →
        ∃ v ∈ p.shared.jobs, v.row.toJobFixed = job.toJobFixed ∧ Fulfilled Sample.strict p v := by
  have hrun : ((idleService.run (service Sample.strict)
      (Sample.connect ++ Sample.enqueue ++ Sample.work)).map fun p =>
        (p.shared.jobs.map (fun v => (v.row.id, v.row.status)), p.threads.all Sample.hasEnded)) =
          some ([(30, "published")], true) := by decide +kernel
  obtain ⟨p, hp, hseen⟩ := Option.map_eq_some_iff.mp hrun
  obtain ⟨hjobs, hended⟩ := Prod.mk.inj hseen
  refine ⟨p, hp, hjobs, accepted_jobs_complete Sample.readsBack_strict hp (by decide +kernel) ?_⟩
  exact fun i x _ => (Sample.ended_of_all hended).turn i x

end Service
