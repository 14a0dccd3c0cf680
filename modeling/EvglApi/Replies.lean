/-
# What the replies show

`jobs::get` reads the row of the job and the rows of its targets with two statements, while a
worker may be at work on them.

* `spans_getJob` says at which two moments a reply is read.
* `job_view_consistent`: what a reply shows was so, and with a terminal status it is final.
* `job_views_advance`: a request that arrives after a reply shows nothing older.
-/
import EvglApi.Advances
import EvglApi.Scripts

open Concurrency Mvcc

namespace Service

variable {env : Deployment} {p p' : Pool Stmt Role Outcome World} {w w' : World} {j user : Uuid}
  {i m n : ℕ} {a : Outcome} {r : Except ApiError Response} {job job' : JobRow}
  {views views' : List TargetView}

/-! ## The targets of a job -/

/-- `a` shows the target of `b` as it was earlier. -/
structure TargetView.Before (a b : TargetView) : Prop where
  id : a.id = b.id
  connectionId : a.connectionId = b.connectionId
  provider : a.provider = b.provider
  options : a.options = b.options
  attempt : a.attempt ≤ b.attempt

/-- The columns that a target takes from an element of the request. -/
def TargetView.columns (t : TargetView) : Uuid × String × Value :=
  (t.connectionId, t.provider, t.options)

/-- The targets of a committed job are all committed. -/
theorem mem_claimed_fixed (hinv : Inv env w) {v : Version JobRow} (hv : v ∈ w.jobs)
    (hc : v.committed = true) {f : TargetFixed} :
    f ∈ (claimed w v.row.id).map TargetRow.toTargetFixed ↔ f ∈ w.targetsOf v.row.id := by
  rw [mem_targetsOf, List.mem_map]
  constructor
  · rintro ⟨t, ht, rfl⟩
    obtain ⟨hjob, u, hu, -, rfl⟩ := mem_claimed.mp ht
    exact ⟨u, hu, hjob, rfl⟩
  · rintro ⟨u, hu, hjob, rfl⟩
    have hcommitted := hinv.target_committed hu hv hjob.symm hc
    exact ⟨u.row, mem_claimed.mpr ⟨hjob, u, hu, hcommitted, rfl⟩, rfl⟩

theorem claimed_perm (hinv : Inv env w) {v : Version JobRow} (hv : v ∈ w.jobs)
    (hc : v.committed = true) :
    ((claimed w v.row.id).map TargetRow.toTargetFixed).Perm (w.targetsOf v.row.id) := by
  have hids : ((claimed w v.row.id).map TargetRow.toTargetFixed).Nodup := by
    refine List.Nodup.of_map TargetFixed.id ?_
    rw [List.map_map]
    exact nodup_claimed hinv _
  have hids' : (w.targetsOf v.row.id).Nodup := by
    refine List.Nodup.filter _ (List.Nodup.of_map TargetFixed.id ?_)
    rw [List.map_map]
    exact hinv.targetIds
  exact (List.perm_ext_iff_of_nodup hids hids').mpr fun f => mem_claimed_fixed hinv hv hc

namespace Advances

/-- Later, the targets of a committed job are the same ones, after the same number of attempts
or more. -/
theorem claimed_before (h : Advances env w w') (hinv : Inv env w) {v : Version JobRow}
    (hv : v ∈ w.jobs) (hc : v.committed = true) :
    List.Forall₂ TargetView.Before ((claimed w v.row.id).map Jobs.view)
      ((claimed w' v.row.id).map Jobs.view) := by
  obtain ⟨v', hv', hc', hfixed, -⟩ := h.evolves.jobs v hv hc
  have hid : v'.row.id = v.row.id := congrArg JobFixed.id hfixed
  have hmap : (claimed w v.row.id).map TargetRow.toTargetFixed =
      (claimed w' v.row.id).map TargetRow.toTargetFixed := by
    refine eq_of_sorted TargetFixed.id (List.pairwise_map.mpr (sorted_claimed hinv _))
      (List.pairwise_map.mpr (sorted_claimed h.inv _)) fun f => ?_
    rw [mem_claimed_fixed hinv hv hc, ← h.enlisted v hv hc, ← hid, mem_claimed_fixed h.inv hv' hc']
  have hsame : List.Forall₂ (fun t t' => t.toTargetFixed = t'.toTargetFixed)
      (claimed w v.row.id) (claimed w' v.row.id) := by
    have heq := List.forall₂_eq_eq_eq (α := TargetFixed) ▸ hmap
    rw [List.forall₂_map_left_iff, List.forall₂_map_right_iff] at heq
    exact heq
  have hmem : List.Forall₂ (fun t' t => t' ∈ claimed w' v.row.id ∧ t ∈ claimed w v.row.id ∧
      t.toTargetFixed = t'.toTargetFixed) (claimed w' v.row.id) (claimed w v.row.id) :=
    (List.forall₂_and_left _ _).mpr
      ⟨fun _ => id, ((List.forall₂_and_left _ _).mpr ⟨fun _ => id, hsame⟩).flip⟩
  rw [List.forall₂_map_left_iff, List.forall₂_map_right_iff]
  refine hmem.flip.imp fun t t' hboth => ?_
  obtain ⟨ht', ht, hfixed⟩ := hboth
  obtain ⟨-, u', hu', -, rfl⟩ := mem_claimed.mp ht'
  obtain ⟨-, u, hu, hcommitted, rfl⟩ := mem_claimed.mp ht
  obtain ⟨u'', hu'', -, hid'', hattempt, -⟩ := h.evolves.targets u hu hcommitted
  obtain rfl := h.inv.eq_of_targetId hu'' hu' (hid''.trans (congrArg TargetFixed.id hfixed))
  exact ⟨congrArg TargetFixed.id hfixed, congrArg TargetFixed.connectionId hfixed,
    congrArg TargetFixed.provider hfixed, congrArg TargetFixed.options hfixed, hattempt⟩

/-- The targets of a job that is over stay. -/
theorem claimed_eq (h : Advances env w w') (hinv : Inv env w)
    (hfinished : Effect.finished j ∈ w.trace) : claimed w' j = claimed w j := by
  refine eq_of_sorted (fun t => t.id) (sorted_claimed h.inv j) (sorted_claimed hinv j) fun t => ?_
  rw [mem_claimed, mem_claimed]
  refine and_congr_right fun hjob => exists_congr fun v => ?_
  constructor
  · rintro ⟨hv, hc, rfl⟩
    exact ⟨(h.rests j hfinished v hjob).mp hv, hc, rfl⟩
  · rintro ⟨hv, hc, rfl⟩
    exact ⟨(h.rests j hfinished v hjob).mpr hv, hc, rfl⟩

end Advances

/-! ## `jobs::get` -/

/-- A reply to `jobs::get` is read at two moments. -/
theorem spans_getJob (h : Spans (service env) (Advances env) (respond env n (.getJob user j)) w a
    w') :
    (∃ text, a = .reply (.error (.ofDb (.failure text)))) ∨
      (∃ t, Advances env w t ∧
        (∀ v ∈ t.jobs, v.committed = true → ¬ (v.row.id = j ∧ v.row.userId = user)) ∧
          a = .reply (.error (.notFound "job not found"))) ∨
      ∃ t, Advances env w t ∧ Advances env t w' ∧ ∃ v ∈ t.jobs, v.committed = true ∧
        v.row.id = j ∧ v.row.userId = user ∧
          a = .reply (.ok (.jobView v.row ((claimed w' j).map Jobs.view))) := by
  obtain ⟨t, x, found, t', ht, hexec, hrest⟩ := Spans.step_inv h
  have hexec : Stmt.exec (.query (.selectJob j user)) x t = some (found, t') := hexec
  obtain ⟨text, -, rfl, rfl⟩ | ⟨-, hexec⟩ := Stmt.exec_query hexec
  · obtain ⟨rfl, -⟩ := Spans.pure_inv hrest
    exact Or.inl ⟨text, rfl⟩
  · obtain ⟨rfl, rfl⟩ := Prod.mk.inj (Option.some.inj hexec)
    cases hfind : (t.jobs.rows none).find? fun row => row.id = j ∧ row.userId = user with
    | none =>
        rw [hfind] at hrest
        obtain ⟨rfl, -⟩ := Spans.pure_inv hrest
        refine Or.inr (Or.inl ⟨t, ht, fun v hv hc hown => ?_, rfl⟩)
        have hrow : v.row ∈ t.jobs.rows none := Table.mem_rows_none.mpr ⟨v, hv, hc, rfl⟩
        exact List.find?_eq_none.mp hfind v.row hrow (decide_eq_true hown)
    | some job =>
        rw [hfind] at hrest
        obtain ⟨s, x', rows, s', hs, hexec', hrest'⟩ := Spans.step_inv hrest
        have hexec' : Stmt.exec (.query (.selectTargets j)) x' s = some (rows, s') := hexec'
        obtain ⟨text, -, rfl, rfl⟩ | ⟨-, hexec'⟩ := Stmt.exec_query hexec'
        · obtain ⟨rfl, -⟩ := Spans.pure_inv hrest'
          exact Or.inl ⟨text, rfl⟩
        · obtain ⟨rfl, rfl⟩ := Prod.mk.inj (Option.some.inj hexec')
          obtain ⟨rfl, rfl⟩ := Spans.pure_inv hrest'
          obtain ⟨v, hv, hc, rfl⟩ := Table.mem_rows_none.mp (List.mem_of_find?_eq_some hfind)
          have hown := List.find?_some hfind
          obtain ⟨hid, huser⟩ := of_decide_eq_true hown
          exact Or.inr (Or.inr ⟨t, ht, hs, v, hv, hc, hid, huser, rfl⟩)

/-- A reply shows the job `v` and its targets: those that were asked for when the job was stored,
as they were at some time, and as they are if the status is terminal. -/
structure ShowsJob (env : Deployment) (w : World) (v : Version JobRow) (job : JobRow)
    (views : List TargetView) : Prop where
  stored : v ∈ w.jobs
  committed : v.committed = true
  fixed : v.row.toJobFixed = job.toJobFixed
  asked : ∃ targets, w.Asked v.xmin job.toJobFixed targets ∧
    (views.map TargetView.columns).Perm (targets.map (PublishTarget.columns env))
  targets : List.Forall₂ TargetView.Before views ((claimed w v.row.id).map Jobs.view)
  final : Terminal job.status →
    Effect.finished v.row.id ∈ w.trace ∧ v.row = job ∧ views = (claimed w v.row.id).map Jobs.view

/-- Targets that are the same ones have the same columns. -/
theorem map_columns_of_before (h : List.Forall₂ TargetView.Before views views') :
    views.map TargetView.columns = views'.map TargetView.columns := by
  induction h with
  | nil => rfl
  | cons h _ ih =>
      rw [List.map_cons, List.map_cons, ih, TargetView.columns, TargetView.columns,
        h.connectionId, h.provider, h.options]

/-- What a reply shows, seen from any later store. -/
theorem showsJob_of_spans (hspans : Spans (service env) (Advances env)
    (respond env n (.getJob user j)) w (.reply (.ok (.jobView job views))) w')
    {w'' : World} (hlater : Advances env w' w'') :
    job.id = j ∧ job.userId = user ∧ ∃ v, ShowsJob env w'' v job views := by
  obtain ⟨text, ha⟩ | ⟨t, -, -, ha⟩ | ⟨t, ht, hw', v, hv, hc, rfl, huser, ha⟩ :=
    spans_getJob hspans
  · cases ha
  · cases ha
  · obtain ⟨rfl, rfl⟩ := Response.jobView.inj (Except.ok.inj (Outcome.reply.inj ha))
    have hadvances : Advances env t w'' := hw'.trans hlater
    obtain ⟨v₁, hv₁, hc₁, hfixed₁, -⟩ := hw'.evolves.jobs v hv hc
    obtain ⟨v₂, hv₂, hc₂, hfixed₂, hrow₂⟩ := hadvances.evolves.jobs v hv hc
    have hid₁ : v₁.row.id = v.row.id := congrArg JobFixed.id hfixed₁
    have hid₂ : v₂.row.id = v.row.id := congrArg JobFixed.id hfixed₂
    have hbefore := hlater.claimed_before hw'.inv hv₁ hc₁
    rw [hid₁] at hbefore
    refine ⟨rfl, huser, v₂, hv₂, hc₂, hfixed₂, ?_, ?_, fun hterminal => ?_⟩
    · -- the targets of the job are those that its request has asked for
      obtain ⟨targets, hasked, hperm⟩ := hlater.inv.asked v₂ hv₂
      rw [hfixed₂] at hasked
      refine ⟨targets, hasked, ?_⟩
      rw [map_columns_of_before hbefore, List.map_map]
      refine List.Perm.trans ?_ (hperm hc₂)
      have hclaimed := (claimed_perm hlater.inv hv₂ hc₂).map TargetFixed.columns
      rw [List.map_map, hid₂] at hclaimed
      rw [hid₂]
      exact hclaimed
    · rwa [hid₂]
    · have hfinished := ht.definite v hv hterminal
      refine ⟨hid₂ ▸ hadvances.evolves.trace.subset hfinished, hrow₂ hfinished, ?_⟩
      rw [hid₂, hlater.claimed_eq hw'.inv (hw'.evolves.trace.subset hfinished)]

/-- **Replies about jobs are consistent**, although the job and its targets are read one after the
other while the worker goes on: a reply shows a stored job of the user with the targets that were
asked for, each as it was at some time, and with a terminal status all of it is final. -/
theorem job_view_consistent (h : Reachable env p)
    (ht : ⟨.request n (.getJob user j), .pure (.reply (.ok (.jobView job views)))⟩ ∈ p.threads) :
    job.id = j ∧ job.userId = user ∧ ∃ v, ShowsJob env p.shared v job views := by
  obtain ⟨i, hi⟩ := List.getElem?_of_mem ht
  obtain ⟨u, hspans, hu⟩ := spans_of_answered ⟨[], rfl⟩ h (Nat.zero_le i) hi
  exact showsJob_of_spans hspans hu

namespace Sample

/-- The status and the targets that a thread has replied to user 1 about job 30. -/
def shown (t : Thread Stmt Role Outcome) : Option (String × List (String × ℕ)) :=
  match t with
  | ⟨.request _ (.getJob user j), .pure (.reply (.ok (.jobView job views)))⟩ =>
      if user = 1 ∧ j = 30 then some (job.status, views.map fun v => (v.status, v.attempt))
      else none
  | _ => none

theorem exists_of_shown {t : Thread Stmt Role Outcome} {status : String}
    {rows : List (String × ℕ)} (h : shown t = some (status, rows)) :
    ∃ n job views, t = ⟨.request n (.getJob 1 30), .pure (.reply (.ok (.jobView job views)))⟩ ∧
      job.status = status ∧ views.map (fun v => (v.status, v.attempt)) = rows := by
  unfold shown at h
  split at h
  · next n user j job views =>
      split at h
      · next hown =>
          obtain ⟨rfl, rfl⟩ := hown
          obtain ⟨rfl, rfl⟩ := Prod.mk.inj (Option.some.inj h)
          exact ⟨n, job, views, rfl, rfl, rfl⟩
      · cases h
  · cases h

/-- The job is read before the worker is at work, and its targets are read after. -/
def readAround : List (Label Draw Request) :=
  connect ++ enqueue ++ [.arrive (.getJob 1 30), .turn 5 {}] ++ work ++ [.turn 5 {}]

/-- A request for the job, which is the program at position `i`. -/
def read (i : ℕ) : List (Label Draw Request) := [.arrive (.getJob 1 30), .turn i {}, .turn i {}]

end Sample

/-- A reply that shows a queued job with a published target. -/
theorem job_view_consistent_sample :
    ∃ p v job views, idleService.run (service Sample.deployment) Sample.readAround = some p ∧
      job.status = "queued" ∧ views.map (fun v => (v.status, v.attempt)) = [("published", 2)] ∧
        job.id = 30 ∧ job.userId = 1 ∧ ShowsJob Sample.deployment p.shared v job views := by
  have hrun : ((idleService.run (service Sample.deployment) Sample.readAround).map fun p =>
      p.threads[5]?.bind Sample.shown) = some (some ("queued", [("published", 2)])) := by
    decide +kernel
  obtain ⟨p, hp, hshown⟩ := Option.map_eq_some_iff.mp hrun
  obtain ⟨t, ht, hshown⟩ := Option.bind_eq_some_iff.mp hshown
  obtain ⟨n, job, views, rfl, hstatus, hrows⟩ := Sample.exists_of_shown hshown
  obtain ⟨hid, huser, v, hv⟩ := job_view_consistent ⟨_, hp⟩ (List.mem_of_getElem? ht)
  exact ⟨p, v, job, views, hp, hstatus, hrows, hid, huser, hv⟩

/-- **Replies about jobs advance.**  A request that arrives after a reply about the job is not told
that there is none, and does not show less; after a terminal status it shows the same. -/
theorem job_views_advance (h : Reachable env p)
    (ht : ⟨.request m (.getJob user j), .pure (.reply (.ok (.jobView job views)))⟩ ∈ p.threads)
    (hreach : Pool.Reaches (service env) p p') (hi : p.threads.length ≤ i)
    (ht' : p'.threads[i]? = some ⟨.request n (.getJob user j), .pure (.reply r)⟩) :
    (∃ text, r = .error (.ofDb (.failure text))) ∨
      ∃ job' views', r = .ok (.jobView job' views') ∧ job'.toJobFixed = job.toJobFixed ∧
        List.Forall₂ TargetView.Before views views' ∧
          (Terminal job.status → job' = job ∧ views' = views) := by
  obtain ⟨k, hk⟩ := List.getElem?_of_mem ht
  obtain ⟨u, hspans, hu⟩ := spans_of_answered ⟨[], rfl⟩ h (Nat.zero_le k) hk
  obtain ⟨u', hspans', -⟩ := spans_of_answered h hreach hi ht'
  obtain ⟨text, ha⟩ | ⟨t, hbefore, hnone, -⟩ | ⟨t, hbefore, hu', v', hv', hc', hid', -, ha⟩ :=
    spans_getJob hspans'
  · exact Or.inl ⟨text, Outcome.reply.inj ha⟩
  · -- the job that was shown is still stored
    obtain ⟨hid, huser, v, hv⟩ := showsJob_of_spans hspans (hu.trans hbefore)
    refine absurd ⟨?_, ?_⟩ (hnone v hv.stored hv.committed)
    · exact (congrArg JobFixed.id hv.fixed).trans hid
    · exact (congrArg JobFixed.userId hv.fixed).trans huser
  · -- what the earlier reply shows, seen from the two moments of the later one
    obtain ⟨hid, -, v, hv⟩ := showsJob_of_spans hspans (hu.trans hbefore)
    obtain ⟨-, -, v'', hv''⟩ := showsJob_of_spans hspans ((hu.trans hbefore).trans hu')
    have hrow : v.row.id = j := (congrArg JobFixed.id hv.fixed).trans hid
    have hrow'' : v''.row.id = j := (congrArg JobFixed.id hv''.fixed).trans hid
    obtain rfl := hbefore.inv.eq_of_jobId hv.stored hv' (hrow.trans hid'.symm)
    refine Or.inr ⟨_, _, Outcome.reply.inj ha, hv.fixed, ?_, fun hterminal => ⟨?_, ?_⟩⟩
    · exact hrow'' ▸ hv''.targets
    · exact (hv.final hterminal).2.1
    · rw [(hv''.final hterminal).2.2, hrow'']

/-- A reply after the worker has finished, and a later one. -/
theorem job_views_advance_sample :
    ∃ p p' job views, ∃ r : Except ApiError Response, idleService.run (service Sample.deployment)
        (Sample.connect ++ Sample.enqueue ++ Sample.work ++ Sample.read 5) = some p ∧
      p.run (service Sample.deployment) (Sample.read 6) = some p' ∧
      JobRow.status job = "published" ∧
      ((∃ text, r = .error (.ofDb (.failure text))) ∨
        ∃ job' views', r = .ok (.jobView job' views') ∧ job'.toJobFixed = job.toJobFixed ∧
          List.Forall₂ TargetView.Before views views' ∧
            (Terminal job.status → job' = job ∧ views' = views)) := by
  have hrun : ((idleService.run (service Sample.deployment)
      (Sample.connect ++ Sample.enqueue ++ Sample.work ++ Sample.read 5)).bind fun p =>
        (p.run (service Sample.deployment) (Sample.read 6)).map fun p' =>
          decide (p.threads.length = 6 ∧
            p.threads[5]?.bind Sample.shown = some ("published", [("published", 2)]) ∧
              p'.threads[6]?.bind Sample.shown = some ("published", [("published", 2)]))) =
                some true := by decide +kernel
  obtain ⟨p, hp, hrest⟩ := Option.bind_eq_some_iff.mp hrun
  obtain ⟨p', hp', hseen⟩ := Option.map_eq_some_iff.mp hrest
  obtain ⟨hlen, hshown, hshown'⟩ := of_decide_eq_true hseen
  obtain ⟨t, ht, hshown⟩ := Option.bind_eq_some_iff.mp hshown
  obtain ⟨m, job, views, rfl, hstatus, -⟩ := Sample.exists_of_shown hshown
  obtain ⟨t', ht', hshown'⟩ := Option.bind_eq_some_iff.mp hshown'
  obtain ⟨n, job', views', rfl, -, -⟩ := Sample.exists_of_shown hshown'
  exact ⟨p, p', job, views, _, hp, hp', hstatus,
    job_views_advance ⟨_, hp⟩ (List.mem_of_getElem? ht) ⟨_, hp'⟩ hlen.le ht'⟩

end Service
