/-
# What a step of a worker does to its progress

A call that succeeds makes an answer due, the storing of an outcome takes a target off the
list, and the storing of the status concludes.
-/
import EvglApi.Outcomes

open Concurrency Mvcc

namespace Service

variable {env : Deployment} {calm : Prop} {w : World} {j t : Uuid}
  {due : Option (Uuid × PublicationStatus)} {rest : List Uuid} {status : PublicationStatus}

/-! ## Answers -/

/-- An effect that is no successful call reports nothing. -/
theorem reported_log {e : Effect} (he : ∀ call p, e ≠ .published call (.ok p)) :
    (w.log e).Reported j t status ↔ w.Reported j t status := by
  constructor
  · rintro ⟨call, fields, hmem, hrest⟩
    rcases List.mem_append.mp hmem with hmem | hmem
    · exact ⟨call, fields, hmem, hrest⟩
    · exact absurd (List.mem_singleton.mp hmem).symm (he call _)
  · rintro ⟨call, fields, hmem, hrest⟩
    exact ⟨call, fields, List.mem_append_left _ hmem, hrest⟩

theorem reported_logOutcome {i : Uuid} :
    (w.logOutcome i).Reported j t status ↔ w.Reported j t status := by
  constructor
  · rintro ⟨call, fields, hmem, hrest⟩
    rcases List.mem_append.mp hmem with hmem | hmem
    · exact ⟨call, fields, hmem, hrest⟩
    · obtain ⟨row, -, heq⟩ := List.mem_map.mp hmem
      cases heq
  · rintro ⟨call, fields, hmem, hrest⟩
    exact ⟨call, fields, List.mem_append_left _ hmem, hrest⟩

theorem reported_log_published {call : PublishCall} {p : Publication} :
    (w.log (.published call (.ok p))).Reported j t status ↔
      w.Reported j t status ∨
        call.target.jobId = j ∧ call.target.id = t ∧ p.status = status := by
  constructor
  · rintro ⟨call', fields, hmem, hjob, hid⟩
    rcases List.mem_append.mp hmem with hmem | hmem
    · exact Or.inl ⟨call', fields, hmem, hjob, hid⟩
    · obtain ⟨rfl, hp⟩ := Effect.published.inj (List.mem_singleton.mp hmem)
      obtain rfl := Except.ok.inj hp
      exact Or.inr ⟨hjob, hid, rfl⟩
  · rintro (⟨call', fields, hmem, hrest⟩ | ⟨hjob, hid, rfl⟩)
    · exact ⟨call', fields, List.mem_append_left _ hmem, hrest⟩
    · exact ⟨call, p.fields, List.mem_append_right _ (List.mem_singleton_self _), hjob, hid⟩

namespace Progress

/-- A failed call, and whatever else reports nothing. -/
theorem log (h : Progress calm j due rest w) {e : Effect}
    (he : ∀ call p, e ≠ .published call (.ok p)) : Progress calm j due rest (w.log e) := by
  refine ⟨fun v hv hjob => (h.rows v hv hjob).imp id (Or.imp id ?_), fun t s hreport => ?_,
    fun t s hdue => ?_, h.ahead, h.nodup, fun hcalm t s hreport => ?_⟩
  · rintro ⟨s, hreport⟩
    exact ⟨s, (reported_log he).mpr hreport⟩
  · exact h.stored t s ((reported_log he).mp hreport)
  · exact (reported_log he).mpr (h.answered t s hdue)
  · exact h.spared hcalm t s ((reported_log he).mp hreport)

/-- A successful call on the next target. -/
theorem answer {call : PublishCall} {p : Publication}
    (h : Progress calm j none (call.target.id :: rest) w) (hjob : call.target.jobId = j)
    (hspared : calm → p.status ≠ .queued ∧ p.status ≠ .running) :
    Progress calm j (some (call.target.id, p.status)) (call.target.id :: rest)
      (w.log (.published call (.ok p))) := by
  refine ⟨fun v hv hv' => (h.rows v hv hv').imp id (Or.imp id ?_), fun t s hreport => ?_,
    fun t s hdue => ?_, h.ahead, h.nodup, fun hcalm t s hreport => ?_⟩
  · rintro ⟨s, hreport⟩
    exact ⟨s, reported_log_published.mpr (Or.inl hreport)⟩
  · rcases reported_log_published.mp hreport with hreport | ⟨-, rfl, rfl⟩
    · exact Or.inr ((h.stored t s hreport).resolve_left nofun)
    · exact Or.inl rfl
  · obtain ⟨rfl, rfl⟩ := Prod.mk.inj (Option.some.inj hdue)
    exact reported_log_published.mpr (Or.inr ⟨hjob, rfl, rfl⟩)
  · rcases reported_log_published.mp hreport with hreport | ⟨-, -, rfl⟩
    · exact h.spared hcalm t s hreport
    · exact hspared hcalm

end Progress

/-! ## Rows of targets -/

/-- A target of a job with a worker after an update. -/
theorem exists_row_of_mem_updateTarget (hinv : Inv env w) (htaken : j ∈ w.workers)
    {g : TargetRow → TargetRow} (hg : ∀ r, (g r).toTargetFixed = r.toTargetFixed)
    {v : Version TargetRow} (hv : v ∈ (w.updateTarget t g).targets) (hjob : v.row.jobId = j) :
    ∃ u ∈ w.targets, u.row.toTargetFixed = v.row.toTargetFixed ∧
      v.row = if u.row.id = t then g u.row else u.row := by
  rw [targets_updateTarget] at hv
  obtain ⟨u, hu, -, -, hrow⟩ := Table.exists_of_mem_update hv
  have hfixed : v.row.toTargetFixed = u.row.toTargetFixed := by
    rw [hrow]
    exact fixed_update hg _ _
  have hjob' : u.row.jobId = j := (congrArg TargetFixed.jobId hfixed).symm.trans hjob
  refine ⟨u, hu, hfixed.symm, ?_⟩
  rw [hinv.target_committed_of_worker hu (hjob' ▸ htaken)] at hrow
  simpa using hrow

namespace Progress

variable {g : TargetRow → TargetRow}

theorem ahead_updateTarget (hg : ∀ r, (g r).toTargetFixed = r.toTargetFixed)
    (h : ∃ v ∈ w.targets, v.row.id = t ∧ v.row.jobId = j) (i : Uuid) :
    ∃ v ∈ (w.updateTarget i g).targets, v.row.id = t ∧ v.row.jobId = j := by
  obtain ⟨v, hv, hid, hjob⟩ := h
  obtain ⟨v', hv', -, -, hfixed, -⟩ := mem_updateTarget_of_mem hg hv
  exact ⟨v', hv', (congrArg TargetFixed.id hfixed).trans hid,
    (congrArg TargetFixed.jobId hfixed).trans hjob⟩

/-- An attempt at the next target. -/
theorem attempt (h : Progress calm j none (t :: rest) w) (hinv : Inv env w)
    (htaken : j ∈ w.workers) (hg : ∀ r, (g r).toTargetFixed = r.toTargetFixed) :
    Progress calm j none (t :: rest) (w.updateTarget t g) := by
  refine ⟨fun v hv hjob => ?_, fun i s hreport => Or.inr ?_, nofun,
    fun i hi => ahead_updateTarget hg (h.ahead i hi) t, h.nodup, h.spared⟩
  · obtain ⟨u, hu, hfixed, hrow⟩ := exists_row_of_mem_updateTarget hinv htaken hg hv hjob
    have hid : u.row.id = v.row.id := congrArg TargetFixed.id hfixed
    by_cases ht : u.row.id = t
    · exact Or.inl (List.mem_cons.mpr (Or.inl (hid.symm.trans ht)))
    · rw [if_neg ht] at hrow
      rw [hrow]
      exact h.rows u hu ((congrArg TargetFixed.jobId hfixed).trans hjob)
  · obtain ⟨hnot, hstored⟩ := (h.stored i s hreport).resolve_left nofun
    refine ⟨hnot, fun v hv hjob hid => ?_⟩
    obtain ⟨u, hu, hfixed, hrow⟩ := exists_row_of_mem_updateTarget hinv htaken hg hv hjob
    have hid' : u.row.id = i := (congrArg TargetFixed.id hfixed).trans hid
    have ht : u.row.id ≠ t := by
      rintro rfl
      exact hnot (hid' ▸ List.mem_cons_self)
    rw [if_neg ht] at hrow
    rw [hrow]
    exact hstored u hu ((congrArg TargetFixed.jobId hfixed).trans hjob) hid'

/-- The outcome of the next target: the answer that is due, or a failure. -/
theorem settle {name : String} (h : Progress calm j due (t :: rest) w) (hinv : Inv env w)
    (htaken : j ∈ w.workers) (hg : ∀ r, (g r).toTargetFixed = r.toTargetFixed)
    (hname : ∀ r, (g r).status = name) (hdue : ∀ i s, due = some (i, s) → i = t)
    (hrow : name = "failed" ∨ ∃ s, w.Reported j t s)
    (hreport : ∀ s, w.Reported j t s → name = statusName s) :
    Progress calm j none rest ((w.updateTarget t g).logOutcome t) := by
  have hreported : ∀ {i s}, ((w.updateTarget t g).logOutcome t).Reported j i s ↔
      w.Reported j i s := reported_logOutcome
  obtain ⟨hnot, hnodup⟩ := List.nodup_cons.mp h.nodup
  refine ⟨fun v hv hjob => ?_, fun i s hi => Or.inr ?_, nofun,
    fun i hi => ahead_updateTarget hg (h.ahead i (List.mem_cons_of_mem _ hi)) t, hnodup,
    fun hcalm i s hi => h.spared hcalm i s (hreported.mp hi)⟩
  -- every row is reported, failed or still due
  · obtain ⟨u, hu, hfixed, hrow'⟩ := exists_row_of_mem_updateTarget hinv htaken hg hv hjob
    have hid : u.row.id = v.row.id := congrArg TargetFixed.id hfixed
    by_cases ht : u.row.id = t
    · rw [if_pos ht] at hrow'
      rw [← hid, ht, hrow', hname]
      refine Or.inr (hrow.imp id ?_)
      rintro ⟨s, hs⟩
      exact ⟨s, hreported.mpr hs⟩
    · rw [if_neg ht] at hrow'
      rw [hrow']
      have hold := h.rows u hu ((congrArg TargetFixed.jobId hfixed).trans hjob)
      rw [List.mem_cons, or_iff_right ht] at hold
      refine hold.imp id (Or.imp id ?_)
      rintro ⟨s, hs⟩
      exact ⟨s, hreported.mpr hs⟩
  · have hi' := hreported.mp hi
    have hcases := h.stored i s hi'
    by_cases heq : i = t
    · -- the target at hand: its answer is stored now
      subst heq
      refine ⟨hnot, fun v hv hjob hid => ?_⟩
      obtain ⟨u, hu, hfixed, hrow'⟩ := exists_row_of_mem_updateTarget hinv htaken hg hv hjob
      rw [if_pos ((congrArg TargetFixed.id hfixed).trans hid)] at hrow'
      rw [hrow', hname]
      exact hreport s hi'
    · obtain ⟨hmem, hstored⟩ := hcases.resolve_left fun hsome => heq (hdue i s hsome)
      refine ⟨fun hrest => hmem (List.mem_cons_of_mem _ hrest), fun v hv hjob hid => ?_⟩
      obtain ⟨u, hu, hfixed, hrow'⟩ := exists_row_of_mem_updateTarget hinv htaken hg hv hjob
      have hid' : u.row.id = i := (congrArg TargetFixed.id hfixed).trans hid
      rw [if_neg (hid'.trans_ne heq)] at hrow'
      rw [hrow']
      exact hstored u hu ((congrArg TargetFixed.jobId hfixed).trans hjob) hid'

/-- The next target is given up. -/
theorem fail (h : Progress calm j none (t :: rest) w) (hinv : Inv env w) (htaken : j ∈ w.workers)
    (hg : ∀ r, (g r).toTargetFixed = r.toTargetFixed) (hname : ∀ r, (g r).status = "failed") :
    Progress calm j none rest ((w.updateTarget t g).logOutcome t) := by
  refine h.settle hinv htaken hg hname nofun (Or.inl rfl) ?_
  intro s hreport
  -- nothing has been reported about a target that is still to come
  obtain ⟨hnot, -⟩ := (h.stored t s hreport).resolve_left nofun
  exact absurd List.mem_cons_self hnot

/-- The answer that is due is stored. -/
theorem complete (h : Progress calm j (some (t, status)) (t :: rest) w) (hinv : Inv env w)
    (htaken : j ∈ w.workers) (hg : ∀ r, (g r).toTargetFixed = r.toTargetFixed)
    (hname : ∀ r, (g r).status = statusName status) :
    Progress calm j none rest ((w.updateTarget t g).logOutcome t) := by
  refine h.settle hinv htaken hg hname (fun i s hdue => ?_)
    (Or.inr ⟨status, h.answered t status rfl⟩) fun s hreport => ?_
  · exact (Prod.mk.inj (Option.some.inj hdue)).1.symm
  · rcases h.stored t s hreport with hdue | ⟨hnot, -⟩
    · rw [(Prod.mk.inj (Option.some.inj hdue)).2]
    · exact absurd List.mem_cons_self hnot

end Progress

/-! ## The status of the job -/

/-- The counts of `finish_job`. -/
theorem countP_pos_iff_hasTarget (hinv : Inv env w) (htaken : j ∈ w.workers) (name : String) :
    0 < (w.targets.rows none).countP (fun t => t.jobId = j ∧ t.status = name) ↔
      w.HasTarget j name := by
  rw [List.countP_pos_iff]
  constructor
  · rintro ⟨row, hrow, hmatch⟩
    obtain ⟨v, hv, -, rfl⟩ := Table.mem_rows_none.mp hrow
    exact ⟨v, hv, of_decide_eq_true hmatch⟩
  · rintro ⟨v, hv, hjob, hstatus⟩
    have hc := hinv.target_committed_of_worker hv (hjob.symm ▸ htaken)
    exact ⟨v.row, Table.mem_rows_none.mpr ⟨v, hv, hc, rfl⟩, decide_eq_true ⟨hjob, hstatus⟩⟩

theorem tally_summary {failures actions : ℕ} (hfailures : 0 < failures ↔ w.HasTarget j "failed")
    (hactions : 0 < actions ↔ w.HasTarget j "action_required") :
    Tally w j (Store.summary failures actions) := by
  unfold Store.summary
  by_cases hf : 0 < failures
  · rw [if_pos hf]
    refine ⟨iff_of_true rfl (hfailures.mp hf), ?_, Or.inl rfl⟩
    exact iff_of_false (by decide) fun h => h.1 (hfailures.mp hf)
  · rw [if_neg hf]
    have hnone : ¬ w.HasTarget j "failed" := fun h => hf (hfailures.mpr h)
    by_cases ha : 0 < actions
    · rw [if_pos ha]
      exact ⟨iff_of_false (by decide) hnone, iff_of_true rfl ⟨hnone, hactions.mp ha⟩,
        Or.inr (Or.inl rfl)⟩
    · rw [if_neg ha]
      refine ⟨iff_of_false (by decide) hnone, iff_of_false (by decide) ?_, Or.inr (Or.inr rfl)⟩
      exact fun h => ha (hactions.mpr h.2)

/-- The job of a worker after an update of the job. -/
theorem exists_updateJob (hinv : Inv env w) (htaken : j ∈ w.workers) {f : JobRow → JobRow}
    (hf : ∀ r, (f r).toJobFixed = r.toJobFixed) :
    ∃ v ∈ (w.updateJob j f).jobs, v.row.id = j ∧ v.committed = true ∧ ∃ r, v.row = f r := by
  obtain ⟨u, hu, hid, hc⟩ := hinv.spawned j htaken
  rw [jobs_updateJob]
  refine ⟨_, Table.mem_update_of_mem hu, ?_, hc, u.row, ?_⟩
  · exact (congrArg JobFixed.id (fixed_update hf _ u.row)).trans hid
  · exact if_pos (by rw [hc, decide_eq_true hid]; rfl)

/-- The status is stored. -/
theorem Progress.conclude (h : Progress calm j none [] w) (hinv : Inv env w)
    (htaken : j ∈ w.workers) {name : String} (htally : Tally w j name) {f : JobRow → JobRow}
    (hf : ∀ r, (f r).toJobFixed = r.toJobFixed) (hname : ∀ r, (f r).status = name) :
    Concluded calm j ((w.updateJob j f).log (.finished j)) := by
  obtain ⟨v, hv, hid, hc, r, hrow⟩ := exists_updateJob hinv htaken hf
  refine ⟨?_, v, hv, hid, hc, ?_⟩
  · have hjobs : Progress calm j none [] (w.updateJob j f) :=
      ⟨h.rows, h.stored, h.answered, h.ahead, h.nodup, h.spared⟩
    refine hjobs.log fun _ _ heq => ?_
    cases heq
  · rw [hrow, hname]
    exact ⟨htally.failed, htally.action, htally.terminal⟩

/-- A worker that was spared leaves nothing open. -/
theorem Concluded.settled (h : Concluded calm j w) (hcalm : calm) : Settled w j := by
  obtain ⟨v, hv, hid, hc, htally⟩ := h.job
  refine ⟨⟨v, hv, hid, hc, htally.terminal⟩, fun t ht hjob => ?_⟩
  rcases h.progress.rows t ht hjob with hnil | hfailed | ⟨s, hreport⟩
  · cases hnil
  · rw [hfailed]
    decide
  · obtain ⟨-, hstored⟩ :=
      (h.progress.stored _ s hreport).resolve_left nofun
    rw [hstored t ht hjob rfl]
    obtain ⟨hqueued, hrunning⟩ := h.progress.spared hcalm _ s hreport
    cases s with
    | queued => exact absurd rfl hqueued
    | running => exact absurd rfl hrunning
    | _ => decide

end Service
