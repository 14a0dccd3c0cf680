/-
# What a step of a worker does to the store

The updates of a job and of a target, and the recording of a call or an outcome,
keep the invariant and the guarantee of the worker of the job, as long as the job
and the target are still open.
-/
import EvglApi.Steps

open Concurrency Mvcc

namespace Service

variable {env : Deployment} {w : World} {j : Uuid}

/-! ## The record -/

/-- Recording an effect about a job with a worker. -/
theorem Inv.log (h : Inv env w) {e : Effect} (hworker : j ∈ w.workers) (hjob : e.job = some j)
    (htarget : ∀ k t, e.target = some (k, t) → ∃ v ∈ w.targets, v.row.id = t ∧ v.row.jobId = k)
    (honce : ∀ e' ∈ w.trace, e'.NotAgain e) : Inv env (w.log e) where
  jobIds := h.jobIds
  jobKeys := h.jobKeys
  targetIds := h.targetIds
  connectionIds := h.connectionIds
  jobDrawn := h.jobDrawn
  targetDrawn := h.targetDrawn
  connectionDrawn := h.connectionDrawn
  eventOwned := h.eventOwned
  targetJob := h.targetJob
  asked := h.asked
  spawned := h.spawned
  idle := h.idle
  jobTraced := by
    intro e' he' k hk
    rcases List.mem_append.mp he' with he' | he'
    · exact h.jobTraced e' he' k hk
    · rw [List.mem_singleton.mp he', hjob] at hk
      exact Option.some.inj hk ▸ hworker
  targetTraced := by
    intro e' he' k t ht
    rcases List.mem_append.mp he' with he' | he'
    · exact h.targetTraced e' he' k t ht
    · exact htarget k t (List.mem_singleton.mp he' ▸ ht)
  upserted := fun c hc => List.mem_append_left _ (h.upserted c hc)
  once := by
    show (w.trace ++ [e]).Pairwise _
    rw [List.pairwise_append]
    refine ⟨h.once, List.pairwise_singleton _ _, fun e' he' e'' he'' => ?_⟩
    rw [List.mem_singleton.mp he'']
    exact honce e' he'

theorem guar_log {e : Effect} (hjob : e.job = some j) :
    Guar (.worker j) w (w.log e) where
  requests := List.prefix_refl _
  workers := fun _ hj => hj
  others := by
    intro r' hne htaken
    cases r' with
    | request m q' =>
        exact .of_rows ⟨rfl, rfl, rfl, rfl, fun _ hd => hd⟩ rfl rfl
          fun v hv hc => ⟨v, hv, hc, rfl, rfl⟩
    | worker k =>
        exact
          { events := fun _ he => he
            jobs := fun _ _ => Iff.rfl
            targets := fun _ _ => Iff.rfl
            trace := fun _ he => List.mem_append_left _ he
            traced := by
              intro e' hk he'
              rcases List.mem_append.mp he' with he' | he'
              · exact he'
              · rw [List.mem_singleton.mp he', hjob] at hk
                exact absurd (congrArg Role.worker (Option.some.inj hk)) hne }
  evolves := .of_eq (List.prefix_append _ _) rfl rfl

/-! ## Updates -/

/-- The fixed columns of a row after an update of the others. -/
theorem fixed_update {α β : Type} {f : α → α} {g : α → β} (hf : ∀ r, g (f r) = g r) (b : Bool)
    (r : α) : g (if b then f r else r) = g r := by
  split
  · exact hf r
  · rfl

theorem jobs_updateJob (f : JobRow → JobRow) :
    (w.updateJob j f).jobs = w.jobs.update (fun r => r.id = j) f := rfl

theorem targets_updateTarget (t : Uuid) (g : TargetRow → TargetRow) :
    (w.updateTarget t g).targets = w.targets.update (fun r => r.id = t) g := rfl

/-- A job after an update is an old one, up to the columns that may change. -/
theorem exists_of_mem_updateJob {f : JobRow → JobRow} (hf : ∀ r, (f r).toJobFixed = r.toJobFixed)
    {v : Version JobRow} (hv : v ∈ (w.updateJob j f).jobs) :
    ∃ u ∈ w.jobs, u.xmin = v.xmin ∧ u.committed = v.committed ∧
      v.row.toJobFixed = u.row.toJobFixed := by
  rw [jobs_updateJob] at hv
  obtain ⟨u, hu, hx, hc, hrow⟩ := Table.exists_of_mem_update hv
  exact ⟨u, hu, hx, hc, hrow ▸ fixed_update hf _ u.row⟩

theorem mem_updateJob_of_mem {f : JobRow → JobRow} (hf : ∀ r, (f r).toJobFixed = r.toJobFixed)
    {u : Version JobRow} (hu : u ∈ w.jobs) :
    ∃ v ∈ (w.updateJob j f).jobs, u.xmin = v.xmin ∧ u.committed = v.committed ∧
      v.row.toJobFixed = u.row.toJobFixed := by
  rw [jobs_updateJob]
  exact ⟨_, Table.mem_update_of_mem hu, rfl, rfl, fixed_update hf _ u.row⟩

/-- Other jobs stay as they are. -/
theorem mem_updateJob_of_ne {f : JobRow → JobRow} (hf : ∀ r, (f r).toJobFixed = r.toJobFixed)
    {v : Version JobRow} (hv : v.row.id ≠ j) : v ∈ (w.updateJob j f).jobs ↔ v ∈ w.jobs := by
  rw [jobs_updateJob]
  refine Table.mem_update_iff (fun r => ?_) (decide_eq_false hv)
  rw [congrArg JobFixed.id (hf r)]

/-- A target after an update is an old one, up to the columns that may change. -/
theorem exists_of_mem_updateTarget {t : Uuid} {g : TargetRow → TargetRow}
    (hg : ∀ r, (g r).toTargetFixed = r.toTargetFixed) {v : Version TargetRow}
    (hv : v ∈ (w.updateTarget t g).targets) :
    ∃ u ∈ w.targets, u.xmin = v.xmin ∧ u.committed = v.committed ∧
      v.row.toTargetFixed = u.row.toTargetFixed ∧
        (v.row = u.row ∨ v.row = g u.row ∧ u.row.id = t) := by
  rw [targets_updateTarget] at hv
  obtain ⟨u, hu, hx, hc, hrow⟩ := Table.exists_of_mem_update hv
  refine ⟨u, hu, hx, hc, hrow ▸ fixed_update hg _ u.row, ?_⟩
  split at hrow
  · next hid =>
      rw [Bool.and_eq_true, decide_eq_true_eq] at hid
      exact Or.inr ⟨hrow, hid.2⟩
  · exact Or.inl hrow

theorem mem_updateTarget_of_mem {t : Uuid} {g : TargetRow → TargetRow}
    (hg : ∀ r, (g r).toTargetFixed = r.toTargetFixed) {u : Version TargetRow}
    (hu : u ∈ w.targets) :
    ∃ v ∈ (w.updateTarget t g).targets, u.xmin = v.xmin ∧ u.committed = v.committed ∧
      v.row.toTargetFixed = u.row.toTargetFixed ∧ (v.row = u.row ∨ v.row = g u.row) := by
  rw [targets_updateTarget]
  refine ⟨_, Table.mem_update_of_mem hu, rfl, rfl, fixed_update hg _ u.row, ?_⟩
  split
  · exact Or.inr rfl
  · exact Or.inl rfl

/-- An update of a job leaves the invariant alone. -/
theorem Inv.updateJob (h : Inv env w) {f : JobRow → JobRow}
    (hf : ∀ r, (f r).toJobFixed = r.toJobFixed) : Inv env (w.updateJob j f) where
  jobIds := by
    rw [jobs_updateJob, Table.map_row_update (fun r : JobRow => r.id) fun r =>
      congrArg JobFixed.id (hf r)]
    exact h.jobIds
  jobKeys := by
    rw [jobs_updateJob, Table.map_row_update (fun r : JobRow => (r.userId, r.idempotencyKey))
      fun r => congrArg (fun s : JobFixed => (s.userId, s.idempotencyKey)) (hf r)]
    exact h.jobKeys
  targetIds := h.targetIds
  connectionIds := h.connectionIds
  jobDrawn := by
    intro v hv
    obtain ⟨u, hu, -, -, hfixed⟩ := exists_of_mem_updateJob hf hv
    rw [congrArg JobFixed.id hfixed]
    exact h.jobDrawn u hu
  targetDrawn := h.targetDrawn
  connectionDrawn := h.connectionDrawn
  eventOwned := by
    intro v hv
    obtain ⟨u, hu, -, -, hfixed⟩ := exists_of_mem_updateJob hf hv
    rw [hfixed]
    exact h.eventOwned u hu
  targetJob := by
    intro t ht
    obtain ⟨u, hu, hid, hx, hc, howned⟩ := h.targetJob t ht
    obtain ⟨v, hv, hx', hc', hfixed⟩ := mem_updateJob_of_mem hf hu
    refine ⟨v, hv, ?_, hx' ▸ hx, hc' ▸ hc, ?_⟩
    · exact (congrArg JobFixed.id hfixed).trans hid
    · rw [hfixed]
      exact howned
  asked := by
    intro v hv
    obtain ⟨u, hu, hx, hc, hfixed⟩ := exists_of_mem_updateJob hf hv
    obtain ⟨targets, hasked, hperm⟩ := h.asked u hu
    refine ⟨targets, ?_, ?_⟩
    · rw [← hx, hfixed]
      exact hasked
    · rw [← hc, congrArg JobFixed.id hfixed]
      exact hperm
  spawned := by
    intro k hk
    obtain ⟨u, hu, hid, hc⟩ := h.spawned k hk
    obtain ⟨v, hv, -, hc', hfixed⟩ := mem_updateJob_of_mem hf hu
    exact ⟨v, hv, (congrArg JobFixed.id hfixed).trans hid, hc' ▸ hc⟩
  idle := h.idle
  jobTraced := h.jobTraced
  targetTraced := h.targetTraced
  upserted := h.upserted
  once := h.once

/-- The worker of a job that it has not finished may update the job. -/
theorem guar_updateJob {f : JobRow → JobRow} (hf : ∀ r, (f r).toJobFixed = r.toJobFixed)
    (hopen : Effect.finished j ∉ w.trace) :
    Guar (.worker j) w (w.updateJob j f) where
  requests := List.prefix_refl _
  workers := fun _ hk => hk
  others := by
    intro r' hne htaken
    cases r' with
    | request m q' =>
        refine .of_rows ⟨rfl, rfl, rfl, rfl, fun _ hd => hd⟩ ?_ rfl fun v hv hc => ?_
        · rw [jobs_updateJob, Table.pending_update]
        · obtain ⟨v', hv', hx, hc', hfixed⟩ := mem_updateJob_of_mem hf hv
          exact ⟨v', hv', hc' ▸ hc, hx.symm, hfixed⟩
    | worker k =>
        have hjk : k ≠ j := fun heq => hne (by rw [heq])
        exact .of_rows ⟨rfl, rfl, rfl, rfl, fun _ hd => hd⟩ rfl
          (fun v hid => mem_updateJob_of_ne hf (hid.trans_ne hjk)) fun _ _ => Iff.rfl
  evolves :=
    { trace := List.prefix_refl _
      targets := fun v hv hc => ⟨v, hv, hc, rfl, le_refl _, fun _ => rfl⟩
      jobs := by
        intro v hv hc
        by_cases hid : v.row.id = j
        · obtain ⟨v', hv', -, hc', hfixed⟩ := mem_updateJob_of_mem hf hv
          exact ⟨v', hv', hc' ▸ hc, hfixed, fun hdone => absurd (hid ▸ hdone) hopen⟩
        · exact ⟨v, (mem_updateJob_of_ne hf hid).mpr hv, hc, rfl, fun _ => rfl⟩ }

/-- Other targets stay as they are. -/
theorem mem_updateTarget_of_ne {t : Uuid} {g : TargetRow → TargetRow}
    (hg : ∀ r, (g r).toTargetFixed = r.toTargetFixed) {v : Version TargetRow}
    (hv : v.row.id ≠ t) : v ∈ (w.updateTarget t g).targets ↔ v ∈ w.targets := by
  rw [targets_updateTarget]
  refine Table.mem_update_iff (fun r => ?_) (decide_eq_false hv)
  rw [congrArg TargetFixed.id (hg r)]

theorem targetsOf_updateTarget {t : Uuid} {g : TargetRow → TargetRow}
    (hg : ∀ r, (g r).toTargetFixed = r.toTargetFixed) (k : Uuid) :
    (w.updateTarget t g).targetsOf k = w.targetsOf k := by
  rw [World.targetsOf, targets_updateTarget, Table.map_row_update _ hg]
  rfl

/-- An update of a target of a job with a worker leaves the invariant alone. -/
theorem Inv.updateTarget (h : Inv env w) {t : Uuid} {g : TargetRow → TargetRow}
    (hg : ∀ r, (g r).toTargetFixed = r.toTargetFixed)
    (hworker : ∀ v ∈ w.targets, v.row.id = t → v.row.jobId ∈ w.workers) :
    Inv env (w.updateTarget t g) where
  jobIds := h.jobIds
  jobKeys := h.jobKeys
  targetIds := by
    rw [targets_updateTarget, Table.map_row_update (fun r : TargetRow => r.id) fun r =>
      congrArg TargetFixed.id (hg r)]
    exact h.targetIds
  connectionIds := h.connectionIds
  jobDrawn := h.jobDrawn
  targetDrawn := by
    intro v hv
    obtain ⟨u, hu, -, -, hfixed, -⟩ := exists_of_mem_updateTarget hg hv
    rw [congrArg TargetFixed.id hfixed]
    exact h.targetDrawn u hu
  connectionDrawn := h.connectionDrawn
  eventOwned := h.eventOwned
  targetJob := by
    intro v hv
    obtain ⟨u, hu, hx, hc, hfixed, -⟩ := exists_of_mem_updateTarget hg hv
    obtain ⟨k, hk, hid, hxk, hck, howned⟩ := h.targetJob u hu
    refine ⟨k, hk, ?_, hxk.trans hx, hck.trans hc, ?_⟩
    · rw [hid, congrArg TargetFixed.jobId hfixed]
    · rw [hfixed]
      exact howned
  asked := by
    intro v hv
    obtain ⟨targets, hasked, hperm⟩ := h.asked v hv
    refine ⟨targets, hasked, fun hc => ?_⟩
    rw [targetsOf_updateTarget hg]
    exact hperm hc
  spawned := h.spawned
  idle := by
    intro v hv hfree
    -- a row that has changed belongs to a job with a worker
    obtain ⟨u, hu, -, -, hfixed, hsame | ⟨-, hid⟩⟩ := exists_of_mem_updateTarget hg hv
    · rw [hsame] at hfree ⊢
      exact h.idle u hu hfree
    · rw [congrArg TargetFixed.jobId hfixed] at hfree
      exact absurd (hworker u hu hid) hfree
  jobTraced := h.jobTraced
  targetTraced := by
    intro e he k t' ht'
    obtain ⟨u, hu, hid, hjob⟩ := h.targetTraced e he k t' ht'
    obtain ⟨v, hv, -, -, hfixed, -⟩ := mem_updateTarget_of_mem hg hu
    exact ⟨v, hv, (congrArg TargetFixed.id hfixed).trans hid,
      (congrArg TargetFixed.jobId hfixed).trans hjob⟩
  upserted := h.upserted
  once := h.once

/-- The worker of a job may update a target of the job that has no outcome, if the
number of attempts does not decrease. -/
theorem guar_updateTarget {t : Uuid} {g : TargetRow → TargetRow}
    (hg : ∀ r, (g r).toTargetFixed = r.toTargetFixed)
    (hjob : ∀ v ∈ w.targets, v.row.id = t → v.row.jobId = j)
    (hattempt : ∀ v ∈ w.targets, v.row.id = t → v.row.attempt ≤ (g v.row).attempt)
    (hopen : Effect.outcome j t ∉ w.trace) : Guar (.worker j) w (w.updateTarget t g) where
  requests := List.prefix_refl _
  workers := fun _ hk => hk
  others := by
    intro r' hne htaken
    cases r' with
    | request m q' =>
        refine .of_rows ⟨rfl, rfl, rfl, rfl, fun _ hd => hd⟩ rfl ?_
          fun v hv hc => ⟨v, hv, hc, rfl, rfl⟩
        rw [targets_updateTarget, Table.pending_update]
    | worker k =>
        have hjk : k ≠ j := fun heq => hne (by rw [heq])
        refine .of_rows ⟨rfl, rfl, rfl, rfl, fun _ hd => hd⟩ rfl (fun _ _ => Iff.rfl) ?_
        intro v hid
        by_cases ht : v.row.id = t
        · -- the rows with this id belong to the other job, before and after
          have hold : ∀ u ∈ w.targets, u.row.toTargetFixed = v.row.toTargetFixed → False := by
            intro u hu hfixed
            have hu' := hjob u hu ((congrArg TargetFixed.id hfixed).trans ht)
            have hid' : u.row.jobId = k := (congrArg TargetFixed.jobId hfixed).trans hid
            exact hjk (hid'.symm.trans hu')
          constructor
          · intro hv
            obtain ⟨u, hu, -, -, hfixed, -⟩ := exists_of_mem_updateTarget hg hv
            exact (hold u hu hfixed.symm).elim
          · intro hv
            exact (hold v hv rfl).elim
        · exact mem_updateTarget_of_ne hg ht
  evolves :=
    { trace := List.prefix_refl _
      targets := by
        intro v hv hc
        by_cases hid : v.row.id = t
        · obtain ⟨v', hv', -, hc', hfixed, hrow⟩ := mem_updateTarget_of_mem hg hv
          refine ⟨v', hv', hc' ▸ hc, congrArg TargetFixed.id hfixed, ?_, ?_⟩
          · rcases hrow with hrow | hrow
            · rw [hrow]
            · rw [hrow]
              exact hattempt v hv hid
          · intro hdone
            rw [hjob v hv hid, hid] at hdone
            exact absurd hdone hopen
        · exact ⟨v, (mem_updateTarget_of_ne hg hid).mpr hv, hc, rfl, le_refl _, fun _ => rfl⟩
      jobs := fun v hv hc => ⟨v, hv, hc, rfl, fun _ => rfl⟩ }

/-! ## Outcomes -/

/-- With unique keys a key selects one element. -/
theorem filter_key_eq {α κ : Type} [DecidableEq κ] {f : α → κ} {l : List α}
    (h : (l.map f).Nodup) {a : α} (ha : a ∈ l) : l.filter (fun b => f b = f a) = [a] := by
  induction l with
  | nil => cases ha
  | cons b l ih =>
      rw [List.map_cons, List.nodup_cons] at h
      rw [List.filter_cons]
      rcases List.mem_cons.mp ha with rfl | ha
      · have hnone : l.filter (fun b => f b = f a) = [] := by
          rw [List.filter_eq_nil_iff]
          intro b hb hab
          exact h.1 (List.mem_map.mpr ⟨b, hb, of_decide_eq_true hab⟩)
        rw [hnone, if_pos (decide_eq_true rfl)]
      · have hne : f b ≠ f a := fun heq => h.1 (heq ▸ List.mem_map_of_mem ha)
        rw [if_neg (by simp [hne]), ih h.2 ha]

/-- Storing the outcome of a committed target is recorded once. -/
theorem logOutcome_eq (h : Inv env w) {v : Version TargetRow} (hv : v ∈ w.targets)
    (hc : v.committed = true) :
    w.logOutcome v.row.id = w.log (.outcome v.row.jobId v.row.id) := by
  have hmem : v.row ∈ w.targets.rows none := Table.mem_rows_none.mpr ⟨v, hv, hc, rfl⟩
  have hnodup : ((w.targets.rows none).map fun t => t.id).Nodup := by
    rw [Table.rows, List.map_map]
    exact (List.filter_sublist.map _).nodup h.targetIds
  have hone := filter_key_eq hnodup hmem
  unfold World.logOutcome World.log
  rw [hone]
  rfl

end Service
