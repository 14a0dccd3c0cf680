/-
# What a step does to the store

Each way in which a statement changes the store keeps the invariant and the
guarantee of the program that executes it.

* `Quiet` : jobs, targets and the record about them stay as they are; this is what
  every statement does that is not named below;
* `commit`, `rollback`, `addJob`, `addTarget` : the statements of the transaction of a
  cross-post request.

The statements of a worker are in the next file.
-/
import EvglApi.Invariant

open Concurrency Mvcc

namespace Service

variable {env : Deployment} {w w' : World} {r : Role} {n : ℕ} {j : Uuid}

/-! ## Consequences of the invariant -/

namespace Inv

/-- A job has its id for itself. -/
theorem eq_of_jobId (h : Inv env w) {v v' : Version JobRow} (hv : v ∈ w.jobs) (hv' : v' ∈ w.jobs)
    (hid : v.row.id = v'.row.id) : v = v' :=
  List.inj_on_of_nodup_map h.jobIds hv hv' hid

theorem eq_of_targetId (h : Inv env w) {t t' : Version TargetRow} (ht : t ∈ w.targets)
    (ht' : t' ∈ w.targets) (hid : t.row.id = t'.row.id) : t = t' :=
  List.inj_on_of_nodup_map h.targetIds ht ht' hid

/-- A job with a worker is committed. -/
theorem committed_of_worker (h : Inv env w) {v : Version JobRow} (hv : v ∈ w.jobs)
    (hw : v.row.id ∈ w.workers) : v.committed = true := by
  obtain ⟨v', hv', hid, hc⟩ := h.spawned _ hw
  rw [h.eq_of_jobId hv hv' hid.symm]
  exact hc

/-- The targets of a committed job are committed. -/
theorem target_committed (h : Inv env w) {t : Version TargetRow} (ht : t ∈ w.targets)
    {v : Version JobRow} (hv : v ∈ w.jobs) (hid : v.row.id = t.row.jobId)
    (hc : v.committed = true) : t.committed = true := by
  obtain ⟨v', hv', hid', -, hc', -⟩ := h.targetJob t ht
  obtain rfl := h.eq_of_jobId hv hv' (hid.trans hid'.symm)
  exact hc'.symm.trans hc

/-- The targets of a job with a worker are committed. -/
theorem target_committed_of_worker (h : Inv env w) {t : Version TargetRow} (ht : t ∈ w.targets)
    (hw : t.row.jobId ∈ w.workers) : t.committed = true := by
  obtain ⟨v, hv, hid, hc⟩ := h.spawned _ hw
  exact h.target_committed ht hv hid hc

theorem xmin_lt (h : Inv env w) {v : Version JobRow} (hv : v ∈ w.jobs) :
    v.xmin < w.requests.length := by
  obtain ⟨targets, hasked, -⟩ := h.asked v hv
  exact (List.getElem?_eq_some_iff.mp hasked).1

/-- A target of the recorded pair is the only target with that id. -/
theorem jobId_of_traced (h : Inv env w) {e : Effect} (he : e ∈ w.trace) {t : Uuid}
    (htarget : e.target = some (j, t)) {u : Version TargetRow} (hu : u ∈ w.targets)
    (hid : u.row.id = t) : u.row.jobId = j := by
  obtain ⟨u', hu', hid', hjob'⟩ := h.targetTraced e he j t htarget
  rw [h.eq_of_targetId hu hu' (hid.trans hid'.symm)]
  exact hjob'

end Inv

theorem inv_empty : Inv env World.empty := by
  constructor <;> simp [World.empty]

/-! ## Quiet steps -/

/-- A step that leaves the jobs, the targets and the record about them alone. -/
structure Quiet (w w' : World) : Prop where
  jobs : w'.jobs = w.jobs
  targets : w'.targets = w.targets
  requests : w'.requests = w.requests
  workers : w'.workers = w.workers
  events : w.events ⊆ w'.events
  drawn : w.drawn ⊆ w'.drawn
  trace : ∃ es, w'.trace = w.trace ++ es ∧ ∀ e ∈ es, e.job = none ∧ e.target = none
  connectionIds : (w'.connections.map fun c => c.id).Nodup
  connectionDrawn : ∀ c ∈ w'.connections, c.id ∈ w'.drawn
  upserted : ∀ c ∈ w'.connections, Effect.upserted c ∈ w'.trace
  connections : ∀ c' ∈ w'.connections, c'.id ∈ w.drawn →
    ∃ c ∈ w.connections, c.toConnectionFixed = c'.toConnectionFixed
  referenced : ∀ t ∈ w.targets, ∀ c ∈ w.connections, c.id = t.row.connectionId →
    ∃ c' ∈ w'.connections, c'.toConnectionFixed = c.toConnectionFixed

namespace Quiet

theorem refl (h : Inv env w) : Quiet w w where
  jobs := rfl
  targets := rfl
  requests := rfl
  workers := rfl
  events := fun _ he => he
  drawn := fun _ hd => hd
  trace := ⟨[], by simp⟩
  connectionIds := h.connectionIds
  connectionDrawn := h.connectionDrawn
  upserted := h.upserted
  connections := fun c hc _ => ⟨c, hc, rfl⟩
  referenced := fun _ _ c hc _ => ⟨c, hc, rfl⟩

/-- Effects about no job leave the record about jobs alone. -/
theorem mem_trace (h : Quiet w w') {e : Effect} (he : e ∈ w'.trace) (hjob : e.job ≠ none) :
    e ∈ w.trace := by
  obtain ⟨es, heq, hes⟩ := h.trace
  rw [heq] at he
  rcases List.mem_append.mp he with he | he
  · exact he
  · exact absurd (hes e he).1 hjob

theorem trace_prefix (h : Quiet w w') : w.trace <+: w'.trace := by
  obtain ⟨es, heq, -⟩ := h.trace
  exact ⟨es, heq.symm⟩

/-- A quiet step keeps the invariant. -/
theorem inv (h : Quiet w w') (hinv : Inv env w) : Inv env w' where
  jobIds := h.jobs ▸ hinv.jobIds
  jobKeys := h.jobs ▸ hinv.jobKeys
  targetIds := h.targets ▸ hinv.targetIds
  connectionIds := h.connectionIds
  jobDrawn := fun v hv => h.drawn (hinv.jobDrawn v (h.jobs ▸ hv))
  targetDrawn := fun v hv => h.drawn (hinv.targetDrawn v (h.targets ▸ hv))
  connectionDrawn := h.connectionDrawn
  eventOwned := by
    intro v hv
    obtain ⟨e, he, hrest⟩ := hinv.eventOwned v (h.jobs ▸ hv)
    exact ⟨e, h.events he, hrest⟩
  targetJob := by
    intro t ht
    obtain ⟨v, hv, hid, hx, hc, hname, c, hmem, hcid, huser, hprovider⟩ :=
      hinv.targetJob t (h.targets ▸ ht)
    -- the connection of a target is still there, with its fixed columns
    obtain ⟨c', hc', heq⟩ := h.referenced t (h.targets ▸ ht) c hmem hcid
    refine ⟨v, h.jobs ▸ hv, hid, hx, hc, hname, c', hc', ?_, ?_, ?_⟩
    · exact (congrArg ConnectionFixed.id heq).trans hcid
    · exact (congrArg ConnectionFixed.userId heq).trans huser
    · exact (congrArg ConnectionFixed.provider heq).trans hprovider
  asked := by
    intro v hv
    obtain ⟨targets, hasked, hperm⟩ := hinv.asked v (h.jobs ▸ hv)
    refine ⟨targets, ?_, ?_⟩
    · rw [World.Asked, h.requests]; exact hasked
    · rw [World.targetsOf, h.targets]; exact hperm
  spawned := by rw [h.jobs, h.workers]; exact hinv.spawned
  idle := by rw [h.targets, h.workers]; exact hinv.idle
  jobTraced := by
    intro e he k hk
    rw [h.workers]
    exact hinv.jobTraced e (h.mem_trace he (by simp [hk])) k hk
  targetTraced := by
    intro e he k t ht
    obtain ⟨es, heq, hes⟩ := h.trace
    rw [heq] at he
    rw [h.targets]
    rcases List.mem_append.mp he with he | he
    · exact hinv.targetTraced e he k t ht
    · rw [(hes e he).2] at ht; cases ht
  upserted := h.upserted
  once := by
    obtain ⟨es, heq, hes⟩ := h.trace
    rw [heq, List.pairwise_append]
    -- what a quiet step records is not about a job
    have hcall : ∀ e ∈ es, ∀ e', Effect.NotAgain e' e := by
      intro e he e' call result hcall
      have hjob := (hes e he).1
      rw [hcall] at hjob
      cases hjob
    refine ⟨hinv.once, ?_, fun e' _ e he => hcall e he e'⟩
    exact List.pairwise_of_forall_mem_list fun e' _ e he => hcall e he e'

theorem evolves (h : Quiet w w') : Evolves w w' := .of_eq h.trace_prefix h.targets h.jobs

/-- A quiet step is nothing to anybody. -/
theorem rely (h : Quiet w w') (r : Role) : Rely r w w' := by
  cases r with
  | request n q =>
      exact
        { requests := h.requests ▸ List.prefix_refl _
          events := h.events
          drawn := h.drawn
          connections := h.connections
          pendingJobs := by rw [h.jobs]
          pendingTargets := by rw [h.targets]
          committed := fun v hv hc => ⟨v, h.jobs ▸ hv, hc, rfl, rfl⟩
          unspawned := fun v _ _ hfree => h.workers ▸ hfree }
  | worker j =>
      exact
        { events := h.events
          jobs := fun v _ => by rw [h.jobs]
          targets := fun v _ => by rw [h.targets]
          trace := h.trace_prefix.subset
          traced := fun e hjob he => h.mem_trace he (by simp [hjob]) }

theorem guar (h : Quiet w w') (r : Role) : Guar r w w' where
  requests := h.requests ▸ List.prefix_refl _
  workers := h.workers ▸ fun _ hj => hj
  others := fun r' _ _ => h.rely r'
  evolves := h.evolves

end Quiet

/-- A step that leaves jobs, targets and connections alone. -/
theorem quiet_of_connections_eq (h : Inv env w) (hconnections : w'.connections = w.connections)
    (hjobs : w'.jobs = w.jobs) (htargets : w'.targets = w.targets)
    (hrequests : w'.requests = w.requests) (hworkers : w'.workers = w.workers)
    (hevents : w.events ⊆ w'.events) (hdrawn : w.drawn ⊆ w'.drawn)
    (htrace : ∃ es, w'.trace = w.trace ++ es ∧ ∀ e ∈ es, e.job = none ∧ e.target = none) :
    Quiet w w' where
  jobs := hjobs
  targets := htargets
  requests := hrequests
  workers := hworkers
  events := hevents
  drawn := hdrawn
  trace := htrace
  connectionIds := hconnections ▸ h.connectionIds
  connectionDrawn := fun c hc => hdrawn (h.connectionDrawn c (hconnections ▸ hc))
  upserted := by
    intro c hc
    obtain ⟨es, heq, -⟩ := htrace
    rw [heq]
    exact List.mem_append_left _ (h.upserted c (hconnections ▸ hc))
  connections := fun c hc _ => ⟨c, hconnections ▸ hc, rfl⟩
  referenced := fun _ _ c hc _ => ⟨c, hconnections ▸ hc, rfl⟩

/-- Recording an effect about no job is quiet. -/
theorem quiet_log (h : Inv env w) {e : Effect} (hjob : e.job = none) (htarget : e.target = none) :
    Quiet w (w.log e) := by
  apply quiet_of_connections_eq h <;> try rfl
  · exact fun _ he => he
  · exact fun _ hd => hd
  · exact ⟨[e], rfl, by simp [hjob, htarget]⟩

/-! ## Connections -/

theorem quiet_replaceConnection (h : Inv env w) {old row : ConnectionRow}
    (hmem : old ∈ w.connections) (hfixed : row.toConnectionFixed = old.toConnectionFixed) :
    Quiet w (w.replaceConnection row) := by
  -- the row that is replaced is the old one
  have hkept : ∀ c ∈ w.connections,
      (if c.id = row.id then row else c).toConnectionFixed = c.toConnectionFixed := by
    intro c hc
    split
    · next hid =>
        have hid' : c.id = old.id := hid.trans (congrArg ConnectionFixed.id hfixed)
        rw [hfixed, List.inj_on_of_nodup_map h.connectionIds hc hmem hid']
    · rfl
  have hid : ∀ c ∈ w.connections, (if c.id = row.id then row else c).id = c.id :=
    fun c hc => congrArg ConnectionFixed.id (hkept c hc)
  exact
    { jobs := rfl, targets := rfl, requests := rfl, workers := rfl
      events := fun _ he => he, drawn := fun _ hd => hd
      trace := ⟨[.upserted row], rfl, by simp [Effect.job, Effect.target]⟩
      connectionIds := by
        show ((w.connections.map fun c => if c.id = row.id then row else c).map _).Nodup
        rw [List.map_map]
        exact (List.map_congr_left hid).symm ▸ h.connectionIds
      connectionDrawn := by
        intro c' hc'
        obtain ⟨c, hc, rfl⟩ := List.mem_map.mp hc'
        rw [hid c hc]
        exact h.connectionDrawn c hc
      upserted := by
        intro c' hc'
        obtain ⟨c, hc, rfl⟩ := List.mem_map.mp hc'
        split
        · exact List.mem_append_right _ List.mem_cons_self
        · exact List.mem_append_left _ (h.upserted c hc)
      connections := by
        intro c' hc' _
        obtain ⟨c, hc, rfl⟩ := List.mem_map.mp hc'
        exact ⟨c, hc, (hkept c hc).symm⟩
      referenced := fun _ _ c hc _ => ⟨_, List.mem_map.mpr ⟨c, hc, rfl⟩, hkept c hc⟩ }

theorem quiet_addConnection (h : Inv env w) {row : ConnectionRow} (hfresh : row.id ∉ w.drawn) :
    Quiet w (w.addConnection row) where
  jobs := rfl
  targets := rfl
  requests := rfl
  workers := rfl
  events := fun _ he => he
  drawn := fun _ hd => List.mem_cons_of_mem _ hd
  trace := ⟨[.upserted row], rfl, by simp [Effect.job, Effect.target]⟩
  connectionIds := by
    refine Keyed.nodup_concat h.connectionIds fun c hc (hid : c.id = row.id) => ?_
    exact hfresh (hid ▸ h.connectionDrawn c hc)
  connectionDrawn := by
    intro c hc
    rcases List.mem_append.mp hc with hc | hc
    · exact List.mem_cons_of_mem _ (h.connectionDrawn c hc)
    · rw [List.mem_singleton.mp hc]
      exact List.mem_cons_self
  upserted := by
    intro c hc
    rcases List.mem_append.mp hc with hc | hc
    · exact List.mem_append_left _ (h.upserted c hc)
    · rw [List.mem_singleton.mp hc]
      exact List.mem_append_right _ List.mem_cons_self
  connections := by
    intro c hc hid
    rcases List.mem_append.mp hc with hc | hc
    · exact ⟨c, hc, rfl⟩
    · rw [List.mem_singleton.mp hc] at hid
      exact absurd hid hfresh
  referenced := fun _ _ c hc _ => ⟨c, List.mem_append_left _ hc, rfl⟩

/-- The upsert of a connection is quiet. -/
theorem quiet_upsert (h : Inv env w) {x : Draw} {userId : Uuid}
    {provider accountKey displayName : String} {metadata : Value} {envelope : String}
    {a : Except DbError ConnectionRow}
    (hexec : w.upsertConnection x userId provider accountKey displayName metadata envelope =
      some (a, w')) : Quiet w w' := by
  obtain ⟨row, -, -, -, ⟨old, hmem, hfixed, rfl⟩ | ⟨-, hfresh, rfl⟩⟩ := upsertConnection_cases hexec
  · exact quiet_replaceConnection h hmem hfixed
  · exact quiet_addConnection h hfresh

/-- The deletion of a connection is quiet: it is refused while a target refers to it. -/
theorem quiet_delete (h : Inv env w) {id userId : Uuid} {a : Except DbError ℕ}
    (hexec : w.deleteConnection id userId = some (a, w')) : Quiet w w' := by
  obtain ⟨-, rfl, -⟩ | ⟨c, -, -, -, ⟨-, rfl⟩ | ⟨-, rfl, hunreferenced⟩⟩ :=
    deleteConnection_cases hexec
  · exact Quiet.refl h
  · exact Quiet.refl h
  · have hsub : (w.connections.filter (·.id ≠ id)).Sublist w.connections := List.filter_sublist
    exact
      { jobs := rfl, targets := rfl, requests := rfl, workers := rfl
        events := fun _ he => he, drawn := fun _ hd => hd
        trace := ⟨[], by simp⟩
        connectionIds := (hsub.map _).nodup h.connectionIds
        connectionDrawn := fun c hc => h.connectionDrawn c (hsub.subset hc)
        upserted := fun c hc => h.upserted c (hsub.subset hc)
        connections := fun c hc _ => ⟨c, hsub.subset hc, rfl⟩
        referenced := by
          intro t ht c hc hid
          refine ⟨c, List.mem_filter.mpr ⟨hc, ?_⟩, rfl⟩
          rw [decide_eq_true_iff]
          rintro rfl
          exact hunreferenced t ht hid.symm }

/-! ## Commit and rollback -/

theorem targetsOf_commit (w : World) (n : ℕ) (j : Uuid) :
    (w.commit n).targetsOf j = w.targetsOf j := by
  show ((w.targets.commit n).map fun v => v.row.toTargetFixed).filter _ = _
  rw [Table.map_row_commit]
  rfl

/-- A commit keeps the invariant if the jobs of the transaction have all the targets
that were asked for. -/
theorem Inv.commit (h : Inv env w) (hdone : ∀ job ∈ w.jobs.pending n, ∀ targets,
      w.Asked n job.toJobFixed targets → ((w.targetsOf job.id).map TargetFixed.columns).Perm
        (targets.map (PublishTarget.columns env))) : Inv env (w.commit n) where
  jobIds := (Table.map_row_commit fun r : JobRow => r.id).symm ▸ h.jobIds
  jobKeys := (Table.map_row_commit fun r : JobRow => (r.userId, r.idempotencyKey)).symm ▸ h.jobKeys
  targetIds := (Table.map_row_commit fun r : TargetRow => r.id).symm ▸ h.targetIds
  connectionIds := h.connectionIds
  jobDrawn := by
    intro v hv
    obtain ⟨u, hu, -, hrow, -⟩ := Table.exists_of_mem_commit hv
    exact hrow ▸ h.jobDrawn u hu
  targetDrawn := by
    intro v hv
    obtain ⟨u, hu, -, hrow, -⟩ := Table.exists_of_mem_commit hv
    exact hrow ▸ h.targetDrawn u hu
  connectionDrawn := h.connectionDrawn
  eventOwned := by
    intro v hv
    obtain ⟨u, hu, -, hrow, -⟩ := Table.exists_of_mem_commit hv
    rw [← hrow]
    exact h.eventOwned u hu
  targetJob := by
    intro t ht
    obtain ⟨u, hu, hx, hrow, hc⟩ := Table.exists_of_mem_commit ht
    obtain ⟨v, hv, hid, hvx, hvc, howned⟩ := h.targetJob u hu
    refine ⟨_, Table.mem_commit_of_mem hv, ?_, ?_, ?_, ?_⟩
    · exact hid.trans (congrArg (fun r : TargetRow => r.jobId) hrow)
    · exact hvx.trans hx
    · rw [Bool.eq_iff_iff, Bool.or_eq_true, beq_iff_eq, hc, hvc, hvx]
    · rw [← hrow]
      exact howned
  asked := by
    intro v hv
    obtain ⟨u, hu, hx, hrow, hc⟩ := Table.exists_of_mem_commit hv
    obtain ⟨targets, hasked, hperm⟩ := h.asked u hu
    refine ⟨targets, ?_, ?_⟩
    · rw [← hx, ← hrow]
      exact hasked
    · intro hcommitted
      rw [← hrow, targetsOf_commit]
      -- the job was committed before, or the commit is its own
      by_cases hu' : u.committed = true
      · exact hperm hu'
      · have hxn := (hc.mp hcommitted).resolve_left hu'
        refine hdone u.row (Table.mem_pending.mpr ?_) targets (hxn ▸ hasked)
        rw [← hxn, ← Bool.eq_false_iff.mpr hu']
        exact hu
  spawned := by
    intro j hj
    obtain ⟨v, hv, hid, hc⟩ := h.spawned j hj
    exact ⟨v, Table.mem_commit_of_committed hv hc, hid, hc⟩
  idle := by
    intro t ht hfree
    obtain ⟨u, hu, -, hrow, -⟩ := Table.exists_of_mem_commit ht
    rw [← hrow] at hfree ⊢
    exact h.idle u hu hfree
  jobTraced := h.jobTraced
  targetTraced := by
    intro e he j t ht
    obtain ⟨v, hv, hid, hjob⟩ := h.targetTraced e he j t ht
    exact ⟨_, Table.mem_commit_of_mem hv, hid, hjob⟩
  upserted := h.upserted
  once := h.once

/-- Different requests have different numbers. -/
theorem number_ne {m : ℕ} {q q' : Request} (h : Taken w (.request n q))
    (h' : Taken w (.request m q')) (hne : Role.request n q ≠ .request m q') : m ≠ n := by
  rintro rfl
  have heq : some q = some q' := h.symm.trans h'
  exact hne (by rw [Option.some.inj heq])

/-- A commit of one's own transaction. -/
theorem guar_commit (h : Inv env w) {q : Request} (hself : Taken w (.request n q)) :
    Guar (.request n q) w (w.commit n) where
  requests := List.prefix_refl _
  workers := fun _ hj => hj
  others := by
    intro r' hne htaken
    cases r' with
    | request m q' =>
        have hmn := number_ne hself htaken hne
        exact .of_rows ⟨rfl, rfl, rfl, rfl, fun _ hd => hd⟩ (Table.pending_commit_of_ne hmn)
          (Table.pending_commit_of_ne hmn)
          fun v hv hc => ⟨v, Table.mem_commit_of_committed hv hc, hc, rfl, rfl⟩
    | worker j =>
        -- the rows of a job with a worker are committed already
        refine .of_rows ⟨rfl, rfl, rfl, rfl, fun _ hd => hd⟩ rfl ?_ ?_
        · rintro v rfl
          exact Table.mem_commit_iff fun u hu hrow => h.committed_of_worker hu (hrow ▸ htaken)
        · rintro v rfl
          exact Table.mem_commit_iff fun u hu hrow =>
            h.target_committed_of_worker hu (hrow ▸ htaken)
  evolves :=
    { trace := List.prefix_refl _
      targets := fun v hv hc =>
        ⟨v, Table.mem_commit_of_committed hv hc, hc, rfl, le_refl _, fun _ => rfl⟩
      jobs := fun v hv hc => ⟨v, Table.mem_commit_of_committed hv hc, hc, rfl, fun _ => rfl⟩ }

/-- The targets of a committed job survive a rollback. -/
theorem targetsOf_rollback (h : Inv env w) {v : Version JobRow} (hv : v ∈ w.jobs)
    (hc : v.committed = true) (n : ℕ) :
    (w.rollback n).targetsOf v.row.id = w.targetsOf v.row.id := by
  show ((w.targets.rollback n).map fun u => u.row.toTargetFixed).filter _ = _
  rw [World.targetsOf, List.filter_map, List.filter_map, Table.rollback, List.filter_filter]
  congr 1
  apply List.filter_congr
  intro u hu
  by_cases hid : u.row.jobId = v.row.id
  · simp [h.target_committed hu hv hid.symm hc]
  · simp [hid]

/-- A rollback takes back a job together with its targets. -/
theorem Inv.rollback (h : Inv env w) (n : ℕ) : Inv env (w.rollback n) where
  jobIds := (Table.rollback_sublist.map _).nodup h.jobIds
  jobKeys := (Table.rollback_sublist.map _).nodup h.jobKeys
  targetIds := (Table.rollback_sublist.map _).nodup h.targetIds
  connectionIds := h.connectionIds
  jobDrawn := fun v hv => h.jobDrawn v (Table.mem_rollback.mp hv).1
  targetDrawn := fun v hv => h.targetDrawn v (Table.mem_rollback.mp hv).1
  connectionDrawn := h.connectionDrawn
  eventOwned := fun v hv => h.eventOwned v (Table.mem_rollback.mp hv).1
  targetJob := by
    intro t ht
    obtain ⟨ht', hkept⟩ := Table.mem_rollback.mp ht
    obtain ⟨v, hv, hid, hx, hc, howned⟩ := h.targetJob t ht'
    exact ⟨v, Table.mem_rollback.mpr ⟨hv, by rw [hc, hx]; exact hkept⟩, hid, hx, hc, howned⟩
  asked := by
    intro v hv
    obtain ⟨hv', -⟩ := Table.mem_rollback.mp hv
    obtain ⟨targets, hasked, hperm⟩ := h.asked v hv'
    refine ⟨targets, hasked, fun hc => ?_⟩
    rw [targetsOf_rollback h hv' hc]
    exact hperm hc
  spawned := by
    intro j hj
    obtain ⟨v, hv, hid, hc⟩ := h.spawned j hj
    exact ⟨v, Table.mem_rollback.mpr ⟨hv, Or.inl hc⟩, hid, hc⟩
  idle := fun t ht => h.idle t (Table.mem_rollback.mp ht).1
  jobTraced := h.jobTraced
  targetTraced := by
    intro e he j t ht
    obtain ⟨u, hu, hid, hjob⟩ := h.targetTraced e he j t ht
    -- a target that is recorded belongs to a job with a worker, which is committed
    have hworker : u.row.jobId ∈ w.workers := by
      rw [hjob]
      refine h.jobTraced e he j ?_
      cases e <;> simp_all [Effect.target, Effect.job]
    exact ⟨u, Table.mem_rollback.mpr ⟨hu, Or.inl (h.target_committed_of_worker hu hworker)⟩,
      hid, hjob⟩
  upserted := h.upserted
  once := h.once

/-- A rollback of one's own transaction. -/
theorem guar_rollback (h : Inv env w) {q : Request} (hself : Taken w (.request n q)) :
    Guar (.request n q) w (w.rollback n) where
  requests := List.prefix_refl _
  workers := fun _ hj => hj
  others := by
    intro r' hne htaken
    cases r' with
    | request m q' =>
        have hmn := number_ne hself htaken hne
        exact .of_rows ⟨rfl, rfl, rfl, rfl, fun _ hd => hd⟩ (Table.pending_rollback_of_ne hmn)
          (Table.pending_rollback_of_ne hmn)
          fun v hv hc => ⟨v, Table.mem_rollback.mpr ⟨hv, Or.inl hc⟩, hc, rfl, rfl⟩
    | worker j =>
        -- a rollback keeps committed rows
        refine .of_rows ⟨rfl, rfl, rfl, rfl, fun _ hd => hd⟩ rfl ?_ ?_
        · rintro v rfl
          exact Table.mem_rollback_iff fun hv => h.committed_of_worker hv htaken
        · rintro v rfl
          exact Table.mem_rollback_iff fun hv => h.target_committed_of_worker hv htaken
  evolves :=
    { trace := List.prefix_refl _
      targets := fun v hv hc =>
        ⟨v, Table.mem_rollback.mpr ⟨hv, Or.inl hc⟩, hc, rfl, le_refl _, fun _ => rfl⟩
      jobs := fun v hv hc => ⟨v, Table.mem_rollback.mpr ⟨hv, Or.inl hc⟩, hc, rfl, fun _ => rfl⟩ }

/-! ## Insertion of jobs and targets -/

/-- An `INSERT` of a job under an unused key, for a stored event, with a new id. -/
theorem insertJob_of_unused {x : Draw} {userId eventId : Uuid} {key : String}
    (hfresh : x.uuid ∉ w.drawn) (hunused : ∀ v ∈ w.jobs, ¬ v.row.hasKey userId key)
    (hevent : ∃ e ∈ w.events, e.id = eventId) :
    ∃ row : JobRow, row.id = x.uuid ∧ row.hasKey userId key ∧
      w.insertJob x n userId eventId key = some (.ok row, w.addJob n row) := by
  have hwait : w.jobs.any (fun v => v.row.hasKey userId key ∧ v.committed = false ∧ v.xmin ≠ n) =
      false := by
    rw [List.any_eq_false]
    exact fun v hv hkey => hunused v hv (of_decide_eq_true hkey).1
  have hunique : w.jobs.any (fun v => v.row.hasKey userId key) = false := by
    rw [List.any_eq_false]
    exact fun v hv hkey => hunused v hv (of_decide_eq_true hkey)
  have hstored : w.events.all (fun e => e.id ≠ eventId) = false := by
    obtain ⟨e, he, heid⟩ := hevent
    rw [List.all_eq_false]
    exact ⟨e, he, by simp [heid]⟩
  unfold World.insertJob
  rw [if_neg hfresh, hwait, hunique, hstored]
  exact ⟨_, rfl, ⟨rfl, rfl⟩, rfl⟩

/-- An `INSERT` of a job with a new id does not wait if no other transaction holds the key. -/
theorem exists_insertJob {x : Draw} {userId : Uuid} {key : String} (n : ℕ) (eventId : Uuid)
    (hfresh : x.uuid ∉ w.drawn)
    (hfree : ∀ v ∈ w.jobs, v.row.hasKey userId key → v.committed = true ∨ v.xmin = n) :
    ∃ r, w.insertJob x n userId eventId key = some r := by
  have hwait : w.jobs.any (fun v => v.row.hasKey userId key ∧ v.committed = false ∧ v.xmin ≠ n) =
      false := by
    rw [List.any_eq_false]
    intro v hv hkey
    obtain ⟨hkey, hc, hx⟩ := of_decide_eq_true hkey
    rcases hfree v hv hkey with hc' | hx'
    · rw [hc'] at hc
      cases hc
    · exact hx hx'
  unfold World.insertJob
  rw [if_neg hfresh, hwait]
  split
  · next hfalse => cases hfalse
  · split
    · exact ⟨_, rfl⟩
    · split
      · exact ⟨_, rfl⟩
      · exact ⟨_, rfl⟩

/-- An `INSERT` of a job does not happen while another transaction holds the key. -/
theorem free_of_insertJob {x : Draw} {userId eventId : Uuid} {key : String}
    {r : Except DbError JobRow × World} (h : w.insertJob x n userId eventId key = some r) :
    ∀ v ∈ w.jobs, v.row.hasKey userId key → v.committed = true ∨ v.xmin = n := by
  intro v hv hkey
  by_contra hheld
  rw [not_or, Bool.not_eq_true] at hheld
  have hwait : w.jobs.any (fun v => v.row.hasKey userId key ∧ v.committed = false ∧ v.xmin ≠ n) =
      true :=
    List.any_eq_true.mpr ⟨v, hv, decide_eq_true ⟨hkey, hheld⟩⟩
  rw [World.insertJob, hwait] at h
  split at h
  · cases h
  · cases h

/-- An `INSERT` of a target with a new id, for a job that the transaction sees and a stored
connection. -/
theorem insertTarget_of_visible {x : Draw} {jobId connectionId : Uuid} {provider : String}
    {options : Value} (hfresh : x.uuid ∉ w.drawn) (hjob : ∃ j ∈ w.jobs.rows (some n), j.id = jobId)
    (hconnection : ∃ c ∈ w.connections, c.id = connectionId) :
    ∃ row : TargetRow,
      w.insertTarget x n jobId connectionId provider options =
        some (.ok (), w.addTarget n row) := by
  have hvisible : (w.jobs.rows (some n)).all (·.id ≠ jobId) = false := by
    obtain ⟨j, hj, hid⟩ := hjob
    rw [List.all_eq_false]
    exact ⟨j, hj, by simp [hid]⟩
  have hstored : w.connections.all (·.id ≠ connectionId) = false := by
    obtain ⟨c, hc, hid⟩ := hconnection
    rw [List.all_eq_false]
    exact ⟨c, hc, by simp [hid]⟩
  unfold World.insertTarget
  rw [if_neg hfresh, hvisible, hstored]
  exact ⟨_, rfl⟩

/-- An `INSERT` of a target with a new id does not wait. -/
theorem exists_insertTarget {x : Draw} (n : ℕ) (jobId connectionId : Uuid) (provider : String)
    (options : Value) (hfresh : x.uuid ∉ w.drawn) :
    ∃ r, w.insertTarget x n jobId connectionId provider options = some r := by
  unfold World.insertTarget
  rw [if_neg hfresh]
  split
  · exact ⟨_, rfl⟩
  · split
    · exact ⟨_, rfl⟩
    · exact ⟨_, rfl⟩

/-- An id with which a target is inserted is new. -/
theorem notMem_drawn_of_insertTarget {x : Draw} {jobId connectionId : Uuid} {provider : String}
    {options : Value} {r : Except DbError Unit × World}
    (h : w.insertTarget x n jobId connectionId provider options = some r) : x.uuid ∉ w.drawn := by
  intro hdrawn
  rw [World.insertTarget, if_pos hdrawn] at h
  cases h

/-- An id with which a job is inserted is new. -/
theorem notMem_drawn_of_insertJob {x : Draw} {userId eventId : Uuid} {key : String}
    {r : Except DbError JobRow × World} (h : w.insertJob x n userId eventId key = some r) :
    x.uuid ∉ w.drawn := by
  intro hdrawn
  rw [World.insertJob, if_pos hdrawn] at h
  cases h

/-- A new job has a fresh id, a free key and an event of its user. -/
theorem Inv.addJob (h : Inv env w) {row : JobRow} {targets : List PublishTarget}
    (hfresh : row.id ∉ w.drawn)
    (hkey : ∀ v ∈ w.jobs, ¬ v.row.hasKey row.userId row.idempotencyKey)
    (hevent : w.EventOwned row.toJobFixed) (hasked : w.Asked n row.toJobFixed targets) :
    Inv env (w.addJob n row) where
  jobIds := by
    refine Keyed.nodup_concat h.jobIds fun v hv (hid : v.row.id = row.id) => ?_
    exact hfresh (hid ▸ h.jobDrawn v hv)
  jobKeys := by
    exact Keyed.nodup_concat h.jobKeys fun v hv heq => hkey v hv (Prod.mk.inj heq)
  targetIds := h.targetIds
  connectionIds := h.connectionIds
  jobDrawn := by
    intro v hv
    rcases Table.mem_insert.mp hv with hv | rfl
    · exact List.mem_cons_of_mem _ (h.jobDrawn v hv)
    · exact List.mem_cons_self
  targetDrawn := fun t ht => List.mem_cons_of_mem _ (h.targetDrawn t ht)
  connectionDrawn := fun c hc => List.mem_cons_of_mem _ (h.connectionDrawn c hc)
  eventOwned := by
    intro v hv
    rcases Table.mem_insert.mp hv with hv | rfl
    · exact h.eventOwned v hv
    · exact hevent
  targetJob := by
    intro t ht
    obtain ⟨v, hv, hrest⟩ := h.targetJob t ht
    exact ⟨v, Table.mem_insert.mpr (Or.inl hv), hrest⟩
  asked := by
    intro v hv
    rcases Table.mem_insert.mp hv with hv | rfl
    · exact h.asked v hv
    · exact ⟨targets, hasked, fun hc => absurd hc Bool.false_ne_true⟩
  spawned := by
    intro j hj
    obtain ⟨v, hv, hrest⟩ := h.spawned j hj
    exact ⟨v, Table.mem_insert.mpr (Or.inl hv), hrest⟩
  idle := h.idle
  jobTraced := h.jobTraced
  targetTraced := h.targetTraced
  upserted := h.upserted
  once := h.once

theorem guar_addJob (h : Inv env w) {q : Request} (hself : Taken w (.request n q)) {row : JobRow}
    (hfresh : row.id ∉ w.drawn) : Guar (.request n q) w (w.addJob n row) where
  requests := List.prefix_refl _
  workers := fun _ hj => hj
  others := by
    intro r' hne htaken
    cases r' with
    | request m q' =>
        have hmn := number_ne hself htaken hne
        exact .of_rows ⟨rfl, rfl, rfl, rfl, fun _ hd => List.mem_cons_of_mem _ hd⟩
          (Table.pending_insert_of_ne hmn) rfl
          fun v hv hc => ⟨v, Table.mem_insert.mpr (Or.inl hv), hc, rfl, rfl⟩
    | worker j =>
        refine .of_rows ⟨rfl, rfl, rfl, rfl, fun _ hd => List.mem_cons_of_mem _ hd⟩ rfl
          (fun v hid => ?_) fun _ _ => Iff.rfl
        refine ⟨fun hv => ?_, fun hv => Table.mem_insert.mpr (Or.inl hv)⟩
        rcases Table.mem_insert.mp hv with hv | rfl
        · exact hv
        · -- the new id is none of the ids that have been drawn
          obtain ⟨u, hu, hid', -⟩ := h.spawned j htaken
          exact absurd (hid.trans hid'.symm ▸ h.jobDrawn u hu) hfresh
  evolves :=
    { trace := List.prefix_refl _
      targets := fun v hv hc => ⟨v, hv, hc, rfl, le_refl _, fun _ => rfl⟩
      jobs := fun v hv hc => ⟨v, Table.mem_insert.mpr (Or.inl hv), hc, rfl, fun _ => rfl⟩ }

/-- A new target is at a pending job of the transaction. -/
theorem Inv.addTarget (h : Inv env w) {row : TargetRow} {job : JobRow}
    (hfresh : row.id ∉ w.drawn) (hjob : (⟨n, false, job⟩ : Version JobRow) ∈ w.jobs)
    (hjobId : row.jobId = job.id) (hattempt : row.attempt = 0)
    (howned : w.ConnectionOwned env job.toJobFixed row.toTargetFixed) :
    Inv env (w.addTarget n row) where
  jobIds := h.jobIds
  jobKeys := h.jobKeys
  targetIds := by
    refine Keyed.nodup_concat h.targetIds fun v hv (hid : v.row.id = row.id) => ?_
    exact hfresh (hid ▸ h.targetDrawn v hv)
  connectionIds := h.connectionIds
  jobDrawn := fun v hv => List.mem_cons_of_mem _ (h.jobDrawn v hv)
  targetDrawn := by
    intro v hv
    rcases Table.mem_insert.mp hv with hv | rfl
    · exact List.mem_cons_of_mem _ (h.targetDrawn v hv)
    · exact List.mem_cons_self
  connectionDrawn := fun c hc => List.mem_cons_of_mem _ (h.connectionDrawn c hc)
  eventOwned := h.eventOwned
  targetJob := by
    intro t ht
    rcases Table.mem_insert.mp ht with ht | rfl
    · exact h.targetJob t ht
    · exact ⟨_, hjob, hjobId.symm, rfl, rfl, howned⟩
  asked := by
    intro v hv
    obtain ⟨targets, hasked, hperm⟩ := h.asked v hv
    refine ⟨targets, hasked, fun hc => ?_⟩
    -- the new target belongs to an uncommitted job
    have hne : row.jobId ≠ v.row.id := by
      intro heq
      have := h.eq_of_jobId hv hjob (heq.symm.trans hjobId)
      rw [this] at hc
      exact Bool.false_ne_true hc
    have htargets : (w.addTarget n row).targetsOf v.row.id = w.targetsOf v.row.id := by
      show ((w.targets.insert n row).map fun u => u.row.toTargetFixed).filter _ = _
      rw [Table.map_row_insert, List.filter_append]
      simp [hne, World.targetsOf]
    rw [htargets]
    exact hperm hc
  spawned := h.spawned
  idle := by
    intro t ht hfree
    rcases Table.mem_insert.mp ht with ht | rfl
    · exact h.idle t ht hfree
    · exact hattempt
  jobTraced := h.jobTraced
  targetTraced := by
    intro e he j t ht
    obtain ⟨v, hv, hrest⟩ := h.targetTraced e he j t ht
    exact ⟨v, Table.mem_insert.mpr (Or.inl hv), hrest⟩
  upserted := h.upserted
  once := h.once

theorem guar_addTarget (h : Inv env w) {q : Request} (hself : Taken w (.request n q))
    {row : TargetRow} {job : JobRow} (hjob : (⟨n, false, job⟩ : Version JobRow) ∈ w.jobs)
    (hjobId : row.jobId = job.id) : Guar (.request n q) w (w.addTarget n row) where
  requests := List.prefix_refl _
  workers := fun _ hj => hj
  others := by
    intro r' hne htaken
    cases r' with
    | request m q' =>
        have hmn := number_ne hself htaken hne
        exact .of_rows ⟨rfl, rfl, rfl, rfl, fun _ hd => List.mem_cons_of_mem _ hd⟩ rfl
          (Table.pending_insert_of_ne hmn) fun v hv hc => ⟨v, hv, hc, rfl, rfl⟩
    | worker j =>
        refine .of_rows ⟨rfl, rfl, rfl, rfl, fun _ hd => List.mem_cons_of_mem _ hd⟩ rfl
          (fun _ _ => Iff.rfl) fun v hid => ?_
        refine ⟨fun hv => ?_, fun hv => Table.mem_insert.mpr (Or.inl hv)⟩
        rcases Table.mem_insert.mp hv with hv | rfl
        · exact hv
        · -- a job with a worker is committed, and this one is not
          have hworker : job.id ∈ w.workers := (hjobId.symm.trans hid).symm ▸ htaken
          exact absurd (h.committed_of_worker hjob hworker) Bool.false_ne_true
  evolves :=
    { trace := List.prefix_refl _
      targets := fun v hv hc =>
        ⟨v, Table.mem_insert.mpr (Or.inl hv), hc, rfl, le_refl _, fun _ => rfl⟩
      jobs := fun v hv hc => ⟨v, hv, hc, rfl, fun _ => rfl⟩ }

end Service
