/-
# The retried requests keep their discipline

A worker changes neither the jobs nor the held keys (`Stmt.Aside`).  A request goes
through the states `Unstarted`, `Missed`, `Inserted` and `Finished`, or from
`Unstarted` to `Replayed`; what the others do leaves each of them as it is.
-/
import EvglApi.Retries

open Concurrency Mvcc

namespace Service

variable {env : Deployment} {c : Retry} {w₀ w w' : World} {n : ℕ} {q : Request} {α β : Type}

/-! ## The worker -/

/-- A step that changes the targets and the record at most. -/
theorem apart_targets (targets : Table TargetRow) (trace : List Effect) :
    Apart c w { w with targets := targets, trace := trace } :=
  ⟨rfl, rfl, rfl, fun _ => Iff.rfl, rfl, rfl, fun _ hd => hd⟩

/-- A query of a worker is executed at once, and leaves the jobs and the held keys
alone. -/
theorem aside_query {k : Query β} (hk : (Stmt.query k).Aside) (x : Draw) (w : World) :
    ∃ b w', k.exec x w = some (.ok b, w') ∧ Apart c w w' := by
  cases k with
  | updateJobRunning id => exact ⟨_, _, rfl, apart_updateJob w id fun _ => rfl⟩
  | updateJobStatus id status =>
      have happart := apart_updateJob (c := c) w id
        (f := fun j => { j with status := status, updatedAt := x.now }) fun _ => rfl
      exact ⟨_, _, rfl, happart.events, happart.connections, happart.marks, happart.held,
        happart.requests, happart.workers, happart.drawn⟩
  | updateTargetRunning id attempt => exact ⟨_, _, rfl, apart_targets _ _⟩
  | updateTargetComplete id status result => exact ⟨_, _, rfl, apart_targets _ _⟩
  | updateTargetFailed id attempt error => exact ⟨_, _, rfl, apart_targets _ _⟩
  | selectEventDocument id ownerId => exact ⟨_, _, rfl, Apart.refl w⟩
  | selectConnection id userId => exact ⟨_, _, rfl, Apart.refl w⟩
  | selectJob id userId => exact ⟨_, _, rfl, Apart.refl w⟩
  | selectTargets jobId => exact ⟨_, _, rfl, Apart.refl w⟩
  | countTargets jobId status => exact ⟨_, _, rfl, Apart.refl w⟩
  | _ => exact hk.elim

/-- A statement that can be executed and whose execution leaves the jobs and the held
keys alone. -/
theorem aside_stmt {st : Stmt β} (hst : st.Aside) (w : World) :
    CanGo st w ∧ ∀ x b w', st.exec x w = some (b, w') → Apart c w w' := by
  cases st with
  | query k =>
      refine ⟨?_, fun x b w' hstep => ?_⟩
      · obtain ⟨b, w', hexec, -⟩ := aside_query (c := c) hst {} w
        exact ⟨{}, rfl, by rw [Stmt.exec]; exact Option.isSome_iff_exists.mpr ⟨_, hexec⟩⟩
      · rcases Stmt.exec_query hstep with ⟨text, -, -, rfl⟩ | ⟨-, hstep⟩
        · exact Apart.refl w'
        · obtain ⟨b', w'', hexec, happart⟩ := aside_query (c := c) hst x w
          obtain ⟨-, rfl⟩ := Prod.mk.inj (Option.some.inj (hexec.symm.trans hstep))
          exact happart
  | publish call =>
      refine ⟨⟨{}, rfl, rfl⟩, fun x b w' hstep => ?_⟩
      obtain ⟨-, rfl⟩ := Prod.mk.inj (Option.some.inj hstep)
      exact apart_targets _ _
  | emit job provider status attempt message publication =>
      refine ⟨⟨{}, rfl, rfl⟩, fun x b w' hstep => ?_⟩
      obtain ⟨-, rfl⟩ := Prod.mk.inj (Option.some.inj hstep)
      exact apart_targets _ _
  | _ => exact hst.elim

/-- The worker of a job keeps out of the way of the requests. -/
theorem wp_worker_aside (job : JobRow) (j : Uuid) :
    (retries env c w₀).wp (.worker j) (worker env job) ((retries env c w₀).post (.worker j)) w := by
  rw [worker, Discipline.wp_bind]
  have haside : Only Stmt.Aside (runWorker env job) := aside_runWorker job
  have hevery := Discipline.wp_of_every (D := retries env c w₀) (r := .worker j) (s := w)
    (A := fun _ => True) haside (fun _ _ _ _ => trivial)
    (fun {_ _} hst w hinv _ _ => ⟨(aside_stmt (c := c) hst w).1, fun x b w' _ hexec =>
      have happart := (aside_stmt (c := c) hst w).2 x b w' hexec
      ⟨happart.guar _, happart.phase hinv, trivial⟩⟩) trivial
  exact Discipline.wp_mono (fun _ _ _ => trivial) hevery

/-! ## The requests -/

/-- A handler of a retry returns without an error. -/
def noError (_ : ApiError) (_ : World) : Prop := False

/-- A query of request `n` that does not fail. -/
theorem keeps_retry {k : Query α} {Q : α → World → Prop}
    (h : ∀ w', RelyRetry c n w w' → Phase c w₀ w' → n < w'.requests.length →
      Taken w' (.request n q) → CanGo (.query k) w' ∧
      ∀ x a w'', LooksUpAlone k w' → k.exec x w' = some (a, w'') →
        GuarKey c (.request n q) w' w'' ∧ Phase c w₀ w'' ∧ ∃ b, a = .ok b ∧ Q b w'') :
    Keeps (retries env c w₀) (.request n q) (Api.query k) Q noError w := by
  refine Keeps.query fun w' hrely hinv htaken => ?_
  have hn : n < w'.requests.length := (List.getElem?_eq_some_iff.mp htaken).1
  obtain ⟨hgo, hstep⟩ := h w' hrely hinv hn htaken
  refine ⟨hgo, fun x text hfails hassume => ?_, fun x a w'' _ hassume hexec => ?_⟩
  · exact absurd (hfails.symm.trans hassume.1) (by simp)
  · obtain ⟨hguar, hphase, b, rfl, hQ⟩ := hstep x a w'' hassume.2 hexec
    exact ⟨hguar, hphase, hQ⟩

/-- A query that only reads. -/
theorem keeps_retry_read {k : Query α} {Q : α → World → Prop} {answer : World → α}
    (hread : ∀ x w, k.exec x w = some (.ok (answer w), w))
    (h : ∀ w', RelyRetry c n w w' → Phase c w₀ w' → Q (answer w') w') :
    Keeps (retries env c w₀) (.request n q) (Api.query k) Q noError w := by
  refine keeps_retry fun w' hrely hinv _ _ => ⟨⟨{}, rfl, by rw [Stmt.exec, hread]; rfl⟩, ?_⟩
  intro x a w'' _ hexec
  rw [hread] at hexec
  obtain ⟨rfl, rfl⟩ := Prod.mk.inj (Option.some.inj hexec)
  exact ⟨(Apart.refl w').guar _, hinv, _, rfl, h w' hrely hinv⟩

/-- Request `n` has inserted no job and does not hold the key. -/
structure Unstarted (c : Retry) (n : ℕ) (w : World) : Prop where
  own : ∀ v ∈ w.marks, v.xmin ≠ n
  held : ¬ c.Held n w

/-- Request `n` holds the key and has inserted no job. -/
structure Missed (c : Retry) (n : ℕ) (w : World) : Prop where
  own : ∀ v ∈ w.marks, v.xmin ≠ n
  held : c.Held n w

/-- Request `n` holds the key and has inserted the job. -/
structure Inserted (c : Retry) (n : ℕ) (job : JobFixed) (w : World) : Prop where
  held : c.Held n w
  key : c.Keyed job
  mark : ⟨n, false, job⟩ ∈ w.marks
  unspawned : job.id ∉ w.workers

/-- Request `n` has committed the job under the key. -/
structure Finished (c : Retry) (n : ℕ) (job : JobFixed) (w : World) : Prop where
  key : c.Keyed job
  mark : ⟨n, true, job⟩ ∈ w.marks
  unspawned : job.id ∉ w.workers

/-- A job that is stored under the key by another request. -/
def Replayed (c : Retry) (n : ℕ) (job : JobFixed) (w : World) : Prop :=
  ∃ v ∈ w.marks, v.committed = true ∧ c.Keyed v.row ∧ v.row = job ∧ v.xmin ≠ n

theorem Unstarted.of_rely (h : Unstarted c n w) (hrely : RelyRetry c n w w') : Unstarted c n w' :=
  ⟨fun v hv hx => h.own v (hrely.own v hv hx) hx, fun hheld => h.held (hrely.held.mp hheld)⟩

theorem Missed.of_rely (h : Missed c n w) (hrely : RelyRetry c n w w') : Missed c n w' :=
  ⟨fun v hv hx => h.own v (hrely.own v hv hx) hx, hrely.held.mpr h.held⟩

theorem Inserted.of_rely {job : JobFixed} (h : Inserted c n job w) (hrely : RelyRetry c n w w') :
    Inserted c n job w' :=
  ⟨hrely.held.mpr h.held, h.key, hrely.kept _ h.mark (Or.inr rfl),
    hrely.unspawned _ h.mark h.key rfl h.unspawned⟩

theorem Finished.of_rely {job : JobFixed} (h : Finished c n job w) (hrely : RelyRetry c n w w') :
    Finished c n job w' :=
  ⟨h.key, hrely.kept _ h.mark (Or.inl rfl), hrely.unspawned _ h.mark h.key rfl h.unspawned⟩

theorem Replayed.of_rely {job : JobFixed} (h : Replayed c n job w) (hrely : RelyRetry c n w w') :
    Replayed c n job w' := by
  obtain ⟨v, hv, hc, hrest⟩ := h
  exact ⟨v, hrely.kept v hv (Or.inl hc), hc, hrest⟩

/-- A job under the key that is not visible was inserted by a request that holds it. -/
theorem Phase.unused_of_find?_eq_none (h : Phase c w₀ w) (hfree : ∀ m, ¬ c.Held m w)
    (hfind : (w.jobs.rows (some n)).find? (·.hasKey c.user c.key) = none) :
    ∀ v ∈ w.marks, ¬ c.Keyed v.row := by
  intro v hv hkey
  cases hc : v.committed with
  | false => exact hfree _ (h.holder v hv hkey hc)
  | true =>
      obtain ⟨u, hu, hx, hc', hrow⟩ := Table.mem_mapRows.mp hv
      have hseen : u.row ∈ w.jobs.rows (some n) :=
        Table.mem_rows.mpr ⟨u, hu, by rw [Version.visibleTo, hc', hc]; rfl, rfl⟩
      have hnot := List.find?_eq_none.mp hfind u.row hseen
      refine hnot (decide_eq_true ?_)
      exact ⟨(congrArg JobFixed.userId hrow).trans hkey.1,
        (congrArg JobFixed.idempotencyKey hrow).trans hkey.2⟩

/-- The look-up of the key. -/
theorem keeps_lookUp (h : Unstarted c n w) :
    Keeps (retries env c w₀) (.request n q) (Api.query (.selectJobByKey n c.user c.key))
      (fun answer w =>
        match answer with
        | none => Missed c n w
        | some job => Unstarted c n w ∧ Replayed c n job.toJobFixed w) noError w := by
  refine keeps_retry fun w' hrely hinv hn htaken => ⟨⟨{}, rfl, ?_⟩, fun x a w'' hlook hexec => ?_⟩
  · show (w'.selectJobByKey n c.user c.key).isSome
    unfold World.selectJobByKey
    split <;> rfl
  · have h' := h.of_rely hrely
    -- while the statement is executed nobody holds the key
    have hfree : ∀ m, ¬ c.Held m w' := fun m hm => h'.held (hlook m hm ▸ hm)
    change w'.selectJobByKey n c.user c.key = some (a, w'') at hexec
    unfold World.selectJobByKey at hexec
    split at hexec
    · next job hfind =>
        obtain ⟨rfl, rfl⟩ := Prod.mk.inj (Option.some.inj hexec)
        refine ⟨(Apart.refl w').guar _, hinv, _, rfl, h', ?_⟩
        obtain ⟨hmem, hkey⟩ := Keyed.found hfind
        obtain ⟨v, hv, hseen, rfl⟩ := Table.mem_rows.mp hmem
        have hmark : ⟨v.xmin, v.committed, v.row.toJobFixed⟩ ∈ w'.marks :=
          Table.mem_mapRows.mpr ⟨v, hv, rfl, rfl, rfl⟩
        have hx : v.xmin ≠ n := h'.own _ hmark
        -- the request sees the row of another one, so it is committed
        have hc : v.committed = true := by
          rw [Version.visibleTo, Bool.or_eq_true, beq_iff_eq] at hseen
          exact hseen.resolve_right fun heq => hx (Option.some.inj heq).symm
        exact ⟨_, hmark, hc, hkey, rfl, hx⟩
    · next hfind =>
        obtain ⟨rfl, rfl⟩ := Prod.mk.inj (Option.some.inj hexec)
        have hunused := hinv.unused_of_find?_eq_none hfree hfind
        exact ⟨guar_miss htaken, phase_miss hinv hn hfree hunused, _, rfl, h'.own,
          held_miss.mpr (Or.inr rfl)⟩

/-- Some identifier has not been drawn. -/
theorem exists_fresh (w : World) : ∃ id, id ∉ w.drawn := by
  obtain ⟨id, hid⟩ := Infinite.exists_notMem_finset w.drawn.toFinset
  exact ⟨id, fun hmem => hid (List.mem_toFinset.mpr hmem)⟩

/-- Request `n` holds the key, so the key is unused, and the insertion succeeds. -/
theorem keeps_insert {e : EventRow} (he : e ∈ w₀.events) (heid : e.id = c.eventId)
    (hlater : w₀.requests.length ≤ n) (h : Missed c n w) :
    Keeps (retries env c w₀) (.request n q) (Api.query (.insertJob n c.user c.eventId c.key))
      (fun job w => Inserted c n job.toJobFixed w) noError w := by
  refine keeps_retry fun w' hrely hinv hn htaken => ?_
  have h' := h.of_rely hrely
  have hunused : ∀ v ∈ w'.marks, ¬ c.Keyed v.row := fun v hv hkey =>
    h'.own v hv (hinv.held n h'.held v hv hkey).2
  have hjobs : ∀ v ∈ w'.jobs, ¬ v.row.hasKey c.user c.key := fun v hv hkey =>
    hunused ⟨v.xmin, v.committed, v.row.toJobFixed⟩
      (Table.mem_mapRows.mpr ⟨v, hv, rfl, rfl, rfl⟩) hkey
  have hexec : ∀ x : Draw, x.uuid ∉ w'.drawn → ∃ row : JobRow, row.id = x.uuid ∧
      c.Keyed row.toJobFixed ∧
      w'.insertJob x n c.user c.eventId c.key = some (.ok row, w'.addJob n row) :=
    fun x hfresh => insertJob_of_unused hfresh hjobs ⟨e, hinv.events ▸ he, heid⟩
  refine ⟨?_, fun x a w'' _ hstep => ?_⟩
  -- the statement can be executed with an identifier that is new
  · obtain ⟨id, hid⟩ := exists_fresh w'
    obtain ⟨row, -, -, hrow⟩ := hexec { uuid := id } hid
    exact ⟨{ uuid := id }, rfl, Option.isSome_iff_exists.mpr ⟨_, hrow⟩⟩
  · change w'.insertJob x n c.user c.eventId c.key = some (a, w'') at hstep
    have hfresh := notMem_drawn_of_insertJob hstep
    obtain ⟨row, hid, hkey, hrow⟩ := hexec x hfresh
    obtain ⟨rfl, rfl⟩ := Prod.mk.inj (Option.some.inj (hrow.symm.trans hstep))
    refine ⟨guarKey_addJob htaken row, phase_addJob hinv hn hlater h'.held hunused, row, rfl,
      h'.held, hkey, ?_, ?_⟩
    · rw [marks_addJob]
      exact Table.mem_insert.mpr (Or.inr rfl)
    · intro hworker
      rw [hid] at hworker
      exact hfresh (hinv.workerDrawn _ hworker)

/-- The insertion of a target of the new job for a stored connection. -/
theorem keeps_target {job : JobFixed} {k : ConnectionRow} {provider : String} {options : Value}
    (hk : k ∈ w₀.connections) (h : Inserted c n job w) :
    Keeps (retries env c w₀) (.request n q)
      (Api.query (.insertTarget n job.id k.id provider options))
      (fun _ w => Inserted c n job w) noError w := by
  refine keeps_retry fun w' hrely hinv hn htaken => ?_
  have h' := h.of_rely hrely
  -- the request sees the job that it has inserted
  have hjob : ∃ j ∈ w'.jobs.rows (some n), j.id = job.id := by
    obtain ⟨v, hv, hx, -, hrow⟩ := Table.mem_mapRows.mp h'.mark
    refine ⟨v.row, Table.mem_rows.mpr ⟨v, hv, ?_, rfl⟩, congrArg JobFixed.id hrow⟩
    rw [Version.visibleTo, hx, beq_self_eq_true, Bool.or_true]
  have hexec : ∀ x : Draw, x.uuid ∉ w'.drawn → ∃ row : TargetRow,
      w'.insertTarget x n job.id k.id provider options = some (.ok (), w'.addTarget n row) :=
    fun x hfresh => insertTarget_of_visible hfresh hjob ⟨k, hinv.connections ▸ hk, rfl⟩
  refine ⟨?_, fun x a w'' _ hstep => ?_⟩
  · obtain ⟨id, hid⟩ := exists_fresh w'
    obtain ⟨row, hrow⟩ := hexec { uuid := id } hid
    exact ⟨{ uuid := id }, rfl, Option.isSome_iff_exists.mpr ⟨_, hrow⟩⟩
  · change w'.insertTarget x n job.id k.id provider options = some (a, w'') at hstep
    have hfresh := notMem_drawn_of_insertTarget hstep
    obtain ⟨row, hrow⟩ := hexec x hfresh
    obtain ⟨rfl, rfl⟩ := Prod.mk.inj (Option.some.inj (hrow.symm.trans hstep))
    have happart := apart_addTarget (c := c) w' n row
    exact ⟨happart.guar _, happart.phase hinv, (), rfl, h'.held, h'.key, h'.mark, h'.unspawned⟩

/-- The loop over the targets, all of whose connections are stored. -/
theorem keeps_targets {job : JobFixed} {targets : List PublishTarget}
    (hconnections : ∀ t ∈ targets, ∃ k,
      w₀.connections.find? (fun k => k.id = t.connectionId ∧ k.userId = c.user) = some k ∧
        k.provider = env.asStr t.provider) (h : Inserted c n job w) :
    Keeps (retries env c w₀) (.request n q) (Store.enqueueTargets env n c.user job.id targets)
      (fun _ w => Inserted c n job w) noError w := by
  induction targets generalizing w with
  | nil => exact Keeps.pure h
  | cons target targets ih =>
      obtain ⟨k, hfind, hprovider⟩ := hconnections target List.mem_cons_self
      obtain ⟨-, hid, -⟩ := Keyed.found hfind
      unfold Store.enqueueTargets
      refine Keeps.andThen (keeps_retry_read (Q := fun answer w =>
        answer = some (env.asStr target.provider) ∧ Inserted c n job w)
        (fun _ _ => rfl) fun w' hrely hinv => ⟨?_, h.of_rely hrely⟩) fun answer w h => ?_
      · rw [hinv.connections, hfind, Option.map_some, hprovider]
      · obtain ⟨rfl, h⟩ := h
        show Keeps _ _ (if _ then _ else _) _ _ _
        rw [if_neg (not_not.mpr rfl), ← hid]
        refine Keeps.andThen (keeps_target (List.mem_of_find?_eq_some hfind) h) fun _ w h => ?_
        exact ih (fun t ht => hconnections t (List.mem_cons_of_mem _ ht)) h

theorem keeps_commitKey {job : JobFixed} (h : Inserted c n job w) :
    Keeps (retries env c w₀) (.request n q) (Api.query (.commit n))
      (fun _ w => Finished c n job w) noError w := by
  refine keeps_retry fun w' hrely hinv hn htaken => ⟨⟨{}, rfl, rfl⟩, fun x a w'' _ hexec => ?_⟩
  have h' := h.of_rely hrely
  obtain ⟨rfl, rfl⟩ := Prod.mk.inj (Option.some.inj hexec)
  refine ⟨guarKey_commit htaken, phase_commit hinv h'.held, (), rfl, h'.key, ?_, h'.unspawned⟩
  rw [marks_commit]
  have hmem := Table.mem_commit_of_mem (n := n) h'.mark
  rwa [beq_self_eq_true, Bool.or_true] at hmem

theorem keeps_commitReplay {job : JobFixed} (h : Unstarted c n w) (hjob : Replayed c n job w) :
    Keeps (retries env c w₀) (.request n q) (Api.query (.commit n))
      (fun _ w => Replayed c n job w) noError w := by
  refine keeps_retry fun w' hrely hinv hn htaken => ⟨⟨{}, rfl, rfl⟩, fun x a w'' _ hexec => ?_⟩
  have h' := h.of_rely hrely
  obtain ⟨rfl, rfl⟩ := Prod.mk.inj (Option.some.inj hexec)
  have happart := apart_commit h'.own h'.held
  refine ⟨happart.guar _, happart.phase hinv, (), rfl, ?_⟩
  have hjob' := hjob.of_rely hrely
  unfold Replayed at hjob' ⊢
  rwa [happart.marks]

/-- The enqueueing of the job: the request holds its own job, or the one that is stored. -/
def Enqueues (c : Retry) (n : ℕ) (result : Store.EnqueueResult) (w : World) : Prop :=
  if result.created then Finished c n result.job.toJobFixed w
  else Replayed c n result.job.toJobFixed w

theorem keeps_enqueue (hready : Ready env c w₀) (hlater : w₀.requests.length ≤ n)
    (h : Unstarted c n w) :
    Keeps (retries env c w₀) (.request n q)
      (Store.enqueueJob env n c.user c.eventId c.key c.targets) (Enqueues c n) noError w := by
  obtain ⟨e, draft, hfind, -⟩ := hready.event
  obtain ⟨-, heid, -⟩ := Keyed.found hfind
  have hbegin : Keeps (retries env c w₀) (.request n q) (Api.query (.begin n))
      (fun _ => Unstarted c n) noError w :=
    keeps_retry_read (fun _ _ => rfl) fun w' hrely _ => h.of_rely hrely
  unfold Store.enqueueJob
  refine Keeps.andThen hbegin fun _ w h => ?_
  refine Keeps.rollbackOnError (Keeps.mono (E := noError) ?_ (fun _ _ h => h) fun _ _ h => h.elim)
  refine Keeps.andThen (keeps_lookUp h) fun answer w h => ?_
  cases answer with
  | some existing =>
      refine Keeps.andThen (keeps_commitReplay h.1 h.2) fun _ w h => ?_
      exact Keeps.pure h
  | none =>
      refine Keeps.andThen (keeps_insert (List.mem_of_find?_eq_some hfind) heid hlater h)
        fun job w h => ?_
      refine Keeps.andThen (keeps_targets hready.connections h) fun _ w h => ?_
      refine Keeps.andThen (keeps_commitKey h) fun _ w h => ?_
      exact Keeps.pure h

/-! ## The worker of the new job -/

theorem phase_spawn (h : Phase c w₀ w) {job : JobFixed} (hjob : Finished c n job w) :
    Phase c w₀ (w.enter (.worker job.id)) :=
  { h with
    workerDrawn := by
      intro j hj
      rcases List.mem_append.mp hj with hj | hj
      · exact h.workerDrawn j hj
      · rw [List.mem_singleton.mp hj]
        exact h.jobDrawn _ hjob.mark }

theorem guarKey_spawn (h : Phase c w₀ w) (hself : Taken w (.request n q)) {job : JobFixed}
    (hjob : Finished c n job w) : GuarKey c (.request n q) w (w.enter (.worker job.id)) where
  requests := List.prefix_refl _
  workers := fun _ hj => List.mem_append_left _ hj
  others := by
    intro r' hne htaken
    cases r' with
    | request m q' =>
        have hmn := number_ne hself htaken hne
        refine ⟨List.prefix_refl _, Iff.rfl, fun v hv _ => hv, fun v hv _ => hv, ?_⟩
        intro v hv hkey hx _ _
        -- there is one job under the key, and request `n` has inserted it
        obtain rfl := h.unique v hv _ hjob.mark hkey hjob.key
        exact hmn hx.symm
    | worker j => trivial

theorem keeps_getEvent_retry (hready : Ready env c w₀) (h : Unstarted c n w) :
    Keeps (retries env c w₀) (.request n q) (Store.getEvent env c.user c.eventId)
      (fun _ => Unstarted c n) noError w := by
  obtain ⟨e, draft, hfind, hdraft⟩ := hready.event
  unfold Store.getEvent
  refine Keeps.andThen (keeps_retry_read (Q := fun answer w =>
    answer = some e.document ∧ Unstarted c n w) (fun _ _ => rfl)
      fun w' hrely hinv => ⟨?_, h.of_rely hrely⟩) fun answer w h => ?_
  · rw [hinv.events, hfind]
    rfl
  · obtain ⟨rfl, h⟩ := h
    refine Keeps.result (fun _ _ => h) fun e' he => ?_
    rw [hdraft] at he
    cases he

/-- The handler of a retry. -/
theorem keeps_retried (hready : Ready env c w₀) (hlater : w₀.requests.length ≤ n)
    (h : Unstarted c n w) :
    Keeps (retries env c w₀) (.request n q)
      (Events.crossPost env n c.user c.eventId (some c.key) c.targets)
      (fun response => Agreed c n (.ok response)) noError w := by
  unfold Events.crossPost
  refine Keeps.bind (Keeps.result (fun _ _ => ?_) fun e he => ?_)
  · refine Keeps.andThen (keeps_getEvent_retry hready h) fun _ w h => ?_
    refine Keeps.andThen (keeps_enqueue hready hlater h) fun enqueued w h => ?_
    unfold Enqueues at h
    show Keeps _ _ (if _ then _ else _) _ _ _
    split
    · next hcreated =>
        rw [if_pos hcreated] at h
        refine Keeps.bind (Keeps.spawn fun w' hrely hinv htaken => ?_)
        have h' := h.of_rely hrely
        refine ⟨h'.unspawned, guarKey_spawn hinv htaken h', phase_spawn hinv h',
          List.mem_append_right _ (List.mem_singleton_self _), wp_worker_aside _ _, ?_⟩
        exact Keeps.pure ⟨202, enqueued.job, rfl, Or.inl rfl, _, h'.mark, rfl, h'.key, rfl,
          fun _ => rfl, fun _ => rfl⟩
    · next hcreated =>
        rw [if_neg hcreated] at h
        -- the job was stored by another request, so no worker is started
        obtain ⟨v, hv, hc, hkey, hrow, hx⟩ := h
        exact Keeps.pure ⟨200, enqueued.job, rfl, Or.inr rfl, v, hv, hc, hkey, hrow,
          ⟨fun h => absurd h (by decide), fun h => absurd h hx⟩⟩
  · rw [hready.valid] at he
    cases he

/-! ## Arrivals -/

theorem phase_ready (hready : Ready env c w) : Phase c w w where
  events := rfl
  connections := rfl
  unique := fun v hv _ _ hkey => absurd hkey (hready.unused v hv)
  later := fun v hv hkey => absurd hkey (hready.unused v hv)
  alone := fun m _ hm => absurd hm (hready.unheld m)
  held := fun m hm => absurd hm (hready.unheld m)
  holder := fun v hv hkey => absurd hkey (hready.unused v hv)
  jobDrawn := by
    intro v hv
    obtain ⟨u, hu, -, -, hrow⟩ := Table.mem_mapRows.mp hv
    exact hrow ▸ hready.inv.jobDrawn u hu
  workerDrawn := by
    intro j hj
    obtain ⟨v, hv, rfl, -⟩ := hready.inv.spawned j hj
    exact hready.inv.jobDrawn v hv
  below := by
    intro v hv
    obtain ⟨u, hu, hx, -⟩ := Table.mem_mapRows.mp hv
    exact hx ▸ hready.inv.xmin_lt hu
  heldBelow := fun m hm => absurd hm (hready.unheld m)
  grown := le_refl _

/-- A step that starts a request. -/
theorem phase_arrive (h : Phase c w₀ w) (q : Request) (n : ℕ) :
    Phase c w₀ (w.enter (.request n q)) :=
  have hlength : w.requests.length ≤ (w.requests ++ [q]).length := by simp
  { h with
    below := fun v hv => (h.below v hv).trans_le hlength
    heldBelow := fun m hm => (h.heldBelow m hm).trans_le hlength
    grown := h.grown.trans hlength }

theorem guarKey_arrive (q : Request) (n : ℕ) (r : Role) :
    GuarKey c r w (w.enter (.request n q)) where
  requests := List.prefix_append _ _
  workers := fun _ hj => hj
  others := by
    intro r' _ _
    cases r' with
    | request m q' =>
        exact ⟨List.prefix_append _ _, Iff.rfl, fun _ hv _ => hv, fun _ hv _ => hv,
          fun _ _ _ _ hj => hj⟩
    | worker j => trivial

/-- Every retry starts a program that keeps the discipline. -/
theorem hospitable_retries (hready : Ready env c w₀) : (retries env c w₀).Hospitable := by
  rintro q w rfl hinv
  refine ⟨?_, guarKey_arrive _ w.requests.length _, phase_arrive hinv _ w.requests.length, ?_, ?_⟩
  · show w.requests[w.requests.length]? ≠ some _
    rw [List.getElem?_eq_none (le_refl _)]
    simp
  · show (w.requests ++ [_])[w.requests.length]? = some _
    simp
  · have hunstarted : Unstarted c w.requests.length
        (w.enter (.request w.requests.length c.request)) :=
      ⟨fun v hv => (hinv.below v hv).ne, fun hm => (hinv.heldBelow _ hm).ne rfl⟩
    show (retries env c w₀).wp _ (respond env _ _) _ _
    rw [respond, Discipline.wp_bind]
    refine Discipline.wp_mono (fun r w h => ?_) (keeps_retried hready hinv.grown hunstarted)
    cases r with
    | ok response => exact h
    | error e => exact h.elim

end Service
