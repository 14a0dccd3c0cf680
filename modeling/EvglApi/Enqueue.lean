/-
# Enqueueing is all or nothing

What `enqueue_job` does, whichever of its statements fails and whichever element of the list
it rejects.

* `EnqueueOutcome` lists what a call may end with: an error that leaves every table as it
  was, the user's job with the key, or a new job with one target for each element.
* `World.opened` is the world inside the transaction; `opened_rollback` and `opened_commit`
  are its two ends.
* `returns_enqueueJob` is the specification of the function, with its loop in
  `returns_enqueueTargets`.
-/
import EvglApi.AtMostOnce

open Concurrency Mvcc

namespace Service

variable {env : Deployment} {w w' : World} {n : ℕ} {userId eventId : Uuid} {key : String}
  {targets : List PublishTarget} {job : JobRow} {rows : List TargetRow} {ids : List Uuid}

/-! ## What a call may end with -/

/-- Transaction `n` has done nothing that it has not ended, as one that is about to begin. -/
structure NotBegun (n : ℕ) (w : World) : Prop where
  idle : Idle n w
  sessions : ∀ s ∈ w.sessions, s.deletedBy ≠ some n
  missed : ∀ k ∈ w.missed, k.1 ≠ n

/-- A queued job of the user for the event, under a key that was unused, with a new id. -/
structure QueuedJob (w : World) (userId eventId : Uuid) (key : String) (job : JobRow) : Prop where
  id : job.id ∉ w.drawn
  user : job.userId = userId
  event : job.eventId = eventId
  idempotencyKey : job.idempotencyKey = key
  status : job.status = "queued"
  unused : ∀ v ∈ w.jobs, ¬ v.row.hasKey userId key

/-- The row of an element of the list: a queued target of the job at which nothing has been
tried, for a connection of the user and of the element's provider. -/
structure QueuedTarget (env : Deployment) (w : World) (userId : Uuid) (job : JobRow)
    (target : PublishTarget) (row : TargetRow) : Prop where
  job : row.jobId = job.id
  columns : row.toTargetFixed.columns = target.columns env
  status : row.status = "queued"
  attempt : row.attempt = 0
  connection : ∃ c ∈ w.connections, c.id = target.connectionId ∧ c.userId = userId ∧
    c.provider = env.asStr target.provider

/-- What a call of `enqueue_job` may end with, and the world after it. -/
inductive EnqueueOutcome (env : Deployment) (n : ℕ) (userId eventId : Uuid) (key : String)
    (targets : List PublishTarget) (w : World) : Except ApiError Store.EnqueueResult → World → Prop
  /-- Only identifiers have been drawn. -/
  | failed (e : ApiError) (ids : List Uuid) :
      EnqueueOutcome env n userId eventId key targets w (.error e) { w with drawn := ids }
  | existing (job : JobRow) (hmem : job ∈ w.jobs.rows none) (hkey : job.hasKey userId key) :
      EnqueueOutcome env n userId eventId key targets w (.ok ⟨job, false⟩) w
  | created (job : JobRow) (rows : List TargetRow) (ids : List Uuid)
      (hjob : QueuedJob w userId eventId key job)
      (hrows : List.Forall₂ (QueuedTarget env w userId job) targets rows) :
      EnqueueOutcome env n userId eventId key targets w (.ok ⟨job, true⟩)
        { w with
          jobs := w.jobs ++ [⟨n, true, job⟩]
          targets := w.targets ++ rows.map (⟨n, true, ·⟩)
          drawn := ids }

/-! ## Inside the transaction -/

/-- The world in which transaction `n` has missed the key and inserted the job and the
rows. -/
def World.opened (w : World) (n : ℕ) (userId : Uuid) (key : String) (job : JobRow)
    (rows : List TargetRow) (ids : List Uuid) : World :=
  { w with
    jobs := w.jobs.insert n job
    targets := w.targets ++ rows.map (⟨n, false, ·⟩)
    missed := w.missed ++ [(n, userId, key)]
    drawn := ids }

theorem opened_addTarget (row : TargetRow) :
    (w.opened n userId key job rows ids).addTarget n row =
      w.opened n userId key job (rows ++ [row]) (row.id :: ids) := by
  simp [World.addTarget, World.opened, Table.insert]

/-- The transaction sees its job. -/
theorem exists_opened_job :
    ∃ j ∈ (w.opened n userId key job rows ids).jobs.rows (some n), j.id = job.id := by
  have hmem : (⟨n, false, job⟩ : Version JobRow) ∈ w.jobs.insert n job :=
    Table.mem_insert.mpr (Or.inr rfl)
  refine ⟨job, Table.mem_rows.mpr ⟨_, hmem, ?_, rfl⟩, rfl⟩
  rw [Version.visibleTo, beq_self_eq_true, Bool.or_true]

theorem NotBegun.missed_filter (h : NotBegun n w) :
    (w.missed ++ [(n, userId, key)]).filter (·.1 ≠ n) = w.missed := by
  rw [List.filter_append, List.filter_eq_self.mpr fun k hk => decide_eq_true (h.missed k hk)]
  simp

theorem NotBegun.sessions_map (h : NotBegun n w) :
    (w.sessions.map fun s => if s.deletedBy = some n then { s with deletedBy := none } else s) =
      w.sessions :=
  (List.map_congr_left fun s hs => if_neg (h.sessions s hs)).trans (List.map_id _)

theorem NotBegun.sessions_filter (h : NotBegun n w) :
    w.sessions.filter (·.deletedBy ≠ some n) = w.sessions :=
  List.filter_eq_self.mpr fun s hs => decide_eq_true (h.sessions s hs)

/-- Only the identifiers are left after a rollback. -/
theorem opened_rollback (h : NotBegun n w) :
    (w.opened n userId key job rows ids).rollback n = { w with drawn := ids } := by
  have hjobs : Table.rollback n (w.jobs.insert n job) = w.jobs :=
    (Table.rollback_append_map [job]).trans (Table.rollback_of_pending h.idle.1)
  have htargets : Table.rollback n (w.targets ++ rows.map (⟨n, false, ·⟩)) = w.targets :=
    (Table.rollback_append_map rows).trans (Table.rollback_of_pending h.idle.2)
  rw [World.rollback, World.opened]
  simp only [hjobs, htargets, h.missed_filter, h.sessions_map]

/-- The job and the rows are there after a commit. -/
theorem opened_commit (h : NotBegun n w) :
    (w.opened n userId key job rows ids).commit n =
      { w with
        jobs := w.jobs ++ [⟨n, true, job⟩]
        targets := w.targets ++ rows.map (⟨n, true, ·⟩)
        drawn := ids } := by
  have hjobs : Table.commit n (w.jobs.insert n job) = w.jobs ++ [⟨n, true, job⟩] :=
    (Table.commit_append_map [job]).trans (by rw [Table.commit_of_pending h.idle.1]; rfl)
  have htargets : Table.commit n (w.targets ++ rows.map (⟨n, false, ·⟩)) =
      w.targets ++ rows.map (⟨n, true, ·⟩) := by
    rw [Table.commit_append_map, Table.commit_of_pending h.idle.2]
  rw [World.commit, World.opened]
  simp only [hjobs, htargets, h.missed_filter, h.sessions_filter]

/-- A transaction that has only missed the key leaves nothing. -/
theorem missed_rollback (h : NotBegun n w) :
    ({ w with missed := w.missed ++ [(n, userId, key)] } : World).rollback n = w := by
  rw [World.rollback]
  simp only [Table.rollback_of_pending h.idle.1, Table.rollback_of_pending h.idle.2,
    h.missed_filter, h.sessions_map]

theorem NotBegun.missed_self (h : NotBegun n w) : w.missed.filter (·.1 ≠ n) = w.missed :=
  List.filter_eq_self.mpr fun k hk => decide_eq_true (h.missed k hk)

theorem NotBegun.rollback (h : NotBegun n w) : w.rollback n = w := by
  rw [World.rollback]
  simp only [Table.rollback_of_pending h.idle.1, Table.rollback_of_pending h.idle.2,
    h.missed_self, h.sessions_map]

theorem NotBegun.commit (h : NotBegun n w) : w.commit n = w := by
  rw [World.commit]
  simp only [Table.commit_of_pending h.idle.1, Table.commit_of_pending h.idle.2, h.missed_self,
    h.sessions_filter]

/-! ## The function -/

/-- The elements of the list are for connections of the user, each of the provider of its
element. -/
def Publishable (env : Deployment) (w : World) (userId : Uuid) (targets : List PublishTarget) :
    Prop :=
  ∀ target ∈ targets,
    (∃ c ∈ w.connections, c.id = target.connectionId ∧ c.userId = userId) ∧
    ∀ c ∈ w.connections, c.id = target.connectionId → c.userId = userId →
      c.provider = env.asStr target.provider

/-- What a call can count on: its insertions do not wait, and a statement that fails is a
case of `B`. -/
structure Unblocked (ok : ∀ {β : Type}, Stmt β → Draw → World → Prop) (n : ℕ)
    (userId eventId : Uuid)
    (key : String) (w : World) (B : Prop) : Prop where
  job : ∀ {x w'}, ok (.query (.insertJob n userId eventId key)) x w' → w'.jobs = w.jobs →
    ∃ r, Stmt.exec (.query (.insertJob n userId eventId key)) x w' = some r
  target : ∀ {x w' jobId connectionId provider options},
    ok (.query (.insertTarget n jobId connectionId provider options)) x w' →
    ∃ r, Stmt.exec (.query (.insertTarget n jobId connectionId provider options)) x w' = some r
  fails : ∀ {β : Type} {q : Query β} {x w' text}, ok (.query q) x w' → x.fails = some text → B

section Walk

variable {ok : ∀ {β : Type}, Stmt β → Draw → World → Prop} {B : Prop}

/-- The loop inserts a target for each element, or ends with an error inside the
transaction. -/
theorem returns_enqueueTargets (hcalls : Unblocked ok n userId eventId key w B) :
    Returns (service env) ok (Store.enqueueTargets env n userId job.id targets)
      (fun _ w' => ∃ rows' ids', w' = w.opened n userId key job (rows ++ rows') ids' ∧
        List.Forall₂ (QueuedTarget env w userId job) targets rows')
      (fun _ w' => (∃ rows' ids', w' = w.opened n userId key job rows' ids') ∧
        (Publishable env w userId targets → B))
      (w.opened n userId key job rows ids) := by
  induction targets generalizing rows ids with
  | nil => exact Returns.pure ⟨[], ids, by rw [List.append_nil], .nil⟩
  | cons target targets ih =>
      have hhere : ∃ rows' ids', w.opened n userId key job rows ids =
          w.opened n userId key job rows' ids' := ⟨rows, ids, rfl⟩
      have hselect : ∀ x, Query.exec (.selectConnectionProvider n target.connectionId userId) x
          (w.opened n userId key job rows ids) = some (.ok ((w.connections.find? fun c =>
            c.id = target.connectionId ∧ c.userId = userId).map (·.provider)),
              w.opened n userId key job rows ids) := fun _ => rfl
      cases hfind : w.connections.find? fun c => c.id = target.connectionId ∧ c.userId = userId with
      | none =>
          rw [hfind] at hselect
          refine Returns.bind (Returns.query_of_eq hselect
            (fun x text hx hfails => ⟨hhere, fun _ => hcalls.fails hx hfails⟩) fun x _ => ?_)
          refine Returns.throw ⟨hhere, fun hpublishable => ?_⟩
          obtain ⟨⟨c, hc, howned⟩, -⟩ := hpublishable target List.mem_cons_self
          exact absurd (decide_eq_true howned) (List.find?_eq_none.mp hfind c hc)
      | some c =>
          obtain ⟨hc, hid, huser⟩ := Keyed.found hfind
          rw [hfind] at hselect
          refine Returns.bind (Returns.query_of_eq hselect
            (fun x text hx hfails => ⟨hhere, fun _ => hcalls.fails hx hfails⟩) fun x _ => ?_)
          show Returns _ _ (if _ then _ else _) _ _ _
          split
          · next hprovider =>
              refine Returns.throw ⟨hhere, fun hpublishable => ?_⟩
              exact absurd ((hpublishable target List.mem_cons_self).2 c hc hid huser) hprovider
          · next hprovider =>
              have hprovider := not_not.mp hprovider
              refine Returns.bind (Returns.query (fun x hx => hcalls.target hx)
                (fun x text hx hfails => ⟨hhere, fun _ => hcalls.fails hx hfails⟩)
                fun x a w' _ hexec => ?_)
              rcases insertTarget_cases hexec with ⟨e, rfl, rfl⟩ |
                ⟨row, rfl, rfl, -, hjob, hcolumns, hstatus, hattempt, -⟩
              · obtain ⟨row, hrow⟩ := insertTarget_of_visible (notMem_drawn_of_insertTarget hexec)
                  exists_opened_job ⟨c, hc, hid⟩
                obtain ⟨heq, -⟩ := Prod.mk.inj (Option.some.inj (hrow.symm.trans hexec))
                cases heq
              · rw [opened_addTarget]
                refine ih.mono ?_ ?_
                · rintro - w' ⟨rows', ids', rfl, hrows⟩
                  refine ⟨row :: rows', ids', by rw [List.append_assoc]; rfl, .cons ?_ hrows⟩
                  exact ⟨hjob, hcolumns, hstatus, hattempt, c, hc, hid, huser, hprovider⟩
                · rintro - w' ⟨hopened, hblame⟩
                  exact ⟨hopened, fun hpublishable => hblame fun t ht =>
                    hpublishable t (List.mem_cons_of_mem _ ht)⟩

/-- A key that is missed is unused if no other transaction holds it. -/
theorem NotBegun.unused_of_missed (h : NotBegun n w)
    (hfree : ∀ v ∈ w.jobs, v.row.hasKey userId key → v.committed = true ∨ v.xmin = n)
    (hmissed : ∀ job ∈ w.jobs.rows (some n), ¬ job.hasKey userId key) :
    ∀ v ∈ w.jobs, ¬ v.row.hasKey userId key := by
  intro v hv hkey
  have hc : v.committed = true :=
    (hfree v hv hkey).elim id (Table.pending_eq_nil_iff.mp h.idle.1 v hv)
  refine hmissed v.row (Table.mem_rows.mpr ⟨v, hv, ?_, rfl⟩) hkey
  rw [Version.visibleTo, hc, Bool.true_or]

/-- The specification of `enqueue_job`.  It has an outcome of the list, and an error only if a
statement has failed or the job cannot be enqueued. -/
theorem returns_enqueueJob (env : Deployment) (targets : List PublishTarget)
    (hcalls : Unblocked ok n userId eventId key w B) (hbegun : NotBegun n w) :
    Returns (service env) ok (Store.enqueueJob env n userId eventId key targets)
      (fun result w' => EnqueueOutcome env n userId eventId key targets w (.ok result) w')
      (fun e w' => EnqueueOutcome env n userId eventId key targets w (.error e) w' ∧
        ((∃ e ∈ w.events, e.id = eventId) → Publishable env w userId targets → B)) w := by
  have hself : ∀ e, EnqueueOutcome env n userId eventId key targets w (.error e) w :=
    fun e => .failed e w.drawn
  refine Returns.transaction
    (fun x text hx hfails => ⟨hself _, fun _ _ => hcalls.fails hx hfails⟩) ?_
  rcases selectJobByKey_cases w n userId key with ⟨job, hselect, hmem, hkey⟩ | ⟨hselect, hmissed⟩
  · -- the user has a job with the key
    rw [Table.rows_of_pending hbegun.idle.1] at hmem
    refine Returns.bind (Returns.query_of_eq (fun _ => hselect) (fun x text hx hfails => ?_)
      fun x _ => ?_)
    · rw [hbegun.rollback]
      exact ⟨hself _, fun _ _ => hcalls.fails hx hfails⟩
    · refine Returns.bind (Returns.query_of_eq (fun _ => rfl) (fun x text hx hfails => ?_)
        fun x _ => ?_)
      · rw [hbegun.rollback]
        exact ⟨hself _, fun _ _ => hcalls.fails hx hfails⟩
      · show EnqueueOutcome env n userId eventId key targets w _ (w.commit n)
        rw [hbegun.commit]
        exact .existing job hmem hkey
  · refine Returns.bind (Returns.query_of_eq (fun _ => hselect) (fun x text hx hfails => ?_)
      fun x _ => ?_)
    · rw [hbegun.rollback]
      exact ⟨hself _, fun _ _ => hcalls.fails hx hfails⟩
    · refine Returns.bind (Returns.query (fun x hx => hcalls.job hx rfl)
        (fun x text hx hfails => ?_) fun x a w' _ hexec => ?_)
      · rw [missed_rollback hbegun]
        exact ⟨hself _, fun _ _ => hcalls.fails hx hfails⟩
      · rcases insertJob_cases hexec with ⟨e, rfl, rfl⟩ |
          ⟨job, rfl, rfl, hid, huser, hevent, hkey, hstatus, hunused⟩
        · refine ⟨(missed_rollback hbegun).symm ▸ hself _, fun hevent => ?_⟩
          have hfree := free_of_insertJob hexec
          obtain ⟨row, -, -, hrow⟩ := insertJob_of_unused (notMem_drawn_of_insertJob hexec)
            (hbegun.unused_of_missed hfree hmissed) hevent
          obtain ⟨heq, -⟩ := Prod.mk.inj (Option.some.inj (hrow.symm.trans hexec))
          cases heq
        · have hopened : ({ w with missed := w.missed ++ [(n, userId, key)] } : World).addJob n job =
              w.opened n userId key job [] (job.id :: w.drawn) := by
            simp [World.addJob, World.opened]
          rw [hopened]
          refine Returns.bind ((returns_enqueueTargets hcalls).mono ?_ ?_)
          · rintro - w' ⟨rows, ids, rfl, hrows⟩
            refine Returns.bind (Returns.query_of_eq (fun _ => rfl) (fun x text hx hfails => ?_)
              fun x _ => ?_)
            · rw [opened_rollback hbegun]
              exact ⟨.failed _ ids, fun _ _ => hcalls.fails hx hfails⟩
            · show EnqueueOutcome env n userId eventId key targets w _ (World.commit n _)
              rw [opened_commit hbegun]
              exact .created job rows ids ⟨hid, huser, hevent, hkey, hstatus, hunused⟩ hrows
          · rintro e w' ⟨⟨rows, ids, rfl⟩, hblame⟩
            rw [opened_rollback hbegun]
            exact ⟨.failed _ ids, fun _ => hblame⟩

end Walk

/-! ## The theorem -/

/-- `enqueue_job` with nobody else at work on the store. -/
def enqueueAlone (env : Deployment) (n : ℕ) (userId eventId : Uuid) (key : String)
    (targets : List PublishTarget) (xs : List Draw) (w : World) :
    Option (Except ApiError Store.EnqueueResult × World) :=
  (Store.enqueueJob env n userId eventId key targets).run.runAlone (service env) xs w

/-- The identifiers of the draws are new. -/
structure NewIds (draws : Stream' Draw) (w : World) : Prop where
  distinct : Function.Injective fun i => (draws.get i).uuid
  new : ∀ i, (draws.get i).uuid ∉ w.drawn

/-- New identifiers stay new. -/
theorem feeds_newIds (P : Draw → Prop) :
    Feeds (service env) (fun {_} _ x w => x.uuid ∉ w.drawn ∧ P x) fun draws w =>
      NewIds draws w ∧ ∀ i, P (draws.get i) where
  ok _ h := ⟨h.1.new 0, h.2 0⟩
  step {β draws w st b w'} h hexec := by
    refine ⟨⟨fun i j hij => ?_, fun i hi => ?_⟩, fun i => h.2 (i + 1)⟩
    · exact Nat.succ.inj (h.1.distinct hij)
    · change Stmt.exec st draws.head w = some (b, w') at hexec
      rcases Stmt.exec_fresh hexec with hdrawn | ⟨-, hdrawn⟩
      · rw [hdrawn] at hi
        exact h.1.new (i + 1) hi
      · rw [hdrawn] at hi
        rcases List.mem_cons.mp hi with heq | hi
        · exact Nat.succ_ne_zero i (h.1.distinct heq)
        · exact h.1.new (i + 1) hi
  fork {draws w} r h := by
    cases r with
    | request m q => exact ⟨⟨h.1.distinct, h.1.new⟩, h.2⟩
    | worker j => exact ⟨⟨h.1.distinct, h.1.new⟩, h.2⟩

/-- No transaction is at work on a job with the key. -/
def KeyFree (w : World) (userId : Uuid) (key : String) : Prop :=
  ∀ v ∈ w.jobs, v.row.hasKey userId key → v.committed = true

/-- New identifiers let a call go on, and its statements fail only as the draws say. -/
theorem unblocked_of_newIds {P : Draw → Prop} {B : Prop} (hfree : KeyFree w userId key)
    (hB : ∀ x text, P x → x.fails = some text → B) :
    Unblocked (fun {_} _ x w => x.uuid ∉ w.drawn ∧ P x) n userId eventId key w B where
  job {x w'} hx hjobs := by
    cases hfails : x.fails with
    | some text => exact ⟨_, by rw [Stmt.exec, hfails]⟩
    | none =>
        obtain ⟨r, hr⟩ := exists_insertJob n eventId hx.1
          fun v hv hkey => Or.inl (hfree v (hjobs ▸ hv) hkey)
        exact ⟨r, by rw [Stmt.exec, hfails]; exact hr⟩
  target {x w' jobId connectionId provider options} hx := by
    cases hfails : x.fails with
    | some text => exact ⟨_, by rw [Stmt.exec, hfails]⟩
    | none =>
        obtain ⟨r, hr⟩ := exists_insertTarget n jobId connectionId provider options hx.1
        exact ⟨r, by rw [Stmt.exec, hfails]; exact hr⟩
  fails hx hfails := hB _ _ hx.2 hfails

/-- Enqueueing is all or nothing. -/
structure AllOrNothing (env : Deployment) (n : ℕ) (userId eventId : Uuid) (key : String)
    (targets : List PublishTarget) (w : World) : Prop where
  /-- Whatever the statements answer, a call that returns has one of the outcomes. -/
  outcome : ∀ xs r w', enqueueAlone env n userId eventId key targets xs w = some (r, w') →
    EnqueueOutcome env n userId eventId key targets w r w'
  /-- A call that has to wait for nobody returns. -/
  returns : KeyFree w userId key → ∀ draws, NewIds draws w →
    ∃ k r w', enqueueAlone env n userId eventId key targets (draws.take k) w = some (r, w')
  /-- After an error the key can be used again, and then the call succeeds if no statement
  fails and the targets are those of the user's connections. -/
  again : ∀ xs e w', enqueueAlone env n userId eventId key targets xs w = some (.error e, w') →
    KeyFree w userId key → ∀ m eventId' targets' draws, NotBegun m w →
      (∃ e ∈ w.events, e.id = eventId') → Publishable env w userId targets' →
      NewIds draws w' → (∀ i, (draws.get i).fails = none) →
        ∃ k result w'', enqueueAlone env m userId eventId' key targets' (draws.take k) w' =
          some (.ok result, w'')

/-- A call with new identifiers whose statements do not fail succeeds. -/
theorem exists_enqueued (hbegun : NotBegun n w) (hfree : KeyFree w userId key)
    (hevent : ∃ e ∈ w.events, e.id = eventId) (htargets : Publishable env w userId targets)
    {draws : Stream' Draw} (hids : NewIds draws w) (hfails : ∀ i, (draws.get i).fails = none) :
    ∃ k result w', enqueueAlone env n userId eventId key targets (draws.take k) w =
      some (.ok result, w') := by
  have hcalls : Unblocked (fun {_} _ x w => x.uuid ∉ w.drawn ∧ x.fails = none) n userId eventId key
      w False :=
    unblocked_of_newIds hfree fun x text hnone hsome => by
      rw [hnone] at hsome
      cases hsome
  have hreturns := returns_enqueueJob env targets hcalls hbegun
  obtain ⟨k, r, w', hrun, hr⟩ := hreturns.exists_run (feeds_newIds _) ⟨hids, hfails⟩
  cases r with
  | ok result => exact ⟨k, result, w', hrun⟩
  | error e => exact (hr.2 hevent htargets).elim

theorem enqueue_all_or_nothing (hbegun : NotBegun n w) :
    AllOrNothing env n userId eventId key targets w := by
  have houtcome : ∀ xs r w', enqueueAlone env n userId eventId key targets xs w = some (r, w') →
      EnqueueOutcome env n userId eventId key targets w r w' := by
    intro xs r w' hrun
    have hcalls : Unblocked (fun {_} st x w => ∃ r, Stmt.exec st x w = some r) n userId eventId
        key w True :=
      ⟨fun hx _ => hx, fun hx => hx, fun _ _ => trivial⟩
    have hr := (returns_enqueueJob env targets hcalls hbegun).of_run
      (fun hexec => ⟨_, hexec⟩) hrun
    cases r with
    | ok result => exact hr
    | error e => exact hr.1
  refine ⟨houtcome, fun hfree draws hids => ?_,
    fun xs e w' hrun hfree m eventId' targets' draws hm hevent htargets hids hfails => ?_⟩
  · have hcalls : Unblocked (fun {_} _ x w => x.uuid ∉ w.drawn ∧ True) n userId eventId key w
        True :=
      unblocked_of_newIds hfree fun _ _ _ _ => trivial
    have hreturns := returns_enqueueJob env targets hcalls hbegun
    obtain ⟨k, r, w', hrun, -⟩ := hreturns.exists_run (feeds_newIds _) ⟨hids, fun _ => trivial⟩
    exact ⟨k, r, w', hrun⟩
  · -- the tables are those of the first call
    cases houtcome xs _ w' hrun with
    | failed e ids =>
        have hbegun' : NotBegun m { w with drawn := ids } := ⟨hm.idle, hm.sessions, hm.missed⟩
        exact exists_enqueued hbegun' hfree hevent htargets hids hfails

/-! ## Two calls -/

namespace Sample

/-- User 1 has an event and an account. -/
def stocked : World :=
  { World.empty with
    events := [⟨20, 1, .null, 0⟩]
    connections := [⟨⟨10, 1, "craigslist", "account", 0⟩, "Account", .null, "envelope", 0⟩]
    drawn := [20, 10] }

/-- The element for an account with this identifier. -/
def element (connectionId : Uuid) : PublishTarget := ⟨connectionId, .craigslist, .null⟩

def enqueueDraws : List Draw := (List.range 9).map fun i => { uuid := 30 + i }

/-- Whether a call has created a job, and the numbers of jobs and targets after it. -/
def enqueueFacts (r : Option (Except ApiError Store.EnqueueResult × World)) :
    Option (Option Bool × ℕ × ℕ) :=
  r.map fun (r, w) => (r.toOption.map (·.created), w.jobs.length, w.targets.length)

theorem notBegun_stocked (n : ℕ) : NotBegun n stocked :=
  ⟨⟨rfl, rfl⟩, by simp [stocked, World.empty], by simp [stocked, World.empty]⟩

end Sample

/-- The call whose second element is for an unknown account leaves nothing, and the one for
the known account alone creates a job. -/
theorem enqueue_all_or_nothing_sample :
    Sample.enqueueFacts (enqueueAlone Sample.deployment 0 1 20 "key"
        [Sample.element 10, Sample.element 11] Sample.enqueueDraws Sample.stocked) =
      some (none, 0, 0) ∧
    Sample.enqueueFacts (enqueueAlone Sample.deployment 0 1 20 "key" [Sample.element 10]
        Sample.enqueueDraws Sample.stocked) = some (some true, 1, 1) ∧
    AllOrNothing Sample.deployment 0 1 20 "key" [Sample.element 10, Sample.element 11]
      Sample.stocked :=
  ⟨by decide +kernel, by decide +kernel, enqueue_all_or_nothing (Sample.notBegun_stocked 0)⟩

end Service
