/-
# Tenant noninterference

Two stores that agree on the rows of a user, and may differ in everything else, cannot
be told apart by the user's operations: an operation has the same result on both
and leaves them agreeing on the user's rows.  It changes no row of another user.

The lists of connections and of events are the same up to ties: `ORDER BY` leaves the order
of rows with equal sort columns open, and with it which of them are on a full list of events.
-/
import EvglApi.TenantViews
import EvglApi.Announcements
import EvglApi.Envelopes
import Mathlib.Data.Prod.Lex

open Concurrency Mvcc

namespace Service

variable {env : Deployment} {p : Pool Stmt Role Outcome World} {w V : World} {u : Uuid} {n : ℕ}
  {ids : List Uuid} {α ε : Type}

/-! ## Distinct ids and keys -/

/-- The ids of the rows and the keys by which they are looked up are distinct. -/
structure World.Distinct (w : World) : Prop where
  eventIds : (w.events.map (·.id)).Nodup
  connectionIds : (w.connections.map (·.id)).Nodup
  accounts : (w.connections.map (·.account)).Nodup
  jobIds : (w.jobs.map (·.row.id)).Nodup
  jobKeys : (w.jobs.map fun v => (v.row.userId, v.row.idempotencyKey)).Nodup
  targetIds : (w.targets.map (·.row.id)).Nodup

/-- The keys of a store that the service reaches are distinct. -/
theorem Reachable.distinct (h : Reachable env p) : p.shared.Distinct where
  eventIds := Multiset.coe_nodup.mp (nodup_eventIds h)
  connectionIds := h.poolOk.inv.connectionIds
  accounts := by
    obtain ⟨ls, hrun⟩ := h
    exact (envelopeInv_of_run hrun).2.accounts
  jobIds := h.poolOk.inv.jobIds
  jobKeys := h.poolOk.inv.jobKeys
  targetIds := h.poolOk.inv.targetIds

/-- Distinct keys are distinct in a part of the table. -/
theorem nodup_part {ρ κ : Type} {t : Table ρ} (key : ρ → κ) (P : ρ → Bool)
    (h : (t.map fun v => key v.row).Nodup) : ((t.part P n).map fun v => key v.row).Nodup := by
  rw [Table.part, List.map_map]
  exact (List.filter_sublist.map _).nodup h

theorem World.Distinct.only (h : w.Distinct) : (w.only u n ids).Distinct where
  eventIds := (List.filter_sublist.map _).nodup h.eventIds
  connectionIds := (List.filter_sublist.map _).nodup h.connectionIds
  accounts := (List.filter_sublist.map _).nodup h.accounts
  jobIds := nodup_part (fun j : JobRow => j.id) (fun j => is u j.userId) h.jobIds
  jobKeys :=
    nodup_part (fun j : JobRow => (j.userId, j.idempotencyKey)) (fun j => is u j.userId) h.jobKeys
  targetIds := nodup_part (fun t : TargetRow => t.id) (w.owns (is u)) h.targetIds

/-! ## Rules -/

namespace Sees

variable {Q : α → World → Prop}

/-- A proper statement, with what its execution on the view says. -/
theorem stmt {st : Stmt α} (hst : st.Proper u n V)
    (h : ∀ x a V', st.exec x V = some (a, V') → Q a V') :
    Sees (service env) (observer u n ids) (Tries.stmt st : Api α) Q V :=
  fun y => ⟨_, fun _ hx => shows_of_proper hst hx, fun a V' hexec => h y a V' hexec⟩

theorem attempt {st : Stmt (Except ε α)} {wrap : ε → ApiError} (hst : st.Proper u n V)
    (h : ∀ x a V', st.exec x V = some (.ok a, V') → Q a V') :
    Sees (service env) (observer u n ids) (Tries.attempt wrap st : Api α) Q V := by
  refine fun y => ⟨_, fun _ hx => shows_of_proper hst hx, fun b V' hexec => ?_⟩
  cases b with
  | error e => trivial
  | ok a => exact h y a V' hexec

/-- A proper query, with what its execution on the view says. -/
theorem query {q : Query α} (hq : q.Proper u n V)
    (h : ∀ x a V', q.exec x V = some (.ok a, V') → Q a V') :
    Sees (service env) (observer u n ids) (Api.query q) Q V := by
  have hproper : (Stmt.query q).Proper u n V := hq
  refine attempt hproper fun x a V' hexec => ?_
  obtain ⟨text, -, heq, -⟩ | ⟨-, hexec⟩ := Stmt.exec_query hexec
  · cases heq
  · exact h x a V' hexec

/-- A program whose statements are proper on every view. -/
theorem of_proper {p : Api α} (hp : Only (fun st => ∀ V, st.Proper u n V) p) :
    Sees (service env) (observer u n ids) p (fun _ _ => True) V :=
  Sees.of_only hp fun hst V _ => ⟨_, fun _ hx => shows_of_proper (hst V) hx⟩

/-- An early return rolls the transaction back. -/
theorem transaction {p : Api α} (h : Sees (service env) (observer u n ids) p Q V) :
    Sees (service env) (observer u n ids) (Api.transaction n p) Q V := by
  refine Sees.bind (query trivial fun x a V' hexec => ?_)
  obtain ⟨-, rfl⟩ := Prod.mk.inj (Option.some.inj hexec)
  show (observer u n ids).wp _ (p.run.bind _) (either Q fun _ _ => True) V
  rw [Observer.wp_bind]
  refine Observer.wp_mono (fun a V h => ?_) h
  cases a with
  | ok a => exact h
  | error e =>
      have hproper : (Stmt.rollback n).Proper u n V := rfl
      exact fun y => ⟨_, fun _ hx => shows_of_proper hproper hx, fun _ _ _ => trivial⟩

theorem spawn {j : Uuid} {child : Prog Stmt Role Outcome Outcome} {Q : Unit → World → Prop}
    (h : Q () V) : Sees (service env) (observer u n ids) (Api.spawn (.worker j) child) Q V :=
  ⟨_, shows_spawn j, h⟩

end Sees

/-! ## The operations -/

/-- The operations of a user on events, connections and jobs.  `getConnection` is the
function of the store; no handler shows a single connection. -/
inductive Operation
  | createEvent (input : CreateEventInput)
  | listEvents
  | getEvent (id : Uuid)
  | listConnections
  | getConnection (id : Uuid)
  | deleteConnection (id : Uuid)
  | createManual (input : ManualConnectionInput)
  | crossPost (eventId : Uuid) (key : Option String) (targets : List PublishTarget)
  | getJob (jobId : Uuid)

/-- The program of the operation of user `u`, as request number `n`. -/
def Operation.program (env : Deployment) (n : ℕ) (u : Uuid) : Operation → Api Response
  | .createEvent input => handle env n (.createEvent u input)
  | .listEvents => handle env n (.listEvents u)
  | .getEvent id => handle env n (.getEvent u id)
  | .listConnections => handle env n (.listConnections u)
  | .getConnection id => do
      let connection ← Store.getConnection u id
      pure (.connection connection)
  | .deleteConnection id => handle env n (.deleteConnection u id)
  | .createManual input => handle env n (.createManual u input)
  | .crossPost eventId key targets => handle env n (.crossPost u eventId key targets)
  | .getJob jobId => handle env n (.getJob u jobId)

/-! ## What the operations see -/

/-- An event that is read is in the view. -/
theorem sees_getEvent {id : Uuid} (hids : (V.events.map (·.id)).Nodup) :
    Sees (service env) (observer u n ids) (Store.getEvent env u id)
      (fun _ V' => V' = V ∧ ∃ e ∈ V.events, e.id = id) V := by
  refine Sees.bind (Sees.query ⟨rfl, hids⟩ fun x answer V' hexec => ?_)
  obtain ⟨hanswer, rfl⟩ := Prod.mk.inj (Option.some.inj hexec)
  cases answer with
  | none => exact Sees.throw _
  | some document =>
      obtain ⟨e, hfind, -⟩ := Option.map_eq_some_iff.mp (Except.ok.inj hanswer)
      obtain ⟨he, hid, -⟩ := Keyed.found hfind
      exact Sees.result fun _ _ => ⟨rfl, e, he, hid⟩

theorem sees_getConnection {id : Uuid} (hids : (V.connections.map (·.id)).Nodup) :
    Sees (service env) (observer u n ids) (Store.getConnection u id) (fun _ _ => True) V := by
  refine Sees.bind (Sees.query ⟨rfl, hids⟩ fun x answer V' hexec => ?_)
  cases answer with
  | none => exact Sees.throw _
  | some connection => exact Sees.pure trivial

theorem sees_deleteConnection {id : Uuid} (hids : (V.connections.map (·.id)).Nodup) :
    Sees (service env) (observer u n ids) (Oauth.deleteConnection u id) (fun _ _ => True) V := by
  refine Sees.bind (Sees.bind (Sees.query ⟨rfl, hids⟩ fun x rows V' hexec => ?_))
  show Sees _ _ (if _ then _ else _) _ _
  split
  · exact Sees.throw _
  · exact Sees.pure (Sees.pure trivial)

theorem sees_createManual (input : ManualConnectionInput)
    (haccounts : (V.connections.map (·.account)).Nodup) :
    Sees (service env) (observer u n ids) (Oauth.createManual env u input)
      (fun _ _ => True) V := by
  unfold Oauth.createManual
  cases env.providers input.provider with
  | none => exact Sees.throw _
  | some adapter =>
      show Sees _ _ (if _ then _ else if _ then _ else _) _ _
      split
      · exact Sees.throw _
      · split
        · exact Sees.throw _
        · refine Sees.bind (Sees.result fun _ _ => Sees.bind (Sees.mono
            (Q := fun _ V' => V' = V) ?_ fun secret V' hsame => ?_))
          · cases input.secret with
            | none =>
                exact Sees.stmt trivial fun x a V' hexec =>
                  (Prod.mk.inj (Option.some.inj hexec)).2.symm
            | some secret => exact Sees.pure rfl
          · obtain rfl := hsame
            -- the envelope is recorded, and the connections stay as they are
            refine Sees.bind (Sees.attempt trivial fun x envelope V'' hexec => ?_)
            obtain ⟨e, heq, -⟩ | ⟨envelope, -, rfl⟩ := Stmt.exec_encrypt hexec
            · cases heq
            · exact Sees.bind (Sees.query ⟨rfl, haccounts⟩ fun _ _ _ _ => Sees.pure trivial)

theorem sees_getJob {jobId : Uuid} (hjobs : (V.jobs.map (·.row.id)).Nodup)
    (htargets : (V.targets.map (·.row.id)).Nodup) :
    Sees (service env) (observer u n ids) (Jobs.get u jobId) (fun _ _ => True) V := by
  unfold Jobs.get Store.getJob
  refine Sees.bind (Sees.mono (Q := fun _ _ => True) (Sees.bind ?_) fun _ _ _ => Sees.pure trivial)
  refine Sees.query ⟨rfl, hjobs⟩ fun x answer V' hexec => ?_
  obtain ⟨hanswer, rfl⟩ := Prod.mk.inj (Option.some.inj hexec)
  cases answer with
  | none => exact Sees.throw _
  | some job =>
      -- the targets are those of a job that has been found in the view
      have hfind := Except.ok.inj hanswer
      obtain ⟨hmem, hid, -⟩ := Keyed.found hfind
      obtain ⟨v, hv, -, rfl⟩ := Table.mem_rows.mp hmem
      exact Sees.bind (Sees.query ⟨⟨v, hv, hid⟩, htargets⟩ fun _ _ _ _ => Sees.pure trivial)

/-- The job that the transaction has inserted. -/
def OwnNew (n : ℕ) (jobId : Uuid) (V : World) : Prop :=
  ∃ v ∈ V.jobs, v.row.id = jobId ∧ v.committed = false ∧ v.xmin = n

theorem ownNew_addJob (V : World) (job : JobRow) : OwnNew n job.id (V.addJob n job) :=
  ⟨⟨n, false, job⟩, Table.mem_insert.mpr (Or.inr rfl), rfl, rfl, rfl⟩

/-- The insertions go to the job that the transaction has just inserted. -/
theorem sees_enqueueTargets {jobId : Uuid} (targets : List PublishTarget) (h : OwnNew n jobId V)
    (hids : (V.connections.map (·.id)).Nodup) :
    Sees (service env) (observer u n ids) (Store.enqueueTargets env n u jobId targets)
      (fun _ _ => True) V := by
  induction targets generalizing V with
  | nil => exact Sees.pure trivial
  | cons target targets ih =>
      unfold Store.enqueueTargets
      refine Sees.bind (Sees.query ⟨rfl, hids⟩ fun x answer V' hexec => ?_)
      obtain ⟨hanswer, rfl⟩ := Prod.mk.inj (Option.some.inj hexec)
      cases answer with
      | none => exact Sees.throw _
      | some provider =>
          obtain ⟨c, hfind, -⟩ := Option.map_eq_some_iff.mp (Except.ok.inj hanswer)
          obtain ⟨hmem, hid, -⟩ := Keyed.found hfind
          show Sees _ _ (if _ then _ else _) _ _
          split
          · exact Sees.throw _
          · refine Sees.bind (Sees.query ⟨rfl, h, c, hmem, hid⟩ fun x a V' hexec => ?_)
            obtain ⟨e, he, -⟩ | ⟨row, -, rfl, -⟩ := insertTarget_cases hexec
            · cases he
            · exact ih h hids

theorem sees_enqueueJob {eventId : Uuid} (key : String) (targets : List PublishTarget)
    (hevent : ∃ e ∈ V.events, e.id = eventId) (hids : (V.connections.map (·.id)).Nodup)
    (hkeys : (V.jobs.map fun v => (v.row.userId, v.row.idempotencyKey)).Nodup) :
    Sees (service env) (observer u n ids) (Store.enqueueJob env n u eventId key targets)
      (fun _ _ => True) V := by
  refine Sees.transaction (Sees.bind (Sees.query ⟨rfl, rfl, hkeys⟩ fun x answer V' hexec => ?_))
  change V.selectJobByKey n u key = some (.ok answer, V') at hexec
  obtain ⟨job, hfound, -⟩ | ⟨hmissed, -⟩ := selectJobByKey_cases V n u key
  · rw [hfound] at hexec
    cases hexec
    exact Sees.bind (Sees.query rfl fun _ _ _ _ => Sees.pure trivial)
  · rw [hmissed] at hexec
    cases hexec
    -- the look-up may take the key, but it leaves the tables alone
    refine Sees.bind (Sees.query ⟨rfl, rfl, hevent⟩ fun x job V'' hexec => ?_)
    obtain ⟨e, he, -⟩ | ⟨row, hrow, rfl, -⟩ := insertJob_cases hexec
    · cases he
    · obtain rfl := Except.ok.inj hrow
      refine Sees.bind (Sees.mono (sees_enqueueTargets targets ?_ ?_) fun _ V _ => ?_)
      · exact ownNew_addJob _ job
      · exact hids
      · exact Sees.bind (Sees.query rfl fun _ _ _ _ => Sees.pure trivial)

/-- The whole of `cross_post` sees no row of another user. -/
theorem sees_crossPost (eventId : Uuid) (key : Option String) (targets : List PublishTarget)
    (hV : V.Distinct) :
    Sees (service env) (observer u n ids) (Events.crossPost env n u eventId key targets)
      (fun _ _ => True) V := by
  unfold Events.crossPost
  cases key with
  | none => exact Sees.throw _
  | some key =>
      refine Sees.bind (Sees.result fun _ _ =>
        Sees.bind ((sees_getEvent hV.eventIds).mono fun event V' hread => ?_))
      obtain ⟨rfl, hevent⟩ := hread
      refine Sees.bind ((sees_enqueueJob key targets hevent hV.connectionIds hV.jobKeys).mono
        fun enqueued V _ => ?_)
      show Sees _ _ (if _ then _ else _) _ _
      split
      · exact Sees.bind (Sees.spawn (Sees.pure trivial))
      · exact Sees.pure trivial

/-- The lists of connections and of events. -/
def Operation.Lists : Operation → Prop
  | .listConnections => True
  | .listEvents => True
  | _ => False

/-- What an operation of user `u` does is determined by the user's rows, unless it lists them. -/
theorem sees_program {o : Operation} (ho : ¬ o.Lists) (hV : V.Distinct) :
    Sees (service env) (observer u n ids) (o.program env n u) (fun _ _ => True) V := by
  cases o with
  | createEvent input =>
      exact Sees.of_proper
        (only_createEvent input (fun _ => trivial) (fun _ _ _ => rfl) fun _ _ => trivial)
  | getEvent id => exact Sees.bind ((sees_getEvent hV.eventIds).mono fun _ _ _ => trivial)
  | getConnection id =>
      exact Sees.bind ((sees_getConnection hV.connectionIds).mono fun _ _ _ => trivial)
  | deleteConnection id => exact sees_deleteConnection hV.connectionIds
  | createManual input => exact sees_createManual input hV.accounts
  | crossPost eventId key targets => exact sees_crossPost eventId key targets hV
  | getJob jobId => exact sees_getJob hV.jobIds hV.targetIds
  | _ => exact absurd trivial ho

/-! ## The lists -/

/-- The answers to the `SELECT` of connections are the arrangements of the user's connections. -/
theorem selectConnections_iff (hids : (w.connections.map (·.id)).Nodup) (x : Draw)
    {rows : List ConnectionRow} :
    (∃ ties, Query.exec (.selectConnections u) { x with ties } w = some (.ok rows, w)) ↔
      Arranged ConnectionRow.le (w.rowsOf (is u)).connections rows := by
  constructor
  · rintro ⟨ties, hexec⟩
    obtain ⟨hrows, -⟩ := Prod.mk.inj (Option.some.inj hexec)
    exact Except.ok.inj hrows ▸ arranged_orderBy _ _
  · intro h
    have hown : ((w.rowsOf (is u)).connections.map (·.id)).Nodup :=
      (List.filter_sublist.map _).nodup hids
    obtain ⟨ties, hties⟩ := exists_orderBy hown h
    exact ⟨ties, congrArg (fun rows => some (Except.ok rows, w)) hties⟩

/-- Those to the `SELECT` of documents are from the first hundred of an arrangement. -/
theorem selectEventDocuments_iff (hids : (w.events.map (·.id)).Nodup) (x : Draw)
    {documents : List Value} :
    (∃ ties, Query.exec (.selectEventDocuments u) { x with ties } w = some (.ok documents, w)) ↔
      ∃ rows, Arranged EventRow.le (w.rowsOf (is u)).events rows ∧
        documents = (rows.take 100).map (·.document) := by
  constructor
  · rintro ⟨ties, hexec⟩
    obtain ⟨hdocuments, -⟩ := Prod.mk.inj (Option.some.inj hexec)
    exact ⟨_, arranged_orderBy _ _, (Except.ok.inj hdocuments).symm⟩
  · rintro ⟨rows, h, rfl⟩
    have hown : ((w.rowsOf (is u)).events.map (·.id)).Nodup :=
      (List.filter_sublist.map _).nodup hids
    obtain ⟨ties, hties⟩ := exists_orderBy hown h
    refine ⟨ties, ?_⟩
    show some (Except.ok (((orderBy EventRow.le _ (w.rowsOf (is u)).events).take 100).map _), w) = _
    rw [hties]

/-- The reply, unless the database fails. -/
def unlessFails (x : Draw) (r : Except ApiError Response) : Except ApiError Response :=
  match x.fails with
  | some text => .error (.ofDb (.failure text))
  | none => r

/-- The reply of `oauth::list` is the user's rows in an order that the database may choose
among ties. -/
theorem runAlone_listConnections (xs : List Draw) (w : World) :
    (Operation.listConnections.program env n u).run.runAlone (service env) xs w =
      xs.head?.map fun x => (unlessFails x (.ok (.connections (orderBy ConnectionRow.le
        (fun c => x.ties c.id) (w.rowsOf (is u)).connections))), w) := by
  cases xs with
  | nil => rfl
  | cons x xs =>
      show (Stmt.exec (.query (.selectConnections u)) x w).bind _ = some (unlessFails x _, w)
      rw [Stmt.exec, unlessFails]
      cases x.fails <;> rfl

theorem runAlone_listEvents (xs : List Draw) (w : World) :
    (Operation.listEvents.program env n u).run.runAlone (service env) xs w =
      xs.head?.map fun x => (unlessFails x (listedEvents env (orderBy EventRow.le
        (fun e => x.ties e.id) (w.rowsOf (is u)).events)), w) := by
  cases xs with
  | nil => rfl
  | cons x xs =>
      show (Stmt.exec (.query (.selectEventDocuments u)) x w).bind _ = some (unlessFails x _, w)
      rw [Stmt.exec, unlessFails]
      cases x.fails with
      | some text => rfl
      | none =>
          show Prog.runAlone (service env) (ExceptT.run (do
              let events ← Tries.result ((((orderBy EventRow.le (fun e => x.ties e.id)
                (w.rowsOf (is u)).events).take 100).map (·.document)).mapM (readEvent env))
              pure (.events events) : Api Response)) xs w = _
          rw [listedEvents]
          cases (((orderBy EventRow.le (fun e => x.ties e.id)
            (w.rowsOf (is u)).events).take 100).map (·.document)).mapM (readEvent env) <;> rfl

/-! ## Ties -/

/-- The sort columns of the list of connections. -/
def ConnectionRow.sortKey (c : ConnectionRow) : String × String := (c.provider, c.displayName)

/-- The replies on two stores agree: they are the same, or they list the user's rows of each store,
as `ORDER BY` allows, with the same sort columns at each place.  Of the events the first hundred
are listed. -/
inductive Operation.SameReply (env : Deployment) (u : Uuid) (w₁ w₂ : World) :
    Operation → Except ApiError Response → Except ApiError Response → Prop
  | same {o : Operation} {r : Except ApiError Response} : SameReply env u w₁ w₂ o r r
  | connections {rows₁ rows₂ : List ConnectionRow}
      (h₁ : Arranged ConnectionRow.le (w₁.rowsOf (is u)).connections rows₁)
      (h₂ : Arranged ConnectionRow.le (w₂.rowsOf (is u)).connections rows₂)
      (hties : SameUpTo ConnectionRow.sortKey rows₁ rows₂) :
      SameReply env u w₁ w₂ .listConnections (.ok (.connections rows₁)) (.ok (.connections rows₂))
  | events {rows₁ rows₂ : List EventRow}
      (h₁ : Arranged EventRow.le (w₁.rowsOf (is u)).events rows₁)
      (h₂ : Arranged EventRow.le (w₂.rowsOf (is u)).events rows₂)
      (hties : SameUpTo EventRow.createdAt rows₁ rows₂) :
      SameReply env u w₁ w₂ .listEvents (listedEvents env rows₁) (listedEvents env rows₂)

/-- No two of the user's rows that the operation lists have the same sort columns. -/
def Operation.NoTies (u : Uuid) (w : World) : Operation → Prop
  | .listConnections => ((w.rowsOf (is u)).connections.map ConnectionRow.sortKey).Nodup
  | .listEvents => ((w.rowsOf (is u)).events.map EventRow.createdAt).Nodup
  | _ => True

variable {w₁ w₂ : World} {o : Operation} {xs₁ xs₂ : List Draw}

/-- Without ties the replies are the same. -/
theorem Operation.SameReply.eq {r₁ r₂ : Except ApiError Response}
    (h : o.SameReply env u w₁ w₂ r₁ r₂) (hties : o.NoTies u w₁) : r₁ = r₂ := by
  cases h with
  | same => rfl
  | connections h₁ h₂ hsame => rw [hsame.eq ((h₁.perm.map _).nodup_iff.mpr hties)]
  | events h₁ h₂ hsame => rw [hsame.eq ((h₁.perm.map _).nodup_iff.mpr hties)]

/-- Two arrangements of the same rows differ at most among ties. -/
theorem sameUpTo_connections {rows₁ rows₂ l₁ l₂ : List ConnectionRow}
    (h₁ : Arranged ConnectionRow.le rows₁ l₁) (h₂ : Arranged ConnectionRow.le rows₂ l₂)
    (hrows : rows₁.Perm rows₂) : SameUpTo ConnectionRow.sortKey l₁ l₂ := by
  let before (a b : String × String) : Prop := toLex a ≤ toLex b
  have : Std.Antisymm before := ⟨fun a b hab hba => toLex.injective (le_antisymm hab hba)⟩
  exact h₁.sameUpTo (r := before) (fun hle => Prod.Lex.toLex_le_toLex.mpr hle) h₂ hrows

/-! ## Noninterference -/

/-- Run alone as transaction `n`, the operation has replies on the two stores that `R` allows, or
it does not end on either, and the user's rows are the same after it. -/
def SameOutcome (env : Deployment) (n : ℕ) (u : Uuid) (o : Operation)
    (R : Except ApiError Response → Except ApiError Response → Prop) (xs₁ xs₂ : List Draw)
    (w₁ w₂ : World) : Prop :=
  Option.Rel (fun r₁ r₂ => R r₁.1 r₂.1 ∧ (r₁.2.rowsOf (is u)).Agree (r₂.2.rowsOf (is u)))
    ((o.program env n u).run.runAlone (service env) xs₁ w₁)
    ((o.program env n u).run.runAlone (service env) xs₂ w₂)

/-- The operation changes no row of another user and no session. -/
def SparesOthers (env : Deployment) (n : ℕ) (u : Uuid) (o : Operation) (xs : List Draw)
    (w : World) : Prop :=
  ∀ r w', (o.program env n u).run.runAlone (service env) xs w = some (r, w') → Spares u w w'

theorem SameOutcome.mono {R R' : Except ApiError Response → Except ApiError Response → Prop}
    (h : SameOutcome env n u o R xs₁ xs₂ w₁ w₂) (hR : ∀ {r₁ r₂}, R r₁ r₂ → R' r₁ r₂) :
    SameOutcome env n u o R' xs₁ xs₂ w₁ w₂ :=
  rel_mono h fun _ _ hsame => ⟨hR hsame.1, hsame.2⟩

/-- A list is read at one moment, and the store stays as it is. -/
theorem sameOutcome_of_list {f : Draw → World → Except ApiError Response}
    (hrun : ∀ xs w, (o.program env n u).run.runAlone (service env) xs w =
      xs.head?.map fun x => (unlessFails x (f x w), w))
    (hf : ∀ x₁ x₂, o.SameReply env u w₁ w₂ (f x₁ w₁) (f x₂ w₂))
    (hrows : (w₁.rowsOf (is u)).Agree (w₂.rowsOf (is u)))
    (hdraws : xs₁.map Draw.untied = xs₂.map Draw.untied) :
    SameOutcome env n u o (o.SameReply env u w₁ w₂) xs₁ xs₂ w₁ w₂ := by
  unfold SameOutcome
  rw [hrun, hrun]
  cases xs₁ with
  | nil =>
      obtain rfl := List.map_eq_nil_iff.mp hdraws.symm
      exact .none
  | cons x₁ xs₁ =>
      obtain ⟨x₂, xs₂, rfl, hx, -⟩ := List.map_eq_cons_iff.mp hdraws.symm
      have hfails := congrArg Draw.fails hx
      change x₂.fails = x₁.fails at hfails
      refine .some ⟨?_, hrows⟩
      show o.SameReply env u w₁ w₂ (unlessFails x₁ _) (unlessFails x₂ _)
      rw [unlessFails, unlessFails, hfails]
      cases x₁.fails with
      | some text => exact .same
      | none => exact hf x₁ x₂

theorem sparesOthers_of_list {f : Draw → World → Except ApiError Response}
    (hrun : ∀ xs w, (o.program env n u).run.runAlone (service env) xs w =
      xs.head?.map fun x => (unlessFails x (f x w), w)) {xs : List Draw} :
    SparesOthers env n u o xs w := by
  intro r w' h
  rw [hrun] at h
  obtain ⟨x, -, heq⟩ := Option.map_eq_some_iff.mp h
  obtain ⟨-, rfl⟩ := Prod.mk.inj heq
  exact ⟨rfl, rfl⟩

/-- The two lists are the same up to ties. -/
theorem sameOutcome_lists (ho : o.Lists) (hrows : (w₁.rowsOf (is u)).Agree (w₂.rowsOf (is u)))
    (hdraws : xs₁.map Draw.untied = xs₂.map Draw.untied) :
    SameOutcome env n u o (o.SameReply env u w₁ w₂) xs₁ xs₂ w₁ w₂ ∧
      (∀ xs, SparesOthers env n u o xs w₁) ∧ ∀ xs, SparesOthers env n u o xs w₂ := by
  cases o with
  | listConnections =>
      have hspares : ∀ xs w, SparesOthers env n u .listConnections xs w := fun xs w =>
        sparesOthers_of_list runAlone_listConnections
      refine ⟨sameOutcome_of_list runAlone_listConnections (fun x₁ x₂ => ?_) hrows hdraws,
        (hspares · w₁), (hspares · w₂)⟩
      have h₁ : Arranged ConnectionRow.le (w₁.rowsOf (is u)).connections _ :=
        arranged_orderBy (fun c => x₁.ties c.id) _
      have h₂ : Arranged ConnectionRow.le (w₂.rowsOf (is u)).connections _ :=
        arranged_orderBy (fun c => x₂.ties c.id) _
      exact .connections h₁ h₂ (sameUpTo_connections h₁ h₂ hrows.connections)
  | listEvents =>
      have hspares : ∀ xs w, SparesOthers env n u .listEvents xs w := fun xs w =>
        sparesOthers_of_list runAlone_listEvents
      refine ⟨sameOutcome_of_list runAlone_listEvents (fun x₁ x₂ => ?_) hrows hdraws,
        (hspares · w₁), (hspares · w₂)⟩
      have h₁ : Arranged EventRow.le (w₁.rowsOf (is u)).events _ :=
        arranged_orderBy (fun e => x₁.ties e.id) _
      have h₂ : Arranged EventRow.le (w₂.rowsOf (is u)).events _ :=
        arranged_orderBy (fun e => x₂.ties e.id) _
      exact .events h₁ h₂ (h₁.sameUpTo (r := (· ≥ ·)) (fun hle => hle) h₂ hrows.events)
  | _ => exact ho.elim

/-- Draws that differ in the order of ties read alike. -/
theorem reads_of_untied {xs ys : List Draw} (h : xs.map Draw.untied = ys.map Draw.untied)
    (hids : ∀ y ∈ ys, y.uuid ∈ ids) : List.Forall₂ (observer u n ids).reads xs ys := by
  induction ys generalizing xs with
  | nil =>
      obtain rfl := List.map_eq_nil_iff.mp h
      exact .nil
  | cons y ys ih =>
      obtain ⟨x, xs, rfl, hx, hrest⟩ := List.map_eq_cons_iff.mp h
      have huuid := congrArg Draw.uuid hx
      change x.uuid = y.uuid at huuid
      exact .cons ⟨huuid ▸ hids y List.mem_cons_self, hx⟩
        (ih hrest fun y hy => hids y (List.mem_cons_of_mem _ hy))

/-- The other operations have the same result on stores with the same rows of the user. -/
theorem sameOutcome_of_sees (ho : ¬ o.Lists) (htenant₁ : Tenant u n w₁) (htenant₂ : Tenant u n w₂)
    (hdistinct : w₁.Distinct)
    (hview : Alike (w₁.only u n (xs₁.map Draw.uuid)) (w₂.only u n (xs₁.map Draw.uuid)))
    (hdraws : xs₁.map Draw.untied = xs₂.map Draw.untied) :
    SameOutcome env n u o Eq xs₁ xs₂ w₁ w₂ ∧ SparesOthers env n u o xs₁ w₁ ∧
      SparesOthers env n u o xs₂ w₂ := by
  have hids : ∀ x ∈ xs₁, x.uuid ∈ xs₁.map Draw.uuid := fun x hx => List.mem_map.mpr ⟨x, hx, rfl⟩
  have hsees : Sees (service env) (observer u n (xs₁.map Draw.uuid)) (o.program env n u)
      (fun _ _ => True) (w₁.only u n (xs₁.map Draw.uuid)) := sees_program ho hdistinct.only
  have hxs₁ := reads_of_untied (u := u) (n := n) rfl hids
  have hxs₂ := reads_of_untied (u := u) (n := n) hdraws.symm hids
  refine ⟨?_, fun r w' hrun => ?_, fun r w' hrun => ?_⟩
  · have hcongr := Observer.runAlone_congr hsees htenant₁ htenant₂ (.refl _) hview.symm hxs₁ hxs₂
    refine rel_mono hcongr fun r₁ r₂ hsame => ?_
    obtain ⟨hreply, V, hafter₁, hafter₂⟩ := hsame
    exact ⟨hreply, rowsOf_agree_of_alike (hafter₁.trans hafter₂.symm)⟩
  · exact (Observer.runAlone_frame hsees htenant₁ (.refl _) hxs₁ hrun).2
  · exact (Observer.runAlone_frame hsees htenant₂ hview.symm hxs₂ hrun).2

/-- An operation of user `u` cannot tell two reachable stores apart that agree on the rows
of `u`, but for the order of ties in the lists; it leaves them agreeing on these, and spares the
rows of all others. -/
theorem tenant_noninterference {p₁ p₂ : Pool Stmt Role Outcome World} (h₁ : Reachable env p₁)
    (h₂ : Reachable env p₂) (hrows : (p₁.shared.rowsOf (is u)).Agree (p₂.shared.rowsOf (is u)))
    (hn₁ : Unused n p₁.shared) (hn₂ : Unused n p₂.shared) (o : Operation) {xs₁ xs₂ : List Draw}
    (hdraws : xs₁.map Draw.untied = xs₂.map Draw.untied)
    (hfresh : ∀ x ∈ xs₁, x.uuid ∉ p₁.shared.drawn ∧ x.uuid ∉ p₂.shared.drawn) :
    SameOutcome env n u o (o.SameReply env u p₁.shared p₂.shared) xs₁ xs₂ p₁.shared p₂.shared ∧
      (o.NoTies u p₁.shared → SameOutcome env n u o Eq xs₁ xs₂ p₁.shared p₂.shared) ∧
      SparesOthers env n u o xs₁ p₁.shared ∧ SparesOthers env n u o xs₂ p₂.shared := by
  by_cases ho : o.Lists
  · obtain ⟨hsame, hspares₁, hspares₂⟩ := sameOutcome_lists ho hrows hdraws
    exact ⟨hsame, fun hties => hsame.mono fun hreply => hreply.eq hties, hspares₁ _, hspares₂ _⟩
  · have hinv₁ : Inv env p₁.shared := h₁.poolOk.inv
    have hinv₂ : Inv env p₂.shared := h₂.poolOk.inv
    -- the two stores look alike to the user, once the user's rows are the same
    have hview := alike_of_rowsOf hn₁ hn₂ hrows fun i hi => by
      obtain ⟨x, hx, rfl⟩ := List.mem_map.mp hi
      exact hfresh x hx
    obtain ⟨hsame, hspares⟩ := sameOutcome_of_sees ho (hinv₁.tenant hn₁)
      (hinv₂.tenant hn₂) h₁.distinct hview hdraws
    exact ⟨hsame.mono fun hreply => hreply ▸ .same, fun _ => hsame, hspares⟩

namespace Sample

/-- User 2 creates an event; the identifier is fresh. -/
def secondUser : Operation :=
  .createEvent ⟨"Concert", "", "", 0, 3600, "UTC", "https://example.com", none, none, [], []⟩

def secondDraws : List Draw := [{ uuid := 50 }, { now := 7 }, {}]

/-- The status of a reply with an event, and the numbers of events of users 1 and 2. -/
def eventCounts : Except ApiError Response × World → Option (ℕ × ℕ × ℕ)
  | (.ok (.event status _), w) =>
      some (status, (w.rowsOf (is 1)).events.length, (w.rowsOf (is 2)).events.length)
  | _ => none

end Sample

/-- On the empty store and on a store with rows of user 1, user 2 creates the same event. -/
theorem tenant_noninterference_sample :
    ∃ p, idleService.run (service Sample.deployment) Sample.connect = some p ∧
      ((Sample.secondUser.program Sample.deployment 9 2).run.runAlone (service Sample.deployment)
        Sample.secondDraws p.shared).bind Sample.eventCounts = some (201, 2, 1) ∧
      SameOutcome Sample.deployment 9 2 Sample.secondUser Eq Sample.secondDraws Sample.secondDraws
          World.empty p.shared ∧
        SparesOthers Sample.deployment 9 2 Sample.secondUser Sample.secondDraws World.empty ∧
          SparesOthers Sample.deployment 9 2 Sample.secondUser Sample.secondDraws p.shared := by
  have hrun : ((idleService.run (service Sample.deployment) Sample.connect).map fun p =>
      (((Sample.secondUser.program Sample.deployment 9 2).run.runAlone (service Sample.deployment)
          Sample.secondDraws p.shared).bind Sample.eventCounts,
        [(p.shared.rowsOf (is 2)).events.length, (p.shared.rowsOf (is 2)).connections.length,
          p.shared.jobs.length, p.shared.targets.length, p.shared.sessions.length],
        p.shared.drawn)) =
      some (some (201, 2, 1), [0, 0, 0, 0, 0], [21, 20, 10]) := by decide +kernel
  obtain ⟨p, hp, hfacts⟩ := Option.map_eq_some_iff.mp hrun
  obtain ⟨hcounts, hfacts⟩ := Prod.mk.inj hfacts
  obtain ⟨hlengths, hdrawn⟩ := Prod.mk.inj hfacts
  simp only [List.cons.injEq, List.length_eq_zero_iff, and_true] at hlengths
  obtain ⟨hevents, hconnections, hjobs, htargets, hsessions⟩ := hlengths
  have hrows : (World.empty.rowsOf (is 2)).Agree (p.shared.rowsOf (is 2)) := by
    refine ⟨?_, ?_, ?_, ?_⟩
    · rw [hevents]
      exact .refl _
    · rw [hconnections]
      exact .refl _
    · rw [World.rowsOf, World.rowsOf, hjobs]
      exact .refl _
    · rw [World.rowsOf, World.rowsOf, htargets]
      exact .refl _
  have hfresh : ∀ x ∈ Sample.secondDraws, x.uuid ∉ World.empty.drawn ∧ x.uuid ∉ p.shared.drawn := by
    rw [hdrawn]
    decide +kernel
  have hidle : Reachable Sample.deployment idleService := ⟨[], rfl⟩
  obtain ⟨-, hsame, hspares⟩ := tenant_noninterference hidle ⟨_, hp⟩ hrows
    (unused_of_nil rfl rfl rfl) (unused_of_nil hjobs htargets hsessions) Sample.secondUser rfl hfresh
  exact ⟨p, hp, hcounts, hsame trivial, hspares⟩

namespace Sample

/-- Two accounts of user 1 under one name. -/
def twins : List (Label Draw Request) :=
  [.arrive (.createManual 1 ⟨.craigslist, "first", "Account", .null, some "secret"⟩),
   .turn 0 {}, .turn 0 { uuid := 10 },
   .arrive (.createManual 1 ⟨.craigslist, "second", "Account", .null, some "secret"⟩),
   .turn 1 {}, .turn 1 { uuid := 11 }]

/-- An account of user 2. -/
def stranger : List (Label Draw Request) :=
  [.arrive (.createManual 2 ⟨.craigslist, "third", "Account", .null, some "secret"⟩),
   .turn 2 {}, .turn 2 { uuid := 12 }]

/-- The connection of user 1 for an account. -/
def twin (id : Uuid) (accountKey : String) : ConnectionRow :=
  { id, userId := 1, provider := "craigslist", accountKey, createdAt := 0, displayName := "Account"
    metadata := .null, tokenEnvelope := "", updatedAt := 0 }

/-- The rows of user 1. -/
def twinRows : Rows := ⟨[], [twin 10 "first", twin 11 "second"], [], []⟩

/-- The second connection comes before the first. -/
def swapped : Draw := { ties := fun id => if id = 10 then 1 else 0 }

end Sample

/-- With or without an account of user 2 in the store, user 1 has the same two connections; which
of them is listed first is left open. -/
theorem not_tenant_noninterference :
    ¬ ∀ (env : Deployment) (u : Uuid) (n : ℕ) (p₁ p₂ : Pool Stmt Role Outcome World)
        (o : Operation) (xs₁ xs₂ : List Draw), Reachable env p₁ → Reachable env p₂ →
        (p₁.shared.rowsOf (is u)).Agree (p₂.shared.rowsOf (is u)) →
        Unused n p₁.shared → Unused n p₂.shared → xs₁.map Draw.untied = xs₂.map Draw.untied →
        (∀ x ∈ xs₁, x.uuid ∉ p₁.shared.drawn ∧ x.uuid ∉ p₂.shared.drawn) →
        SameOutcome env n u o Eq xs₁ xs₂ p₁.shared p₂.shared := by
  intro h
  have hrun₁ : (idleService.run (service Sample.deployment) Sample.twins).map (fun p =>
      (p.shared.rowsOf (is 1), p.shared.jobs, p.shared.targets, p.shared.sessions,
        p.shared.drawn)) = some (Sample.twinRows, [], [], [], [11, 10]) := rfl
  have hrun₂ : (idleService.run (service Sample.deployment)
      (Sample.twins ++ Sample.stranger)).map (fun p => (p.shared.rowsOf (is 1), p.shared.jobs,
        p.shared.targets, p.shared.sessions, p.shared.drawn)) =
      some (Sample.twinRows, [], [], [], [12, 11, 10]) := rfl
  obtain ⟨p₁, hp₁, hfacts₁⟩ := Option.map_eq_some_iff.mp hrun₁
  obtain ⟨p₂, hp₂, hfacts₂⟩ := Option.map_eq_some_iff.mp hrun₂
  simp only [Prod.mk.injEq] at hfacts₁ hfacts₂
  obtain ⟨hrows₁, hjobs₁, htargets₁, hsessions₁, hdrawn₁⟩ := hfacts₁
  obtain ⟨hrows₂, hjobs₂, htargets₂, hsessions₂, hdrawn₂⟩ := hfacts₂
  have hagree : (p₁.shared.rowsOf (is 1)).Agree (p₂.shared.rowsOf (is 1)) := by
    rw [hrows₁, hrows₂]
    exact ⟨.refl _, .refl _, .refl _, .refl _⟩
  have hfresh : ∀ x ∈ [({} : Draw)], x.uuid ∉ p₁.shared.drawn ∧ x.uuid ∉ p₂.shared.drawn := by
    rw [hdrawn₁, hdrawn₂]
    decide
  have hsame := h _ 1 9 p₁ p₂ .listConnections [{}] [Sample.swapped] ⟨_, hp₁⟩ ⟨_, hp₂⟩ hagree
    (unused_of_nil hjobs₁ htargets₁ hsessions₁) (unused_of_nil hjobs₂ htargets₂ hsessions₂) rfl
    hfresh
  rw [SameOutcome, runAlone_listConnections, runAlone_listConnections, hrows₁, hrows₂] at hsame
  cases hsame with
  | some hsame =>
      have hids := congrArg (List.map (·.id)) (Response.connections.inj (Except.ok.inj hsame.1))
      exact absurd hids (by decide +kernel)

end Service
