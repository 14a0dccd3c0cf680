/-
# The rows of one user

`World.rowsOf P` are the rows of the users that satisfy `P`, and `World.only u n ids`
is what a statement of user `u` in transaction `n` can see: the rows of `u`, and of
the drawn identifiers those in `ids`.  In which order the rows are stored is not seen
(`Alike`).

A statement that names no user but `u`, and looks rows up by keys that are distinct, is
*proper* (`Stmt.Proper`).
-/
import EvglApi.Invariant
import EvglApi.Observer
import EvglApi.Steps

open Concurrency Mvcc

namespace Service

variable {env : Deployment} {w w' V : World} {u : Uuid} {n : ℕ} {ids : List Uuid} {x : Draw}
  {α β : Type}

/-! ## Rows and views -/

/-- The target belongs to a job of a user that satisfies `P`. -/
def World.owns (w : World) (P : Uuid → Bool) (t : TargetRow) : Bool :=
  w.jobs.any fun v => v.row.id = t.jobId && P v.row.userId

/-- The rows of some users; a job and a target come with the mark of being committed. -/
structure Rows where
  events : List EventRow
  connections : List ConnectionRow
  jobs : List (Bool × JobRow)
  targets : List (Bool × TargetRow)

def World.rowsOf (P : Uuid → Bool) (w : World) : Rows where
  events := w.events.filter fun e => P e.ownerId
  connections := w.connections.filter fun c => P c.userId
  jobs := w.jobs.content fun j => P j.userId
  targets := w.targets.content (w.owns P)

/-- The same rows, in whatever order. -/
structure Rows.Agree (R R' : Rows) : Prop where
  events : R.events.Perm R'.events
  connections : R.connections.Perm R'.connections
  jobs : R.jobs.Perm R'.jobs
  targets : R.targets.Perm R'.targets

/-- User `u` and no other. -/
def is (u : Uuid) (v : Uuid) : Bool := v = u

/-- The users other than `u`. -/
def isNot (u : Uuid) (v : Uuid) : Bool := v ≠ u

/-- What a statement of user `u` in transaction `n` can see. -/
def World.only (u : Uuid) (n : ℕ) (ids : List Uuid) (w : World) : World where
  events := w.events.filter fun e => is u e.ownerId
  connections := w.connections.filter fun c => is u c.userId
  jobs := w.jobs.part (fun j => is u j.userId) n
  targets := w.targets.part (w.owns (is u)) n
  sessions := []
  drawn := w.drawn.filter (· ∈ ids)
  missed := []
  requests := []
  workers := []
  trace := []

/-- Two views with the same rows, in whatever order, and the same identifiers. -/
structure Alike (V V' : World) : Prop where
  events : V.events.Perm V'.events
  connections : V.connections.Perm V'.connections
  jobs : V.jobs.Perm V'.jobs
  targets : V.targets.Perm V'.targets
  drawn : V.drawn = V'.drawn

namespace Alike

variable {V' V'' : World}

theorem of_eq (hevents : V.events = V'.events) (hconnections : V.connections = V'.connections)
    (hjobs : V.jobs = V'.jobs) (htargets : V.targets = V'.targets) (hdrawn : V.drawn = V'.drawn) :
    Alike V V' :=
  ⟨.of_eq hevents, .of_eq hconnections, .of_eq hjobs, .of_eq htargets, hdrawn⟩

theorem refl (V : World) : Alike V V := .of_eq rfl rfl rfl rfl rfl

theorem symm (h : Alike V V') : Alike V' V :=
  ⟨h.events.symm, h.connections.symm, h.jobs.symm, h.targets.symm, h.drawn.symm⟩

/-- Rows in some order of a rearrangement are rows in some order. -/
theorem trans (h : Alike V V') (h' : Alike V' V'') : Alike V V'' where
  events := h.events.trans h'.events
  connections := h.connections.trans h'.connections
  jobs := h.jobs.trans h'.jobs
  targets := h.targets.trans h'.targets
  drawn := h.drawn.trans h'.drawn

end Alike

/-- No open transaction has number `n`. -/
structure Unused (n : ℕ) (w : World) : Prop where
  jobs : ∀ v ∈ w.jobs, v.xmin ≠ n
  targets : ∀ v ∈ w.targets, v.xmin ≠ n
  sessions : ∀ s ∈ w.sessions, s.deletedBy ≠ some n

/-- A store without jobs, targets and sessions has no row of the transaction. -/
theorem unused_of_nil (hjobs : w.jobs = []) (htargets : w.targets = [])
    (hsessions : w.sessions = []) : Unused n w :=
  ⟨by simp [hjobs], by simp [htargets], by simp [hsessions]⟩

/-- Without a transaction `n`, the view is determined by the user's rows. -/
theorem alike_of_rowsOf {w₁ w₂ : World} (hn₁ : Unused n w₁) (hn₂ : Unused n w₂)
    (hrows : (w₁.rowsOf (is u)).Agree (w₂.rowsOf (is u)))
    (hfresh : ∀ i ∈ ids, i ∉ w₁.drawn ∧ i ∉ w₂.drawn) :
    Alike (w₁.only u n ids) (w₂.only u n ids) := by
  have hdrawn : ∀ {w : World}, (∀ i ∈ ids, i ∉ w.drawn) → w.drawn.filter (· ∈ ids) = [] := by
    intro w h
    rw [List.filter_eq_nil_iff]
    intro i hi hmem
    exact h i (of_decide_eq_true hmem) hi
  unfold World.only
  rw [hdrawn fun i hi => (hfresh i hi).1, hdrawn fun i hi => (hfresh i hi).2,
    Table.part_eq_map_content hn₁.jobs, Table.part_eq_map_content hn₂.jobs,
    Table.part_eq_map_content hn₁.targets, Table.part_eq_map_content hn₂.targets]
  exact ⟨hrows.events, hrows.connections, hrows.jobs.map _, hrows.targets.map _, rfl⟩

/-- The user's rows can be read off the view. -/
theorem rowsOf_agree_of_alike {w₁ w₂ : World} (h : Alike (w₁.only u n ids) (w₂.only u n ids)) :
    (w₁.rowsOf (is u)).Agree (w₂.rowsOf (is u)) := by
  unfold World.rowsOf
  rw [Table.content_eq_map_part (n := n), Table.content_eq_map_part (n := n),
    Table.content_eq_map_part (n := n), Table.content_eq_map_part (n := n)]
  exact ⟨h.events, h.connections, h.jobs.map _, h.targets.map _⟩

/-! ## The invariant -/

/-- The store is sound, and transaction `n` has rows of user `u` only. -/
structure Tenant (u : Uuid) (n : ℕ) (w : World) : Prop where
  jobIds : (w.jobs.map fun v => v.row.id).Nodup
  connectionIds : (w.connections.map fun c => c.id).Nodup
  jobDrawn : ∀ v ∈ w.jobs, v.row.id ∈ w.drawn
  connectionDrawn : ∀ c ∈ w.connections, c.id ∈ w.drawn
  targetJob : ∀ t ∈ w.targets, ∃ v ∈ w.jobs, v.row.id = t.row.jobId ∧ v.xmin = t.xmin ∧
    v.committed = t.committed ∧
      ∃ c ∈ w.connections, c.id = t.row.connectionId ∧ c.userId = v.row.userId
  own : ∀ v ∈ w.jobs, v.xmin = n → v.row.userId = u
  sessions : ∀ s ∈ w.sessions, s.deletedBy ≠ some n

/-- Every store that the service reaches is one in which the user is a tenant. -/
theorem Inv.tenant (h : Inv env w) (hn : Unused n w) : Tenant u n w where
  jobIds := h.jobIds
  connectionIds := h.connectionIds
  jobDrawn := h.jobDrawn
  connectionDrawn := h.connectionDrawn
  targetJob := by
    intro t ht
    obtain ⟨v, hv, hid, hx, hc, -, c, hmem, hcid, huser, -⟩ := h.targetJob t ht
    exact ⟨v, hv, hid, hx, hc, c, hmem, hcid, huser⟩
  own := fun v hv hx => absurd hx (hn.jobs v hv)
  sessions := hn.sessions

namespace Tenant

/-- A job with the id of a target's job is the target's job. -/
theorem eq_of_jobId (h : Tenant u n w) {v v' : Version JobRow} (hv : v ∈ w.jobs) (hv' : v' ∈ w.jobs)
    (hid : v.row.id = v'.row.id) : v = v' :=
  List.inj_on_of_nodup_map h.jobIds hv hv' hid

/-- Whether a target is owned is decided by the user of its job. -/
theorem owns_iff (h : Tenant u n w) {P : Uuid → Bool} {v : Version JobRow} (hv : v ∈ w.jobs)
    {t : TargetRow} (hid : v.row.id = t.jobId) : w.owns P t = P v.row.userId := by
  rw [Bool.eq_iff_iff, World.owns, List.any_eq_true]
  constructor
  · rintro ⟨v', hv', hmatch⟩
    obtain ⟨hid', hP⟩ := Bool.and_eq_true_iff.mp hmatch
    rwa [h.eq_of_jobId hv hv' (hid.trans (of_decide_eq_true hid').symm)]
  · intro hP
    exact ⟨v, hv, Bool.and_eq_true_iff.mpr ⟨decide_eq_true hid, hP⟩⟩

/-- The targets of transaction `n` are no other user's. -/
theorem owns_isNot (h : Tenant u n w) {t : Version TargetRow} (ht : t ∈ w.targets)
    (hx : t.xmin = n) : w.owns (isNot u) t.row = false := by
  obtain ⟨v, hv, hid, hvx, -⟩ := h.targetJob t ht
  rw [h.owns_iff hv hid, h.own v hv (hvx.trans hx)]
  simp [isNot]

/-- The jobs of the transaction are none of the others'. -/
theorem isNot_job (h : Tenant u n w) {v : Version JobRow} (hv : v ∈ w.jobs) (hx : v.xmin = n) :
    isNot u v.row.userId = false := by
  rw [h.own v hv hx]
  simp [isNot]

end Tenant

/-! ## Statements -/

/-- The other users' rows and the sessions stay as they are. -/
structure Spares (u : Uuid) (w w' : World) : Prop where
  rows : w'.rowsOf (isNot u) = w.rowsOf (isNot u)
  sessions : w'.sessions = w.sessions

/-- The draw without the order of ties. -/
def Draw.untied (x : Draw) : Draw := { x with ties := fun _ => 0 }

/-- What user `u` sees of the service in transaction `n`. -/
def observer (u : Uuid) (n : ℕ) (ids : List Uuid) : Observer World Draw World Draw where
  looks w V := Alike (w.only u n ids) V
  reads x y := x.uuid ∈ ids ∧ x.untied = y.untied
  inv := Tenant u n
  frame := Spares u
  frame_refl _ := ⟨rfl, rfl⟩
  frame_trans h h' := ⟨h'.rows.trans h.rows, h'.sessions.trans h.sessions⟩

/-- The query names no user but `u` and no transaction but `n`; what it refers to by id
is in the view, and the keys by which it looks rows up are distinct there.  The lists of
events and of connections are not proper. -/
def Query.Proper (u : Uuid) (n : ℕ) : Query β → World → Prop
  | .begin _, _ => True
  | .commit m, _ => m = n
  | .upsertConnection userId .., V => userId = u ∧ (V.connections.map (·.account)).Nodup
  | .selectConnection _ userId, V => userId = u ∧ (V.connections.map (·.id)).Nodup
  | .deleteConnection _ userId, V => userId = u ∧ (V.connections.map (·.id)).Nodup
  | .insertEvent _ ownerId _, _ => ownerId = u
  | .selectEventDocument _ ownerId, V => ownerId = u ∧ (V.events.map (·.id)).Nodup
  | .selectJobByKey m userId _, V => m = n ∧ userId = u ∧ 
      (V.jobs.map fun v => (v.row.userId, v.row.idempotencyKey)).Nodup
  | .insertJob m userId eventId _, V => m = n ∧ userId = u ∧ ∃ e ∈ V.events, e.id = eventId
  | .selectConnectionProvider _ _ userId, V => userId = u ∧ (V.connections.map (·.id)).Nodup
  | .insertTarget m jobId connectionId _ _, V =>
      m = n ∧ (∃ v ∈ V.jobs, v.row.id = jobId ∧ v.committed = false ∧ v.xmin = n) ∧
        ∃ c ∈ V.connections, c.id = connectionId
  | .selectJob _ userId, V => userId = u ∧ (V.jobs.map (·.row.id)).Nodup
  | .selectTargets jobId, V =>
      (∃ v ∈ V.jobs, v.row.id = jobId) ∧ (V.targets.map (·.row.id)).Nodup
  | _, _ => False

def Stmt.Proper (u : Uuid) (n : ℕ) : Stmt β → World → Prop
  | .query q, V => q.Proper u n V
  | .rollback m, _ => m = n
  | .newUuid, _ => True
  | .randomUrlsafe _, _ => True
  | .encrypt _ _, _ => True
  | .sendEvent _, _ => True
  | _, _ => False

/-- The view after a step, table by table. -/
theorem alike_only {w' V' : World}
    (hevents : w'.events.filter (fun e => is u e.ownerId) = V'.events)
    (hconnections : w'.connections.filter (fun c => is u c.userId) = V'.connections)
    (hjobs : w'.jobs.part (fun j => is u j.userId) n = V'.jobs)
    (htargets : w'.targets.part (w'.owns (is u)) n = V'.targets)
    (hdrawn : w'.drawn.filter (· ∈ ids) = V'.drawn) : Alike (w'.only u n ids) V' :=
  .of_eq hevents hconnections hjobs htargets hdrawn

/-- The other users' rows after a step, table by table. -/
theorem Spares.of_eq (hevents : w'.events.filter (fun e => isNot u e.ownerId) =
      w.events.filter fun e => isNot u e.ownerId)
    (hconnections : w'.connections.filter (fun c => isNot u c.userId) =
      w.connections.filter fun c => isNot u c.userId)
    (hjobs : w'.jobs.content (fun j => isNot u j.userId) = w.jobs.content fun j => isNot u j.userId)
    (htargets : w'.targets.content (w'.owns (isNot u)) = w.targets.content (w.owns (isNot u)))
    (hsessions : w'.sessions = w.sessions) : Spares u w w' := by
  refine ⟨?_, hsessions⟩
  unfold World.rowsOf
  rw [hevents, hconnections, hjobs, htargets]

/-- A step that changes neither the rows nor the drawn identifiers. -/
theorem agrees_same {a : α} (htenant : Tenant u n w) {w' V' : World} (hevents : w'.events = w.events)
    (hconnections : w'.connections = w.connections) (hjobs : w'.jobs = w.jobs)
    (htargets : w'.targets = w.targets) (hdrawn : w'.drawn = w.drawn)
    (hsessions : w'.sessions = w.sessions) (hV : Alike (w.only u n ids) V') :
    (observer u n ids).Agrees w (some (a, w')) (some (a, V')) := by
  obtain ⟨events, connections, jobs, targets, sessions, drawn, missed, requests, workers,
    trace⟩ := w'
  obtain rfl : events = w.events := hevents
  obtain rfl : connections = w.connections := hconnections
  obtain rfl : jobs = w.jobs := hjobs
  obtain rfl : targets = w.targets := htargets
  obtain rfl : drawn = w.drawn := hdrawn
  obtain rfl : sessions = w.sessions := hsessions
  refine .answers hV ?_ ⟨rfl, rfl⟩
  exact ⟨htenant.jobIds, htenant.connectionIds, htenant.jobDrawn, htenant.connectionDrawn,
    htenant.targetJob, htenant.own, htenant.sessions⟩

/-- A step that changes nothing, with an answer that is determined by the view. -/
theorem agrees_read {a a' : α} (htenant : Tenant u n w) (ha : a = a') :
    (observer u n ids).Agrees w (some (a, w)) (some (a', w.only u n ids)) :=
  ha ▸ agrees_same htenant rfl rfl rfl rfl rfl rfl (.refl _)

/-! ## Queries on the view -/

/-- A search that finds rows of a part only finds the same in the part. -/
theorem find?_filter_of_imp {l : List α} {p q : α → Bool} (h : ∀ a, q a = true → p a = true) :
    (l.filter p).find? q = l.find? q := by
  rw [List.find?_filter]
  congr 1
  funext a
  by_cases hq : q a = true
  · simp [hq, h a hq]
  · simp [hq]

theorem is_iff {v : Uuid} : is u v = true ↔ v = u := decide_eq_true_iff

theorem isNot_iff {v : Uuid} : isNot u v = true ↔ v ≠ u := decide_eq_true_iff

theorem only_jobs : (w.only u n ids).jobs = w.jobs.part (fun j => is u j.userId) n := rfl

theorem only_targets : (w.only u n ids).targets = w.targets.part (w.owns (is u)) n := rfl

/-- A connection of the user is looked up in the user's part. -/
theorem only_find_connection (id : Uuid) :
    (w.only u n ids).connections.find? (fun c => c.id = id ∧ c.userId = u) =
      w.connections.find? fun c => c.id = id ∧ c.userId = u :=
  find?_filter_of_imp fun _ hc => is_iff.mpr (of_decide_eq_true hc).2

theorem only_find_account (provider accountKey : String) :
    (w.only u n ids).connections.find? (·.hasKey u provider accountKey) =
      w.connections.find? (·.hasKey u provider accountKey) :=
  find?_filter_of_imp fun _ hc => is_iff.mpr (of_decide_eq_true hc).1

theorem only_find_event (id : Uuid) :
    (w.only u n ids).events.find? (fun e => e.id = id ∧ e.ownerId = u) =
      w.events.find? fun e => e.id = id ∧ e.ownerId = u :=
  find?_filter_of_imp fun _ he => is_iff.mpr (of_decide_eq_true he).2

/-- So is a job of the user, by whatever columns. -/
theorem only_find_job {tx : Option ℕ} (htx : tx = none ∨ tx = some n) {q : JobRow → Bool}
    (hq : ∀ j, q j = true → j.userId = u) :
    ((w.only u n ids).jobs.rows tx).find? q = (w.jobs.rows tx).find? q := by
  rw [only_jobs, Table.rows_part htx]
  exact find?_filter_of_imp fun j hj => is_iff.mpr (hq j hj)

theorem only_any_job {f : Version JobRow → Bool}
    (hf : ∀ v : Version JobRow, f { v with xmin := if v.xmin = n then n else n + 1 } = f v)
    (h : ∀ v, f v = true → v.row.userId = u) : (w.only u n ids).jobs.any f = w.jobs.any f := by
  rw [only_jobs]
  exact Table.any_part hf fun v _ hv => is_iff.mpr (h v hv)

/-- A drawn identifier among those considered is in the view. -/
theorem only_drawn (hx : x.uuid ∈ ids) : x.uuid ∈ (w.only u n ids).drawn ↔ x.uuid ∈ w.drawn := by
  show x.uuid ∈ w.drawn.filter _ ↔ _
  rw [List.mem_filter]
  exact ⟨fun h => h.1, fun h => ⟨h, decide_eq_true hx⟩⟩

/-- The targets of a job in the view. -/
theorem only_filter_targets (h : Tenant u n w) {j : Uuid}
    (hj : ∃ v ∈ (w.only u n ids).jobs, v.row.id = j) :
    ((w.only u n ids).targets.rows none).filter (·.jobId = j) =
      (w.targets.rows none).filter (·.jobId = j) := by
  obtain ⟨v, hv, hid⟩ := hj
  rw [only_jobs] at hv
  obtain ⟨v', hv', huser, rfl⟩ := Table.mem_part.mp hv
  rw [only_targets, Table.rows_part (Or.inl rfl), List.filter_filter]
  apply List.filter_congr
  intro t _
  by_cases ht : t.jobId = j
  · rw [h.owns_iff hv' (hid.trans ht.symm), huser, Bool.and_true]
  · simp [ht]

end Service
