/-
# Statements on views with the same rows

A proper statement does not depend on the order in which the rows are stored
(`alike_stmt`), nor on the order of ties (`Stmt.exec_untied`).  So its answer, and what it
leaves of the rows of user `u`, are determined by these rows, and the rows of the other
users stay as they are (`shows_of_proper`).
-/
import EvglApi.TenantSteps

open Concurrency Mvcc

namespace Service

variable {w V V' : World} {u : Uuid} {n : ℕ} {ids : List Uuid} {x y : Draw} {α β : Type}

/-! ## Queries -/

/-- Both executions wait, or they have the same answer and leave the same rows. -/
def SameAnswer : Option (α × World) → Option (α × World) → Prop :=
  Option.Rel fun r r' => r.1 = r'.1 ∧ Alike r.2 r'.2

/-- A statement that changes nothing, with an answer that the rows determine. -/
theorem SameAnswer.read {a a' : α} (h : Alike V V') (ha : a = a') :
    SameAnswer (some (a, V)) (some (a', V')) := .some ⟨ha, h⟩

/-- A transaction sees the same rows in whatever order they are stored. -/
theorem rows_perm {ρ : Type} {t t' : Table ρ} (tx : Option ℕ) (h : t.Perm t') :
    (t.rows tx).Perm (t'.rows tx) := (h.filter _).map _

/-- The rows that a statement sees have distinct keys if the versions have. -/
theorem nodup_rows {ρ κ : Type} {t : Table ρ} {key : ρ → κ} (tx : Option ℕ)
    (h : (t.map fun v => key v.row).Nodup) : ((t.rows tx).map key).Nodup := by
  rw [Table.rows, List.map_map]
  exact (List.filter_sublist.map _).nodup h

/-- Connections are looked up by their ids. -/
theorem Alike.find_connection (h : Alike V V') (hids : (V.connections.map (·.id)).Nodup)
    (id userId : Uuid) : V.connections.find? (fun c => c.id = id ∧ c.userId = userId) =
      V'.connections.find? fun c => c.id = id ∧ c.userId = userId :=
  Keyed.find?_perm hids (fun ha hb => ha.1.trans hb.1.symm) h.connections

/-- And by their accounts. -/
theorem Alike.find_account (h : Alike V V') (haccounts : (V.connections.map (·.account)).Nodup)
    (userId : Uuid) (provider accountKey : String) :
    V.connections.find? (·.hasKey userId provider accountKey) =
      V'.connections.find? (·.hasKey userId provider accountKey) := by
  refine Keyed.find?_perm haccounts (fun {c c'} hc hc' => ?_) h.connections
  obtain ⟨huser, hprovider, hkey⟩ := hc
  obtain ⟨huser', hprovider', hkey'⟩ := hc'
  rw [ConnectionRow.account, ConnectionRow.account, huser, hprovider, hkey, huser', hprovider',
    hkey']

theorem Alike.find_event (h : Alike V V') (hids : (V.events.map (·.id)).Nodup) (id ownerId : Uuid) :
    V.events.find? (fun e => e.id = id ∧ e.ownerId = ownerId) =
      V'.events.find? fun e => e.id = id ∧ e.ownerId = ownerId :=
  Keyed.find?_perm hids (fun ha hb => ha.1.trans hb.1.symm) h.events

theorem Alike.find_job (h : Alike V V') (hids : (V.jobs.map (·.row.id)).Nodup) (id userId : Uuid) :
    (V.jobs.rows none).find? (fun j => j.id = id ∧ j.userId = userId) =
      (V'.jobs.rows none).find? fun j => j.id = id ∧ j.userId = userId := by
  have hrows : ((V.jobs.rows none).map (·.id)).Nodup := nodup_rows none hids
  exact Keyed.find?_perm hrows (fun ha hb => ha.1.trans hb.1.symm) (rows_perm none h.jobs)

/-- At most one job is under a key, so that the order does not matter for finding it. -/
theorem Alike.find_key (h : Alike V V')
    (hkeys : (V.jobs.map fun v => (v.row.userId, v.row.idempotencyKey)).Nodup) (tx : Option ℕ)
    (userId : Uuid) (key : String) : (V.jobs.rows tx).find? (·.hasKey userId key) =
      (V'.jobs.rows tx).find? (·.hasKey userId key) := by
  have hrows : ((V.jobs.rows tx).map fun j => (j.userId, j.idempotencyKey)).Nodup :=
    nodup_rows tx hkeys
  refine Keyed.find?_perm hrows (fun ha hb => ?_) (rows_perm tx h.jobs)
  exact Prod.ext (ha.1.trans hb.1.symm) (ha.2.trans hb.2.symm)

/-- The targets of a job come in the order of their ids. -/
theorem Alike.targets_sorted (h : Alike V V') (hids : (V.targets.map (·.row.id)).Nodup) (j : Uuid) :
    ((V.targets.rows none).filter (·.jobId = j)).insertionSort (fun a b => a.id ≤ b.id) =
      ((V'.targets.rows none).filter (·.jobId = j)).insertionSort fun a b => a.id ≤ b.id := by
  have : Std.Total fun a b : TargetRow => a.id ≤ b.id := ⟨fun a b => le_total a.id b.id⟩
  have : IsTrans TargetRow fun a b => a.id ≤ b.id := ⟨fun _ _ _ => le_trans⟩
  have harranged : ∀ rows : List TargetRow, Arranged (fun a b => a.id ≤ b.id) rows
      (rows.insertionSort fun a b => a.id ≤ b.id) := fun rows =>
    ⟨List.perm_insertionSort _ _, List.pairwise_insertionSort _ _⟩
  have hperm := (rows_perm none h.targets).filter fun t => decide (t.jobId = j)
  have hsame : SameUpTo (fun t : TargetRow => t.id) _ _ :=
    (harranged _).sameUpTo (r := (· ≤ ·)) (fun hle => hle) (harranged _) hperm
  refine hsame.eq ((((List.perm_insertionSort _ _).map _).nodup_iff).mpr ?_)
  exact (List.filter_sublist.map _).nodup (nodup_rows none hids)

/-- At most one connection is under a key, so that both stores update it or insert one. -/
theorem alike_upsert (h : Alike V V') (haccounts : (V.connections.map (·.account)).Nodup)
    (userId : Uuid) (provider accountKey displayName : String) (metadata : Value)
    (envelope : String) :
    SameAnswer (V.upsertConnection x userId provider accountKey displayName metadata envelope)
      (V'.upsertConnection x userId provider accountKey displayName metadata envelope) := by
  unfold World.upsertConnection
  rw [h.find_account haccounts, h.drawn]
  cases V'.connections.find? (·.hasKey userId provider accountKey) with
  | some old => exact .some ⟨rfl, h.events, h.connections.map _, h.jobs, h.targets, rfl⟩
  | none =>
      show SameAnswer (if _ then _ else _) (if _ then _ else _)
      split
      · exact .none
      · exact .some ⟨rfl, h.events, h.connections.append_right _, h.jobs, h.targets, rfl⟩

theorem alike_deleteConnection (h : Alike V V') (hids : (V.connections.map (·.id)).Nodup)
    (id userId : Uuid) :
    SameAnswer (V.deleteConnection id userId) (V'.deleteConnection id userId) := by
  unfold World.deleteConnection
  rw [h.find_connection hids]
  cases V'.connections.find? fun c => c.id = id ∧ c.userId = userId with
  | none => exact .read h rfl
  | some c =>
      show SameAnswer (if _ then _ else _) (if _ then _ else _)
      rw [h.targets.any_eq, h.targets.any_eq]
      split
      · exact .none
      · split
        · exact .read h rfl
        · exact .some ⟨rfl, h.events, h.connections.filter _, h.jobs, h.targets, h.drawn⟩

theorem alike_insertJob (h : Alike V V') (userId eventId : Uuid) (key : String) :
    SameAnswer (V.insertJob x n userId eventId key) (V'.insertJob x n userId eventId key) := by
  unfold World.insertJob
  rw [h.drawn, h.jobs.any_eq, h.jobs.any_eq, h.events.all_eq]
  split
  · exact .none
  · split
    · exact .none
    · split
      · exact .read h rfl
      · split
        · exact .read h rfl
        · exact .some ⟨rfl, h.events, h.connections, h.jobs.append_right _, h.targets, rfl⟩

theorem alike_insertTarget (h : Alike V V') (jobId connectionId : Uuid) (provider : String)
    (options : Value) : SameAnswer (V.insertTarget x n jobId connectionId provider options)
      (V'.insertTarget x n jobId connectionId provider options) := by
  unfold World.insertTarget
  rw [h.drawn, (rows_perm _ h.jobs).all_eq, h.connections.all_eq]
  split
  · exact .none
  · split
    · exact .read h rfl
    · split
      · exact .read h rfl
      · exact .some ⟨rfl, h.events, h.connections, h.jobs, h.targets.append_right _, rfl⟩

/-- **Every query** answers the same, whatever the order of the rows. -/
theorem alike_query {q : Query β} (h : Alike V V') (hq : q.Proper u n V) :
    SameAnswer (q.exec x V) (q.exec x V') := by
  cases q with
  | begin m => exact .read h rfl
  | commit m =>
      exact .some ⟨rfl, h.events, h.connections, h.jobs.map _, h.targets.map _, h.drawn⟩
  | upsertConnection userId provider accountKey displayName metadata envelope =>
      exact alike_upsert h hq.2 _ _ _ _ _ _
  | selectConnection id userId => exact .read h (congrArg _ (h.find_connection hq.2 id userId))
  | deleteConnection id userId => exact alike_deleteConnection h hq.2 id userId
  | insertEvent id ownerId document =>
      exact .some ⟨rfl, h.events.append_right _, h.connections, h.jobs, h.targets, h.drawn⟩
  | selectEventDocument id ownerId =>
      exact .read h (congrArg (fun e => Except.ok (Option.map (·.document) e))
        (h.find_event hq.2 id ownerId))
  | selectJobByKey m userId key =>
      rw [Query.exec, Query.exec, World.selectJobByKey, World.selectJobByKey,
        h.find_key hq.2.2 (some m) userId key]
      split
      · exact .read h rfl
      · exact .some ⟨rfl, h.events, h.connections, h.jobs, h.targets, h.drawn⟩
  | insertJob m userId eventId key => exact alike_insertJob h userId eventId key
  | selectConnectionProvider m id userId =>
      exact .read h (congrArg (fun c => Except.ok (Option.map (·.provider) c))
        (h.find_connection hq.2 id userId))
  | insertTarget m jobId connectionId provider options =>
      exact alike_insertTarget h jobId connectionId provider options
  | selectJob id userId => exact .read h (congrArg _ (h.find_job hq.2 id userId))
  | selectTargets jobId => exact .read h (congrArg _ (h.targets_sorted hq.2 jobId))
  | _ => exact hq.elim

/-! ## Proper statements -/

theorem alike_stmt {st : Stmt β} (h : Alike V V') (hst : st.Proper u n V) :
    SameAnswer (st.exec x V) (st.exec x V') := by
  cases st with
  | query q =>
      rw [Stmt.exec, Stmt.exec]
      split
      · exact .read h rfl
      · exact alike_query h hst
  | rollback m =>
      exact .some ⟨rfl, h.events, h.connections, h.jobs.filter _, h.targets.filter _, h.drawn⟩
  | newUuid =>
      rw [Stmt.exec, Stmt.exec, h.drawn]
      split
      · exact .none
      · exact .some ⟨rfl, h.events, h.connections, h.jobs, h.targets, rfl⟩
  | randomUrlsafe bytes => exact .read h rfl
  | encrypt aad tokens =>
      rw [Stmt.exec, Stmt.exec]
      split
      · exact .read h rfl
      · exact .some ⟨rfl, h.events, h.connections, h.jobs, h.targets, h.drawn⟩
  | sendEvent event => exact .some ⟨rfl, h.events, h.connections, h.jobs, h.targets, h.drawn⟩
  | _ => exact hst.elim

/-- What is proper on a view is proper on every view with the same rows. -/
theorem Stmt.Proper.alike {st : Stmt β} (h : Alike V V') (hst : st.Proper u n V) :
    st.Proper u n V' := by
  have hconnections : ∀ {κ : Type} {key : ConnectionRow → κ}, (V.connections.map key).Nodup →
      (V'.connections.map key).Nodup := fun hkeys => (h.connections.map _).nodup_iff.mp hkeys
  cases st with
  | query q =>
      cases q with
      | upsertConnection userId provider accountKey displayName metadata envelope =>
          exact ⟨hst.1, hconnections hst.2⟩
      | selectConnection id userId => exact ⟨hst.1, hconnections hst.2⟩
      | deleteConnection id userId => exact ⟨hst.1, hconnections hst.2⟩
      | selectConnectionProvider m id userId => exact ⟨hst.1, hconnections hst.2⟩
      | selectEventDocument id ownerId => exact ⟨hst.1, (h.events.map _).nodup_iff.mp hst.2⟩
      | selectJobByKey m userId key =>
          exact ⟨hst.1, hst.2.1, (h.jobs.map _).nodup_iff.mp hst.2.2⟩
      | insertJob m userId eventId key =>
          obtain ⟨hm, huser, e, he, hid⟩ := hst
          exact ⟨hm, huser, e, h.events.subset he, hid⟩
      | insertTarget m jobId connectionId provider options =>
          obtain ⟨hm, ⟨v, hv, hnew⟩, c, hc, hid⟩ := hst
          exact ⟨hm, ⟨v, h.jobs.subset hv, hnew⟩, c, h.connections.subset hc, hid⟩
      | selectJob id userId => exact ⟨hst.1, (h.jobs.map _).nodup_iff.mp hst.2⟩
      | selectTargets jobId =>
          obtain ⟨⟨v, hv, hid⟩, hids⟩ := hst
          exact ⟨⟨v, h.jobs.subset hv, hid⟩, (h.targets.map _).nodup_iff.mp hids⟩
      | _ => exact hst
  | _ => exact hst

/-- A proper statement does not depend on the order of ties. -/
theorem Stmt.exec_untied {st : Stmt β} (hst : st.Proper u n V) (x : Draw) (w : World) :
    st.exec x.untied w = st.exec x w := by
  cases st with
  | query q =>
      cases q with
      | selectConnections userId => exact hst.elim
      | selectEventDocuments ownerId => exact hst.elim
      | _ => rfl
  | _ => rfl

/-- What a proper statement does is determined by what is seen. -/
theorem shows_of_proper {st : Stmt β} (hst : st.Proper u n V)
    (hx : (observer u n ids).reads x y) :
    (observer u n ids).Shows V (st.exec x) (st.exec y V) := by
  intro w hw hlooks
  have hview : st.Proper u n (w.only u n ids) := hst.alike hlooks.symm
  -- from the store to the view of it, and from there to the view with the same rows
  have hagrees := agrees_stmt hw hx.1 hview
  have hsame : SameAnswer (st.exec x (w.only u n ids)) (st.exec x V) := alike_stmt hlooks hview
  rw [← Stmt.exec_untied hst y, ← hx.2, Stmt.exec_untied hst x]
  generalize st.exec x V = r at hsame ⊢
  generalize st.exec x (w.only u n ids) = r' at hagrees hsame
  generalize st.exec x w = o at hagrees
  cases hagrees with
  | waits =>
      cases hsame with
      | none => exact .waits
  | answers hlooks' htenant hspares =>
      cases hsame with
      | some h =>
          obtain ⟨rfl, halike⟩ := h
          exact .answers (hlooks'.trans halike) htenant hspares

/-- The start of a worker is not seen. -/
theorem shows_spawn (j : Uuid) :
    (observer u n ids).Shows V (fun w => some ((), w.enter (.worker j))) (some ((), V)) :=
  fun _ hw hlooks => agrees_same hw rfl rfl rfl rfl rfl rfl hlooks

end Service
