/-
# Statements of one user on a store of many

Each proper statement, executed on the store and on the view of user `u`, agrees
with itself (`agrees_stmt`).
-/
import EvglApi.Tenant

open Concurrency Mvcc

namespace Service

variable {env : Deployment} {w w' V : World} {u : Uuid} {n : ℕ} {ids : List Uuid} {x : Draw}
  {α β : Type}

/-! ## Statements on events and connections -/

theorem is_self (u : Uuid) : is u u = true := is_iff.mpr rfl

theorem isNot_self (u : Uuid) : isNot u u = false := by simp [isNot]

theorem filter_concat_pos {p : α → Bool} {l : List α} {a : α} (h : p a = true) :
    (l ++ [a]).filter p = l.filter p ++ [a] := by
  rw [List.filter_append, List.filter_cons_of_pos h, List.filter_nil]

theorem filter_concat_neg {p : α → Bool} {l : List α} {a : α} (h : p a = false) :
    (l ++ [a]).filter p = l.filter p := by
  simp [h]

/-- A drawn identifier among those considered is added to the view. -/
theorem filter_drawn (hx : x.uuid ∈ ids) :
    (x.uuid :: w.drawn).filter (· ∈ ids) = x.uuid :: (w.only u n ids).drawn :=
  List.filter_cons_of_pos (decide_eq_true hx)

/-- A drawn id is new for the user as it is for all. -/
theorem agrees_newUuid (h : Tenant u n w) (hx : x.uuid ∈ ids) :
    (observer u n ids).Agrees w (Stmt.exec .newUuid x w)
      (Stmt.exec .newUuid x (w.only u n ids)) := by
  rw [Stmt.exec, Stmt.exec]
  by_cases hdrawn : x.uuid ∈ w.drawn
  · rw [if_pos hdrawn, if_pos ((only_drawn hx).mpr hdrawn)]
    exact .waits
  · rw [if_neg hdrawn, if_neg fun hmem => hdrawn ((only_drawn hx).mp hmem)]
    refine .answers (alike_only rfl rfl rfl rfl (filter_drawn hx)) ?_ ⟨rfl, rfl⟩
    exact
      { h with
        jobDrawn := fun v hv => List.mem_cons_of_mem _ (h.jobDrawn v hv)
        connectionDrawn := fun c hc => List.mem_cons_of_mem _ (h.connectionDrawn c hc) }

/-- The event of a user is a row that the user sees. -/
theorem agrees_insertEvent (h : Tenant u n w) (id : Uuid) (document : Value) :
    (observer u n ids).Agrees w (Query.exec (.insertEvent id u document) x w)
      (Query.exec (.insertEvent id u document) x (w.only u n ids)) := by
  refine .answers (alike_only ?_ rfl rfl rfl rfl) { h with } (.of_eq ?_ rfl rfl rfl rfl)
  · exact filter_concat_pos (is_self u)
  · exact filter_concat_neg (isNot_self u)

/-- Rows of `u` replace rows of `u`. -/
theorem filter_replace {P : Uuid → Bool} {l : List ConnectionRow} {old row : ConnectionRow}
    (hids : (l.map fun c => c.id).Nodup) (hold : old ∈ l) (huser : row.userId = old.userId) :
    (l.map fun c => if c.id = old.id then row else c).filter (fun c => P c.userId) =
      (l.filter fun c => P c.userId).map fun c => if c.id = old.id then row else c := by
  rw [List.filter_map]
  congr 1
  apply List.filter_congr
  intro c hc
  show P (if c.id = old.id then row else c).userId = P c.userId
  split
  · next hid => rw [huser, List.inj_on_of_nodup_map hids hc hold hid]
  · rfl

/-- A row with the same fixed columns replaces a connection. -/
theorem Tenant.replace (h : Tenant u n w) {old row : ConnectionRow} (hold : old ∈ w.connections)
    (hrow : row.toConnectionFixed = old.toConnectionFixed) (trace : List Effect) :
    Tenant u n
      { w with
        connections := w.connections.map fun c => if c.id = old.id then row else c
        trace := trace } := by
  have hfixed : ∀ c ∈ w.connections,
      (if c.id = old.id then row else c).toConnectionFixed = c.toConnectionFixed := by
    intro c hc
    split
    · next hid => rw [hrow, List.inj_on_of_nodup_map h.connectionIds hc hold hid]
    · rfl
  refine ⟨h.jobIds, ?_, h.jobDrawn, ?_, ?_, h.own, h.sessions⟩
  · rw [List.map_map]
    have hids := List.map_congr_left fun c hc => congrArg ConnectionFixed.id (hfixed c hc)
    exact hids.symm ▸ h.connectionIds
  · intro c hc
    obtain ⟨c', hc', rfl⟩ := List.mem_map.mp hc
    rw [congrArg ConnectionFixed.id (hfixed c' hc')]
    exact h.connectionDrawn c' hc'
  · intro t ht
    obtain ⟨v, hv, hid, hvx, hvc, c, hc, hcid, hcuser⟩ := h.targetJob t ht
    exact ⟨v, hv, hid, hvx, hvc, _, List.mem_map.mpr ⟨c, hc, rfl⟩,
      (congrArg ConnectionFixed.id (hfixed c hc)).trans hcid,
      (congrArg ConnectionFixed.userId (hfixed c hc)).trans hcuser⟩

/-- A connection of another user is not the one with the id of a connection of `u`. -/
theorem id_ne_of_isNot (h : Tenant u n w) {old c : ConnectionRow} (hold : old ∈ w.connections)
    (huser : old.userId = u) (hc : c ∈ w.connections.filter fun c => isNot u c.userId) :
    c.id ≠ old.id := by
  obtain ⟨hc, hother⟩ := List.mem_filter.mp hc
  intro hid
  rw [List.inj_on_of_nodup_map h.connectionIds hc hold hid] at hother
  exact isNot_iff.mp hother huser

/-- A new row of a connection has an id that nobody has. -/
theorem Tenant.addConnection (h : Tenant u n w) {row : ConnectionRow} (hfresh : row.id ∉ w.drawn) :
    Tenant u n (w.addConnection row) where
  jobIds := h.jobIds
  connectionIds := by
    refine Keyed.nodup_concat h.connectionIds fun c hc (hid : c.id = row.id) => ?_
    exact hfresh (hid ▸ h.connectionDrawn c hc)
  jobDrawn := fun v hv => List.mem_cons_of_mem _ (h.jobDrawn v hv)
  connectionDrawn := by
    intro c hc
    rcases List.mem_append.mp hc with hc | hc
    · exact List.mem_cons_of_mem _ (h.connectionDrawn c hc)
    · rw [List.mem_singleton.mp hc]
      exact List.mem_cons_self
  targetJob := by
    intro t ht
    obtain ⟨v, hv, hid, hvx, hvc, c, hc, hrest⟩ := h.targetJob t ht
    exact ⟨v, hv, hid, hvx, hvc, c, List.mem_append_left _ hc, hrest⟩
  own := h.own
  sessions := h.sessions

/-- The row under the key of a connection is one of the user's, so that both stores update
it or neither has it. -/
theorem agrees_upsert (h : Tenant u n w) (hx : x.uuid ∈ ids)
    (provider accountKey displayName : String) (metadata : Value) (envelope : String) :
    (observer u n ids).Agrees w
      (w.upsertConnection x u provider accountKey displayName metadata envelope)
      ((w.only u n ids).upsertConnection x u provider accountKey displayName metadata envelope) := by
  unfold World.upsertConnection
  rw [only_find_account]
  cases hfind : w.connections.find? (·.hasKey u provider accountKey) with
  | some old =>
      obtain ⟨hmem, huser, -⟩ := Keyed.found hfind
      refine .answers (alike_only rfl (filter_replace h.connectionIds hmem rfl) rfl rfl rfl) ?_
        (.of_eq rfl ?_ rfl rfl rfl)
      · refine h.replace hmem ?_ _
        rfl
      · refine (filter_replace h.connectionIds hmem ?_).trans ?_
        · rfl
        refine (List.map_congr_left fun c hc => ?_).trans (List.map_id _)
        exact if_neg (id_ne_of_isNot h hmem huser hc)
  | none =>
      by_cases hdrawn : x.uuid ∈ w.drawn
      · simp only [if_pos hdrawn, if_pos ((only_drawn hx).mpr hdrawn)]
        exact .waits
      · simp only [if_neg hdrawn, if_neg fun hmem => hdrawn ((only_drawn hx).mp hmem)]
        refine .answers (alike_only rfl ?_ rfl rfl (filter_drawn hx)) ?_ (.of_eq rfl ?_ rfl rfl rfl)
        · exact filter_concat_pos (is_self u)
        · exact h.addConnection hdrawn
        · exact filter_concat_neg (isNot_self u)

/-- A target for a connection of `u` belongs to `u`. -/
theorem owns_of_connectionId (h : Tenant u n w) {t : Version TargetRow} (ht : t ∈ w.targets)
    {c : ConnectionRow} (hc : c ∈ w.connections) (huser : c.userId = u)
    (hid : t.row.connectionId = c.id) : w.owns (is u) t.row = true := by
  obtain ⟨v, hv, hvid, -, -, c', hc', hcid, hcuser⟩ := h.targetJob t ht
  rw [h.owns_iff hv hvid, is_iff, ← hcuser,
    List.inj_on_of_nodup_map h.connectionIds hc' hc (hcid.trans hid), huser]

/-- The targets at a connection of the user belong to jobs of the user, so that the DELETE
is refused in both stores or in neither. -/
theorem agrees_deleteConnection (h : Tenant u n w) (id : Uuid) :
    (observer u n ids).Agrees w (w.deleteConnection id u)
      ((w.only u n ids).deleteConnection id u) := by
  unfold World.deleteConnection
  rw [only_find_connection]
  cases hfind : w.connections.find? fun c => c.id = id ∧ c.userId = u with
  | none => exact agrees_read h rfl
  | some c =>
      obtain ⟨hmem, rfl, huser⟩ := Keyed.found hfind
      -- whether the connection is used depends on the targets of its owner
      have hany : ∀ f : Version TargetRow → Bool,
          (∀ v : Version TargetRow, f { v with xmin := if v.xmin = n then n else n + 1 } = f v) →
          (∀ v, f v = true → v.row.connectionId = c.id) →
          (w.only u n ids).targets.any f = w.targets.any f := by
        intro f hf hconnection
        rw [only_targets]
        exact Table.any_part hf fun t ht hft =>
          owns_of_connectionId h ht hmem huser (hconnection t hft)
      show (observer u n ids).Agrees w (if _ then _ else _) (if _ then _ else _)
      rw [hany _ (fun _ => rfl) fun v hv => (of_decide_eq_true hv).1,
        hany _ (fun _ => rfl) fun v hv => of_decide_eq_true hv]
      split
      · exact .waits
      · split
        · exact agrees_read h rfl
        · next hunused =>
            have hkept : ∀ c' ∈ w.connections, c'.id ≠ c.id →
                c' ∈ w.connections.filter (·.id ≠ c.id) := fun c' hc' hne =>
              List.mem_filter.mpr ⟨hc', decide_eq_true hne⟩
            refine .answers (alike_only rfl ?_ rfl rfl rfl) ?_ (.of_eq rfl ?_ rfl rfl rfl)
            · show (w.connections.filter _).filter _ = (w.connections.filter _).filter _
              rw [List.filter_filter, List.filter_filter]
              congr 1
              funext c'
              exact Bool.and_comm _ _
            · refine ⟨h.jobIds, (List.filter_sublist.map _).nodup h.connectionIds, h.jobDrawn,
                fun c' hc' => h.connectionDrawn c' (List.mem_of_mem_filter hc'), ?_, h.own,
                h.sessions⟩
              intro t ht
              obtain ⟨v, hv, hid, hvx, hvc, c', hc', hcid, hcuser⟩ := h.targetJob t ht
              refine ⟨v, hv, hid, hvx, hvc, c', hkept c' hc' fun heq => hunused ?_, hcid, hcuser⟩
              exact List.any_eq_true.mpr ⟨t, ht, decide_eq_true (hcid.symm.trans heq)⟩
            · rw [List.filter_filter]
              apply List.filter_congr
              intro c' hc'
              by_cases hother : isNot u c'.userId = true
              · have hne := id_ne_of_isNot h hmem huser (List.mem_filter.mpr ⟨hc', hother⟩)
                rw [hother, decide_eq_true hne]
                rfl
              · rw [Bool.not_eq_true] at hother
                rw [hother]
                rfl

/-! ## Statements on jobs and targets -/

/-- A job under a key of the user is seen by the user, if it is committed or the
transaction's own. -/
theorem agrees_selectJobByKey (h : Tenant u n w) (key : String) :
    (observer u n ids).Agrees w (w.selectJobByKey n u key)
      ((w.only u n ids).selectJobByKey n u key) := by
  unfold World.selectJobByKey
  rw [only_find_job (Or.inr rfl) fun j hj => (of_decide_eq_true hj).1]
  cases (w.jobs.rows (some n)).find? (·.hasKey u key) with
  | some job => exact agrees_read h rfl
  | none => exact agrees_same h rfl rfl rfl rfl rfl rfl (.of_eq rfl rfl rfl rfl rfl)

/-- The jobs of other ids do not decide whether an old target is owned. -/
theorem owns_addJob (h : Tenant u n w) {row : JobRow} (hfresh : row.id ∉ w.drawn)
    {P : Uuid → Bool} {t : Version TargetRow} (ht : t ∈ w.targets) :
    (w.addJob n row).owns P t.row = w.owns P t.row := by
  obtain ⟨v, hv, hid, -⟩ := h.targetJob t ht
  have hne : row.id ≠ t.row.jobId := fun heq => hfresh (heq.trans hid.symm ▸ h.jobDrawn v hv)
  show (w.jobs.insert n row).any _ = w.jobs.any _
  rw [Table.insert, List.any_append]
  simp [hne]

/-- A new job of the user is pending in the transaction. -/
theorem Tenant.addJob (h : Tenant u n w) {row : JobRow} (hfresh : row.id ∉ w.drawn)
    (huser : row.userId = u) : Tenant u n (w.addJob n row) where
  jobIds := by
    refine Keyed.nodup_concat h.jobIds fun v hv (hid : v.row.id = row.id) => ?_
    exact hfresh (hid ▸ h.jobDrawn v hv)
  connectionIds := h.connectionIds
  jobDrawn := by
    intro v hv
    rcases Table.mem_insert.mp hv with hv | rfl
    · exact List.mem_cons_of_mem _ (h.jobDrawn v hv)
    · exact List.mem_cons_self
  connectionDrawn := fun c hc => List.mem_cons_of_mem _ (h.connectionDrawn c hc)
  targetJob := by
    intro t ht
    obtain ⟨v, hv, hrest⟩ := h.targetJob t ht
    exact ⟨v, Table.mem_insert.mpr (Or.inl hv), hrest⟩
  own := by
    intro v hv hx
    rcases Table.mem_insert.mp hv with hv | rfl
    · exact h.own v hv hx
    · exact huser
  sessions := h.sessions

/-- The insertion of a job for a stored event of the view. -/
theorem agrees_insertJob (h : Tenant u n w) (hx : x.uuid ∈ ids) {eventId : Uuid} (key : String)
    (hevent : ∃ e ∈ (w.only u n ids).events, e.id = eventId) :
    (observer u n ids).Agrees w (w.insertJob x n u eventId key)
      ((w.only u n ids).insertJob x n u eventId key) := by
  obtain ⟨e, he, heid⟩ := hevent
  have hfound : ∀ {l : List EventRow}, e ∈ l → l.all (fun e => e.id ≠ eventId) = false := by
    intro l hl
    rw [List.all_eq_false]
    exact ⟨e, hl, by simp [heid]⟩
  unfold World.insertJob
  rw [hfound he, hfound (List.mem_of_mem_filter he)]
  -- whether the key is taken depends on the jobs of the user
  rw [only_any_job (f := fun v => v.row.hasKey u key ∧ v.committed = false ∧ v.xmin ≠ n)
    (fun v => by simp only [Ne, Table.part_xmin_eq_iff]) fun v hv => (of_decide_eq_true hv).1.1]
  rw [only_any_job (f := fun v => v.row.hasKey u key) (fun _ => rfl)
    fun v hv => (of_decide_eq_true hv).1]
  by_cases hdrawn : x.uuid ∈ w.drawn
  · rw [if_pos hdrawn, if_pos ((only_drawn hx).mpr hdrawn)]
    exact .waits
  · rw [if_neg hdrawn, if_neg fun hmem => hdrawn ((only_drawn hx).mp hmem)]
    split
    · exact .waits
    · split
      · exact agrees_read h rfl
      · let row : JobRow := ⟨⟨x.uuid, u, eventId, key, x.now⟩, "queued", x.now⟩
        have htenant : Tenant u n (w.addJob n row) := h.addJob hdrawn rfl
        refine .answers (alike_only rfl rfl ?_ ?_ (filter_drawn hx)) htenant
          (.of_eq rfl rfl ?_ ?_ rfl)
        · exact Table.part_insert (is_self u)
        · exact Table.part_congr fun t ht => owns_addJob h hdrawn ht
        · exact Table.content_insert (isNot_self u)
        · exact Table.content_congr fun t ht => owns_addJob h hdrawn ht

/-- A new target is at a job of the transaction and at a connection of the user. -/
theorem Tenant.addTarget (h : Tenant u n w) {row : TargetRow} {v : Version JobRow}
    (hv : v ∈ w.jobs) (hid : v.row.id = row.jobId) (hx : v.xmin = n) (hc : v.committed = false)
    {c : ConnectionRow} (hmem : c ∈ w.connections) (hcid : c.id = row.connectionId)
    (hcuser : c.userId = u) : Tenant u n (w.addTarget n row) where
  jobIds := h.jobIds
  connectionIds := h.connectionIds
  jobDrawn := fun v hv => List.mem_cons_of_mem _ (h.jobDrawn v hv)
  connectionDrawn := fun c hc => List.mem_cons_of_mem _ (h.connectionDrawn c hc)
  targetJob := by
    intro t ht
    rcases Table.mem_insert.mp ht with ht | rfl
    · exact h.targetJob t ht
    · exact ⟨v, hv, hid, hx, hc, c, hmem, hcid, hcuser.trans (h.own v hv hx).symm⟩
  own := h.own
  sessions := h.sessions

/-- The insertion of a target for the transaction's own job and a connection of the view. -/
theorem agrees_insertTarget (h : Tenant u n w) (hx : x.uuid ∈ ids) {jobId connectionId : Uuid}
    (provider : String) (options : Value)
    (hjob : ∃ v ∈ (w.only u n ids).jobs, v.row.id = jobId ∧ v.committed = false ∧ v.xmin = n)
    (hconnection : ∃ c ∈ (w.only u n ids).connections, c.id = connectionId) :
    (observer u n ids).Agrees w (w.insertTarget x n jobId connectionId provider options)
      ((w.only u n ids).insertTarget x n jobId connectionId provider options) := by
  obtain ⟨v', hv', hid, hc, hvx⟩ := hjob
  obtain ⟨c, hcmem, hcid⟩ := hconnection
  have hseen : ∀ {t : Table JobRow} {v : Version JobRow}, v ∈ t → v.row.id = jobId → v.xmin = n →
      (t.rows (some n)).all (·.id ≠ jobId) = false := by
    intro t v hv hid hvx
    rw [List.all_eq_false]
    refine ⟨v.row, Table.mem_rows.mpr ⟨v, hv, ?_, rfl⟩, by simp [hid]⟩
    rw [Version.visibleTo, hvx, beq_self_eq_true, Bool.or_true]
  have hstored : ∀ {l : List ConnectionRow}, c ∈ l → l.all (·.id ≠ connectionId) = false := by
    intro l hl
    rw [List.all_eq_false]
    exact ⟨c, hl, by simp [hcid]⟩
  have hview := hseen hv' hid hvx
  rw [only_jobs] at hv'
  obtain ⟨v, hv, huser, rfl⟩ := Table.mem_part.mp hv'
  have hvx : v.xmin = n := Table.part_xmin_eq_iff.mp hvx
  obtain ⟨hcmem', hcuser⟩ := List.mem_filter.mp hcmem
  unfold World.insertTarget
  rw [hview, hseen hv hid hvx, hstored hcmem, hstored hcmem']
  by_cases hdrawn : x.uuid ∈ w.drawn
  · rw [if_pos hdrawn, if_pos ((only_drawn hx).mpr hdrawn)]
    exact .waits
  · rw [if_neg hdrawn, if_neg fun hmem => hdrawn ((only_drawn hx).mp hmem)]
    have howns : ∀ P (row : TargetRow), row.jobId = jobId → w.owns P row = P u := by
      intro P row hrow
      rw [h.owns_iff hv (hid.trans hrow.symm), is_iff.mp huser]
    refine .answers (alike_only rfl rfl rfl ?_ (filter_drawn hx))
      (h.addTarget hv hid hvx hc hcmem' hcid (is_iff.mp hcuser)) (.of_eq rfl rfl rfl ?_ rfl)
    · refine Table.part_insert ?_
      exact (howns _ _ rfl).trans (is_self u)
    · refine Table.content_insert ?_
      exact (howns _ _ rfl).trans (isNot_self u)

/-! ## The end of the transaction -/

theorem owns_commit (P : Uuid → Bool) (t : TargetRow) : (w.commit n).owns P t = w.owns P t := by
  show (w.jobs.commit n).any _ = w.jobs.any _
  rw [Table.commit, List.any_map]
  congr 1
  funext v
  show (decide ((if v.xmin = n then { v with committed := true } else v).row.id = t.jobId) &&
    P (if v.xmin = n then { v with committed := true } else v).row.userId) = _
  split <;> rfl

/-- The commit changes no column of a row. -/
theorem Tenant.commit (h : Tenant u n w) : Tenant u n (w.commit n) where
  jobIds := by
    show ((w.jobs.commit n).map _).Nodup
    rw [Table.map_row_commit fun r : JobRow => r.id]
    exact h.jobIds
  connectionIds := h.connectionIds
  jobDrawn := by
    intro v hv
    obtain ⟨v', hv', -, hrow, -⟩ := Table.exists_of_mem_commit hv
    exact hrow ▸ h.jobDrawn v' hv'
  connectionDrawn := h.connectionDrawn
  targetJob := by
    intro t ht
    obtain ⟨t', ht', htx, htrow, htc⟩ := Table.exists_of_mem_commit ht
    obtain ⟨v, hv, hid, hvx, hvc, hrest⟩ := h.targetJob t' ht'
    refine ⟨_, Table.mem_commit_of_mem hv, htrow ▸ hid, hvx.trans htx, ?_, htrow ▸ hrest⟩
    rw [Bool.eq_iff_iff, Bool.or_eq_true, beq_iff_eq, htc, hvc, hvx]
  own := by
    intro v hv hx
    obtain ⟨v', hv', hx', hrow, -⟩ := Table.exists_of_mem_commit hv
    exact hrow ▸ h.own v' hv' (hx'.trans hx)
  sessions := fun s hs => h.sessions s (List.mem_of_mem_filter hs)

/-- The commit marks the rows that the user sees. -/
theorem agrees_commit (h : Tenant u n w) :
    (observer u n ids).Agrees w (Query.exec (.commit n) x w)
      (Query.exec (.commit n) x (w.only u n ids)) := by
  refine .answers (alike_only rfl rfl ?_ ?_ rfl) h.commit (.of_eq rfl rfl ?_ ?_ ?_)
  · exact Table.part_commit
  · refine Eq.trans (Table.part_congr fun t _ => owns_commit _ _) ?_
    exact Table.part_commit
  · exact Table.content_commit fun v hv hx => h.isNot_job hv hx
  · refine Eq.trans (Table.content_congr fun t _ => owns_commit _ _) ?_
    exact Table.content_commit fun t ht hx => h.owns_isNot ht hx
  · exact List.filter_eq_self.mpr fun s hs => decide_eq_true (h.sessions s hs)

/-- A target that survives the rollback is owned by the same user. -/
theorem owns_rollback (h : Tenant u n w) (P : Uuid → Bool) {t : Version TargetRow}
    (ht : t ∈ w.targets.rollback n) : (w.rollback n).owns P t.row = w.owns P t.row := by
  obtain ⟨ht, hkept⟩ := Table.mem_rollback.mp ht
  obtain ⟨v, hv, hid, hvx, hvc, -⟩ := h.targetJob t ht
  have hv' : v ∈ w.jobs.rollback n := Table.mem_rollback.mpr ⟨hv, by rw [hvc, hvx]; exact hkept⟩
  rw [h.owns_iff hv hid, Bool.eq_iff_iff, World.owns, List.any_eq_true]
  constructor
  · rintro ⟨v₁, hv₁, hmatch⟩
    obtain ⟨hid₁, hP⟩ := Bool.and_eq_true_iff.mp hmatch
    have heq := h.eq_of_jobId (Table.mem_rollback.mp hv₁).1 hv
      ((of_decide_eq_true hid₁).trans hid.symm)
    exact heq ▸ hP
  · intro hP
    exact ⟨v, hv', Bool.and_eq_true_iff.mpr ⟨decide_eq_true hid, hP⟩⟩

theorem Tenant.rollback (h : Tenant u n w) : Tenant u n (w.rollback n) where
  jobIds := (Table.rollback_sublist.map _).nodup h.jobIds
  connectionIds := h.connectionIds
  jobDrawn := fun v hv => h.jobDrawn v (Table.mem_rollback.mp hv).1
  connectionDrawn := h.connectionDrawn
  targetJob := by
    intro t ht
    obtain ⟨ht', hkept⟩ := Table.mem_rollback.mp ht
    obtain ⟨v, hv, hid, hvx, hvc, hrest⟩ := h.targetJob t ht'
    exact ⟨v, Table.mem_rollback.mpr ⟨hv, by rw [hvc, hvx]; exact hkept⟩, hid, hvx, hvc, hrest⟩
  own := fun v hv hx => h.own v (Table.mem_rollback.mp hv).1 hx
  sessions := by
    intro s hs
    obtain ⟨s', hs', rfl⟩ := List.mem_map.mp hs
    rw [if_neg (h.sessions s' hs')]
    exact h.sessions s' hs'

/-- The rollback takes back the rows of the transaction, which the user sees. -/
theorem agrees_rollback (h : Tenant u n w) :
    (observer u n ids).Agrees w (Stmt.exec (.rollback n) x w)
      (Stmt.exec (.rollback n) x (w.only u n ids)) := by
  refine .answers (alike_only rfl rfl ?_ ?_ rfl) h.rollback (.of_eq rfl rfl ?_ ?_ ?_)
  · exact Table.part_rollback
  · refine Eq.trans (Table.part_congr fun t ht => owns_rollback h _ ht) ?_
    exact Table.part_rollback
  · exact Table.content_rollback fun v hv hx => h.isNot_job hv hx
  · refine Eq.trans (Table.content_congr fun t ht => owns_rollback h _ ht) ?_
    exact Table.content_rollback fun t ht hx => h.owns_isNot ht hx
  · refine (List.map_congr_left fun s hs => ?_).trans (List.map_id _)
    exact if_neg (h.sessions s hs)

/-! ## Proper statements -/

/-- **Every query** of a request of the user answers the same on the part of the store that
the user sees, and changes no more than this part. -/
theorem agrees_query {q : Query β} (h : Tenant u n w) (hx : x.uuid ∈ ids)
    (hq : q.Proper u n (w.only u n ids)) :
    (observer u n ids).Agrees w (q.exec x w) (q.exec x (w.only u n ids)) := by
  cases q with
  | begin m => exact agrees_read h rfl
  | commit m => obtain rfl : m = n := hq; exact agrees_commit h
  | upsertConnection userId provider accountKey displayName metadata envelope =>
      obtain ⟨rfl, -⟩ := hq
      exact agrees_upsert h hx _ _ _ _ _
  | selectConnection id userId =>
      obtain ⟨rfl, -⟩ := hq
      exact agrees_read h (by rw [only_find_connection])
  | deleteConnection id userId => obtain ⟨rfl, -⟩ := hq; exact agrees_deleteConnection h id
  | insertEvent id ownerId document => obtain rfl : ownerId = u := hq; exact agrees_insertEvent h _ _
  | selectEventDocument id ownerId =>
      obtain ⟨rfl, -⟩ := hq
      exact agrees_read h (by rw [only_find_event])
  | selectJobByKey m userId key =>
      obtain ⟨rfl, rfl, -⟩ := hq
      exact agrees_selectJobByKey h key
  | insertJob m userId eventId key =>
      obtain ⟨rfl, rfl, hevent⟩ := hq
      exact agrees_insertJob h hx key hevent
  | selectConnectionProvider m id userId =>
      obtain ⟨rfl, -⟩ := hq
      exact agrees_read h (by rw [only_find_connection])
  | insertTarget m jobId connectionId provider options =>
      obtain ⟨rfl, hjob, hconnection⟩ := hq
      exact agrees_insertTarget h hx _ _ hjob hconnection
  | selectJob id userId =>
      obtain ⟨rfl, -⟩ := hq
      refine agrees_read h ?_
      rw [only_find_job (Or.inl rfl) fun j hj => (of_decide_eq_true hj).2]
  | selectTargets jobId => exact agrees_read h (by rw [only_filter_targets h hq.1])
  | _ => exact hq.elim

/-- **Every statement** of a request of the user does. -/
theorem agrees_stmt {st : Stmt β} (h : Tenant u n w) (hx : x.uuid ∈ ids)
    (hst : st.Proper u n (w.only u n ids)) :
    (observer u n ids).Agrees w (st.exec x w) (st.exec x (w.only u n ids)) := by
  cases st with
  | query q =>
      rw [Stmt.exec, Stmt.exec]
      split
      · exact agrees_read h rfl
      · exact agrees_query h hx hst
  | rollback m => obtain rfl : m = n := hst; exact agrees_rollback h
  | newUuid => exact agrees_newUuid h hx
  | randomUrlsafe bytes => exact agrees_read h rfl
  | encrypt aad tokens =>
      rw [Stmt.exec, Stmt.exec]
      split
      · exact agrees_read h rfl
      · exact agrees_same h rfl rfl rfl rfl rfl rfl (.of_eq rfl rfl rfl rfl rfl)
  | sendEvent event => exact agrees_same h rfl rfl rfl rfl rfl rfl (.of_eq rfl rfl rfl rfl rfl)
  | _ => exact hst.elim

end Service
