/-
# Tables under transactions

A table holds versions of rows.  A version knows the transaction that inserted it
and whether that transaction has committed; until then only the transaction
itself sees the row.

`insert`, `commit` and `rollback` are what a transaction does to a table, `update`
is an update by a statement of its own, and `rows tx` is what a statement inside
(`some n`) or outside (`none`) a transaction reads.  `pending n` are the rows that
transaction `n` has inserted and not committed.
-/
import Mathlib.Data.List.Basic
import Mathlib.Data.List.Nodup

namespace Mvcc

/-- A row with the transaction that inserted it. -/
@[ext] structure Version (α : Type) where
  xmin : ℕ
  committed : Bool
  row : α

/-- A table of rows of type `α`. -/
abbrev Table (α : Type) := List (Version α)

variable {α β : Type} {t : Table α} {v : Version α} {r : α} {n m : ℕ} {tx : Option ℕ}

/-- A statement inside the transaction, or outside any, sees the version. -/
def Version.visibleTo (tx : Option ℕ) (v : Version α) : Bool := v.committed || tx == some v.xmin

namespace Table

/-- The rows that a statement sees. -/
def rows (tx : Option ℕ) (t : Table α) : List α := (t.filter (·.visibleTo tx)).map Version.row

/-- Insert a row in transaction `n`. -/
def insert (n : ℕ) (r : α) (t : Table α) : Table α := t ++ [⟨n, false, r⟩]

/-- Commit transaction `n`. -/
def commit (n : ℕ) (t : Table α) : Table α :=
  t.map fun v => if v.xmin = n then { v with committed := true } else v

/-- Roll transaction `n` back. -/
def rollback (n : ℕ) (t : Table α) : Table α := t.filter fun v => v.committed || v.xmin != n

/-- Update the committed rows that satisfy `p`. -/
def update (p : α → Bool) (f : α → α) (t : Table α) : Table α :=
  t.map fun v => if v.committed && p v.row then { v with row := f v.row } else v

/-- The uncommitted rows of transaction `n`. -/
def pending (n : ℕ) (t : Table α) : List α :=
  (t.filter fun v => !v.committed && v.xmin == n).map Version.row

/-! ## Membership -/

/-- The rows that a transaction sees are those of the versions visible to it. -/
theorem mem_rows : r ∈ rows tx t ↔ ∃ v ∈ t, v.visibleTo tx = true ∧ v.row = r := by
  simp only [rows, List.mem_map, List.mem_filter, and_assoc]

/-- Outside a transaction the committed rows are seen. -/
theorem mem_rows_none : r ∈ rows none t ↔ ∃ v ∈ t, v.committed = true ∧ v.row = r := by
  simp [mem_rows, Version.visibleTo]

/-- An inserted row is not committed. -/
theorem mem_insert : v ∈ insert n r t ↔ v ∈ t ∨ v = ⟨n, false, r⟩ := by
  simp [insert]

/-- A rollback takes back what its own transaction has inserted and not committed. -/
theorem mem_rollback : v ∈ rollback n t ↔ v ∈ t ∧ (v.committed = true ∨ v.xmin ≠ n) := by
  simp [rollback]

/-- The pending rows of a transaction are those it has inserted and not committed. -/
theorem mem_pending : r ∈ pending n t ↔ (⟨n, false, r⟩ : Version α) ∈ t := by
  simp only [pending, List.mem_map, List.mem_filter, Bool.and_eq_true, Bool.not_eq_true',
    beq_iff_eq]
  constructor
  · rintro ⟨⟨x, c, row⟩, ⟨hv, hc, hx⟩, rfl⟩
    obtain rfl : x = n := hx
    obtain rfl : c = false := hc
    exact hv
  · intro h
    exact ⟨_, ⟨h, rfl, rfl⟩, rfl⟩

/-- A version after a commit is an old one, up to the mark. -/
theorem exists_of_mem_commit (h : v ∈ commit n t) :
    ∃ u ∈ t, u.xmin = v.xmin ∧ u.row = v.row ∧
      (v.committed = true ↔ u.committed = true ∨ u.xmin = n) := by
  obtain ⟨u, hu, rfl⟩ := List.mem_map.mp h
  refine ⟨u, hu, ?_⟩
  by_cases hx : u.xmin = n
  · simp [hx]
  · simp [hx]

theorem mem_commit_of_mem (h : v ∈ t) :
    ⟨v.xmin, v.committed || v.xmin == n, v.row⟩ ∈ commit n t := by
  refine List.mem_map.mpr ⟨v, h, ?_⟩
  by_cases hx : v.xmin = n
  · simp [hx]
  · rw [if_neg hx, beq_false_of_ne hx, Bool.or_false]

/-- A committed version is there after a commit. -/
theorem mem_commit_of_committed (h : v ∈ t) (hv : v.committed = true) : v ∈ commit n t := by
  have hmem := mem_commit_of_mem (n := n) h
  rwa [hv, Bool.true_or, ← hv] at hmem

/-- A commit leaves the versions of other transactions alone. -/
theorem mem_commit_iff_of_ne (h : v.xmin ≠ n) : v ∈ commit n t ↔ v ∈ t := by
  constructor
  · intro hv
    obtain ⟨u, hu, rfl⟩ := List.mem_map.mp hv
    by_cases hx : u.xmin = n
    · rw [if_pos hx] at h
      exact absurd hx h
    · rwa [if_neg hx]
  · intro hv
    exact List.mem_map.mpr ⟨v, hv, if_neg h⟩

/-- A transaction that has inserted nothing commits nothing. -/
theorem commit_eq_self (h : ∀ v ∈ t, v.xmin ≠ n) : commit n t = t := by
  refine (List.map_congr_left fun v hv => ?_).trans (List.map_id t)
  exact if_neg (h v hv)

/-- A commit leaves the versions of a row alone that are all committed. -/
theorem mem_commit_iff (h : ∀ u ∈ t, u.row = v.row → u.committed = true) :
    v ∈ commit n t ↔ v ∈ t := by
  constructor
  · intro hv
    obtain ⟨u, hu, hx, hrow, hc⟩ := exists_of_mem_commit hv
    have hu' := h u hu hrow
    have heq : u = v := by
      obtain ⟨x, c, row⟩ := u
      obtain ⟨x', c', row'⟩ := v
      obtain rfl : x = x' := hx
      obtain rfl : row = row' := hrow
      obtain rfl : c = true := hu'
      have hc' : c' = true := hc.mpr (Or.inl rfl)
      rw [hc']
    exact heq ▸ hu
  · intro hv
    exact mem_commit_of_committed hv (h v hv rfl)

/-- A rollback leaves a committed version alone. -/
theorem mem_rollback_iff (h : v ∈ t → v.committed = true) : v ∈ rollback n t ↔ v ∈ t := by
  rw [mem_rollback]
  exact ⟨fun hv => hv.1, fun hv => ⟨hv, Or.inl (h hv)⟩⟩

/-- A version after an update is an old one, with the same transaction and mark. -/
theorem exists_of_mem_update {p : α → Bool} {f : α → α} (h : v ∈ update p f t) :
    ∃ u ∈ t, u.xmin = v.xmin ∧ u.committed = v.committed ∧
      v.row = if u.committed && p u.row then f u.row else u.row := by
  obtain ⟨u, hu, rfl⟩ := List.mem_map.mp h
  refine ⟨u, hu, ?_⟩
  split <;> simp_all

theorem mem_update_of_mem {p : α → Bool} {f : α → α} (h : v ∈ t) :
    ⟨v.xmin, v.committed, if v.committed && p v.row then f v.row else v.row⟩ ∈ update p f t := by
  refine List.mem_map.mpr ⟨v, h, ?_⟩
  split
  · rfl
  · rfl

/-- A version whose row is not selected is there after an update. -/
theorem mem_update_of_not {p : α → Bool} {f : α → α} (h : v ∈ t) (hp : p v.row = false) :
    v ∈ update p f t := by
  refine List.mem_map.mpr ⟨v, h, ?_⟩
  rw [hp, Bool.and_false]
  rfl

/-- An update leaves the versions alone that it does not select, if it keeps the columns
it selects by. -/
theorem mem_update_iff {p : α → Bool} {f : α → α} (hf : ∀ r, p (f r) = p r)
    (hv : p v.row = false) : v ∈ update p f t ↔ v ∈ t := by
  refine ⟨fun h => ?_, fun h => mem_update_of_not h hv⟩
  obtain ⟨u, hu, hx, hc, hrow⟩ := exists_of_mem_update h
  have hu' : p u.row = false := by
    rw [hrow] at hv
    split at hv
    · rwa [hf] at hv
    · exact hv
  rw [hu', Bool.and_false] at hrow
  obtain ⟨x, c, row⟩ := u
  obtain ⟨x', c', row'⟩ := v
  obtain rfl : x = x' := hx
  obtain rfl : c = c' := hc
  obtain rfl : row' = row := hrow
  exact hu

/-! ## Updates one after the other -/

/-- An update does the same as one that agrees with it on the committed rows. -/
theorem update_congr {p q : α → Bool} {f g : α → α}
    (hp : ∀ v ∈ t, v.committed = true → p v.row = q v.row)
    (hf : ∀ v ∈ t, v.committed = true → p v.row = true → f v.row = g v.row) :
    update p f t = update q g t := by
  refine List.map_congr_left fun v hv => ?_
  cases hc : v.committed with
  | false => rfl
  | true =>
      rw [← hp v hv hc]
      cases hpv : p v.row with
      | false => rfl
      | true => simp [hf v hv hc hpv]

/-- Two updates of the same rows. -/
theorem update_update_self (p : α → Bool) (f g : α → α) (t : Table α) (hf : ∀ r, p (f r) = p r) :
    update p g (update p f t) = update p (g ∘ f) t := by
  rw [update, update, List.map_map]
  refine List.map_congr_left fun v _ => ?_
  by_cases hp : (v.committed && p v.row) = true
  · have hp' : (v.committed && p (f v.row)) = true := by rwa [hf]
    simp only [Function.comp_apply, if_pos hp, if_pos hp']
  · simp only [Function.comp_apply, if_neg hp]

/-- Updates of different rows. -/
theorem update_update_of_disjoint (p q : α → Bool) (f g : α → α) (t : Table α)
    (hpq : ∀ r, p r = true → q (f r) = false) :
    update q g (update p f t) =
      update (fun r => p r || q r) (fun r => if p r then f r else g r) t := by
  rw [update, update, List.map_map]
  refine List.map_congr_left fun v _ => ?_
  cases hc : v.committed with
  | false => simp [hc]
  | true =>
      cases hp : p v.row with
      | false => simp [hc, hp]
      | true => simp [hc, hp, hpq v.row hp]

/-! ## Columns -/

@[simp] theorem map_row_insert (f : α → β) :
    (insert n r t).map (fun v => f v.row) = t.map (fun v => f v.row) ++ [f r] := by
  simp [insert]

@[simp] theorem map_row_commit (f : α → β) :
    (commit n t).map (fun v => f v.row) = t.map (fun v => f v.row) := by
  rw [commit, List.map_map]
  apply List.map_congr_left
  intro v _
  show f (if v.xmin = n then { v with committed := true } else v).row = f v.row
  split <;> rfl

/-- A column that the update leaves alone. -/
theorem map_row_update {p : α → Bool} {g : α → α} (f : α → β) (h : ∀ r, f (g r) = f r) :
    (update p g t).map (fun v => f v.row) = t.map (fun v => f v.row) := by
  rw [update, List.map_map]
  apply List.map_congr_left
  intro v _
  show f (if v.committed && p v.row then { v with row := g v.row } else v).row = f v.row
  split
  · exact h v.row
  · rfl

theorem rollback_sublist : (rollback n t).Sublist t := List.filter_sublist

/-! ## Pending rows -/

@[simp] theorem pending_insert_self : pending n (insert n r t) = pending n t ++ [r] := by
  simp [pending, insert, List.filter_append]

theorem pending_insert_of_ne (h : m ≠ n) : pending m (insert n r t) = pending m t := by
  simp [pending, insert, List.filter_append, h.symm]

@[simp] theorem pending_commit_self : pending n (commit n t) = [] := by
  rw [List.eq_nil_iff_forall_not_mem]
  intro r h
  obtain ⟨u, -, hx, -, hc⟩ := exists_of_mem_commit (mem_pending.mp h)
  exact Bool.false_ne_true (hc.mpr (Or.inr hx))

@[simp] theorem pending_rollback_self : pending n (rollback n t) = [] := by
  rw [List.eq_nil_iff_forall_not_mem]
  intro r h
  rcases (mem_rollback.mp (mem_pending.mp h)).2 with hc | hx
  · exact Bool.false_ne_true hc
  · exact hx rfl

theorem pending_commit_of_ne (h : m ≠ n) : pending m (commit n t) = pending m t := by
  induction t with
  | nil => rfl
  | cons v t ih =>
      unfold pending commit at ih ⊢
      rw [List.map_cons, List.filter_cons, List.filter_cons]
      by_cases hx : v.xmin = n
      · simp [hx, h.symm, ih]
      · rw [if_neg hx]
        split
        · rw [List.map_cons, List.map_cons, ih]
        · exact ih

theorem pending_rollback_of_ne (h : m ≠ n) : pending m (rollback n t) = pending m t := by
  unfold pending rollback
  rw [List.filter_filter]
  congr 1
  apply List.filter_congr
  intro v _
  by_cases hx : v.xmin = m
  · simp [hx, h]
  · simp [hx]

/-- An update outside the transaction does not touch its rows. -/
@[simp] theorem pending_update {p : α → Bool} {f : α → α} :
    pending n (update p f t) = pending n t := by
  induction t with
  | nil => rfl
  | cons v t ih =>
      obtain ⟨x, c, r⟩ := v
      unfold pending update at ih ⊢
      rw [List.map_cons, List.filter_cons, List.filter_cons]
      cases c with
      | true => by_cases hp : p r = true <;> simpa [hp] using ih
      | false =>
          by_cases hx : x = n
          · simpa [hx] using ih
          · simpa [hx] using ih

/-- A transaction has uncommitted rows unless all its versions are committed. -/
theorem pending_eq_nil_iff : pending n t = [] ↔ ∀ v ∈ t, v.xmin = n → v.committed = true := by
  rw [List.eq_nil_iff_forall_not_mem]
  constructor
  · intro h v hv hx
    by_contra hc
    obtain ⟨x, c, r⟩ := v
    obtain rfl : x = n := hx
    obtain rfl : c = false := Bool.eq_false_iff.mpr hc
    exact h r (mem_pending.mpr hv)
  · intro h r hr
    exact Bool.false_ne_true (h _ (mem_pending.mp hr) rfl)

/-- Without uncommitted rows there is nothing to commit. -/
theorem commit_of_pending (h : pending n t = []) : commit n t = t := by
  refine (List.map_congr_left fun v hv => ?_).trans (List.map_id t)
  split
  · next hx =>
      obtain ⟨x, c, r⟩ := v
      obtain rfl : c = true := pending_eq_nil_iff.mp h _ hv hx
      rfl
  · rfl

/-- Without uncommitted rows there is nothing to roll back. -/
theorem rollback_of_pending (h : pending n t = []) : rollback n t = t := by
  refine List.filter_eq_self.mpr fun v hv => ?_
  by_cases hx : v.xmin = n
  · rw [pending_eq_nil_iff.mp h v hv hx]
    rfl
  · rw [bne_iff_ne.mpr hx, Bool.or_true]

/-- Without uncommitted rows a transaction sees what everybody sees. -/
theorem rows_of_pending (h : pending n t = []) : rows (some n) t = rows none t := by
  unfold rows
  congr 1
  apply List.filter_congr
  intro v hv
  unfold Version.visibleTo
  by_cases hx : v.xmin = n
  · rw [pending_eq_nil_iff.mp h v hv hx]
    rfl
  · have hne : (some n == some v.xmin) = false :=
      beq_false_of_ne fun heq => hx (Option.some.inj heq).symm
    rw [hne]
    rfl

/-- A commit marks what the transaction has appended. -/
theorem commit_append_map (rs : List α) :
    commit n (t ++ rs.map (⟨n, false, ·⟩)) = commit n t ++ rs.map (⟨n, true, ·⟩) := by
  simp [commit]

/-- A rollback drops what the transaction has appended. -/
theorem rollback_append_map (rs : List α) :
    rollback n (t ++ rs.map (⟨n, false, ·⟩)) = rollback n t := by
  simp [rollback, List.filter_append]

/-! ## Projections -/

/-- The table of some columns of the rows. -/
def mapRows (f : α → β) (t : Table α) : Table β := t.map fun v => ⟨v.xmin, v.committed, f v.row⟩

theorem mem_mapRows {f : α → β} {v : Version β} :
    v ∈ mapRows f t ↔ ∃ u ∈ t, u.xmin = v.xmin ∧ u.committed = v.committed ∧ f u.row = v.row := by
  simp only [mapRows, List.mem_map]
  constructor
  · rintro ⟨u, hu, rfl⟩
    exact ⟨u, hu, rfl, rfl, rfl⟩
  · rintro ⟨u, hu, hx, hc, hrow⟩
    obtain ⟨x, c, row⟩ := v
    exact ⟨u, hu, by rw [hx, hc, hrow]⟩

@[simp] theorem mapRows_insert (f : α → β) :
    mapRows f (insert n r t) = insert n (f r) (mapRows f t) := by
  simp [mapRows, insert]

/-- A commit changes marks only, so that it goes through every map of rows. -/
@[simp] theorem mapRows_commit (f : α → β) : mapRows f (commit n t) = commit n (mapRows f t) := by
  rw [mapRows, commit, commit, mapRows, List.map_map, List.map_map]
  apply List.map_congr_left
  intro v _
  by_cases hx : v.xmin = n
  · simp [hx]
  · simp [hx]

/-- An update of other columns. -/
theorem mapRows_update {p : α → Bool} {g : α → α} (f : α → β) (h : ∀ r, f (g r) = f r) :
    mapRows f (update p g t) = mapRows f t := by
  rw [mapRows, update, mapRows, List.map_map]
  apply List.map_congr_left
  intro v _
  by_cases hp : (v.committed && p v.row) = true
  · simp only [Function.comp_apply, if_pos hp, h]
  · simp only [Function.comp_apply, if_neg hp]

/-! ## Parts of a table -/

/-- The versions of the rows that satisfy `p`, as transaction `n` sees them: of the other
transactions it is only known that they are others. -/
def part (p : α → Bool) (n : ℕ) (t : Table α) : Table α :=
  (t.filter fun v => p v.row).map fun v => { v with xmin := if v.xmin = n then n else n + 1 }

/-- The rows that satisfy `p`, each with its mark. -/
def content (p : α → Bool) (t : Table α) : List (Bool × α) :=
  (t.filter fun v => p v.row).map fun v => (v.committed, v.row)

variable {p p' : α → Bool}

/-- A part forgets which other transaction has inserted a row. -/
theorem mem_part : v ∈ part p n t ↔
    ∃ u ∈ t, p u.row = true ∧ v = ⟨if u.xmin = n then n else n + 1, u.committed, u.row⟩ := by
  simp only [part, List.mem_map, List.mem_filter, and_assoc]
  constructor
  · rintro ⟨u, hu, hp, rfl⟩
    exact ⟨u, hu, hp, rfl⟩
  · rintro ⟨u, hu, hp, rfl⟩
    exact ⟨u, hu, hp, rfl⟩

/-- The other transactions are told apart from `n`. -/
theorem part_xmin_eq_iff {m : ℕ} : (if m = n then n else n + 1) = n ↔ m = n := by
  split
  · next h => exact iff_of_true rfl h
  · next h => exact iff_of_false (Nat.succ_ne_self n) h

theorem part_congr (h : ∀ v ∈ t, p v.row = p' v.row) : part p n t = part p' n t := by
  rw [part, part, List.filter_congr h]

theorem content_congr (h : ∀ v ∈ t, p v.row = p' v.row) : content p t = content p' t := by
  rw [content, content, List.filter_congr h]

/-- The content can be read off the part. -/
theorem content_eq_map_part : content p t = (part p n t).map fun v => (v.committed, v.row) := by
  rw [content, part, List.map_map]
  rfl

/-- Without versions of transaction `n` the part can be read off the content. -/
theorem part_eq_map_content (h : ∀ v ∈ t, v.xmin ≠ n) :
    part p n t = (content p t).map fun r => ⟨n + 1, r.1, r.2⟩ := by
  rw [content, part, List.map_map]
  apply List.map_congr_left
  intro v hv
  rw [if_neg (h v (List.mem_of_mem_filter hv))]
  rfl

/-- The rows that a transaction sees in a part are those of the part that it sees. -/
theorem rows_part (htx : tx = none ∨ tx = some n) :
    rows tx (part p n t) = (rows tx t).filter p := by
  have hvisible : ∀ v : Version α, Version.visibleTo tx
      { v with xmin := if v.xmin = n then n else n + 1 } = v.visibleTo tx := by
    intro v
    unfold Version.visibleTo
    rcases htx with rfl | rfl
    · rfl
    · by_cases hx : v.xmin = n
      · rw [if_pos hx, hx]
      · have hv : (some n == some v.xmin) = false :=
          beq_false_of_ne fun h => hx (Option.some.inj h).symm
        have hn : (some n == some (n + 1)) = false :=
          beq_false_of_ne fun h => Nat.succ_ne_self n (Option.some.inj h).symm
        rw [if_neg hx, hv, hn]
  rw [rows, part, List.filter_map, List.map_map, rows, List.filter_map, List.filter_filter,
    List.filter_filter]
  show List.map Version.row _ = _
  congr 1
  apply List.filter_congr
  intro v _
  show (Version.visibleTo tx _ && p v.row) = (p v.row && v.visibleTo tx)
  rw [hvisible, Bool.and_comm]

theorem any_part {f : Version α → Bool}
    (hf : ∀ v : Version α, f { v with xmin := if v.xmin = n then n else n + 1 } = f v)
    (h : ∀ v ∈ t, f v = true → p v.row = true) : (part p n t).any f = t.any f := by
  rw [Bool.eq_iff_iff, List.any_eq_true, List.any_eq_true]
  constructor
  · rintro ⟨v, hv, hfv⟩
    obtain ⟨u, hu, -, rfl⟩ := mem_part.mp hv
    exact ⟨u, hu, (hf u).symm.trans hfv⟩
  · rintro ⟨v, hv, hfv⟩
    exact ⟨_, mem_part.mpr ⟨v, hv, h v hv hfv, rfl⟩, (hf v).trans hfv⟩

theorem part_insert (h : p r = true) : part p n (insert n r t) = insert n r (part p n t) := by
  simp [part, insert, List.filter_append, h]

theorem part_commit : part p n (commit n t) = commit n (part p n t) := by
  rw [part, commit, commit, part, List.filter_map, List.map_map, List.map_map]
  have hfilter : (t.filter ((fun v => p v.row) ∘ fun v =>
      if v.xmin = n then { v with committed := true } else v)) = t.filter fun v => p v.row := by
    apply List.filter_congr
    intro v _
    show p (if v.xmin = n then { v with committed := true } else v).row = p v.row
    split <;> rfl
  rw [hfilter]
  apply List.map_congr_left
  intro v _
  by_cases hx : v.xmin = n
  · simp [hx]
  · simp [hx]

theorem part_rollback : part p n (rollback n t) = rollback n (part p n t) := by
  rw [part, rollback, rollback, part, List.filter_map, List.filter_filter, List.filter_filter]
  congr 1
  apply List.filter_congr
  intro v _
  by_cases hx : v.xmin = n
  · simp [hx, Bool.and_comm]
  · have hv : (v.xmin != n) = true := bne_iff_ne.mpr hx
    simp [hx, hv]

/-- A commit does not change the content of a part without rows of the transaction. -/
theorem content_commit (h : ∀ v ∈ t, v.xmin = n → p v.row = false) :
    content p (commit n t) = content p t := by
  induction t with
  | nil => rfl
  | cons v t ih =>
      have ih' := ih fun u hu => h u (List.mem_cons_of_mem _ hu)
      unfold content commit at ih' ⊢
      rw [List.map_cons, List.filter_cons, List.filter_cons]
      by_cases hx : v.xmin = n
      · rw [if_pos hx, if_neg (by simp [h v List.mem_cons_self hx]),
          if_neg (by simp [h v List.mem_cons_self hx])]
        exact ih'
      · rw [if_neg hx]
        split
        · rw [List.map_cons, List.map_cons, ih']
        · exact ih'

theorem content_rollback (h : ∀ v ∈ t, v.xmin = n → p v.row = false) :
    content p (rollback n t) = content p t := by
  rw [content, rollback, List.filter_filter, content]
  congr 1
  apply List.filter_congr
  intro v hv
  by_cases hx : v.xmin = n
  · rw [h v hv hx, Bool.false_and]
  · simp [hx]

theorem content_insert (h : p r = false) : content p (insert n r t) = content p t := by
  simp [content, insert, List.filter_append, h]

end Table

end Mvcc
