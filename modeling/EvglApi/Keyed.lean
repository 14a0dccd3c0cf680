/-
# Rows that are looked up

`found` and `exists_found` say what a `SELECT … WHERE …` finds.  In a table with a
primary key, `lookup` reads the row of a key, and `insertBound` is an insertion that
tolerates a row of the same key if the two agree on the columns that matter.
-/
import Mathlib.Data.List.Nodup

namespace Keyed

/-! ## Rows with a property -/

section Property

variable {α : Type} {p : α → Prop} [DecidablePred p] {rows : List α} {a : α}

/-- A row that is found is in the table and has the property. -/
theorem found (h : rows.find? (fun a => p a) = some a) : a ∈ rows ∧ p a := by
  have hp := List.find?_some h
  exact ⟨List.mem_of_find?_eq_some h, of_decide_eq_true hp⟩

/-- If some row has the property, one is found. -/
theorem exists_found (ha : a ∈ rows) (hp : p a) :
    ∃ b, rows.find? (fun a => p a) = some b ∧ b ∈ rows ∧ p b := by
  cases hfind : rows.find? fun a => p a with
  | some b => exact ⟨b, rfl, found hfind⟩
  | none =>
      have hnone := List.find?_eq_none.mp hfind a ha
      exact absurd (decide_eq_true hp) hnone

/-- The row that is found is found with a further property that it has. -/
theorem found_and {q : α → Prop} [DecidablePred q] (h : rows.find? (fun a => p a) = some a)
    (hq : q a) : rows.find? (fun a => p a ∧ q a) = some a := by
  induction rows with
  | nil => cases h
  | cons b rows ih =>
      rw [List.find?_cons] at h ⊢
      by_cases hb : p b
      · rw [decide_eq_true hb] at h
        obtain rfl := Option.some.inj h
        rw [decide_eq_true ⟨hb, hq⟩]
      · rw [decide_eq_false hb] at h
        rw [decide_eq_false fun hpq : p b ∧ q b => hb hpq.1]
        exact ih h

end Property

/-! ## Rows with a key -/

/-- If the keys are distinct and the rows with the property have one key, the row that is found
does not depend on the order of the rows. -/
theorem find?_perm {α κ : Type} {key : α → κ} {p : α → Prop} [DecidablePred p] {rows rows' : List α}
    (hkeys : (rows.map key).Nodup) (hp : ∀ {a b}, p a → p b → key a = key b)
    (hperm : rows.Perm rows') : rows.find? (fun a => p a) = rows'.find? (fun a => p a) := by
  cases hfind : rows.find? fun a => p a with
  | none =>
      refine (List.find?_eq_none.mpr fun a ha => ?_).symm
      exact List.find?_eq_none.mp hfind a (hperm.symm.subset ha)
  | some a =>
      obtain ⟨ha, hpa⟩ := found hfind
      obtain ⟨b, hfind', hb, hpb⟩ := exists_found (hperm.subset ha) hpa
      rw [hfind', List.inj_on_of_nodup_map hkeys ha (hperm.symm.subset hb) (hp hpa hpb)]

/-- A row with a new key keeps the keys distinct. -/
theorem nodup_concat {α κ : Type} {key : α → κ} {rows : List α} {row : α}
    (h : (rows.map key).Nodup) (hnew : ∀ a ∈ rows, key a ≠ key row) :
    ((rows ++ [row]).map key).Nodup := by
  rw [List.map_append, List.nodup_append]
  refine ⟨h, List.nodup_singleton _, fun k hk k' hk' => ?_⟩
  obtain ⟨a, ha, rfl⟩ := List.mem_map.mp hk
  rw [List.map_singleton, List.mem_singleton] at hk'
  rw [hk']
  exact hnew a ha

variable {α κ : Type} [DecidableEq κ] (key : α → κ)

/-- The row of a key. -/
def lookup (rows : List α) (k : κ) : Option α := rows.find? fun a => key a = k

/-- `INSERT … ON CONFLICT (key) DO UPDATE SET key = excluded.key WHERE … RETURNING`: the
row is inserted if no row has its key.  Otherwise nothing changes, and a row is returned
only if the one with the key is the `same` in the bound columns. -/
def insertBound (same : α → Bool) (row : α) (rows : List α) : Bool × List α :=
  match lookup key rows (key row) with
  | none => (true, rows ++ [row])
  | some old => (same old, rows)

variable {key} {same : α → Bool} {row a : α} {rows : List α} {k : κ}

theorem key_of_lookup (h : lookup key rows k = some a) : key a = k := by
  have hfound := found h
  exact hfound.2

/-- With distinct keys, every row is the row of its key. -/
theorem lookup_eq_of_mem (hnodup : (rows.map key).Nodup) (ha : a ∈ rows) :
    lookup key rows (key a) = some a := by
  obtain ⟨b, hfound, hb, hkey⟩ := exists_found (p := fun b => key b = key a) ha rfl
  obtain rfl : b = a := List.inj_on_of_nodup_map hnodup hb ha hkey
  exact hfound

/-- With distinct keys, the row of a key depends on the set of rows with this key only. -/
theorem lookup_congr {rows' : List α} (hnodup : (rows.map key).Nodup)
    (hnodup' : (rows'.map key).Nodup) (hsame : ∀ a, key a = k → (a ∈ rows ↔ a ∈ rows')) :
    lookup key rows k = lookup key rows' k := by
  cases h : lookup key rows k with
  | some a =>
      obtain rfl := key_of_lookup h
      have ha : a ∈ rows := List.mem_of_find?_eq_some h
      rw [lookup_eq_of_mem hnodup' ((hsame a rfl).mp ha)]
  | none =>
      cases h' : lookup key rows' k with
      | none => rfl
      | some a =>
          obtain rfl := key_of_lookup h'
          have ha : a ∈ rows' := List.mem_of_find?_eq_some h'
          rw [lookup_eq_of_mem hnodup ((hsame a rfl).mpr ha)] at h
          cases h

/-- A row that is found is found in a longer table too. -/
theorem lookup_append {rows' : List α} (h : lookup key rows k = some a) :
    lookup key (rows ++ rows') k = some a := by
  unfold lookup at h ⊢
  rw [List.find?_append, h]
  rfl

/-- A row that is found is found in a table that begins with the rows. -/
theorem lookup_of_prefix {rows' : List α} (hrows : rows <+: rows')
    (h : lookup key rows k = some a) : lookup key rows' k = some a := by
  obtain ⟨rest, rfl⟩ := hrows
  exact lookup_append h

/-- A part of the row that is found is found among the parts. -/
theorem map_lookup {β : Type} {f : α → β} {key' : β → κ} (hkey : ∀ a, key' (f a) = key a) :
    (lookup key rows k).map f = lookup key' (rows.map f) k := by
  unfold lookup
  rw [List.find?_map]
  have hpred : ((fun b => decide (key' b = k)) ∘ f) = fun a => decide (key a = k) := by
    funext a
    show decide (key' (f a) = k) = _
    rw [hkey]
  rw [hpred]

/-- If a table begins with the parts of the rows, a row with the part of the one that is
found is found in it. -/
theorem exists_lookup_of_prefix {β : Type} {f : α → β} {key' : β → κ} {rows' : List α}
    (hkey : ∀ a, key' (f a) = key a) (hrows : rows.map f <+: rows'.map f)
    (h : lookup key rows k = some a) : ∃ a', lookup key rows' k = some a' ∧ f a' = f a := by
  have hpart : lookup key' (rows.map f) k = some (f a) := by
    rw [← map_lookup hkey, h]
    rfl
  have hlater := lookup_of_prefix hrows hpart
  rw [← map_lookup hkey] at hlater
  exact Option.map_eq_some_iff.mp hlater

/-- A new row is found if no other one has its key. -/
theorem lookup_concat (h : lookup key rows (key row) = none) :
    lookup key (rows ++ [row]) (key row) = some row := by
  unfold lookup at h ⊢
  rw [List.find?_append, h]
  simp

/-- An update that keeps the keys updates the row that is found. -/
theorem lookup_map {f : α → α} (hf : ∀ a, key (f a) = key a) :
    lookup key (rows.map f) k = (lookup key rows k).map f := (map_lookup hf).symm

/-- A change of rows with other keys leaves the rows of a key as they are. -/
theorem filter_map_of_ne {p : α → Prop} [DecidablePred p] {f : α → α}
    (hkey : ∀ a, key (f a) = key a) (hne : ∀ a, p a → key a ≠ k) (rows : List α) :
    (rows.map fun a => if p a then f a else a).filter (fun a => key a = k) =
      rows.filter fun a => key a = k := by
  induction rows with
  | nil => rfl
  | cons a rows ih =>
      rw [List.map_cons, List.filter_cons, List.filter_cons, ih]
      by_cases hp : p a
      · rw [if_pos hp, hkey, if_neg (by simp [hne a hp]), if_neg (by simp [hne a hp])]
      · rw [if_neg hp]

/-- An insertion changes no row. -/
theorem lookup_insertBound (h : lookup key rows k = some a) :
    lookup key (insertBound key same row rows).2 k = some a := by
  unfold insertBound
  split
  · exact lookup_append h
  · exact h

/-- An insertion adds at most one row, at the end. -/
theorem prefix_insertBound : rows <+: (insertBound key same row rows).2 := by
  unfold insertBound
  split
  · exact List.prefix_append _ _
  · exact List.prefix_refl _

/-- An insertion adds the row if its key is new, and changes nothing otherwise. -/
theorem insertBound_cases (key : α → κ) (same : α → Bool) (row : α) (rows : List α) :
    (lookup key rows (key row) = none ∧ insertBound key same row rows = (true, rows ++ [row])) ∨
      ∃ old, lookup key rows (key row) = some old ∧
        insertBound key same row rows = (same old, rows) := by
  unfold insertBound
  cases h : lookup key rows (key row) with
  | none => exact Or.inl ⟨rfl, rfl⟩
  | some old => exact Or.inr ⟨old, rfl, rfl⟩

/-- A row of a table after an insertion is an old one or the new one. -/
theorem mem_of_mem_insertBound (h : a ∈ (insertBound key same row rows).2) : a ∈ rows ∨ a = row := by
  rcases insertBound_cases key same row rows with ⟨-, heq⟩ | ⟨old, -, heq⟩
  · rw [heq] at h
    exact (List.mem_append.mp h).imp_right List.mem_singleton.mp
  · rw [heq] at h
    exact Or.inl h

/-- An insertion that returns a row leaves one with the key and the bound columns. -/
theorem exists_of_insertBound (h : (insertBound key same row rows).1 = true) :
    ∃ a, lookup key (insertBound key same row rows).2 (key row) = some a ∧
      (a = row ∨ same a = true) := by
  unfold insertBound at h ⊢
  split at h
  · next hnone => exact ⟨row, lookup_concat hnone, Or.inl rfl⟩
  · next old hold => exact ⟨old, hold, Or.inr h⟩

end Keyed
