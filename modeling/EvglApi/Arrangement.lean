/-
# Results in the order of some columns

`orderBy` is the result of a query with an `ORDER BY` clause.  The clause does not say
in which order rows with equal sort columns come; `place` stands for the choice.

* `Arranged` is what the clause does say, of every such choice (`arranged_orderBy`), and
  every list of which it is true is the result of some choice (`exists_orderBy`).
* Two results with the same rows are the same up to ties (`Arranged.sameUpTo`).
-/
import Mathlib.Data.List.Sort

variable {α κ : Type} {le : α → α → Prop} {rows rows' l l' : List α} {key : α → κ}

/-- The rows of a result in the order of `le`; which of two rows comes first that `le` leaves
open is decided by their places. -/
def orderBy (le : α → α → Prop) [DecidableRel le] (place : α → ℕ) (rows : List α) : List α :=
  (rows.insertionSort fun a b => place a ≤ place b).insertionSort le

/-- The list has the rows in an order that `le` allows. -/
structure Arranged (le : α → α → Prop) (rows l : List α) : Prop where
  perm : l.Perm rows
  sorted : l.Pairwise le

theorem orderBy_perm [DecidableRel le] (place : α → ℕ) (rows : List α) :
    (orderBy le place rows).Perm rows :=
  (List.perm_insertionSort _ _).trans (List.perm_insertionSort _ _)

theorem arranged_orderBy [DecidableRel le] [Std.Total le] [IsTrans α le] (place : α → ℕ)
    (rows : List α) : Arranged le rows (orderBy le place rows) :=
  ⟨orderBy_perm place rows, List.pairwise_insertionSort le _⟩

/-- Elements without repetition come in the order of their positions. -/
theorem pairwise_idxOf [DecidableEq κ] {ks : List κ} (h : ks.Nodup) :
    ks.Pairwise fun a b => ks.idxOf a < ks.idxOf b := by
  rw [List.pairwise_iff_getElem]
  intro i j hi hj hij
  rwa [h.idxOf_getElem i hi, h.idxOf_getElem j hj]

/-- Every arrangement of rows with distinct ids is the result of a choice of places. -/
theorem exists_orderBy [DecidableRel le] [DecidableEq κ] {id : α → κ} (hids : (rows.map id).Nodup)
    (h : Arranged le rows l) : ∃ place : κ → ℕ, orderBy le (fun a => place (id a)) rows = l := by
  have hnodup : (l.map id).Nodup := (h.perm.map id).nodup_iff.mpr hids
  have hplaces := List.pairwise_map.mp (pairwise_idxOf hnodup)
  refine ⟨(l.map id).idxOf, ?_⟩
  let before (a b : α) : Prop := (l.map id).idxOf (id a) ≤ (l.map id).idxOf (id b)
  have : Std.Total before := ⟨fun a b => le_total _ _⟩
  have : IsTrans α before := ⟨fun a b c => le_trans⟩
  -- the places put the rows in the order of the list, and so the clause finds them sorted
  have hplaced : rows.insertionSort before = l := by
    have hperm := (List.perm_insertionSort before rows).trans h.perm.symm
    refine hperm.eq_of_pairwise (fun a b ha hb hab hba => ?_)
      (List.pairwise_insertionSort before rows) (hplaces.imp fun hlt => hlt.le)
    have hmem := List.mem_map_of_mem (f := id) (hperm.subset ha)
    have hid : id a = id b := (List.idxOf_inj hmem).mp (le_antisymm hab hba)
    exact List.inj_on_of_nodup_map hnodup (hperm.subset ha) hb hid
  have hsorted := h.sorted.insertionSort_eq
  rw [orderBy]
  exact (congrArg (List.insertionSort le) hplaced).trans hsorted

/-! ## Ties -/

/-- The same rows in the same order, up to rows with the same key. -/
structure SameUpTo (key : α → κ) (l l' : List α) : Prop where
  perm : l.Perm l'
  keys : l.map key = l'.map key

/-- Two arrangements of the same rows have the same key at each place. -/
theorem Arranged.sameUpTo {r : κ → κ → Prop} [Std.Antisymm r]
    (hle : ∀ {a b}, le a b → r (key a) (key b)) (h : Arranged le rows l)
    (h' : Arranged le rows' l') (hrows : rows.Perm rows') : SameUpTo key l l' := by
  have hperm : l.Perm l' := (h.perm.trans hrows).trans h'.perm.symm
  refine ⟨hperm, (hperm.map key).eq_of_pairwise (fun a b _ _ => antisymm (r := r)) ?_ ?_⟩
  · exact List.pairwise_map.mpr (h.sorted.imp hle)
  · exact List.pairwise_map.mpr (h'.sorted.imp hle)

/-- Without ties there is one arrangement. -/
theorem SameUpTo.eq (h : SameUpTo key l l') (hkeys : (l.map key).Nodup) : l = l' := by
  have hlen : l.length = l'.length := h.perm.length_eq
  refine List.ext_getElem hlen fun i hi hi' => ?_
  have hkey : key l[i] = key l'[i] := by
    have hmap := List.getElem_of_eq h.keys (i := i) (by simpa using hi)
    simpa using hmap
  exact List.inj_on_of_nodup_map hkeys (List.getElem_mem hi)
    (h.perm.symm.subset (List.getElem_mem hi')) hkey
