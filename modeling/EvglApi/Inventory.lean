/-
# Inventory and stock

What the upsert of a capacity and the writes of an allocation do to the rows of an event.

* `Stocked` is the invariant of an event: the capacity covers the allocated stock.
* `Guarded` is the condition under which an update of the capacity keeps it: if the new
  capacity covers the stock that the statement has seen, it covers the stock that is
  committed now.
-/
import EvglApi.Ticketing

open Concurrency
open Admission (Timestamp timestamptz)

namespace Ticketing

variable {db db' seen : Database} {e : Uuid} {now : Timestamp}

/-! ## The rows of an event -/

/-- The rows of an event. -/
def Database.rowsOf (db : Database) (e : Uuid) :
    List InventoryRow × List HoldRow × List OrderRow :=
  (db.inventory.filter (·.eventId = e), db.holds.filter (·.eventId = e),
    db.orders.filter (·.eventId = e))

/-- The inventory of an event depends on the rows of the event. -/
theorem inventoryOf_congr (h : db'.rowsOf e = db.rowsOf e) :
    db'.inventoryOf e = db.inventoryOf e := by
  unfold Database.inventoryOf
  rw [← List.head?_filter, ← List.head?_filter]
  exact congrArg (fun rows => rows.1.head?) h

/-- So does what is allocated of it. -/
theorem allocated_congr (h : db'.rowsOf e = db.rowsOf e) :
    db'.allocated e now = db.allocated e now := by
  have hholds : db'.holds.filter (·.eventId = e) = db.holds.filter (·.eventId = e) :=
    congrArg (fun rows => rows.2.1) h
  have horders : db'.orders.filter (·.eventId = e) = db.orders.filter (·.eventId = e) :=
    congrArg (fun rows => rows.2.2) h
  have hheld : ∀ db : Database, db.held e now =
      (((db.holds.filter (·.eventId = e)).filter fun h =>
        h.status = "held" ∧ h.expiresAt > now).map (·.quantity)).sum := by
    intro db
    rw [List.filter_filter, Database.held]
    simp only [Bool.decide_and, Bool.and_comm]
  have hpaid : ∀ db : Database, db.paid e =
      (((db.orders.filter (·.eventId = e)).filter fun o => o.status = "paid").map
        (·.quantity)).sum := by
    intro db
    rw [List.filter_filter, Database.paid]
    simp only [Bool.decide_and, Bool.and_comm]
  unfold Database.allocated
  rw [hheld, hheld, hpaid, hpaid, hholds, horders]

/-- The capacity of the event covers its allocated stock; an event without an inventory row
has none. -/
structure Stocked (now : Timestamp) (db : Database) (e : Uuid) : Prop where
  covers : ∀ row, db.inventoryOf e = some row → (db.allocated e now : ℤ) ≤ row.capacity
  unstocked : db.inventoryOf e = none → db.allocated e now = 0

theorem Stocked.of_rows (h : db'.rowsOf e = db.rowsOf e) (hstocked : Stocked now db e) :
    Stocked now db' e := by
  refine ⟨fun row hrow => ?_, fun hnone => ?_⟩
  · rw [allocated_congr h]
    exact hstocked.covers row (inventoryOf_congr h ▸ hrow)
  · rw [allocated_congr h]
    exact hstocked.unstocked (inventoryOf_congr h ▸ hnone)

theorem Stocked.release (h : Stocked now db e) : Stocked now (db.release n) e :=
  ⟨h.covers, h.unstocked⟩

/-! ## The upsert -/

/-- The inventory row of the event after the upsert. -/
theorem inventoryOf_upsertInventory (row : InventoryRow) :
    (db.upsertInventory seen row).2.inventoryOf row.eventId =
      match db.inventoryOf row.eventId with
      | none => some row
      | some old =>
          if row.capacity ≥ seen.allocated row.eventId row.updatedAt then
            some { old with capacity := row.capacity, updatedAt := row.updatedAt }
          else some old := by
  unfold Database.upsertInventory
  cases hold : db.inventoryOf row.eventId with
  | none =>
      show (db.inventory ++ [row]).find? _ = some row
      rw [List.find?_append]
      rw [Database.inventoryOf] at hold
      rw [hold]
      simp
  | some old =>
      dsimp only
      split
      · have hold' : Keyed.lookup (fun r : InventoryRow => r.eventId) db.inventory row.eventId =
            some old := hold
        show Keyed.lookup (fun r : InventoryRow => r.eventId) (db.inventory.map _) row.eventId = _
        -- the update does not touch the key of a row
        rw [Keyed.lookup_map fun r => by split <;> rfl, hold', Option.map_some,
          if_pos (Keyed.key_of_lookup hold')]
      · exact hold

/-- An update of an inventory concerns one event. -/
theorem rowsOf_upsertInventory (row : InventoryRow) (hne : e ≠ row.eventId) :
    (db.upsertInventory seen row).2.rowsOf e = db.rowsOf e := by
  unfold Database.upsertInventory
  split
  · unfold Database.rowsOf
    rw [List.filter_append]
    simp [hne.symm]
  · split
    · refine Prod.ext ?_ rfl
      have hother : ∀ r : InventoryRow, r.eventId = row.eventId → r.eventId ≠ e :=
        fun r hr heq => hne (heq.symm.trans hr)
      show (db.inventory.map _).filter _ = db.inventory.filter _
      exact Keyed.filter_map_of_ne
        (f := fun r : InventoryRow =>
          { r with capacity := row.capacity, updatedAt := row.updatedAt })
        (fun _ => rfl) hother db.inventory
    · rfl

/-- The upsert allocates nothing. -/
theorem allocated_upsertInventory (row : InventoryRow) :
    (db.upsertInventory seen row).2.allocated e now = db.allocated e now := by
  unfold Database.upsertInventory
  split
  · rfl
  · split
    · rfl
    · rfl

/-- If the capacity covers the stock that was seen, it covers the committed one. -/
def Guarded (db seen : Database) (row : InventoryRow) : Prop :=
  db.inventoryOf row.eventId = none ∨
    (row.capacity ≥ seen.allocated row.eventId row.updatedAt →
      row.capacity ≥ db.allocated row.eventId row.updatedAt)

instance (db seen : Database) (row : InventoryRow) : Decidable (Guarded db seen row) :=
  inferInstanceAs (Decidable (_ ∨ (_ → _)))

/-- The guard compares the new capacity with what is allocated, so that an update under the
guard keeps the stock. -/
theorem stocked_upsertInventory {row : InventoryRow} (hnow : row.updatedAt = now)
    (hcapacity : 0 ≤ row.capacity) (hguarded : Guarded db seen row)
    (h : Stocked now db e) : Stocked now (db.upsertInventory seen row).2 e := by
  by_cases hne : e = row.eventId
  · subst hne
    refine ⟨fun r hr => ?_, fun hnone => ?_⟩
    · rw [allocated_upsertInventory]
      rw [inventoryOf_upsertInventory] at hr
      cases hold : db.inventoryOf row.eventId with
      | none =>
          rw [hold] at hr
          -- without a row nothing was allocated, and a capacity is not negative
          obtain rfl := Option.some.inj hr
          rw [h.unstocked hold]
          exact hcapacity
      | some old =>
          rw [hold] at hr
          dsimp only at hr
          split at hr
          · next hseen =>
              -- the statement has seen enough capacity, and it was guarded
              obtain rfl := Option.some.inj hr
              have hcovers := hguarded.resolve_left (by rw [hold]; exact Option.some_ne_none old)
              exact hnow ▸ hcovers hseen
          · obtain rfl := Option.some.inj hr
            exact h.covers old hold
    · rw [allocated_upsertInventory]
      rw [inventoryOf_upsertInventory] at hnone
      cases hold : db.inventoryOf row.eventId with
      | none => exact h.unstocked hold
      | some old =>
          rw [hold] at hnone
          dsimp only at hnone
          split at hnone
          · cases hnone
          · cases hnone
  · exact h.of_rows (rowsOf_upsertInventory row hne)

/-- Where the guard misses stock, the upsert leaves a capacity that does not cover it. -/
theorem not_stocked_upsertInventory {row : InventoryRow} (hnow : row.updatedAt = now)
    (h : ¬ Guarded db seen row) :
    ∃ r, (db.upsertInventory seen row).2.inventoryOf row.eventId = some r ∧
      r.capacity < (db.upsertInventory seen row).2.allocated row.eventId now := by
  rw [Guarded, not_or, Classical.not_imp, ge_iff_le, ge_iff_le, not_le] at h
  obtain ⟨hsome, hseen, hless⟩ := h
  obtain ⟨old, hold⟩ := Option.ne_none_iff_exists'.mp hsome
  rw [inventoryOf_upsertInventory, hold]
  dsimp only
  rw [if_pos hseen, allocated_upsertInventory, ← hnow]
  exact ⟨_, rfl, hless⟩

/-! ## The writes of an allocation -/

def Write.eventId : Write → Uuid
  | .insertHold hold => hold.eventId
  | .closeHold _ eventId => eventId
  | .insertOrder order => order.eventId

theorem rowsOf_write {w : Write} (hne : e ≠ w.eventId) : (db.write w).rowsOf e = db.rowsOf e := by
  cases w with
  | insertHold hold =>
      have hother : hold.eventId ≠ e := fun heq => hne heq.symm
      simp [Database.rowsOf, Database.write, hother]
  | closeHold holdId eventId =>
      refine Prod.ext rfl (Prod.ext ?_ rfl)
      have hother : ∀ h : HoldRow, h.id = holdId ∧ h.eventId = eventId → h.eventId ≠ e :=
        fun h hclosed heq => hne (heq.symm.trans hclosed.2)
      show (db.holds.map _).filter _ = db.holds.filter _
      exact Keyed.filter_map_of_ne (f := fun h : HoldRow => { h with status := "consumed" })
        (fun _ => rfl) hother db.holds
  | insertOrder order =>
      have hother : order.eventId ≠ e := fun heq => hne heq.symm
      simp [Database.rowsOf, Database.write, hother]

/-- The writes of an allocation concern one event. -/
theorem rowsOf_writes {ws : List Write} (hne : ∀ w ∈ ws, e ≠ w.eventId) :
    (ws.foldl Database.write db).rowsOf e = db.rowsOf e := by
  induction ws generalizing db with
  | nil => rfl
  | cons w ws ih =>
      rw [List.foldl_cons, ih fun w' hw' => hne w' (List.mem_cons_of_mem _ hw')]
      exact rowsOf_write (hne w List.mem_cons_self)

theorem inventory_writes (ws : List Write) :
    (ws.foldl Database.write db).inventory = db.inventory := by
  induction ws generalizing db with
  | nil => rfl
  | cons w ws ih =>
      rw [List.foldl_cons, ih]
      cases w with
      | insertHold hold => rfl
      | closeHold holdId eventId => rfl
      | insertOrder order => rfl

section Sums

variable {rows : List α} {p : α → Bool} {f : α → ℕ}

/-- A row adds its quantity to a sum, or nothing. -/
theorem sum_concat_le (a : α) :
    (((rows ++ [a]).filter p).map f).sum ≤ ((rows.filter p).map f).sum + f a := by
  rw [List.filter_append, List.map_append, List.sum_append]
  cases hp : p a with
  | true => simp [hp]
  | false => simp [hp]

variable {close : α → α} (hclose : ∀ a, p (close a) = true → close a = a)
include hclose

/-- A row that is closed is no longer counted. -/
theorem sum_close_le : (((rows.map close).filter p).map f).sum ≤ ((rows.filter p).map f).sum := by
  induction rows with
  | nil => simp
  | cons a rows ih =>
      rw [List.map_cons, List.filter_cons]
      split
      · next hp =>
          have ha := hclose a hp
          rw [ha] at hp ⊢
          rw [List.filter_cons, if_pos hp, List.map_cons, List.map_cons, List.sum_cons,
            List.sum_cons]
          omega
      · refine ih.trans ?_
        rw [List.filter_cons]
        split
        · rw [List.map_cons, List.sum_cons]
          omega
        · exact le_refl _

/-- A counted row that is closed gives its quantity back. -/
theorem sum_close_add_le {a : α} (ha : a ∈ rows) (hp : p a = true) (hp' : p (close a) = false) :
    (((rows.map close).filter p).map f).sum + f a ≤ ((rows.filter p).map f).sum := by
  induction rows with
  | nil => cases ha
  | cons b rows ih =>
      rw [List.map_cons, List.filter_cons, List.filter_cons]
      rcases List.mem_cons.mp ha with rfl | ha
      · have hrest : (((rows.map close).filter p).map f).sum ≤ ((rows.filter p).map f).sum :=
          sum_close_le hclose
        rw [hp', if_neg Bool.false_ne_true, if_pos hp, List.map_cons, List.sum_cons]
        omega
      · have hrest := ih ha
        split
        · next hb =>
            have hb' := hclose b hb
            rw [hb'] at hb ⊢
            rw [if_pos hb, List.map_cons, List.map_cons, List.sum_cons, List.sum_cons]
            omega
        · split
          · rw [List.map_cons, List.sum_cons]
            omega
          · exact hrest

end Sums

/-- A hold adds its quantity and no more. -/
theorem allocated_insertHold (hold : HoldRow) :
    (db.write (.insertHold hold)).allocated e now ≤ db.allocated e now + hold.quantity := by
  have hsum : (db.write (.insertHold hold)).held e now ≤ db.held e now + hold.quantity :=
    sum_concat_le hold
  have hpaid : (db.write (.insertHold hold)).paid e = db.paid e := rfl
  unfold Database.allocated
  omega

theorem allocated_insertOrder (order : OrderRow) :
    (db.write (.insertOrder order)).allocated e now ≤ db.allocated e now + order.quantity := by
  have hsum : (db.write (.insertOrder order)).paid e ≤ db.paid e + order.quantity :=
    sum_concat_le order
  have hheld : (db.write (.insertOrder order)).held e now = db.held e now := rfl
  unfold Database.allocated
  omega

/-- A live hold gives its tickets back when it is closed. -/
theorem allocated_closeHold {hold : HoldRow} (hmem : hold ∈ db.holds) (hevent : hold.eventId = e)
    (hheld : hold.status = "held") (hlive : hold.expiresAt > now) :
    (db.write (.closeHold hold.id e)).allocated e now + hold.quantity ≤ db.allocated e now := by
  have hsum : (db.write (.closeHold hold.id e)).held e now + hold.quantity ≤ db.held e now := by
    refine sum_close_add_le (fun h hcounted => ?_) hmem
      (decide_eq_true ⟨hevent, hheld, hlive⟩) ?_
    · split at hcounted
      · have hstatus := (of_decide_eq_true hcounted).2.1
        exact absurd (show "consumed" = "held" from hstatus) (by decide)
      · next hother => rw [if_neg hother]
    · rw [if_pos ⟨rfl, hevent⟩]
      refine decide_eq_false fun h => ?_
      exact absurd (show "consumed" = "held" from h.2.1) (by decide)
  have hpaid : (db.write (.closeHold hold.id e)).paid e = db.paid e := rfl
  unfold Database.allocated
  omega

/-! ## Allocations -/

namespace Allocation

variable {a : Allocation} {ws : List Write} {quantity : ℕ}

theorem eventId_of_mem_writes (h : a.writes db now = some ws) {w : Write} (hw : w ∈ ws) :
    w.eventId = a.eventId := by
  cases a with
  | reserve holdId eventId quantity expiresAt =>
      simp only [writes] at h
      split at h
      · obtain rfl := Option.some.inj h
        rw [List.mem_singleton.mp hw]
        rfl
      · cases h
  | pay orderId holdId eventId quantity =>
      simp only [writes] at h
      split at h
      · obtain rfl := Option.some.inj h
        rcases List.mem_cons.mp hw with rfl | hw
        · rfl
        · rw [List.mem_singleton.mp hw]
          rfl
      · split at h
        · obtain rfl := Option.some.inj h
          rw [List.mem_singleton.mp hw]
          rfl
        · cases h

/-- What an allocation writes depends on the rows of its event only. -/
theorem writes_congr (h : db'.rowsOf a.eventId = db.rowsOf a.eventId) :
    a.writes db' now = a.writes db now := by
  have hfits : ∀ quantity, fits db' a.eventId quantity now = fits db a.eventId quantity now := by
    intro quantity
    unfold fits
    rw [inventoryOf_congr h, allocated_congr h]
  cases a with
  | reserve holdId eventId quantity expiresAt =>
      have hfits' := hfits quantity
      simp only [Allocation.eventId] at hfits'
      simp only [writes, hfits']
  | pay orderId holdId eventId quantity =>
      have hfits' := hfits quantity
      simp only [Allocation.eventId] at hfits'
      have hholds : db'.holds.filter (·.eventId = eventId) = db.holds.filter (·.eventId = eventId) :=
        congrArg (fun rows => rows.2.1) h
      -- the hold that is paid is looked for among those of the event
      have hfind : ∀ db : Database, (db.holds.find? fun h =>
          h.id = holdId ∧ h.eventId = eventId ∧ h.status = "held" ∧ h.expiresAt > now) =
            (db.holds.filter (·.eventId = eventId)).find? fun h =>
              h.id = holdId ∧ h.status = "held" ∧ h.expiresAt > now := by
        intro db
        rw [List.find?_filter]
        refine congrArg (fun p => db.holds.find? p) (funext fun h => ?_)
        simp only [Bool.decide_and, Bool.decide_eq_true]
        exact Bool.and_left_comm _ _ _
      simp only [writes, hfits']
      rw [hfind, hfind, hholds]

theorem covered_of_fits (h : fits db e quantity now = true) :
    ∃ row, db.inventoryOf e = some row ∧
      ((db.allocated e now + quantity : ℕ) : ℤ) ≤ row.capacity := by
  unfold fits at h
  split at h
  · cases h
  · next row hrow => exact ⟨row, hrow, of_decide_eq_true h⟩

/-- An allocation keeps the stock within the capacity. -/
theorem stocked_writes (h : a.writes db now = some ws) (hstocked : Stocked now db a.eventId) :
    Stocked now (ws.foldl Database.write db) a.eventId := by
  have hsame : ∀ ws : List Write, (ws.foldl Database.write db).inventoryOf a.eventId =
      db.inventoryOf a.eventId := fun ws => by
    unfold Database.inventoryOf
    rw [inventory_writes]
  have hfits : ∀ {quantity : ℕ} {ws : List Write}, fits db a.eventId quantity now = true →
      (ws.foldl Database.write db).allocated a.eventId now ≤
        db.allocated a.eventId now + quantity →
          Stocked now (ws.foldl Database.write db) a.eventId := by
    intro quantity ws hfit hle
    obtain ⟨row, hrow, hcapacity⟩ := covered_of_fits hfit
    refine ⟨fun r hr => ?_, fun hnone => ?_⟩
    · rw [hsame, hrow] at hr
      obtain rfl := Option.some.inj hr
      exact (Int.ofNat_le.mpr hle).trans hcapacity
    · rw [hsame, hrow] at hnone
      cases hnone
  cases a with
  | reserve holdId eventId quantity expiresAt =>
      simp only [writes] at h
      split at h
      · next hfit =>
          obtain rfl := Option.some.inj h
          exact hfits hfit (allocated_insertHold _)
      · cases h
  | pay orderId holdId eventId quantity =>
      simp only [writes] at h
      split at h
      · next hold hfind =>
          obtain rfl := Option.some.inj h
          obtain ⟨hmem, rfl, hevent, hheld, hlive⟩ := Keyed.found hfind
          -- the stock is what it was: the order takes what the hold gives back
          have hclose := allocated_closeHold hmem hevent hheld hlive
          have hle := (allocated_insertOrder (e := eventId)
            { id := orderId, eventId, quantity := hold.quantity, status := "paid" }).trans hclose
          refine ⟨fun r hr => ?_, fun hnone => ?_⟩
          · rw [hsame] at hr
            exact (Int.ofNat_le.mpr hle).trans (hstocked.covers r hr)
          · rw [hsame] at hnone
            exact Nat.le_zero.mp (hle.trans (hstocked.unstocked hnone).le)
      · split at h
        · next hfit =>
            obtain rfl := Option.some.inj h
            exact hfits hfit (allocated_insertOrder _)
        · cases h

end Allocation

end Ticketing
