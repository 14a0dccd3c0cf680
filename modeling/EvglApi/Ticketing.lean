/-
# Ticket inventory

`configure_event` of `src/ticketing.rs` beside the transactions that allocate tickets, over
the tables of the inventory.

* PostgreSQL runs at READ COMMITTED: the subqueries of a statement read the tables as they
  were committed when the statement began (`snapshot`), also after the statement has waited
  for a lock, while a conflicting row of `event_inventory` is read again as it is committed
  when it is updated.
* A lock is held until its transaction ends, and a transaction ends with its last statement
  or with the first one that fails.
* The database functions that reserve tickets and confirm payments are outside the
  repository.  `Allocation` stands for what they are assumed to do.
-/
import EvglApi.AdmissionStore

open Concurrency
open Admission (Timestamp timestamptz)

namespace Ticketing

/-! ## Tables -/

structure InventoryRow where
  eventId : Uuid
  capacity : ℤ
  createdAt : Timestamp
  updatedAt : Timestamp
  deriving DecidableEq

/-- The columns of `ticket_holds` that are read. -/
structure HoldRow where
  id : Uuid
  eventId : Uuid
  quantity : ℕ
  status : String
  expiresAt : Timestamp
  deriving DecidableEq

/-- The columns of `ticket_orders` that are read. -/
structure OrderRow where
  id : Uuid
  eventId : Uuid
  quantity : ℕ
  status : String
  deriving DecidableEq

structure ConfigureEventInventory where
  eventId : Uuid
  capacity : ℤ
  deriving DecidableEq

/-- A transaction that allocates tickets of an event. -/
inductive Allocation
  | reserve (holdId eventId : Uuid) (quantity : ℕ) (expiresAt : Timestamp)
  | pay (orderId holdId eventId : Uuid) (quantity : ℕ)
  deriving DecidableEq

inductive Request
  | configureEvent (input : ConfigureEventInventory) (now : Instant)
  | allocate (allocation : Allocation) (now : Instant)
  deriving DecidableEq

/-- The committed tables, and the advisory locks with the transactions that hold them. -/
structure Database where
  inventory : List InventoryRow
  holds : List HoldRow
  orders : List OrderRow
  locks : List (ℤ × ℕ)
  /-- A record of what has arrived; no statement reads it. -/
  requests : List Request

namespace Database

/-- The tickets of an event that are held: `status = 'held' and expires_at > now`. -/
def held (db : Database) (eventId : Uuid) (now : Timestamp) : ℕ :=
  ((db.holds.filter fun h => h.eventId = eventId ∧ h.status = "held" ∧ h.expiresAt > now).map
    (·.quantity)).sum

/-- The tickets of an event that are paid. -/
def paid (db : Database) (eventId : Uuid) : ℕ :=
  ((db.orders.filter fun o => o.eventId = eventId ∧ o.status = "paid").map (·.quantity)).sum

/-- The allocated stock of an event. -/
def allocated (db : Database) (eventId : Uuid) (now : Timestamp) : ℕ :=
  db.held eventId now + db.paid eventId

/-- The inventory row of an event. -/
def inventoryOf (db : Database) (eventId : Uuid) : Option InventoryRow :=
  db.inventory.find? (·.eventId = eventId)

/-- End a transaction, which releases its locks. -/
def release (db : Database) (tx : ℕ) : Database :=
  { db with locks := db.locks.filter (·.2 ≠ tx) }

/-- `pg_advisory_xact_lock`; another transaction that holds the lock is waited for. -/
def lock (db : Database) (tx : ℕ) (key : ℤ) : Option Database :=
  if db.locks.any fun l => l.1 = key ∧ l.2 ≠ tx then none
  else some { db with locks := db.locks ++ [(key, tx)] }

/-- `insert into event_inventory … on conflict (event_id) do update … where …`: the row is
read as it is committed now, and the sums as they were `seen`. -/
def upsertInventory (db seen : Database) (row : InventoryRow) : Option Uuid × Database :=
  match db.inventoryOf row.eventId with
  | none => (some row.eventId, { db with inventory := db.inventory ++ [row] })
  | some _ =>
      if row.capacity ≥ seen.allocated row.eventId row.updatedAt then
        (some row.eventId,
          { db with
            inventory := db.inventory.map fun old =>
              if old.eventId = row.eventId then
                { old with capacity := row.capacity, updatedAt := row.updatedAt }
              else old })
      else (none, db)

end Database

/-! ## What an allocation writes -/

inductive Write
  | insertHold (hold : HoldRow)
  | closeHold (holdId eventId : Uuid)
  | insertOrder (order : OrderRow)
  deriving DecidableEq

def Database.write (db : Database) : Write → Database
  | .insertHold hold => { db with holds := db.holds ++ [hold] }
  | .closeHold holdId eventId =>
      { db with
        holds := db.holds.map fun h =>
          if h.id = holdId ∧ h.eventId = eventId then { h with status := "consumed" } else h }
  | .insertOrder order => { db with orders := db.orders ++ [order] }

namespace Allocation

def eventId : Allocation → Uuid
  | .reserve _ eventId _ _ => eventId
  | .pay _ _ eventId _ => eventId

/-- The id of the row that is inserted. -/
def id : Allocation → Uuid
  | .reserve holdId _ _ _ => holdId
  | .pay orderId _ _ _ => orderId

/-- Tickets are left: `held + paid + quantity <= capacity`. -/
def fits (db : Database) (eventId : Uuid) (quantity : ℕ) (now : Timestamp) : Bool :=
  match db.inventoryOf eventId with
  | none => false
  | some row => (db.allocated eventId now + quantity : ℕ) ≤ row.capacity

/-- What the transaction writes, if it allocates.  The payment of a live hold allocates the
tickets that the hold gives back. -/
def writes (db : Database) (now : Timestamp) : Allocation → Option (List Write)
  | .reserve holdId eventId quantity expiresAt =>
      if fits db eventId quantity now then
        some [.insertHold { id := holdId, eventId, quantity, status := "held", expiresAt }]
      else none
  | .pay orderId holdId eventId quantity =>
      match db.holds.find? fun h =>
        h.id = holdId ∧ h.eventId = eventId ∧ h.status = "held" ∧ h.expiresAt > now with
      | some hold =>
          some [.closeHold holdId eventId,
            .insertOrder { id := orderId, eventId, quantity := hold.quantity, status := "paid" }]
      | none =>
          if fits db eventId quantity now then
            some [.insertOrder { id := orderId, eventId, quantity, status := "paid" }]
          else none

end Allocation

/-! ## Statements and programs -/

/-- What a transaction does to the database.  The upsert and the writes end it. -/
inductive Stmt : Type → Type 1
  | snapshot (tx : ℕ) : Stmt (Except String Database)
  | lock (tx : ℕ) (key : ℤ) : Stmt (Except String Unit)
  | upsertInventory (tx : ℕ) (seen : Database) (row : InventoryRow) :
      Stmt (Except String (Option Uuid))
  | commit (tx : ℕ) (writes : List Write) : Stmt (Except String Unit)
  | rollback (tx : ℕ) : Stmt Unit

/-- Execute a statement; `fails` is the error of the database, if it fails. -/
def Stmt.exec {α : Type} : Stmt α → Option String → Database → Option (α × Database)
  | .snapshot tx, some e, db => some (.error e, db.release tx)
  | .snapshot _, none, db => some (.ok db, db)
  | .lock tx _, some e, db => some (.error e, db.release tx)
  | .lock tx key, none, db => (db.lock tx key).map fun db' => (.ok (), db')
  | .upsertInventory tx _ _, some e, db => some (.error e, db.release tx)
  | .upsertInventory tx seen row, none, db =>
      let (returned, db') := db.upsertInventory seen row
      some (.ok returned, db'.release tx)
  | .commit tx _, some e, db => some (.error e, db.release tx)
  | .commit tx writes, none, db => some (.ok (), (writes.foldl Database.write db).release tx)
  | .rollback tx, _, db => some ((), db.release tx)

/-- What a call runs as. -/
inductive Role
  | request (n : ℕ) (q : Request)
  deriving DecidableEq

inductive DbErr
  | custom (text : String)
  | recordNotFound (text : String)
  | database (text : String)
  deriving DecidableEq

/-- What a call ends with. -/
abbrev Outcome := Except DbErr Uuid

/-- A program of the service that may return early with an error. -/
abbrev Api (α : Type) := Tries Stmt Role Outcome DbErr α

/-- The code outside the repository that the service uses. -/
structure Deployment where
  /-- `ConfigureEventInventory::validate`. -/
  validate : ConfigureEventInventory → Except String Unit
  /-- `hashtextextended(event_id::text, 3464)`. -/
  lockKey : Uuid → ℤ

/-- A capacity is not negative. -/
def Deployment.Lawful (env : Deployment) : Prop :=
  ∀ input, env.validate input = .ok () → 0 ≤ input.capacity

open Tries

variable (env : Deployment)

def configureEvent (self : ℕ) (input : ConfigureEventInventory) (now : Instant) : Api Uuid := do
  result ((env.validate input).mapError .custom)
  let seen ← attempt .database (.snapshot self)
  attempt .database (.lock self (env.lockKey input.eventId))
  match ← attempt .database (.upsertInventory self seen
      { eventId := input.eventId, capacity := input.capacity, createdAt := timestamptz now
        updatedAt := timestamptz now }) with
  | none => throw (.recordNotFound "event capacity cannot be reduced below allocated stock")
  | some eventId => pure eventId

/-- The transaction of an allocation, which reads the capacity when it holds the lock. -/
def allocate (self : ℕ) (allocation : Allocation) (now : Instant) : Api Uuid := do
  attempt .database (.lock self (env.lockKey allocation.eventId))
  let db ← attempt .database (.snapshot self)
  match allocation.writes db (timestamptz now) with
  | none => do
      stmt (.rollback self)
      throw (.database "not enough tickets")
  | some writes => do
      attempt .database (.commit self writes)
      pure allocation.id

/-- The program of a call. -/
def handle (self : ℕ) : Request → Api Uuid
  | .configureEvent input now => configureEvent env self input now
  | .allocate allocation now => allocate env self allocation now

/-- The database after a call has arrived. -/
def Database.enter : Role → Database → Database
  | .request _ q, db => { db with requests := db.requests ++ [q] }

/-- Calls over one database. -/
def ticketing : Machine Stmt Role Outcome Database (Option String) Request where
  exec := Stmt.exec
  enter := Database.enter
  arrival q db := (.request db.requests.length q, (handle env db.requests.length q).run)

end Ticketing
