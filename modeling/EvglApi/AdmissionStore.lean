/-
# The admission database

The tables behind `AdmissionService` and the statements of `src/admission.rs` on them.
Every statement is a transaction of its own, and a statement that fails has no effect.

* A bound parameter and a column of type `timestamptz` hold whole microseconds: the
  driver drops the digits below of the distance from 2000-01-01.
* `Procedures` stands for the two database functions, whose text is outside the
  repository.  A revocation changes the status of the entitlements and the revocation
  time of the tokens of its ticket, and the recording of a receipt none of these tables.
* `requests`, `judged` and `receipts` are a record of what has happened; no statement
  reads them.
-/
import EvglApi.Keyed
import EvglApi.ScanReceipt
import EvglApi.Tries

open Concurrency Keyed

namespace Admission

/-! ## Tables -/

/-- An instant as the database keeps it, in microseconds since the epoch. -/
abbrev Timestamp := ℤ

/-- The start of 2000-01-01, from which PostgreSQL counts. -/
def postgresEpoch : Instant := 946684800000000000

/-- The value of a bound instant: before 2000 the digits that are dropped round it up. -/
def timestamptz (t : Instant) : Timestamp :=
  946684800000000 + Int.tdiv (t - postgresEpoch) 1000

/-- The driver truncates, which is monotone. -/
theorem timestamptz_mono {s t : Instant} (h : s ≤ t) : timestamptz s ≤ timestamptz t :=
  Int.add_le_add_left (Int.tdiv_le_tdiv (by decide) (Int.sub_le_sub_right h postgresEpoch)) _

/-- An instant at a whole microsecond is bound as it is. -/
@[simp] theorem timestamptz_mul (k : ℤ) : timestamptz (1000 * k) = k := by
  have hdistance : 1000 * k - postgresEpoch = 1000 * (k - 946684800000000) := by
    unfold postgresEpoch
    omega
  rw [timestamptz, hdistance, Int.mul_tdiv_cancel_left _ (by decide)]
  exact add_sub_cancel _ _

@[simp] theorem timestamptz_zero : timestamptz 0 = 0 :=
  timestamptz_mul 0

/-- Instants at whole microseconds are told apart. -/
theorem timestamptz_lt {s t : Instant} (hs : (1000 : ℤ) ∣ s) (ht : (1000 : ℤ) ∣ t) (h : s < t) :
    timestamptz s < timestamptz t := by
  obtain ⟨k, rfl⟩ := hs
  obtain ⟨l, rfl⟩ := ht
  rw [timestamptz_mul, timestamptz_mul]
  exact Int.lt_of_mul_lt_mul_left h (by decide)

structure SigningKeyRow where
  keyId : String
  issuanceEpoch : ℤ
  publicKey : FixedBytes 32
  activeFrom : Timestamp
  retireAt : Timestamp
  deriving DecidableEq

structure ScannerKeyRow where
  scannerId : Uuid
  keyId : String
  publicKey : FixedBytes 32
  activeFrom : Timestamp
  retireAt : Timestamp
  deriving DecidableEq

/-- The columns of `ticket_orders` that are read. -/
structure OrderRow where
  id : Uuid
  eventId : Uuid
  status : String
  deriving DecidableEq

/-- The columns of an entitlement that no statement updates. -/
structure EntitlementFixed where
  ticketId : Uuid
  orderId : Uuid
  eventId : Uuid
  issuanceEpoch : ℤ
  createdAt : Timestamp
  deriving DecidableEq

/-- The columns of an entitlement that a revocation updates. -/
structure EntitlementState where
  status : String
  updatedAt : Timestamp
  deriving DecidableEq

structure EntitlementRow extends EntitlementFixed, EntitlementState
  deriving DecidableEq

/-- The columns of a token that no statement updates. -/
structure TokenFixed where
  tokenId : Uuid
  ticketId : Uuid
  orderId : Uuid
  eventId : Uuid
  issuanceEpoch : ℤ
  keyId : String
  issuedAt : Timestamp
  expiresAt : Timestamp
  deriving DecidableEq

structure TokenRow extends TokenFixed where
  revokedAt : Option Timestamp
  deriving DecidableEq

/-- The arguments of `evgl_record_admission_receipt`. -/
structure ReceiptCall where
  receiptId : Uuid
  scannerId : Uuid
  scannerKeyId : String
  scannerSequence : ℤ
  tokenId : Uuid
  eventId : Uuid
  ticketId : Uuid
  orderId : Uuid
  scannedAt : Timestamp
  receivedAt : Timestamp
  payloadHash : Bytes
  signature : FixedBytes 64
  classification : String
  reason : Option String
  deriving DecidableEq

/-- The calls of the service.  Orders are placed and change their status with the sale
of tickets. -/
inductive Request
  | registerSigningKey (descriptor : AdmissionVerificationKey)
  | registerScannerKey (scannerId : Uuid) (keyId publicKey : String)
      (activeFrom retireAt : Instant)
  | registerEntitlement (ticketId orderId eventId : Uuid) (issuanceEpoch : ℤ) (now : Instant)
  | registerToken (claims : AdmissionTokenClaims)
  | revokeEntitlement (ticketId : Uuid) (revokedAt : Instant)
  | recordReceipt (receipt : SignedScanReceipt) (receivedAt : Instant)
  | placeOrder (order : OrderRow)
  | setOrderStatus (orderId : Uuid) (status : String)
  deriving DecidableEq

structure Database where
  signingKeys : List SigningKeyRow
  scannerKeys : List ScannerKeyRow
  orders : List OrderRow
  entitlements : List EntitlementRow
  tokens : List TokenRow
  requests : List Request
  /-- The requests that have read 'candidate' for a ticket and not yet recorded it. -/
  judged : List (ℕ × Uuid)
  /-- The calls of `evgl_record_admission_receipt`. -/
  receipts : List ReceiptCall

/-! ## Code outside the repository -/

/-- What a revocation does to the rows of its ticket, and its row, if it returns one. -/
structure Revocation where
  answer : Except String (Option ℤ)
  entitlement : EntitlementRow → EntitlementState
  token : TokenRow → Option Timestamp

/-- The functions of the database; each may fail or return no row. -/
structure Procedures where
  revoke : (ticketId : Uuid) → (revokedAt : Timestamp) → Database → Revocation
  record : ReceiptCall → Database → Except String (Option Uuid)

/-- A revocation takes the status of an entitlement away from 'active', and none takes
the revocation of a token back. -/
structure Procedures.Lawful (procedures : Procedures) : Prop where
  status : ∀ ticketId revokedAt db e,
    ((procedures.revoke ticketId revokedAt db).entitlement e).status ≠ "active"
  token : ∀ ticketId revokedAt db (t : TokenRow), t.revokedAt ≠ none →
    (procedures.revoke ticketId revokedAt db).token t ≠ none

/-! ## Statements -/

/-- The statements and the row each returns; two of them name the request for the
record. -/
inductive Query : Type → Type
  | insertSigningKey (row : SigningKeyRow) : Query (Option String)
  | insertScannerKey (row : ScannerKeyRow) : Query (Option Uuid)
  | insertEntitlement (fixed : EntitlementFixed) : Query (Option Uuid)
  | insertToken (token : TokenFixed) : Query (Option Uuid)
  | revokeEntitlement (ticketId : Uuid) (revokedAt : Timestamp) : Query (Option ℤ)
  | selectScannerKey (scannerId : Uuid) (keyId : String) (scannedAt : Timestamp) :
      Query (Option (FixedBytes 32))
  | selectCandidate (request : ℕ) (tokenId ticketId orderId eventId : Uuid)
      (scannedAt : Timestamp) : Query (Option Bool)
  | recordReceipt (request : ℕ) (call : ReceiptCall) : Query (Option Uuid)
  | insertOrder (order : OrderRow) : Query Unit
  | updateOrder (orderId : Uuid) (status : String) : Query Unit

/-- A statement answers with an error of the database or with its row. -/
inductive Stmt : Type → Type 1
  | query {β : Type} (q : Query β) : Stmt (Except String β)

namespace Database

/-- The paid order of an entitlement. -/
def paidOrder (db : Database) (orderId eventId : Uuid) : Option OrderRow :=
  db.orders.find? fun o => o.id = orderId ∧ o.eventId = eventId ∧ o.status = "paid"

/-- The row that a new entitlement starts with. -/
def newEntitlement (fixed : EntitlementFixed) : EntitlementRow :=
  { fixed with status := "active", updatedAt := fixed.createdAt }

/-- `register_entitlement`'s statement. -/
def insertEntitlement (db : Database) (fixed : EntitlementFixed) : Bool × Database :=
  match db.paidOrder fixed.orderId fixed.eventId with
  | none => (false, db)
  | some _ =>
      let (returned, entitlements) := insertBound (fun e => e.ticketId)
        (fun old => old.orderId = fixed.orderId ∧ old.eventId = fixed.eventId ∧
          old.issuanceEpoch = fixed.issuanceEpoch) (newEntitlement fixed) db.entitlements
      (returned, { db with entitlements })

/-- The active entitlement and the signing key that a token is registered under. -/
def backing (db : Database) (t : TokenFixed) : Option (EntitlementRow × SigningKeyRow) := do
  let entitlement ← db.entitlements.find? fun e =>
    e.ticketId = t.ticketId ∧ e.orderId = t.orderId ∧ e.eventId = t.eventId ∧
      e.issuanceEpoch = t.issuanceEpoch ∧ e.status = "active"
  let signingKey ← db.signingKeys.find? fun k =>
    k.keyId = t.keyId ∧ k.issuanceEpoch = entitlement.issuanceEpoch ∧
      t.issuedAt ≥ k.activeFrom ∧ t.expiresAt ≤ k.retireAt
  pure (entitlement, signingKey)

/-- `register_token`'s statement. -/
def insertToken (db : Database) (t : TokenFixed) : Bool × Database :=
  match db.backing t with
  | none => (false, db)
  | some (e, k) =>
      let row : TokenFixed :=
        { tokenId := t.tokenId, ticketId := e.ticketId, orderId := e.orderId
          eventId := e.eventId, issuanceEpoch := e.issuanceEpoch, keyId := k.keyId
          issuedAt := t.issuedAt, expiresAt := t.expiresAt }
      let (returned, tokens) := insertBound (fun t => t.tokenId)
        (fun old => old.toTokenFixed = row) { row with revokedAt := none } db.tokens
      (returned, { db with tokens })

/-- A committed revocation. -/
def revoke (db : Database) (ticketId : Uuid) (r : Revocation) : Database :=
  { db with
    entitlements := db.entitlements.map fun e =>
      if e.ticketId = ticketId then { e with toEntitlementState := r.entitlement e } else e
    tokens := db.tokens.map fun t =>
      if t.ticketId = ticketId then { t with revokedAt := r.token t } else t }

/-- The scanner key that a receipt is verified under. -/
def scannerKey (db : Database) (scannerId : Uuid) (keyId : String) (scannedAt : Timestamp) :
    Option ScannerKeyRow :=
  db.scannerKeys.find? fun k => k.scannerId = scannerId ∧ k.keyId = keyId ∧
    k.activeFrom ≤ scannedAt ∧ k.retireAt > scannedAt

/-- The token with a given id. -/
def token (db : Database) (tokenId : Uuid) : Option TokenRow :=
  lookup (fun t => t.tokenId) db.tokens tokenId

/-- The entitlement of a ticket. -/
def entitlement (db : Database) (ticketId : Uuid) : Option EntitlementRow :=
  lookup (fun e => e.ticketId) db.entitlements ticketId

/-- The value of `candidate`. -/
def isCandidate (t : TokenRow) (e : EntitlementRow) (ticketId orderId eventId : Uuid)
    (scannedAt : Timestamp) : Bool :=
  t.ticketId = ticketId ∧ t.orderId = orderId ∧ t.eventId = eventId ∧ t.revokedAt = none ∧
    scannedAt ≥ t.issuedAt ∧ scannedAt < t.expiresAt ∧ e.status = "active" ∧
      e.issuanceEpoch = t.issuanceEpoch

/-- The read of `candidate`: the token joined with the entitlement of its ticket. -/
def candidate (db : Database) (tokenId ticketId orderId eventId : Uuid) (scannedAt : Timestamp) :
    Option Bool := do
  let token ← db.token tokenId
  let entitlement ← db.entitlement token.ticketId
  pure (isCandidate token entitlement ticketId orderId eventId scannedAt)

/-- Record that request `n` has read 'candidate' for a ticket. -/
def judge (db : Database) (n : ℕ) (ticketId : Uuid) : Database :=
  { db with judged := db.judged ++ [(n, ticketId)] }

/-- Record that the receipt of request `n` is no longer pending. -/
def settle (db : Database) (n : ℕ) : Database :=
  { db with judged := db.judged.filter (·.1 ≠ n) }

end Database

/-- The row that a statement returns, if it returns one. -/
def returning {α : Type} (value : α) (returned : Bool) : Option α :=
  if returned then some value else none

/-- The answer of a statement and the database after it. -/
def Query.exec (procedures : Procedures) {β : Type} :
    Query β → Database → Except String β × Database
  | .insertSigningKey row, db =>
      let (returned, signingKeys) := insertBound SigningKeyRow.keyId (fun old => old = row) row
        db.signingKeys
      (.ok (returning row.keyId returned), { db with signingKeys })
  | .insertScannerKey row, db =>
      let (returned, scannerKeys) := insertBound (fun k => (k.scannerId, k.keyId))
        (fun old => old = row) row db.scannerKeys
      (.ok (returning row.scannerId returned), { db with scannerKeys })
  | .insertEntitlement fixed, db =>
      let (returned, db') := db.insertEntitlement fixed
      (.ok (returning fixed.ticketId returned), db')
  | .insertToken token, db =>
      let (returned, db') := db.insertToken token
      (.ok (returning token.tokenId returned), db')
  | .revokeEntitlement ticketId revokedAt, db =>
      let r := procedures.revoke ticketId revokedAt db
      match r.answer with
      | .error e => (.error e, db)
      | .ok row => (.ok row, db.revoke ticketId r)
  | .selectScannerKey scannerId keyId scannedAt, db =>
      (.ok ((db.scannerKey scannerId keyId scannedAt).map (·.publicKey)), db)
  | .selectCandidate n tokenId ticketId orderId eventId scannedAt, db =>
      let answer := db.candidate tokenId ticketId orderId eventId scannedAt
      (.ok answer, if answer = some true then db.judge n ticketId else db)
  | .recordReceipt n call, db =>
      (procedures.record call db, { db.settle n with receipts := db.receipts ++ [call] })
  | .insertOrder order, db =>
      (.ok (), if db.orders.any (·.id = order.id) then db
        else { db with orders := db.orders ++ [order] })
  | .updateOrder orderId status, db =>
      (.ok (), { db with orders := db.orders.map fun o =>
        if o.id = orderId then { o with status := status } else o })

/-- The database after a statement that has failed; a receipt that failed to be recorded
is no longer pending. -/
def Query.fail {β : Type} : Query β → Database → Database
  | .recordReceipt n _, db => db.settle n
  | _, db => db

/-- Execute a statement; `fails` is the error of the database, if it fails. -/
def Stmt.exec (procedures : Procedures) {α : Type} :
    Stmt α → Option String → Database → Option (α × Database)
  | .query q, some e, db => some (.error e, q.fail db)
  | .query q, none, db => some (q.exec procedures db)

end Admission
