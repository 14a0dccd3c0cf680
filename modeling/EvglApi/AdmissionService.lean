/-
# The admission service

The calls of `AdmissionService` as programs over the statements of the database, and
the machine that runs any number of them over one database: calls are numbered in the
order of their arrival, and no transaction spans two statements.
-/
import EvglApi.AdmissionStore

open Concurrency

namespace Admission

/-- What a call runs as. -/
inductive Role
  | request (n : ℕ) (q : Request)
  deriving DecidableEq

/-- The value of a call. -/
inductive Reply
  | done
  | recorded (id : Uuid)
  deriving DecidableEq

/-- What a call ends with. -/
abbrev Outcome := Except AdmissionError Reply

/-- A program of the service that may return early with an error. -/
abbrev Api (α : Type) := Tries Stmt Role Outcome AdmissionError α

/-- The code outside the repository that the service uses. -/
structure Deployment (SigningKey VerifyingKey : Type) where
  ed : Ed25519 SigningKey VerifyingKey
  tokens : TokenFormat
  receipts : ReceiptFormat
  /-- `Sha256::digest`. -/
  sha256 : Bytes → Bytes
  procedures : Procedures

open Fallible Tries

variable {SigningKey VerifyingKey : Type} (env : Deployment SigningKey VerifyingKey)

/-- Execute a statement (`query_one`). -/
def queryOne {α : Type} (q : Query α) : Api α := attempt .database (.query q)

def registerSigningKey (descriptor : AdmissionVerificationKey) : Api Unit := do
  result (validateDescriptor env.ed descriptor)
  let publicKey ← result (decodeBytes 32 descriptor.publicKey)
  match ← queryOne (.insertSigningKey
      { keyId := descriptor.keyId, issuanceEpoch := descriptor.issuanceEpoch, publicKey
        activeFrom := timestamptz descriptor.activeFrom
        retireAt := timestamptz descriptor.retireAt }) with
  | none => throw (.policy "signing key id is already bound to different key material or epochs")
  | some _ => pure ()

def registerScannerKey (scannerId : Uuid) (keyId publicKey : String)
    (activeFrom retireAt : Instant) : Api Unit := do
  result (refuseIf (trimIsEmpty keyId ∨ retireAt ≤ activeFrom)
    (.policy "invalid scanner verification key window"))
  let publicKey ← result (decodeBytes 32 publicKey)
  match ← queryOne (.insertScannerKey
      { scannerId, keyId, publicKey, activeFrom := timestamptz activeFrom
        retireAt := timestamptz retireAt }) with
  | none => throw (.policy "scanner key id is already bound to different key material or windows")
  | some _ => pure ()

def registerEntitlement (ticketId orderId eventId : Uuid) (issuanceEpoch : ℤ) (now : Instant) :
    Api Unit := do
  match ← queryOne (.insertEntitlement
      { ticketId, orderId, eventId, issuanceEpoch, createdAt := timestamptz now }) with
  | none => throw (.policy "admission entitlement requires a paid order for the same event")
  | some _ => pure ()

/-- The columns of the token that is registered for some claims. -/
def AdmissionTokenClaims.columns (claims : AdmissionTokenClaims) : TokenFixed :=
  { tokenId := claims.tokenId, ticketId := claims.ticketId, orderId := claims.orderId
    eventId := claims.eventId, issuanceEpoch := claims.issuanceEpoch, keyId := claims.keyId
    issuedAt := timestamptz claims.issuedAt, expiresAt := timestamptz claims.expiresAt }

def registerToken (claims : AdmissionTokenClaims) : Api Unit := do
  result ((env.tokens.claimsShape claims).mapError .policy)
  match ← queryOne (.insertToken claims.columns) with
  | none => throw (.policy "token does not match an active entitlement and signing-key epoch")
  | some _ => pure ()

def revokeEntitlement (ticketId : Uuid) (revokedAt : Instant) : Api Unit := do
  match ← queryOne (.revokeEntitlement ticketId (timestamptz revokedAt)) with
  | none => throw (.database "revocation returned no row")
  | some _ => pure ()

/-- The arguments with which a receipt is recorded. -/
def receiptCall (claims : ScanReceiptClaims) (receivedAt : Instant) (payload : Bytes)
    (signature : FixedBytes 64) (candidate : Bool) : ReceiptCall :=
  { receiptId := claims.receiptId, scannerId := claims.scannerId
    scannerKeyId := claims.scannerKeyId, scannerSequence := claims.scannerSequence
    tokenId := claims.tokenId, eventId := claims.eventId, ticketId := claims.ticketId
    orderId := claims.orderId, scannedAt := timestamptz claims.scannedAt
    receivedAt := timestamptz receivedAt, payloadHash := env.sha256 payload, signature
    classification := if candidate then "candidate" else "rejected"
    reason := if candidate then none
      else some "token or entitlement is not currently admissible" }

def recordReceipt (self : ℕ) (receipt : SignedScanReceipt) (receivedAt : Instant) : Api Uuid := do
  let claims := receipt.claims
  match ← queryOne (.selectScannerKey claims.scannerId claims.scannerKeyId
      (timestamptz claims.scannedAt)) with
  | none => throw .unknownKey
  | some publicKey => do
      result (verifyScanReceipt env.ed env.receipts receipt (encodeText publicKey.val))
      match ← queryOne (.selectCandidate self claims.tokenId claims.ticketId claims.orderId
          claims.eventId (timestamptz claims.scannedAt)) with
      | none => throw .malformed
      | some candidate => do
          let payload ← result (okOr (env.receipts.toVec claims) .malformed)
          let signature ← result (decodeBytes 64 receipt.signature)
          let call := receiptCall env claims receivedAt payload signature candidate
          match ← queryOne (.recordReceipt self call) with
          | none => throw (.database "receipt insert returned no row")
          | some id => pure id

/-! ## The machine -/

/-- The program of a call. -/
def handle (self : ℕ) : Request → Api Reply
  | .registerSigningKey descriptor => do
      registerSigningKey env descriptor
      pure .done
  | .registerScannerKey scannerId keyId publicKey activeFrom retireAt => do
      registerScannerKey scannerId keyId publicKey activeFrom retireAt
      pure .done
  | .registerEntitlement ticketId orderId eventId issuanceEpoch now => do
      registerEntitlement ticketId orderId eventId issuanceEpoch now
      pure .done
  | .registerToken claims => do
      registerToken env claims
      pure .done
  | .revokeEntitlement ticketId revokedAt => do
      revokeEntitlement ticketId revokedAt
      pure .done
  | .recordReceipt receipt receivedAt => do
      let id ← recordReceipt env self receipt receivedAt
      pure (.recorded id)
  | .placeOrder order => do
      queryOne (.insertOrder order)
      pure .done
  | .setOrderStatus orderId status => do
      queryOne (.updateOrder orderId status)
      pure .done

/-- The database after a call has arrived. -/
def Database.enter : Role → Database → Database
  | .request _ q, db => { db with requests := db.requests ++ [q] }

/-- Calls over one database. -/
def admission : Machine Stmt Role Outcome Database (Option String) Request where
  exec := Stmt.exec env.procedures
  enter := Database.enter
  arrival q db := (.request db.requests.length q, (handle env db.requests.length q).run)

end Admission
