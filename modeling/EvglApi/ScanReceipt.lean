/-
# Scan receipts

The receipts half of `src/admission.rs`: a scanner signs what it scanned
(`ScannerReceiptSigner::sign`), anybody with the scanner's key checks a receipt
(`verify_scan_receipt`), and `reconcile_verified_receipts` decides which receipts
of a ticket admit its holder.

`ReceiptFormat` stands for the shape check and the JSON text of the claims, which
live outside the repository.
-/
import EvglApi.AdmissionToken
import EvglApi.LeastBy
import Mathlib.Data.Prod.Lex

open Fallible LeastBy

namespace Admission

/-! ## Receipts -/

/-- What a scanner claims about one scan. -/
structure ScanReceiptClaims where
  receiptId : Uuid
  scannerId : Uuid
  scannerKeyId : String
  scannerSequence : ℤ
  tokenId : Uuid
  eventId : Uuid
  ticketId : Uuid
  orderId : Uuid
  scannedAt : Instant
  deriving DecidableEq

/-- Claims with the base64 text of their signature. -/
structure SignedScanReceipt where
  claims : ScanReceiptClaims
  signature : String
  deriving DecidableEq

/-- The wire format of receipts. -/
structure ReceiptFormat where
  claimsShape : ScanReceiptClaims → Except String Unit
  toVec : ScanReceiptClaims → Option Bytes

section Keys

variable {SigningKey VerifyingKey : Type} (ed : Ed25519 SigningKey VerifyingKey)

/-- A scanner that signs receipts with its own key. -/
structure ScannerReceiptSigner (SigningKey : Type) where
  scannerId : Uuid
  keyId : String
  signingKey : SigningKey

/-- The text of the scanner's verification key (`ScannerReceiptSigner::public_key`). -/
def ScannerReceiptSigner.publicKey (signer : ScannerReceiptSigner SigningKey) : String :=
  encodeText (ed.asBytes (ed.verifyingKey signer.signingKey)).val

/-- Sign the claims of a scan (`ScannerReceiptSigner::sign`). -/
def ScannerReceiptSigner.sign (fmt : ReceiptFormat) (signer : ScannerReceiptSigner SigningKey)
    (claims : ScanReceiptClaims) : Except AdmissionError SignedScanReceipt := do
  (fmt.claimsShape claims).mapError .policy
  refuseIf (claims.scannerId ≠ signer.scannerId ∨ claims.scannerKeyId ≠ signer.keyId)
    (.policy "receipt scanner or key identity does not match signer")
  let payload ← okOr (fmt.toVec claims) .malformed
  pure { claims, signature := encodeText (ed.sign signer.signingKey payload).val }

/-- Check a receipt against the text of a verification key (`verify_scan_receipt`). -/
def verifyScanReceipt (fmt : ReceiptFormat) (receipt : SignedScanReceipt) (publicKey : String) :
    Except AdmissionError Unit := do
  (fmt.claimsShape receipt.claims).mapError fun _ => .malformed
  let verifyingKey ← decodeVerifyingKey ed publicKey
  let signature ← decodeSignature receipt.signature
  let payload ← okOr (fmt.toVec receipt.claims) .malformed
  refuseIf (ed.verify verifyingKey payload signature = false) .invalidSignature

end Keys

/-! ## Reconciliation -/

/-- The verdict on one receipt. -/
inductive AdmissionOutcome
  | accepted
  | duplicateReview
  | rejected
  deriving DecidableEq

/-- The verdict on one receipt, as it is reported. -/
structure AdmissionReceiptOutcome where
  receiptId : Uuid
  ticketId : Uuid
  outcome : AdmissionOutcome
  reason : Option String
  winningReceiptId : Option Uuid
  deriving DecidableEq

/-- The ticket a receipt is about. -/
def ticketOf (receipt : SignedScanReceipt) : Uuid := receipt.claims.ticketId

/-- The order in which receipts of one ticket compete (`receipt_order_key`): the
tuple order of Rust is the lexicographic one. -/
def receiptOrderKey (receipt : SignedScanReceipt) : Instant ×ₗ Uuid ×ₗ ℤ ×ₗ Uuid :=
  toLex (receipt.claims.scannedAt, toLex (receipt.claims.scannerId,
    toLex (receipt.claims.scannerSequence, receipt.claims.receiptId)))

/-- The verdict on a receipt, given the winner of each ticket. -/
def receiptOutcome (winners : Uuid → Option SignedScanReceipt) (receipt : SignedScanReceipt) :
    AdmissionReceiptOutcome :=
  let winningReceiptId := (winners receipt.claims.ticketId).map fun winner => winner.claims.receiptId
  let accepted := winningReceiptId = some receipt.claims.receiptId
  { receiptId := receipt.claims.receiptId
    ticketId := receipt.claims.ticketId
    outcome := if accepted then .accepted else .duplicateReview
    reason := if accepted then none else some "duplicate admission receipt"
    winningReceiptId }

/-- Decide a list of receipts (`reconcile_verified_receipts`): the first loop keeps
the winner of each ticket, and the second reports a verdict on each receipt. -/
def reconcileVerifiedReceipts (receipts : List SignedScanReceipt) : List AdmissionReceiptOutcome :=
  let winners := leastBy ticketOf receiptOrderKey receipts
  receipts.map (receiptOutcome winners)

end Admission
