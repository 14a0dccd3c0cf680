/-
# Which receipts are accepted

The winner of a ticket is found by the four-part order key, and a receipt is
accepted if it carries the winner's receipt id.  The two agree exactly when no
other receipt of the ticket reuses that id.

* `SingleAdmission` : one distinct receipt of each ticket is accepted, and it is
  a least one of the ticket;
* `WinnerIdUnique` : no receipt shares ticket and receipt id with a least one;
* `singleAdmission_iff` : the first holds of a list exactly if the second does.
-/
import EvglApi.ScanReceipt
import EvglApi.TokenRoundTrip

open Fallible LeastBy

namespace Admission

/-! ## The specification -/

/-- Of each ticket in the list one distinct receipt is accepted, with all its
copies and nothing else: a receipt whose order key is least for the ticket. -/
def SingleAdmission (receipts : List SignedScanReceipt) : Prop :=
  ∀ receipt ∈ receipts, ∃ winner,
    IsLeastOf ticketOf receiptOrderKey receipts (ticketOf receipt) winner ∧
      ∀ (i : ℕ) (r : SignedScanReceipt) (o : AdmissionReceiptOutcome),
        receipts[i]? = some r → (reconcileVerifiedReceipts receipts)[i]? = some o →
          ticketOf r = ticketOf receipt → (o.outcome = .accepted ↔ r = winner)

/-- A receipt with the ticket and the receipt id of a least receipt of that ticket
is that receipt. -/
def WinnerIdUnique (receipts : List SignedScanReceipt) : Prop :=
  ∀ winner receipt, IsLeastOf ticketOf receiptOrderKey receipts (ticketOf winner) winner →
    receipt ∈ receipts → ticketOf receipt = ticketOf winner →
      receipt.claims.receiptId = winner.claims.receiptId → receipt = winner

/-! ## Verdicts -/

/-- The verdict at a position is the verdict on the receipt there. -/
theorem getElem?_reconcile {receipts : List SignedScanReceipt} {i : ℕ} {r : SignedScanReceipt}
    {o : AdmissionReceiptOutcome} (hr : receipts[i]? = some r)
    (ho : (reconcileVerifiedReceipts receipts)[i]? = some o) :
    o = receiptOutcome (leastBy ticketOf receiptOrderKey receipts) r := by
  rw [reconcileVerifiedReceipts, List.getElem?_map, hr] at ho
  exact (Option.some.inj ho).symm

/-- A receipt is accepted if it carries the id of its ticket's winner. -/
theorem outcome_eq_accepted_iff {winners : Uuid → Option SignedScanReceipt}
    {receipt winner : SignedScanReceipt} (h : winners (ticketOf receipt) = some winner) :
    (receiptOutcome winners receipt).outcome = .accepted ↔
      receipt.claims.receiptId = winner.claims.receiptId := by
  unfold ticketOf at h
  simp only [receiptOutcome, h, Option.map_some, Option.some.injEq]
  split
  · next heq => simp [heq]
  · next hne => simp [Ne.symm hne]

/-- Equal order keys carry equal receipt ids. -/
theorem receiptId_eq_of_receiptOrderKey_eq {a b : SignedScanReceipt}
    (h : receiptOrderKey a = receiptOrderKey b) : a.claims.receiptId = b.claims.receiptId := by
  simp only [receiptOrderKey, toLex_inj, Prod.mk.injEq] at h
  exact h.2.2.2

/-! ## No double admission -/

/-- With unique winner ids each ticket admits one receipt. -/
theorem singleAdmission_of_winnerIdUnique {receipts : List SignedScanReceipt}
    (hunique : WinnerIdUnique receipts) : SingleAdmission receipts := by
  intro receipt hmem
  obtain ⟨winner, hwinner⟩ := exists_leastBy ticketOf receiptOrderKey hmem
  have hleast := leastBy_eq_some hwinner
  refine ⟨winner, hleast, fun i r o hr ho hticket => ?_⟩
  rw [getElem?_reconcile hr ho, outcome_eq_accepted_iff (by rw [hticket]; exact hwinner)]
  constructor
  · intro hid
    have hgroup : ticketOf winner = ticketOf receipt := hleast.group_eq
    rw [← hgroup] at hleast hticket
    exact hunique winner r hleast (List.mem_of_getElem? hr) hticket hid
  · rintro rfl
    rfl

/-- If each ticket admits one receipt, winner ids are unique: a least receipt and
a receipt with its id are both accepted. -/
theorem winnerIdUnique_of_singleAdmission {receipts : List SignedScanReceipt}
    (hsingle : SingleAdmission receipts) : WinnerIdUnique receipts := by
  intro least receipt hleast hmem hticket hid
  obtain ⟨admitted, -, hadmitted⟩ := hsingle least hleast.mem
  obtain ⟨winner, hwinner⟩ := exists_leastBy ticketOf receiptOrderKey hleast.mem
  -- the winner of the fold has the same key as the given least receipt, hence the same id
  have hsame : least.claims.receiptId = winner.claims.receiptId :=
    receiptId_eq_of_receiptOrderKey_eq (hleast.key_eq (leastBy_eq_some hwinner))
  have haccepted : ∀ r ∈ receipts, ticketOf r = ticketOf least →
      r.claims.receiptId = least.claims.receiptId → r = admitted := by
    intro r hr htr hidr
    obtain ⟨i, hi⟩ := List.getElem?_of_mem hr
    have hout : (reconcileVerifiedReceipts receipts)[i]? =
        some (receiptOutcome (leastBy ticketOf receiptOrderKey receipts) r) := by
      rw [reconcileVerifiedReceipts, List.getElem?_map, hi]
      rfl
    refine (hadmitted i r _ hi hout htr).mp ?_
    rw [outcome_eq_accepted_iff (by rw [htr]; exact hwinner), hidr, hsame]
  rw [haccepted receipt hmem hticket hid, haccepted least hleast.mem rfl rfl]

/-- No double admission.  For every list of receipts, each ticket admits one
distinct receipt exactly if no receipt reuses the receipt id of a winner of its
ticket. -/
theorem singleAdmission_iff (receipts : List SignedScanReceipt) :
    SingleAdmission receipts ↔ WinnerIdUnique receipts :=
  ⟨winnerIdUnique_of_singleAdmission, singleAdmission_of_winnerIdUnique⟩

/-! ## A reused receipt id -/

namespace Sample

/-- A wire format that writes the fields of a receipt one after the other. -/
def receiptFormat : ReceiptFormat where
  claimsShape c := if c.scannerSequence < 0 then .error "negative sequence" else .ok ()
  toVec c := some ("," |>.intercalate
    [toString c.receiptId, toString c.scannerId, c.scannerKeyId, toString c.scannerSequence,
      toString c.tokenId, toString c.eventId, toString c.ticketId, toString c.orderId,
      toString c.scannedAt]).toUTF8.toList

/-- The scan of ticket 8 by one scanner. -/
def firstScan : SignedScanReceipt where
  claims :=
    { receiptId := 10, scannerId := 1, scannerKeyId := "s1", scannerSequence := 1, tokenId := 5
      eventId := 7, ticketId := 8, orderId := 9, scannedAt := 100 }
  signature := encodeText (List.replicate 64 2)

/-- A later scan of the same ticket by another scanner, under the same receipt id. -/
def secondScan : SignedScanReceipt where
  claims :=
    { receiptId := 10, scannerId := 2, scannerKeyId := "s2", scannerSequence := 1, tokenId := 5
      eventId := 7, ticketId := 8, orderId := 9, scannedAt := 160 }
  signature := encodeText (List.replicate 64 2)

end Sample

/-- Verified receipts alone do not give single admission: two scanners that choose
one receipt id for their scans of one ticket are both accepted. -/
theorem not_singleAdmission_of_verified :
    ¬ ∀ receipts : List SignedScanReceipt,
      (∀ r ∈ receipts, ∃ publicKey,
        verifyScanReceipt Sample.openScheme Sample.receiptFormat r publicKey = .ok ()) →
      SingleAdmission receipts := by
  intro h
  have hverified : ∀ r ∈ [Sample.firstScan, Sample.secondScan], ∃ publicKey,
      verifyScanReceipt Sample.openScheme Sample.receiptFormat r publicKey = .ok () := by
    intro r hr
    refine ⟨encodeText (List.replicate 32 1), ?_⟩
    simp only [List.mem_cons, List.not_mem_nil, or_false] at hr
    rcases hr with rfl | rfl
    · decide +kernel
    · decide +kernel
  have hleast : IsLeastOf ticketOf receiptOrderKey [Sample.firstScan, Sample.secondScan] 8
      Sample.firstScan := ⟨by simp, rfl, by decide⟩
  have hsame : Sample.secondScan = Sample.firstScan :=
    winnerIdUnique_of_singleAdmission (h _ hverified) _ _ hleast (by simp) rfl rfl
  exact absurd hsame (by decide)

end Admission
