/-
# Reconciliation of merged batches

The verdicts on the receipts of a ticket are a function of the set of these receipts:
neither their order nor copies nor the receipts of other tickets matter.  A list may be
reconciled in batches for that reason, and a longer list changes a winner only to a
new receipt that was scanned earlier.

* `reconcile_decides` : the verdicts, by the least order key of a ticket;
* `winningReceiptId` : the winner that the verdicts on a ticket name, which is read off
  the least key (`winningReceiptId_eq`);
* `batches_merge` : batches, and lists that are extended.
-/
import EvglApi.Reconcile
import Mathlib.Data.List.Nodup

open LeastBy

namespace Admission

/-! ## The winner of a ticket -/

/-- The winner that the verdicts on a ticket name. -/
def winningReceiptId (receipts : List SignedScanReceipt) (ticketId : Uuid) : Option Uuid :=
  ((reconcileVerifiedReceipts receipts).find? (·.ticketId = ticketId)).bind (·.winningReceiptId)

/-- The winners that the first loop of `reconcile_verified_receipts` finds. -/
def winners (receipts : List SignedScanReceipt) : Uuid → Option SignedScanReceipt :=
  leastBy ticketOf receiptOrderKey receipts

/-- The receipt id in an order key. -/
def receiptIdOf (orderKey : Instant ×ₗ Uuid ×ₗ ℤ ×ₗ Uuid) : Uuid :=
  (ofLex (ofLex (ofLex orderKey).2).2).2

/-- The verdict on a receipt names the winner of its ticket. -/
theorem winningReceiptId_receiptOutcome (receipts : List SignedScanReceipt)
    (receipt : SignedScanReceipt) :
    (receiptOutcome (leastBy ticketOf receiptOrderKey receipts) receipt).winningReceiptId =
      (winners receipts (ticketOf receipt)).map (·.claims.receiptId) := rfl

/-- A ticket's winner is found by the first loop, whether or not it has receipts. -/
theorem winningReceiptId_eq_map (receipts : List SignedScanReceipt) (ticketId : Uuid) :
    winningReceiptId receipts ticketId = (winners receipts ticketId).map (·.claims.receiptId) := by
  rw [winningReceiptId, reconcileVerifiedReceipts, List.find?_map]
  cases hfind : receipts.find? ((fun o => decide (o.ticketId = ticketId)) ∘
      receiptOutcome (leastBy ticketOf receiptOrderKey receipts)) with
  | none =>
      -- no receipt is about the ticket
      have hnone : winners receipts ticketId = none := by
        refine Option.eq_none_iff_forall_not_mem.mpr fun w hw => ?_
        have hleast := leastBy_eq_some hw
        exact List.find?_eq_none.mp hfind w hleast.mem (decide_eq_true hleast.group_eq)
      rw [hnone]
      rfl
  | some receipt =>
      have hfound := List.find?_some hfind
      have hticket : ticketOf receipt = ticketId := of_decide_eq_true hfound
      rw [Option.map_some, Option.bind_some, winningReceiptId_receiptOutcome, hticket]

/-- A ticket's winner is determined by the least order key of its receipts. -/
theorem winningReceiptId_eq (receipts : List SignedScanReceipt) (ticketId : Uuid) :
    winningReceiptId receipts ticketId =
      WithTop.map receiptIdOf (leastKey ticketOf receiptOrderKey receipts ticketId) := by
  rw [winningReceiptId_eq_map, winners, leastKey]
  cases leastBy ticketOf receiptOrderKey receipts ticketId with
  | none => rfl
  | some w => rfl

/-- Every verdict on a receipt of a ticket names the ticket's winner. -/
theorem winningReceiptId_of_mem {receipts : List SignedScanReceipt} {o : AdmissionReceiptOutcome}
    (ho : o ∈ reconcileVerifiedReceipts receipts) :
    o.winningReceiptId = winningReceiptId receipts o.ticketId ∧
      o.winningReceiptId = (winners receipts o.ticketId).map (·.claims.receiptId) := by
  obtain ⟨receipt, -, rfl⟩ := List.mem_map.mp ho
  have hnamed := winningReceiptId_receiptOutcome receipts receipt
  exact ⟨hnamed.trans (winningReceiptId_eq_map receipts _).symm, hnamed⟩

/-! ## The verdicts -/

/-- What is reported about a receipt whose ticket has the winner `winningId`. -/
def verdictOn (receipt : SignedScanReceipt) (winningId : Uuid) : AdmissionReceiptOutcome :=
  { receiptId := receipt.claims.receiptId
    ticketId := receipt.claims.ticketId
    outcome := if receipt.claims.receiptId = winningId then .accepted else .duplicateReview
    reason :=
      if receipt.claims.receiptId = winningId then none else some "duplicate admission receipt"
    winningReceiptId := some winningId }

/-- The verdict on a receipt of a list is decided by any least receipt of its ticket. -/
theorem receiptOutcome_eq_verdictOn {receipts : List SignedScanReceipt}
    {receipt winner : SignedScanReceipt}
    (hwinner : IsLeastOf ticketOf receiptOrderKey receipts (ticketOf receipt) winner)
    (hmem : receipt ∈ receipts) :
    receiptOutcome (leastBy ticketOf receiptOrderKey receipts) receipt =
      verdictOn receipt winner.claims.receiptId := by
  obtain ⟨w, hw⟩ := exists_leastBy ticketOf receiptOrderKey hmem
  -- the loop may have kept another least receipt, which has the same id
  have hid : w.claims.receiptId = winner.claims.receiptId :=
    receiptId_eq_of_receiptOrderKey_eq ((leastBy_eq_some hw).key_eq hwinner)
  change leastBy ticketOf receiptOrderKey receipts receipt.claims.ticketId = some w at hw
  rw [receiptOutcome, hw, Option.map_some, hid]
  by_cases hown : receipt.claims.receiptId = winner.claims.receiptId
  · simp [verdictOn, hown]
  · simp [verdictOn, hown, Ne.symm hown]

/-- Lists with the same receipts of a ticket have the same verdicts on them. -/
theorem receiptOutcome_congr {xs ys : List SignedScanReceipt} {receipt : SignedScanReceipt}
    (hsame : ∀ r, ticketOf r = ticketOf receipt → (r ∈ xs ↔ r ∈ ys)) (hmem : receipt ∈ xs) :
    receiptOutcome (leastBy ticketOf receiptOrderKey xs) receipt =
      receiptOutcome (leastBy ticketOf receiptOrderKey ys) receipt := by
  obtain ⟨w, hw⟩ := exists_leastBy ticketOf receiptOrderKey hmem
  have hxs := leastBy_eq_some hw
  have hys : IsLeastOf ticketOf receiptOrderKey ys (ticketOf receipt) w :=
    ⟨(hsame w hxs.group_eq).mp hxs.mem, hxs.group_eq,
      fun r hr hticket => hxs.key_le r ((hsame r hticket).mpr hr) hticket⟩
  rw [receiptOutcome_eq_verdictOn hxs hmem,
    receiptOutcome_eq_verdictOn hys ((hsame receipt rfl).mp hmem)]

/-- Reconciliation is a function of the set of scans of each ticket.  There is one verdict
for each receipt, in order, and it names a least receipt of the ticket; the receipt is
accepted, without a reason, if it has the id of that one, and is up for review, with a
reason, otherwise.  Two lists with the same receipts of a ticket have the same verdicts on
each of them. -/
theorem reconcile_by_scans (receipts : List SignedScanReceipt) :
    (reconcileVerifiedReceipts receipts).length = receipts.length ∧
    (∀ (i : ℕ) (r : SignedScanReceipt) (o : AdmissionReceiptOutcome),
      receipts[i]? = some r → (reconcileVerifiedReceipts receipts)[i]? = some o →
        o.receiptId = r.claims.receiptId ∧ o.ticketId = r.claims.ticketId ∧
        ∃ winner, IsLeastOf ticketOf receiptOrderKey receipts (ticketOf r) winner ∧
          o.winningReceiptId = some winner.claims.receiptId ∧
          (o.outcome = .accepted ∧ o.reason = none ↔
            r.claims.receiptId = winner.claims.receiptId) ∧
          (r.claims.receiptId ≠ winner.claims.receiptId →
            o.outcome = .duplicateReview ∧ o.reason.isSome)) ∧
    ∀ (others : List SignedScanReceipt) (ticketId : Uuid),
      (∀ r, ticketOf r = ticketId → (r ∈ receipts ↔ r ∈ others)) →
      ∀ (i j : ℕ) (r : SignedScanReceipt) (o o' : AdmissionReceiptOutcome), ticketOf r = ticketId →
        receipts[i]? = some r → others[j]? = some r →
        (reconcileVerifiedReceipts receipts)[i]? = some o →
        (reconcileVerifiedReceipts others)[j]? = some o' →
          o.outcome = o'.outcome ∧ o.reason = o'.reason ∧
            o.winningReceiptId = o'.winningReceiptId := by
  refine ⟨List.length_map _, fun i r o hr ho => ?_, ?_⟩
  · have hmem : r ∈ receipts := List.mem_of_getElem? hr
    obtain ⟨winner, hwinner⟩ := exists_leastBy ticketOf receiptOrderKey hmem
    have hleast := leastBy_eq_some hwinner
    rw [getElem?_reconcile hr ho, receiptOutcome_eq_verdictOn hleast hmem]
    refine ⟨rfl, rfl, winner, hleast, rfl, ?_, fun hne => ?_⟩
    · by_cases hown : r.claims.receiptId = winner.claims.receiptId
      · simp [verdictOn, hown]
      · simp [verdictOn, hown]
    · simp [verdictOn, hne]
  · rintro others ticketId hsame i j r o o' rfl hr hr' ho ho'
    rw [getElem?_reconcile hr ho, getElem?_reconcile hr' ho',
      receiptOutcome_congr hsame (List.mem_of_getElem? hr)]
    exact ⟨rfl, rfl, rfl⟩

/-! ## Batches and extensions -/

/-- The receipts of a batch that are kept for the next reconciliation: of each ticket the
one that the first loop found. -/
def leastReceipts (batch : List SignedScanReceipt) : List SignedScanReceipt :=
  batch.filter fun receipt => winners batch (ticketOf receipt) = some receipt

/-- With distinct receipt ids, a receipt that is not accepted in a list is not accepted in
a longer one. -/
theorem outcome_of_append {receipts more : List SignedScanReceipt}
    (hids : ((receipts ++ more).map (·.claims.receiptId)).Nodup) {r : SignedScanReceipt}
    (hmem : r ∈ receipts)
    (hreview : (receiptOutcome (leastBy ticketOf receiptOrderKey receipts) r).outcome =
      .duplicateReview) :
    (receiptOutcome (leastBy ticketOf receiptOrderKey (receipts ++ more)) r).outcome ≠
      .accepted := by
  intro haccepted
  have hmem' : r ∈ receipts ++ more := List.mem_append_left _ hmem
  obtain ⟨w, hw⟩ := exists_leastBy ticketOf receiptOrderKey hmem'
  have hleast := leastBy_eq_some hw
  -- the receipt has the winner's id, so it is the least one of both lists
  obtain rfl : r = w := List.inj_on_of_nodup_map hids hmem' hleast.mem
    ((outcome_eq_accepted_iff hw).mp haccepted)
  have hleast' : IsLeastOf ticketOf receiptOrderKey receipts (ticketOf r) r :=
    ⟨hmem, rfl, fun x hx hticket => hleast.key_le x (List.mem_append_left _ hx) hticket⟩
  rw [receiptOutcome_eq_verdictOn hleast' hmem] at hreview
  simp [verdictOn] at hreview

/-- Late and sharded batches merge.  Every verdict names the winner of its ticket.  However a
list of receipts is split into batches, and whichever least receipts of their tickets the batches
keep, the kept receipts name the same winners as the whole list; and in a longer list the key of a
winner does not increase, a winner is replaced only by a new receipt with a strictly smaller key,
and with distinct receipt ids a receipt once up for review is never accepted. -/
theorem batches_merge :
    (∀ (receipts : List SignedScanReceipt), ∀ o ∈ reconcileVerifiedReceipts receipts,
      o.winningReceiptId = winningReceiptId receipts o.ticketId ∧
        o.winningReceiptId = (winners receipts o.ticketId).map (·.claims.receiptId)) ∧
    (∀ (receipts : List SignedScanReceipt) (batches kept : List (List SignedScanReceipt)),
      (∀ r, r ∈ receipts ↔ r ∈ batches.flatten) →
      List.Forall₂ (Distils ticketOf receiptOrderKey) batches kept →
      ∀ ticketId, winningReceiptId kept.flatten ticketId = winningReceiptId receipts ticketId) ∧
    (∀ batch, Distils ticketOf receiptOrderKey batch (leastReceipts batch)) ∧
    ∀ receipts more : List SignedScanReceipt,
      (∀ ticketId w, winners receipts ticketId = some w →
        ∃ w', winners (receipts ++ more) ticketId = some w' ∧
          receiptOrderKey w' ≤ receiptOrderKey w ∧
          (w' ≠ w → w' ∈ more ∧ receiptOrderKey w' < receiptOrderKey w)) ∧
      (((receipts ++ more).map (·.claims.receiptId)).Nodup →
        ∀ (i : ℕ) (o o' : AdmissionReceiptOutcome), i < receipts.length →
          (reconcileVerifiedReceipts receipts)[i]? = some o →
          (reconcileVerifiedReceipts (receipts ++ more))[i]? = some o' →
          o.outcome = .duplicateReview → o'.outcome ≠ .accepted) := by
  refine ⟨fun _ _ => winningReceiptId_of_mem, ?_, distils_filter ticketOf receiptOrderKey,
    fun receipts more => ⟨?_, ?_⟩⟩
  · intro receipts batches kept hsplit hkept ticketId
    rw [winningReceiptId_eq, winningReceiptId_eq, leastKey_flatten hkept,
      leastKey_congr fun r _ => hsplit r]
  · intro ticketId w hw
    obtain ⟨w', hw', rfl | ⟨hnew, hsmaller⟩⟩ := exists_leastBy_append hw more
    · exact ⟨w', hw', le_rfl, fun hne => absurd rfl hne⟩
    · exact ⟨w', hw', hsmaller.le, fun _ => ⟨hnew, hsmaller⟩⟩
  · intro hids i o o' hi ho ho' hreview
    have hr : receipts[i]? = some receipts[i] := List.getElem?_eq_getElem hi
    have hr' : (receipts ++ more)[i]? = some receipts[i] := by
      rw [List.getElem?_append_left hi, hr]
    rw [getElem?_reconcile hr ho] at hreview
    rw [getElem?_reconcile hr' ho']
    exact outcome_of_append hids (List.getElem_mem hi) hreview

end Admission
