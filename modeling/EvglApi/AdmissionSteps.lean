/-
# What a statement leaves of the admission tables

* `Evolves`: a token and an entitlement keep the columns that no statement updates, and
  a revocation is permanent;
* `Untouched`: a revocation of one ticket leaves the rows of the others alone;
* `Change`: what a statement can do at all, whether it fails or is executed.

`Undisturbed` combines the two with the record of the receipts that are still to be
recorded.
-/
import EvglApi.AdmissionService

open Concurrency Keyed

namespace Admission

variable {procedures : Procedures} {db db' db'' : Database} {n m : ℕ} {ticketId : Uuid} {β : Type}

/-! ## Rows over time -/

/-- The database `db'` is a later one. -/
structure Evolves (procedures : Procedures) (db db' : Database) : Prop where
  token : ∀ id t, db.token id = some t → ∃ t', db'.token id = some t' ∧
    t'.toTokenFixed = t.toTokenFixed ∧
      (procedures.Lawful → t.revokedAt ≠ none → t'.revokedAt ≠ none)
  entitlement : ∀ id e, db.entitlement id = some e → ∃ e', db'.entitlement id = some e' ∧
    e'.toEntitlementFixed = e.toEntitlementFixed ∧
      (procedures.Lawful → e.status ≠ "active" → e'.status ≠ "active")

namespace Evolves

/-- The tokens and the entitlements that are found stay as they are. -/
theorem of_kept (ht : ∀ id t, db.token id = some t → db'.token id = some t)
    (he : ∀ id e, db.entitlement id = some e → db'.entitlement id = some e) :
    Evolves procedures db db' :=
  ⟨fun id t h => ⟨t, ht id t h, rfl, fun _ hrevoked => hrevoked⟩,
    fun id e h => ⟨e, he id e h, rfl, fun _ hstatus => hstatus⟩⟩

theorem refl (db : Database) : Evolves procedures db db := of_kept (fun _ _ h => h) fun _ _ h => h

/-- A later database of a later one is later. -/
theorem trans (h : Evolves procedures db db') (h' : Evolves procedures db' db'') :
    Evolves procedures db db'' where
  token := by
    intro id t ht
    obtain ⟨t', ht', hfixed, hrevoked⟩ := h.token id t ht
    obtain ⟨t'', ht'', hfixed', hrevoked'⟩ := h'.token id t' ht'
    exact ⟨t'', ht'', hfixed'.trans hfixed, fun hl hr => hrevoked' hl (hrevoked hl hr)⟩
  entitlement := by
    intro id e he
    obtain ⟨e', he', hfixed, hstatus⟩ := h.entitlement id e he
    obtain ⟨e'', he'', hfixed', hstatus'⟩ := h'.entitlement id e' he'
    exact ⟨e'', he'', hfixed'.trans hfixed, fun hl hs => hstatus' hl (hstatus hl hs)⟩

end Evolves

/-- The rows of a ticket are as they were. -/
structure Untouched (ticketId : Uuid) (db db' : Database) : Prop where
  token : ∀ id t, db.token id = some t → t.ticketId = ticketId → db'.token id = some t
  entitlement : ∀ e, db.entitlement ticketId = some e → db'.entitlement ticketId = some e

namespace Untouched

theorem of_kept (ht : ∀ id t, db.token id = some t → db'.token id = some t)
    (he : ∀ id e, db.entitlement id = some e → db'.entitlement id = some e) :
    Untouched ticketId db db' :=
  ⟨fun id t h _ => ht id t h, he ticketId⟩

theorem refl (db : Database) : Untouched ticketId db db := of_kept (fun _ _ h => h) fun _ _ h => h

theorem trans (h : Untouched ticketId db db') (h' : Untouched ticketId db' db'') :
    Untouched ticketId db db'' :=
  ⟨fun id t ht hticket => h'.token id t (h.token id t ht hticket) hticket,
    fun e he => h'.entitlement e (h.entitlement e he)⟩

end Untouched

/-- An entitlement is found under its own ticket. -/
theorem ticketId_of_entitlement {id : Uuid} {e : EntitlementRow} (h : db.entitlement id = some e) :
    e.ticketId = id := by
  have hkey := key_of_lookup h
  exact hkey

/-! ## Insertions -/

/-- The entitlement and the key of a new token match its columns. -/
theorem backing_eq_some {row : TokenFixed} {e : EntitlementRow} {k : SigningKeyRow}
    (h : db.backing row = some (e, k)) :
    (e.ticketId = row.ticketId ∧ e.orderId = row.orderId ∧ e.eventId = row.eventId ∧
      e.issuanceEpoch = row.issuanceEpoch ∧ e.status = "active") ∧ k.keyId = row.keyId := by
  obtain ⟨e', he, hrest⟩ := Option.bind_eq_some_iff.mp h
  obtain ⟨k', hk, hpair⟩ := Option.bind_eq_some_iff.mp hrest
  obtain ⟨rfl, rfl⟩ := Prod.mk.inj (Option.some.inj hpair)
  obtain ⟨-, hmatch⟩ := found he
  obtain ⟨-, hkey, -⟩ := found hk
  exact ⟨hmatch, hkey⟩

theorem isSome_returning {α : Type} (value : α) (returned : Bool) :
    (returning value returned).isSome = returned := by
  cases returned with
  | true => rfl
  | false => rfl

/-- A backed token is inserted with its own columns. -/
theorem insertToken_of_backing {row : TokenFixed} {e : EntitlementRow} {k : SigningKeyRow}
    (h : db.backing row = some (e, k)) :
    db.insertToken row =
      ((insertBound (fun t => t.tokenId) (fun old => old.toTokenFixed = row)
          ({ row with revokedAt := none } : TokenRow) db.tokens).1,
        { db with tokens := (insertBound (fun t => t.tokenId)
          (fun old => old.toTokenFixed = row) ({ row with revokedAt := none } : TokenRow)
            db.tokens).2 }) := by
  obtain ⟨⟨hticket, horder, hevent, hepoch, -⟩, hkey⟩ := backing_eq_some h
  unfold Database.insertToken
  rw [h]
  dsimp only
  rw [hticket, horder, hevent, hepoch, hkey]

/-- A token whose registration returns a row is stored with its columns. -/
theorem exists_of_insertToken {row : TokenFixed} (h : (db.insertToken row).1 = true) :
    ∃ t, (db.insertToken row).2.token row.tokenId = some t ∧ t.toTokenFixed = row := by
  cases hbacking : db.backing row with
  | none =>
      unfold Database.insertToken at h
      rw [hbacking] at h
      cases h
  | some found =>
      rw [insertToken_of_backing hbacking] at h ⊢
      obtain ⟨t, ht, hsame⟩ := exists_of_insertBound h
      refine ⟨t, ht, ?_⟩
      rcases hsame with rfl | hsame
      · rfl
      · exact of_decide_eq_true hsame

/-! ## What a statement does -/

/-- What a statement makes of the database: nothing, or one change of a table or of the record. -/
inductive Change (procedures : Procedures) (db : Database) :
    {β : Type} → Query β → Database → Prop
  | kept {β : Type} (q : Query β) : Change procedures db q db
  | signingKey (row : SigningKeyRow) : Change procedures db (.insertSigningKey row)
      { db with signingKeys :=
          (insertBound SigningKeyRow.keyId (fun old => old = row) row db.signingKeys).2 }
  | scannerKey (row : ScannerKeyRow) : Change procedures db (.insertScannerKey row)
      { db with scannerKeys :=
          (insertBound (fun k => (k.scannerId, k.keyId)) (fun old => old = row) row
            db.scannerKeys).2 }
  | entitlement {fixed : EntitlementFixed} {o : OrderRow}
      (hpaid : db.paidOrder fixed.orderId fixed.eventId = some o) :
      Change procedures db (.insertEntitlement fixed)
        { db with entitlements :=
            (insertBound (fun e => e.ticketId)
              (fun old => old.orderId = fixed.orderId ∧ old.eventId = fixed.eventId ∧
                old.issuanceEpoch = fixed.issuanceEpoch)
              (Database.newEntitlement fixed) db.entitlements).2 }
  | token {row : TokenFixed} {e : EntitlementRow} {k : SigningKeyRow}
      (hbacking : db.backing row = some (e, k)) :
      Change procedures db (.insertToken row)
        { db with tokens :=
            (insertBound (fun t => t.tokenId) (fun old => old.toTokenFixed = row)
              ({ row with revokedAt := none } : TokenRow) db.tokens).2 }
  | revocation {ticketId : Uuid} {revokedAt : Timestamp} {answer : Option ℤ}
      (hanswer : (procedures.revoke ticketId revokedAt db).answer = .ok answer) :
      Change procedures db (.revokeEntitlement ticketId revokedAt)
        (db.revoke ticketId (procedures.revoke ticketId revokedAt db))
  | candidate (n : ℕ) (tokenId ticketId orderId eventId : Uuid) (scannedAt : Timestamp) :
      Change procedures db (.selectCandidate n tokenId ticketId orderId eventId scannedAt)
        (db.judge n ticketId)
  | receipt (n : ℕ) (call : ReceiptCall) : Change procedures db (.recordReceipt n call)
      { db.settle n with receipts := db.receipts ++ [call] }
  | unrecorded (n : ℕ) (call : ReceiptCall) :
      Change procedures db (.recordReceipt n call) (db.settle n)
  | order (order : OrderRow) : Change procedures db (.insertOrder order)
      { db with orders := db.orders ++ [order] }
  | orderStatus (orderId : Uuid) (status : String) :
      Change procedures db (.updateOrder orderId status)
        { db with orders := db.orders.map fun o =>
            if o.id = orderId then { o with status := status } else o }

/-- A statement that is executed makes the change that its text says. -/
theorem change_exec (q : Query β) : Change procedures db q (q.exec procedures db).2 := by
  cases q with
  | insertSigningKey row => exact .signingKey row
  | insertScannerKey row => exact .scannerKey row
  | insertEntitlement fixed =>
      -- without a paid order the insertion selects no row
      show Change procedures db _ (db.insertEntitlement fixed).2
      cases hpaid : db.paidOrder fixed.orderId fixed.eventId with
      | none =>
          rw [Database.insertEntitlement, hpaid]
          exact .kept _
      | some o =>
          rw [Database.insertEntitlement, hpaid]
          exact .entitlement hpaid
  | insertToken row =>
      -- and without a backing entitlement and key neither does this one
      show Change procedures db _ (db.insertToken row).2
      cases hbacking : db.backing row with
      | none =>
          rw [Database.insertToken, hbacking]
          exact .kept _
      | some found =>
          rw [insertToken_of_backing hbacking]
          exact .token hbacking
  | revokeEntitlement ticketId revokedAt =>
      rw [Query.exec]
      split
      · exact .kept _
      · next answer hanswer => exact .revocation hanswer
  | selectScannerKey scannerId keyId scannedAt => exact .kept _
  | selectCandidate n tokenId ticketId orderId eventId scannedAt =>
      rw [Query.exec]
      dsimp only
      split
      · exact .candidate n tokenId ticketId orderId eventId scannedAt
      · exact .kept _
  | recordReceipt n call => exact .receipt n call
  | insertOrder order =>
      rw [Query.exec]
      dsimp only
      split
      · exact .kept _
      · exact .order order
  | updateOrder orderId status => exact .orderStatus orderId status

/-- A statement that fails changes no table; a receipt that fails is settled nevertheless.
-/
theorem change_fail (q : Query β) : Change procedures db q (q.fail db) := by
  cases q with
  | recordReceipt n call => exact .unrecorded n call
  | _ => exact .kept _

/-- A statement makes one change, whether it fails or is executed. -/
theorem change_stmt {q : Query β} {x : Option String} {a : Except String β}
    (h : (Stmt.query q).exec procedures x db = some (a, db')) : Change procedures db q db' := by
  cases x with
  | some e =>
      obtain ⟨-, rfl⟩ := Prod.mk.inj (Option.some.inj h)
      exact change_fail q
  | none =>
      have hpair : q.exec procedures db = (a, db') := Option.some.inj h
      have hchange : Change procedures db q (q.exec procedures db).2 := change_exec q
      rw [hpair] at hchange
      exact hchange

/-! ## The verdict -/

/-- The verdict is about the token and the entitlement of the token's ticket. -/
theorem candidate_eq_some_iff {tokenId orderId eventId : Uuid} {scannedAt : Timestamp} {b : Bool} :
    db.candidate tokenId ticketId orderId eventId scannedAt = some b ↔
      ∃ t e, db.token tokenId = some t ∧ db.entitlement t.ticketId = some e ∧
        Database.isCandidate t e ticketId orderId eventId scannedAt = b := by
  unfold Database.candidate
  constructor
  · intro h
    obtain ⟨t, ht, hrest⟩ := Option.bind_eq_some_iff.mp h
    obtain ⟨e, he, hb⟩ := Option.bind_eq_some_iff.mp hrest
    exact ⟨t, e, ht, he, Option.some.inj hb⟩
  · rintro ⟨t, e, ht, he, rfl⟩
    rw [ht, Option.bind_eq_bind, Option.bind_some, he]
    rfl

/-! ## Revocations -/

section Revocation

variable {r : Revocation} {id : Uuid}

/-- A revocation updates the tokens of its ticket and no column but the instant. -/
theorem token_revoke :
    (db.revoke ticketId r).token id = (db.token id).map fun t =>
      if t.ticketId = ticketId then { t with revokedAt := r.token t } else t := by
  refine lookup_map fun t => ?_
  split
  · rfl
  · rfl

/-- A revocation updates the entitlement of its ticket, and only the state of it. -/
theorem entitlement_revoke :
    (db.revoke ticketId r).entitlement id = (db.entitlement id).map fun e =>
      if e.ticketId = ticketId then { e with toEntitlementState := r.entitlement e } else e := by
  refine lookup_map fun e => ?_
  split
  · rfl
  · rfl

/-- A revocation makes the database a later one: what was revoked stays so. -/
theorem evolves_revoke (revokedAt : Timestamp) :
    Evolves procedures db (db.revoke ticketId (procedures.revoke ticketId revokedAt db)) where
  token := by
    intro id t ht
    rw [token_revoke, ht, Option.map_some]
    by_cases hticket : t.ticketId = ticketId
    · rw [if_pos hticket]
      exact ⟨_, rfl, rfl, fun hl hr => hl.token ticketId revokedAt db t hr⟩
    · rw [if_neg hticket]
      exact ⟨t, rfl, rfl, fun _ hr => hr⟩
  entitlement := by
    intro id e he
    rw [entitlement_revoke, he, Option.map_some]
    by_cases hticket : e.ticketId = ticketId
    · rw [if_pos hticket]
      exact ⟨_, rfl, rfl, fun hl _ => hl.status ticketId revokedAt db e⟩
    · rw [if_neg hticket]
      exact ⟨e, rfl, rfl, fun _ hs => hs⟩

/-- The rows of another ticket. -/
theorem untouched_revoke {other : Uuid} (hne : other ≠ ticketId) :
    Untouched other db (db.revoke ticketId r) where
  token := by
    intro id t ht hticket
    rw [token_revoke, ht, Option.map_some, if_neg (hticket ▸ hne)]
  entitlement := by
    intro e he
    have hticket : e.ticketId = other := ticketId_of_entitlement he
    rw [entitlement_revoke, he, Option.map_some, if_neg (hticket ▸ hne)]

end Revocation

/-! ## Statements -/

/-- If the statement commits a revocation, no call that has read 'candidate' for the
ticket has yet to record it. -/
def Query.Unhurried (procedures : Procedures) : Query β → Database → Prop
  | .revokeEntitlement ticketId revokedAt, db =>
      (procedures.revoke ticketId revokedAt db).answer.isOk = true →
        ∀ m, (m, ticketId) ∉ db.judged
  | _, _ => True

/-- What the other calls leave of the database for call `n`.  If they are `calm`, they
revoke no ticket for which the call has read 'candidate' and has yet to record it. -/
structure Undisturbed (procedures : Procedures) (calm : Prop) (n : ℕ) (db db' : Database) :
    Prop where
  requests : db.requests <+: db'.requests
  evolves : Evolves procedures db db'
  judged : ∀ ticketId, (n, ticketId) ∈ db.judged → (n, ticketId) ∈ db'.judged
  untouched : calm → ∀ ticketId, (n, ticketId) ∈ db.judged → Untouched ticketId db db'

variable {calm : Prop}

namespace Undisturbed

theorem refl (n : ℕ) (db : Database) : Undisturbed procedures calm n db db :=
  ⟨List.prefix_refl _, Evolves.refl db, fun _ h => h, fun _ _ _ => Untouched.refl db⟩

theorem trans (h : Undisturbed procedures calm n db db')
    (h' : Undisturbed procedures calm n db' db'') : Undisturbed procedures calm n db db'' where
  requests := h.requests.trans h'.requests
  evolves := h.evolves.trans h'.evolves
  judged := fun ticketId hj => h'.judged ticketId (h.judged ticketId hj)
  untouched := fun hcalm ticketId hj =>
    (h.untouched hcalm ticketId hj).trans (h'.untouched hcalm ticketId (h.judged ticketId hj))

/-- A step that changes no row which is found. -/
theorem of_kept (hrequests : db.requests <+: db'.requests)
    (ht : ∀ id t, db.token id = some t → db'.token id = some t)
    (he : ∀ id e, db.entitlement id = some e → db'.entitlement id = some e)
    (hjudged : ∀ ticketId, (n, ticketId) ∈ db.judged → (n, ticketId) ∈ db'.judged) :
    Undisturbed procedures calm n db db' :=
  ⟨hrequests, Evolves.of_kept ht he, hjudged, fun _ _ _ => Untouched.of_kept ht he⟩

/-- A step on other tables. -/
theorem of_tables (hrequests : db'.requests = db.requests) (ht : db'.tokens = db.tokens)
    (he : db'.entitlements = db.entitlements)
    (hjudged : ∀ ticketId, (n, ticketId) ∈ db.judged → (n, ticketId) ∈ db'.judged) :
    Undisturbed procedures calm n db db' := by
  refine of_kept (hrequests ▸ List.prefix_refl _) (fun id t h => ?_) (fun id e h => ?_) hjudged
  · show lookup _ db'.tokens id = some t
    rw [ht]
    exact h
  · show lookup _ db'.entitlements id = some e
    rw [he]
    exact h

end Undisturbed

/-- The statement names call `n`, if it names one. -/
def Query.Of (n : ℕ) : Query β → Prop
  | .selectCandidate k _ _ _ _ _ => k = n
  | .recordReceipt k _ => k = n
  | _ => True

/-- Settling one call leaves the verdicts of the others. -/
theorem mem_judged_settle (h : (m, ticketId) ∈ db.judged) (hne : m ≠ n) :
    (m, ticketId) ∈ (db.settle n).judged :=
  List.mem_filter.mpr ⟨h, decide_eq_true hne⟩

/-- A statement of call `n` does not disturb call `m`. -/
theorem undisturbed_of_change {q : Query β} (h : Change procedures db q db') (hof : q.Of n)
    (hcalm : calm → q.Unhurried procedures db) (hne : m ≠ n) :
    Undisturbed procedures calm m db db' := by
  cases h with
  | entitlement hpaid =>
      exact Undisturbed.of_kept (List.prefix_refl _) (fun _ _ h => h)
        (fun _ _ h => lookup_insertBound h) fun _ h => h
  | token hbacking =>
      exact Undisturbed.of_kept (List.prefix_refl _) (fun _ _ h => lookup_insertBound h)
        (fun _ _ h => h) fun _ h => h
  | revocation hanswer =>
      refine ⟨List.prefix_refl _, evolves_revoke _, fun _ h => h, fun hc ticketId hj => ?_⟩
      refine untouched_revoke ?_
      rintro rfl
      exact hcalm hc (by rw [hanswer]; rfl) m hj
  | candidate => exact Undisturbed.of_tables rfl rfl rfl fun _ h => List.mem_append_left _ h
  | receipt k call =>
      obtain rfl : k = n := hof
      exact Undisturbed.of_tables rfl rfl rfl fun _ h => mem_judged_settle h hne
  | unrecorded k call =>
      obtain rfl : k = n := hof
      exact Undisturbed.of_tables rfl rfl rfl fun _ h => mem_judged_settle h hne
  | _ => exact Undisturbed.of_tables rfl rfl rfl fun _ h => h

/-- A statement that fails disturbs no other call. -/
theorem undisturbed_fail {q : Query β} (hof : q.Of n) (hne : m ≠ n) :
    Undisturbed procedures calm m db (q.fail db) := by
  cases q with
  | recordReceipt k call =>
      obtain rfl : k = n := hof
      exact Undisturbed.of_tables rfl rfl rfl fun _ h => mem_judged_settle h hne
  | _ => exact Undisturbed.refl m db

/-- The arrival of a call. -/
theorem undisturbed_enter (r : Role) : Undisturbed procedures calm n db (db.enter r) := by
  cases r with
  | request k q =>
      exact Undisturbed.of_kept (List.prefix_append _ _) (fun _ _ h => h) (fun _ _ h => h)
        fun _ h => h

end Admission
