/-
# Receipts are authentic

The signed bytes of a receipt are not transported: `record_receipt` writes the claims as
JSON again, and reads the key of the scanner back from its column.

* `ReceiptLayout` is what the derived serializer of the claims determines: the names and
  the order of the nine fields, and the text of an instant.  The bytes determine the claims
  (`toVec_injective`);
* `Recording` is how far a call of `record_receipt` has got after its own inputs;
* `receipts_authentic`: a signed receipt of a registered scanner reaches the record, and
  what reaches the record was signed.
-/
import EvglApi.Json
import EvglApi.Registrations

open Concurrency Fallible Keyed Tries

namespace Admission

variable {SigningKey VerifyingKey : Type} {env : Deployment SigningKey VerifyingKey}
  {db db' db₀ : Database} {n : ℕ} {receipt : SignedScanReceipt} {receivedAt : Instant}

/-! ## The JSON of a receipt -/

/-- A field of the claims of a receipt. -/
inductive ReceiptField
  | receiptId
  | scannerId
  | scannerKeyId
  | scannerSequence
  | tokenId
  | eventId
  | ticketId
  | orderId
  | scannedAt

/-- How the claims are laid out: each field is written, under a name, and different
instants have different texts. -/
structure ReceiptLayout where
  fields : List (String × ReceiptField)
  instantText : Instant → String
  complete : ∀ f, f ∈ fields.map Prod.snd
  instantText_injective : Function.Injective instantText

namespace ReceiptLayout

/-- The value of a field: identifiers and instants are texts. -/
def value (layout : ReceiptLayout) (claims : ScanReceiptClaims) : ReceiptField → Json.Scalar
  | .receiptId => .string (uuidText claims.receiptId)
  | .scannerId => .string (uuidText claims.scannerId)
  | .scannerKeyId => .string claims.scannerKeyId
  | .scannerSequence => .integer claims.scannerSequence
  | .tokenId => .string (uuidText claims.tokenId)
  | .eventId => .string (uuidText claims.eventId)
  | .ticketId => .string (uuidText claims.ticketId)
  | .orderId => .string (uuidText claims.orderId)
  | .scannedAt => .string (layout.instantText claims.scannedAt)

/-- The bytes of the claims (`canonical_json`). -/
def toVec (layout : ReceiptLayout) (claims : ScanReceiptClaims) : Bytes :=
  Json.toVec (layout.fields.map fun (name, field) => (name, layout.value claims field))

/-- The claims are determined by their bytes. -/
theorem toVec_injective (layout : ReceiptLayout) : Function.Injective layout.toVec := by
  intro c c' h
  have hmembers := List.map_inj_left.mp (Json.toVec_injective h)
  have hvalue : ∀ f, layout.value c f = layout.value c' f := by
    intro f
    obtain ⟨⟨name, field⟩, hmem, rfl⟩ := List.mem_map.mp (layout.complete f)
    exact (Prod.mk.inj (hmembers _ hmem)).2
  have huuid : ∀ {i j : Uuid}, Json.Scalar.string (uuidText i) = .string (uuidText j) → i = j :=
    fun hij => uuidText_injective (Json.Scalar.string.inj hij)
  obtain ⟨receiptId, scannerId, scannerKeyId, scannerSequence, tokenId, eventId, ticketId, orderId,
    scannedAt⟩ := c
  obtain rfl := huuid (hvalue .receiptId)
  obtain rfl := huuid (hvalue .scannerId)
  obtain rfl := Json.Scalar.string.inj (hvalue .scannerKeyId)
  obtain rfl := Json.Scalar.integer.inj (hvalue .scannerSequence)
  obtain rfl := huuid (hvalue .tokenId)
  obtain rfl := huuid (hvalue .eventId)
  obtain rfl := huuid (hvalue .ticketId)
  obtain rfl := huuid (hvalue .orderId)
  obtain rfl := layout.instantText_injective (Json.Scalar.string.inj (hvalue .scannedAt))
  rfl

end ReceiptLayout

/-! ## Signatures -/

/-- A signature scheme whose signatures verify under a key exactly for the bytes that a
holder of the key has signed. -/
structure Ed25519.Ideal (ed : Ed25519 SigningKey VerifyingKey)
    (signed : SigningKey → Bytes → Prop) : Prop where
  fromBytes_asBytes : ∀ sk,
    ed.fromBytes (ed.asBytes (ed.verifyingKey sk)) = some (ed.verifyingKey sk)
  verify_iff : ∀ vk m s, ed.verify vk m s = true ↔
    ∃ sk, ed.verifyingKey sk = vk ∧ signed sk m ∧ s = ed.sign sk m

/-- The holders of the key have signed nothing but the claims of receipts, each as a scanner
of its own. -/
def SignsReceipts (env : Deployment SigningKey VerifyingKey)
    (signed : SigningKey → Bytes → Prop)
    (signs : ScannerReceiptSigner SigningKey → ScanReceiptClaims → Prop) (vk : VerifyingKey) :
    Prop :=
  ∀ sk m, env.ed.verifyingKey sk = vk → signed sk m → ∃ signer claims,
    signs signer claims ∧ signer.signingKey = sk ∧ env.receipts.toVec claims = some m ∧
      ∃ receipt, signer.sign env.ed env.receipts claims = .ok receipt

/-- What a scanner has checked and done when it signs a receipt. -/
theorem ScannerReceiptSigner.sign_eq_ok_iff {ed : Ed25519 SigningKey VerifyingKey}
    {fmt : ReceiptFormat} {signer : ScannerReceiptSigner SigningKey} {claims : ScanReceiptClaims}
    {receipt : SignedScanReceipt} :
    signer.sign ed fmt claims = .ok receipt ↔
      fmt.claimsShape claims = .ok () ∧
        (claims.scannerId = signer.scannerId ∧ claims.scannerKeyId = signer.keyId) ∧
        ∃ payload, fmt.toVec claims = some payload ∧
          receipt =
            { claims, signature := encodeText (ed.sign signer.signingKey payload).val } := by
  simp only [ScannerReceiptSigner.sign, bind_eq_ok, mapError_eq_ok, refuseIf_eq_ok, okOr_eq_ok,
    pure_eq_ok, Except.ok.injEq, not_or, not_not, ne_eq]
  constructor
  · rintro ⟨⟨⟩, hshape, -, hids, payload, hpayload, rfl⟩
    exact ⟨hshape, hids, payload, hpayload, rfl⟩
  · rintro ⟨hshape, hids, payload, hpayload, rfl⟩
    exact ⟨(), hshape, (), hids, payload, hpayload, rfl⟩

/-- What a receipt that verifies has passed. -/
theorem verifyScanReceipt_eq_ok_iff {ed : Ed25519 SigningKey VerifyingKey} {fmt : ReceiptFormat}
    {publicKey : FixedBytes 32} :
    verifyScanReceipt ed fmt receipt (encodeText publicKey.val) = .ok () ↔
      fmt.claimsShape receipt.claims = .ok () ∧ ∃ vk, ed.fromBytes publicKey = some vk ∧
        ∃ signature, decodeSignature receipt.signature = .ok signature ∧
          ∃ payload, fmt.toVec receipt.claims = some payload ∧
            ed.verify vk payload signature = true := by
  simp only [verifyScanReceipt, decodeVerifyingKey, decodeBytes_encodeText, ok_bind, bind_eq_ok,
    mapError_eq_ok, okOr_eq_ok, refuseIf_eq_ok, Bool.not_eq_false]
  constructor
  · rintro ⟨⟨⟩, hshape, hrest⟩
    exact ⟨hshape, hrest⟩
  · rintro ⟨hshape, hrest⟩
    exact ⟨(), hshape, hrest⟩

/-! ## A call of `record_receipt` -/

/-- The receipt verifies under a stored key of its scanner. -/
structure Verified (env : Deployment SigningKey VerifyingKey) (receipt : SignedScanReceipt)
    (key : ScannerKeyRow) (db : Database) : Prop where
  mem : key ∈ db.scannerKeys
  scannerId : key.scannerId = receipt.claims.scannerId
  keyId : key.keyId = receipt.claims.scannerKeyId
  verify : verifyScanReceipt env.ed env.receipts receipt (encodeText key.publicKey.val) = .ok ()

theorem Verified.mono {key : ScannerKeyRow} (hextends : Extends db db')
    (h : Verified env receipt key db) : Verified env receipt key db' :=
  { h with mem := hextends.scannerKeys.subset h.mem }

/-- The key `key` is bound to the scanner, the receipt was scanned in its window and verifies
under it, and its token is registered with an entitlement. -/
structure Ready (env : Deployment SigningKey VerifyingKey) (receipt : SignedScanReceipt)
    (key : ScannerKeyRow) (db : Database) : Prop where
  bound : db.binding (.scannerKey receipt.claims.scannerId receipt.claims.scannerKeyId) =
    some (.scannerKey key)
  window : key.activeFrom ≤ timestamptz receipt.claims.scannedAt ∧
    key.retireAt > timestamptz receipt.claims.scannedAt
  verify : verifyScanReceipt env.ed env.receipts receipt (encodeText key.publicKey.val) = .ok ()
  candidate : ∃ t e, db.token receipt.claims.tokenId = some t ∧ db.entitlement t.ticketId = some e

namespace Ready

variable {key : ScannerKeyRow}

theorem mono (hextends : Extends db db') (h : Ready env receipt key db) :
    Ready env receipt key db' := by
  obtain ⟨t, e, ht, he⟩ := h.candidate
  have htoken : ∀ t : TokenRow, t.toTokenFixed.tokenId = t.tokenId := fun _ => rfl
  have hticket : ∀ e : EntitlementRow, e.toEntitlementFixed.ticketId = e.ticketId := fun _ => rfl
  obtain ⟨t', ht', hsame⟩ := exists_lookup_of_prefix htoken hextends.tokens ht
  obtain ⟨e', he', -⟩ := exists_lookup_of_prefix hticket hextends.entitlements he
  refine ⟨hextends.binding h.bound, h.window, h.verify, t', e', ht', ?_⟩
  have heq : t'.ticketId = t.ticketId := congrArg TokenFixed.ticketId hsame
  rw [heq]
  exact he'

/-- The bound key is the one that is read. -/
theorem scannerKey (h : Ready env receipt key db) :
    db.scannerKey receipt.claims.scannerId receipt.claims.scannerKeyId
      (timestamptz receipt.claims.scannedAt) = some key := by
  obtain ⟨row, hrow, heq⟩ := Option.map_eq_some_iff.mp h.bound
  obtain rfl := Binding.scannerKey.inj heq
  have hfound := found_and (q := fun k : ScannerKeyRow =>
    k.activeFrom ≤ timestamptz receipt.claims.scannedAt ∧
      k.retireAt > timestamptz receipt.claims.scannedAt) hrow h.window
  rw [← hfound]
  unfold Database.scannerKey
  congr 1
  funext k
  refine decide_eq_decide.mpr ?_
  rw [Prod.mk.injEq, and_assoc]

theorem exists_candidate (h : Ready env receipt key db) :
    ∃ b, db.candidateFor receipt.claims = some b := by
  obtain ⟨t, e, ht, he⟩ := h.candidate
  exact ⟨_, candidate_eq_some_iff.mpr ⟨t, e, ht, he, rfl⟩⟩

end Ready

/-- The outcome after the answer of `evgl_record_admission_receipt`. -/
def recordOutcome : Except String (Option Uuid) → Outcome
  | .error e => .error (.database e)
  | .ok none => .error (.database "receipt insert returned no row")
  | .ok (some id) => .ok (.recorded id)

/-- The outcome does not refuse the receipt. -/
def Harmless (o : Outcome) : Prop :=
  o ≠ .error .unknownKey ∧ o ≠ .error .malformed ∧ o ≠ .error .invalidSignature

theorem harmless_database (e : String) : Harmless (.error (.database e)) :=
  ⟨(by intro h; cases h), (by intro h; cases h), (by intro h; cases h)⟩

theorem harmless_ok (reply : Reply) : Harmless (.ok reply) :=
  ⟨(by intro h; cases h), (by intro h; cases h), (by intro h; cases h)⟩

theorem harmless_recordOutcome (r : Except String (Option Uuid)) : Harmless (recordOutcome r) := by
  rcases r with e | ⟨_ | id⟩
  · exact harmless_database e
  · exact harmless_database _
  · exact harmless_ok (.recorded id)

/-- The call hands over the claims: it passes each of their fields, the instant as it is bound,
and the hash of the bytes that are signed for them. -/
structure Reports (env : Deployment SigningKey VerifyingKey) (claims : ScanReceiptClaims)
    (call : ReceiptCall) : Prop where
  receiptId : call.receiptId = claims.receiptId
  scannerId : call.scannerId = claims.scannerId
  scannerKeyId : call.scannerKeyId = claims.scannerKeyId
  scannerSequence : call.scannerSequence = claims.scannerSequence
  tokenId : call.tokenId = claims.tokenId
  eventId : call.eventId = claims.eventId
  ticketId : call.ticketId = claims.ticketId
  orderId : call.orderId = claims.orderId
  scannedAt : call.scannedAt = timestamptz claims.scannedAt
  payloadHash : ∃ payload, env.receipts.toVec claims = some payload ∧
    call.payloadHash = env.sha256 payload

/-- What the service builds for the claims reports them. -/
theorem reports_receiptCall {claims : ScanReceiptClaims} {payload : Bytes}
    {signature : FixedBytes 64} {b : Bool} (hpayload : env.receipts.toVec claims = some payload) :
    Reports env claims (receiptCall env claims receivedAt payload signature b) :=
  ⟨rfl, rfl, rfl, rfl, rfl, rfl, rfl, rfl, rfl, payload, hpayload, rfl⟩

/-- What the program is about to record. -/
def recordOf : Prog Stmt Role Outcome Outcome → Option (ℕ × ReceiptCall)
  | .step (.query (.recordReceipt m call)) _ => some (m, call)
  | _ => none

/-- How far a call has got after its own inputs.  If its receipt is `good`, it has ended only
after a failure or after the receipt was recorded, and without refusing it. -/
inductive Recording (env : Deployment SigningKey VerifyingKey) (good : Prop) (n : ℕ)
    (receipt : SignedScanReceipt) (receivedAt : Instant) :
    List (Option String) → Database → Prog Stmt Role Outcome Outcome → Prop
  | reading {db prog} (hprog : prog = (handle env n (.recordReceipt receipt receivedAt)).run) :
      Recording env good n receipt receivedAt [] db prog
  | verified {db key payload k} (signature : FixedBytes 64)
      (hverified : Verified env receipt key db)
      (hpayload : env.receipts.toVec receipt.claims = some payload)
      (herror : ∀ e, k (.error e) = .pure (.error (.database e)))
      (hnone : k (.ok none) = .pure (.error .malformed))
      (hsome : ∀ b, k (.ok (some b)) = .step (.query (.recordReceipt n
        (receiptCall env receipt.claims receivedAt payload signature b)))
          fun r => .pure (recordOutcome r)) :
      Recording env good n receipt receivedAt [none] db (.step (.query (.selectCandidate n
        receipt.claims.tokenId receipt.claims.ticketId receipt.claims.orderId
        receipt.claims.eventId (timestamptz receipt.claims.scannedAt))) k)
  | judged {db key payload signature b} (hverified : Verified env receipt key db)
      (hpayload : env.receipts.toVec receipt.claims = some payload) :
      Recording env good n receipt receivedAt [none, none] db (.step (.query (.recordReceipt n
        (receiptCall env receipt.claims receivedAt payload signature b)))
          fun r => .pure (recordOutcome r))
  | ended {xs db o} (h : good → Harmless o ∧ ((∃ e, some e ∈ xs) ∨ 3 ≤ xs.length)) :
      Recording env good n receipt receivedAt xs db (.pure o)

namespace Recording

variable {good : Prop} {xs : List (Option String)} {prog : Prog Stmt Role Outcome Outcome}

theorem mono (hextends : Extends db db') (h : Recording env good n receipt receivedAt xs db prog) :
    Recording env good n receipt receivedAt xs db' prog := by
  cases h with
  | reading hprog => exact .reading hprog
  | verified signature hverified hpayload herror hnone hsome =>
      exact .verified signature (hverified.mono hextends) hpayload herror hnone hsome
  | judged hverified hpayload => exact .judged (hverified.mono hextends) hpayload
  | ended h => exact .ended h

/-- A statement that fails ends the call. -/
theorem failed (e : String) :
    Recording env good n receipt receivedAt (xs ++ [some e]) db (.pure (.error (.database e))) :=
  .ended fun _ => ⟨harmless_database e,
    Or.inl ⟨e, List.mem_append_right _ (List.mem_singleton_self _)⟩⟩

/-- The receipt is verified under the key that was read. -/
theorem verify {key row : ScannerKeyRow}
    {k : Except String (Option (FixedBytes 32)) → Prog Stmt Role Outcome Outcome}
    (hprog : .step (.query (.selectScannerKey receipt.claims.scannerId
      receipt.claims.scannerKeyId (timestamptz receipt.claims.scannedAt))) k =
        (handle env n (.recordReceipt receipt receivedAt)).run)
    (hready : good → Ready env receipt key db)
    (hkey : db.scannerKey receipt.claims.scannerId receipt.claims.scannerKeyId
      (timestamptz receipt.claims.scannedAt) = some row) :
    Recording env good n receipt receivedAt [none] db (k (.ok (some row.publicKey))) := by
  cases hprog
  show Recording _ _ _ _ _ _ _ ((Tries.result (verifyScanReceipt env.ed env.receipts receipt
    (encodeText row.publicKey.val)) >>= fun _ => _) >>= fun _ => _ : Api Reply).run
  cases hverify : verifyScanReceipt env.ed env.receipts receipt (encodeText row.publicKey.val) with
  | error e =>
      -- a good receipt is not refused: the key that was read is the one it is signed under
      refine .ended fun hgood => ?_
      obtain rfl := Option.some.inj (hkey.symm.trans (hready hgood).scannerKey)
      rw [(hready hgood).verify] at hverify
      cases hverify
  | ok u =>
      obtain ⟨hmem, hid, hkeyId, -⟩ := found hkey
      obtain ⟨payload, signature, hpayload, hsignature⟩ := exists_of_verifyScanReceipt hverify
      refine .verified signature ⟨hmem, hid, hkeyId, hverify⟩ hpayload (fun e => rfl) rfl
        fun b => ?_
      show ((Tries.result (okOr (env.receipts.toVec receipt.claims) .malformed) >>=
        fun payload => Tries.result (decodeBytes 64 receipt.signature) >>=
          fun signature => _) >>= fun _ => _ : Api Reply).run = _
      rw [hpayload, hsignature]
      refine congrArg (Prog.step _) (funext fun r => ?_)
      rcases r with e | ⟨_ | id⟩
      · rfl
      · rfl
      · rfl

/-- The statements of a call, one after the other. -/
theorem step {β : Type} {st : Stmt β} {k : β → Prog Stmt Role Outcome Outcome}
    {x : Option String} {a : β} (key : ScannerKeyRow)
    (h : Recording env good n receipt receivedAt xs db (.step st k))
    (hready : good → Ready env receipt key db)
    (hexec : st.exec env.procedures x db = some (a, db')) :
    Recording env good n receipt receivedAt (xs ++ [x]) db' (k a) := by
  have hextends : Extends db db' := extends_stmt st x a hexec
  cases h with
  | reading hprog =>
      -- the first statement reads the key of the scanner
      have hread := hprog
      cases hprog
      cases x with
      | some e =>
          obtain ⟨rfl, rfl⟩ := Prod.mk.inj (Option.some.inj hexec)
          exact failed e
      | none =>
          obtain ⟨rfl, rfl⟩ := Prod.mk.inj (Option.some.inj hexec)
          cases hkey : db.scannerKey receipt.claims.scannerId receipt.claims.scannerKeyId
            (timestamptz receipt.claims.scannedAt) with
          | none =>
              -- the key of a good receipt is in the table
              refine .ended fun hgood => ?_
              rw [(hready hgood).scannerKey] at hkey
              cases hkey
          | some row => exact verify hread hready hkey
  | @verified _ _ payload k signature hverified hpayload herror hnone hsome =>
      cases x with
      | some e =>
          obtain ⟨rfl, rfl⟩ := Prod.mk.inj (Option.some.inj hexec)
          rw [herror]
          exact failed e
      | none =>
          obtain ⟨rfl, -⟩ := Prod.mk.inj (Option.some.inj hexec)
          cases hread : db.candidateFor receipt.claims with
          | none =>
              show Recording _ _ _ _ _ _ _ (k (.ok (db.candidateFor receipt.claims)))
              rw [hread, hnone]
              refine .ended fun hgood => ?_
              -- the token of a good receipt has a row to join
              obtain ⟨b, hb⟩ := (hready hgood).exists_candidate
              rw [hb] at hread
              cases hread
          | some b =>
              show Recording _ _ _ _ _ _ _ (k (.ok (db.candidateFor receipt.claims)))
              rw [hread, hsome]
              exact .judged (hverified.mono hextends) hpayload
  | judged hverified hpayload =>
      exact .ended fun _ => ⟨harmless_recordOutcome a, Or.inr (by simp)⟩

/-- A call that has ended. -/
theorem of_pure {o : Outcome} (h : Recording env good n receipt receivedAt xs db (.pure o))
    (hgood : good) : Harmless o ∧ ((∃ e, some e ∈ xs) ∨ 3 ≤ xs.length) := by
  cases h with
  | ended h => exact h hgood
  | reading hprog => cases hprog

/-- A call that is about to record a receipt. -/
theorem reports {m : ℕ} {call : ReceiptCall}
    (h : Recording env good n receipt receivedAt xs db prog)
    (hcall : recordOf prog = some (m, call)) :
    Reports env receipt.claims call ∧ ∃ key, Verified env receipt key db := by
  cases h with
  | reading hprog =>
      rw [hprog] at hcall
      cases hcall
  | verified => cases hcall
  | judged hverified hpayload =>
      obtain ⟨-, rfl⟩ := Prod.mk.inj (Option.some.inj hcall)
      exact ⟨reports_receiptCall hpayload, _, hverified⟩
  | ended => cases hcall

/-- Without failures, a call for a good receipt is about to record it after its second
statement. -/
theorem progress (h : Recording env good n receipt receivedAt xs db prog) (hgood : good)
    (hnone : ∀ x ∈ xs, x = none) :
    (xs.length < 2 → ∀ o, prog ≠ .pure o) ∧
      (xs.length = 2 → ∃ call k, Reports env receipt.claims call ∧
        prog = .step (.query (.recordReceipt n call)) k) ∧
      (2 < xs.length → ∃ o, prog = .pure o) := by
  cases h with
  | reading hprog =>
      refine ⟨fun _ o ho => ?_, fun h => absurd h (by decide), fun h => absurd h (by decide)⟩
      rw [hprog] at ho
      cases ho
  | verified =>
      refine ⟨fun _ o ho => ?_, fun h => absurd h (by decide), fun h => absurd h (by decide)⟩
      cases ho
  | judged hverified hpayload =>
      exact ⟨fun h => absurd h (by decide),
        fun _ => ⟨_, _, reports_receiptCall hpayload, rfl⟩, fun h => absurd h (by decide)⟩
  | ended h =>
      have hlong : 3 ≤ xs.length := by
        refine (h hgood).2.resolve_left ?_
        rintro ⟨e, he⟩
        cases hnone _ he
      exact ⟨fun h => absurd h (by omega), fun h => absurd h (by omega), fun _ => ⟨_, rfl⟩⟩

end Recording

/-- What is known of a call of `record_receipt` after its own inputs. -/
theorem followed_recording (good : Prop) (key : ScannerKeyRow) :
    Pool.Followed (admission env) fun xs db prog => (good → Ready env receipt key db) ∧
      Recording env good n receipt receivedAt xs db prog where
  step h hexec := by
    have hextends := extends_stmt _ _ _ hexec
    exact ⟨fun hgood => (h.1 hgood).mono hextends, h.2.step key h.1 hexec⟩
  fork h := by
    obtain ⟨-, h⟩ := h
    cases h with
    | reading hprog => cases hprog
  exec hexec h := by
    have hextends := extends_stmt _ _ _ hexec
    exact ⟨fun hgood => (h.1 hgood).mono hextends, h.2.mono hextends⟩
  enter {r db _ _} h := by
    have hextends : Extends db (db.enter r) := Extends.of_sameTables (sameTables_enter r)
    exact ⟨fun hgood => (h.1 hgood).mono hextends, h.2.mono hextends⟩

/-- A call of `record_receipt` has got somewhere. -/
def Records (env : Deployment SigningKey VerifyingKey) (db : Database) :
    Thread Stmt Role Outcome → Prop
  | ⟨.request n (.recordReceipt receipt receivedAt), prog⟩ =>
      ∃ xs, Recording env False n receipt receivedAt xs db prog
  | _ => True

theorem Records.mono {t : Thread Stmt Role Outcome} (hextends : Extends db db')
    (h : Records env db t) : Records env db' t := by
  obtain ⟨⟨n, q⟩, prog⟩ := t
  cases q with
  | recordReceipt receipt receivedAt =>
      obtain ⟨xs, h⟩ := h
      exact ⟨xs, h.mono hextends⟩
  | _ => trivial

theorem upheld_records :
    Upheld (admission env) fun db t => Records env db t ∧ t.prog.Every fun _ => True := by
  refine Upheld.of_every (fun q db => quiet_handle _ q) (fun {_ r st k x db b db'} h hexec => ?_)
    (fun q db => ?_) (fun hexec h => h.mono (extends_stmt _ _ _ hexec))
    (fun h => h.mono (Extends.of_sameTables (sameTables_enter _)))
  · obtain ⟨n, q⟩ := r
    cases q with
    | recordReceipt receipt receivedAt =>
        obtain ⟨xs, h⟩ := h
        have noKey : ScannerKeyRow := ⟨0, "", ⟨List.replicate 32 0, rfl⟩, 0, 0⟩
        exact ⟨xs ++ [x], h.step noKey False.elim hexec⟩
    | _ => trivial
  · cases q with
    | recordReceipt receipt receivedAt => exact ⟨[], .reading rfl⟩
    | _ => trivial

/-! ## Registered scanners -/

/-- The row of a registered scanner key. -/
theorem scannerRow_of_asked {signer : ScannerReceiptSigner SigningKey}
    {activeFrom retireAt : Instant} {b : Binding}
    (h : (Request.registerScannerKey signer.scannerId signer.keyId (signer.publicKey env.ed)
      activeFrom retireAt).asked env = some b) :
    b = .scannerKey
      { scannerId := signer.scannerId, keyId := signer.keyId
        publicKey := env.ed.asBytes (env.ed.verifyingKey signer.signingKey)
        activeFrom := timestamptz activeFrom, retireAt := timestamptz retireAt } := by
  rw [Request.asked, ScannerReceiptSigner.publicKey, decodeBytes_encodeText] at h
  cases hwindow : refuseIf (trimIsEmpty signer.keyId ∨ retireAt ≤ activeFrom)
    (AdmissionError.policy "invalid scanner verification key window") with
  | error e =>
      rw [hwindow] at h
      cases h
  | ok u =>
      rw [hwindow] at h
      exact (Option.some.inj h).symm

/-- A receipt that was signed by a registered scanner is ready to be recorded. -/
theorem ready_of_sign {signed : SigningKey → Bytes → Prop}
    {signer : ScannerReceiptSigner SigningKey} {activeFrom retireAt : Instant}
    (hideal : env.ed.Ideal signed)
    (hbound : ∃ b, (Request.registerScannerKey signer.scannerId signer.keyId
      (signer.publicKey env.ed) activeFrom retireAt).asked env = some b ∧
        db.binding (.scannerKey signer.scannerId signer.keyId) = some b)
    (hsign : signer.sign env.ed env.receipts receipt.claims = .ok receipt)
    (hsigned : ∀ m, env.receipts.toVec receipt.claims = some m → signed signer.signingKey m)
    (hfrom : activeFrom ≤ receipt.claims.scannedAt) (hto : receipt.claims.scannedAt < retireAt)
    (hscanned : (1000 : ℤ) ∣ receipt.claims.scannedAt) (hretire : (1000 : ℤ) ∣ retireAt)
    (hcandidate : ∃ t e, db.token receipt.claims.tokenId = some t ∧
      db.entitlement t.ticketId = some e) : ∃ key, Ready env receipt key db := by
  obtain ⟨b, hasked, hb⟩ := hbound
  obtain rfl := scannerRow_of_asked hasked
  obtain ⟨hshape, ⟨hscanner, hkey⟩, payload, hpayload, hreceipt⟩ :=
    ScannerReceiptSigner.sign_eq_ok_iff.mp hsign
  -- the row that the registration has bound
  refine ⟨⟨signer.scannerId, signer.keyId, env.ed.asBytes (env.ed.verifyingKey signer.signingKey),
    timestamptz activeFrom, timestamptz retireAt⟩, ?_,
    ⟨timestamptz_mono hfrom, timestamptz_lt hscanned hretire hto⟩, ?_, hcandidate⟩
  · rw [hscanner, hkey]
    exact hb
  · refine verifyScanReceipt_eq_ok_iff.mpr ⟨hshape, _, hideal.fromBytes_asBytes _,
      env.ed.sign signer.signingKey payload, ?_, payload, hpayload, ?_⟩
    · rw [hreceipt]
      exact decodeBytes_encodeText _
    · exact (hideal.verify_iff _ _ _).mpr ⟨_, rfl, hsigned payload hpayload, rfl⟩

/-! ## The theorem -/

section

variable {p p₁ p' : Pool Stmt Role Outcome Database} {signed : SigningKey → Bytes → Prop}
  {signs : ScannerReceiptSigner SigningKey → ScanReceiptClaims → Prop} {layout : ReceiptLayout}

/-- A call of `record_receipt` that arrives now never refuses the receipt, whatever the others
do; and if none of its statements fails, it is about to record the receipt after its second
one. -/
def ReachesRecord (env : Deployment SigningKey VerifyingKey)
    (p : Pool Stmt Role Outcome Database) (receipt : SignedScanReceipt) (receivedAt : Instant) :
    Prop :=
  ∀ p₁ ls p', p.act (admission env) (.arrive (.recordReceipt receipt receivedAt)) = some p₁ →
    p₁.run (admission env) ls = some p' →
    ∃ prog, p'.threads[p.threads.length]? =
        some ⟨.request p.shared.requests.length (.recordReceipt receipt receivedAt), prog⟩ ∧
      (∀ o, prog = .pure o → Harmless o) ∧
      ∀ xs, xs = ls.filterMap (Label.inputTo p.threads.length) → (∀ x ∈ xs, x = none) →
        (xs.length < 2 → ∀ o, prog ≠ .pure o) ∧
        (xs.length = 2 → ∃ call k, Reports env receipt.claims call ∧
          prog = .step (.query (.recordReceipt p.shared.requests.length call)) k) ∧
        (2 < xs.length → ∃ o, prog = .pure o)

/-- One of the holders of the key that is stored for the scanner has signed exactly these
claims, if the holders sign nothing but receipts. -/
def SignedByScanner (env : Deployment SigningKey VerifyingKey)
    (signed : SigningKey → Bytes → Prop)
    (signs : ScannerReceiptSigner SigningKey → ScanReceiptClaims → Prop)
    (claims : ScanReceiptClaims) (db : Database) : Prop :=
  ∃ key ∈ db.scannerKeys, ∃ vk, key.scannerId = claims.scannerId ∧
    key.keyId = claims.scannerKeyId ∧ env.ed.fromBytes key.publicKey = some vk ∧
    (SignsReceipts env signed signs vk → ∃ signer, signs signer claims ∧
      env.ed.verifyingKey signer.signingKey = vk ∧ signer.scannerId = claims.scannerId ∧
        signer.keyId = claims.scannerKeyId)

/-- A call whose receipt is ready reaches the record. -/
theorem reachesRecord_of_ready {key : ScannerKeyRow} (hready : Ready env receipt key p.shared) :
    ReachesRecord env p receipt receivedAt := by
  intro p₁ ls p' hact hrun
  have ht := Pool.getElem?_of_arrive hact
  have hready₁ : Ready env receipt key p₁.shared := by
    obtain rfl := Option.some.inj hact
    exact hready.mono (Extends.of_sameTables (sameTables_enter _))
  obtain ⟨prog, ht', -, hrecording⟩ := (followed_recording True key).run ht
    ⟨fun _ => hready₁, .reading rfl⟩ hrun
  refine ⟨prog, ht', ?_, ?_⟩
  · rintro o rfl
    exact (hrecording.of_pure trivial).1
  · rintro xs rfl hnone
    exact hrecording.progress trivial hnone

/-- What is about to be recorded was signed. -/
theorem signed_of_verified {key : ScannerKeyRow} (hideal : env.ed.Ideal signed)
    (hjson : ∀ c, env.receipts.toVec c = some (layout.toVec c))
    (hverified : Verified env receipt key db) :
    SignedByScanner env signed signs receipt.claims db := by
  obtain ⟨-, vk, hvk, signature, -, payload, hpayload, hverify⟩ :=
    verifyScanReceipt_eq_ok_iff.mp hverified.verify
  refine ⟨key, hverified.mem, vk, hverified.scannerId, hverified.keyId, hvk, fun honly => ?_⟩
  obtain ⟨sk, hsk, hsigned, -⟩ := (hideal.verify_iff _ _ _).mp hverify
  obtain ⟨signer, claims, hsigns, rfl, htext, other, hsign⟩ := honly sk payload hsk hsigned
  -- the payload is the text of one receipt only
  have hsame : claims = receipt.claims := by
    refine layout.toVec_injective (Option.some.inj ?_)
    rw [← hjson, ← hjson, htext, hpayload]
  subst hsame
  obtain ⟨-, ⟨hscanner, hkey⟩, -⟩ := ScannerReceiptSigner.sign_eq_ok_iff.mp hsign
  exact ⟨signer, hsigns, hsk, hscanner.symm, hkey.symm⟩

/-- Receipts are authentic from end to end.  The signature scheme is ideal, `signs` are the
claims that scanners have signed, and the claims are written as JSON in some layout.  After
any run:

* a receipt that was signed by a scanner whose key is registered and scanned in the window
  of the key, and whose token is registered with an entitlement, reaches the record;
* a call that is about to record a receipt passes the nine fields of its claims and hashes
  their bytes, and these claims were signed for the scanner under the key that is stored for it;
* the bytes that are signed determine all fields of the claims. -/
theorem receipts_authentic (hideal : env.ed.Ideal signed)
    (hsigns : ∀ signer c m, signs signer c → env.receipts.toVec c = some m →
      signed signer.signingKey m)
    (hjson : ∀ c, env.receipts.toVec c = some (layout.toVec c))
    (hreach : Pool.Reaches (admission env) ⟨db₀, []⟩ p) :
    (∀ (signer : ScannerReceiptSigner SigningKey) (i m : ℕ) (activeFrom retireAt : Instant)
        (reply : Reply) (receipt : SignedScanReceipt) (receivedAt : Instant),
      p.threads[i]? = some ⟨.request m (.registerScannerKey signer.scannerId signer.keyId
        (signer.publicKey env.ed) activeFrom retireAt), .pure (.ok reply)⟩ →
      signs signer receipt.claims →
      signer.sign env.ed env.receipts receipt.claims = .ok receipt →
      activeFrom ≤ receipt.claims.scannedAt → receipt.claims.scannedAt < retireAt →
      (1000 : ℤ) ∣ receipt.claims.scannedAt → (1000 : ℤ) ∣ retireAt →
      (∃ t e, p.shared.token receipt.claims.tokenId = some t ∧
        p.shared.entitlement t.ticketId = some e) →
      ReachesRecord env p receipt receivedAt) ∧
    (∀ (i n m : ℕ) (receipt : SignedScanReceipt) (receivedAt : Instant) (call : ReceiptCall)
        (k : Except String (Option Uuid) → Prog Stmt Role Outcome Outcome),
      p.threads[i]? = some ⟨.request n (.recordReceipt receipt receivedAt),
        .step (.query (.recordReceipt m call)) k⟩ →
      Reports env receipt.claims call ∧
        SignedByScanner env signed signs receipt.claims p.shared) ∧
    Function.Injective layout.toVec := by
  refine ⟨?_, ?_, layout.toVec_injective⟩
  · intro signer i m activeFrom retireAt reply receipt receivedAt hreg hsigned hsign hfrom hto
      hscanned hretire hcandidate
    -- the registration has ended, so its row is bound
    have hbound : ∃ b, (Request.registerScannerKey signer.scannerId signer.keyId
        (signer.publicKey env.ed) activeFrom retireAt).asked env = some b ∧
          p.shared.binding (.scannerKey signer.scannerId signer.keyId) = some b :=
      bound_of_ended hreach hreg rfl
    obtain ⟨key, hready⟩ := ready_of_sign hideal hbound hsign
      (fun m hm => hsigns signer receipt.claims m hsigned hm) hfrom hto hscanned hretire hcandidate
    exact reachesRecord_of_ready hready
  · intro i n m receipt receivedAt call k ht
    obtain ⟨xs, hrecording⟩ := (upheld_records.of_reaches hreach ht).1
    obtain ⟨hreports, key, hverified⟩ := hrecording.reports (m := m) rfl
    exact ⟨hreports, signed_of_verified hideal hjson hverified⟩

end

/-! ## A run of the service -/

namespace Sample

/-- A text for every instant, which is the one of RFC 3339 for the instant of the scan. -/
def instantText (t : Instant) : String :=
  if t = 2000 then "1970-01-01T00:00:00.000002Z" else String.ofList (Json.integerText t)

theorem instantText_injective : Function.Injective instantText := by
  have hother : ∀ t : Instant,
      "1970-01-01T00:00:00.000002Z" ≠ String.ofList (Json.integerText t) := by
    intro t h
    have hmem : 'T' ∈ Json.integerText t := by
      rw [← String.toList_ofList (l := Json.integerText t), ← h]
      decide
    exact absurd (Json.isNumeral_of_mem hmem) (by decide)
  intro t t' h
  unfold instantText at h
  split_ifs at h with ht ht' ht'
  · rw [ht, ht']
  · exact absurd h (hother t')
  · exact absurd h.symm (hother t)
  · exact Json.integerText_injective (String.ofList_injective h)

/-- The claims of a receipt in the order of their declaration. -/
def receiptLayout : ReceiptLayout where
  fields := [("receipt_id", .receiptId), ("scanner_id", .scannerId),
    ("scanner_key_id", .scannerKeyId), ("scanner_sequence", .scannerSequence),
    ("token_id", .tokenId), ("event_id", .eventId), ("ticket_id", .ticketId),
    ("order_id", .orderId), ("scanned_at", .scannedAt)]
  instantText := instantText
  complete f := by cases f <;> simp
  instantText_injective := instantText_injective

/-- The scheme of a single scanner that has signed the scan of the ticket only. -/
def scannerScheme : Ed25519 Unit Unit :=
  { openScheme with
    verify := fun _ m s =>
      m = receiptLayout.toVec (scan 2000).claims ∧ s.val = List.replicate 64 2 }

/-- The deployment with receipts in JSON. -/
def scannerDeployment : Deployment Unit Unit :=
  { deployment with
    ed := scannerScheme
    receipts := { claimsShape := fun _ => .ok (), toVec := fun c => some (receiptLayout.toVec c) } }

/-- What the scanner has signed. -/
def scannerSigned (_ : Unit) (m : Bytes) : Prop := m = receiptLayout.toVec (scan 2000).claims

theorem scannerScheme_ideal : scannerScheme.Ideal scannerSigned where
  fromBytes_asBytes _ := rfl
  verify_iff vk m s := by
    constructor
    · intro h
      obtain ⟨hm, hs⟩ := of_decide_eq_true h
      exact ⟨(), rfl, hm, Subtype.ext hs⟩
    · rintro ⟨sk, -, hm, rfl⟩
      exact decide_eq_true ⟨hm, rfl⟩

/-- The scanner. -/
def scanner : ScannerReceiptSigner Unit := ⟨4, "s", ()⟩

end Sample

/-- The scan of the sample ticket reaches the record. -/
theorem receipts_authentic_sample :
    ∃ p, Pool.run (admission Sample.scannerDeployment) ⟨Sample.noRows, []⟩ Sample.registered =
        some p ∧ ReachesRecord Sample.scannerDeployment p (Sample.scan 2000) 9500 := by
  have hview : (Pool.run (admission Sample.scannerDeployment) ⟨Sample.noRows, []⟩
      Sample.registered).map (fun p => (Sample.outcome p 4, (p.shared.token 5).map (·.ticketId),
        (p.shared.entitlement 8).isSome)) =
      some (some (.request 4 (.registerScannerKey 4 "s" (encodeText (List.replicate 32 1)) 0 90000),
        .ok .done), some 8, true) := by
    decide +kernel
  obtain ⟨p, hp, hview⟩ := Option.map_eq_some_iff.mp hview
  obtain ⟨houtcome, hrest⟩ := Prod.mk.inj hview
  obtain ⟨htoken, hentitlement⟩ := Prod.mk.inj hrest
  obtain ⟨t, ht, hticket⟩ := Option.map_eq_some_iff.mp htoken
  obtain ⟨e, he⟩ := Option.isSome_iff_exists.mp hentitlement
  let signs (signer : ScannerReceiptSigner Unit) (c : ScanReceiptClaims) : Prop :=
    signer = Sample.scanner ∧ c = (Sample.scan 2000).claims
  have hideal : Sample.scannerDeployment.ed.Ideal Sample.scannerSigned :=
    Sample.scannerScheme_ideal
  have hsigns : ∀ signer c m, signs signer c →
      Sample.scannerDeployment.receipts.toVec c = some m →
      Sample.scannerSigned signer.signingKey m := by
    rintro _ c m ⟨-, rfl⟩ hm
    exact (Option.some.inj hm).symm
  have hjson : ∀ c, Sample.scannerDeployment.receipts.toVec c =
      some (Sample.receiptLayout.toVec c) :=
    fun _ => rfl
  have hauthentic := receipts_authentic hideal hsigns hjson ⟨_, hp⟩
  refine ⟨p, hp, hauthentic.1 Sample.scanner 4 4 0 90000 .done (Sample.scan 2000) 9500
    (Sample.of_outcome houtcome) ⟨rfl, rfl⟩ ?_ (by decide) (by decide) (by decide) (by decide)
    ⟨t, e, ht, hticket ▸ he⟩⟩
  exact ScannerReceiptSigner.sign_eq_ok_iff.mpr ⟨rfl, ⟨rfl, rfl⟩, _, rfl, rfl⟩

end Admission
