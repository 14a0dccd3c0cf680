/-
# The classification of receipts

A receipt of a registered and unrevoked token is classified by the token's window in
whole microseconds: `classified_by_window` says for which instants this is the window
that the scanner applies.

The verdict and its use are two statements.  In every run in which no ticket is revoked
between the two, a receipt is handed over as 'candidate' only while its entitlement is
active (`candidate_is_current`).
-/
import EvglApi.AdmissionKeeps
import EvglApi.TokenRoundTrip

open Concurrency Fallible Tries

namespace Admission

variable {SigningKey VerifyingKey : Type} {env : Deployment SigningKey VerifyingKey}
  {db db₀ earlier : Database} {claims : ScanReceiptClaims} {receipt : SignedScanReceipt}
  {c : AdmissionTokenClaims} {b : Bool}

/-! ## The verdict on a registered token -/

/-- The receipt is about the token. -/
structure Carries (claims : ScanReceiptClaims) (c : AdmissionTokenClaims) : Prop where
  tokenId : claims.tokenId = c.tokenId
  ticketId : claims.ticketId = c.ticketId
  orderId : claims.orderId = c.orderId
  eventId : claims.eventId = c.eventId

/-- Neither the token nor its entitlement is revoked, and the entitlement has the epoch
of the token. -/
def Unrevoked (c : AdmissionTokenClaims) (db : Database) : Prop :=
  (∃ t, db.token c.tokenId = some t ∧ t.revokedAt = none) ∧
    ∃ e, db.entitlement c.ticketId = some e ∧ e.status = "active" ∧
      e.issuanceEpoch = c.issuanceEpoch

/-- A verdict that was read from an earlier database is the window in microseconds. -/
theorem verdict_eq (hlawful : env.procedures.Lawful) (hreg : Registered c db)
    (hlive : Unrevoked c db) (hids : Carries claims c)
    (hevolves : Evolves env.procedures earlier db) (hread : earlier.candidateFor claims = some b) :
    b = true ↔ timestamptz c.issuedAt ≤ timestamptz claims.scannedAt ∧
      timestamptz claims.scannedAt < timestamptz c.expiresAt := by
  obtain ⟨t, e, ht, he, rfl⟩ := candidate_eq_some_iff.mp hread
  obtain ⟨t₀, ht₀, hcolumns⟩ := hreg
  obtain ⟨⟨t₁, ht₁, hunrevoked⟩, e₁, he₁, hactive, hepoch⟩ := hlive
  obtain ⟨t', ht', hfixed, hrevoked⟩ := hevolves.token _ t ht
  obtain ⟨e', he', hfixed', hstatus⟩ := hevolves.entitlement _ e he
  -- the rows that were read are those of the registered token, in an earlier state
  rw [hids.tokenId] at ht'
  obtain rfl := Option.some.inj (ht₀.symm.trans ht₁)
  obtain rfl := Option.some.inj (ht'.symm.trans ht₀)
  have ht₂ : t.toTokenFixed = c.columns := hfixed.symm.trans hcolumns
  have hticket : t.ticketId = c.ticketId := congrArg TokenFixed.ticketId ht₂
  rw [hticket] at he'
  obtain rfl := Option.some.inj (he'.symm.trans he₁)
  -- a revocation is permanent, so there was none when the verdict was read
  have hnotRevoked : t.revokedAt = none := by
    by_contra hne
    exact hrevoked hlawful hne hunrevoked
  have hnotInactive : e.status = "active" := by
    by_contra hne
    exact hstatus hlawful hne hactive
  have hsame : e.issuanceEpoch = t.issuanceEpoch := by
    have hepoch' : e'.issuanceEpoch = e.issuanceEpoch := congrArg (·.issuanceEpoch) hfixed'
    rw [← hepoch', hepoch]
    exact (congrArg TokenFixed.issuanceEpoch ht₂).symm
  have horder : t.orderId = c.orderId := congrArg TokenFixed.orderId ht₂
  have hevent : t.eventId = c.eventId := congrArg TokenFixed.eventId ht₂
  have hissued : t.issuedAt = timestamptz c.issuedAt := congrArg TokenFixed.issuedAt ht₂
  have hexpires : t.expiresAt = timestamptz c.expiresAt := congrArg TokenFixed.expiresAt ht₂
  unfold Database.isCandidate
  rw [decide_eq_true_iff, hticket, horder, hevent, hissued, hexpires, hids.ticketId, hids.orderId,
    hids.eventId]
  constructor
  · rintro ⟨-, -, -, -, hfrom, hto, -⟩
    exact ⟨hfrom, hto⟩
  · rintro ⟨hfrom, hto⟩
    exact ⟨rfl, rfl, rfl, hnotRevoked, hfrom, hto, hnotInactive, hsame⟩

/-- A registered and unrevoked token has a verdict. -/
theorem exists_verdict (hreg : Registered c db) (hlive : Unrevoked c db) (hids : Carries claims c) :
    ∃ b, db.candidateFor claims = some b := by
  obtain ⟨t, ht, hcolumns⟩ := hreg
  obtain ⟨-, e, he, -⟩ := hlive
  have hticket : t.ticketId = c.ticketId := congrArg TokenFixed.ticketId hcolumns
  rw [← hids.tokenId] at ht
  rw [← hticket] at he
  exact ⟨_, candidate_eq_some_iff.mpr ⟨t, e, ht, he, rfl⟩⟩

/-! ## The window in microseconds -/

/-- The receipt is classified as 'candidate' exactly if it was scanned in the window of
the token. -/
def Agrees (c : AdmissionTokenClaims) (scannedAt : Instant) (call : ReceiptCall) : Prop :=
  call.classification = "candidate" ↔ c.issuedAt ≤ scannedAt ∧ scannedAt < c.expiresAt

/-- The instant is told apart from the ends of the window when all three are bound: it is not
before the issue and bound as the same microsecond (if that is before the one of the expiry),
nor inside the window and bound as the microsecond of the expiry. -/
def ToldApart (c : AdmissionTokenClaims) (scannedAt : Instant) : Prop :=
  ¬ (scannedAt < c.issuedAt ∧ timestamptz scannedAt = timestamptz c.issuedAt ∧
      timestamptz scannedAt < timestamptz c.expiresAt) ∧
    ¬ (c.issuedAt ≤ scannedAt ∧ scannedAt < c.expiresAt ∧
      timestamptz scannedAt = timestamptz c.expiresAt)

theorem classification_receiptCall {receivedAt : Instant} {payload : Bytes}
    {signature : FixedBytes 64} :
    (receiptCall env claims receivedAt payload signature b).classification = "candidate" ↔
      b = true := by
  cases b with
  | true => exact iff_of_true rfl rfl
  | false =>
      exact iff_of_false (show ¬ "rejected" = "candidate" by decide) Bool.false_ne_true

/-- The two windows agree at the instants that are told apart from the ends. -/
theorem agrees_iff {s : Instant} {call : ReceiptCall}
    (h : call.classification = "candidate" ↔
      timestamptz c.issuedAt ≤ timestamptz s ∧ timestamptz s < timestamptz c.expiresAt) :
    Agrees c s call ↔ ToldApart c s := by
  unfold Agrees ToldApart
  rw [h]
  -- binding is monotone, so the windows differ at their ends only
  have hafter : c.issuedAt ≤ s → timestamptz c.issuedAt ≤ timestamptz s := timestamptz_mono
  have hbefore : s ≤ c.issuedAt → timestamptz s ≤ timestamptz c.issuedAt := timestamptz_mono
  have hlate : c.expiresAt ≤ s → timestamptz c.expiresAt ≤ timestamptz s := timestamptz_mono
  have hearly : s ≤ c.expiresAt → timestamptz s ≤ timestamptz c.expiresAt := timestamptz_mono
  constructor
  · intro hiff
    refine ⟨?_, ?_⟩
    · rintro ⟨hlt, heq, hto⟩
      have hin := hiff.mp ⟨heq.ge, hto⟩
      exact absurd hin.1 (not_le.mpr hlt)
    · rintro ⟨hfrom, hto, heq⟩
      have hin := hiff.mpr ⟨hfrom, hto⟩
      exact absurd heq hin.2.ne
  · rintro ⟨hstart, hend⟩
    constructor
    · rintro ⟨hfrom, hto⟩
      refine ⟨?_, ?_⟩
      · by_contra hlt
        rw [not_le] at hlt
        exact hstart ⟨hlt, le_antisymm (hbefore hlt.le) hfrom, hto⟩
      · by_contra hle
        exact absurd (hlate (not_lt.mp hle)) (not_le.mpr hto)
    · rintro ⟨hfrom, hto⟩
      refine ⟨hafter hfrom, lt_of_le_of_ne (hearly hto.le) ?_⟩
      exact fun heq => hend ⟨hfrom, hto, heq⟩

/-! ## The calls that record a receipt -/

/-- A receipt that verifies has a payload and a signature. -/
theorem exists_of_verifyScanReceipt {ed : Ed25519 SigningKey VerifyingKey} {fmt : ReceiptFormat}
    {publicKey : String} (h : verifyScanReceipt ed fmt receipt publicKey = .ok ()) :
    ∃ payload signature, fmt.toVec receipt.claims = some payload ∧
      decodeBytes 64 receipt.signature = .ok signature := by
  simp only [verifyScanReceipt, bind_eq_ok, okOr_eq_ok] at h
  obtain ⟨-, -, -, -, signature, hsignature, payload, hpayload, -⟩ := h
  exact ⟨payload, signature, hpayload, hsignature⟩

/-- The call for a validly signed receipt records it with its verdict, if the database
does not fail and nobody else is at work. -/
theorem runAlone_recordReceipt (n : ℕ) (receivedAt : Instant) {key : ScannerKeyRow}
    (hkey : db.scannerKey receipt.claims.scannerId receipt.claims.scannerKeyId
      (timestamptz receipt.claims.scannedAt) = some key)
    (hverify : verifyScanReceipt env.ed env.receipts receipt (encodeText key.publicKey.val) = .ok ())
    (hread : db.candidateFor receipt.claims = some b) :
    ∃ payload signature outcome db',
      (handle env n (.recordReceipt receipt receivedAt)).run.runAlone (admission env)
        [none, none, none] db = some (outcome, db') ∧
      db'.receipts =
        db.receipts ++ [receiptCall env receipt.claims receivedAt payload signature b] := by
  obtain ⟨payload, signature, hpayload, hsignature⟩ := exists_of_verifyScanReceipt hverify
  -- the three statements of the call
  have hselect : (admission env).exec (.query (.selectScannerKey receipt.claims.scannerId
      receipt.claims.scannerKeyId (timestamptz receipt.claims.scannedAt))) none db =
        some (.ok (some key.publicKey), db) := by
    show some (Except.ok (Option.map _ (db.scannerKey ..)), db) = _
    rw [hkey]
    rfl
  obtain ⟨db₁, hcandidate, hreceipts⟩ : ∃ db₁, (admission env).exec (.query (.selectCandidate n
      receipt.claims.tokenId receipt.claims.ticketId receipt.claims.orderId receipt.claims.eventId
      (timestamptz receipt.claims.scannedAt))) none db = some (.ok (some b), db₁) ∧
        db₁.receipts = db.receipts := by
    refine ⟨_, congrArg (fun answer => some (Except.ok answer, _)) hread, ?_⟩
    split
    · rfl
    · rfl
  let call := receiptCall env receipt.claims receivedAt payload signature b
  have hrecord : (admission env).exec (.query (.recordReceipt n call)) none db₁ =
      some (env.procedures.record call db₁,
        { db₁.settle n with receipts := db₁.receipts ++ [call] }) := rfl
  -- the call is run from statement to statement
  unfold handle recordReceipt queryOne
  dsimp only
  rw [bind_assoc, runAlone_attempt hselect]
  dsimp only [Except.mapError]
  rw [result_ok_bind]
  dsimp only
  rw [hverify, result_ok_bind, bind_assoc, runAlone_attempt hcandidate]
  dsimp only [Except.mapError]
  rw [result_ok_bind]
  dsimp only
  rw [hpayload, hsignature]
  dsimp only [okOr]
  rw [result_ok_bind, result_ok_bind, bind_assoc, runAlone_attempt hrecord]
  rw [← hreceipts]
  cases env.procedures.record call db₁ with
  | error e => exact ⟨payload, signature, _, _, rfl, rfl⟩
  | ok row =>
      cases row with
      | none => exact ⟨payload, signature, _, _, rfl, rfl⟩
      | some id => exact ⟨payload, signature, _, _, rfl, rfl⟩

/-- A call that is about to record a receipt of a registered and unrevoked token. -/
theorem agrees_iff_of_judged {calm : Prop} {receivedAt : Instant} {call : ReceiptCall}
    (hlawful : env.procedures.Lawful) (hreg : Registered c db) (hlive : Unrevoked c db)
    (hids : Carries receipt.claims c) (h : Judged env calm receipt receivedAt call db) :
    Agrees c receipt.claims.scannedAt call ↔ ToldApart c receipt.claims.scannedAt := by
  obtain ⟨earlier, payload, signature, b, rfl, hread, hevolves, -⟩ := h
  have hverdict := verdict_eq hlawful hreg hlive hids hevolves hread
  exact agrees_iff (classification_receiptCall.trans hverdict)

/-- The call `call` is about to be executed for a receipt. -/
def Hands (p : Pool Stmt Role Outcome Database) (receipt : SignedScanReceipt) (call : ReceiptCall) :
    Prop :=
  ∃ (i n m : ℕ) (receivedAt : Instant)
      (k : Except String (Option Uuid) → Prog Stmt Role Outcome Outcome),
    p.threads[i]? = some ⟨.request n (.recordReceipt receipt receivedAt),
      .step (.query (.recordReceipt m call)) k⟩

namespace Sample

/-- A ticket that is admitted from 1500 ns to 9000 ns. -/
def ticket : AdmissionTokenClaims := { Sample.claims with issuedAt := 1500, expiresAt := 9000 }

/-- The receipt of a scan of the ticket. -/
def scan (scannedAt : Instant) : SignedScanReceipt where
  claims :=
    { receiptId := 3, scannerId := 4, scannerKeyId := "s", scannerSequence := 1, tokenId := 5
      eventId := 7, ticketId := 8, orderId := 9, scannedAt }
  signature := encodeText (List.replicate 64 2)

/-- Functions of the database that revoke a ticket and record every receipt. -/
def procedures : Procedures where
  revoke _ revokedAt _ :=
    { answer := .ok (some 1)
      entitlement := fun _ => ⟨"revoked", revokedAt⟩
      token := fun t => some (t.revokedAt.getD revokedAt) }
  record call _ := .ok (some call.receiptId)

theorem procedures_lawful : procedures.Lawful where
  status _ _ _ _ := show ¬ "revoked" = "active" by decide
  token _ _ _ _ _ := Option.some_ne_none _

def deployment : Deployment Unit Unit where
  ed := openScheme
  tokens := format
  receipts := { claimsShape := fun _ => .ok (), toVec := fun _ => some payload }
  sha256 _ := List.replicate 32 0
  procedures := procedures

/-- A database without rows. -/
def noRows : Database := ⟨[], [], [], [], [], [], [], []⟩

/-- The registration of the ticket and of its keys. -/
def registered : List (Label (Option String) Request) :=
  [.arrive (.placeOrder ⟨9, 7, "paid"⟩), .turn 0 none,
   .arrive (.registerEntitlement 8 9 7 1 0), .turn 1 none,
   .arrive (.registerSigningKey { signer.descriptor with retireAt := 90000 }), .turn 2 none,
   .arrive (.registerToken ticket), .turn 3 none,
   .arrive (.registerScannerKey 4 "s" (encodeText (List.replicate 32 1)) 0 90000), .turn 4 none]

/-- A scan of the ticket that is about to be recorded. -/
def scanned (scannedAt : Instant) : List (Label (Option String) Request) :=
  registered ++ [.arrive (.recordReceipt (scan scannedAt) 9500), .turn 5 none, .turn 5 none]

/-- A revocation that commits before the scan is recorded. -/
def revoked (ticketId : Uuid) : List (Label (Option String) Request) :=
  scanned 2000 ++ [.arrive (.revokeEntitlement ticketId 3000), .turn 6 none]

/-- The outcome of the thread at a position. -/
def outcome (p : Pool Stmt Role Outcome Database) (i : ℕ) : Option (Role × Outcome) :=
  p.threads[i]?.bind fun t =>
    match t with
    | ⟨r, .pure a⟩ => some (r, a)
    | _ => none

/-- The receipt that the thread at a position is about to record. -/
def handed (p : Pool Stmt Role Outcome Database) (i : ℕ) : Option (Role × ReceiptCall) :=
  p.threads[i]?.bind fun t =>
    match t with
    | ⟨r, .step (.query (.recordReceipt _ call)) _⟩ => some (r, call)
    | _ => none

theorem of_outcome {p : Pool Stmt Role Outcome Database} {i : ℕ} {r : Role} {a : Outcome}
    (h : outcome p i = some (r, a)) : p.threads[i]? = some ⟨r, .pure a⟩ := by
  obtain ⟨⟨r', prog⟩, ht, hsome⟩ := Option.bind_eq_some_iff.mp h
  cases prog with
  | pure a' =>
      obtain ⟨rfl, rfl⟩ := Prod.mk.inj (Option.some.inj hsome)
      exact ht
  | step st k => cases hsome
  | fork r₀ child k => cases hsome

theorem of_handed {p : Pool Stmt Role Outcome Database} {i : ℕ} {r : Role} {call : ReceiptCall}
    (h : handed p i = some (r, call)) :
    ∃ m k, p.threads[i]? = some ⟨r, .step (.query (.recordReceipt m call)) k⟩ := by
  obtain ⟨⟨r', prog⟩, ht, hsome⟩ := Option.bind_eq_some_iff.mp h
  cases prog with
  | pure a => cases hsome
  | fork r₀ child k => cases hsome
  | step st k =>
      obtain ⟨q⟩ := st
      cases q with
      | recordReceipt m call' =>
          obtain ⟨rfl, rfl⟩ := Prod.mk.inj (Option.some.inj hsome)
          exact ⟨m, k, ht⟩
      | _ => cases hsome

/-- What the theorems below need of a pool. -/
structure View where
  registration : Option (Role × Outcome)
  recording : Option (Role × ReceiptCall)
  revokedAt : Option (Option Timestamp)
  entitlement : Option (String × ℤ)
  deriving DecidableEq

def view (p : Pool Stmt Role Outcome Database) : View where
  registration := outcome p 3
  recording := handed p 5
  revokedAt := (p.shared.token 5).map (·.revokedAt)
  entitlement := (p.shared.entitlement 8).map fun e => (e.status, e.issuanceEpoch)

/-- The classification of the scan as 'candidate'. -/
def candidateCall (scannedAt : Instant) : ReceiptCall :=
  receiptCall deployment (scan scannedAt).claims 9500 payload (scheme.sign () payload) true

/-- The pool in which the scan is about to be recorded as 'candidate', with an entitlement of
the given status. -/
def viewOf (scannedAt : Instant) (revokedAt : Option Timestamp) (status : String) : View where
  registration := some (.request 3 (.registerToken ticket), .ok .done)
  recording := some (.request 5 (.recordReceipt (scan scannedAt) 9500), candidateCall scannedAt)
  revokedAt := some revokedAt
  entitlement := some (status, 1)

theorem exists_of_view {ls : List (Label (Option String) Request)} {scannedAt : Instant}
    {revokedAt : Option Timestamp} {status : String}
    (h : (Pool.run (admission deployment) ⟨noRows, []⟩ ls).map view =
      some (viewOf scannedAt revokedAt status)) :
    ∃ p m k t e, Pool.run (admission deployment) ⟨noRows, []⟩ ls = some p ∧
      p.threads[3]? = some ⟨.request 3 (.registerToken ticket), .pure (.ok .done)⟩ ∧
      p.threads[5]? = some ⟨.request 5 (.recordReceipt (scan scannedAt) 9500),
        .step (.query (.recordReceipt m (candidateCall scannedAt))) k⟩ ∧
      (p.shared.token 5 = some t ∧ t.revokedAt = revokedAt) ∧
        p.shared.entitlement 8 = some e ∧ e.status = status ∧ e.issuanceEpoch = 1 := by
  obtain ⟨p, hp, hview⟩ := Option.map_eq_some_iff.mp h
  obtain ⟨houtcome, hhanded, htoken, hentitlement⟩ := View.mk.inj hview
  obtain ⟨m, k, hk⟩ := of_handed hhanded
  obtain ⟨t, ht, hrevoked⟩ := Option.map_eq_some_iff.mp htoken
  obtain ⟨e, he, hstate⟩ := Option.map_eq_some_iff.mp hentitlement
  obtain ⟨hstatus, hepoch⟩ := Prod.mk.inj hstate
  exact ⟨p, m, k, t, e, hp, of_outcome houtcome, hk, ⟨ht, hrevoked⟩, he, hstatus, hepoch⟩

end Sample

/-- The token and the entitlement that a call names are active now. -/
def Current (call : ReceiptCall) (db : Database) : Prop :=
  ∃ t e, db.token call.tokenId = some t ∧ db.entitlement call.ticketId = some e ∧
    (t.ticketId = call.ticketId ∧ t.orderId = call.orderId ∧ t.eventId = call.eventId) ∧
      t.revokedAt = none ∧ e.status = "active" ∧ e.issuanceEpoch = t.issuanceEpoch

/-- If the turn commits a revocation, no call that has read 'candidate' for the ticket has
yet to record it. -/
def unhurried (procedures : Procedures) :
    Thread Stmt Role Outcome → Option String → Database → Bool
  | ⟨_, .step (.query (.revokeEntitlement ticketId revokedAt)) _⟩, none, db =>
      !(procedures.revoke ticketId revokedAt db).answer.isOk ||
        db.judged.all fun judged => judged.2 ≠ ticketId
  | _, _, _ => true

/-- In the run under the schedule, no revocation of a ticket commits between the read of
'candidate' for it and the recording of that receipt. -/
def revocationsUnhurried (env : Deployment SigningKey VerifyingKey)
    (p : Pool Stmt Role Outcome Database) (ls : List (Label (Option String) Request)) : Bool :=
  p.meets (admission env) (unhurried env.procedures) ls

theorem stmt_unhurried {β : Type} {st : Stmt β} {k : β → Prog Stmt Role Outcome Outcome} {r : Role}
    {x : Option String} {procedures : Procedures}
    (h : unhurried procedures ⟨r, .step st k⟩ x db = true) : st.Unhurried procedures x db := by
  obtain ⟨q⟩ := st
  cases x with
  | some e => trivial
  | none =>
      cases q with
      | revokeEntitlement ticketId revokedAt =>
          intro hok m hm
          have hor := Bool.or_eq_true_iff.mp h
          rw [hok] at hor
          have hall := List.all_eq_true.mp (hor.resolve_left Bool.false_ne_true) _ hm
          exact of_decide_eq_true hall rfl
      | _ => trivial

/-- A verdict 'candidate' whose rows are untouched is current. -/
theorem current_of_judged {receivedAt : Instant} {call : ReceiptCall}
    (h : Judged env True receipt receivedAt call db) (hc : call.classification = "candidate") :
    Current call db := by
  obtain ⟨earlier, payload, signature, b, rfl, hread, -, huntouched⟩ := h
  have hb := classification_receiptCall.mp hc
  obtain ⟨t, e, ht, he, hcandidate⟩ := candidate_eq_some_iff.mp hread
  rw [hb] at hcandidate
  obtain ⟨hticket, horder, hevent, hunrevoked, -, -, hactive, hepoch⟩ :=
    of_decide_eq_true hcandidate
  have hkept := huntouched trivial hb
  rw [hticket] at he
  exact ⟨t, e, hkept.token _ t ht hticket, hkept.entitlement e he, ⟨hticket, horder, hevent⟩,
    hunrevoked, hactive, hepoch⟩

/-- In every run in which no revocation of a ticket commits between the read of 'candidate'
for it and the recording of that receipt, a receipt is handed over as 'candidate' only while
its token and its entitlement are active. -/
theorem candidate_is_current {p : Pool Stmt Role Outcome Database}
    {ls : List (Label (Option String) Request)} {i m : ℕ} {r : Role} {call : ReceiptCall}
    {k : Except String (Option Uuid) → Prog Stmt Role Outcome Outcome}
    (hcalm : revocationsUnhurried env ⟨db₀, []⟩ ls = true)
    (hrun : Pool.run (admission env) ⟨db₀, []⟩ ls = some p)
    (ht : p.threads[i]? = some ⟨r, .step (.query (.recordReceipt m call)) k⟩)
    (hc : call.classification = "candidate") : Current call p.shared := by
  have hstart : (calls env True).PoolOk ⟨db₀, []⟩ := Discipline.poolOk_nil trivial
  have hok : (calls env True).PoolOk p := by
    refine hstart.run hospitable (Discipline.followsAll_of_meets (fun _ _ => trivial) ?_ hcalm) hrun
    exact fun _ _ _ _ _ _ _ h _ => stmt_unhurried h
  have hknows : Knows env True r (.query (.recordReceipt m call)) p.shared := hok.needs ht
  obtain ⟨n, q⟩ := r
  cases q with
  | recordReceipt receipt receivedAt => exact current_of_judged hknows hc
  | _ => exact hknows.elim

/-- A revocation of another ticket does not make the classification stale. -/
theorem candidate_is_current_sample :
    ∃ p, Pool.run (admission Sample.deployment) ⟨Sample.noRows, []⟩ (Sample.revoked 99) = some p ∧
      Hands p (Sample.scan 2000) (Sample.candidateCall 2000) ∧
      Current (Sample.candidateCall 2000) p.shared := by
  have hview : (Pool.run (admission Sample.deployment) ⟨Sample.noRows, []⟩
      (Sample.revoked 99)).map Sample.view = some (Sample.viewOf 2000 none "active") := by
    decide +kernel
  have hcalm : revocationsUnhurried Sample.deployment ⟨Sample.noRows, []⟩ (Sample.revoked 99) =
      true := by
    decide +kernel
  obtain ⟨p, m, k, -, -, hp, -, hk, -⟩ := Sample.exists_of_view hview
  exact ⟨p, hp, ⟨5, 5, m, 9500, k, hk⟩, candidate_is_current hcalm hp hk rfl⟩

/-- A revocation that commits after the verdict has been read: the receipt is handed over as
'candidate' while its entitlement is revoked. -/
theorem not_candidate_is_current :
    ¬ ∀ (env : Deployment Unit Unit) (db₀ : Database) (p : Pool Stmt Role Outcome Database)
        (i m : ℕ) (r : Role) (call : ReceiptCall)
        (k : Except String (Option Uuid) → Prog Stmt Role Outcome Outcome),
      env.procedures.Lawful → Pool.Reaches (admission env) ⟨db₀, []⟩ p →
      p.threads[i]? = some ⟨r, .step (.query (.recordReceipt m call)) k⟩ →
      call.classification = "candidate" → Current call p.shared := by
  intro h
  have hview : (Pool.run (admission Sample.deployment) ⟨Sample.noRows, []⟩
      (Sample.revoked 8)).map Sample.view = some (Sample.viewOf 2000 (some 3) "revoked") := by
    decide +kernel
  obtain ⟨p, m, k, t, e, hp, -, hk, -, he, hstatus, -⟩ := Sample.exists_of_view hview
  obtain ⟨t', e', -, he', -, -, hactive, -⟩ :=
    h _ _ p 5 m _ _ k Sample.procedures_lawful ⟨_, hp⟩ hk rfl
  obtain rfl := Option.some.inj (he.symm.trans he')
  exact absurd (hstatus.symm.trans hactive) (by decide)

end Admission
