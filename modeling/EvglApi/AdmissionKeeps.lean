/-
# The calls of the admission service keep their discipline

Every call leaves the others `Undisturbed`.  `Judged` is what a call of `recordReceipt`
knows when it is about to record a receipt: its verdict was read from an earlier
database, whose rows of the ticket are still the same if the calls are calm.
-/
import EvglApi.AdmissionSteps

open Concurrency Keyed

namespace Admission

variable {SigningKey VerifyingKey : Type} {env : Deployment SigningKey VerifyingKey} {calm : Prop}
  {db db' : Database} {n : ℕ} {q : Request} {α β : Type}

/-! ## The discipline -/

/-- The read of `candidate` for a receipt. -/
def Database.candidateFor (db : Database) (claims : ScanReceiptClaims) : Option Bool :=
  db.candidate claims.tokenId claims.ticketId claims.orderId claims.eventId
    (timestamptz claims.scannedAt)

/-- The call is about to record a receipt with the verdict of an earlier database. -/
def Judged (env : Deployment SigningKey VerifyingKey) (calm : Prop) (receipt : SignedScanReceipt)
    (receivedAt : Instant) (call : ReceiptCall) (db : Database) : Prop :=
  ∃ earlier payload signature candidate,
    call = receiptCall env receipt.claims receivedAt payload signature candidate ∧
    earlier.candidateFor receipt.claims = some candidate ∧
    Evolves env.procedures earlier db ∧
    (calm → candidate = true → Untouched receipt.claims.ticketId earlier db)

/-- What a call knows when it is about to execute a statement. -/
def Knows (env : Deployment SigningKey VerifyingKey) (calm : Prop) :
    Role → Stmt β → Database → Prop
  | .request _ (.recordReceipt receipt receivedAt), .query (.recordReceipt _ call), db =>
      Judged env calm receipt receivedAt call db
  | _, .query (.recordReceipt _ _), _ => False
  | _, _, _ => True

/-- The token of the claims is stored. -/
def Registered (claims : AdmissionTokenClaims) (db : Database) : Prop :=
  ∃ t, db.token claims.tokenId = some t ∧ t.toTokenFixed = claims.columns

/-- What holds after a call has ended. -/
def Ended : Role → Outcome → Database → Prop
  | .request _ (.registerToken claims), .ok _, db => Registered claims db
  | _, _, _ => True

/-- Unless it fails, the statement revokes no ticket of a receipt that is still to be
recorded. -/
def Stmt.Unhurried (procedures : Procedures) : Stmt β → Option String → Database → Prop
  | .query q, none, db => q.Unhurried procedures db
  | .query _, some _, _ => True

def Taken (db : Database) : Role → Prop
  | .request n q => db.requests[n]? = some q

theorem Taken.mono {r : Role} (hrequests : db.requests <+: db'.requests) (h : Taken db r) :
    Taken db' r := by
  obtain ⟨n, q⟩ := r
  obtain ⟨hn, -⟩ := List.getElem?_eq_some_iff.mp h
  obtain ⟨rest, heq⟩ := hrequests
  show db'.requests[n]? = some q
  rw [← heq, List.getElem?_append_left hn]
  exact h

theorem Registered.mono {procedures : Procedures} {claims : AdmissionTokenClaims}
    (h : Evolves procedures db db') (hstored : Registered claims db) : Registered claims db' := by
  obtain ⟨t, ht, hcolumns⟩ := hstored
  obtain ⟨t', ht', hfixed, -⟩ := h.token _ t ht
  exact ⟨t', ht', hfixed.trans hcolumns⟩

/-- The calls of the service, which are `calm` or not. -/
def calls (env : Deployment SigningKey VerifyingKey) (calm : Prop) :
    Discipline (admission env) where
  inv _ := True
  assume _ st x db := calm → st.Unhurried env.procedures x db
  admits _ := True
  needs := Knows env calm
  guar r db db' := match r with
    | .request n _ => ∀ m, m ≠ n → Undisturbed env.procedures calm m db db'
  rely r db db' := match r with
    | .request n _ => Undisturbed env.procedures calm n db db'
  taken := Taken
  post := Ended
  rely_refl r db := by
    obtain ⟨n, q⟩ := r
    exact Undisturbed.refl n db
  rely_trans {r _ _ _} h h' := by
    obtain ⟨n, q⟩ := r
    exact Undisturbed.trans h h'
  rely_of_guar {r r' db db'} _ _ htaken htaken' hne hguar := by
    obtain ⟨n, q⟩ := r
    obtain ⟨m, q'⟩ := r'
    refine hguar m ?_
    rintro rfl
    -- a number belongs to one call
    have hq' : Taken db' (.request m q') :=
      Taken.mono (hguar (m + 1) (Nat.succ_ne_self m)).requests htaken'
    obtain rfl := Option.some.inj (htaken.symm.trans hq')
    exact hne rfl
  taken_of_guar {r r' _ _} hguar htaken := by
    obtain ⟨n, q⟩ := r
    exact htaken.mono (hguar (n + 1) (Nat.succ_ne_self n)).requests
  post_of_rely {r a _ _} hrely hpost := by
    obtain ⟨n, q⟩ := r
    cases q with
    | registerToken claims =>
        cases a with
        | ok reply => exact Registered.mono hrely.evolves hpost
        | error e => trivial
    | _ => trivial

/-! ## Statements -/

/-- A statement of call `n` leaves the others undisturbed, and it fails or is executed. -/
theorem guar_exec {k : Query α} {x : Option String} {a : Except String α} (hof : k.Of n)
    (hcalm : calm → (Stmt.query k).Unhurried env.procedures x db)
    (h : (Stmt.query k).exec env.procedures x db = some (a, db')) :
    (∀ m, m ≠ n → Undisturbed env.procedures calm m db db') ∧
      ((∃ e, a = .error e) ∨
        a = (k.exec env.procedures db).1 ∧ db' = (k.exec env.procedures db).2) := by
  cases x with
  | some e =>
      obtain ⟨rfl, rfl⟩ := Prod.mk.inj (Option.some.inj h)
      exact ⟨fun m hm => undisturbed_fail hof hm, Or.inl ⟨e, rfl⟩⟩
  | none =>
      have hpair : k.exec env.procedures db = (a, db') := Option.some.inj h
      have hguar := fun m (hm : m ≠ n) => undisturbed_of_change (change_exec k) hof hcalm hm
      rw [hpair] at hguar ⊢
      exact ⟨hguar, Or.inr ⟨rfl, rfl⟩⟩

/-- A statement of call `n`, with what it knows and what its row says. -/
theorem keeps_queryOne {k : Query α} {Q : α → Database → Prop} (hof : k.Of n)
    (h : ∀ db', Undisturbed env.procedures calm n db db' →
      Knows env calm (.request n q) (.query k) db' ∧
        ∀ a, (k.exec env.procedures db').1 = .ok a → Q a (k.exec env.procedures db').2) :
    Keeps (calls env calm) (.request n q) (queryOne k) Q (fun _ _ => True) db := by
  refine Keeps.attempt fun db' hrely _ _ => ?_
  obtain ⟨hknows, hrow⟩ := h db' hrely
  refine ⟨hknows, fun x a db'' hcalm hexec => ?_⟩
  obtain ⟨hguar, hcases⟩ := guar_exec hof hcalm hexec
  refine ⟨hguar, trivial, ?_⟩
  rcases hcases with ⟨e, rfl⟩ | ⟨rfl, rfl⟩
  · trivial
  · cases hanswer : (k.exec env.procedures db').1 with
    | ok a => exact hrow a hanswer
    | error e => trivial

/-! ## The statements of a call -/

/-- `P` holds of every statement that the call may come to execute. -/
def Request.Executes (env : Deployment SigningKey VerifyingKey) (n : ℕ)
    (P : ∀ {β : Type}, Stmt β → Prop) : Request → Prop
  | .registerSigningKey descriptor => ∀ publicKey, validateDescriptor env.ed descriptor = .ok () →
      decodeBytes 32 descriptor.publicKey = .ok publicKey → P (.query (.insertSigningKey
        { keyId := descriptor.keyId, issuanceEpoch := descriptor.issuanceEpoch, publicKey
          activeFrom := timestamptz descriptor.activeFrom
          retireAt := timestamptz descriptor.retireAt }))
  | .registerScannerKey scannerId keyId publicKey activeFrom retireAt => ∀ bytes,
      decodeBytes 32 publicKey = .ok bytes → P (.query (.insertScannerKey
        { scannerId, keyId, publicKey := bytes, activeFrom := timestamptz activeFrom
          retireAt := timestamptz retireAt }))
  | .registerEntitlement ticketId orderId eventId issuanceEpoch now =>
      P (.query (.insertEntitlement
        { ticketId, orderId, eventId, issuanceEpoch, createdAt := timestamptz now }))
  | .registerToken claims => P (.query (.insertToken claims.columns))
  | .revokeEntitlement ticketId revokedAt =>
      P (.query (.revokeEntitlement ticketId (timestamptz revokedAt)))
  | .recordReceipt receipt _ =>
      P (.query (.selectScannerKey receipt.claims.scannerId receipt.claims.scannerKeyId
        (timestamptz receipt.claims.scannedAt))) ∧
      P (.query (.selectCandidate n receipt.claims.tokenId receipt.claims.ticketId
        receipt.claims.orderId receipt.claims.eventId (timestamptz receipt.claims.scannedAt))) ∧
      ∀ call, P (.query (.recordReceipt n call))
  | .placeOrder order => P (.query (.insertOrder order))
  | .setOrderStatus orderId status => P (.query (.updateOrder orderId status))

theorem only_handle {P : ∀ {β : Type}, Stmt β → Prop} {n : ℕ} {q : Request}
    (h : q.Executes env n P) : Only P (handle env n q) := by
  cases q with
  | registerSigningKey descriptor =>
      refine Only.bind ?_ fun _ => Only.pure _
      unfold registerSigningKey
      cases hvalid : validateDescriptor env.ed descriptor with
      | error e => trivial
      | ok u =>
          cases hbytes : decodeBytes 32 descriptor.publicKey with
          | error e => trivial
          | ok publicKey =>
              -- the checks before the statement have passed, so its arguments are the checked ones
              rw [Tries.result_ok_bind, Tries.result_ok_bind]
              refine Only.bind (Only.attempt (h publicKey hvalid hbytes)) ?_
              exact Only.option (Only.throw _) fun _ => Only.pure _
  | registerScannerKey scannerId keyId publicKey activeFrom retireAt =>
      refine Only.bind (Only.bind (Only.result _) fun _ => ?_) fun _ => Only.pure _
      cases hbytes : decodeBytes 32 publicKey with
      | error e => trivial
      | ok bytes =>
          rw [Tries.result_ok_bind]
          refine Only.bind (Only.attempt (h bytes hbytes)) ?_
          exact Only.option (Only.throw _) fun _ => Only.pure _
  | registerEntitlement ticketId orderId eventId issuanceEpoch now =>
      refine Only.bind (Only.bind (Only.attempt h) ?_) fun _ => Only.pure _
      exact Only.option (Only.throw _) fun _ => Only.pure _
  | registerToken claims =>
      refine Only.bind (Only.bind (Only.result _) fun _ => ?_) fun _ => Only.pure _
      refine Only.bind (Only.attempt h) ?_
      exact Only.option (Only.throw _) fun _ => Only.pure _
  | revokeEntitlement ticketId revokedAt =>
      refine Only.bind (Only.bind (Only.attempt h) ?_) fun _ => Only.pure _
      exact Only.option (Only.throw _) fun _ => Only.pure _
  | recordReceipt receipt receivedAt =>
      obtain ⟨hkey, hcandidate, hrecord⟩ := h
      refine Only.bind (Only.bind (Only.attempt hkey) ?_) fun _ => Only.pure _
      refine Only.option (Only.throw _) fun publicKey => Only.bind (Only.result _) fun _ => ?_
      refine Only.bind (Only.attempt hcandidate) ?_
      refine Only.option (Only.throw _) fun candidate => Only.bind (Only.result _) fun _ => ?_
      refine Only.bind (Only.result _) fun _ => Only.bind (Only.attempt (hrecord _)) ?_
      exact Only.option (Only.throw _) fun _ => Only.pure _
  | placeOrder order => exact Only.bind (Only.attempt h) fun _ => Only.pure _
  | setOrderStatus orderId status => exact Only.bind (Only.attempt h) fun _ => Only.pure _

/-! ## Calls -/

/-- A statement that records no receipt and reads no verdict. -/
def Stmt.Plain : Stmt β → Prop
  | .query (.selectCandidate ..) => False
  | .query (.recordReceipt ..) => False
  | _ => True

/-- A program of plain statements keeps the discipline. -/
theorem wp_of_plain {p : Api α} (hp : Only Stmt.Plain p) :
    (calls env calm).wp (.request n q) p.run (fun _ _ => True) db := by
  refine Discipline.wp_of_every hp (A := fun _ => True) (fun _ _ _ _ => trivial) ?_ trivial
  intro β st hst db' _ _ _
  obtain ⟨k⟩ := st
  have hof : k.Of n := by
    cases k with
    | selectCandidate => exact hst.elim
    | recordReceipt => exact hst.elim
    | _ => trivial
  have hknows : Knows env calm (.request n q) (.query k) db' := by
    cases k with
    | recordReceipt => exact hst.elim
    | _ => cases q <;> trivial
  exact ⟨hknows, fun x a db'' hcalm hexec => ⟨(guar_exec hof hcalm hexec).1, trivial, trivial⟩⟩

/-- A token whose registration returns is stored. -/
theorem keeps_registerToken (claims : AdmissionTokenClaims) :
    Keeps (calls env calm) (.request n (.registerToken claims)) (registerToken env claims)
      (fun _ => Registered claims) (fun _ _ => True) db := by
  refine Keeps.bind (Keeps.result (fun _ _ => ?_) fun _ _ => trivial)
  refine Keeps.andThen (keeps_queryOne
    (Q := fun row db => row.isSome = true → Registered claims db) trivial
    fun db' _ => ⟨trivial, ?_⟩) fun row db' hrow => ?_
  · intro row hrow hsome
    refine exists_of_insertToken ?_
    obtain rfl := Except.ok.inj hrow
    change (returning _ (db'.insertToken claims.columns).1).isSome = true at hsome
    rw [isSome_returning] at hsome
    exact hsome
  · cases row with
    | none => exact Keeps.throw trivial
    | some id => exact Keeps.pure (hrow rfl)

/-! ## The recording of a receipt -/

/-- Call `n` has just read the verdict on a receipt. -/
def Seen (procedures : Procedures) (n : ℕ) (claims : ScanReceiptClaims) (candidate : Bool)
    (db : Database) : Prop :=
  ∃ earlier : Database, earlier.candidateFor claims = some candidate ∧
    Evolves procedures earlier db ∧ Untouched claims.ticketId earlier db ∧
      (candidate = true → (n, claims.ticketId) ∈ db.judged)

/-- The read leaves the rows as they are, and the verdict 'candidate' in the record. -/
theorem seen_of_selectCandidate {procedures : Procedures} {claims : ScanReceiptClaims} {b : Bool}
    (h : db.candidateFor claims = some b) :
    Seen procedures n claims b (Query.exec procedures (.selectCandidate n claims.tokenId
      claims.ticketId claims.orderId claims.eventId (timestamptz claims.scannedAt)) db).2 := by
  refine ⟨db, h, ?_⟩
  show Evolves _ _ (if db.candidateFor claims = some true then _ else _) ∧
    Untouched _ _ (if db.candidateFor claims = some true then _ else _) ∧
      (_ → _ ∈ (if db.candidateFor claims = some true then _ else _ : Database).judged)
  rw [h]
  cases b with
  | true =>
      refine ⟨Evolves.of_kept (fun _ _ h => h) fun _ _ h => h,
        Untouched.of_kept (fun _ _ h => h) fun _ _ h => h, fun _ => ?_⟩
      exact List.mem_append_right _ (List.mem_singleton_self _)
  | false => exact ⟨Evolves.refl db, Untouched.refl db, fun h => absurd h Bool.false_ne_true⟩

/-- The verdict is still known when the receipt is about to be recorded. -/
theorem Seen.judged {receipt : SignedScanReceipt} {receivedAt : Instant} {payload : Bytes}
    {signature : FixedBytes 64} {b : Bool} (h : Seen env.procedures n receipt.claims b db)
    (hrely : Undisturbed env.procedures calm n db db') :
    Judged env calm receipt receivedAt
      (receiptCall env receipt.claims receivedAt payload signature b) db' := by
  obtain ⟨earlier, hread, hevolves, huntouched, hjudged⟩ := h
  refine ⟨earlier, payload, signature, b, rfl, hread, hevolves.trans hrely.evolves, ?_⟩
  intro hcalm hb
  exact huntouched.trans (hrely.untouched hcalm _ (hjudged hb))

/-- A receipt is recorded with the verdict of an earlier database. -/
theorem keeps_recordReceipt (receipt : SignedScanReceipt) (receivedAt : Instant) :
    Keeps (calls env calm) (.request n (.recordReceipt receipt receivedAt))
      (recordReceipt env n receipt receivedAt) (fun _ _ => True) (fun _ _ => True) db := by
  refine Keeps.andThen (keeps_queryOne (Q := fun _ _ => True) trivial
    fun db' _ => ⟨trivial, fun _ _ => trivial⟩) fun key db _ => ?_
  cases key with
  | none => exact Keeps.throw trivial
  | some publicKey =>
      refine Keeps.bind (Keeps.result (fun _ _ => ?_) fun _ _ => trivial)
      refine Keeps.andThen (keeps_queryOne
        (Q := fun answer db => ∀ b, answer = some b →
          Seen env.procedures n receipt.claims b db) rfl
        fun db' _ => ⟨trivial, ?_⟩) fun answer db₁ hseen => ?_
      -- what was read is still known when the receipt is recorded, if the others keep calm
      · intro answer hanswer b hb
        obtain rfl := Except.ok.inj hanswer
        exact seen_of_selectCandidate hb
      · cases answer with
        | none => exact Keeps.throw trivial
        | some b =>
            refine Keeps.bind (Keeps.result (fun payload _ => ?_) fun _ _ => trivial)
            refine Keeps.bind (Keeps.result (fun signature _ => ?_) fun _ _ => trivial)
            refine Keeps.andThen (keeps_queryOne (Q := fun _ _ => True) rfl
              fun db' hrely => ⟨(hseen b rfl).judged hrely, fun _ _ => trivial⟩)
              fun id db₂ _ => ?_
            cases id with
            | none => exact Keeps.throw trivial
            | some id => exact Keeps.pure trivial

/-! ## The pool of calls -/

/-- A program that ends with `Q` or an error has the outcome that is promised. -/
theorem wp_ended {p : Api Reply} {Q : Reply → Database → Prop}
    (h : Keeps (calls env calm) (.request n q) p Q (fun _ _ => True) db)
    (hQ : ∀ reply db, Q reply db → Ended (.request n q) (.ok reply) db)
    (hE : ∀ e db, Ended (.request n q) (.error e) db) :
    (calls env calm).wp (.request n q) p.run (Ended (.request n q)) db := by
  refine Discipline.wp_mono (fun a db h => ?_) h
  cases a with
  | ok reply => exact hQ reply db h
  | error e => exact hE e db

/-- Every call keeps the discipline. -/
theorem wp_handle (n : ℕ) (q : Request) (db : Database) :
    (calls env calm).wp (.request n q) (handle env n q).run (Ended (.request n q)) db := by
  cases q with
  | registerToken claims =>
      refine wp_ended (Q := fun _ => Registered claims) (Keeps.bind ?_) (fun _ _ h => h)
        fun _ _ => trivial
      exact Keeps.mono (keeps_registerToken claims) (fun _ _ h => Keeps.pure h) fun _ _ h => h
  | recordReceipt receipt receivedAt =>
      refine wp_ended (Q := fun _ _ => True) (Keeps.bind ?_) (fun _ _ _ => trivial)
        fun _ _ => trivial
      exact Keeps.mono (keeps_recordReceipt receipt receivedAt) (fun _ _ h => Keeps.pure h)
        fun _ _ h => h
  | registerSigningKey descriptor => exact wp_of_plain (only_handle fun _ _ _ => trivial)
  | registerScannerKey scannerId keyId publicKey activeFrom retireAt =>
      exact wp_of_plain (only_handle fun _ _ => trivial)
  | registerEntitlement ticketId orderId eventId issuanceEpoch now =>
      exact wp_of_plain (only_handle trivial)
  | revokeEntitlement ticketId revokedAt => exact wp_of_plain (only_handle trivial)
  | placeOrder order => exact wp_of_plain (only_handle trivial)
  | setOrderStatus orderId status => exact wp_of_plain (only_handle trivial)

/-- The service lets every call in. -/
theorem hospitable : (calls env calm).Hospitable := by
  intro q db _ _
  refine ⟨fun htaken => ?_, fun m _ => undisturbed_enter _, trivial, ?_, wp_handle _ q _⟩
  · obtain ⟨hlt, -⟩ := List.getElem?_eq_some_iff.mp htaken
    exact absurd hlt (Nat.lt_irrefl _)
  · show (db.requests ++ [q])[db.requests.length]? = some q
    rw [List.getElem?_append_right (le_refl _), Nat.sub_self]
    rfl

end Admission
