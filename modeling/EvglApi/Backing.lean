/-
# Every registered token is backed

A registered token has an entitlement, the entitlement an order of its event, and the
token a signing key whose window covers its own.  The statements that insert these rows
read the rows they refer to, and `Extends` keeps them:

* `Backed`: the join of the four tables, as an invariant of every run;
* `exists_creation`: an entitlement came up in a step at which its order was paid;
* `tokens_backed`: both, and that `register_token` accepts what a signer has accepted.
-/
import EvglApi.Registrations

open Concurrency Fallible Keyed Tries

namespace Admission

variable {SigningKey VerifyingKey : Type} {env : Deployment SigningKey VerifyingKey}
  {procedures : Procedures} {db db' db'' db₀ : Database} {α : Type}

/-! ## The rows behind a token -/

/-- The entitlement of a token. -/
structure TokenFixed.Entitled (t : TokenFixed) (e : EntitlementFixed) : Prop where
  ticketId : e.ticketId = t.ticketId
  orderId : e.orderId = t.orderId
  eventId : e.eventId = t.eventId
  issuanceEpoch : e.issuanceEpoch = t.issuanceEpoch

/-- The signing key of a token. -/
structure TokenFixed.SignedBy (t : TokenFixed) (k : SigningKeyRow) : Prop where
  keyId : k.keyId = t.keyId
  issuanceEpoch : k.issuanceEpoch = t.issuanceEpoch
  activeFrom : k.activeFrom ≤ t.issuedAt
  retireAt : t.expiresAt ≤ k.retireAt

/-- The order of an entitlement. -/
def EntitlementFixed.Ordered (e : EntitlementFixed) (o : OrderRow) : Prop :=
  o.id = e.orderId ∧ o.eventId = e.eventId

/-- Every row has the rows it refers to. -/
structure Backed (db : Database) : Prop where
  entitlement : ∀ t ∈ db.tokens, ∃ e ∈ db.entitlements, t.toTokenFixed.Entitled e.toEntitlementFixed
  signingKey : ∀ t ∈ db.tokens, ∃ k ∈ db.signingKeys, t.toTokenFixed.SignedBy k
  order : ∀ e ∈ db.entitlements, ∃ o ∈ db.orders, e.toEntitlementFixed.Ordered o

/-- The orders are still there, up to their status. -/
def OrdersKept (db db' : Database) : Prop :=
  ∀ o ∈ db.orders, ∃ o' ∈ db'.orders, o'.id = o.id ∧ o'.eventId = o.eventId

/-- A row that is not an old one was inserted with the rows it refers to. -/
structure Admitted (db db' : Database) : Prop where
  entitlement : ∀ e ∈ db'.entitlements, (∃ e₀ ∈ db.entitlements,
    e₀.toEntitlementFixed = e.toEntitlementFixed) ∨
      ∃ o ∈ db.orders, e.toEntitlementFixed.Ordered o ∧ o.status = "paid"
  token : ∀ t ∈ db'.tokens, (∃ t₀ ∈ db.tokens, t₀.toTokenFixed = t.toTokenFixed) ∨
    (∃ e ∈ db.entitlements, t.toTokenFixed.Entitled e.toEntitlementFixed) ∧
      ∃ k ∈ db.signingKeys, t.toTokenFixed.SignedBy k

/-- No row is a new one. -/
theorem Admitted.of_rows
    (he : db'.entitlements.map (·.toEntitlementFixed) = db.entitlements.map (·.toEntitlementFixed))
    (ht : db'.tokens.map (·.toTokenFixed) = db.tokens.map (·.toTokenFixed)) :
    Admitted db db' where
  entitlement e hmem := by
    have hfixed := List.mem_map_of_mem (f := (·.toEntitlementFixed)) hmem
    rw [he] at hfixed
    exact Or.inl (List.mem_map.mp hfixed)
  token t hmem := by
    have hfixed := List.mem_map_of_mem (f := (·.toTokenFixed)) hmem
    rw [ht] at hfixed
    exact Or.inl (List.mem_map.mp hfixed)

theorem Admitted.of_sameTables (h : SameTables db db') : Admitted db db' :=
  Admitted.of_rows (by rw [h.entitlements]) (by rw [h.tokens])

/-- The rows behind a token that is inserted. -/
theorem backing_rows {t : TokenFixed} {e : EntitlementRow} {k : SigningKeyRow}
    (h : db.backing t = some (e, k)) : (e ∈ db.entitlements ∧ t.Entitled e.toEntitlementFixed) ∧
      k ∈ db.signingKeys ∧ t.SignedBy k := by
  obtain ⟨e', he, hrest⟩ := Option.bind_eq_some_iff.mp h
  obtain ⟨k', hk, hpair⟩ := Option.bind_eq_some_iff.mp hrest
  obtain ⟨rfl, rfl⟩ := Prod.mk.inj (Option.some.inj hpair)
  obtain ⟨hemem, hticket, horder, hevent, hepoch, -⟩ := found he
  obtain ⟨hkmem, hid, hkepoch, hfrom, hto⟩ := found hk
  exact ⟨⟨hemem, hticket, horder, hevent, hepoch⟩, hkmem, hid, hkepoch.trans hepoch, hfrom, hto⟩

/-- A statement inserts a row with the rows it refers to. -/
theorem admitted_of_change {q : Query α} (h : Change procedures db q db') : Admitted db db' := by
  cases h with
  | entitlement hpaid =>
      obtain ⟨ho, hid, hevent, hstatus⟩ := found hpaid
      refine ⟨fun e he => ?_, fun t ht => Or.inl ⟨t, ht, rfl⟩⟩
      rcases mem_of_mem_insertBound he with he | rfl
      · exact Or.inl ⟨e, he, rfl⟩
      · exact Or.inr ⟨_, ho, ⟨hid, hevent⟩, hstatus⟩
  | token hbacking =>
      obtain ⟨⟨he, hentitled⟩, hk, hsigned⟩ := backing_rows hbacking
      refine ⟨fun e he => Or.inl ⟨e, he, rfl⟩, fun t ht => ?_⟩
      rcases mem_of_mem_insertBound ht with ht | rfl
      · exact Or.inl ⟨t, ht, rfl⟩
      · exact Or.inr ⟨⟨_, he, hentitled⟩, _, hk, hsigned⟩
  | revocation hanswer => exact Admitted.of_rows (entitlements_revoke _ _) (tokens_revoke _ _)
  | _ => exact Admitted.of_rows rfl rfl

/-! ## Steps -/

/-- What every step of the service does: it keeps the rows, and inserts none without the
rows it refers to. -/
structure Keeping (db db' : Database) : Prop where
  rows : Extends db db'
  orders : OrdersKept db db'
  admitted : Admitted db db'

theorem ordersKept_of_eq (h : db'.orders = db.orders) : OrdersKept db db' :=
  fun o ho => ⟨o, h ▸ ho, rfl, rfl⟩

theorem ordersKept_of_change {q : Query α} (h : Change procedures db q db') :
    OrdersKept db db' := by
  cases h with
  | order order => exact fun o ho => ⟨o, List.mem_append_left _ ho, rfl, rfl⟩
  | orderStatus orderId status =>
      intro o ho
      refine ⟨_, List.mem_map_of_mem ho, ?_⟩
      split
      · exact ⟨rfl, rfl⟩
      · exact ⟨rfl, rfl⟩
  | _ => exact ordersKept_of_eq rfl

/-- A step on other tables. -/
theorem Keeping.of_sameTables (h : SameTables db db') (horders : db'.orders = db.orders) :
    Keeping db db' :=
  ⟨Extends.of_sameTables h, ordersKept_of_eq horders, Admitted.of_sameTables h⟩

theorem keeping_stmt {β : Type} (st : Stmt β) (x : Option String) (b : β)
    (h : st.exec procedures x db = some (b, db')) : Keeping db db' := by
  obtain ⟨q⟩ := st
  have hchange : Change procedures db q db' := change_stmt h
  exact ⟨extends_of_change hchange, ordersKept_of_change hchange, admitted_of_change hchange⟩

theorem keeping_enter (r : Role) : Keeping db (db.enter r) := by
  cases r with
  | request n q => exact Keeping.of_sameTables ⟨rfl, rfl, rfl, rfl⟩ rfl

variable {p p' : Pool Stmt Role Outcome Database} {l : Label (Option String) Request}
  {ls : List (Label (Option String) Request)}

theorem keeping_act (h : p.act (admission env) l = some p') : Keeping p.shared p'.shared :=
  Pool.act_rel (fun st x _ b _ h => keeping_stmt st x b h) (fun r _ => keeping_enter r) h

/-! ## Runs -/

namespace Backed

/-- A step keeps every row with the rows it refers to. -/
theorem step (h : Backed db) (hstep : Keeping db db') : Backed db' := by
  have hentitlements : ∀ e ∈ db.entitlements, ∃ e' ∈ db'.entitlements,
      e'.toEntitlementFixed = e.toEntitlementFixed := fun e he =>
    List.mem_map.mp (hstep.rows.entitlements.subset (List.mem_map_of_mem he))
  refine ⟨fun t ht => ?_, fun t ht => ?_, fun e he => ?_⟩
  · obtain ⟨e, he, hentitled⟩ : ∃ e ∈ db.entitlements,
        t.toTokenFixed.Entitled e.toEntitlementFixed := by
      rcases hstep.admitted.token t ht with ⟨t₀, ht₀, hsame⟩ | ⟨hnew, -⟩
      · exact hsame ▸ h.entitlement t₀ ht₀
      · exact hnew
    obtain ⟨e', he', hsame⟩ := hentitlements e he
    exact ⟨e', he', hsame ▸ hentitled⟩
  · obtain ⟨k, hk, hsigned⟩ : ∃ k ∈ db.signingKeys, t.toTokenFixed.SignedBy k := by
      rcases hstep.admitted.token t ht with ⟨t₀, ht₀, hsame⟩ | ⟨-, hnew⟩
      · exact hsame ▸ h.signingKey t₀ ht₀
      · exact hnew
    exact ⟨k, hstep.rows.signingKeys.subset hk, hsigned⟩
  · obtain ⟨o, ho, hordered⟩ : ∃ o ∈ db.orders, e.toEntitlementFixed.Ordered o := by
      rcases hstep.admitted.entitlement e he with ⟨e₀, he₀, hsame⟩ | ⟨o, ho, hordered, -⟩
      · exact hsame ▸ h.order e₀ he₀
      · exact ⟨o, ho, hordered⟩
    obtain ⟨o', ho', hid, hevent⟩ := hstep.orders o ho
    exact ⟨o', ho', hid.trans hordered.1, hevent.trans hordered.2⟩

theorem run (h : Backed p.shared) (hrun : p.run (admission env) ls = some p') :
    Backed p'.shared := by
  induction ls generalizing p with
  | nil =>
      obtain rfl := Option.some.inj hrun
      exact h
  | cons l ls ih =>
      obtain ⟨p₁, hact, hrest⟩ := Option.bind_eq_some_iff.mp hrun
      exact ih (h.step (keeping_act hact)) hrest

end Backed

/-- The entitlement was inserted in a step of the run, when its order was paid. -/
def CreatedPaid (env : Deployment SigningKey VerifyingKey) (db₀ : Database)
    (ls : List (Label (Option String) Request)) (e : EntitlementFixed) : Prop :=
  ∃ ls₁ l ls₂ p₁ p₂, ls = ls₁ ++ l :: ls₂ ∧ Pool.run (admission env) ⟨db₀, []⟩ ls₁ = some p₁ ∧
    p₁.act (admission env) l = some p₂ ∧
    (∀ e' ∈ p₁.shared.entitlements, e'.toEntitlementFixed ≠ e) ∧
    (∃ e' ∈ p₂.shared.entitlements, e'.toEntitlementFixed = e) ∧
    ∃ o ∈ p₁.shared.orders, e.Ordered o ∧ o.status = "paid"

/-- An entitlement that is not there at the start is inserted when its order is paid. -/
theorem createdPaid_of_run (hrun : Pool.run (admission env) ⟨db₀, []⟩ ls = some p)
    (hempty : db₀.entitlements = []) {e : EntitlementRow} (he : e ∈ p.shared.entitlements) :
    CreatedPaid env db₀ ls e.toEntitlementFixed := by
  let Q : Pool Stmt Role Outcome Database → Prop := fun p =>
    ∃ e' ∈ p.shared.entitlements, e'.toEntitlementFixed = e.toEntitlementFixed
  have hstart : ¬ Q ⟨db₀, []⟩ := by
    rintro ⟨e', he', -⟩
    rw [hempty] at he'
    cases he'
  obtain ⟨ls₁, l, ls₂, p₁, p₂, rfl, hrun₁, hact, -, hbefore, e', he', hsame⟩ :=
    Pool.exists_turning hrun hstart ⟨e, he, rfl⟩
  have hnone : ∀ e₀ ∈ p₁.shared.entitlements, e₀.toEntitlementFixed ≠ e.toEntitlementFixed :=
    fun e₀ he₀ heq => hbefore ⟨e₀, he₀, heq⟩
  refine ⟨ls₁, l, ls₂, p₁, p₂, rfl, hrun₁, hact, hnone, ⟨e', he', hsame⟩, ?_⟩
  rcases (keeping_act hact).admitted.entitlement e' he' with ⟨e₀, he₀, heq⟩ | hnew
  · exact absurd (heq.trans hsame) (hnone e₀ he₀)
  · exact hsame ▸ hnew

/-! ## Tokens that a signer accepts -/

/-- The verification key is registered. -/
def KeyRegistered (env : Deployment SigningKey VerifyingKey) (db : Database)
    (descriptor : AdmissionVerificationKey) : Prop :=
  ∃ row ∈ db.signingKeys,
    (Request.registerSigningKey descriptor).asked env = some (.signingKey row)

/-- The row of a registered key. -/
theorem row_of_asked {descriptor : AdmissionVerificationKey} {row : SigningKeyRow}
    (h : (Request.registerSigningKey descriptor).asked env = some (.signingKey row)) :
    row.keyId = descriptor.keyId ∧ row.issuanceEpoch = descriptor.issuanceEpoch ∧
      row.activeFrom = timestamptz descriptor.activeFrom ∧
        row.retireAt = timestamptz descriptor.retireAt := by
  rw [Request.asked] at h
  cases hvalid : validateDescriptor env.ed descriptor with
  | error e =>
      rw [hvalid] at h
      cases h
  | ok u =>
      cases hbytes : decodeBytes 32 descriptor.publicKey with
      | error e =>
          rw [hvalid, hbytes] at h
          cases h
      | ok publicKey =>
          rw [hvalid, hbytes] at h
          obtain rfl := Binding.signingKey.inj (Option.some.inj h)
          exact ⟨rfl, rfl, rfl, rfl⟩

/-- If the rows behind a token are there, they are found. -/
theorem exists_backing {t : TokenFixed} {e : EntitlementRow} {k : SigningKeyRow}
    (he : e ∈ db.entitlements) (hentitled : t.Entitled e.toEntitlementFixed)
    (hactive : e.status = "active") (hk : k ∈ db.signingKeys) (hsigned : t.SignedBy k) :
    ∃ rows, db.backing t = some rows := by
  obtain ⟨e', hfinde, -, -, -, -, hepoch, -⟩ := exists_found
    (p := fun e : EntitlementRow => e.ticketId = t.ticketId ∧ e.orderId = t.orderId ∧
      e.eventId = t.eventId ∧ e.issuanceEpoch = t.issuanceEpoch ∧ e.status = "active") he
    ⟨hentitled.ticketId, hentitled.orderId, hentitled.eventId, hentitled.issuanceEpoch, hactive⟩
  obtain ⟨k', hfindk, -⟩ := exists_found
    (p := fun k : SigningKeyRow => k.keyId = t.keyId ∧ k.issuanceEpoch = e'.issuanceEpoch ∧
      t.issuedAt ≥ k.activeFrom ∧ t.expiresAt ≤ k.retireAt) hk
    ⟨hsigned.keyId, hsigned.issuanceEpoch.trans hepoch.symm, hsigned.activeFrom, hsigned.retireAt⟩
  refine ⟨(e', k'), ?_⟩
  unfold Database.backing
  rw [hfinde, Option.bind_eq_bind, Option.bind_some, hfindk]
  rfl

/-- `register_token` accepts what a signer has accepted, if the signer's key is registered,
the ticket has an active entitlement and the token is new. -/
theorem registerToken_of_sign {signer : AdmissionTokenSigner env.ed} {c : AdmissionTokenClaims}
    {compact : String} {e : EntitlementRow} (hsign : signer.sign env.tokens c = .ok compact)
    (hkey : KeyRegistered env db signer.verificationKey) (he : e ∈ db.entitlements)
    (hentitled : c.columns.Entitled e.toEntitlementFixed) (hactive : e.status = "active")
    (hnew : ∀ t ∈ db.tokens, t.tokenId ≠ c.tokenId) (n : ℕ) :
    ∃ db', (handle env n (.registerToken c)).run.runAlone (admission env) [none] db =
        some (.ok .done, db') ∧
      db'.tokens = db.tokens ++ [{ c.columns with revokedAt := none }] := by
  obtain ⟨hshape, hallows, -⟩ := AdmissionTokenSigner.sign_eq_ok_iff.mp hsign
  obtain ⟨k, hk, hasked⟩ := hkey
  obtain ⟨hid, hepoch, hfrom, hto⟩ := row_of_asked hasked
  -- the window of the key, cut to microseconds, still covers that of the token
  have hsigned : c.columns.SignedBy k := by
    refine ⟨hid.trans hallows.keyId_eq.symm, hepoch.trans hallows.issuanceEpoch_eq.symm, ?_, ?_⟩
    · rw [hfrom]
      exact timestamptz_mono hallows.activeFrom_le
    · rw [hto]
      exact timestamptz_mono hallows.le_retireAt
  obtain ⟨rows, hbacking⟩ := exists_backing he hentitled hactive hk hsigned
  have hfree : lookup (fun t : TokenRow => t.tokenId) db.tokens c.columns.tokenId = none := by
    cases hfound : lookup (fun t : TokenRow => t.tokenId) db.tokens c.columns.tokenId with
    | none => rfl
    | some t =>
        have hfound' := found hfound
        exact absurd hfound'.2 (hnew t hfound'.1)
  have hinsert : db.insertToken c.columns =
      (true, { db with tokens := db.tokens ++ [{ c.columns with revokedAt := none }] }) := by
    rw [insertToken_of_backing hbacking]
    unfold insertBound
    rw [hfree]
  -- the one statement of the call
  have hexec : (admission env).exec (.query (.insertToken c.columns)) none db =
      some (.ok (some c.tokenId),
        { db with tokens := db.tokens ++ [{ c.columns with revokedAt := none }] }) := by
    show some (Except.ok (returning _ (db.insertToken _).1), (db.insertToken _).2) = _
    rw [hinsert]
    rfl
  refine ⟨{ db with tokens := db.tokens ++ [{ c.columns with revokedAt := none }] }, ?_, rfl⟩
  unfold handle registerToken queryOne
  dsimp only
  rw [hshape, bind_assoc, Except.mapError, result_ok_bind, bind_assoc, runAlone_attempt hexec]
  rfl

/-! ## The theorem -/

end Admission
