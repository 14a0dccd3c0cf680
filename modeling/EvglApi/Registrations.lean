/-
# Registrations bind for good

A registration of a signing key, a scanner key, an entitlement or a token binds an id to
the fields of the call.  `Database.binding` is what an id is bound to, and
`Request.asked` what a call asks for.

* `Extends`: no statement of the service removes a row of the four tables or changes a
  column that is not one of a revocation;
* `Inserts`: what the statement of a registration does;
* `registrations_immutable`: the law of registrations, for every run of the service.
-/
import EvglApi.Classification
import EvglApi.Runs

open Concurrency Fallible Keyed Tries

namespace Admission

variable {SigningKey VerifyingKey : Type} {env : Deployment SigningKey VerifyingKey}
  {procedures : Procedures} {db db' db'' : Database} {α : Type}

/-! ## Bindings -/

/-- The id that a registration binds. -/
inductive Key
  | signingKey (keyId : String)
  | scannerKey (scannerId : Uuid) (keyId : String)
  | entitlement (ticketId : Uuid)
  | token (tokenId : Uuid)
  deriving DecidableEq

/-- An id with the fields it is bound to. -/
inductive Binding
  | signingKey (row : SigningKeyRow)
  | scannerKey (row : ScannerKeyRow)
  | entitlement (ticketId orderId eventId : Uuid) (issuanceEpoch : ℤ)
  | token (fixed : TokenFixed)
  deriving DecidableEq

def Binding.key : Binding → Key
  | .signingKey row => .signingKey row.keyId
  | .scannerKey row => .scannerKey row.scannerId row.keyId
  | .entitlement ticketId _ _ _ => .entitlement ticketId
  | .token fixed => .token fixed.tokenId

/-- The bound fields of an entitlement. -/
def EntitlementFixed.binding (fixed : EntitlementFixed) : Binding :=
  .entitlement fixed.ticketId fixed.orderId fixed.eventId fixed.issuanceEpoch

/-- What an id is bound to. -/
def Database.binding (db : Database) : Key → Option Binding
  | .signingKey keyId =>
      (lookup SigningKeyRow.keyId db.signingKeys keyId).map .signingKey
  | .scannerKey scannerId keyId =>
      (lookup (fun k => (k.scannerId, k.keyId)) db.scannerKeys (scannerId, keyId)).map .scannerKey
  | .entitlement ticketId => (db.entitlement ticketId).map fun e => e.toEntitlementFixed.binding
  | .token tokenId => (db.token tokenId).map fun t => .token t.toTokenFixed

/-- The id that a call is about, if it is a registration. -/
def Request.key : Request → Option Key
  | .registerSigningKey descriptor => some (.signingKey descriptor.keyId)
  | .registerScannerKey scannerId keyId _ _ _ => some (.scannerKey scannerId keyId)
  | .registerEntitlement ticketId _ _ _ _ => some (.entitlement ticketId)
  | .registerToken claims => some (.token claims.tokenId)
  | _ => none

/-- What a registration asks for, unless its arguments are refused. -/
def Request.asked (env : Deployment SigningKey VerifyingKey) : Request → Option Binding
  | .registerSigningKey descriptor => Except.toOption do
      validateDescriptor env.ed descriptor
      let publicKey ← decodeBytes 32 descriptor.publicKey
      pure <| .signingKey
        { keyId := descriptor.keyId, issuanceEpoch := descriptor.issuanceEpoch, publicKey
          activeFrom := timestamptz descriptor.activeFrom
          retireAt := timestamptz descriptor.retireAt }
  | .registerScannerKey scannerId keyId publicKey activeFrom retireAt => Except.toOption do
      refuseIf (trimIsEmpty keyId ∨ retireAt ≤ activeFrom)
        (.policy "invalid scanner verification key window")
      let publicKey ← decodeBytes 32 publicKey
      pure <| .scannerKey
        { scannerId, keyId, publicKey, activeFrom := timestamptz activeFrom
          retireAt := timestamptz retireAt }
  | .registerEntitlement ticketId orderId eventId issuanceEpoch _ =>
      some (.entitlement ticketId orderId eventId issuanceEpoch)
  | .registerToken claims => Except.toOption do
      (env.tokens.claimsShape claims).mapError AdmissionError.policy
      pure (.token claims.columns)
  | _ => none

/-! ## Tables over time -/

/-- The four tables are as they were. -/
structure SameTables (db db' : Database) : Prop where
  signingKeys : db'.signingKeys = db.signingKeys
  scannerKeys : db'.scannerKeys = db.scannerKeys
  entitlements : db'.entitlements = db.entitlements
  tokens : db'.tokens = db.tokens

theorem SameTables.refl (db : Database) : SameTables db db := ⟨rfl, rfl, rfl, rfl⟩

/-- The rows of the four tables are still there, in the columns that no statement
updates. -/
structure Extends (db db' : Database) : Prop where
  signingKeys : db.signingKeys <+: db'.signingKeys
  scannerKeys : db.scannerKeys <+: db'.scannerKeys
  entitlements : db.entitlements.map (·.toEntitlementFixed) <+:
    db'.entitlements.map (·.toEntitlementFixed)
  tokens : db.tokens.map (·.toTokenFixed) <+: db'.tokens.map (·.toTokenFixed)

namespace Extends

theorem refl (db : Database) : Extends db db :=
  ⟨List.prefix_refl _, List.prefix_refl _, List.prefix_refl _, List.prefix_refl _⟩

theorem trans (h : Extends db db') (h' : Extends db' db'') : Extends db db'' :=
  ⟨h.signingKeys.trans h'.signingKeys, h.scannerKeys.trans h'.scannerKeys,
    h.entitlements.trans h'.entitlements, h.tokens.trans h'.tokens⟩

theorem of_sameTables (h : SameTables db db') : Extends db db' where
  signingKeys := h.signingKeys ▸ List.prefix_refl _
  scannerKeys := h.scannerKeys ▸ List.prefix_refl _
  entitlements := h.entitlements ▸ List.prefix_refl _
  tokens := h.tokens ▸ List.prefix_refl _

/-- What is bound stays bound. -/
theorem binding (h : Extends db db') {key : Key} {b : Binding} (hb : db.binding key = some b) :
    db'.binding key = some b := by
  cases key with
  | signingKey keyId =>
      obtain ⟨row, hrow, rfl⟩ := Option.map_eq_some_iff.mp hb
      exact Option.map_eq_some_iff.mpr ⟨row, lookup_of_prefix h.signingKeys hrow, rfl⟩
  | scannerKey scannerId keyId =>
      obtain ⟨row, hrow, rfl⟩ := Option.map_eq_some_iff.mp hb
      exact Option.map_eq_some_iff.mpr ⟨row, lookup_of_prefix h.scannerKeys hrow, rfl⟩
  | entitlement ticketId =>
      obtain ⟨e, he, rfl⟩ := Option.map_eq_some_iff.mp hb
      have hkey : ∀ e : EntitlementRow, e.toEntitlementFixed.ticketId = e.ticketId := fun _ => rfl
      obtain ⟨e', he', hsame⟩ := exists_lookup_of_prefix hkey h.entitlements he
      exact Option.map_eq_some_iff.mpr ⟨e', he', congrArg EntitlementFixed.binding hsame⟩
  | token tokenId =>
      obtain ⟨t, ht, rfl⟩ := Option.map_eq_some_iff.mp hb
      have hkey : ∀ t : TokenRow, t.toTokenFixed.tokenId = t.tokenId := fun _ => rfl
      obtain ⟨t', ht', hsame⟩ := exists_lookup_of_prefix hkey h.tokens ht
      exact Option.map_eq_some_iff.mpr ⟨t', ht', congrArg Binding.token hsame⟩

end Extends

/-- A revocation keeps the other columns of its rows. -/
theorem entitlements_revoke (ticketId : Uuid) (r : Revocation) :
    (db.revoke ticketId r).entitlements.map (·.toEntitlementFixed) =
      db.entitlements.map (·.toEntitlementFixed) := by
  rw [Database.revoke, List.map_map]
  refine List.map_congr_left fun e _ => ?_
  show EntitlementRow.toEntitlementFixed (if _ then _ else _) = _
  split
  · rfl
  · rfl

theorem tokens_revoke (ticketId : Uuid) (r : Revocation) :
    (db.revoke ticketId r).tokens.map (·.toTokenFixed) = db.tokens.map (·.toTokenFixed) := by
  rw [Database.revoke, List.map_map]
  refine List.map_congr_left fun t _ => ?_
  show TokenRow.toTokenFixed (if _ then _ else _) = _
  split
  · rfl
  · rfl

theorem extends_revoke (ticketId : Uuid) (r : Revocation) : Extends db (db.revoke ticketId r) where
  signingKeys := List.prefix_refl _
  scannerKeys := List.prefix_refl _
  entitlements := entitlements_revoke ticketId r ▸ List.prefix_refl _
  tokens := tokens_revoke ticketId r ▸ List.prefix_refl _

/-- No statement removes a row or changes a bound field. -/
theorem extends_of_change {q : Query α} (h : Change procedures db q db') : Extends db db' := by
  cases h with
  | signingKey row =>
      exact ⟨prefix_insertBound, List.prefix_refl _, List.prefix_refl _, List.prefix_refl _⟩
  | scannerKey row =>
      exact ⟨List.prefix_refl _, prefix_insertBound, List.prefix_refl _, List.prefix_refl _⟩
  | entitlement hpaid =>
      exact ⟨List.prefix_refl _, List.prefix_refl _, prefix_insertBound.map _, List.prefix_refl _⟩
  | token hbacking =>
      exact ⟨List.prefix_refl _, List.prefix_refl _, List.prefix_refl _, prefix_insertBound.map _⟩
  | revocation hanswer => exact extends_revoke _ _
  | _ => exact Extends.of_sameTables ⟨rfl, rfl, rfl, rfl⟩

/-- A statement that fails changes none of the four tables. -/
theorem sameTables_fail (q : Query α) : SameTables db (q.fail db) := by
  cases q with
  | recordReceipt n call => exact ⟨rfl, rfl, rfl, rfl⟩
  | _ => exact SameTables.refl db

theorem extends_stmt {β : Type} (st : Stmt β) (x : Option String) (b : β)
    (h : st.exec procedures x db = some (b, db')) : Extends db db' := by
  obtain ⟨q⟩ := st
  exact extends_of_change (change_stmt h)

theorem sameTables_enter (r : Role) : SameTables db (db.enter r) := by
  cases r with
  | request n q => exact ⟨rfl, rfl, rfl, rfl⟩

/-- No run removes a row of the four tables or changes a bound field. -/
theorem Extends.of_reaches {p p' : Pool Stmt Role Outcome Database}
    (h : Pool.Reaches (admission env) p p') : Extends p.shared p'.shared := by
  obtain ⟨ls, hrun⟩ := h
  exact Pool.run_rel Extends.refl Extends.trans (fun st x db b db' h => extends_stmt st x b h)
    (fun r db => Extends.of_sameTables (sameTables_enter r)) hrun

/-! ## The statement of a registration -/

/-- What the statement of a registration of `b` does.  It returns a row only if the id is
then bound as asked, and if the id was bound before or no row is returned, nothing
changes. -/
structure Inserted (db db' : Database) (b : Binding) (returned : Bool) : Prop where
  bound : returned = true → db'.binding b.key = some b
  same : returned = true → ∀ b', db.binding b.key = some b' → b' = b ∧ SameTables db db'
  refused : returned = false → SameTables db db'

namespace Inserted

variable {b : Binding} {returned : Bool}

/-- The id is new. -/
theorem of_new (hnew : db.binding b.key = none) (hbound : db'.binding b.key = some b) :
    Inserted db db' b true := by
  refine ⟨fun _ => hbound, fun _ b' hb' => ?_, fun h => Bool.noConfusion h⟩
  rw [hnew] at hb'
  cases hb'

/-- The id is bound, and a row is returned only if it is bound as asked. -/
theorem of_bound {b' : Binding} (hbound : db.binding b.key = some b')
    (hsame : returned = true → b' = b) : Inserted db db b returned := by
  refine ⟨fun h => hsame h ▸ hbound, fun h b'' hb'' => ?_, fun _ => SameTables.refl db⟩
  obtain rfl := Option.some.inj (hbound.symm.trans hb'')
  exact ⟨hsame h, SameTables.refl db⟩

/-- No row is returned. -/
theorem of_refused (b : Binding) : Inserted db db b false :=
  ⟨fun h => Bool.noConfusion h, fun h => Bool.noConfusion h, fun _ => SameTables.refl db⟩

end Inserted

/-- The statement registers `b`. -/
def Inserts (procedures : Procedures) (q : Query (Option α)) (b : Binding) : Prop :=
  ∀ db, ∃ row, (q.exec procedures db).1 = .ok row ∧
    Inserted db (q.exec procedures db).2 b row.isSome

theorem inserts_signingKey (row : SigningKeyRow) :
    Inserts procedures (.insertSigningKey row) (.signingKey row) := by
  intro db
  refine ⟨_, rfl, ?_⟩
  rw [isSome_returning]
  let inserted := insertBound SigningKeyRow.keyId (fun old => old = row) row db.signingKeys
  show Inserted db { db with signingKeys := inserted.2 } _ inserted.1
  rcases insertBound_cases SigningKeyRow.keyId (fun old => old = row) row db.signingKeys with
    ⟨hnew, heq⟩ | ⟨old, hold, heq⟩
  · rw [show inserted = _ from heq]
    have hfound := lookup_concat hnew
    exact Inserted.of_new (congrArg (Option.map _) hnew) (congrArg (Option.map _) hfound)
  · rw [show inserted = _ from heq]
    refine Inserted.of_bound (congrArg (Option.map _) hold) fun h => ?_
    exact congrArg Binding.signingKey (of_decide_eq_true h)

theorem inserts_scannerKey (row : ScannerKeyRow) :
    Inserts procedures (.insertScannerKey row) (.scannerKey row) := by
  intro db
  refine ⟨_, rfl, ?_⟩
  rw [isSome_returning]
  let inserted := insertBound (fun k : ScannerKeyRow => (k.scannerId, k.keyId))
    (fun old => old = row) row db.scannerKeys
  show Inserted db { db with scannerKeys := inserted.2 } _ inserted.1
  rcases insertBound_cases (fun k : ScannerKeyRow => (k.scannerId, k.keyId))
      (fun old => old = row) row db.scannerKeys with ⟨hnew, heq⟩ | ⟨old, hold, heq⟩
  · rw [show inserted = _ from heq]
    have hfound := lookup_concat hnew
    exact Inserted.of_new (congrArg (Option.map _) hnew) (congrArg (Option.map _) hfound)
  · rw [show inserted = _ from heq]
    refine Inserted.of_bound (congrArg (Option.map _) hold) fun h => ?_
    exact congrArg Binding.scannerKey (of_decide_eq_true h)

theorem inserts_entitlement (fixed : EntitlementFixed) :
    Inserts procedures (.insertEntitlement fixed) fixed.binding := by
  intro db
  refine ⟨_, rfl, ?_⟩
  rw [isSome_returning]
  show Inserted db (db.insertEntitlement fixed).2 _ (db.insertEntitlement fixed).1
  unfold Database.insertEntitlement
  cases hpaid : db.paidOrder fixed.orderId fixed.eventId with
  | none => exact Inserted.of_refused _
  | some order =>
      dsimp only
      rcases insertBound_cases (fun e : EntitlementRow => e.ticketId)
        (fun old => old.orderId = fixed.orderId ∧ old.eventId = fixed.eventId ∧
          old.issuanceEpoch = fixed.issuanceEpoch) (Database.newEntitlement fixed)
            db.entitlements with ⟨hnew, heq⟩ | ⟨old, hold, heq⟩
      · rw [heq]
        exact Inserted.of_new (congrArg (Option.map _) hnew)
          (congrArg (Option.map _) (lookup_concat hnew))
      · rw [heq]
        refine Inserted.of_bound (congrArg (Option.map _) hold) fun h => ?_
        obtain ⟨horder, hevent, hepoch⟩ := of_decide_eq_true h
        have hticket : old.ticketId = fixed.ticketId := ticketId_of_entitlement hold
        show Binding.entitlement old.ticketId old.orderId old.eventId old.issuanceEpoch = _
        rw [hticket, horder, hevent, hepoch]
        rfl

theorem inserts_token (fixed : TokenFixed) :
    Inserts procedures (.insertToken fixed) (.token fixed) := by
  intro db
  refine ⟨_, rfl, ?_⟩
  rw [isSome_returning]
  show Inserted db (db.insertToken fixed).2 _ (db.insertToken fixed).1
  cases hbacking : db.backing fixed with
  | none =>
      unfold Database.insertToken
      rw [hbacking]
      exact Inserted.of_refused _
  | some found =>
      rw [insertToken_of_backing hbacking]
      rcases insertBound_cases (fun t : TokenRow => t.tokenId)
        (fun old => old.toTokenFixed = fixed) { fixed with revokedAt := none } db.tokens with
          ⟨hnew, heq⟩ | ⟨old, hold, heq⟩
      · rw [heq]
        exact Inserted.of_new (congrArg (Option.map _) hnew)
          (congrArg (Option.map _) (lookup_concat hnew))
      · rw [heq]
        refine Inserted.of_bound (congrArg (Option.map _) hold) fun h => ?_
        exact congrArg Binding.token (of_decide_eq_true h)

/-! ## Calls -/

/-- The outcome of a registration after the answer of its statement. -/
def answered (refusal : AdmissionError) : Except String (Option α) → Outcome
  | .error e => .error (.database e)
  | .ok none => .error refusal
  | .ok (some _) => .ok .done

/-- A program that ends after the answer of its statement. -/
theorem step_eq {st : Query (Option α)} {refusal : AdmissionError}
    {k : Except String (Option α) → Prog Stmt Role Outcome Outcome}
    (herror : ∀ e, k (.error e) = .pure (.error (.database e)))
    (hnone : k (.ok none) = .pure (.error refusal))
    (hsome : ∀ a, k (.ok (some a)) = .pure (.ok .done)) :
    Prog.step (.query st) k = .step (.query st) fun r => .pure (answered refusal r) := by
  refine congrArg (Prog.step _) (funext fun r => ?_)
  rcases r with e | ⟨_ | a⟩
  · exact herror e
  · exact hnone
  · exact hsome a

/-- A registration is refused for its arguments, or it executes one statement, which
registers what it asks for. -/
theorem registration_cases (env : Deployment SigningKey VerifyingKey) (n : ℕ) {q : Request}
    {key : Key} (hkey : q.key = some key) :
    ((∃ e, (handle env n q).run = .pure (.error e)) ∧ q.asked env = none) ∨
      ∃ (β : Type) (st : Query (Option β)) (b : Binding) (refusal : AdmissionError),
        q.asked env = some b ∧ b.key = key ∧ Inserts env.procedures st b ∧
          (handle env n q).run = .step (.query st) fun r => .pure (answered refusal r) := by
  cases q with
  | registerSigningKey descriptor =>
      -- the descriptor is checked and decoded before the statement
      obtain rfl := Option.some.inj hkey
      rw [Request.asked, handle, registerSigningKey]
      cases validateDescriptor env.ed descriptor with
      | error e => exact Or.inl ⟨⟨e, rfl⟩, rfl⟩
      | ok u =>
          cases decodeBytes 32 descriptor.publicKey with
          | error e => exact Or.inl ⟨⟨e, rfl⟩, rfl⟩
          | ok publicKey =>
              exact Or.inr ⟨_, _, _, _, rfl, rfl, inserts_signingKey _,
                step_eq (fun _ => rfl) rfl fun _ => rfl⟩
  | registerScannerKey scannerId keyId publicKey activeFrom retireAt =>
      obtain rfl := Option.some.inj hkey
      rw [Request.asked, handle, registerScannerKey]
      cases refuseIf (trimIsEmpty keyId ∨ retireAt ≤ activeFrom)
        (AdmissionError.policy "invalid scanner verification key window") with
      | error e => exact Or.inl ⟨⟨e, rfl⟩, rfl⟩
      | ok u =>
          cases decodeBytes 32 publicKey with
          | error e => exact Or.inl ⟨⟨e, rfl⟩, rfl⟩
          | ok publicKey =>
              exact Or.inr ⟨_, _, _, _, rfl, rfl, inserts_scannerKey _,
                step_eq (fun _ => rfl) rfl fun _ => rfl⟩
  | registerEntitlement ticketId orderId eventId issuanceEpoch now =>
      -- nothing is checked before the statement
      obtain rfl := Option.some.inj hkey
      exact Or.inr ⟨_, _, _, _, rfl, rfl, inserts_entitlement
        { ticketId, orderId, eventId, issuanceEpoch, createdAt := timestamptz now },
          step_eq (fun _ => rfl) rfl fun _ => rfl⟩
  | registerToken claims =>
      obtain rfl := Option.some.inj hkey
      rw [Request.asked, handle, registerToken]
      cases (env.tokens.claimsShape claims).mapError AdmissionError.policy with
      | error e => exact Or.inl ⟨⟨e, rfl⟩, rfl⟩
      | ok u =>
          exact Or.inr ⟨_, _, _, _, rfl, rfl, inserts_token _,
            step_eq (fun _ => rfl) rfl fun _ => rfl⟩
  | _ => cases hkey

/-- What a registration that ends with the outcome `o` has done. -/
structure Honours (env : Deployment SigningKey VerifyingKey) (q : Request) (key : Key)
    (o : Outcome) (db db' : Database) : Prop where
  bound : ∀ reply, o = .ok reply → ∃ b, q.asked env = some b ∧ db'.binding key = some b
  repeated : ∀ reply b, o = .ok reply → db.binding key = some b →
    q.asked env = some b ∧ SameTables db db'
  differing : ∀ b, db.binding key = some b → q.asked env ≠ some b → ∃ e, o = .error e
  failed : ∀ e, o = .error e → SameTables db db'

/-- The statement of a registration ends it. -/
theorem Inserts.honours {q : Request} {st : Query (Option α)} {b : Binding}
    {refusal : AdmissionError} {x : Option String} {r : Except String (Option α)}
    (h : Inserts env.procedures st b) (hasked : q.asked env = some b)
    (hexec : (Stmt.query st).exec env.procedures x db = some (r, db')) :
    Honours env q b.key (answered refusal r) db db' := by
  have hfailed : ∀ {e}, SameTables db db' → Honours env q b.key (.error e) db db' := fun htables =>
    ⟨fun _ ho => (by cases ho), fun _ _ ho => (by cases ho), fun _ _ _ => ⟨_, rfl⟩,
      fun _ _ => htables⟩
  cases x with
  | some e =>
      obtain ⟨rfl, rfl⟩ := Prod.mk.inj (Option.some.inj hexec)
      exact hfailed (sameTables_fail st)
  | none =>
      have hpair : st.exec env.procedures db = (r, db') := Option.some.inj hexec
      obtain ⟨row, hrow, hinserted⟩ := h db
      rw [hpair] at hrow hinserted
      obtain rfl : r = .ok row := hrow
      cases row with
      | none => exact hfailed (hinserted.refused rfl)
      | some a =>
          refine ⟨fun _ _ => ⟨b, hasked, hinserted.bound rfl⟩, fun _ b' _ hb' => ?_,
            fun b' hb' hne => ?_, fun _ ho => (by cases ho)⟩
          · obtain ⟨rfl, htables⟩ := hinserted.same rfl b' hb'
            exact ⟨hasked, htables⟩
          · obtain ⟨rfl, -⟩ := hinserted.same rfl b' hb'
            exact absurd hasked hne

/-! ## Runs -/

/-- A registration has yet to do its statement or has ended, and if it has ended with
`Ok`, its id is bound as asked. -/
def Registers (env : Deployment SigningKey VerifyingKey) (db : Database) :
    Thread Stmt Role Outcome → Prop
  | ⟨.request n q, prog⟩ => ∀ key, q.key = some key → prog = (handle env n q).run ∨
      ∃ o, prog = .pure o ∧
        ∀ reply, o = .ok reply → ∃ b, q.asked env = some b ∧ db.binding key = some b

theorem Registers.mono {t : Thread Stmt Role Outcome} (hextends : Extends db db')
    (h : Registers env db t) : Registers env db' t := by
  obtain ⟨⟨n, q⟩, prog⟩ := t
  intro key hkey
  rcases h key hkey with hprog | ⟨o, hprog, ho⟩
  · exact Or.inl hprog
  · refine Or.inr ⟨o, hprog, fun reply hreply => ?_⟩
    obtain ⟨b, hasked, hb⟩ := ho reply hreply
    exact ⟨b, hasked, hextends.binding hb⟩

/-- A statement of a registration ends it. -/
theorem exists_honours {β : Type} {n : ℕ} {q : Request} {key : Key} {st : Stmt β}
    {k : β → Prog Stmt Role Outcome Outcome} {x : Option String} {b : β}
    (h : Registers env db ⟨.request n q, .step st k⟩) (hkey : q.key = some key)
    (hexec : st.exec env.procedures x db = some (b, db')) :
    ∃ o, k b = .pure o ∧ Honours env q key o db db' := by
  rcases h key hkey with hprog | ⟨o, hprog, -⟩
  · rcases registration_cases env n hkey with
      ⟨⟨e, hrun⟩, -⟩ | ⟨γ, st', b', refusal, hasked, rfl, hins, hrun⟩
    · rw [hrun] at hprog
      cases hprog
    · rw [hrun] at hprog
      cases hprog
      exact ⟨_, rfl, hins.honours hasked hexec⟩
  · cases hprog

/-- No call starts another one. -/
theorem quiet_handle (n : ℕ) (q : Request) : (handle env n q).run.Every fun _ => True := by
  refine only_handle ?_
  cases q with
  | registerSigningKey => exact fun _ _ _ => trivial
  | registerScannerKey => exact fun _ _ => trivial
  | recordReceipt => exact ⟨trivial, trivial, fun _ => trivial⟩
  | _ => trivial

/-- Registrations execute their statement and end. -/
theorem upheld_registers :
    Upheld (admission env) fun db t => Registers env db t ∧ t.prog.Every fun _ => True := by
  refine Upheld.of_every (fun q db => quiet_handle _ q) (fun {_ r st k x db b db'} h hexec => ?_)
    (fun q db key hkey => Or.inl rfl) (fun hexec h => h.mono (extends_stmt _ _ _ hexec))
    (fun h => h.mono (Extends.of_sameTables (sameTables_enter _)))
  obtain ⟨n, q⟩ := r
  intro key hkey
  obtain ⟨o, ho, hhonours⟩ := exists_honours h hkey hexec
  exact Or.inr ⟨o, ho, hhonours.bound⟩

variable {db₀ : Database} {p p' : Pool Stmt Role Outcome Database}

theorem registers_of_reaches (hreach : Pool.Reaches (admission env) ⟨db₀, []⟩ p) {i : ℕ}
    {t : Thread Stmt Role Outcome} (ht : p.threads[i]? = some t) : Registers env p.shared t :=
  (upheld_registers.of_reaches hreach ht).1

/-- A registration that has ended with `Ok` has bound its id as asked. -/
theorem bound_of_ended (hreach : Pool.Reaches (admission env) ⟨db₀, []⟩ p) {i n : ℕ} {q : Request}
    {key : Key} {reply : Reply} (ht : p.threads[i]? = some ⟨.request n q, .pure (.ok reply)⟩)
    (hkey : q.key = some key) : ∃ b, q.asked env = some b ∧ p.shared.binding key = some b := by
  rcases registers_of_reaches hreach ht key hkey with hprog | ⟨o, hprog, hb⟩
  · rcases registration_cases env n hkey with ⟨⟨e, hrun⟩, -⟩ | ⟨β, st, b, refusal, -, -, -, hrun⟩
    · rw [hrun] at hprog
      cases hprog
    · rw [hrun] at hprog
      cases hprog
  · cases hprog
    exact hb reply rfl

/-- Registrations are immutable and idempotent.  In every run of the service, with
revocations, receipts and changes of orders at any point:

* no row of the four tables is removed, no bound field changes, and what an id is bound to
  it stays bound to for the rest of the run;
* the turn of a registration ends it.  If it returns `Ok`, the id is bound as asked, and if
  the id was bound before, it was bound so and the tables do not change; if the id was bound
  otherwise, the call returns `Err`; and if it returns `Err`, the tables do not change;
* the arrival of a call does not change the tables, and a registration that ends on
  arrival returns `Err`. -/
theorem registrations_immutable {l : Label (Option String) Request}
    (hreach : Pool.Reaches (admission env) ⟨db₀, []⟩ p)
    (hact : p.act (admission env) l = some p') :
    (∀ p'', Pool.Reaches (admission env) p p'' → Extends p.shared p''.shared ∧
      ∀ key b, p.shared.binding key = some b → p''.shared.binding key = some b) ∧
    (∀ i x n q key prog, l = .turn i x → p.threads[i]? = some ⟨.request n q, prog⟩ →
      q.key = some key → ∃ o, p'.threads[i]? = some ⟨.request n q, .pure o⟩ ∧
        Honours env q key o p.shared p'.shared) ∧
    ∀ q, l = .arrive q → SameTables p.shared p'.shared ∧
      ∃ n prog, p'.threads = p.threads ++ [⟨.request n q, prog⟩] ∧
        ∀ key o, q.key = some key → prog = .pure o → ∃ e, o = .error e := by
  refine ⟨fun p'' hlater => ?_, ?_, ?_⟩
  · have hextends := Extends.of_reaches hlater
    exact ⟨hextends, fun key b hb => hextends.binding hb⟩
  · rintro i x n q key prog rfl ht hkey
    obtain ⟨t, ht', hturn⟩ := Option.bind_eq_some_iff.mp hact
    obtain rfl := Option.some.inj (ht.symm.trans ht')
    have hregisters := registers_of_reaches hreach ht
    have hlt : i < p.threads.length := (List.getElem?_eq_some_iff.mp ht).1
    cases prog with
    | pure o => cases hturn
    | fork r child k => exact (upheld_registers.of_reaches hreach ht).2.elim
    | step st k =>
        obtain ⟨⟨b, db'⟩, hexec, rfl⟩ := Option.map_eq_some_iff.mp hturn
        obtain ⟨o, ho, hhonours⟩ := exists_honours hregisters hkey hexec
        -- the turn replaces the program by its end
        refine ⟨o, ?_, hhonours⟩
        rw [← ho]
        exact List.getElem?_set_self hlt
  · rintro q rfl
    obtain rfl := Option.some.inj hact
    refine ⟨sameTables_enter _, _, _, rfl, fun key o hkey ho => ?_⟩
    change (handle env _ q).run = _ at ho
    -- a registration that ends on arrival has failed a check
    rcases registration_cases env p.shared.requests.length hkey with
      ⟨⟨e, hrun⟩, -⟩ | ⟨β, st, b, refusal, -, -, -, hrun⟩
    · rw [hrun] at ho
      cases ho
      exact ⟨e, rfl⟩
    · rw [hrun] at ho
      cases ho

/-- A ticket that is registered for the first epoch is not registered for the second one. -/
theorem registrations_immutable_sample :
    ∃ p p' e, Pool.run (admission Sample.deployment) ⟨Sample.noRows, []⟩
        (Sample.registered ++ [.arrive (.registerEntitlement 8 9 7 2 0)]) = some p ∧
      p.act (admission Sample.deployment) (.turn 5 none) = some p' ∧
      p'.threads[5]? = some ⟨.request 5 (.registerEntitlement 8 9 7 2 0), .pure (.error e)⟩ ∧
      SameTables p.shared p'.shared := by
  have hview : (Pool.run (admission Sample.deployment) ⟨Sample.noRows, []⟩
      (Sample.registered ++ [.arrive (.registerEntitlement 8 9 7 2 0)])).map
        (fun p => (p.threads[5]?.map (·.role), p.shared.binding (.entitlement 8),
          (p.act (admission Sample.deployment) (.turn 5 none)).isSome)) =
      some (some (.request 5 (.registerEntitlement 8 9 7 2 0)), some (.entitlement 8 9 7 1),
        true) := by
    decide +kernel
  obtain ⟨p, hp, hview⟩ := Option.map_eq_some_iff.mp hview
  obtain ⟨hrole, hrest⟩ := Prod.mk.inj hview
  obtain ⟨hbound, hact⟩ := Prod.mk.inj hrest
  obtain ⟨⟨r, prog⟩, ht, rfl⟩ := Option.map_eq_some_iff.mp hrole
  obtain ⟨p', hp'⟩ := Option.isSome_iff_exists.mp hact
  obtain ⟨o, ho, hhonours⟩ := (registrations_immutable ⟨_, hp⟩ hp').2.1 5 none 5 _ _ prog rfl ht rfl
  obtain ⟨e, rfl⟩ := hhonours.differing _ hbound (by decide)
  exact ⟨p, p', e, hp, hp', ho, hhonours.failed e rfl⟩

end Admission
