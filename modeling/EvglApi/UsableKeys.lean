/-
# Registered keys are usable

`register_signing_key` stores a key only if it is a verification key.
`register_scanner_key` stores any 32 bytes, and what it has stored is bound for good.

`keys_usable_iff`: the stored keys are usable in every state of a run exactly if every
insertion of a scanner key that binds a new id has the bytes of a verification key.
-/
import EvglApi.Registrations

open Concurrency Fallible Keyed Tries

namespace Admission

variable {SigningKey VerifyingKey : Type} {env : Deployment SigningKey VerifyingKey}
  {procedures : Procedures} {db db' db₀ : Database} {α : Type}

/-! ## Usable keys -/

/-- The key that is read back from a column is a verification key. -/
def Usable (ed : Ed25519 SigningKey VerifyingKey) (publicKey : FixedBytes 32) : Prop :=
  ∃ vk, decodeVerifyingKey ed (encodeText publicKey.val) = .ok vk

theorem usable_iff {ed : Ed25519 SigningKey VerifyingKey} {publicKey : FixedBytes 32} :
    Usable ed publicKey ↔ (ed.fromBytes publicKey).isSome = true := by
  unfold Usable decodeVerifyingKey
  rw [decodeBytes_encodeText, Option.isSome_iff_exists]
  refine exists_congr fun vk => ?_
  rw [ok_bind, okOr_eq_ok]

/-- A receipt is malformed by itself. -/
def MalformedReceipt (fmt : ReceiptFormat) (receipt : SignedScanReceipt) : Prop :=
  (∃ e, fmt.claimsShape receipt.claims = .error e) ∨
    decodeSignature receipt.signature = .error .malformed ∨ fmt.toVec receipt.claims = none

/-- Every stored key is a verification key, and a receipt is not refused as malformed
because of the key it is checked with. -/
structure KeysUsable (env : Deployment SigningKey VerifyingKey) (db : Database) : Prop where
  signingKeys : ∀ row ∈ db.signingKeys, Usable env.ed row.publicKey
  scannerKeys : ∀ row ∈ db.scannerKeys, Usable env.ed row.publicKey
  receipts : ∀ receipt key, db.scannerKey receipt.claims.scannerId receipt.claims.scannerKeyId
      (timestamptz receipt.claims.scannedAt) = some key →
    verifyScanReceipt env.ed env.receipts receipt (encodeText key.publicKey.val) =
      .error .malformed → MalformedReceipt env.receipts receipt

/-- A receipt that is malformed with a usable key is malformed by itself. -/
theorem malformedReceipt_of_verify {ed : Ed25519 SigningKey VerifyingKey} {fmt : ReceiptFormat}
    {receipt : SignedScanReceipt} {publicKey : FixedBytes 32} (hkey : Usable ed publicKey)
    (h : verifyScanReceipt ed fmt receipt (encodeText publicKey.val) = .error .malformed) :
    MalformedReceipt fmt receipt := by
  obtain ⟨vk, hvk⟩ := hkey
  unfold verifyScanReceipt at h
  rcases bind_eq_error.mp h with h | ⟨-, -, h⟩
  · obtain ⟨e, he, -⟩ := mapError_eq_error.mp h
    exact Or.inl ⟨e, he⟩
  · rw [hvk, ok_bind] at h
    rcases bind_eq_error.mp h with h | ⟨signature, -, h⟩
    · exact Or.inr (Or.inl h)
    · rcases bind_eq_error.mp h with h | ⟨payload, -, h⟩
      · exact Or.inr (Or.inr (okOr_eq_error.mp h).1)
      · cases (refuseIf_eq_error.mp h).2

/-- Usable keys in the tables are all that is needed. -/
theorem KeysUsable.of_rows (hsigning : ∀ row ∈ db.signingKeys, Usable env.ed row.publicKey)
    (hscanner : ∀ row ∈ db.scannerKeys, Usable env.ed row.publicKey) : KeysUsable env db := by
  refine ⟨hsigning, hscanner, fun receipt key hkey h => ?_⟩
  have hmem : key ∈ db.scannerKeys := (found hkey).1
  exact malformedReceipt_of_verify (hscanner key hmem) h

/-! ## Statements -/

/-- A signing key that is inserted is a verification key. -/
def Stmt.Sound (ed : Ed25519 SigningKey VerifyingKey) {β : Type} : Stmt β → Prop
  | .query (.insertSigningKey row) => Usable ed row.publicKey
  | _ => True

/-- The statement binds no new scanner key id to bytes that are no verification key. -/
def Query.bindsUsable (ed : Ed25519 SigningKey VerifyingKey) {β : Type} :
    Query β → Database → Bool
  | .insertScannerKey row, db =>
      (lookup (fun k => (k.scannerId, k.keyId)) db.scannerKeys (row.scannerId, row.keyId)).isSome ||
        (ed.fromBytes row.publicKey).isSome
  | _, _ => true

/-- The turn binds no new scanner key id to bytes that are no verification key. -/
def bindsUsable (ed : Ed25519 SigningKey VerifyingKey) (t : Thread Stmt Role Outcome)
    (x : Option String) (db : Database) : Bool :=
  match t, x with
  | ⟨_, .step (.query q) _⟩, none => q.bindsUsable ed db
  | _, _ => true

/-- The keys after a statement. -/
theorem keysUsable_of_change {q : Query α} (h : KeysUsable env db)
    (hchange : Change procedures db q db') (hsound : (Stmt.query q).Sound env.ed)
    (hbinds : q.bindsUsable env.ed db = true) : KeysUsable env db' := by
  cases hchange with
  | signingKey row =>
      refine KeysUsable.of_rows (fun key hkey => ?_) h.scannerKeys
      rcases mem_of_mem_insertBound hkey with hkey | rfl
      · exact h.signingKeys key hkey
      · exact hsound
  | scannerKey row =>
      refine KeysUsable.of_rows h.signingKeys fun key hkey => ?_
      rcases insertBound_cases (fun k : ScannerKeyRow => (k.scannerId, k.keyId))
          (fun old => old = row) row db.scannerKeys with ⟨hnew, heq⟩ | ⟨old, -, heq⟩
      · rw [heq] at hkey
        rcases List.mem_append.mp hkey with hkey | hkey
        · exact h.scannerKeys key hkey
        · obtain rfl := List.mem_singleton.mp hkey
          -- the id was not bound, so the statement is excused by its bytes alone
          refine usable_iff.mpr ((Bool.or_eq_true_iff.mp hbinds).resolve_left fun hbound => ?_)
          rw [hnew] at hbound
          cases hbound
      · rw [heq] at hkey
        exact h.scannerKeys key hkey
  | _ => exact KeysUsable.of_rows h.signingKeys h.scannerKeys

theorem keysUsable_fail {q : Query α} (h : KeysUsable env db) : KeysUsable env (q.fail db) := by
  have htables : SameTables db (q.fail db) := sameTables_fail q
  refine KeysUsable.of_rows (fun row hrow => ?_) fun row hrow => ?_
  · rw [htables.signingKeys] at hrow
    exact h.signingKeys row hrow
  · rw [htables.scannerKeys] at hrow
    exact h.scannerKeys row hrow

/-! ## Calls -/

/-- `register_signing_key` has checked the key it inserts. -/
theorem sound_handle (n : ℕ) (q : Request) : Only (Stmt.Sound env.ed) (handle env n q) := by
  refine only_handle ?_
  cases q with
  | registerSigningKey descriptor =>
      intro publicKey hvalid hbytes
      obtain ⟨-, vk, hvk⟩ := validateDescriptor_eq_ok_iff.mp hvalid
      unfold decodeVerifyingKey at hvk
      rw [hbytes, ok_bind, okOr_eq_ok] at hvk
      show Usable env.ed publicKey
      rw [usable_iff, hvk]
      rfl
  | registerScannerKey => exact fun _ _ => trivial
  | recordReceipt => exact ⟨trivial, trivial, fun _ => trivial⟩
  | _ => trivial

theorem upheld_sound :
    Upheld (admission env) fun _ t => t.prog.Every (Stmt.Sound env.ed) :=
  Upheld.every fun q db => sound_handle db.requests.length q

variable {p p' : Pool Stmt Role Outcome Database} {l : Label (Option String) Request}
  {ls : List (Label (Option String) Request)}

/-- A step keeps the keys usable if it binds no new id to other bytes. -/
theorem keysUsable_act (h : KeysUsable env p.shared)
    (hreach : Pool.Reaches (admission env) ⟨db₀, []⟩ p)
    (hmeets : p.meets (admission env) (bindsUsable env.ed) [l] = true)
    (hact : p.act (admission env) l = some p') : KeysUsable env p'.shared := by
  cases l with
  | arrive q =>
      obtain rfl := Option.some.inj hact
      exact KeysUsable.of_rows h.signingKeys h.scannerKeys
  | turn i x =>
      have hl := (Bool.and_eq_true_iff.mp hmeets).1
      obtain ⟨⟨r, prog⟩, ht, hturn⟩ := Option.bind_eq_some_iff.mp hact
      change p.threads[i]?.all (fun t => bindsUsable env.ed t x p.shared) = true at hl
      rw [ht] at hl
      -- a signing key was checked before its statement
      have hsound : prog.Every (Stmt.Sound env.ed) := upheld_sound.of_reaches hreach ht
      cases prog with
      | pure o => cases hturn
      | fork r' child k => exact hsound.elim
      | step st k =>
          obtain ⟨q⟩ := st
          obtain ⟨⟨b, db'⟩, hexec, rfl⟩ := Option.map_eq_some_iff.mp hturn
          cases x with
          | some e =>
              obtain ⟨-, rfl⟩ := Prod.mk.inj (Option.some.inj hexec)
              exact keysUsable_fail h
          | none =>
              have hstep : (Stmt.query q).exec env.procedures none p.shared = some (b, db') := hexec
              exact keysUsable_of_change h (change_stmt hstep) hsound.1 hl

/-- The keys are usable after a run that binds no new id to other bytes. -/
theorem keysUsable_run (h : KeysUsable env p.shared)
    (hreach : Pool.Reaches (admission env) ⟨db₀, []⟩ p)
    (hmeets : p.meets (admission env) (bindsUsable env.ed) ls = true)
    (hrun : p.run (admission env) ls = some p') : KeysUsable env p'.shared := by
  induction ls generalizing p with
  | nil =>
      obtain rfl := Option.some.inj hrun
      exact h
  | cons l ls ih =>
      obtain ⟨p₁, hact, hrest⟩ := Option.bind_eq_some_iff.mp hrun
      have hl : p.meets (admission env) (bindsUsable env.ed) [l] = true :=
        Pool.meets_of_append (show p.meets _ _ ([l] ++ ls) = true from hmeets)
      have hls := (Bool.and_eq_true_iff.mp hmeets).2
      rw [hact] at hls
      exact ih (keysUsable_act h hreach hl hact) (hreach.trans (Pool.Reaches.act hact)) hls hrest

/-- An insertion that binds a new id to other bytes leaves an unusable key. -/
theorem exists_unusable {t : Thread Stmt Role Outcome} {i : ℕ} {x : Option String}
    (ht : p.threads[i]? = some t) (hbinds : bindsUsable env.ed t x p.shared = false) :
    ∃ p', p.act (admission env) (.turn i x) = some p' ∧ ¬ KeysUsable env p'.shared := by
  obtain ⟨r, prog⟩ := t
  cases prog with
  | pure o => cases hbinds
  | fork r' child k => cases hbinds
  | step st k =>
      obtain ⟨q⟩ := st
      cases x with
      | some e => cases hbinds
      | none =>
          cases q with
          | insertScannerKey row =>
              obtain ⟨hbound, hbytes⟩ := Bool.or_eq_false_iff.mp hbinds
              -- the id is new, so the row is inserted with the bytes that are no key
              have hnew : lookup (fun k : ScannerKeyRow => (k.scannerId, k.keyId))
                  p.shared.scannerKeys (row.scannerId, row.keyId) = none :=
                Option.not_isSome_iff_eq_none.mp (Bool.eq_false_iff.mp hbound)
              let inserted := insertBound (fun k : ScannerKeyRow => (k.scannerId, k.keyId))
                (fun old => old = row) row p.shared.scannerKeys
              refine ⟨⟨{ p.shared with scannerKeys := inserted.2 }, p.threads.set i
                ⟨r, k (.ok (returning row.scannerId inserted.1))⟩⟩, ?_, fun husable => ?_⟩
              · rw [Pool.act, ht]
                rfl
              have hmem : row ∈ inserted.2 := by
                show row ∈ (insertBound _ _ row _).2
                unfold insertBound
                rw [hnew]
                exact List.mem_append_right _ (List.mem_singleton_self row)
              have hkey := usable_iff.mp (husable.scannerKeys row hmem)
              rw [hbytes] at hkey
              cases hkey
          | _ => cases hbinds

/-- The keys in the tables are usable in every state of a run exactly if no turn of the run
binds a new scanner key id to bytes that are no verification key. -/
theorem keys_usable_iff (hstart : KeysUsable env db₀)
    (hrun : Pool.run (admission env) ⟨db₀, []⟩ ls = some p) :
    Pool.meets (admission env) (bindsUsable env.ed) ⟨db₀, []⟩ ls = true ↔
      ∀ ls₁ ls₂ p₁, ls = ls₁ ++ ls₂ → Pool.run (admission env) ⟨db₀, []⟩ ls₁ = some p₁ →
        KeysUsable env p₁.shared := by
  constructor
  · rintro hmeets ls₁ ls₂ p₁ rfl hrun₁
    exact keysUsable_run hstart (Pool.Reaches.refl _) (Pool.meets_of_append hmeets) hrun₁
  · intro h
    by_contra hnot
    obtain ⟨ls₁, i, x, ls₂, p₁, t, rfl, hrun₁, -, ht, hbinds⟩ :=
      Pool.exists_first_of_meets_eq_false hrun (Bool.eq_false_iff.mpr hnot)
    obtain ⟨p₂, hact, hunusable⟩ := exists_unusable ht hbinds
    have hrun₂ := Pool.run_trans hrun₁ (Pool.run_singleton hact)
    exact hunusable (h (ls₁ ++ [.turn i x]) ls₂ p₂ (by simp) hrun₂)

/-! ## Runs of the service -/

namespace Sample

/-- The registration of a scanner key with the given bytes. -/
def bound (publicKey : FixedBytes 32) : List (Label (Option String) Request) :=
  [.arrive (.registerScannerKey 4 "s" (encodeText publicKey.val) 0 90000), .turn 0 none]

/-- Bytes that are no verification key. -/
def noKey : FixedBytes 32 := ⟨List.replicate 32 2, rfl⟩

theorem noRows_usable : KeysUsable deployment noRows :=
  KeysUsable.of_rows (fun _ h => by cases h) fun _ h => by cases h

end Sample

/-- A run that registers a verification key. -/
theorem keys_usable_iff_sample :
    ∃ p, Pool.run (admission Sample.deployment) ⟨Sample.noRows, []⟩
        (Sample.bound ⟨List.replicate 32 1, rfl⟩) = some p ∧
      p.shared.scannerKeys.length = 1 ∧ KeysUsable Sample.deployment p.shared := by
  have hview : (Pool.run (admission Sample.deployment) ⟨Sample.noRows, []⟩
      (Sample.bound ⟨List.replicate 32 1, rfl⟩)).map (fun p => p.shared.scannerKeys.length) =
        some 1 := by
    decide +kernel
  have hmeets : Pool.meets (admission Sample.deployment) (bindsUsable Sample.deployment.ed)
      ⟨Sample.noRows, []⟩ (Sample.bound ⟨List.replicate 32 1, rfl⟩) = true := by
    decide +kernel
  obtain ⟨p, hp, hlength⟩ := Option.map_eq_some_iff.mp hview
  exact ⟨p, hp, hlength, (keys_usable_iff Sample.noRows_usable hp).mp hmeets _ [] p
    (List.append_nil _).symm hp⟩

/-- A scanner id and key id are bound to bytes that are no verification key. -/
theorem not_keys_usable :
    ¬ ∀ (env : Deployment Unit Unit) (db₀ : Database) (ls : List (Label (Option String) Request))
        (p : Pool Stmt Role Outcome Database), KeysUsable env db₀ →
      Pool.run (admission env) ⟨db₀, []⟩ ls = some p → KeysUsable env p.shared := by
  intro h
  have hview : (Pool.run (admission Sample.deployment) ⟨Sample.noRows, []⟩
      (Sample.bound Sample.noKey)).map (fun p => p.shared.scannerKeys) =
        some [⟨4, "s", Sample.noKey, 0, 90⟩] := by
    decide +kernel
  obtain ⟨p, hp, hkeys⟩ := Option.map_eq_some_iff.mp hview
  have husable := (h _ _ _ p Sample.noRows_usable hp).scannerKeys ⟨4, "s", Sample.noKey, 0, 90⟩
  rw [hkeys] at husable
  have hbytes := usable_iff.mp (husable (List.mem_singleton_self _))
  exact absurd hbytes (by decide)

end Admission
