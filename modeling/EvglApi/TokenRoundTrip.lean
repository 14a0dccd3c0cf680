/-
# Issued tokens are verified

The converse of soundness: a token that `sign` issued is decided by the scanner
on its events, windows and revocations only.  Decoding, the shape check, the key
lookup and the signature cannot fail on it, provided that the first key of the
snapshot for the token's key id and epoch is the signer's own.

`scanDecision` is what remains of `verifyAdmissionToken` for such a token.
-/
import EvglApi.TokenSoundness

open Fallible

namespace Admission

section RoundTrip

variable {SigningKey VerifyingKey : Type} {ed : Ed25519 SigningKey VerifyingKey}
  {fmt : TokenFormat}

/-! ## Signers and their keys -/

/-- Every signer is built by `new` from its own parts. -/
theorem AdmissionTokenSigner.new_self (signer : AdmissionTokenSigner ed) :
    AdmissionTokenSigner.new ed signer.signingKey signer.descriptor.keyId
      signer.descriptor.issuanceEpoch signer.descriptor.activeFrom signer.descriptor.retireAt
      signer.maxLifetime = .ok signer := by
  obtain ⟨sk, ⟨keyId, epoch, publicKey, activeFrom, retireAt⟩, lifetime, hpk, hvalid, hpos⟩ := signer
  dsimp only at hpk
  subst hpk
  unfold AdmissionTokenSigner.new
  dsimp only
  split
  · next e he => rw [hvalid] at he; cases he
  · rw [dif_neg (not_le.mpr hpos)]

/-- The published key of a signer decodes to its verification key. -/
theorem AdmissionTokenSigner.decodeVerifyingKey_publicKey (hed : ed.Lawful)
    (signer : AdmissionTokenSigner ed) :
    decodeVerifyingKey ed signer.descriptor.publicKey = .ok (ed.verifyingKey signer.signingKey) := by
  rw [signer.publicKey_eq, decodeVerifyingKey, decodeBytes_encodeText, ok_bind,
    hed.fromBytes_asBytes]
  rfl

/-! ## The decision on an issued token -/

/-- What the scanner still has to decide about a token with genuine `claims`. -/
def scanDecision (snapshot : AdmissionKeySnapshot) (expectedEventId : Uuid) (now : Instant)
    (claims : AdmissionTokenClaims) : Except AdmissionError AdmissionTokenClaims := do
  refuseIf (snapshot.eventId ≠ expectedEventId) .wrongEvent
  refuseIf (now < snapshot.generatedAt ∨ now ≥ snapshot.validUntil) .staleSnapshot
  refuseIf (claims.eventId ≠ expectedEventId ∨ claims.eventId ≠ snapshot.eventId) .wrongEvent
  refuseIf (now < claims.issuedAt ∨ now ≥ claims.expiresAt) .expired
  refuseIf (claims.expiresAt > snapshot.validUntil)
    (.policy "token outlives the scanner snapshot")
  refuseIf (isRevoked snapshot claims now) .revoked
  pure claims

/-- On a token its signer issued, the scanner's answer is `scanDecision`. -/
theorem verifyAdmissionToken_of_sign (hed : ed.Lawful) (hfmt : fmt.Lawful)
    {signer : AdmissionTokenSigner ed} {claims : AdmissionTokenClaims} {compact : String}
    {snapshot : AdmissionKeySnapshot} (hsign : signer.sign fmt claims = .ok compact)
    (hshape : fmt.snapshotShape snapshot = .ok ())
    (hkey : findKey snapshot claims = some signer.verificationKey)
    (expectedEventId : Uuid) (now : Instant) :
    verifyAdmissionToken ed fmt compact snapshot expectedEventId now =
      scanDecision snapshot expectedEventId now claims := by
  obtain ⟨hclaims, hpolicy, payload, hpayload, rfl⟩ := AdmissionTokenSigner.sign_eq_ok_iff.mp hsign
  have hnil : payload ≠ [] := by
    rintro rfl
    have hread := hfmt.fromSlice_of_toVec hpayload
    rw [hfmt.fromSlice_nil] at hread
    cases hread
  have hwindow : ¬ (claims.issuedAt < signer.descriptor.activeFrom ∨
      claims.expiresAt > signer.descriptor.retireAt) :=
    not_or.mpr ⟨not_lt.mpr hpolicy.activeFrom_le, not_lt.mpr hpolicy.le_retireAt⟩
  have hverify := hed.verify_sign signer.signingKey payload
  have hread := hfmt.fromSlice_of_toVec hpayload
  have hvk := signer.decodeVerifyingKey_publicKey hed
  simp [verifyAdmissionToken, scanDecision, hshape, decodeCompact_encodeCompact _ hnil, hkey,
    Except.mapError, hread, okOr, hclaims, AdmissionTokenSigner.verificationKey,
    signer.descriptor_valid, refuseIf_bind_of_not hwindow, hvk, hverify,
    refuseIf_bind_of_not not_false]

/-- The conditions under which the scanner admits a genuine token. -/
structure InWindow (snapshot : AdmissionKeySnapshot) (expectedEventId : Uuid) (now : Instant)
    (claims : AdmissionTokenClaims) : Prop where
  snapshot_event : snapshot.eventId = expectedEventId
  claims_event : expectedEventId = claims.eventId
  generatedAt_le : snapshot.generatedAt ≤ now
  lt_validUntil : now < snapshot.validUntil
  issuedAt_le : claims.issuedAt ≤ now
  lt_expiresAt : now < claims.expiresAt
  le_validUntil : claims.expiresAt ≤ snapshot.validUntil
  not_revoked : ∀ r ∈ snapshot.revocations, r.ticketId = claims.ticketId →
    claims.issuanceEpoch ≤ r.issuanceEpoch → ¬ r.revokedAt ≤ now

/-- `scanDecision` returns the claims exactly within the window. -/
theorem scanDecision_eq_ok_iff {snapshot : AdmissionKeySnapshot} {expectedEventId : Uuid}
    {now : Instant} {claims c : AdmissionTokenClaims} :
    scanDecision snapshot expectedEventId now claims = .ok c ↔
      InWindow snapshot expectedEventId now claims ∧ c = claims := by
  simp only [scanDecision, bind_eq_ok, refuseIf_eq_ok, pure_eq_ok, Except.ok.injEq, not_or,
    not_not, not_lt, ge_iff_le, not_le, gt_iff_lt, ne_eq, Bool.not_eq_true, isRevoked_eq_false_iff]
  constructor
  · rintro ⟨-, hsnap, -, ⟨hgen, hvalid⟩, -, ⟨hev, -⟩, -, ⟨hissued, hexp⟩, -, hout, -, hrev, rfl⟩
    exact ⟨⟨hsnap, hev.symm, hgen, hvalid, hissued, hexp, hout,
      fun r hr ht he => not_le.mpr (hrev r hr ht he)⟩, rfl⟩
  · rintro ⟨⟨hsnap, hev, hgen, hvalid, hissued, hexp, hout, hrev⟩, rfl⟩
    exact ⟨(), hsnap, (), ⟨hgen, hvalid⟩, (), ⟨hev.symm, by rw [hsnap, hev]⟩, (),
      ⟨hissued, hexp⟩, (), hout, (), fun r hr ht he => not_le.mp (hrev r hr ht he), rfl⟩

/-- The five reasons for which a genuine token is refused. -/
def IsWindowError : AdmissionError → Prop
  | .wrongEvent | .staleSnapshot | .expired | .revoked => True
  | .policy message => message = "token outlives the scanner snapshot"
  | _ => False

/-- `scanDecision` refuses for one of the five reasons. -/
theorem isWindowError_of_scanDecision {snapshot : AdmissionKeySnapshot} {expectedEventId : Uuid}
    {now : Instant} {claims : AdmissionTokenClaims} {e : AdmissionError}
    (h : scanDecision snapshot expectedEventId now claims = .error e) : IsWindowError e := by
  simp only [scanDecision, bind_eq_error, refuseIf_eq_error, pure_eq_ok, reduceCtorEq, and_false,
    exists_false, or_false] at h
  rcases h with ⟨-, rfl⟩ | ⟨-, -, h⟩
  · trivial
  rcases h with ⟨-, rfl⟩ | ⟨-, -, h⟩
  · trivial
  rcases h with ⟨-, rfl⟩ | ⟨-, -, h⟩
  · trivial
  rcases h with ⟨-, rfl⟩ | ⟨-, -, h⟩
  · trivial
  rcases h with ⟨-, rfl⟩ | ⟨-, -, -, rfl⟩
  · rfl
  · trivial

/-! ## The round trip -/

/-- Issue and verify.  For every signer, all claims it signs, every snapshot whose
first key for them is the signer's, every event and every instant: the scanner
returns the signed claims exactly within the window, and otherwise refuses for
one of the five reasons of `IsWindowError`. -/
theorem verifyAdmissionToken_sign (hed : ed.Lawful) (hfmt : fmt.Lawful)
    (signer : AdmissionTokenSigner ed) (claims : AdmissionTokenClaims) (compact : String)
    (snapshot : AdmissionKeySnapshot) (expectedEventId : Uuid) (now : Instant)
    (hsign : signer.sign fmt claims = .ok compact)
    (hshape : fmt.snapshotShape snapshot = .ok ())
    (hkey : findKey snapshot claims = some signer.verificationKey) :
    (verifyAdmissionToken ed fmt compact snapshot expectedEventId now = .ok claims ↔
      InWindow snapshot expectedEventId now claims) ∧
    (¬ InWindow snapshot expectedEventId now claims →
      ∃ e, verifyAdmissionToken ed fmt compact snapshot expectedEventId now = .error e ∧
        IsWindowError e) := by
  rw [verifyAdmissionToken_of_sign hed hfmt hsign hshape hkey]
  refine ⟨by simp [scanDecision_eq_ok_iff], fun hout => ?_⟩
  cases hdecision : scanDecision snapshot expectedEventId now claims with
  | ok c => exact absurd (scanDecision_eq_ok_iff.mp hdecision).1 hout
  | error e => exact ⟨e, rfl, isWindowError_of_scanDecision hdecision⟩

end RoundTrip

/-! ## A lawful sample scheme -/

namespace Sample

/-- A scheme with one key pair under which the constant signature verifies. -/
def openScheme : Ed25519 Unit Unit where
  verifyingKey _ := ()
  asBytes := scheme.asBytes
  fromBytes bs := if bs.val = List.replicate 32 1 then some () else none
  sign := scheme.sign
  verify _ _ s := s.val = List.replicate 64 2

theorem openScheme_lawful : openScheme.Lawful where
  fromBytes_asBytes _ := rfl
  verify_sign _ _ := rfl

theorem format_lawful : format.Lawful where
  fromSlice_of_toVec := by
    intro c b h
    simp only [format, Option.ite_none_right_eq_some, Option.some.injEq] at h ⊢
    exact ⟨h.2.symm, h.1.symm⟩
  fromSlice_nil := by decide +kernel

/-- The issuer of the sample token, on the lawful scheme. -/
def openSigner : AdmissionTokenSigner openScheme where
  signingKey := ()
  descriptor := signer.descriptor
  maxLifetime := 500
  publicKey_eq := rfl
  descriptor_valid := signer.descriptor_valid
  maxLifetime_pos := signer.maxLifetime_pos

end Sample

/-- The sample token is accepted at its first instant and refused at its last. -/
theorem verifyAdmissionToken_sign_sample :
    verifyAdmissionToken Sample.openScheme Sample.format Sample.compact Sample.snapshot 7 100 =
        .ok Sample.claims ∧
      ∃ e, verifyAdmissionToken Sample.openScheme Sample.format Sample.compact Sample.snapshot
        7 200 = .error e ∧ IsWindowError e := by
  have hsign : Sample.openSigner.sign Sample.format Sample.claims = .ok Sample.compact := by
    decide +kernel
  have hshape : Sample.format.snapshotShape Sample.snapshot = .ok () := by decide
  have hkey : findKey Sample.snapshot Sample.claims = some Sample.openSigner.verificationKey := by
    decide +kernel
  have hround := verifyAdmissionToken_sign Sample.openScheme_lawful Sample.format_lawful
    Sample.openSigner Sample.claims Sample.compact Sample.snapshot 7
  refine ⟨(hround 100 hsign hshape hkey).1.mpr ?_, (hround 200 hsign hshape hkey).2 ?_⟩
  · exact ⟨rfl, rfl, by decide, by decide, by decide, by decide, by decide,
      fun r hr => absurd hr (List.not_mem_nil)⟩
  · exact fun h => absurd h.lt_expiresAt (by decide)

end Admission
