/-
# Accepted tokens were issued

With an ideal signature scheme, a token that a scanner accepts was signed, with
exactly these claims, by an issuer whose key the snapshot lists.  Nothing is
assumed about where the compact text comes from.

The two assumptions are kept apart.  `Unforgeable` speaks about the scheme: what
verifies under a key was signed with it.  `OnlySignsTokens` speaks about the use
of one key: what was signed with it is the JSON text of claims that `sign`
accepted for a signer that holds the key.
-/
import EvglApi.AdmissionToken

namespace Admission

section Soundness

variable {SigningKey VerifyingKey : Type} {ed : Ed25519 SigningKey VerifyingKey}
  {fmt : TokenFormat}

/-! ## The ideal scheme -/

/-- Nothing verifies under a key unless its holder signed exactly these bytes;
`signed vk m` says that the holder of `vk` did sign `m`. -/
def Ed25519.Unforgeable (ed : Ed25519 SigningKey VerifyingKey)
    (signed : VerifyingKey → Bytes → Prop) : Prop :=
  ∀ vk m s, ed.verify vk m s = true → signed vk m

/-- The key `vk` is used through `AdmissionTokenSigner::sign` only: whatever was
signed with it comes from one of the recorded calls, and that call succeeded. -/
def OnlySignsTokens (fmt : TokenFormat)
    (calls : List (AdmissionTokenSigner ed × AdmissionTokenClaims))
    (signed : VerifyingKey → Bytes → Prop) (vk : VerifyingKey) : Prop :=
  ∀ m, signed vk m → ∃ signer claims, (signer, claims) ∈ calls ∧
    ed.verifyingKey signer.signingKey = vk ∧ fmt.toVec claims = some m ∧
      ∃ compact, signer.sign fmt claims = .ok compact

/-- A key the scanner looks up is one of the snapshot's keys. -/
theorem mem_keys_of_findKey {snapshot : AdmissionKeySnapshot} {claims : AdmissionTokenClaims}
    {key : AdmissionVerificationKey} (h : findKey snapshot claims = some key) :
    key ∈ snapshot.keys ∧ key.keyId = claims.keyId ∧ key.issuanceEpoch = claims.issuanceEpoch := by
  refine ⟨List.mem_of_find?_eq_some h, ?_⟩
  simpa using List.find?_some h

/-- No revocation in force covers a token that is not revoked. -/
theorem isRevoked_eq_false_iff {snapshot : AdmissionKeySnapshot} {claims : AdmissionTokenClaims}
    {now : Instant} :
    isRevoked snapshot claims now = false ↔
      ∀ r ∈ snapshot.revocations, r.ticketId = claims.ticketId →
        claims.issuanceEpoch ≤ r.issuanceEpoch → now < r.revokedAt := by
  simp [isRevoked, List.any_eq_false]

/-- The payload that a key of the snapshot verifies is the text of the claims an
issuer accepted. -/
theorem SignedUnder.issued {signed : VerifyingKey → Bytes → Prop}
    {calls : List (AdmissionTokenSigner ed × AdmissionTokenClaims)}
    {compact : String} {snapshot : AdmissionKeySnapshot} {claims : AdmissionTokenClaims}
    {key : AdmissionVerificationKey} {vk : VerifyingKey} {payload : Bytes}
    (h : SignedUnder ed fmt compact snapshot claims key vk payload)
    (hideal : ed.Unforgeable signed)
    (honly : OnlySignsTokens fmt calls signed vk)
    (hserde : ∀ c b, fmt.toVec c = some b → fmt.fromSlice b = some c) :
    ∃ signer, (signer, claims) ∈ calls ∧ ed.verifyingKey signer.signingKey = vk ∧
      ∃ token, signer.sign fmt claims = .ok token := by
  obtain ⟨signature, -, hverify⟩ := h.verified
  have hsigned : signed vk payload := hideal vk payload signature hverify
  obtain ⟨signer, issued, hcall, hvk, htext, haccepted⟩ := honly payload hsigned
  -- the payload has one reading, so the issued claims are the accepted ones
  have hsame : claims = issued := by
    have hread := hserde issued payload htext
    rw [h.payload_eq] at hread
    exact Option.some.inj hread
  subst hsame
  exact ⟨signer, hcall, hvk, haccepted⟩

/-! ## Soundness of the scanner -/

/-- Token soundness.  For any text `compact`, any snapshot and any instant: if
the scanner returns `claims`, then a signer whose public key is a key of the
snapshot had accepted exactly these claims, so they are within its policy; and
the token belongs to the expected event, lies in the windows of the snapshot and
of the token, does not outlive the snapshot, and no revocation covers it. -/
theorem verifyAdmissionToken_sound {signed : VerifyingKey → Bytes → Prop}
    {calls : List (AdmissionTokenSigner ed × AdmissionTokenClaims)}
    {compact : String} {snapshot : AdmissionKeySnapshot} {expectedEventId : Uuid} {now : Instant}
    {claims : AdmissionTokenClaims}
    (hideal : ed.Unforgeable signed)
    (honly : ∀ key ∈ snapshot.keys, ∀ vk, decodeVerifyingKey ed key.publicKey = .ok vk →
      OnlySignsTokens fmt calls signed vk)
    (hserde : ∀ c b, fmt.toVec c = some b → fmt.fromSlice b = some c)
    (haccept : verifyAdmissionToken ed fmt compact snapshot expectedEventId now = .ok claims) :
    (∃ signer, (signer, claims) ∈ calls ∧
      (∃ key ∈ snapshot.keys,
        decodeVerifyingKey ed key.publicKey = .ok (ed.verifyingKey signer.signingKey)) ∧
      (∃ token, signer.sign fmt claims = .ok token) ∧
      claims.keyId = signer.verificationKey.keyId ∧
      claims.issuanceEpoch = signer.verificationKey.issuanceEpoch ∧
      signer.verificationKey.activeFrom ≤ claims.issuedAt ∧
      claims.expiresAt ≤ signer.verificationKey.retireAt ∧
      claims.expiresAt - claims.issuedAt ≤ signer.maxLifetime) ∧
    claims.eventId = expectedEventId ∧ snapshot.eventId = expectedEventId ∧
    (snapshot.generatedAt ≤ now ∧ now < snapshot.validUntil) ∧
    (claims.issuedAt ≤ now ∧ now < claims.expiresAt) ∧
    claims.expiresAt ≤ snapshot.validUntil ∧
    (∀ r ∈ snapshot.revocations, r.ticketId = claims.ticketId →
      claims.issuanceEpoch ≤ r.issuanceEpoch → now < r.revokedAt) := by
  have hadmits := verifyAdmissionToken_eq_ok_iff.mp haccept
  obtain ⟨key, vk, payload, hsigned⟩ := hadmits.signed
  have hkey : key ∈ snapshot.keys := (mem_keys_of_findKey hsigned.key_eq).1
  -- the payload was signed under the key, and a signer signs tokens only
  obtain ⟨signer, hcall, rfl, token, htoken⟩ :=
    hsigned.issued hideal (honly key hkey vk hsigned.vk_eq) hserde
  have hpolicy : signer.Allows claims := (AdmissionTokenSigner.sign_eq_ok_iff.mp htoken).2.1
  refine ⟨⟨signer, hcall, ⟨key, hkey, hsigned.vk_eq⟩, ⟨token, htoken⟩, hpolicy.keyId_eq,
    hpolicy.issuanceEpoch_eq, hpolicy.activeFrom_le, hpolicy.le_retireAt, hpolicy.lifetime_le⟩,
    hadmits.claims_event, hadmits.snapshot_event, ⟨hadmits.generatedAt_le, hadmits.lt_validUntil⟩,
    ⟨hadmits.issuedAt_le, hadmits.lt_expiresAt⟩, hadmits.le_validUntil, ?_⟩
  exact isRevoked_eq_false_iff.mp hadmits.not_revoked

end Soundness

/-! ## A token on a sample scheme -/

namespace Sample

/-- The claims of the sample token. -/
def claims : AdmissionTokenClaims where
  version := 1
  tokenId := 5
  eventId := 7
  ticketId := 8
  orderId := 9
  issuanceEpoch := 1
  keyId := "k"
  issuedAt := 100
  expiresAt := 200

/-- The text that stands for the JSON of the sample claims. -/
def payload : Bytes := "{}".toUTF8.toList

/-- A wire format that knows the sample claims only. -/
def format : TokenFormat where
  claimsShape c := if c.issuedAt < c.expiresAt then .ok () else .error "empty window"
  snapshotShape s := if s.generatedAt < s.validUntil then .ok () else .error "empty window"
  toVec c := if c = claims then some payload else none
  fromSlice b := if b = payload then some claims else none

/-- A scheme with one key pair, whose holder signs nothing but the sample text. -/
def scheme : Ed25519 Unit Unit where
  verifyingKey _ := ()
  asBytes _ := ⟨List.replicate 32 1, rfl⟩
  fromBytes bs := if bs.val = List.replicate 32 1 then some () else none
  sign _ _ := ⟨List.replicate 64 2, rfl⟩
  verify _ m s := m = payload ∧ s.val = List.replicate 64 2

/-- The issuer of the sample token. -/
def signer : AdmissionTokenSigner scheme where
  signingKey := ()
  descriptor :=
    { keyId := "k", issuanceEpoch := 1, activeFrom := 0, retireAt := 1000
      publicKey := encodeText (List.replicate 32 1) }
  maxLifetime := 500
  publicKey_eq := rfl
  descriptor_valid := by decide
  maxLifetime_pos := by decide

/-- A snapshot that lists the issuer's key. -/
def snapshot : AdmissionKeySnapshot where
  snapshotId := 1
  eventId := 7
  generatedAt := 50
  validUntil := 300
  keys := [signer.verificationKey]
  revocations := []

/-- The sample token. -/
def compact : String := encodeCompact payload (scheme.sign () payload)

end Sample

/-- The sample token is accepted, and was issued by the sample signer. -/
theorem verifyAdmissionToken_sound_sample :
    verifyAdmissionToken Sample.scheme Sample.format Sample.compact Sample.snapshot 7 150 =
        .ok Sample.claims ∧
      ∃ signer, (signer, Sample.claims) ∈ [(Sample.signer, Sample.claims)] ∧
        Sample.claims.expiresAt ≤ signer.verificationKey.retireAt := by
  have haccept : verifyAdmissionToken Sample.scheme Sample.format Sample.compact Sample.snapshot
      7 150 = .ok Sample.claims := by decide +kernel
  have hideal : Sample.scheme.Unforgeable fun _ m => m = Sample.payload := by
    intro vk m s h
    exact (of_decide_eq_true h).1
  have honly : ∀ key ∈ Sample.snapshot.keys, ∀ vk,
      decodeVerifyingKey Sample.scheme key.publicKey = .ok vk →
        OnlySignsTokens Sample.format [(Sample.signer, Sample.claims)]
          (fun _ m => m = Sample.payload) vk := by
    rintro key - vk - m rfl
    exact ⟨Sample.signer, Sample.claims, List.mem_singleton_self _, rfl, rfl, Sample.compact,
      by decide +kernel⟩
  have hserde : ∀ c b, Sample.format.toVec c = some b → Sample.format.fromSlice b = some c := by
    intro c b h
    simp only [Sample.format, Option.ite_none_right_eq_some, Option.some.injEq] at h ⊢
    exact ⟨h.2.symm, h.1.symm⟩
  obtain ⟨⟨signer, hcall, -, -, -, -, -, hretire, -⟩, -⟩ :=
    verifyAdmissionToken_sound hideal honly hserde haccept
  exact ⟨haccept, signer, hcall, hretire⟩

end Admission
