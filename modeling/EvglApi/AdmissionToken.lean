/-
# Signed admission tokens

The offline half of `src/admission.rs`: an issuer signs the claims of a ticket
(`AdmissionTokenSigner::sign`), and a scanner that holds a snapshot of the
verification keys and revocations of its event decides a token without a
connection (`verify_admission_token`).

Three things live outside the repository and are parameters of the model:

* `Ed25519` is the signature scheme (`ed25519_dalek`);
* `TokenFormat` is what `evgl_interfaces` and `serde_json` contribute: the two
  shape checks and the JSON text of the claims;
* base64 is `URL_SAFE_NO_PAD`, which is `Base64.urlSafe` with the strict decoder.
-/
import EvglApi.Base64
import EvglApi.Basic
import EvglApi.Fallible

open Fallible

namespace Admission

/-! ## Claims, keys and snapshots -/

/-- The claims an admission token carries. -/
structure AdmissionTokenClaims where
  version : ℕ
  tokenId : Uuid
  eventId : Uuid
  ticketId : Uuid
  orderId : Uuid
  issuanceEpoch : ℤ
  keyId : String
  issuedAt : Instant
  expiresAt : Instant
  deriving DecidableEq

/-- A published verification key, with the window in which it may be used. -/
structure AdmissionVerificationKey where
  keyId : String
  issuanceEpoch : ℤ
  publicKey : String
  activeFrom : Instant
  retireAt : Instant
  deriving DecidableEq

/-- The revocation of a ticket up to an issuance epoch. -/
structure AdmissionRevocation where
  ticketId : Uuid
  issuanceEpoch : ℤ
  revokedAt : Instant
  deriving DecidableEq

/-- What a scanner carries with it: the keys and revocations of one event. -/
structure AdmissionKeySnapshot where
  snapshotId : Uuid
  eventId : Uuid
  generatedAt : Instant
  validUntil : Instant
  keys : List AdmissionVerificationKey
  revocations : List AdmissionRevocation
  deriving DecidableEq

/-- The errors of the admission module. -/
inductive AdmissionError
  | malformed
  | invalidSignature
  | wrongEvent
  | expired
  | revoked
  | unknownKey
  | retiredKey
  | staleSnapshot
  | policy (message : String)
  | database (message : String)
  deriving DecidableEq

/-! ## Code outside the repository -/

/-- The operations of the signature scheme. -/
structure Ed25519 (SigningKey VerifyingKey : Type) where
  verifyingKey : SigningKey → VerifyingKey
  asBytes : VerifyingKey → FixedBytes 32
  fromBytes : FixedBytes 32 → Option VerifyingKey
  sign : SigningKey → Bytes → FixedBytes 64
  verify : VerifyingKey → Bytes → FixedBytes 64 → Bool

/-- What the documentation of the scheme promises an honest user: a verification
key is read back from its bytes, and a signature verifies. -/
structure Ed25519.Lawful {SigningKey VerifyingKey : Type}
    (ed : Ed25519 SigningKey VerifyingKey) : Prop where
  fromBytes_asBytes : ∀ sk,
    ed.fromBytes (ed.asBytes (ed.verifyingKey sk)) = some (ed.verifyingKey sk)
  verify_sign : ∀ sk m, ed.verify (ed.verifyingKey sk) m (ed.sign sk m) = true

/-- The wire format of tokens: the shape checks of claims and snapshots, and the
JSON text of claims. -/
structure TokenFormat where
  claimsShape : AdmissionTokenClaims → Except String Unit
  snapshotShape : AdmissionKeySnapshot → Except String Unit
  toVec : AdmissionTokenClaims → Option Bytes
  fromSlice : Bytes → Option AdmissionTokenClaims

/-- What `serde_json` promises: decoding inverts encoding, and the empty text is
no JSON value. -/
structure TokenFormat.Lawful (fmt : TokenFormat) : Prop where
  fromSlice_of_toVec : ∀ {c b}, fmt.toVec c = some b → fmt.fromSlice b = some c
  fromSlice_nil : fmt.fromSlice [] = none

/-! ## Text encodings -/

/-- The URL-safe base64 text of a byte string (`URL_SAFE_NO_PAD.encode`). -/
def encodeText (bs : Bytes) : String := String.ofList (Base64.encode Base64.urlSafe bs)

/-- The byte string a base64 text spells (`URL_SAFE_NO_PAD.decode`). -/
def decodeText (value : String) : Option Bytes := Base64.decode Base64.urlSafe value.toList

/-- The byte string of length `n` a base64 text spells. -/
def decodeBytes (n : ℕ) (value : String) : Except AdmissionError (FixedBytes n) := do
  let bs ← okOr (decodeText value) .malformed
  if h : bs.length = n then pure ⟨bs, h⟩ else throw .malformed

def decodeSignature (value : String) : Except AdmissionError (FixedBytes 64) :=
  decodeBytes 64 value

/-- The payload and the signature of a compact token. -/
def decodeCompact (compact : String) : Except AdmissionError (Bytes × FixedBytes 64) :=
  match compact.toList.splitOn '.' with
  | [payload, signature] => do
      refuseIf (payload.isEmpty ∨ signature.isEmpty) .malformed
      let payload ← okOr (decodeText (String.ofList payload)) .malformed
      let signature ← decodeSignature (String.ofList signature)
      pure (payload, signature)
  | _ => throw .malformed

/-- The compact token of a payload and a signature. -/
def encodeCompact (payload : Bytes) (signature : FixedBytes 64) : String :=
  encodeText payload ++ "." ++ encodeText signature.val

section Keys

variable {SigningKey VerifyingKey : Type} (ed : Ed25519 SigningKey VerifyingKey)

def decodeVerifyingKey (value : String) : Except AdmissionError VerifyingKey := do
  let bs ← decodeBytes 32 value
  okOr (ed.fromBytes bs) .malformed

/-- The checks every published key must pass. -/
def validateDescriptor (descriptor : AdmissionVerificationKey) : Except AdmissionError Unit := do
  refuseIf (trimIsEmpty descriptor.keyId ∨ descriptor.issuanceEpoch < 0 ∨
      descriptor.retireAt ≤ descriptor.activeFrom)
    (.policy "invalid admission verification key")
  let _ ← decodeVerifyingKey ed descriptor.publicKey
  pure ()

/-! ## The issuer -/

/-- An issuer of tokens.  The fields are private to the module and set by `new`
only, so the checks of `new` hold of every signer. -/
structure AdmissionTokenSigner where
  signingKey : SigningKey
  descriptor : AdmissionVerificationKey
  maxLifetime : Duration
  publicKey_eq :
    descriptor.publicKey = encodeText (ed.asBytes (ed.verifyingKey signingKey)).val
  descriptor_valid : validateDescriptor ed descriptor = .ok ()
  maxLifetime_pos : 0 < maxLifetime

namespace AdmissionTokenSigner

/-- Build a signer (`AdmissionTokenSigner::new`). -/
def new (signingKey : SigningKey) (keyId : String) (issuanceEpoch : ℤ)
    (activeFrom retireAt : Instant) (maxLifetime : Duration) :
    Except AdmissionError (AdmissionTokenSigner ed) :=
  let descriptor : AdmissionVerificationKey :=
    { keyId, issuanceEpoch, activeFrom, retireAt
      publicKey := encodeText (ed.asBytes (ed.verifyingKey signingKey)).val }
  match hd : validateDescriptor ed descriptor with
  | .error e => .error e
  | .ok () =>
      if hl : maxLifetime ≤ 0 then
        .error (.policy "maximum token lifetime must be positive")
      else
        .ok { signingKey, descriptor, maxLifetime
              publicKey_eq := rfl
              descriptor_valid := hd
              maxLifetime_pos := not_le.mp hl }

variable {ed}

/-- The key scanners are given (`AdmissionTokenSigner::verification_key`). -/
def verificationKey (signer : AdmissionTokenSigner ed) : AdmissionVerificationKey :=
  signer.descriptor

/-- Sign claims as a compact token (`AdmissionTokenSigner::sign`). -/
def sign (fmt : TokenFormat) (signer : AdmissionTokenSigner ed) (claims : AdmissionTokenClaims) :
    Except AdmissionError String := do
  (fmt.claimsShape claims).mapError .policy
  refuseIf (claims.keyId ≠ signer.descriptor.keyId ∨
      claims.issuanceEpoch ≠ signer.descriptor.issuanceEpoch)
    (.policy "token key identity does not match signer")
  refuseIf (claims.issuedAt < signer.descriptor.activeFrom ∨
      claims.expiresAt > signer.descriptor.retireAt ∨
      claims.expiresAt - claims.issuedAt > signer.maxLifetime)
    (.policy "token falls outside the signer or offline lifetime window")
  let payload ← okOr (fmt.toVec claims) .malformed
  let signature := ed.sign signer.signingKey payload
  pure (encodeCompact payload signature)

end AdmissionTokenSigner

/-! ## The scanner -/

/-- The first key of the snapshot for a token's key id and epoch. -/
def findKey (snapshot : AdmissionKeySnapshot) (claims : AdmissionTokenClaims) :
    Option AdmissionVerificationKey :=
  snapshot.keys.find? fun key =>
    key.keyId = claims.keyId ∧ key.issuanceEpoch = claims.issuanceEpoch

/-- A revocation of the snapshot covers the token and is in force. -/
def isRevoked (snapshot : AdmissionKeySnapshot) (claims : AdmissionTokenClaims)
    (now : Instant) : Bool :=
  snapshot.revocations.any fun revocation =>
    revocation.ticketId = claims.ticketId ∧
      revocation.issuanceEpoch ≥ claims.issuanceEpoch ∧ revocation.revokedAt ≤ now

/-- Decide a compact token against a snapshot (`verify_admission_token`). -/
def verifyAdmissionToken (fmt : TokenFormat) (compact : String)
    (snapshot : AdmissionKeySnapshot) (expectedEventId : Uuid) (now : Instant) :
    Except AdmissionError AdmissionTokenClaims := do
  (fmt.snapshotShape snapshot).mapError .policy
  refuseIf (snapshot.eventId ≠ expectedEventId) .wrongEvent
  refuseIf (now < snapshot.generatedAt ∨ now ≥ snapshot.validUntil) .staleSnapshot
  let (payload, signature) ← decodeCompact compact
  let claims ← okOr (fmt.fromSlice payload) .malformed
  (fmt.claimsShape claims).mapError fun _ => .malformed
  refuseIf (claims.eventId ≠ expectedEventId ∨ claims.eventId ≠ snapshot.eventId) .wrongEvent
  refuseIf (now < claims.issuedAt ∨ now ≥ claims.expiresAt) .expired
  refuseIf (claims.expiresAt > snapshot.validUntil)
    (.policy "token outlives the scanner snapshot")
  let descriptor ← okOr (findKey snapshot claims) .unknownKey
  validateDescriptor ed descriptor
  refuseIf (claims.issuedAt < descriptor.activeFrom ∨ claims.expiresAt > descriptor.retireAt)
    .retiredKey
  let verifyingKey ← decodeVerifyingKey ed descriptor.publicKey
  refuseIf (ed.verify verifyingKey payload signature = false) .invalidSignature
  refuseIf (isRevoked snapshot claims now) .revoked
  pure claims

end Keys

/-! ## Encodings are inverse to each other -/

@[simp] theorem decodeText_encodeText (bs : Bytes) : decodeText (encodeText bs) = some bs := by
  rw [decodeText, encodeText, String.toList_ofList]
  exact Base64.decode_encode Base64.urlSafe bs

/-- A text that decodes is the text of the bytes it decodes to. -/
theorem encodeText_of_decodeText {value : String} {bs : Bytes} (h : decodeText value = some bs) :
    encodeText bs = value := by
  rw [encodeText, Base64.encode_of_decode Base64.urlSafe h, String.ofList_toList]

@[simp] theorem decodeBytes_encodeText {n : ℕ} (bs : FixedBytes n) :
    decodeBytes n (encodeText bs.val) = .ok bs := by
  simp [decodeBytes, okOr, bs.property]

/-- The dot does not occur in a base64 text. -/
theorem dot_notMem_encode (bs : Bytes) : '.' ∉ Base64.encode Base64.urlSafe bs := by
  intro h
  have hsome := Base64.value_isSome_of_mem_encode Base64.urlSafe h
  exact absurd hsome (by decide)

/-- The two parts of a compact token. -/
theorem splitOn_encodeCompact (payload : Bytes) (signature : FixedBytes 64) :
    (encodeCompact payload signature).toList.splitOn '.' =
      [Base64.encode Base64.urlSafe payload, Base64.encode Base64.urlSafe signature.val] := by
  rw [← List.splitOn_intercalate '.' (by simp [dot_notMem_encode]) (List.cons_ne_nil _ _)]
  simp [encodeCompact, encodeText, List.intercalate]

/-- A compact token with a payload is decoded to its parts. -/
theorem decodeCompact_encodeCompact {payload : Bytes} (signature : FixedBytes 64)
    (hp : payload ≠ []) :
    decodeCompact (encodeCompact payload signature) = .ok (payload, signature) := by
  have hs : signature.val ≠ [] := by
    intro h
    simpa [h] using signature.property
  rw [decodeCompact, splitOn_encodeCompact]
  dsimp only
  rw [refuseIf_bind_of_not (by simp [List.isEmpty_iff, Base64.encode_eq_nil_iff, hp, hs])]
  rw [decodeSignature, ← encodeText, ← encodeText, decodeText_encodeText, decodeBytes_encodeText]
  rfl

/-! ## What the issuer and the scanner have checked -/

section Checks

variable {SigningKey VerifyingKey : Type} {ed : Ed25519 SigningKey VerifyingKey}
  {fmt : TokenFormat}

/-- A key passes the descriptor check when its id, epoch and window are sensible
and its text is a verification key. -/
theorem validateDescriptor_eq_ok_iff {key : AdmissionVerificationKey} :
    validateDescriptor ed key = .ok () ↔
      (trimIsEmpty key.keyId = false ∧ 0 ≤ key.issuanceEpoch ∧ key.activeFrom < key.retireAt) ∧
        ∃ vk, decodeVerifyingKey ed key.publicKey = .ok vk := by
  simp [validateDescriptor, bind_eq_ok, not_or]

/-- The policy of a signer, which every token it issues satisfies. -/
structure AdmissionTokenSigner.Allows (signer : AdmissionTokenSigner ed)
    (claims : AdmissionTokenClaims) : Prop where
  keyId_eq : claims.keyId = signer.descriptor.keyId
  issuanceEpoch_eq : claims.issuanceEpoch = signer.descriptor.issuanceEpoch
  activeFrom_le : signer.descriptor.activeFrom ≤ claims.issuedAt
  le_retireAt : claims.expiresAt ≤ signer.descriptor.retireAt
  lifetime_le : claims.expiresAt - claims.issuedAt ≤ signer.maxLifetime

/-- Signing succeeds for well-shaped claims within the policy, and then the token
is the signed JSON text of the claims. -/
theorem AdmissionTokenSigner.sign_eq_ok_iff {signer : AdmissionTokenSigner ed}
    {claims : AdmissionTokenClaims} {compact : String} :
    signer.sign fmt claims = .ok compact ↔
      fmt.claimsShape claims = .ok () ∧ signer.Allows claims ∧
        ∃ payload, fmt.toVec claims = some payload ∧
          compact = encodeCompact payload (ed.sign signer.signingKey payload) := by
  simp only [AdmissionTokenSigner.sign, bind_eq_ok, mapError_eq_ok, refuseIf_eq_ok, okOr_eq_ok,
    pure_eq_ok, Except.ok.injEq, not_or, not_not, not_lt, gt_iff_lt, ne_eq]
  constructor
  · rintro ⟨⟨⟩, hshape, -, ⟨hid, hepoch⟩, -, ⟨hfrom, hto, hlife⟩, payload, hpayload, rfl⟩
    exact ⟨hshape, ⟨hid, hepoch, hfrom, hto, hlife⟩, payload, hpayload, rfl⟩
  · rintro ⟨hshape, ⟨hid, hepoch, hfrom, hto, hlife⟩, payload, hpayload, rfl⟩
    exact ⟨(), hshape, (), ⟨hid, hepoch⟩, (), ⟨hfrom, hto, hlife⟩, payload, hpayload, rfl⟩

/-- The part of the scanner's decision that does not look at the clock: `claims`
are the signed claims of `compact` under a key of the snapshot. -/
structure SignedUnder (ed : Ed25519 SigningKey VerifyingKey) (fmt : TokenFormat)
    (compact : String) (snapshot : AdmissionKeySnapshot) (claims : AdmissionTokenClaims)
    (key : AdmissionVerificationKey) (vk : VerifyingKey) (payload : Bytes) : Prop where
  payload_eq : fmt.fromSlice payload = some claims
  claims_shape : fmt.claimsShape claims = .ok ()
  key_eq : findKey snapshot claims = some key
  key_valid : validateDescriptor ed key = .ok ()
  activeFrom_le : key.activeFrom ≤ claims.issuedAt
  le_retireAt : claims.expiresAt ≤ key.retireAt
  vk_eq : decodeVerifyingKey ed key.publicKey = .ok vk
  verified : ∃ signature, decodeCompact compact = .ok (payload, signature) ∧
    ed.verify vk payload signature = true

/-- Everything `verify_admission_token` has checked when it returns `claims`. -/
structure Admits (ed : Ed25519 SigningKey VerifyingKey) (fmt : TokenFormat)
    (compact : String) (snapshot : AdmissionKeySnapshot) (expectedEventId : Uuid) (now : Instant)
    (claims : AdmissionTokenClaims) : Prop where
  snapshot_shape : fmt.snapshotShape snapshot = .ok ()
  snapshot_event : snapshot.eventId = expectedEventId
  claims_event : claims.eventId = expectedEventId
  generatedAt_le : snapshot.generatedAt ≤ now
  lt_validUntil : now < snapshot.validUntil
  issuedAt_le : claims.issuedAt ≤ now
  lt_expiresAt : now < claims.expiresAt
  le_validUntil : claims.expiresAt ≤ snapshot.validUntil
  not_revoked : isRevoked snapshot claims now = false
  signed : ∃ key vk payload, SignedUnder ed fmt compact snapshot claims key vk payload

/-- The scanner accepts exactly what passes all its checks. -/
theorem verifyAdmissionToken_eq_ok_iff {compact : String} {snapshot : AdmissionKeySnapshot}
    {expectedEventId : Uuid} {now : Instant} {claims : AdmissionTokenClaims} :
    verifyAdmissionToken ed fmt compact snapshot expectedEventId now = .ok claims ↔
      Admits ed fmt compact snapshot expectedEventId now claims := by
  simp only [verifyAdmissionToken, bind_eq_ok, mapError_eq_ok, refuseIf_eq_ok, okOr_eq_ok,
    pure_eq_ok, Except.ok.injEq, not_or, not_not, not_lt, ge_iff_le, not_le, gt_iff_lt, ne_eq,
    Bool.not_eq_false, Bool.not_eq_true, Prod.exists]
  constructor
  · rintro ⟨⟨⟩, hshape, -, hevent, -, ⟨hgen, hvalid⟩, payload, signature, hcompact, parsed,
      hparse, ⟨⟩, hclaims, -, ⟨hev, -⟩, -, ⟨hissued, hexpires⟩, -, hout, key, hkey, ⟨⟩, hdesc, -,
      ⟨hfrom, hto⟩, vk, hvk, -, hverify, -, hrev, rfl⟩
    exact ⟨hshape, hevent, hev, hgen, hvalid, hissued, hexpires, hout, hrev, key, vk, payload,
      hparse, hclaims, hkey, hdesc, hfrom, hto, hvk, signature, hcompact, hverify⟩
  · rintro ⟨hshape, hevent, hev, hgen, hvalid, hissued, hexpires, hout, hrev, key, vk, payload,
      hparse, hclaims, hkey, hdesc, hfrom, hto, hvk, signature, hcompact, hverify⟩
    exact ⟨(), hshape, (), hevent, (), ⟨hgen, hvalid⟩, payload, signature, hcompact, claims, hparse,
      (), hclaims, (), ⟨hev, hev.trans hevent.symm⟩, (), ⟨hissued, hexpires⟩, (), hout, key, hkey,
      (), hdesc, (), ⟨hfrom, hto⟩, vk, hvk, (), hverify, (), hrev, rfl⟩

end Checks

end Admission
