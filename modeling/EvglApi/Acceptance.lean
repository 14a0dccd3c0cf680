/-
# When a token is accepted, and under which keys

Two laws of the scanner's decision on one text.

* `acceptance_interval` : the instants at which the text is accepted are a half-open
  interval of time, and revocations only shorten it;
* `rotation_undisturbed` : the decision depends on the snapshot's key for the token's key
  id and epoch and on the revocations that cover the token, and on no other key or
  revocation.
-/
import EvglApi.Keyed
import EvglApi.TokenSoundness
import Mathlib.Data.Int.ConditionallyCompleteOrder
import Mathlib.Order.Interval.Set.Defs

open Fallible Keyed

namespace Admission

section Acceptance

variable {SigningKey VerifyingKey : Type} {ed : Ed25519 SigningKey VerifyingKey}
  {fmt : TokenFormat}

/-! ## The window of a token -/

/-- A revocation covers a token of its ticket, up to the revoked epoch. -/
def covers (claims : AdmissionTokenClaims) (revocation : AdmissionRevocation) : Bool :=
  revocation.ticketId = claims.ticketId ∧ claims.issuanceEpoch ≤ revocation.issuanceEpoch

/-- The first instant at which a token may be accepted. -/
def opensAt (snapshot : AdmissionKeySnapshot) (claims : AdmissionTokenClaims) : Instant :=
  max snapshot.generatedAt claims.issuedAt

/-- The first instant at which a token is not accepted any more: the snapshot or the token
has expired, or the earliest revocation that covers the token is in force. -/
def closesAt (snapshot : AdmissionKeySnapshot) (claims : AdmissionTokenClaims) : Instant :=
  ((snapshot.revocations.filter (covers claims)).map (·.revokedAt)).foldr min
    (min snapshot.validUntil claims.expiresAt)

/-- What the scanner has checked without looking at the clock. -/
structure Genuine (ed : Ed25519 SigningKey VerifyingKey) (fmt : TokenFormat) (compact : String)
    (snapshot : AdmissionKeySnapshot) (expectedEventId : Uuid)
    (claims : AdmissionTokenClaims) : Prop where
  snapshot_shape : fmt.snapshotShape snapshot = .ok ()
  snapshot_event : snapshot.eventId = expectedEventId
  claims_event : claims.eventId = expectedEventId
  le_validUntil : claims.expiresAt ≤ snapshot.validUntil
  signed : ∃ key vk payload, SignedUnder ed fmt compact snapshot claims key vk payload

/-- A text has the claims of one token. -/
theorem Genuine.claims_eq {compact : String} {snapshot snapshot' : AdmissionKeySnapshot}
    {expectedEventId : Uuid} {claims claims' : AdmissionTokenClaims}
    (h : Genuine ed fmt compact snapshot expectedEventId claims)
    (h' : Genuine ed fmt compact snapshot' expectedEventId claims') : claims = claims' := by
  obtain ⟨key, vk, payload, hsigned⟩ := h.signed
  obtain ⟨key', vk', payload', hsigned'⟩ := h'.signed
  obtain ⟨signature, hcompact, -⟩ := hsigned.verified
  obtain ⟨signature', hcompact', -⟩ := hsigned'.verified
  obtain ⟨rfl, rfl⟩ := Prod.mk.inj (Except.ok.inj (hcompact.symm.trans hcompact'))
  exact Option.some.inj (hsigned.payload_eq.symm.trans hsigned'.payload_eq)

theorem lt_foldr_min_iff {instants : List Instant} {now last : Instant} :
    now < instants.foldr min last ↔ now < last ∧ ∀ t ∈ instants, now < t := by
  induction instants with
  | nil => simp
  | cons t instants ih => rw [List.foldr_cons, lt_min_iff, ih, List.forall_mem_cons, and_left_comm]

theorem lt_closesAt_iff {snapshot : AdmissionKeySnapshot} {claims : AdmissionTokenClaims}
    {now : Instant} :
    now < closesAt snapshot claims ↔
      (now < snapshot.validUntil ∧ now < claims.expiresAt) ∧
        isRevoked snapshot claims now = false := by
  rw [closesAt, lt_foldr_min_iff, lt_min_iff, isRevoked_eq_false_iff, List.forall_mem_map,
    List.forall_mem_filter]
  simp [covers]

/-- A token is accepted within its window if everything else is in order. -/
theorem accepted_iff {compact : String} {snapshot : AdmissionKeySnapshot} {expectedEventId : Uuid}
    {now : Instant} {claims : AdmissionTokenClaims} :
    verifyAdmissionToken ed fmt compact snapshot expectedEventId now = .ok claims ↔
      Genuine ed fmt compact snapshot expectedEventId claims ∧
        now ∈ Set.Ico (opensAt snapshot claims) (closesAt snapshot claims) := by
  rw [verifyAdmissionToken_eq_ok_iff, Set.mem_Ico, opensAt, max_le_iff, lt_closesAt_iff]
  constructor
  · rintro ⟨hshape, hevent, hev, hgen, hvalid, hissued, hexpires, hout, hrev, hsigned⟩
    exact ⟨⟨hshape, hevent, hev, hout, hsigned⟩, ⟨hgen, hissued⟩, ⟨hvalid, hexpires⟩, hrev⟩
  · rintro ⟨⟨hshape, hevent, hev, hout, hsigned⟩, ⟨hgen, hissued⟩, ⟨hvalid, hexpires⟩, hrev⟩
    exact ⟨hshape, hevent, hev, hgen, hvalid, hissued, hexpires, hout, hrev, hsigned⟩

/-! ## More revocations -/

/-- More revocations close the window earlier. -/
theorem closesAt_anti {snapshot : AdmissionKeySnapshot} {revocations : List AdmissionRevocation}
    (hmore : snapshot.revocations ⊆ revocations) (claims : AdmissionTokenClaims) :
    closesAt { snapshot with revocations } claims ≤ closesAt snapshot claims := by
  refine le_of_forall_lt fun now hnow => ?_
  rw [lt_closesAt_iff, isRevoked_eq_false_iff] at hnow ⊢
  exact ⟨hnow.1, fun r hr => hnow.2 r (hmore hr)⟩

/-- A genuine token stays so with fewer revocations. -/
theorem Genuine.of_revocations {compact : String} {snapshot : AdmissionKeySnapshot}
    {revocations : List AdmissionRevocation} {expectedEventId : Uuid}
    {claims : AdmissionTokenClaims} (hshape : fmt.snapshotShape snapshot = .ok ())
    (h : Genuine ed fmt compact { snapshot with revocations } expectedEventId claims) :
    Genuine ed fmt compact snapshot expectedEventId claims := by
  obtain ⟨key, vk, payload, hsigned⟩ := h.signed
  exact ⟨hshape, h.snapshot_event, h.claims_event, h.le_validUntil, key, vk, payload,
    hsigned.payload_eq, hsigned.claims_shape, hsigned.key_eq, hsigned.key_valid,
    hsigned.activeFrom_le, hsigned.le_retireAt, hsigned.vk_eq, hsigned.verified⟩

/-- Acceptance is a half-open interval of time.  For every text, snapshot and event, either
the text is accepted at no instant, or there are claims with which it is accepted exactly
from `opensAt` inclusive to `closesAt` exclusive.  So a token that was accepted and later
refused is not accepted again; and with more revocations the interval only closes earlier,
and nothing that was refused is accepted. -/
theorem acceptance_interval (compact : String) (snapshot : AdmissionKeySnapshot)
    (expectedEventId : Uuid) :
    ((∀ now claims,
        verifyAdmissionToken ed fmt compact snapshot expectedEventId now ≠ .ok claims) ∨
      ∃ claims, ∀ now c,
        verifyAdmissionToken ed fmt compact snapshot expectedEventId now = .ok c ↔
          c = claims ∧ now ∈ Set.Ico (opensAt snapshot claims) (closesAt snapshot claims)) ∧
    (∀ now₁ now₂ now₃ claims, now₁ ≤ now₂ → now₂ ≤ now₃ →
      verifyAdmissionToken ed fmt compact snapshot expectedEventId now₁ = .ok claims →
      (∀ c, verifyAdmissionToken ed fmt compact snapshot expectedEventId now₂ ≠ .ok c) →
      ∀ c, verifyAdmissionToken ed fmt compact snapshot expectedEventId now₃ ≠ .ok c) ∧
    ∀ revocations : List AdmissionRevocation, snapshot.revocations ⊆ revocations →
      fmt.snapshotShape snapshot = .ok () →
      (∀ claims, opensAt { snapshot with revocations } claims = opensAt snapshot claims ∧
        closesAt { snapshot with revocations } claims ≤ closesAt snapshot claims) ∧
      ∀ now claims,
        verifyAdmissionToken ed fmt compact { snapshot with revocations } expectedEventId now =
          .ok claims →
        verifyAdmissionToken ed fmt compact snapshot expectedEventId now = .ok claims := by
  refine ⟨?_, ?_, ?_⟩
  · by_cases hgenuine : ∃ claims, Genuine ed fmt compact snapshot expectedEventId claims
    · obtain ⟨claims, hclaims⟩ := hgenuine
      refine Or.inr ⟨claims, fun now c => ?_⟩
      rw [accepted_iff]
      constructor
      · rintro ⟨hc, hnow⟩
        obtain rfl := hc.claims_eq hclaims
        exact ⟨rfl, hnow⟩
      · rintro ⟨rfl, hnow⟩
        exact ⟨hclaims, hnow⟩
    · exact Or.inl fun now claims haccept => hgenuine ⟨claims, (accepted_iff.mp haccept).1⟩
  · intro now₁ now₂ now₃ claims h₁₂ h₂₃ haccept hrefuse c hagain
    obtain ⟨hgenuine, hnow₁⟩ := accepted_iff.mp haccept
    obtain ⟨hgenuine', hnow₃⟩ := accepted_iff.mp hagain
    obtain rfl := hgenuine.claims_eq hgenuine'
    -- an interval holds what lies between two of its instants
    exact hrefuse claims (accepted_iff.mpr ⟨hgenuine, hnow₁.1.trans h₁₂, h₂₃.trans_lt hnow₃.2⟩)
  · intro revocations hmore hshape
    refine ⟨fun claims => ⟨rfl, closesAt_anti hmore claims⟩, fun now claims haccept => ?_⟩
    obtain ⟨hgenuine, hopens, hcloses⟩ := accepted_iff.mp haccept
    exact accepted_iff.mpr ⟨hgenuine.of_revocations hshape, hopens,
      hcloses.trans_le (closesAt_anti hmore claims)⟩

/-! ## Other keys -/

/-- What a snapshot says about one token: its event and its window, the keys for the
token's key id and epoch, and the revocations that cover the token. -/
structure AgreeOn (claims : AdmissionTokenClaims) (snapshot snapshot' : AdmissionKeySnapshot) :
    Prop where
  keys : ∀ key : AdmissionVerificationKey, key.keyId = claims.keyId →
    key.issuanceEpoch = claims.issuanceEpoch → (key ∈ snapshot.keys ↔ key ∈ snapshot'.keys)
  revocations : ∀ r : AdmissionRevocation, r.ticketId = claims.ticketId →
    claims.issuanceEpoch ≤ r.issuanceEpoch →
      (r ∈ snapshot.revocations ↔ r ∈ snapshot'.revocations)

/-- What tells the keys of a snapshot apart. -/
def identity (key : AdmissionVerificationKey) : String × ℤ := (key.keyId, key.issuanceEpoch)

theorem findKey_eq_lookup (snapshot : AdmissionKeySnapshot) (claims : AdmissionTokenClaims) :
    findKey snapshot claims =
      lookup identity snapshot.keys (claims.keyId, claims.issuanceEpoch) := by
  simp only [findKey, lookup, identity, Prod.mk.injEq]

theorem AgreeOn.findKey_eq {claims : AdmissionTokenClaims}
    {snapshot snapshot' : AdmissionKeySnapshot} (h : AgreeOn claims snapshot snapshot')
    (hdistinct : (snapshot.keys.map identity).Nodup)
    (hdistinct' : (snapshot'.keys.map identity).Nodup) :
    findKey snapshot claims = findKey snapshot' claims := by
  rw [findKey_eq_lookup, findKey_eq_lookup]
  refine lookup_congr hdistinct hdistinct' fun key hkey => ?_
  obtain ⟨hid, hepoch⟩ := Prod.mk.inj hkey
  exact h.keys key hid hepoch

theorem AgreeOn.isRevoked_eq {claims : AdmissionTokenClaims}
    {snapshot snapshot' : AdmissionKeySnapshot} (h : AgreeOn claims snapshot snapshot')
    (now : Instant) : isRevoked snapshot claims now = isRevoked snapshot' claims now := by
  refine Bool.eq_iff_iff.mpr (not_iff_not.mp ?_)
  rw [Bool.not_eq_true, Bool.not_eq_true, isRevoked_eq_false_iff, isRevoked_eq_false_iff]
  constructor
  · exact fun hnone r hr ht he => hnone r ((h.revocations r ht he).mpr hr) ht he
  · exact fun hnone r hr ht he => hnone r ((h.revocations r ht he).mp hr) ht he

/-- Key rotation does not disturb other epochs.  For every text, event and instant: two
well-shaped snapshots with distinct keys that agree on event and window, on the key for the
token's key id and epoch, and on the revocations that cover the token, have the same
answer, whatever other keys and revocations they hold and in which order. -/
theorem rotation_undisturbed {compact : String} {expectedEventId : Uuid} {now : Instant}
    {snapshot snapshot' : AdmissionKeySnapshot}
    (hevent : snapshot.eventId = snapshot'.eventId)
    (hgenerated : snapshot.generatedAt = snapshot'.generatedAt)
    (hvalid : snapshot.validUntil = snapshot'.validUntil)
    (hshape : fmt.snapshotShape snapshot = .ok ()) (hshape' : fmt.snapshotShape snapshot' = .ok ())
    (hdistinct : (snapshot.keys.map identity).Nodup)
    (hdistinct' : (snapshot'.keys.map identity).Nodup)
    (hagree : ∀ payload signature claims, decodeCompact compact = .ok (payload, signature) →
      fmt.fromSlice payload = some claims → AgreeOn claims snapshot snapshot') :
    verifyAdmissionToken ed fmt compact snapshot expectedEventId now =
      verifyAdmissionToken ed fmt compact snapshot' expectedEventId now := by
  simp only [verifyAdmissionToken, hshape, hshape', hevent, hgenerated, hvalid]
  cases hcompact : decodeCompact compact with
  | error e => rfl
  | ok parts =>
      obtain ⟨payload, signature⟩ := parts
      simp only [ok_bind]
      cases hread : fmt.fromSlice payload with
      | none => rfl
      | some claims =>
          have h := hagree payload signature claims hcompact hread
          simp only [okOr, ok_bind, h.findKey_eq hdistinct hdistinct', h.isRevoked_eq now]

end Acceptance

/-- A malformed key of another epoch and the revocation of an earlier epoch do not disturb
the sample token. -/
theorem rotation_undisturbed_sample :
    verifyAdmissionToken Sample.scheme Sample.format Sample.compact
        { Sample.snapshot with
          keys := ⟨"k", 0, "?", 0, 1000⟩ :: Sample.snapshot.keys
          revocations := [⟨8, 0, 90⟩] } 7 150 =
      .ok Sample.claims := by
  have haccept : verifyAdmissionToken Sample.scheme Sample.format Sample.compact Sample.snapshot
      7 150 = .ok Sample.claims := by decide +kernel
  rw [← haccept]
  refine rotation_undisturbed rfl rfl rfl (by decide) (by decide) (by decide) (by decide) ?_
  rintro payload signature claims - hread
  obtain rfl : claims = Sample.claims := by
    simp only [Sample.format, Option.ite_none_right_eq_some, Option.some.injEq] at hread
    exact hread.2.symm
  refine ⟨fun key _ hepoch => ?_, fun r _ hepoch => ?_⟩
  · rw [List.mem_cons, or_iff_right]
    rintro rfl
    exact absurd hepoch (by decide)
  · rw [List.mem_singleton]
    refine ⟨?_, fun h => absurd h List.not_mem_nil⟩
    rintro rfl
    exact absurd hepoch (by decide)

end Admission
