/-
# The compact format of tokens

A compact token is the base64 text of its payload, a dot, and the base64 text of its
signature.  The format is a bijection: `decode_compact` accepts exactly the texts that
`sign` builds, so an accepted token has one spelling, and everything else is malformed.

`Misspelt` lists the ways in which a text fails to be a compact token.
-/
import EvglApi.AdmissionToken

open Fallible

namespace Admission

/-! ## What is accepted -/

/-- A text that decodes is the compact token of its parts. -/
theorem encodeCompact_of_decodeCompact {compact : String} {payload : Bytes}
    {signature : FixedBytes 64} (h : decodeCompact compact = .ok (payload, signature)) :
    payload ≠ [] ∧ compact = encodeCompact payload signature := by
  rw [decodeCompact] at h
  split at h
  case h_2 => cases h
  case h_1 p s hparts =>
    simp only [bind_eq_ok, refuseIf_eq_ok, okOr_eq_ok, pure_eq_ok, Except.ok.injEq,
      Prod.mk.injEq, not_or, List.isEmpty_iff, decodeSignature, decodeBytes] at h
    obtain ⟨-, ⟨hp, -⟩, bs, hpayload, sig, ⟨bs', hsignature, hsig⟩, rfl, rfl⟩ := h
    split at hsig
    case isFalse => cases hsig
    case isTrue hlength =>
      obtain rfl := Except.ok.inj hsig
      have hp' := congrArg String.toList (encodeText_of_decodeText hpayload)
      have hs' := congrArg String.toList (encodeText_of_decodeText hsignature)
      rw [String.toList_ofList] at hp' hs'
      constructor
      · -- an empty payload has an empty text
        rintro rfl
        exact hp (hp'.symm.trans (by simp [encodeText, Base64.encode_eq_nil_iff]))
      · refine String.toList_inj.mp ?_
        have hjoin : ['.'].intercalate (compact.toList.splitOn '.') = compact.toList :=
          List.intercalate_splitOn '.'
        rw [← hjoin, hparts]
        simp [encodeCompact, hp', hs', List.intercalate]

theorem decodeCompact_eq_ok_iff {compact : String} {payload : Bytes} {signature : FixedBytes 64} :
    decodeCompact compact = .ok (payload, signature) ↔
      payload ≠ [] ∧ compact = encodeCompact payload signature := by
  constructor
  · exact encodeCompact_of_decodeCompact
  · rintro ⟨hp, rfl⟩
    exact decodeCompact_encodeCompact signature hp

/-! ## What is malformed -/

theorem eq_malformed_of_decodeBytes {n : ℕ} {value : String} {e : AdmissionError}
    (h : decodeBytes n value = .error e) : e = .malformed := by
  simp only [decodeBytes, bind_eq_error, okOr_eq_error] at h
  rcases h with ⟨-, rfl⟩ | ⟨bs, -, h⟩
  · rfl
  · split at h
    · cases h
    · exact (Except.error.inj h).symm

/-- There is one error. -/
theorem eq_malformed_of_decodeCompact {compact : String} {e : AdmissionError}
    (h : decodeCompact compact = .error e) : e = .malformed := by
  rw [decodeCompact] at h
  split at h
  · simp only [bind_eq_error, refuseIf_eq_error, okOr_eq_error, pure_eq_ok, reduceCtorEq,
      and_false, exists_false, or_false] at h
    rcases h with ⟨-, rfl⟩ | ⟨-, -, ⟨-, rfl⟩ | ⟨bs, -, h⟩⟩
    · rfl
    · rfl
    · exact eq_malformed_of_decodeBytes h
  · exact (Except.error.inj h).symm

/-- A text that is no compact token is malformed. -/
theorem decodeCompact_eq_malformed {compact : String}
    (h : ∀ payload signature, payload ≠ [] → compact ≠ encodeCompact payload signature) :
    decodeCompact compact = .error .malformed := by
  cases hdecode : decodeCompact compact with
  | error e => rw [eq_malformed_of_decodeCompact hdecode]
  | ok parts =>
      obtain ⟨hp, heq⟩ := encodeCompact_of_decodeCompact hdecode
      exact absurd heq (h parts.1 parts.2 hp)

/-- The ways to misspell a compact token; its parts are what stands between the dots. -/
inductive Misspelt (compact : String) : Prop
  | dots (h : compact.toList.count '.' ≠ 1)
  | empty (h : [] ∈ compact.toList.splitOn '.')
  | letter {c : Char} (h : c ∈ compact.toList) (hdot : c ≠ '.')
      (hletter : Base64.urlSafe.value c = none)
  | length {part : List Char} (h : part ∈ compact.toList.splitOn '.')
      (hlength : part.length % 4 = 1)
  | bits {part : List Char} {digits : List (Fin 64)} (h : part ∈ compact.toList.splitOn '.')
      (hdigits : part.mapM Base64.urlSafe.value = some digits)
      (hbits : Base64.hasStrayBits digits = true)
  | signature {payload signature : List Char} {bs : Bytes}
      (h : compact.toList.splitOn '.' = [payload, signature])
      (hdecode : Base64.decode Base64.urlSafe signature = some bs) (hlength : bs.length ≠ 64)

/-- Padding and white space are no letters of the alphabet. -/
theorem value_eq_none {c : Char} (h : c = '=' ∨ isWhiteSpace c = true) :
    Base64.urlSafe.value c = none := by
  have hletters : (Base64.urlSafeLetters.all fun c => c != '=' && !isWhiteSpace c) = true := by
    decide +kernel
  refine Option.eq_none_iff_forall_not_mem.mpr fun v hv => ?_
  obtain rfl := Base64.urlSafe.symbol_of_value c v hv
  have hletter := List.all_eq_true.mp hletters (Base64.urlSafe.symbol v) (List.get_mem _ _)
  obtain ⟨hpadding, hspace⟩ := Bool.and_eq_true_iff.mp hletter
  rcases h with h | h
  · exact bne_iff_ne.mp hpadding h
  · rw [h] at hspace
    cases hspace

/-- A text with padding or white space is misspelt. -/
theorem Misspelt.of_padding {compact : String} {c : Char} (h : c ∈ compact.toList)
    (hc : c = '=' ∨ isWhiteSpace c = true) : Misspelt compact := by
  refine .letter h ?_ (value_eq_none hc)
  rintro rfl
  revert hc
  decide

/-- A part of a compact token is the text of a byte string that is not empty. -/
theorem exists_of_mem_splitOn_encodeCompact {payload : Bytes} {signature : FixedBytes 64}
    (hp : payload ≠ []) {part : List Char}
    (h : part ∈ (encodeCompact payload signature).toList.splitOn '.') :
    ∃ bs, bs ≠ [] ∧ part = Base64.encode Base64.urlSafe bs := by
  rw [splitOn_encodeCompact] at h
  rcases List.mem_pair.mp h with rfl | rfl
  · exact ⟨payload, hp, rfl⟩
  · refine ⟨signature.val, fun hnil => ?_, rfl⟩
    have hlength := signature.property
    rw [hnil] at hlength
    cases hlength

/-- A misspelt text is no compact token. -/
theorem Misspelt.ne_encodeCompact {compact : String} (h : Misspelt compact) {payload : Bytes}
    (signature : FixedBytes 64) (hp : payload ≠ []) :
    compact ≠ encodeCompact payload signature := by
  rintro rfl
  cases h with
  | dots h =>
      refine h ?_
      simp [encodeCompact, encodeText, List.count_eq_zero.mpr (dot_notMem_encode _)]
  | empty h =>
      obtain ⟨bs, hbs, hpart⟩ := exists_of_mem_splitOn_encodeCompact hp h
      exact hbs ((Base64.encode_eq_nil_iff _ _).mp hpart.symm)
  | @letter c h hdot hletter =>
      have hpart : ∃ bs, c ∈ Base64.encode Base64.urlSafe bs := by
        simp only [encodeCompact, encodeText, String.toList_append, String.toList_ofList,
          List.mem_append] at h
        rcases h with (h | h) | h
        · exact ⟨_, h⟩
        · exact absurd (by simpa using h) hdot
        · exact ⟨_, h⟩
      obtain ⟨bs, hc⟩ := hpart
      have hsome := Base64.value_isSome_of_mem_encode Base64.urlSafe hc
      rw [hletter] at hsome
      cases hsome
  | length h hlength =>
      obtain ⟨bs, -, rfl⟩ := exists_of_mem_splitOn_encodeCompact hp h
      obtain ⟨ds, hds⟩ :
        ∃ ds, (Base64.encode Base64.urlSafe bs).mapM Base64.urlSafe.value = some ds :=
        ⟨_, Base64.mapM_value_map_symbol Base64.urlSafe (Base64.sextets bs)⟩
      exact (Base64.digits_of_encode Base64.urlSafe hds).1 hlength
  | bits h hdigits hbits =>
      obtain ⟨bs, -, rfl⟩ := exists_of_mem_splitOn_encodeCompact hp h
      rw [(Base64.digits_of_encode Base64.urlSafe hdigits).2] at hbits
      cases hbits
  | signature h hdecode hlength =>
      rw [splitOn_encodeCompact] at h
      obtain ⟨-, rfl⟩ : _ ∧ Base64.encode Base64.urlSafe signature.val = _ := by simpa using h
      rw [Base64.decode_encode] at hdecode
      obtain rfl := Option.some.inj hdecode
      exact hlength signature.property

/-! ## The bijection -/

/-- The compact format is a bijection.  The text that `sign` builds from a payload that is not
empty and a signature decodes to them; a text that decodes is the one built from what it
decodes to; and every other text, in particular every misspelt one, is malformed.  So no
token has a second spelling. -/
theorem compact_bijective :
    (∀ (payload : Bytes) (signature : FixedBytes 64), payload ≠ [] →
      decodeCompact (encodeCompact payload signature) = .ok (payload, signature)) ∧
    (∀ (compact : String) (payload : Bytes) (signature : FixedBytes 64),
      decodeCompact compact = .ok (payload, signature) →
        payload ≠ [] ∧ compact = encodeCompact payload signature) ∧
    (∀ compact, (∀ payload signature, payload ≠ [] → compact ≠ encodeCompact payload signature) →
      decodeCompact compact = .error .malformed) ∧
    (∀ compact, Misspelt compact → decodeCompact compact = .error .malformed) ∧
    (∀ compact c, c ∈ compact.toList → c = '=' ∨ isWhiteSpace c = true →
      decodeCompact compact = .error .malformed) ∧
    ∀ compact compact' parts, decodeCompact compact = .ok parts →
      decodeCompact compact' = .ok parts → compact = compact' := by
  have hmisspelt : ∀ compact, Misspelt compact → decodeCompact compact = .error .malformed :=
    fun _ h => decodeCompact_eq_malformed fun _ signature hp => h.ne_encodeCompact signature hp
  refine ⟨fun _ signature hp => decodeCompact_encodeCompact signature hp,
    fun _ _ _ h => encodeCompact_of_decodeCompact h, fun _ h => decodeCompact_eq_malformed h,
    hmisspelt, fun compact c h hc => hmisspelt compact (.of_padding h hc), ?_⟩
  intro compact compact' parts h h'
  rw [(encodeCompact_of_decodeCompact h).2, (encodeCompact_of_decodeCompact h').2]

end Admission
