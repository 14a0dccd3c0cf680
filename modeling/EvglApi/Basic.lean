/-
# Values shared by the whole service

Identifiers, instants and byte strings.

* A `Uuid` is its 128-bit value read as a natural number; `Ord` of the Rust type
  is the order of these values.
* An `Instant` (`chrono::DateTime<Utc>`) is the number of nanoseconds since the
  Unix epoch, and a `Duration` is a number of nanoseconds.
* An `i64` is an integer: no modelled function does arithmetic on one.
-/
import EvglApi.Numerals

open Numerals

/-- An identifier (`uuid::Uuid`). -/
abbrev Uuid := ℕ

/-- An instant (`chrono::DateTime<Utc>`), in nanoseconds since the epoch. -/
abbrev Instant := ℤ

/-- A length of time (`chrono::Duration`), in nanoseconds. -/
abbrev Duration := ℤ

/-- A byte string (`Vec<u8>`). -/
abbrev Bytes := List UInt8

/-- A byte string of a fixed length (`[u8; n]`). -/
abbrev FixedBytes (n : ℕ) := { bs : Bytes // bs.length = n }

/-- The characters with the Unicode property `White_Space`, which
`str::trim` removes. -/
def isWhiteSpace (c : Char) : Bool :=
  let n := c.toNat
  (9 ≤ n && n ≤ 13) || n == 0x20 || n == 0x85 || n == 0xA0 || n == 0x1680 ||
    (0x2000 ≤ n && n ≤ 0x200A) || n == 0x2028 || n == 0x2029 || n == 0x202F ||
    n == 0x205F || n == 0x3000

/-- `text.trim().is_empty()`. -/
def trimIsEmpty (text : String) : Bool := text.toList.all isWhiteSpace

/-- The lower-case hexadecimal digit of a number below 16. -/
def hexDigit (n : ℕ) : Char := "0123456789abcdef".toList.getD n '0'

/-- The hyphenated text of an identifier (`Uuid`'s `Display`): 32 hexadecimal digits, the
first of which is written separately. -/
def uuidText (id : Uuid) : String :=
  String.ofList <| Nat.toDigits 16 (id / 16 ^ 31) ++ (List.range 31).flatMap fun i =>
    let digit := hexDigit (id / 16 ^ (30 - i) % 16)
    if i ∈ [7, 11, 15, 19] then ['-', digit] else [digit]

/-! ## Identifiers are determined by their texts -/

/-- Different digits are written differently. -/
theorem hexDigit_injOn {m n : ℕ} (hm : m < 16) (hn : n < 16) (h : hexDigit m = hexDigit n) :
    m = n := by
  have hall : ∀ m' : Fin 16, ∀ n' : Fin 16, hexDigit m' = hexDigit n' → m'.val = n'.val := by
    decide
  exact hall ⟨m, hm⟩ ⟨n, hn⟩ h

/-- Different identifiers have different texts: each digit is at its own place. -/
theorem uuidText_injective : Function.Injective uuidText := by
  intro m n h
  obtain ⟨hfirst, hrest⟩ := List.append_inj' (String.ofList_injective h) rfl
  have hhigh : m / 16 ^ 31 = n / 16 ^ 31 := toDigits_injective (by decide) (Nat.le_refl 16) hfirst
  have hgroups := flatMap_inj (fun i _ => by dsimp only; split <;> rfl) hrest
  have hlow : m % 16 ^ 31 = n % 16 ^ 31 := by
    refine mod_pow_eq fun k hk => ?_
    have hdigit := hgroups (30 - k) (List.mem_range.mpr (by omega))
    have hk' : 30 - (30 - k) = k := by omega
    refine hexDigit_injOn (Nat.mod_lt _ (by decide)) (Nat.mod_lt _ (by decide)) ?_
    dsimp only at hdigit
    rw [hk'] at hdigit
    split at hdigit
    · exact (List.cons.inj (List.cons.inj hdigit).2).1
    · exact (List.cons.inj hdigit).1
  rw [← Nat.div_add_mod m (16 ^ 31), hhigh, hlow, Nat.div_add_mod]

theorem hexDigit_ne_colon {n : ℕ} (hn : n < 16) : hexDigit n ≠ ':' := by
  have hall : ∀ n' : Fin 16, hexDigit n' ≠ ':' := by decide
  exact hall ⟨n, hn⟩

/-- A text of an identifier has no colon in it, so that it may be a part of a text that
colons divide. -/
theorem colon_notMem_uuidText (id : Uuid) : ':' ∉ (uuidText id).toList := by
  intro h
  rw [uuidText, String.toList_ofList] at h
  rcases List.mem_append.mp h with h | h
  · obtain ⟨d, hd, heq⟩ := exists_of_mem_toDigits (by decide) h
    have hall : ∀ d' : Fin 16, ':' ≠ d'.val.digitChar := by decide
    exact hall ⟨d, hd⟩ heq
  · obtain ⟨i, -, hi⟩ := List.mem_flatMap.mp h
    have hdigit := (hexDigit_ne_colon (Nat.mod_lt (id / 16 ^ (30 - i)) (by decide : 0 < 16))).symm
    dsimp only at hi
    split at hi
    · rcases List.mem_cons.mp hi with hi | hi
      · exact absurd hi (by decide)
      · exact hdigit (List.mem_singleton.mp hi)
    · exact hdigit (List.mem_singleton.mp hi)
