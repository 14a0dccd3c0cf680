/-
# Unpadded base64

The text encoding of RFC 4648 without padding, over any alphabet of 64 letters.
A byte string is read as a list of six-bit digits (`sextets`), three bytes at a
time, and the digits are written in the letters of the alphabet (`encode`).
`decode` is the strict inverse: it refuses a letter outside the alphabet, a
group of one letter, and a last group whose unused low bits are not zero.

The two round-trip facts are

* `decode_encode` : every byte string is decoded from its own text;
* `encode_of_decode` : a text that decodes is the text of what it decodes to,
  so that no byte string has two spellings.
-/
import Mathlib.Data.Fin.Basic
import Mathlib.Data.List.Basic
import Mathlib.Tactic.Ring
import Mathlib.Tactic.Linarith

namespace Base64

/-! ## Alphabets -/

/-- An alphabet of 64 letters, with the inverse table. -/
structure Alphabet where
  symbol : Fin 64 → Char
  value : Char → Option (Fin 64)
  value_symbol : ∀ v, value (symbol v) = some v
  symbol_of_value : ∀ c v, value c = some v → symbol v = c

/-- The letters of the URL-safe alphabet, in the order of their values. -/
def urlSafeLetters : List Char :=
  "ABCDEFGHIJKLMNOPQRSTUVWXYZabcdefghijklmnopqrstuvwxyz0123456789-_".toList

theorem length_urlSafeLetters : urlSafeLetters.length = 64 := by decide

/-- The URL-safe alphabet. -/
def urlSafe : Alphabet where
  symbol v := urlSafeLetters.get (v.cast length_urlSafeLetters.symm)
  value c := (urlSafeLetters.finIdxOf? c).map (Fin.cast length_urlSafeLetters)
  value_symbol := by decide
  symbol_of_value c v h := by
    obtain ⟨i, hi, rfl⟩ := Option.map_eq_some_iff.mp h
    simpa using (List.finIdxOf?_eq_some_iff.mp hi).1

/-! ## Six-bit digits -/

/-- The six-bit digits of a byte string; a last group of one or two bytes is
filled with zero bits. -/
def sextets : List UInt8 → List (Fin 64)
  | [] => []
  | [a] =>
      [⟨a.toNat / 4, by have := a.toNat_lt; omega⟩, ⟨a.toNat % 4 * 16, by omega⟩]
  | [a, b] =>
      [⟨a.toNat / 4, by have := a.toNat_lt; omega⟩,
       ⟨a.toNat % 4 * 16 + b.toNat / 16, by have := b.toNat_lt; omega⟩,
       ⟨b.toNat % 16 * 4, by omega⟩]
  | a :: b :: c :: rest =>
      ⟨a.toNat / 4, by have := a.toNat_lt; omega⟩ ::
      ⟨a.toNat % 4 * 16 + b.toNat / 16, by have := b.toNat_lt; omega⟩ ::
      ⟨b.toNat % 16 * 4 + c.toNat / 64, by have := c.toNat_lt; omega⟩ ::
      ⟨c.toNat % 64, by omega⟩ :: sextets rest

/-- The byte string of a list of six-bit digits, if there is one: no group of one
digit, and zero bits where `sextets` fills them in. -/
def octets : List (Fin 64) → Option (List UInt8)
  | [] => some []
  | [_] => none
  | [w, x] =>
      if x.val % 16 = 0 then some [UInt8.ofNat (w.val * 4 + x.val / 16)] else none
  | [w, x, y] =>
      if y.val % 4 = 0 then
        some [UInt8.ofNat (w.val * 4 + x.val / 16), UInt8.ofNat (x.val % 16 * 16 + y.val / 4)]
      else none
  | w :: x :: y :: z :: rest =>
      (octets rest).map fun bs =>
        UInt8.ofNat (w.val * 4 + x.val / 16) :: UInt8.ofNat (x.val % 16 * 16 + y.val / 4) ::
          UInt8.ofNat (y.val % 4 * 64 + z.val) :: bs

/-- A byte is determined by its value. -/
theorem ofNat_eq_of_toNat {n : ℕ} {a : UInt8} (h : n = a.toNat) : UInt8.ofNat n = a := by
  rw [h]
  exact UInt8.ofNat_toNat

/-- A value below 256 survives being stored in a byte. -/
theorem toNat_ofNat_of_lt {n : ℕ} (h : n < 256) : (UInt8.ofNat n).toNat = n := by
  rw [UInt8.toNat_ofNat']
  exact Nat.mod_eq_of_lt h

/-- Reading the digits of a byte string gives the byte string back. -/
theorem octets_sextets (bs : List UInt8) : octets (sextets bs) = some bs := by
  induction bs using sextets.induct with
  | case1 => rfl
  | case2 a =>
      have ha := a.toNat_lt
      rw [sextets, octets, if_pos (by dsimp only; omega)]
      rw [ofNat_eq_of_toNat (a := a) (by dsimp only; omega)]
  | case3 a b =>
      have ha := a.toNat_lt
      have hb := b.toNat_lt
      rw [sextets, octets, if_pos (by dsimp only; omega)]
      rw [ofNat_eq_of_toNat (a := a) (by dsimp only; omega),
        ofNat_eq_of_toNat (a := b) (by dsimp only; omega)]
  | case4 a b c rest ih =>
      have ha := a.toNat_lt
      have hb := b.toNat_lt
      have hc := c.toNat_lt
      rw [sextets, octets, ih, Option.map_some]
      rw [ofNat_eq_of_toNat (a := a) (by dsimp only; omega),
        ofNat_eq_of_toNat (a := b) (by dsimp only; omega),
        ofNat_eq_of_toNat (a := c) (by dsimp only; omega)]

/-- Digits that spell a byte string are its digits. -/
theorem sextets_of_octets (ds : List (Fin 64)) (bs : List UInt8) (h : octets ds = some bs) :
    sextets bs = ds := by
  induction ds using octets.induct generalizing bs with
  | case1 => obtain rfl : [] = bs := Option.some.inj h; rfl
  | case2 w => exact absurd h (by simp [octets])
  | case3 w x hx =>
      rw [octets, if_pos hx] at h
      obtain rfl := Option.some.inj h
      have h1 := toNat_ofNat_of_lt (n := w.val * 4 + x.val / 16) (by omega)
      simp only [sextets, h1, List.cons.injEq, Fin.ext_iff, and_true]
      omega
  | case4 w x hx => rw [octets, if_neg hx] at h; cases h
  | case5 w x y hy =>
      rw [octets, if_pos hy] at h
      obtain rfl := Option.some.inj h
      have h1 := toNat_ofNat_of_lt (n := w.val * 4 + x.val / 16) (by omega)
      have h2 := toNat_ofNat_of_lt (n := x.val % 16 * 16 + y.val / 4) (by omega)
      simp only [sextets, h1, h2, List.cons.injEq, Fin.ext_iff, and_true]
      omega
  | case6 w x y hy => rw [octets, if_neg hy] at h; cases h
  | case7 w x y z rest ih =>
      rw [octets] at h
      obtain ⟨tail, htail, rfl⟩ := Option.map_eq_some_iff.mp h
      have h1 := toNat_ofNat_of_lt (n := w.val * 4 + x.val / 16) (by omega)
      have h2 := toNat_ofNat_of_lt (n := x.val % 16 * 16 + y.val / 4) (by omega)
      have h3 := toNat_ofNat_of_lt (n := y.val % 4 * 64 + z.val) (by omega)
      simp only [sextets, h1, h2, h3, ih tail htail, List.cons.injEq, Fin.ext_iff, and_true]
      omega

/-- The last group of a list of digits has bits that `sextets` never sets. -/
def hasStrayBits : List (Fin 64) → Bool
  | [] => false
  | [_] => false
  | [_, x] => x.val % 16 ≠ 0
  | [_, _, y] => y.val % 4 ≠ 0
  | _ :: _ :: _ :: _ :: rest => hasStrayBits rest

/-- Digits spell a byte string if no group has one digit and no stray bits are set. -/
theorem octets_isSome_iff (ds : List (Fin 64)) :
    (octets ds).isSome ↔ ds.length % 4 ≠ 1 ∧ hasStrayBits ds = false := by
  induction ds using octets.induct with
  | case1 => simp [octets, hasStrayBits]
  | case2 w => simp [octets]
  | case3 w x hx => simp [octets, hasStrayBits, hx]
  | case4 w x hx => simp [octets, hasStrayBits, hx]
  | case5 w x y hy => simp [octets, hasStrayBits, hy]
  | case6 w x y hy => simp [octets, hasStrayBits, hy]
  | case7 w x y z rest ih =>
      have hlength : (w :: x :: y :: z :: rest).length % 4 = rest.length % 4 := by
        simp only [List.length_cons]
        omega
      rw [octets, Option.isSome_map, ih, hasStrayBits, hlength]

/-- Only the empty byte string has no digits. -/
theorem sextets_eq_nil_iff (bs : List UInt8) : sextets bs = [] ↔ bs = [] := by
  cases bs using sextets.fun_cases <;> simp [sextets]

/-! ## Text -/

variable (A : Alphabet)

/-- The text of a byte string. -/
def encode (bs : List UInt8) : List Char := (sextets bs).map A.symbol

/-- The byte string a text spells. -/
def decode (cs : List Char) : Option (List UInt8) := cs.mapM A.value >>= octets

/-- A text written from digits is read back as those digits. -/
theorem mapM_value_map_symbol (ds : List (Fin 64)) :
    (ds.map A.symbol).mapM A.value = some ds := by
  induction ds with
  | nil => rfl
  | cons d ds ih => simp [List.mapM_cons, A.value_symbol, ih]

/-- A text read as digits is the text written from them. -/
theorem map_symbol_of_mapM_value (cs : List Char) (ds : List (Fin 64))
    (h : cs.mapM A.value = some ds) : ds.map A.symbol = cs := by
  induction cs generalizing ds with
  | nil => obtain rfl : [] = ds := by simpa using h
           rfl
  | cons c cs ih =>
      simp only [List.mapM_cons, Option.pure_def, Option.bind_eq_bind,
        Option.bind_eq_some_iff] at h
      obtain ⟨v, hv, vs, hvs, heq⟩ := h
      obtain rfl := Option.some.inj heq
      rw [List.map_cons, ih vs hvs, A.symbol_of_value c v hv]

/-- Every byte string is decoded from its own text. -/
theorem decode_encode (bs : List UInt8) : decode A (encode A bs) = some bs := by
  rw [decode, encode, mapM_value_map_symbol]
  exact octets_sextets bs

/-- A text that decodes is the text of what it decodes to. -/
theorem encode_of_decode {cs : List Char} {bs : List UInt8} (h : decode A cs = some bs) :
    encode A bs = cs := by
  obtain ⟨ds, hds, hbs⟩ := Option.bind_eq_some_iff.mp h
  rw [encode, sextets_of_octets ds bs hbs]
  exact map_symbol_of_mapM_value A cs ds hds

/-- The text of a byte string has no group of one letter, and no stray bits. -/
theorem digits_of_encode {bs : List UInt8} {ds : List (Fin 64)}
    (h : (encode A bs).mapM A.value = some ds) :
    (encode A bs).length % 4 ≠ 1 ∧ hasStrayBits ds = false := by
  rw [encode, mapM_value_map_symbol] at h
  obtain rfl := Option.some.inj h
  rw [encode, List.length_map]
  exact (octets_isSome_iff (sextets bs)).mp (by rw [octets_sextets]; rfl)

/-- Only the empty byte string has the empty text. -/
theorem encode_eq_nil_iff (bs : List UInt8) : encode A bs = [] ↔ bs = [] := by
  rw [encode, List.map_eq_nil_iff, sextets_eq_nil_iff]

/-- Every character of a text is a letter of the alphabet. -/
theorem value_isSome_of_mem_encode {bs : List UInt8} {c : Char} (h : c ∈ encode A bs) :
    (A.value c).isSome := by
  obtain ⟨v, -, rfl⟩ := List.mem_map.mp h
  rw [A.value_symbol]
  rfl

end Base64
