/-
# Numbers as texts

A number is determined by its digits, and by the text of its digits in a base up to 16.
-/
import Mathlib.Algebra.Group.Nat.Defs
import Mathlib.Data.Int.Order.Basic
import Mathlib.Data.List.Basic

namespace Numerals

/-! ## Digits -/

/-- The digits of two numbers below position `k` are those of their remainders. -/
theorem mod_pow_eq {b m n k : ℕ} (h : ∀ i < k, m / b ^ i % b = n / b ^ i % b) :
    m % b ^ k = n % b ^ k := by
  induction k with
  | zero => rw [Nat.pow_zero, Nat.mod_one, Nat.mod_one]
  | succ k ih =>
      have hlow := ih fun i hi => h i (Nat.lt_succ_of_lt hi)
      have hdigit := h k (Nat.lt_succ_self k)
      rw [Nat.mod_pow_succ, Nat.mod_pow_succ, hlow, hdigit]

theorem digitChar_injOn {m n : ℕ} (hm : m < 16) (hn : n < 16)
    (h : m.digitChar = n.digitChar) : m = n := by
  have hall : ∀ m' : Fin 16, ∀ n' : Fin 16,
      m'.val.digitChar = n'.val.digitChar → m'.val = n'.val := by decide
  exact hall ⟨m, hm⟩ ⟨n, hn⟩ h

/-- A number is determined by its text. -/
theorem toDigits_injective {b : ℕ} (hb : 1 < b) (hb' : b ≤ 16) :
    Function.Injective (Nat.toDigits b) := by
  intro m
  -- the number without its last digit is smaller
  induction m using Nat.strongRecOn with
  | ind m ih =>
      intro n h
      have hlast : ∀ k, k % b < 16 := fun k =>
        Nat.lt_of_lt_of_le (Nat.mod_lt k (Nat.zero_lt_of_lt hb)) hb'
      by_cases hm : m < b
      · by_cases hn : n < b
        · rw [Nat.toDigits_of_lt_base hm, Nat.toDigits_of_lt_base hn] at h
          exact digitChar_injOn (by omega) (by omega) (List.singleton_inj.mp h)
        · rw [Nat.toDigits_of_lt_base hm, Nat.toDigits_of_base_le hb (Nat.not_lt.mp hn)] at h
          have hlength := congrArg List.length h
          have hpos : 0 < (Nat.toDigits b (n / b)).length := Nat.length_toDigits_pos
          rw [List.length_append, List.length_singleton, List.length_singleton] at hlength
          omega
      · by_cases hn : n < b
        · rw [Nat.toDigits_of_lt_base hn, Nat.toDigits_of_base_le hb (Nat.not_lt.mp hm)] at h
          have hlength := congrArg List.length h
          have hpos : 0 < (Nat.toDigits b (m / b)).length := Nat.length_toDigits_pos
          rw [List.length_append, List.length_singleton, List.length_singleton] at hlength
          omega
        · rw [Nat.toDigits_of_base_le hb (Nat.not_lt.mp hm),
            Nat.toDigits_of_base_le hb (Nat.not_lt.mp hn)] at h
          obtain ⟨hfront, hdigit⟩ := List.append_inj' h rfl
          have hdiv := ih (m / b) (Nat.div_lt_self (by omega) hb) hfront
          have hmod := digitChar_injOn (hlast m) (hlast n) (List.singleton_inj.mp hdigit)
          rw [← Nat.div_add_mod m b, hdiv, hmod, Nat.div_add_mod]

theorem exists_of_mem_toDigits {b n : ℕ} (hb : 1 < b) {c : Char} (h : c ∈ Nat.toDigits b n) :
    ∃ d < b, c = d.digitChar := by
  induction n using Nat.strongRecOn with
  | ind n ih =>
      by_cases hn : n < b
      · rw [Nat.toDigits_of_lt_base hn] at h
        exact ⟨n, hn, List.mem_singleton.mp h⟩
      · rw [Nat.toDigits_of_base_le hb (Nat.not_lt.mp hn)] at h
        rcases List.mem_append.mp h with h | h
        · exact ih (n / b) (Nat.div_lt_self (by omega) hb) h
        · exact ⟨n % b, Nat.mod_lt n (by omega), List.mem_singleton.mp h⟩

/-! ## Texts of several parts -/

/-- Two texts of parts of the same lengths have the same parts. -/
theorem flatMap_inj {α β : Type*} {f g : α → List β} {xs : List α}
    (hlength : ∀ x ∈ xs, (f x).length = (g x).length) (h : xs.flatMap f = xs.flatMap g) :
    ∀ x ∈ xs, f x = g x := by
  induction xs with
  | nil => simp
  | cons y ys ih =>
      rw [List.flatMap_cons, List.flatMap_cons] at h
      obtain ⟨hy, hys⟩ := List.append_inj h (hlength y List.mem_cons_self)
      intro x hx
      rcases List.mem_cons.mp hx with rfl | hx
      · exact hy
      · exact ih (fun x hx => hlength x (List.mem_cons_of_mem _ hx)) hys x hx

end Numerals
