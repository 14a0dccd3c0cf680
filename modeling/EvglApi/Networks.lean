/-
# Networks of addresses

An address is a bit vector.  A network `base/length` holds the addresses that begin with
the first `length` bits of its base.

`contains_iff` reads the membership off the leading bits as one number, and
`not_contains_of_contains` tells two networks apart by their bases.
-/
import Mathlib.Order.Basic

namespace Networks

variable {w : ℕ}

/-- The first `n` bits of an address. -/
def leading (n : ℕ) (a : BitVec w) : BitVec n := a.extractLsb' (w - n) n

/-- The network `base/length`. -/
structure Network (w : ℕ) where
  base : BitVec w
  length : ℕ
  length_le : length ≤ w

namespace Network

/-- The address begins as the base does. -/
def Contains (net : Network w) (a : BitVec w) : Prop :=
  ∀ i < net.length, a.getMsbD i = net.base.getMsbD i

instance (net : Network w) (a : BitVec w) : Decidable (net.Contains a) :=
  Nat.decidableBallLT net.length fun i _ => a.getMsbD i = net.base.getMsbD i

theorem contains_iff {net : Network w} {a : BitVec w} :
    net.Contains a ↔ leading net.length a = leading net.length net.base := by
  have hlength := net.length_le
  have hbit : ∀ (b : BitVec w) (i : ℕ), i < net.length →
      (leading net.length b).getMsbD i = b.getMsbD i := by
    intro b i hi
    have hstart : w - (w - net.length + net.length - i) = i := by omega
    rw [leading, BitVec.getMsbD_extractLsb', hstart, decide_eq_true hi,
      decide_eq_true (by omega : w - net.length + net.length - i ≤ w), Bool.true_and, Bool.true_and]
  constructor
  · intro h
    refine BitVec.eq_of_getMsbD_eq fun i hi => ?_
    rw [hbit a i hi, hbit net.base i hi, h i hi]
  · intro h i hi
    rw [← hbit a i hi, ← hbit net.base i hi, h]

/-- A network as long as an address holds its base only. -/
theorem contains_full {base a : BitVec w} {h : w ≤ w} :
    (⟨base, w, h⟩ : Network w).Contains a ↔ a = base := by
  rw [contains_iff, leading, leading]
  simp

/-- An address of a network whose base is outside a larger one is outside the larger one. -/
theorem not_contains_of_contains {net net' : Network w} {a : BitVec w}
    (hlength : net.length ≤ net'.length) (hbase : ¬ net.Contains net'.base)
    (ha : net'.Contains a) : ¬ net.Contains a :=
  fun h => hbase fun i hi => (ha i (Nat.lt_of_lt_of_le hi hlength)).symm.trans (h i hi)

end Network

end Networks
