/-
# Broadcast channels

A receiver of a broadcast channel reads the values that are sent after it has subscribed, each
one once and in the order in which they are sent.  The channel holds the last `capacity` values
only: a receiver that is further behind is told how many it has missed and goes on with the
oldest value that is held.

* A channel is the list of the values sent so far, a receiver the number of values before the
  one that it reads next.
* `recv_eq_none_iff`: a receiver waits exactly if it is at the end.
* `Accounted` is what a receiver owes for the values since its subscription; `Accounted.recv`
  says that every read keeps to it, and `Accounted.last` what is owed for the last value.
-/
import Mathlib.Data.List.Infix

namespace Broadcast

variable {α : Type} {capacity start next next' : ℕ} {log log' : List α}

/-- What a receiver reads. -/
inductive Received (α : Type)
  | value (a : α)
  | lagged (skipped : ℕ)

/-- The next read of a receiver and its position after it; `none` while nothing is left. -/
def recv (capacity : ℕ) (log : List α) (next : ℕ) : Option (Received α × ℕ) :=
  if next + capacity < log.length then
    some (.lagged (log.length - capacity - next), log.length - capacity)
  else log[next]?.map fun a => (.value a, next + 1)

variable {answer : Received α}

/-- A receiver waits exactly if it has read everything. -/
theorem recv_eq_none_iff : recv capacity log next = none ↔ log.length ≤ next := by
  rw [recv]
  split
  · next hlag =>
      constructor
      · exact fun h => nomatch h
      · intro hle
        omega
  · rw [Option.map_eq_none_iff, List.getElem?_eq_none_iff]

/-- A read moves the receiver on, and not beyond the end. -/
theorem recv_moves (h : recv capacity log next = some (answer, next')) :
    next < next' ∧ next' ≤ log.length := by
  rw [recv] at h
  split at h
  · obtain ⟨-, rfl⟩ := Prod.mk.inj (Option.some.inj h)
    omega
  · obtain ⟨a, ha, heq⟩ := Option.map_eq_some_iff.mp h
    obtain ⟨-, rfl⟩ := Prod.mk.inj heq
    obtain ⟨hlt, -⟩ := List.getElem?_eq_some_iff.mp ha
    omega

/-- For every value between its subscription and its position the receiver has shown the value
or told that something is missing. -/
def Accounted (shown : α → Prop) (told : Prop) (log : List α) (start next : ℕ) : Prop :=
  ∀ i, start ≤ i → i < next → told ∨ ∃ a, log[i]? = some a ∧ shown a

variable {shown shown' : α → Prop} {told told' : Prop}

theorem accounted_start : Accounted shown told log start start :=
  fun _ hstart hnext => absurd hstart (Nat.not_le.mpr hnext)

/-- What has been accounted for stays so when more is sent, shown and told. -/
theorem Accounted.mono (h : Accounted shown told log start next) (hlog : log <+: log')
    (hshown : ∀ a, shown a → shown' a) (htold : told → told') :
    Accounted shown' told' log' start next := by
  obtain ⟨more, rfl⟩ := hlog
  intro i hstart hnext
  refine (h i hstart hnext).imp htold ?_
  rintro ⟨a, ha, hshow⟩
  refine ⟨a, ?_, hshown a hshow⟩
  rw [List.getElem?_append_left (List.getElem?_eq_some_iff.mp ha).1]
  exact ha

/-- What a read accounts for: the value, or everything that is skipped. -/
theorem Accounted.recv (h : Accounted shown told log start next)
    (hrecv : recv capacity log next = some (answer, next'))
    (hvalue : ∀ a, answer = .value a → shown a) (hlagged : ∀ n, answer = .lagged n → told) :
    Accounted shown told log start next' := by
  intro i hstart hnext'
  rw [Broadcast.recv] at hrecv
  split at hrecv
  · obtain ⟨hanswer, -⟩ := Prod.mk.inj (Option.some.inj hrecv)
    exact Or.inl (hlagged _ hanswer.symm)
  · obtain ⟨a, ha, heq⟩ := Option.map_eq_some_iff.mp hrecv
    obtain ⟨hanswer, rfl⟩ := Prod.mk.inj heq
    rcases Nat.lt_succ_iff_lt_or_eq.mp hnext' with hlt | rfl
    · exact h i hstart hlt
    · exact Or.inr ⟨a, ha, hvalue a hanswer.symm⟩

/-- A receiver at the end has shown the last value, if it was sent after the subscription, or
told that something is missing. -/
theorem Accounted.last {sent : List α} {a : α}
    (h : Accounted shown told (sent ++ [a]) start next) (hstart : start ≤ sent.length)
    (hend : sent.length < next) : told ∨ shown a := by
  refine (h _ hstart hend).imp_right ?_
  rintro ⟨b, hb, hshow⟩
  rw [List.getElem?_concat_length] at hb
  obtain rfl := Option.some.inj hb
  exact hshow

end Broadcast
