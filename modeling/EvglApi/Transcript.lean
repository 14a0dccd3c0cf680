/-
# What a receiver has read

The answers that a receiver of a broadcast channel has had since its subscription, as a
transcript of the channel: every value at its place, and in the place of the values that were
dropped their number.

* `Transcript.recv`: every read continues the transcript.
* `Transcript.eq_map_value`: as long as no more values are sent than the channel holds, nothing
  is dropped.
-/
import EvglApi.Broadcast

namespace Broadcast

variable {α : Type} {capacity start next next' : ℕ} {log log' : List α}
  {answer : Received α} {answers : List (Received α)}

/-- What a receiver that has subscribed at `start` has read when it is at `next`.  A value is
dropped only when `capacity` later ones have been sent. -/
inductive Transcript (capacity : ℕ) (log : List α) (start : ℕ) : List (Received α) → ℕ → Prop
  | subscribed : Transcript capacity log start [] start
  | value {answers : List (Received α)} {next : ℕ} {a : α} :
      Transcript capacity log start answers next → log[next]? = some a →
        Transcript capacity log start (answers ++ [.value a]) (next + 1)
  | lagged {answers : List (Received α)} {next skipped : ℕ} :
      Transcript capacity log start answers next → 0 < skipped →
        next + skipped + capacity ≤ log.length →
          Transcript capacity log start (answers ++ [.lagged skipped]) (next + skipped)

/-- A value that is read was sent. -/
theorem mem_of_recv {a : α} (h : recv capacity log next = some (.value a, next')) : a ∈ log := by
  rw [recv] at h
  split at h
  · cases (Prod.mk.inj (Option.some.inj h)).1
  · obtain ⟨b, hb, heq⟩ := Option.map_eq_some_iff.mp h
    obtain rfl := Received.value.inj (Prod.mk.inj heq).1
    exact List.mem_of_getElem? hb

namespace Transcript

/-- A transcript stays one when more is sent. -/
theorem mono (h : Transcript capacity log start answers next) (hlog : log <+: log') :
    Transcript capacity log' start answers next := by
  induction h with
  | subscribed => exact .subscribed
  | value _ ha ih =>
      obtain ⟨more, rfl⟩ := hlog
      refine ih.value ?_
      rw [List.getElem?_append_left (List.getElem?_eq_some_iff.mp ha).1]
      exact ha
  | lagged _ hpos hle ih => exact ih.lagged hpos (hle.trans hlog.length_le)

/-- Every read continues the transcript. -/
theorem recv (h : Transcript capacity log start answers next)
    (hrecv : Broadcast.recv capacity log next = some (answer, next')) :
    Transcript capacity log start (answers ++ [answer]) next' := by
  rw [Broadcast.recv] at hrecv
  split at hrecv
  · next hlag =>
      obtain ⟨rfl, hnext⟩ := Prod.mk.inj (Option.some.inj hrecv)
      obtain rfl : next + (log.length - capacity - next) = next' := by omega
      exact h.lagged (by omega) (by omega)
  · obtain ⟨a, ha, heq⟩ := Option.map_eq_some_iff.mp hrecv
    obtain ⟨rfl, rfl⟩ := Prod.mk.inj heq
    exact h.value ha

/-- A receiver does not go back. -/
theorem start_le (h : Transcript capacity log start answers next) : start ≤ next := by
  induction h with
  | subscribed => exact Nat.le_refl _
  | value _ _ ih => omega
  | lagged _ _ _ ih => omega

/-- A receiver does not go beyond the end. -/
theorem next_le (h : Transcript capacity log start answers next) (hstart : start ≤ log.length) :
    next ≤ log.length := by
  cases h with
  | subscribed => exact hstart
  | value _ ha =>
      obtain ⟨hlt, -⟩ := List.getElem?_eq_some_iff.mp ha
      omega
  | lagged _ _ hle => omega

end Transcript

/-! ## The values -/

/-- The values of a channel from one position up to another. -/
theorem extract_succ {a : α} (hle : start ≤ next) (ha : log[next]? = some a) :
    log.extract start (next + 1) = log.extract start next ++ [a] := by
  rw [List.extract_eq_take_drop, List.extract_eq_take_drop,
    show next + 1 - start = (next - start) + 1 by omega]
  rw [List.take_add_one, List.getElem?_drop, show start + (next - start) = next by omega, ha]
  rfl

namespace Transcript

/-- As long as no more is sent than the channel holds, every value is read. -/
theorem eq_map_value (h : Transcript capacity log start answers next)
    (hlength : log.length ≤ start + capacity) :
    answers = (log.extract start next).map .value := by
  induction h with
  | subscribed =>
      rw [List.extract_eq_take_drop, Nat.sub_self]
      rfl
  | value h ha ih =>
      rw [extract_succ h.start_le ha, List.map_append, ← ih]
      rfl
  | lagged h _ hle =>
      have hnext := h.start_le
      omega

end Transcript

end Broadcast
