/-
# Conservation along runs

What the programs at work hold is counted together with what the store has on either side of a
balance, in any commutative monoid: a statement or a start that respects the balance respects
it for the whole pool, and so does every run.

* `Budgeted.run`: what is spent and held stays within the budget;
* `Conserved.run`: what is spent and held is the budget.
-/
import EvglApi.Runs
import Mathlib.Algebra.BigOperators.Group.List.Basic
import Mathlib.Algebra.Order.Group.Multiset
import Mathlib.Algebra.Order.Monoid.OrderDual
import Mathlib.Tactic.Abel
import Mathlib.Tactic.GCongr

namespace Concurrency

universe u v

variable {S : Type → Type u} {ρ ω σ ι κ : Type} {μ : Type v} {M : Machine S ρ ω σ ι κ}
  {I : Thread S ρ ω → Prop} {spent budget : σ → μ} {f : Thread S ρ ω → μ}
  {p p' : Pool S ρ ω σ} {l : Label ι κ} {ls : List (Label ι κ)}

/-- What the programs at work hold together. -/
def Pool.held [AddCommMonoid μ] (f : Thread S ρ ω → μ) (p : Pool S ρ ω σ) : μ :=
  (p.threads.map f).sum

/-- When one program takes a step, what the others hold does not matter. -/
theorem held_set [AddCommMonoid μ] (s s' : σ) {threads : List (Thread S ρ ω)} {i : ℕ}
    {t : Thread S ρ ω} (ht : threads[i]? = some t) (t' : Thread S ρ ω) :
    ∃ rest, Pool.held f ⟨s, threads⟩ = f t + rest ∧
      Pool.held f ⟨s', threads.set i t'⟩ = f t' + rest := by
  obtain ⟨hlt, rfl⟩ := List.getElem?_eq_some_iff.mp ht
  obtain ⟨before, after, heq, -, hset⟩ : ∃ before after, threads = before ++ threads[i] :: after ∧
      before.length = i ∧ threads.set i t' = before ++ t' :: after := List.exists_of_set hlt
  refine ⟨(before.map f).sum + (after.map f).sum, ?_, ?_⟩
  · show (threads.map f).sum = _
    conv_lhs => rw [heq]
    rw [List.map_append, List.sum_append, List.map_cons, List.sum_cons]
    exact add_left_comm _ _ _
  · show ((threads.set i t').map f).sum = _
    rw [hset, List.map_append, List.sum_append, List.map_cons, List.sum_cons]
    exact add_left_comm _ _ _

theorem held_append [AddCommMonoid μ] (s s' : σ) {threads : List (Thread S ρ ω)}
    (t : Thread S ρ ω) :
    Pool.held f ⟨s', threads ++ [t]⟩ = f t + Pool.held f ⟨s, threads⟩ := by
  show ((threads ++ [t]).map f).sum = f t + (threads.map f).sum
  rw [List.map_append, List.sum_append, List.map_singleton, List.sum_singleton, add_comm]

/-- What all programs hold together is held by single ones. -/
theorem exists_of_mem_held {α : Type} {f : Thread S ρ ω → Multiset α} {a : α}
    (h : a ∈ p.held f) : ∃ t ∈ p.threads, a ∈ f t := by
  obtain ⟨s, threads⟩ := p
  induction threads with
  | nil => exact absurd h (Multiset.notMem_zero a)
  | cons t threads ih =>
      have hsum : a ∈ f t + Pool.held f ⟨s, threads⟩ := h
      rcases Multiset.mem_add.mp hsum with ht | hrest
      · exact ⟨t, List.mem_cons_self, ht⟩
      · obtain ⟨t', ht', ha⟩ := ih hrest
        exact ⟨t', List.mem_cons_of_mem _ ht', ha⟩

/-! ## Budgets -/

section Budget

variable [AddCommMonoid μ] [PartialOrder μ] [IsOrderedCancelAddMonoid μ]

/-- No step spends more, or makes its program hold more, than it adds to the budget. -/
structure Budgeted (M : Machine S ρ ω σ ι κ) (I : Thread S ρ ω → Prop) (spent budget : σ → μ)
    (f : Thread S ρ ω → μ) : Prop where
  step : ∀ {β : Type} {r : ρ} {st : S β} {k : β → Prog S ρ ω ω} {x s b s'},
    I ⟨r, .step st k⟩ → M.exec st x s = some (b, s') →
      spent s' + f ⟨r, k b⟩ + budget s ≤ spent s + f ⟨r, .step st k⟩ + budget s'
  fork : ∀ {r r' : ρ} {child k : Prog S ρ ω ω} {s}, I ⟨r, .fork r' child k⟩ →
    spent (M.enter r' s) + (f ⟨r', child⟩ + f ⟨r, k⟩) + budget s ≤
      spent s + f ⟨r, .fork r' child k⟩ + budget (M.enter r' s)
  arrival : ∀ c s, spent (M.enter (M.arrival c s).1 s) +
    f ⟨(M.arrival c s).1, (M.arrival c s).2⟩ + budget s ≤
      spent s + budget (M.enter (M.arrival c s).1 s)

/-- What changes on one side is made up for on the other. -/
theorem add_le_of_exchange {a a' b b' x y rest : μ} (h : a + (x + rest) ≤ b)
    (hstep : a' + y + b ≤ a + x + b') : a' + (y + rest) ≤ b' := by
  refine le_of_add_le_add_right (a := b) ?_
  calc a' + (y + rest) + b = a' + y + b + rest := by abel
    _ ≤ a + x + b' + rest := by gcongr
    _ = a + (x + rest) + b' := by abel
    _ ≤ b + b' := by gcongr
    _ = b' + b := add_comm _ _

theorem Budgeted.act (hI : Budgeted M I spent budget f) (hp : ∀ t ∈ p.threads, I t)
    (h : spent p.shared + p.held f ≤ budget p.shared) (hact : p.act M l = some p') :
    spent p'.shared + p'.held f ≤ budget p'.shared := by
  cases l with
  | arrive c =>
      obtain rfl := Option.some.inj hact
      rw [held_append p.shared]
      refine add_le_of_exchange (a := spent p.shared) (b := budget p.shared) (x := 0) ?_ ?_
      · rw [zero_add]
        exact h
      · rw [add_zero]
        exact hI.arrival c p.shared
  | turn i x =>
      obtain ⟨⟨r, prog⟩, ht, hturn⟩ := Option.bind_eq_some_iff.mp hact
      have hown := hp _ (List.mem_of_getElem? ht)
      cases prog with
      | pure a => cases hturn
      | step st k =>
          obtain ⟨⟨b, s'⟩, hexec, rfl⟩ := Option.map_eq_some_iff.mp hturn
          obtain ⟨rest, hbefore, hafter⟩ :=
            held_set (f := f) p.shared s' ht ⟨r, k b⟩
          rw [hafter]
          rw [show p.held f = _ from hbefore] at h
          exact add_le_of_exchange h (hI.step hown hexec)
      | fork r' child k =>
          obtain rfl := Option.some.inj hturn
          obtain ⟨rest, hbefore, hafter⟩ :=
            held_set (f := f) p.shared p.shared ht ⟨r, k⟩
          rw [held_append p.shared, hafter, ← add_assoc (f _)]
          rw [show p.held f = _ from hbefore] at h
          exact add_le_of_exchange h (hI.fork hown)

/-- What is spent and held stays within the budget. -/
theorem Budgeted.run (hI : Budgeted M I spent budget f) (hup : Upheld M fun _ t => I t)
    (hp : ∀ t ∈ p.threads, I t) (h : spent p.shared + p.held f ≤ budget p.shared)
    (hrun : p.run M ls = some p') : spent p'.shared + p'.held f ≤ budget p'.shared := by
  induction ls generalizing p with
  | nil =>
      obtain rfl := Option.some.inj hrun
      exact h
  | cons l ls ih =>
      obtain ⟨q, hq, hrest⟩ := Option.bind_eq_some_iff.mp hrun
      exact ih (hup.act hp hq) (hI.act hp h hq) hrest

end Budget

/-! ## Conservation -/

section Conservation

variable [AddCommMonoid μ] [PartialOrder μ]

/-- Every step adds to the budget what it spends and what its program holds more. -/
structure Conserved (M : Machine S ρ ω σ ι κ) (I : Thread S ρ ω → Prop) (spent budget : σ → μ)
    (f : Thread S ρ ω → μ) : Prop where
  step : ∀ {β : Type} {r : ρ} {st : S β} {k : β → Prog S ρ ω ω} {x s b s'},
    I ⟨r, .step st k⟩ → M.exec st x s = some (b, s') →
      spent s' + f ⟨r, k b⟩ + budget s = spent s + f ⟨r, .step st k⟩ + budget s'
  fork : ∀ {r r' : ρ} {child k : Prog S ρ ω ω} {s}, I ⟨r, .fork r' child k⟩ →
    spent (M.enter r' s) + (f ⟨r', child⟩ + f ⟨r, k⟩) + budget s =
      spent s + f ⟨r, .fork r' child k⟩ + budget (M.enter r' s)
  arrival : ∀ c s, spent (M.enter (M.arrival c s).1 s) +
    f ⟨(M.arrival c s).1, (M.arrival c s).2⟩ + budget s =
      spent s + budget (M.enter (M.arrival c s).1 s)

theorem Conserved.budgeted (h : Conserved M I spent budget f) : Budgeted M I spent budget f where
  step hI hexec := (h.step hI hexec).le
  fork hI := (h.fork hI).le
  arrival c s := (h.arrival c s).le

/-- Read from the other side of the balance. -/
theorem Conserved.budgeted_dual (h : Conserved M I spent budget f) :
    Budgeted (μ := μᵒᵈ) M I spent budget f where
  step hI hexec := (h.step hI hexec).ge
  fork hI := (h.fork hI).ge
  arrival c s := (h.arrival c s).ge

/-- What is spent and held is the budget. -/
theorem Conserved.run [IsOrderedCancelAddMonoid μ] (hI : Conserved M I spent budget f)
    (hup : Upheld M fun _ t => I t)
    (hp : ∀ t ∈ p.threads, I t) (h : spent p.shared + p.held f = budget p.shared)
    (hrun : p.run M ls = some p') : spent p'.shared + p'.held f = budget p'.shared :=
  le_antisymm (hI.budgeted.run hup hp h.le hrun)
    (Budgeted.run (μ := μᵒᵈ) hI.budgeted_dual hup hp h.ge hrun)

end Conservation

end Concurrency
