/-
# One program between two moments of a run

* `Spans` is an execution of a single program: its statements are executed one after another,
  and in between the others lead from store to store by `R`.
* `exists_spans`: what a run is for each program that ends in it.
-/
import EvglApi.Runs

namespace Concurrency

universe u

variable {S : Type → Type u} {ρ ω σ ι κ α β : Type} {M : Machine S ρ ω σ ι κ}
  {R : σ → σ → Prop}

/-- From `s` the program comes to its end with `a`, and right after its last statement the store
is `s'`; before each statement the others lead from store to store by `R`. -/
inductive Spans (M : Machine S ρ ω σ ι κ) (R : σ → σ → Prop) :
    {α : Type} → Prog S ρ ω α → σ → α → σ → Prop
  | pure {α : Type} (a : α) (s : σ) : Spans M R (.pure a) s a s
  | step {α β : Type} {st : S β} {k : β → Prog S ρ ω α} {a : α} {s t t' s' : σ} {x : ι} {b : β} :
      R s t → M.exec st x t = some (b, t') → Spans M R (k b) t' a s' →
        Spans M R (.step st k) s a s'
  | fork {α : Type} {r : ρ} {child : Prog S ρ ω ω} {k : Prog S ρ ω α} {a : α} {s t s' : σ} :
      R s t → Spans M R k (M.enter r t) a s' → Spans M R (.fork r child k) s a s'

namespace Spans

variable {a : α} {s t s' : σ}

theorem pure_inv {b : α} (h : Spans M R (.pure b) s a s') : a = b ∧ s' = s := by
  cases h with
  | pure => exact ⟨rfl, rfl⟩

theorem step_inv {st : S β} {k : β → Prog S ρ ω α} (h : Spans M R (.step st k) s a s') :
    ∃ t x b t', R s t ∧ M.exec st x t = some (b, t') ∧ Spans M R (k b) t' a s' := by
  cases h with
  | step hR hexec hk => exact ⟨_, _, _, _, hR, hexec, hk⟩

/-- What the others do before a program goes on, they do before its next statement, or after its
end. -/
theorem earlier (htrans : ∀ s t u, R s t → R t u → R s u) {p : Prog S ρ ω α} {u v : σ}
    (hst : R s t) (h : Spans M R p t a u) (huv : R u v) : ∃ u, Spans M R p s a u ∧ R u v := by
  cases h with
  | pure => exact ⟨s, .pure a s, htrans _ _ _ hst huv⟩
  | step hR hexec hk => exact ⟨u, .step (htrans _ _ _ hst hR) hexec hk, huv⟩
  | fork hR hk => exact ⟨u, .fork (htrans _ _ _ hst hR) hk, huv⟩

end Spans

/-! ## The programs of a run -/

namespace Pool

variable {p p' : Pool S ρ ω σ} {l : Label ι κ} {ls : List (Label ι κ)} {i : ℕ} {r r' : ρ}
  {prog : Prog S ρ ω ω} {a : ω} {J : Pool S ρ ω σ → Prop}

/-- A step is the turn of the program at position `i`, or the program stays as it is. -/
theorem act_thread (ht : p.threads[i]? = some ⟨r, prog⟩) (hact : p.act M l = some p') :
    p'.threads[i]? = some ⟨r, prog⟩ ∨
      (∃ (β : Type) (st : S β) (k : β → Prog S ρ ω ω) (x : ι) (b : β), prog = .step st k ∧
        M.exec st x p.shared = some (b, p'.shared) ∧ p'.threads[i]? = some ⟨r, k b⟩) ∨
      ∃ r₀ child k, prog = .fork r₀ child k ∧ p'.shared = M.enter r₀ p.shared ∧
        p'.threads[i]? = some ⟨r, k⟩ := by
  obtain ⟨hlt, -⟩ := List.getElem?_eq_some_iff.mp ht
  cases l with
  | arrive c =>
      obtain rfl := Option.some.inj hact
      exact Or.inl ((List.getElem?_append_left hlt).trans ht)
  | turn j x =>
      obtain ⟨⟨r₀, prog₀⟩, hj, hturn⟩ := Option.bind_eq_some_iff.mp hact
      -- the program at position `i`, when the one at position `j` is replaced
      have hset : ∀ t, (p.threads.set j t)[i]? = some (if j = i then t else ⟨r, prog⟩) := by
        intro t
        split
        · next heq =>
            subst heq
            exact List.getElem?_set_self hlt
        · next hne => exact (List.getElem?_set_ne hne).trans ht
      have hown : j = i → r₀ = r ∧ prog₀ = prog := by
        rintro rfl
        exact Thread.mk.inj (Option.some.inj (hj.symm.trans ht))
      cases prog₀ with
      | pure b => cases hturn
      | step st k =>
          obtain ⟨⟨b, s'⟩, hexec, rfl⟩ := Option.map_eq_some_iff.mp hturn
          by_cases hji : j = i
          · obtain ⟨rfl, rfl⟩ := hown hji
            exact Or.inr (Or.inl ⟨_, st, k, x, b, rfl, hexec, (hset _).trans (by rw [if_pos hji])⟩)
          · exact Or.inl ((hset _).trans (by rw [if_neg hji]))
      | fork r₁ child k =>
          obtain rfl := Option.some.inj hturn
          have hmore : ∀ t, (p.threads.set j t ++ [⟨r₁, child⟩])[i]? =
              (p.threads.set j t)[i]? := fun t =>
            List.getElem?_append_left (by rwa [List.length_set])
          by_cases hji : j = i
          · obtain ⟨rfl, rfl⟩ := hown hji
            refine Or.inr (Or.inr ⟨r₁, child, k, rfl, rfl, (hmore _).trans ((hset _).trans ?_)⟩)
            rw [if_pos hji]
          · exact Or.inl ((hmore _).trans ((hset _).trans (by rw [if_neg hji])))

/-- A program that was not there before a step is that of the client that arrives, or was started
by the step. -/
theorem act_new {t : Thread S ρ ω} (hi : p.threads.length ≤ i) (hact : p.act M l = some p')
    (ht : p'.threads[i]? = some t) :
    (∃ c, t = ⟨(M.arrival c p.shared).1, (M.arrival c p.shared).2⟩) ∨
      ∃ r child k, ⟨r, .fork t.role child k⟩ ∈ p.threads := by
  have hnew : ∀ {ts : List (Thread S ρ ω)} {t₀ : Thread S ρ ω}, ts.length = p.threads.length →
      (ts ++ [t₀])[i]? = some t → t = t₀ := by
    intro ts t₀ hlen h
    rw [List.getElem?_append_right (hlen ▸ hi)] at h
    exact List.mem_singleton.mp (List.mem_of_getElem? h)
  cases l with
  | arrive c =>
      obtain rfl := Option.some.inj hact
      exact Or.inl ⟨c, hnew rfl ht⟩
  | turn j x =>
      obtain ⟨⟨r, prog⟩, hj, hturn⟩ := Option.bind_eq_some_iff.mp hact
      cases prog with
      | pure b => cases hturn
      | step st k =>
          obtain ⟨⟨b, s'⟩, -, rfl⟩ := Option.map_eq_some_iff.mp hturn
          rw [List.getElem?_eq_none (by rwa [List.length_set])] at ht
          cases ht
      | fork r' child k =>
          obtain rfl := Option.some.inj hturn
          obtain rfl := hnew (List.length_set ..) ht
          exact Or.inr ⟨r, child, k, List.mem_of_getElem? hj⟩

/-- A run is an execution of each program that ends in it. -/
theorem exists_spans (hJ : ∀ {p l p'}, J p → p.act M l = some p' → J p')
    (hrefl : ∀ {p}, J p → R p.shared p.shared)
    (hstep : ∀ {p l p'}, J p → p.act M l = some p' → R p.shared p'.shared)
    (htrans : ∀ s t u, R s t → R t u → R s u) (hp : J p)
    (ht : p.threads[i]? = some ⟨r, prog⟩) (hrun : p.run M ls = some p')
    (ht' : p'.threads[i]? = some ⟨r', .pure a⟩) :
    r' = r ∧ ∃ u, Spans M R prog p.shared a u ∧ R u p'.shared := by
  induction ls generalizing p prog with
  | nil =>
      obtain rfl := Option.some.inj hrun
      obtain ⟨rfl, rfl⟩ := Thread.mk.inj (Option.some.inj (ht.symm.trans ht'))
      exact ⟨rfl, _, .pure a _, hrefl hp⟩
  | cons l ls ih =>
      obtain ⟨q, hact, hrest⟩ := Option.bind_eq_some_iff.mp hrun
      rcases act_thread ht hact with hstays | ⟨β, st, k, x, b, rfl, hexec, hgoes⟩ |
        ⟨r₀, child, k, rfl, henter, hgoes⟩
      · obtain ⟨hr, u, hspans, hu⟩ := ih (hJ hp hact) hstays hrest
        have hbefore : R p.shared q.shared := hstep hp hact
        exact ⟨hr, hspans.earlier htrans hbefore hu⟩
      · obtain ⟨hr, u, hspans, hu⟩ := ih (hJ hp hact) hgoes hrest
        exact ⟨hr, u, .step (hrefl hp) hexec hspans, hu⟩
      · obtain ⟨hr, u, hspans, hu⟩ := ih (hJ hp hact) hgoes hrest
        rw [henter] at hspans
        exact ⟨hr, u, .fork (hrefl hp) hspans, hu⟩

end Pool

end Concurrency
