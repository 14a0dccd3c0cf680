/-
# What stands in every reachable store

A property that is known of all stores on a run can be counted on by programs that are verified
further: it joins the invariant of their discipline, and a schedule that keeps it is one more
assumption, which every schedule of the run respects.

* `Discipline.standing` is the discipline with the property in its invariant.
* `Pool.meets_of_reaches`: a condition on the turns of a run may use what stands in the stores.
* `Extension.followsAll_standing` is what such a condition gives to an extension.
-/
import EvglApi.Endings
import EvglApi.Extension
import EvglApi.Runs

namespace Concurrency

universe u

variable {S : Type → Type u} {ρ ω σ ι κ α : Type} {M : Machine S ρ ω σ ι κ}

namespace Discipline

variable {D : Discipline M} {J : σ → Prop} {r : ρ} {s : σ}

/-- The discipline with a property that no schedule breaks. -/
def standing (D : Discipline M) (J : σ → Prop) : Discipline M where
  inv s := D.inv s ∧ J s
  assume r st x s := D.assume r st x s ∧ ∀ b s', M.exec st x s = some (b, s') → J s'
  admits := D.admits
  needs := D.needs
  guar := D.guar
  rely := D.rely
  taken := D.taken
  post := D.post
  rely_refl := D.rely_refl
  rely_trans := D.rely_trans
  rely_of_guar hinv hinv' htaken htaken' hne hguar :=
    D.rely_of_guar hinv.1 hinv'.1 htaken htaken' hne hguar
  taken_of_guar := D.taken_of_guar
  post_of_rely := D.post_of_rely

/-- What holds of the world whoever arrives may be assumed throughout. -/
theorem wp_standing (hJ : ∀ r s, J s → J (M.enter r s)) {p : Prog S ρ ω α} {Q : α → σ → Prop}
    (h : D.wp r p Q s) : (D.standing J).wp r p Q s := by
  induction p generalizing r s with
  | pure a => exact h
  | step st k ih =>
      intro s' hrely hinv htaken
      obtain ⟨hneeds, hstep⟩ := h s' hrely hinv.1 htaken
      refine ⟨hneeds, fun x b s'' hassume hexec => ?_⟩
      obtain ⟨hguar, hinv', hk⟩ := hstep x b s'' hassume.1 hexec
      exact ⟨hguar, ⟨hinv', hassume.2 b s'' hexec⟩, ih b hk⟩
  | fork r' child k ihchild ih =>
      intro s' hrely hinv htaken
      obtain ⟨hfree, hguar, hinv', htaken', hchild, hk⟩ := h s' hrely hinv.1 htaken
      exact ⟨hfree, hguar, ⟨hinv', hJ r' s' hinv.2⟩, htaken', ihchild hchild, ih hk⟩

theorem hospitable_standing (hJ : ∀ r s, J s → J (M.enter r s)) (hD : D.Hospitable) :
    (D.standing J).Hospitable := by
  intro c s hadmits hinv
  obtain ⟨hfree, hguar, hinv', htaken, hwp⟩ := hD c s hadmits hinv.1
  exact ⟨hfree, hguar, ⟨hinv', hJ _ s hinv.2⟩, htaken, wp_standing hJ hwp⟩

end Discipline

namespace Pool

variable {p : Pool S ρ ω σ} {f g : Thread S ρ ω → ι → σ → Bool} {ls : List (Label ι κ)}

/-- A condition that holds of every turn of a run for which another one holds. -/
theorem meets_of_reaches (hg : ∀ p', Reaches M p p' → ∀ t x, f t x p'.shared = true →
    g t x p'.shared = true) (h : p.meets M f ls = true) : p.meets M g ls = true := by
  induction ls generalizing p with
  | nil => rfl
  | cons l ls ih =>
      obtain ⟨hl, hrest⟩ := Bool.and_eq_true_iff.mp h
      refine Bool.and_eq_true_iff.mpr ⟨?_, ?_⟩
      · cases l with
        | arrive c => rfl
        | turn i x =>
            change p.threads[i]?.all (fun t => f t x p.shared) = true at hl
            show p.threads[i]?.all (fun t => g t x p.shared) = true
            rw [Option.all_eq_true] at hl ⊢
            exact fun t ht => hg p (Reaches.refl p) t x (hl t ht)
      · cases hact : p.act M l with
        | none => rfl
        | some p' =>
            rw [hact] at hrest
            exact ih (fun q hq => hg q ((Reaches.act hact).trans hq)) hrest

theorem meets_true : p.meets M (fun _ _ _ => true) ls = true := by
  induction ls generalizing p with
  | nil => rfl
  | cons l ls ih =>
      refine Bool.and_eq_true_iff.mpr ⟨?_, ?_⟩
      · cases l with
        | arrive c => rfl
        | turn i x => cases h : p.threads[i]? <;> simp [h]
      · cases p.act M l with
        | none => rfl
        | some p' => exact ih

end Pool

namespace Extension

variable {D : Discipline M} {p : Pool S ρ ω σ} {ls : List (Label ι κ)}

/-- A schedule respects what stands in every store it reaches. -/
theorem followsAll_standing {J : σ → Prop} {X : Extension (D.standing J)}
    {f : Thread S ρ ω → ι → σ → Bool} (hadmits : ∀ c, D.admits c)
    (hf : ∀ {β : Type} r (st : S β) k x s, f ⟨r, .step st k⟩ x s = true →
      D.assume r st x s ∧ X.assume r st x s)
    (hreach : ∀ p', Pool.Reaches M p p' → J p'.shared) (h : p.meets M f ls = true) :
    X.discipline.FollowsAll p ls := by
  induction ls generalizing p with
  | nil => trivial
  | cons l ls ih =>
      obtain ⟨hl, hrest⟩ := Bool.and_eq_true_iff.mp h
      refine ⟨?_, fun p' hact => ih (fun q hq => hreach q ((Pool.Reaches.act hact).trans hq)) ?_⟩
      · cases l with
        | arrive c => exact hadmits c
        | turn i x =>
            rintro ⟨r, prog⟩ ht
            change p.threads[i]?.all (fun t => f t x p.shared) = true at hl
            rw [ht] at hl
            cases prog with
            | step st k =>
                obtain ⟨hassume, hmore⟩ := hf r st k x p.shared hl
                refine ⟨⟨hassume, fun b s' hexec => ?_⟩, hmore⟩
                refine hreach ⟨s', p.threads.set i ⟨r, k b⟩⟩ (Pool.Reaches.act (l := .turn i x) ?_)
                exact Option.bind_eq_some_iff.mpr
                  ⟨_, ht, Option.map_eq_some_iff.mpr ⟨_, hexec, rfl⟩⟩
            | pure a => trivial
            | fork r' child k => trivial
      · rw [hact] at hrest
        exact hrest

end Extension

end Concurrency
