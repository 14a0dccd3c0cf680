/-
# What an observer sees of a program

An `Observer` sees of a store what it `looks` like, and of an input what it `reads`.
If a program can be verified on these alone (`Observer.wp`), its value and the looks of
the store after it are determined by what is seen, and it does no more to the rest of the
store than `frame` allows: `exists_shows` is the statement about one run,
`runAlone_congr` the one about two runs on stores that look alike.  `Sees` has the rules
for programs that may return early.
-/
import EvglApi.Tries
import Mathlib.Data.List.Forall2

namespace Concurrency

universe u

variable {S : Type → Type u} {ρ ω σ ι κ τ υ ε α β : Type} {M : Machine S ρ ω σ ι κ}

/-- A party that sees a part of the store and of the inputs, and what it may do to the rest. -/
structure Observer (σ ι τ υ : Type) where
  /-- What the store looks like; one store may look like many a `τ`. -/
  looks : σ → τ → Prop
  /-- What is seen of an input. -/
  reads : ι → υ → Prop
  inv : σ → Prop
  frame : σ → σ → Prop
  frame_refl : ∀ s, frame s s
  frame_trans : ∀ {s s' s''}, frame s s' → frame s' s'' → frame s s''

namespace Observer

variable (O : Observer σ ι τ υ)

/-- An execution on the store `s` agrees with one on what is seen: both wait, or they have
the same answer and what is left looks the same.  The invariant and the frame are kept. -/
inductive Agrees (s : σ) : Option (α × σ) → Option (α × τ) → Prop
  | waits : Agrees s none none
  | answers {a : α} {s' : σ} {v' : τ} (hlooks : O.looks s' v') (hinv : O.inv s')
      (hframe : O.frame s s') : Agrees s (some (a, s')) (some (a, v'))

/-- On every store that looks like `v`, the step `f` agrees with the outcome `r`. -/
def Shows (v : τ) (f : σ → Option (α × σ)) (r : Option (α × τ)) : Prop :=
  ∀ s, O.inv s → O.looks s v → O.Agrees s (f s) r

/-- On every store that looks like `v` the program has an outcome that is determined by
`v` and what is read, and if it ends it does so with `Q`. -/
def wp (M : Machine S ρ ω σ ι κ) : ∀ {α : Type}, Prog S ρ ω α → (α → τ → Prop) → τ → Prop
  | _, .pure a, Q, v => Q a v
  | _, .step st k, Q, v =>
      ∀ y, ∃ r, (∀ x, O.reads x y → O.Shows v (M.exec st x) r) ∧
        ∀ b v', r = some (b, v') → wp M (k b) Q v'
  | _, .fork r _ k, Q, v =>
      ∃ v', O.Shows v (fun s => some ((), M.enter r s)) (some ((), v')) ∧ wp M k Q v'

variable {O} {v : τ}

/-! ## Rules -/

/-- The postcondition may be weakened. -/
theorem wp_mono {p : Prog S ρ ω α} {Q Q' : α → τ → Prop} (hQ : ∀ a v, Q a v → Q' a v)
    (h : O.wp M p Q v) : O.wp M p Q' v := by
  induction p generalizing v with
  | pure a => exact hQ a v h
  | step st k ih =>
      intro y
      obtain ⟨r, hshows, hk⟩ := h y
      exact ⟨r, hshows, fun b v' hr => ih b hQ (hk b v' hr)⟩
  | fork r child k _ ih =>
      obtain ⟨v', hshows, hk⟩ := h
      exact ⟨v', hshows, ih hQ hk⟩

/-- A sequence is seen part by part. -/
theorem wp_bind {p : Prog S ρ ω α} {f : α → Prog S ρ ω β} {Q : β → τ → Prop} :
    O.wp M (p.bind f) Q v ↔ O.wp M p (fun a => O.wp M (f a) Q) v := by
  induction p generalizing v with
  | pure a => exact Iff.rfl
  | step st k ih =>
      show (∀ y, ∃ r, _ ∧ ∀ b v', _ → O.wp M ((k b).bind f) Q v') ↔ _
      simp only [ih]
      rfl
  | fork r child k _ ih =>
      show (∃ v', _ ∧ O.wp M (k.bind f) Q v') ↔ _
      simp only [ih]
      rfl

/-- Statements that are determined on every view make up programs that are. -/
theorem wp_of_every {P : ∀ {β : Type}, S β → Prop} {p : Prog S ρ ω α} (hp : p.Every P)
    (h : ∀ {β : Type} {st : S β}, P st → ∀ v y, ∃ r, ∀ x, O.reads x y →
      O.Shows v (M.exec st x) r) : O.wp M p (fun _ _ => True) v := by
  induction p generalizing v with
  | pure a => trivial
  | step st k ih =>
      intro y
      obtain ⟨r, hshows⟩ := h hp.1 v y
      exact ⟨r, hshows, fun b v' _ => ih b (hp.2 b)⟩
  | fork r child k => exact hp.elim

/-! ## Runs -/

/-- What agrees after a step that keeps the frame agrees before it. -/
theorem Agrees.of_frame {s s₁ : σ} {o : Option (α × σ)} {r : Option (α × τ)}
    (hframe : O.frame s s₁) (h : O.Agrees s₁ o r) : O.Agrees s o r := by
  cases h with
  | waits => exact .waits
  | answers hlooks hinv hframe' => exact .answers hlooks hinv (O.frame_trans hframe hframe')

namespace Shows

variable {f : σ → Option (β × σ)} {g : β → σ → Option (α × σ)} {b : β} {v₁ : τ}
  {r : Option (α × τ)}

theorem pure (a : α) : O.Shows v (fun s => some (a, s)) (some (a, v)) :=
  fun s hinv hlooks => .answers hlooks hinv (O.frame_refl s)

/-- One step after another. -/
theorem bind (hf : O.Shows v f (some (b, v₁))) (hg : O.Shows v₁ (g b) r) :
    O.Shows v (fun s => (f s).bind fun (b, s') => g b s') r := by
  intro s hinv hlooks
  have hfirst := hf s hinv hlooks
  show O.Agrees s ((f s).bind fun (b, s') => g b s') r
  generalize f s = first at hfirst
  cases hfirst with
  | answers hlooks₁ hinv₁ hframe => exact (hg _ hinv₁ hlooks₁).of_frame hframe

/-- If the first step waits on every store that looks like `v`, so do both. -/
theorem bind_none (hf : O.Shows v f none) :
    O.Shows v (fun s => (f s).bind fun (b, s') => g b s') none := by
  intro s hinv hlooks
  have hfirst := hf s hinv hlooks
  show O.Agrees s ((f s).bind fun (b, s') => g b s') none
  generalize f s = first at hfirst
  cases hfirst with
  | waits => exact .waits

end Shows

/-- The run of a verified program is determined by what is seen. -/
theorem exists_shows {p : Prog S ρ ω α} {Q : α → τ → Prop} (h : O.wp M p Q v) (ys : List υ) :
    ∃ r, ∀ xs, List.Forall₂ O.reads xs ys → O.Shows v (p.runAlone M xs) r := by
  induction p generalizing v ys with
  | pure a => exact ⟨some (a, v), fun _ _ => Shows.pure a⟩
  | step st k ih =>
      cases ys with
      | nil =>
          refine ⟨none, fun xs hxs => ?_⟩
          obtain rfl := List.forall₂_nil_right_iff.mp hxs
          exact fun s _ _ => .waits
      | cons y ys =>
          obtain ⟨r, hshows, hk⟩ := h y
          cases r with
          | none =>
              refine ⟨none, fun xs hxs => ?_⟩
              obtain ⟨x, xs, hx, -, rfl⟩ := List.forall₂_cons_right_iff.mp hxs
              exact (hshows x hx).bind_none (g := fun b => (k b).runAlone M xs)
          | some r =>
              obtain ⟨b, v₁⟩ := r
              obtain ⟨r', hrest⟩ := ih b (hk b v₁ rfl) ys
              refine ⟨r', fun xs hxs => ?_⟩
              obtain ⟨x, xs, hx, hxs', rfl⟩ := List.forall₂_cons_right_iff.mp hxs
              exact (hshows x hx).bind (g := fun b => (k b).runAlone M xs) (hrest xs hxs')
  | fork r child k _ ih =>
      obtain ⟨v₁, hshows, hk⟩ := h
      obtain ⟨r', hrest⟩ := ih hk ys
      exact ⟨r', fun xs hxs => hshows.bind (g := fun _ => k.runAlone M xs) (hrest xs hxs)⟩

/-- On two stores that look alike, and with inputs that read alike, a verified program has
the same value and leaves stores that look alike, or it does not end on either. -/
theorem runAlone_congr {p : Prog S ρ ω α} {Q : α → τ → Prop} (h : O.wp M p Q v) {s s' : σ}
    (hinv : O.inv s) (hinv' : O.inv s') (hlooks : O.looks s v) (hlooks' : O.looks s' v)
    {xs xs' : List ι} {ys : List υ} (hxs : List.Forall₂ O.reads xs ys)
    (hxs' : List.Forall₂ O.reads xs' ys) :
    Option.Rel (fun r r' => r.1 = r'.1 ∧ ∃ v', O.looks r.2 v' ∧ O.looks r'.2 v')
      (p.runAlone M xs s) (p.runAlone M xs' s') := by
  obtain ⟨r, hshows⟩ := exists_shows h ys
  have hrun := hshows xs hxs s hinv hlooks
  have hrun' := hshows xs' hxs' s' hinv' hlooks'
  generalize p.runAlone M xs s = o at hrun
  generalize p.runAlone M xs' s' = o' at hrun'
  cases hrun with
  | waits =>
      cases hrun' with
      | waits => exact .none
  | answers hafter _ _ =>
      cases hrun' with
      | answers hafter' _ _ => exact .some ⟨rfl, _, hafter, hafter'⟩

/-- A verified program keeps the invariant and the frame. -/
theorem runAlone_frame {p : Prog S ρ ω α} {Q : α → τ → Prop} (h : O.wp M p Q v) {s s' : σ} {a : α}
    (hinv : O.inv s) (hlooks : O.looks s v) {xs : List ι} {ys : List υ}
    (hxs : List.Forall₂ O.reads xs ys) (hrun : p.runAlone M xs s = some (a, s')) :
    O.inv s' ∧ O.frame s s' := by
  obtain ⟨r, hshows⟩ := exists_shows h ys
  have hagrees := hshows xs hxs s hinv hlooks
  rw [hrun] at hagrees
  cases hagrees with
  | answers _ hinv' hframe => exact ⟨hinv', hframe⟩

end Observer

/-- Related options are related more weakly. -/
theorem rel_mono {R R' : α → β → Prop} {o : Option α} {o' : Option β} (h : Option.Rel R o o')
    (hR : ∀ a b, R a b → R' a b) : Option.Rel R' o o' := by
  cases h with
  | some h => exact .some (hR _ _ h)
  | none => exact .none

/-! ## Programs that may return early -/

/-- On every store that looks like `v` the program has the same outcome, and a value
comes with `Q`. -/
def Sees (M : Machine S ρ ω σ ι κ) (O : Observer σ ι τ υ) (p : Tries S ρ ω ε α)
    (Q : α → τ → Prop) (v : τ) : Prop :=
  O.wp M p.run (either Q fun _ _ => True) v

namespace Sees

variable {O : Observer σ ι τ υ} {Q : α → τ → Prop} {v : τ}

theorem pure {a : α} (h : Q a v) : Sees M O (Pure.pure a : Tries S ρ ω ε α) Q v := h

theorem throw (e : ε) : Sees M O (MonadExcept.throw e : Tries S ρ ω ε α) Q v := trivial

theorem mono {p : Tries S ρ ω ε α} {Q' : α → τ → Prop} (h : Sees M O p Q v)
    (hQ : ∀ a v, Q a v → Q' a v) : Sees M O p Q' v := by
  refine Observer.wp_mono (fun a v h => ?_) h
  cases a with
  | ok a => exact hQ a v h
  | error e => trivial

theorem bind {p : Tries S ρ ω ε β} {f : β → Tries S ρ ω ε α}
    (h : Sees M O p (fun b => Sees M O (f b) Q) v) : Sees M O (p >>= f) Q v := by
  show O.wp M (p.run.bind _) (either Q fun _ _ => True) v
  rw [Observer.wp_bind]
  refine Observer.wp_mono (fun a v h => ?_) h
  cases a with
  | ok b => exact h
  | error e => trivial

theorem result {r : Except ε α} (h : ∀ a, r = .ok a → Q a v) :
    Sees M O (Tries.result r : Tries S ρ ω ε α) Q v := by
  cases r with
  | ok a => exact h a rfl
  | error e => trivial

/-- Statements that are determined on every view make up programs that are. -/
theorem of_only {P : ∀ {β : Type}, S β → Prop} {p : Tries S ρ ω ε α} (hp : Only P p)
    (h : ∀ {β : Type} {st : S β}, P st → ∀ v y, ∃ r, ∀ x, O.reads x y →
      O.Shows v (M.exec st x) r) : Sees M O p (fun _ _ => True) v := by
  refine Observer.wp_mono (fun a v _ => ?_) (Observer.wp_of_every hp h)
  cases a <;> trivial

end Sees

end Concurrency
