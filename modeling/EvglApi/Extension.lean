/-
# What verified programs do besides

Programs that keep a discipline can be verified once more for a finer property, without
proving again that they keep it.

An `Extension` of a discipline says what each statement of a role does to the store beyond
the guarantee, what a role may count on besides, and what holds of a finished program
besides.  `Extension.wp` checks only this; `wp_discipline` adds it to what is verified already.
-/
import EvglApi.Tries

namespace Concurrency

universe u

variable {S : Type → Type u} {ρ ω σ ι κ ε ε' α β : Type} {M : Machine S ρ ω σ ι κ}

/-- What the programs that keep a discipline agree on besides. -/
structure Extension (D : Discipline M) where
  /-- The statements of a role. -/
  allows : {β : Type} → ρ → S β → Prop
  /-- What the statements of a role, and the programs it starts, do to the store. -/
  does : ρ → σ → σ → Prop
  /-- What a schedule has to respect besides. -/
  assume : {β : Type} → ρ → S β → ι → σ → Prop
  /-- What a role may count on besides. -/
  rely : ρ → σ → σ → Prop
  /-- Holds of the value of a finished program besides. -/
  post : ρ → ω → σ → Prop
  does_of_exec : ∀ {β : Type} {r} {st : S β} {x s b s'}, allows r st →
    M.exec st x s = some (b, s') → does r s s'
  does_of_enter : ∀ r r' s, does r s (M.enter r' s)
  rely_refl : ∀ r s, rely r s s
  rely_trans : ∀ {r s s' s''}, rely r s s' → rely r s' s'' → rely r s s''
  rely_of_does : ∀ {r r' s s'}, D.inv s → D.inv s' → D.taken s' r → D.taken s r' → r ≠ r' →
    D.guar r s s' → does r s s' → rely r' s s'
  post_of_rely : ∀ {r a s s'}, D.rely r s s' → rely r s s' → post r a s → post r a s'

namespace Extension

variable {D : Discipline M} (X : Extension D)

/-- The discipline with all that is agreed on. -/
def discipline : Discipline M where
  inv := D.inv
  assume r st x s := D.assume r st x s ∧ X.assume r st x s
  admits := D.admits
  needs := D.needs
  guar r s s' := D.guar r s s' ∧ X.does r s s'
  rely r s s' := D.rely r s s' ∧ X.rely r s s'
  taken := D.taken
  post r a s := D.post r a s ∧ X.post r a s
  rely_refl r s := ⟨D.rely_refl r s, X.rely_refl r s⟩
  rely_trans h h' := ⟨D.rely_trans h.1 h'.1, X.rely_trans h.2 h'.2⟩
  rely_of_guar hinv hinv' htaken htaken' hne hguar :=
    ⟨D.rely_of_guar hinv hinv' htaken htaken' hne hguar.1,
      X.rely_of_does hinv hinv' htaken htaken' hne hguar.1 hguar.2⟩
  taken_of_guar hguar htaken := D.taken_of_guar hguar.1 htaken
  post_of_rely hrely hpost :=
    ⟨D.post_of_rely hrely.1 hpost.1, X.post_of_rely hrely.1 hrely.2 hpost.2⟩

/-- The store as a role finds it when it goes on. -/
structure Finds (r : ρ) (s s' : σ) : Prop where
  rely : D.rely r s s'
  more : X.rely r s s'
  inv : D.inv s'
  taken : D.taken s' r

/-- From `s` the program, which is known to keep the discipline, ends with `Q`. -/
def wp : ∀ {α : Type}, ρ → Prog S ρ ω α → (α → σ → Prop) → σ → Prop
  | _, _, .pure a, Q, s => Q a s
  | _, r, .step st k, Q, s => X.allows r st ∧
      ∀ s', X.Finds r s s' → D.needs r st s' → ∀ x b s'', X.assume r st x s' →
        M.exec st x s' = some (b, s'') → D.inv s'' → wp r (k b) Q s''
  | _, r, .fork r' child k, Q, s =>
      ∀ s', X.Finds r s s' → ¬ D.taken s' r' → D.inv (M.enter r' s') →
        wp r' child (X.post r') (M.enter r' s') ∧ wp r k Q (M.enter r' s')

variable {X} {r : ρ} {s s' : σ}

/-- A program that keeps the discipline and ends with `Q'` besides. -/
theorem wp_discipline {p : Prog S ρ ω α} {Q Q' : α → σ → Prop} (h : D.wp r p Q s)
    (h' : X.wp r p Q' s) : X.discipline.wp r p (fun a s => Q a s ∧ Q' a s) s := by
  induction p generalizing r s with
  | pure a => exact ⟨h, h'⟩
  | step st k ih =>
      intro s' hrely hinv htaken
      obtain ⟨hneeds, hstep⟩ := h s' hrely.1 hinv htaken
      refine ⟨hneeds, fun x b s'' hassume hexec => ?_⟩
      obtain ⟨hguar, hinv', hk⟩ := hstep x b s'' hassume.1 hexec
      have hk' := h'.2 s' ⟨hrely.1, hrely.2, hinv, htaken⟩ hneeds x b s'' hassume.2 hexec hinv'
      exact ⟨⟨hguar, X.does_of_exec h'.1 hexec⟩, hinv', ih b hk hk'⟩
  | fork r' child k ihchild ih =>
      intro s' hrely hinv htaken
      obtain ⟨hfree, hguar, hinv', htaken', hchild, hk⟩ := h s' hrely.1 hinv htaken
      obtain ⟨hchild', hk'⟩ := h' s' ⟨hrely.1, hrely.2, hinv, htaken⟩ hfree hinv'
      exact ⟨hfree, ⟨hguar, X.does_of_enter r r' s'⟩, hinv', htaken', ihchild hchild hchild',
        ih hk hk'⟩

/-- The postcondition may be weakened. -/
theorem wp_mono {p : Prog S ρ ω α} {Q Q' : α → σ → Prop} (hQ : ∀ a s, Q a s → Q' a s)
    (h : X.wp r p Q s) : X.wp r p Q' s := by
  induction p generalizing s with
  | pure a => exact hQ a s h
  | step st k ih =>
      exact ⟨h.1, fun s' hs' hneeds x b s'' hassume hexec hinv =>
        ih b hQ (h.2 s' hs' hneeds x b s'' hassume hexec hinv)⟩
  | fork r' child k _ ih =>
      intro s' hs' hfree hinv
      obtain ⟨hchild, hk⟩ := h s' hs' hfree hinv
      exact ⟨hchild, ih hQ hk⟩

/-- A sequence is checked part by part. -/
theorem wp_bind {p : Prog S ρ ω α} {f : α → Prog S ρ ω β} {Q : β → σ → Prop}
    (h : X.wp r p (fun a => X.wp r (f a) Q) s) : X.wp r (p.bind f) Q s := by
  induction p generalizing s with
  | pure a => exact h
  | step st k ih =>
      exact ⟨h.1, fun s' hs' hneeds x b s'' hassume hexec hinv =>
        ih b (h.2 s' hs' hneeds x b s'' hassume hexec hinv)⟩
  | fork r' child k _ ih =>
      intro s' hs' hfree hinv
      obtain ⟨hchild, hk⟩ := h s' hs' hfree hinv
      exact ⟨hchild, ih hk⟩

/-- A program keeps an assertion if each of its statements does. -/
theorem wp_of_every {P : ∀ {β : Type}, S β → Prop} {A : σ → Prop} {p : Prog S ρ ω α}
    (hp : p.Every P) (hallows : ∀ {β : Type} {st : S β}, P st → X.allows r st)
    (hfinds : ∀ s s', X.Finds r s s' → A s → A s')
    (hexec : ∀ {β : Type} {st : S β}, P st → ∀ x s b s', D.inv s → M.exec st x s = some (b, s') →
      A s → A s') (hA : A s) : X.wp r p (fun _ => A) s := by
  induction p generalizing s with
  | pure a => exact hA
  | step st k ih =>
      exact ⟨hallows hp.1, fun s' hs' _ x b s'' _ hstep _ =>
        ih b (hp.2 b) (hexec hp.1 x s' b s'' hs'.inv hstep (hfinds s s' hs' hA))⟩
  | fork r' child k => exact hp.elim

/-- The discipline lets clients in only to programs that are verified besides. -/
theorem hospitable (hD : D.Hospitable)
    (h : ∀ c s, D.admits c → D.inv s → D.inv (M.enter (M.arrival c s).1 s) →
      X.wp (M.arrival c s).1 (M.arrival c s).2 (X.post (M.arrival c s).1)
        (M.enter (M.arrival c s).1 s)) : X.discipline.Hospitable := by
  intro c s hadmits hinv
  obtain ⟨hfree, hguar, hinv', htaken, hwp⟩ := hD c s hadmits hinv
  exact ⟨hfree, ⟨hguar, X.does_of_enter _ _ s⟩, hinv', htaken,
    wp_discipline hwp (h c s hadmits hinv hinv')⟩

end Extension

/-! ## Programs that may return early -/

/-- From `s` the program, which is known to keep the discipline, ends with `Q` or, in case of
an error, with `E`. -/
def Adds {D : Discipline M} (X : Extension D) (r : ρ) (p : Tries S ρ ω ε α) (Q : α → σ → Prop)
    (E : ε → σ → Prop) (s : σ) : Prop :=
  X.wp r p.run (either Q E) s

namespace Adds

variable {D : Discipline M} {X : Extension D} {r : ρ} {w : σ} {Q : α → σ → Prop}
  {E : ε → σ → Prop}

theorem pure {a : α} (h : Q a w) : Adds X r (Pure.pure a) Q E w := h

theorem throw {e : ε} (h : E e w) : Adds X r (MonadExcept.throw e : Tries S ρ ω ε α) Q E w := h

/-- Both postconditions may be weakened. -/
theorem mono {p : Tries S ρ ω ε α} {Q' : α → σ → Prop} {E' : ε → σ → Prop}
    (h : Adds X r p Q E w) (hQ : ∀ a w, Q a w → Q' a w) (hE : ∀ e w, E e w → E' e w) :
    Adds X r p Q' E' w := by
  refine Extension.wp_mono (fun a w h => ?_) h
  cases a with
  | ok a => exact hQ a w h
  | error e => exact hE e w h

/-- A sequence is checked part by part. -/
theorem bind {p : Tries S ρ ω ε β} {f : β → Tries S ρ ω ε α}
    (h : Adds X r p (fun b => Adds X r (f b) Q E) E w) : Adds X r (p >>= f) Q E w := by
  show X.wp r (p.run.bind _) (either Q E) w
  refine Extension.wp_bind (Extension.wp_mono (fun a w h => ?_) h)
  cases a with
  | ok b => exact h
  | error e => exact h

/-- A sequence whose first part is known to end with `Q'`. -/
theorem andThen {p : Tries S ρ ω ε β} {f : β → Tries S ρ ω ε α} {Q' : β → σ → Prop}
    (hp : Adds X r p Q' E w) (hf : ∀ b w, Q' b w → Adds X r (f b) Q E w) :
    Adds X r (p >>= f) Q E w :=
  bind (hp.mono hf fun _ _ h => h)

theorem result {x : Except ε α} (hok : ∀ a, x = .ok a → Q a w)
    (herror : ∀ e, x = .error e → E e w) : Adds X r (Tries.result x) Q E w := by
  cases x with
  | ok a => exact hok a rfl
  | error e => exact herror e rfl

/-- A statement is verified with what the discipline needs of it and what the extension
adds. -/
theorem stmt {st : S α} (hallows : X.allows r st)
    (h : ∀ w', X.Finds r w w' → D.needs r st w' → ∀ x a w'', X.assume r st x w' →
      M.exec st x w' = some (a, w'') → D.inv w'' → Q a w'') : Adds X r (Tries.stmt st) Q E w :=
  ⟨hallows, h⟩

/-- A statement whose answer may be an error, which is then returned early. -/
theorem attempt {st : S (Except ε' α)} {wrap : ε' → ε} (hallows : X.allows r st)
    (h : ∀ w', X.Finds r w w' → D.needs r st w' → ∀ x a w'', X.assume r st x w' →
      M.exec st x w' = some (a, w'') → D.inv w'' → either Q E (a.mapError wrap) w'') :
    Adds X r (Tries.attempt wrap st) Q E w := ⟨hallows, h⟩

theorem caught {p : Tries S ρ ω ε α} {Q : Except ε α → σ → Prop}
    (h : Adds X r p (fun a => Q (.ok a)) (fun e => Q (.error e)) w) :
    Adds X r (Tries.caught p) Q E w := by
  show X.wp r (p.run.bind _) (either Q E) w
  refine Extension.wp_bind (Extension.wp_mono (fun a w h => ?_) h)
  cases a with
  | ok a => exact h
  | error e => exact h

end Adds

end Concurrency
