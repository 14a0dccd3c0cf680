/-
# Programs at work alone

What a program does while nobody else is at work on the store.

* `Prog.Ends` is a weakest precondition that also says that the program ends: on every input
  that is `ok` for the statement at hand, the statement is executed and the rest of the
  program ends.
* `Ends.of_run` is its use for one run, and `Ends.exists_run` for every endless sequence of
  inputs that stays `ok` (`Feeds`): some beginning of it is enough.
* `Returns` is the same for programs that may return early, with a rule for each combinator.
-/
import EvglApi.Tries
import Mathlib.Data.Stream.Init

namespace Concurrency

universe u

variable {S : Type → Type u} {ρ ω σ ι κ ε ε' α β : Type} (M : Machine S ρ ω σ ι κ)
  (ok : ∀ {β : Type}, S β → ι → σ → Prop)

/-- Run alone from `s`, on inputs that are `ok`, the program ends with `Q`. -/
def Prog.Ends : ∀ {α : Type}, Prog S ρ ω α → (α → σ → Prop) → σ → Prop
  | _, .pure a, Q, s => Q a s
  | _, .step st k, Q, s =>
      ∀ x, ok st x s → ∃ b s', M.exec st x s = some (b, s') ∧ Ends (k b) Q s'
  | _, .fork r _ k, Q, s => Ends k Q (M.enter r s)

/-- The inputs of the sequence are `ok` one after the other, whatever is executed. -/
structure Feeds (I : Stream' ι → σ → Prop) : Prop where
  ok : ∀ {β : Type} {f s} (st : S β), I f s → ok st f.head s
  step : ∀ {β : Type} {f s} {st : S β} {b s'}, I f s → M.exec st f.head s = some (b, s') →
    I f.tail s'
  fork : ∀ {f s} r, I f s → I f (M.enter r s)

variable {M} {ok}

/-- Inputs with a property that no statement looks at. -/
theorem feeds_forall (P : ι → Prop) :
    Feeds M (fun {_} _ x _ => P x) fun f _ => ∀ i, P (f.get i) where
  ok _ hf := hf 0
  step hf _ i := hf (i + 1)
  fork _ hf := hf

namespace Prog.Ends

variable {p : Prog S ρ ω α} {Q Q' : α → σ → Prop} {s s' : σ} {a : α}

theorem mono (h : p.Ends M ok Q s) (hQ : ∀ a s, Q a s → Q' a s) : p.Ends M ok Q' s := by
  induction p generalizing s with
  | pure a => exact hQ a s h
  | step st k ih =>
      intro x hx
      obtain ⟨b, s', hexec, hk⟩ := h x hx
      exact ⟨b, s', hexec, ih b hk hQ⟩
  | fork r child k _ ih => exact ih h hQ

/-- A sequence ends if its parts do. -/
theorem bind {f : α → Prog S ρ ω β} {Q : β → σ → Prop}
    (h : p.Ends M ok (fun a s => (f a).Ends M ok Q s) s) : (p.bind f).Ends M ok Q s := by
  induction p generalizing s with
  | pure a => exact h
  | step st k ih =>
      intro x hx
      obtain ⟨b, s', hexec, hk⟩ := h x hx
      exact ⟨b, s', hexec, ih b hk⟩
  | fork r child k _ ih => exact ih h

/-- What a run ends with, if every input on which a statement is executed is `ok`. -/
theorem of_run {xs : List ι}
    (hok : ∀ {β : Type} {st : S β} {x s r}, M.exec st x s = some r → ok st x s)
    (h : p.Ends M ok Q s) (hrun : p.runAlone M xs s = some (a, s')) : Q a s' := by
  induction p generalizing xs s with
  | pure b =>
      obtain ⟨rfl, rfl⟩ := Prod.mk.inj (Option.some.inj hrun)
      exact h
  | step st k ih =>
      cases xs with
      | nil => cases hrun
      | cons x xs =>
          obtain ⟨⟨b, s₁⟩, hexec, hrest⟩ := Option.bind_eq_some_iff.mp hrun
          obtain ⟨b', s₁', hexec', hk⟩ := h x (hok hexec)
          obtain ⟨rfl, rfl⟩ := Prod.mk.inj (Option.some.inj (hexec.symm.trans hexec'))
          exact ih b hk hrest
  | fork r child k _ ih => exact ih h hrun

/-- On every sequence of inputs that stays `ok`, the program ends after some of them. -/
theorem exists_run {I : Stream' ι → σ → Prop} {f : Stream' ι} (hI : Feeds M ok I)
    (h : p.Ends M ok Q s) (hf : I f s) :
    ∃ n a s', p.runAlone M (f.take n) s = some (a, s') ∧ Q a s' := by
  induction p generalizing f s with
  | pure a => exact ⟨0, a, s, rfl, h⟩
  | step st k ih =>
      obtain ⟨b, s₁, hexec, hk⟩ := h f.head (hI.ok st hf)
      obtain ⟨n, a, s', hrun, ha⟩ := ih b hk (hI.step hf hexec)
      refine ⟨n + 1, a, s', ?_, ha⟩
      show (M.exec st f.head s).bind _ = _
      rw [hexec]
      exact hrun
  | fork r child k _ ih => exact ih h (hI.fork r hf)

end Prog.Ends

/-! ## Programs that may return early -/

variable (M) (ok) in
/-- Run alone from `s`, on inputs that are `ok`, the program ends with `Q` or, in case of an
error, with `E`. -/
def Returns (p : Tries S ρ ω ε α) (Q : α → σ → Prop) (E : ε → σ → Prop) (s : σ) : Prop :=
  p.run.Ends M ok (either Q E) s

namespace Returns

variable {Q : α → σ → Prop} {E : ε → σ → Prop} {s : σ}

theorem pure {a : α} (h : Q a s) : Returns M ok (Pure.pure a) Q E s := h

/-- An early return is judged by the postcondition for errors. -/
theorem throw {e : ε} (h : E e s) :
    Returns M ok (MonadExcept.throw e : Tries S ρ ω ε α) Q E s := h

/-- Both postconditions may be weakened. -/
theorem mono {p : Tries S ρ ω ε α} {Q' : α → σ → Prop} {E' : ε → σ → Prop}
    (h : Returns M ok p Q E s) (hQ : ∀ a s, Q a s → Q' a s) (hE : ∀ e s, E e s → E' e s) :
    Returns M ok p Q' E' s := by
  refine Prog.Ends.mono h fun a s h => ?_
  cases a with
  | ok a => exact hQ a s h
  | error e => exact hE e s h

/-- A sequence is verified part by part. -/
theorem bind {p : Tries S ρ ω ε β} {f : β → Tries S ρ ω ε α}
    (h : Returns M ok p (fun b => Returns M ok (f b) Q E) E s) :
    Returns M ok (p >>= f) Q E s := by
  show (p.run.bind _).Ends M ok (either Q E) s
  refine Prog.Ends.bind (Prog.Ends.mono h fun a s h => ?_)
  cases a with
  | ok b => exact h
  | error e => exact h

/-- A sequence whose first part is known to end with `Q'`. -/
theorem andThen {p : Tries S ρ ω ε β} {f : β → Tries S ρ ω ε α} {Q' : β → σ → Prop}
    (hp : Returns M ok p Q' E s) (hf : ∀ b s, Q' b s → Returns M ok (f b) Q E s) :
    Returns M ok (p >>= f) Q E s :=
  bind (hp.mono hf fun _ _ h => h)

theorem result {x : Except ε α} (hok : ∀ a, x = .ok a → Q a s)
    (herror : ∀ e, x = .error e → E e s) :
    Returns M ok (Tries.result x) Q E s := by
  cases x with
  | ok a => exact hok a rfl
  | error e => exact herror e rfl

/-- A statement that is alone has to be executable on every input that is admitted. -/
theorem stmt {st : S α} (h : ∀ x, ok st x s → ∃ a s', M.exec st x s = some (a, s') ∧ Q a s') :
    Returns M ok (Tries.stmt st) Q E s := h

theorem attempt {st : S (Except ε' α)} {wrap : ε' → ε}
    (h : ∀ x, ok st x s → ∃ a s', M.exec st x s = some (a, s') ∧
      either Q E (a.mapError wrap) s') : Returns M ok (Tries.attempt wrap st) Q E s := h

theorem caught {p : Tries S ρ ω ε α} {Q : Except ε α → σ → Prop}
    (h : Returns M ok p (fun a => Q (.ok a)) (fun e => Q (.error e)) s) :
    Returns M ok (Tries.caught p) Q E s := by
  show (p.run.bind _).Ends M ok (either Q E) s
  refine Prog.Ends.bind (Prog.Ends.mono h fun a s h => ?_)
  cases a with
  | ok a => exact h
  | error e => exact h

end Returns

end Concurrency
