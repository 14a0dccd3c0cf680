/-
# Programs that may return early

A program in `Tries` ends with a value or returns early with an error.  `Keeps` is its
weakest precondition with one postcondition for a value and one for an error, and
`Only` says that each of its statements satisfies a property; each combinator has a
rule for both.
-/
import EvglApi.RelyGuarantee
import Mathlib.Control.Monad.Basic

namespace Concurrency

universe u

/-- A program that may return early with an error of type `ε`. -/
abbrev Tries (S : Type → Type u) (ρ ω ε α : Type) := ExceptT ε (Prog S ρ ω) α

variable {S : Type → Type u} {ρ ω σ ι κ ε ε' α β : Type}

namespace Tries

/-- Go on with a value, or return early with an error. -/
def result (r : Except ε α) : Tries S ρ ω ε α := ExceptT.mk (.pure r)

/-- Execute a statement. -/
def stmt (s : S α) : Tries S ρ ω ε α := ExceptT.mk (.step s fun a => .pure (.ok a))

/-- Execute a statement and return early with `wrap e` if its answer is an error `e`. -/
def attempt (wrap : ε' → ε) (s : S (Except ε' α)) : Tries S ρ ω ε α :=
  ExceptT.mk (.step s fun r => .pure (r.mapError wrap))

/-- Go on with the result of a program, whatever it is. -/
def caught (body : Tries S ρ ω ε α) : Tries S ρ ω ε (Except ε α) :=
  ExceptT.mk (body.run.bind fun r => .pure (.ok r))

end Tries

/-! ## Runs without others -/

section Alone

variable {M : Machine S ρ ω σ ι κ} {w w' : σ} {f : α → Tries S ρ ω ε β} {x : ι} {xs : List ι}

/-- A statement that is attempted. -/
theorem Tries.runAlone_attempt {wrap : ε' → ε} {s : S (Except ε' α)} {r : Except ε' α}
    (h : M.exec s x w = some (r, w')) :
    (Tries.attempt wrap s >>= f).run.runAlone M (x :: xs) w =
      (Tries.result (r.mapError wrap) >>= f).run.runAlone M xs w' := by
  show (M.exec s x w).bind _ = _
  rw [h]
  rfl

/-- A value that is at hand is passed on. -/
theorem Tries.result_ok_bind (a : α) : (Tries.result (.ok a) >>= f : Tries S ρ ω ε β) = f a := rfl

end Alone

/-! ## The weakest precondition -/

/-- The postcondition of a program that ends with a value or an error. -/
def either (Q : α → σ → Prop) (E : ε → σ → Prop) : Except ε α → σ → Prop
  | .ok a => Q a
  | .error e => E e

variable {M : Machine S ρ ω σ ι κ}

/-- From `s` the program keeps the discipline and ends with `Q` or, in case of an
error, with `E`. -/
def Keeps (D : Discipline M) (r : ρ) (p : Tries S ρ ω ε α) (Q : α → σ → Prop)
    (E : ε → σ → Prop) (s : σ) : Prop :=
  D.wp r p.run (either Q E) s

namespace Keeps

variable {D : Discipline M} {r : ρ} {w : σ} {Q : α → σ → Prop} {E : ε → σ → Prop}

theorem pure {a : α} (h : Q a w) : Keeps D r (Pure.pure a) Q E w := h

/-- An early return is judged by the postcondition for errors. -/
theorem throw {e : ε} (h : E e w) : Keeps D r (MonadExcept.throw e : Tries S ρ ω ε α) Q E w := h

/-- Both postconditions may be weakened. -/
theorem mono {p : Tries S ρ ω ε α} {Q' : α → σ → Prop} {E' : ε → σ → Prop}
    (h : Keeps D r p Q E w) (hQ : ∀ a w, Q a w → Q' a w) (hE : ∀ e w, E e w → E' e w) :
    Keeps D r p Q' E' w := by
  refine Discipline.wp_mono (fun a w h => ?_) h
  cases a with
  | ok a => exact hQ a w h
  | error e => exact hE e w h

/-- What neither the others nor the role itself can undo still holds after a value. -/
theorem frame {p : Tries S ρ ω ε α} {P : σ → Prop} (hrely : ∀ w w', D.rely r w w' → P w → P w')
    (hguar : ∀ w w', D.guar r w w' → P w → P w') (hP : P w) (h : Keeps D r p Q E w) :
    Keeps D r p (fun a w => Q a w ∧ P w) E w := by
  refine Discipline.wp_mono (fun a w h => ?_) (Discipline.wp_frame hrely hguar hP h)
  cases a with
  | ok a => exact h
  | error e => exact h.1

/-- A sequence is verified part by part. -/
theorem bind {p : Tries S ρ ω ε β} {f : β → Tries S ρ ω ε α}
    (h : Keeps D r p (fun b => Keeps D r (f b) Q E) E w) : Keeps D r (p >>= f) Q E w := by
  show D.wp r (p.run.bind _) (either Q E) w
  rw [Discipline.wp_bind]
  refine Discipline.wp_mono (fun a w h => ?_) h
  cases a with
  | ok b => exact h
  | error e => exact h

/-- A sequence whose first part is known to end with `Q'`. -/
theorem andThen {p : Tries S ρ ω ε β} {f : β → Tries S ρ ω ε α} {Q' : β → σ → Prop}
    (hp : Keeps D r p Q' E w) (hf : ∀ b w, Q' b w → Keeps D r (f b) Q E w) :
    Keeps D r (p >>= f) Q E w :=
  bind (hp.mono hf fun _ _ h => h)

/-- A result that is at hand goes on or returns early, as it is. -/
theorem result {x : Except ε α} (hok : ∀ a, x = .ok a → Q a w)
    (herror : ∀ e, x = .error e → E e w) : Keeps D r (Tries.result x) Q E w := by
  cases x with
  | ok a => exact hok a rfl
  | error e => exact herror e rfl

/-- A statement is verified against every state that the others may have made of this one.
-/
theorem stmt {s : S α}
    (h : ∀ w', D.rely r w w' → D.inv w' → D.taken w' r → D.needs r s w' ∧
      ∀ x a w'', D.assume r s x w' → M.exec s x w' = some (a, w'') →
        D.guar r w' w'' ∧ D.inv w'' ∧ Q a w'') : Keeps D r (Tries.stmt s) Q E w := h

/-- A statement whose answer may be an error, which is then returned early. -/
theorem attempt {s : S (Except ε' α)} {wrap : ε' → ε}
    (h : ∀ w', D.rely r w w' → D.inv w' → D.taken w' r → D.needs r s w' ∧
      ∀ x a w'', D.assume r s x w' → M.exec s x w' = some (a, w'') →
        D.guar r w' w'' ∧ D.inv w'' ∧ either Q E (a.mapError wrap) w'') :
    Keeps D r (Tries.attempt wrap s) Q E w := h

/-- An error that is caught is passed on as a value. -/
theorem caught {p : Tries S ρ ω ε α} {Q : Except ε α → σ → Prop}
    (h : Keeps D r p (fun a => Q (.ok a)) (fun e => Q (.error e)) w) :
    Keeps D r (Tries.caught p) Q E w := by
  show D.wp r (p.run.bind _) (either Q E) w
  rw [Discipline.wp_bind]
  refine Discipline.wp_mono (fun a w h => ?_) h
  cases a with
  | ok a => exact h
  | error e => exact h

end Keeps

/-! ## The statements of a program -/

/-- Every statement that the program may come to execute satisfies `P`. -/
def Only (P : ∀ {β : Type}, S β → Prop) (p : Tries S ρ ω ε α) : Prop := p.run.Every P

namespace Only

variable {P : ∀ {β : Type}, S β → Prop}

theorem pure (a : α) : Only P (Pure.pure a : Tries S ρ ω ε α) := trivial

theorem throw (e : ε) : Only P (MonadExcept.throw e : Tries S ρ ω ε α) := trivial

/-- The rest may depend on the value of the first part. -/
theorem bind {p : Tries S ρ ω ε α} {f : α → Tries S ρ ω ε β} (hp : Only P p)
    (hf : ∀ a, Only P (f a)) : Only P (p >>= f) := by
  show (p.run.bind _).Every _
  refine Prog.Every.bind hp fun a => ?_
  cases a with
  | ok a => exact hf a
  | error e => trivial

theorem result (r : Except ε α) : Only P (Tries.result r : Tries S ρ ω ε α) := trivial

theorem stmt {s : S α} (h : P s) : Only P (Tries.stmt s : Tries S ρ ω ε α) :=
  ⟨h, fun _ => trivial⟩

theorem attempt {s : S (Except ε' α)} {wrap : ε' → ε} (h : P s) :
    Only P (Tries.attempt wrap s : Tries S ρ ω ε α) := ⟨h, fun _ => trivial⟩

/-- What is done with an optional row. -/
theorem option {f : Option α → Tries S ρ ω ε β} (hnone : Only P (f none))
    (hsome : ∀ a, Only P (f (some a))) (row : Option α) : Only P (f row) := by
  cases row with
  | none => exact hnone
  | some a => exact hsome a

/-- Catching an error adds no statement. -/
theorem caught {p : Tries S ρ ω ε α} (hp : Only P p) : Only P (Tries.caught p) :=
  Prog.Every.bind hp fun _ => trivial

end Only

end Concurrency
