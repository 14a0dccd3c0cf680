/-
# Programs that end well only after a last word

* `Prog.EndsOn` says that a program comes to a good end only right after a statement of a
  given kind; `endsOn_bind` is its rule for a sequence that may return early.
* `Prog.Starts` is `Prog.Every` for programs that start others.
* `Prog.Marked` says what a program does after a statement of a given kind.
-/
import EvglApi.Tries

namespace Concurrency

universe u

variable {S : Type → Type u} {ρ ω ε α β : Type} {P last : ∀ {β : Type}, S β → Prop}

namespace Prog

/-! ## Programs that start none -/

/-- Every statement satisfies `P`, no program is started, and the program ends with a good
value only right after a statement that satisfies `last`. -/
def EndsOn (P last : ∀ {β : Type}, S β → Prop) : ∀ {α : Type}, (α → Prop) → Prog S ρ ω α → Prop
  | _, good, .pure a => ¬ good a
  | _, good, .step st k => P st ∧ ∀ b, EndsOn P last good (k b) ∨ last st ∧ ∃ a, k b = .pure a
  | _, _, .fork .. => False

theorem EndsOn.every {good : α → Prop} {p : Prog S ρ ω α} (h : p.EndsOn P last good) :
    p.Every P := by
  induction p with
  | pure a => trivial
  | step st k ih =>
      refine ⟨h.1, fun b => ?_⟩
      rcases h.2 b with hk | ⟨-, a, ha⟩
      · exact ih b hk
      · rw [ha]
        trivial
  | fork r child k => exact h.elim

/-- A sequence ends as its last part does. -/
theorem EndsOn.bind {good : β → Prop} {p : Prog S ρ ω α} {f : α → Prog S ρ ω β}
    (hp : p.Every P) (hf : ∀ a, (f a).EndsOn P last good) : (p.bind f).EndsOn P last good := by
  induction p with
  | pure a => exact hf a
  | step st k ih => exact ⟨hp.1, fun b => Or.inl (ih b (hp.2 b) hf)⟩
  | fork r child k => exact hp.elim

/-- A program whose value is wrapped. -/
theorem EndsOn.map {good : β → Prop} (g : α → β) {p : Prog S ρ ω α}
    (h : p.EndsOn P last fun a => good (g a)) :
    (p.bind fun a => .pure (g a)).EndsOn P last good := by
  induction p with
  | pure a => exact h
  | step st k ih =>
      refine ⟨h.1, fun b => ?_⟩
      rcases h.2 b with hk | ⟨hlast, a, ha⟩
      · exact Or.inl (ih b g hk)
      · refine Or.inr ⟨hlast, g a, ?_⟩
        show (k b).bind _ = _
        rw [ha]
        rfl
  | fork r child k => exact h.elim

/-! ## Programs that start others -/

/-- Every statement satisfies `P`, and every program that is started satisfies `C`. -/
def Starts (P : ∀ {β : Type}, S β → Prop) (C : ρ → Prog S ρ ω ω → Prop) :
    ∀ {α : Type}, Prog S ρ ω α → Prop
  | _, .pure _ => True
  | _, .step st k => P st ∧ ∀ b, Starts P C (k b)
  | _, .fork r child k => C r child ∧ Starts P C k

variable {C : ρ → Prog S ρ ω ω → Prop}

theorem Starts.of_every {p : Prog S ρ ω α} (h : p.Every P) : p.Starts P C := by
  induction p with
  | pure a => trivial
  | step st k ih => exact ⟨h.1, fun b => ih b (h.2 b)⟩
  | fork r child k => exact h.elim

theorem Starts.bind {p : Prog S ρ ω α} {f : α → Prog S ρ ω β} (hp : p.Starts P C)
    (hf : ∀ a, (f a).Starts P C) : (p.bind f).Starts P C := by
  induction p with
  | pure a => exact hf a
  | step st k ih => exact ⟨hp.1, fun b => ih b (hp.2 b) hf⟩
  | fork r child k _ ih => exact ⟨hp.1, ih hp.2 hf⟩

/-! ## Programs with a mark -/

variable {mark Q : ∀ {β : Type}, S β → Prop}

/-- Every statement satisfies `P`, no program is started, and after a statement that satisfies
`mark` every statement satisfies `Q`. -/
def Marked (P mark Q : ∀ {β : Type}, S β → Prop) : ∀ {α : Type}, Prog S ρ ω α → Prop
  | _, .pure _ => True
  | _, .step st k => P st ∧ ∀ b, Marked P mark Q (k b) ∧ (mark st → (k b).Every Q)
  | _, .fork .. => False

/-- Before the mark. -/
theorem Marked.bind_of_every {p : Prog S ρ ω α} {f : α → Prog S ρ ω β}
    (hp : p.Every fun st => P st ∧ ¬ mark st) (hf : ∀ a, (f a).Marked P mark Q) :
    (p.bind f).Marked P mark Q := by
  induction p with
  | pure a => exact hf a
  | step st k ih => exact ⟨hp.1.1, fun b => ⟨ih b (hp.2 b) hf, fun hmark => absurd hmark hp.1.2⟩⟩
  | fork r child k => exact hp.elim

/-- After the mark. -/
theorem Marked.bind {p : Prog S ρ ω α} {f : α → Prog S ρ ω β} (hp : p.Marked P mark Q)
    (hf : ∀ a, (f a).Marked P mark Q) (hQ : ∀ a, (f a).Every Q) :
    (p.bind f).Marked P mark Q := by
  induction p with
  | pure a => exact hf a
  | step st k ih =>
      exact ⟨hp.1, fun b => ⟨ih b (hp.2 b).1 hf hQ, fun hmark =>
        Prog.Every.bind ((hp.2 b).2 hmark) hQ⟩⟩
  | fork r child k => exact hp.elim

end Prog

/-- A program that may return early comes to a good end where its last part does, if no
error is a good end. -/
theorem endsOn_bind {good : Except ε β → Prop} (herror : ∀ e, ¬ good (.error e))
    {p : Tries S ρ ω ε α} {f : α → Tries S ρ ω ε β} (hp : Only P p)
    (hf : ∀ a, (f a).run.EndsOn P last good) : (p >>= f).run.EndsOn P last good := by
  show (p.run.bind _).EndsOn P last good
  refine Prog.EndsOn.bind hp fun a => ?_
  cases a with
  | ok a => exact hf a
  | error e => exact herror e

/-- What a program that may return early starts is what its parts start. -/
theorem starts_bind {C : ρ → Prog S ρ ω ω → Prop} {p : Tries S ρ ω ε α}
    {f : α → Tries S ρ ω ε β} (hp : p.run.Starts P C) (hf : ∀ a, (f a).run.Starts P C) :
    (p >>= f).run.Starts P C := by
  show (p.run.bind _).Starts P C
  refine Prog.Starts.bind hp fun a => ?_
  cases a with
  | ok a => exact hf a
  | error e => trivial

/-- A program that may return early before the mark. -/
theorem marked_bind {mark Q : ∀ {β : Type}, S β → Prop} {p : Tries S ρ ω ε α}
    {f : α → Tries S ρ ω ε β} (hp : Only (fun st => P st ∧ ¬ mark st) p)
    (hf : ∀ a, (f a).run.Marked P mark Q) : (p >>= f).run.Marked P mark Q := by
  show (p.run.bind _).Marked P mark Q
  refine Prog.Marked.bind_of_every hp fun a => ?_
  cases a with
  | ok a => exact hf a
  | error e => trivial

/-- What may follow the mark. -/
theorem marked_bind_marked {mark Q : ∀ {β : Type}, S β → Prop} {p : Tries S ρ ω ε α}
    {f : α → Tries S ρ ω ε β} (hp : p.run.Marked P mark Q) (hf : ∀ a, (f a).run.Marked P mark Q)
    (hQ : ∀ a, Only Q (f a)) : (p >>= f).run.Marked P mark Q := by
  show (p.run.bind _).Marked P mark Q
  refine Prog.Marked.bind hp (fun a => ?_) fun a => ?_
  · cases a with
    | ok a => exact hf a
    | error e => trivial
  · cases a with
    | ok a => exact hQ a
    | error e => trivial

end Concurrency
