/-
# Programs over a shared store

A program is a tree of statements: after each statement it goes on with the
statement's answer, and it may start another program that runs beside it.  What a
statement does to the shared store is given by a `Machine`; whatever the store
does not determine (failures, fresh names, the answers of other services) is read
from an input `x` that is chosen for each statement.

* `runAlone` runs one program with nobody else at work;
* `Pool` is a store with any number of programs at work on it, and
  `Pool.run` executes a schedule: which program does its next statement on which
  input, and when a new client arrives.
-/
import Mathlib.Data.List.Basic
import Mathlib.Data.Option.Basic

namespace Concurrency

universe u

/-- A program with statements in `S` that ends with a value of type `α`.  The
programs it starts have a role in `ρ` and end with a value of type `ω`. -/
inductive Prog (S : Type → Type u) (ρ ω : Type) : Type → Type (max 1 u)
  | pure {α : Type} (a : α) : Prog S ρ ω α
  | step {α β : Type} (s : S β) (k : β → Prog S ρ ω α) : Prog S ρ ω α
  | fork {α : Type} (r : ρ) (child : Prog S ρ ω ω) (k : Prog S ρ ω α) : Prog S ρ ω α

variable {S : Type → Type u} {ρ ω σ ι κ α β : Type}

namespace Prog

/-- Run `p` and go on with its value. -/
def bind : Prog S ρ ω α → (α → Prog S ρ ω β) → Prog S ρ ω β
  | .pure a, f => f a
  | .step s k, f => .step s fun b => (k b).bind f
  | .fork r child k, f => .fork r child (k.bind f)

instance : Monad (Prog S ρ ω) where
  pure := .pure
  bind := .bind

@[simp] theorem pure_eq (a : α) : (Pure.pure a : Prog S ρ ω α) = .pure a := rfl

@[simp] theorem bind_eq (p : Prog S ρ ω α) (f : α → Prog S ρ ω β) : (p >>= f) = p.bind f := rfl

@[simp] theorem pure_bind (a : α) (f : α → Prog S ρ ω β) : (Prog.pure a).bind f = f a := rfl

/-- What follows a statement is put behind its continuation. -/
@[simp] theorem step_bind {γ : Type} (s : S γ) (k : γ → Prog S ρ ω α) (f : α → Prog S ρ ω β) :
    (Prog.step s k).bind f = .step s fun b => (k b).bind f := rfl

@[simp] theorem fork_bind (r : ρ) (child : Prog S ρ ω ω) (k : Prog S ρ ω α)
    (f : α → Prog S ρ ω β) : (Prog.fork r child k).bind f = .fork r child (k.bind f) := rfl

/-- Ending with the value as it is changes nothing. -/
@[simp] theorem bind_pure (p : Prog S ρ ω α) : p.bind .pure = p := by
  induction p with
  | pure a => rfl
  | step s k ih => exact congrArg _ (funext ih)
  | fork r child k _ ih => exact congrArg _ ih

/-- How a sequence is bracketed does not matter. -/
theorem bind_assoc {γ : Type} (p : Prog S ρ ω α) (f : α → Prog S ρ ω β) (g : β → Prog S ρ ω γ) :
    (p.bind f).bind g = p.bind fun a => (f a).bind g := by
  induction p with
  | pure a => rfl
  | step s k ih => exact congrArg _ (funext fun b => ih b f)
  | fork r child k _ ih => exact congrArg _ (ih f)

instance : LawfulMonad (Prog S ρ ω) :=
  LawfulMonad.mk' _ (fun p => p.bind_pure) (fun _ _ => rfl) fun p f g => p.bind_assoc f g

/-- Every statement the program may come to execute satisfies `P`, and it starts no
other program. -/
def Every (P : ∀ {β : Type}, S β → Prop) : ∀ {α : Type}, Prog S ρ ω α → Prop
  | _, .pure _ => True
  | _, .step s k => P s ∧ ∀ b, (k b).Every P
  | _, .fork _ _ _ => False

/-- A weaker property holds of every statement as well. -/
theorem Every.mono {P Q : ∀ {β : Type}, S β → Prop} {p : Prog S ρ ω α}
    (hPQ : ∀ {β : Type} {s : S β}, P s → Q s) (hp : p.Every P) : p.Every Q := by
  induction p with
  | pure a => trivial
  | step s k ih => exact ⟨hPQ hp.1, fun b => ih b (hp.2 b)⟩
  | fork r child k _ ih => exact hp.elim

/-- `Every` holds of a sequence if it holds of its parts. -/
theorem Every.bind {P : ∀ {β : Type}, S β → Prop} {p : Prog S ρ ω α} {f : α → Prog S ρ ω β}
    (hp : p.Every P) (hf : ∀ a, (f a).Every P) : (p.bind f).Every P := by
  induction p with
  | pure a => exact hf a
  | step s k ih => exact ⟨hp.1, fun b => ih b (hp.2 b) hf⟩
  | fork r child k _ ih => exact hp.elim

end Prog

/-! ## Machines and pools -/

/-- What statements, new roles and arriving clients do. -/
structure Machine (S : Type → Type u) (ρ ω σ ι κ : Type) where
  /-- The answer of a statement and the store after it; `none` while it has to wait. -/
  exec : {β : Type} → S β → ι → σ → Option (β × σ)
  /-- The store after a program with the given role is started. -/
  enter : ρ → σ → σ
  /-- The role and the program of an arriving client. -/
  arrival : κ → σ → ρ × Prog S ρ ω ω

/-- A program at work. -/
structure Thread (S : Type → Type u) (ρ ω : Type) where
  role : ρ
  prog : Prog S ρ ω ω

/-- A store and the programs at work on it, in the order in which they were started. -/
structure Pool (S : Type → Type u) (ρ ω σ : Type) where
  shared : σ
  threads : List (Thread S ρ ω)

/-- One entry of a schedule. -/
inductive Label (ι κ : Type)
  | arrive (client : κ)
  | turn (thread : ℕ) (input : ι)

variable (M : Machine S ρ ω σ ι κ)

namespace Prog

/-- Run a program alone, with the given inputs for its statements. -/
def runAlone {α : Type} : Prog S ρ ω α → List ι → σ → Option (α × σ)
  | .pure a, _, s => some (a, s)
  | .step _ _, [], _ => none
  | .step st k, x :: xs, s => (M.exec st x s).bind fun (b, s') => (k b).runAlone xs s'
  | .fork r _ k, xs, s => k.runAlone xs (M.enter r s)

end Prog

namespace Pool

/-- The pool after the program `t`, which is at work at position `i`, has its turn. -/
def turn (p : Pool S ρ ω σ) (i : ℕ) (x : ι) (t : Thread S ρ ω) : Option (Pool S ρ ω σ) :=
  match t.prog with
  | .pure _ => none
  | .step st k => (M.exec st x p.shared).map fun (b, s) => ⟨s, p.threads.set i ⟨t.role, k b⟩⟩
  | .fork r child k =>
      some ⟨M.enter r p.shared, p.threads.set i ⟨t.role, k⟩ ++ [⟨r, child⟩]⟩

/-- The pool after one entry of the schedule, if the entry can be followed. -/
def act (p : Pool S ρ ω σ) : Label ι κ → Option (Pool S ρ ω σ)
  | .arrive c =>
      let (r, prog) := M.arrival c p.shared
      some ⟨M.enter r p.shared, p.threads ++ [⟨r, prog⟩]⟩
  | .turn i x => p.threads[i]?.bind (p.turn M i x)

/-- The pool after a schedule. -/
def run (p : Pool S ρ ω σ) : List (Label ι κ) → Option (Pool S ρ ω σ)
  | [] => some p
  | l :: ls => (p.act M l).bind fun p' => p'.run ls

/-- In the run under the schedule, every turn of a program meets the condition `f` on the
program, its input and the store before the turn. -/
def meets (f : Thread S ρ ω → ι → σ → Bool) (p : Pool S ρ ω σ) : List (Label ι κ) → Bool
  | [] => true
  | l :: ls =>
      (match l with
        | .arrive _ => true
        | .turn i x => p.threads[i]?.all fun t => f t x p.shared) &&
      (p.act M l).all fun p' => p'.meets f ls

/-- The pool `p'` is reached from `p` under some schedule. -/
def Reaches (p p' : Pool S ρ ω σ) : Prop := ∃ ls, p.run M ls = some p'

variable {M}

theorem Reaches.refl (p : Pool S ρ ω σ) : Reaches M p p := ⟨[], rfl⟩

/-- A schedule can be followed in two parts. -/
theorem run_append (p : Pool S ρ ω σ) (ls ls' : List (Label ι κ)) :
    p.run M (ls ++ ls') = (p.run M ls).bind fun p' => p'.run M ls' := by
  induction ls generalizing p with
  | nil => rfl
  | cons l ls ih =>
      rw [List.cons_append, run, run]
      cases p.act M l with
      | none => rfl
      | some p' => exact ih p'

/-- If some turn of a run does not meet a condition, there is a first one. -/
theorem exists_first_of_meets_eq_false {f : Thread S ρ ω → ι → σ → Bool}
    {p p' : Pool S ρ ω σ} {ls : List (Label ι κ)} (hrun : p.run M ls = some p')
    (h : p.meets M f ls = false) :
    ∃ ls₁ i x ls₂ p₁ t, ls = ls₁ ++ .turn i x :: ls₂ ∧ p.run M ls₁ = some p₁ ∧
      p.meets M f ls₁ = true ∧ p₁.threads[i]? = some t ∧ f t x p₁.shared = false := by
  induction ls generalizing p with
  | nil => cases h
  | cons l ls ih =>
      obtain ⟨p₀, hact, hrest⟩ := Option.bind_eq_some_iff.mp hrun
      -- a later turn is the first one if this entry meets the condition
      have hlater : p₀.meets M f ls = false → p.meets M f [l] = true → ∃ ls₁ i x ls₂ p₁ t,
          l :: ls = ls₁ ++ .turn i x :: ls₂ ∧ p.run M ls₁ = some p₁ ∧
            p.meets M f ls₁ = true ∧ p₁.threads[i]? = some t ∧ f t x p₁.shared = false := by
        intro hmeets hl
        obtain ⟨ls₁, i, x, ls₂, p₁, t, rfl, hrun₁, hmeets₁, ht, hf⟩ := ih hrest hmeets
        refine ⟨l :: ls₁, i, x, ls₂, p₁, t, rfl, ?_, ?_, ht, hf⟩
        · rw [run, hact]
          exact hrun₁
        · refine Bool.and_eq_true_iff.mpr ⟨(Bool.and_eq_true_iff.mp hl).1, ?_⟩
          rw [hact]
          exact hmeets₁
      have hfalse := Bool.and_eq_false_iff.mp h
      rw [hact] at hfalse
      cases l with
      | arrive c =>
          refine hlater (hfalse.resolve_left fun hl => Bool.noConfusion hl) ?_
          refine Bool.and_eq_true_iff.mpr ⟨rfl, ?_⟩
          rw [hact]
          rfl
      | turn i x =>
          obtain ⟨t, ht, -⟩ := Option.bind_eq_some_iff.mp hact
          change p.threads[i]?.all (fun t => f t x p.shared) = false ∨ _ at hfalse
          rw [ht] at hfalse
          by_cases hf : f t x p.shared = true
          · refine hlater (hfalse.resolve_left fun hl => Bool.eq_false_iff.mp hl hf) ?_
            refine Bool.and_eq_true_iff.mpr ⟨?_, ?_⟩
            · show p.threads[i]?.all (fun t => f t x p.shared) = true
              rw [ht]
              exact hf
            · rw [hact]
              rfl
          · exact ⟨[], i, x, ls, p, t, rfl, rfl, rfl, ht, Bool.eq_false_iff.mpr hf⟩

/-- A condition that a run meets is met by its beginnings. -/
theorem meets_of_append {f : Thread S ρ ω → ι → σ → Bool} {p : Pool S ρ ω σ}
    {ls ls' : List (Label ι κ)} (h : p.meets M f (ls ++ ls') = true) : p.meets M f ls = true := by
  induction ls generalizing p with
  | nil => rfl
  | cons l ls ih =>
      obtain ⟨hl, hrest⟩ := Bool.and_eq_true_iff.mp h
      refine Bool.and_eq_true_iff.mpr ⟨hl, ?_⟩
      cases hact : p.act M l with
      | none => rfl
      | some p' =>
          rw [hact] at hrest
          exact ih hrest

end Pool

end Concurrency
