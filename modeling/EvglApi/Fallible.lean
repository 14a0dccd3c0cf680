/-
# Fallible steps

A computation with early returns is a chain of `Except` steps.  The lemmas of
this file turn the result of such a chain into what each of its steps did:
`bind_eq_ok` peels a successful chain apart, `bind_eq_error` says which step
refused, and `refuseIf` is the step "return this error if the test holds".
-/
import Mathlib.Data.List.Basic

namespace Fallible

variable {ε α β : Type}

/-- Return the error `e` if `c` holds, and go on otherwise. -/
def refuseIf (c : Prop) [Decidable c] (e : ε) : Except ε Unit :=
  if c then .error e else .ok ()

/-- Go on with the value of an option, or return the error `e`. -/
def okOr (o : Option α) (e : ε) : Except ε α :=
  match o with
  | some a => .ok a
  | none => .error e

@[simp] theorem ok_bind (a : α) (f : α → Except ε β) : (Except.ok a >>= f) = f a := rfl

@[simp] theorem error_bind (e : ε) (f : α → Except ε β) :
    ((Except.error e : Except ε α) >>= f) = .error e := rfl

@[simp] theorem pure_eq_ok (a : α) : (pure a : Except ε α) = .ok a := rfl

@[simp] theorem throw_eq_error (e : ε) : (throw e : Except ε α) = .error e := rfl

/-- A chain succeeds when its first step does and the rest succeeds from there. -/
theorem bind_eq_ok {x : Except ε α} {f : α → Except ε β} {b : β} :
    (x >>= f) = .ok b ↔ ∃ a, x = .ok a ∧ f a = .ok b := by
  cases x with
  | error e => simp
  | ok a => simp

/-- A chain fails in its first step or in the rest. -/
theorem bind_eq_error {x : Except ε α} {f : α → Except ε β} {e : ε} :
    (x >>= f) = .error e ↔ x = .error e ∨ ∃ a, x = .ok a ∧ f a = .error e := by
  cases x with
  | error e' => simp
  | ok a => simp

/-- The step goes on exactly if the test does not hold. -/
@[simp] theorem refuseIf_eq_ok {c : Prop} [Decidable c] {e : ε} {u : Unit} :
    refuseIf c e = .ok u ↔ ¬ c := by
  unfold refuseIf
  split <;> simp_all

/-- The step refuses exactly if the test holds, with its own error. -/
@[simp] theorem refuseIf_eq_error {c : Prop} [Decidable c] {e e' : ε} :
    refuseIf c e = .error e' ↔ c ∧ e = e' := by
  unfold refuseIf
  split <;> simp_all

/-- A passed test leaves the chain as it is. -/
theorem refuseIf_bind_of_not {c : Prop} [Decidable c] {e : ε} (h : ¬ c) (f : Unit → Except ε β) :
    (refuseIf c e >>= f) = f () := by
  rw [refuseIf, if_neg h, ok_bind]

/-- An option that is there is its value. -/
@[simp] theorem okOr_eq_ok {o : Option α} {e : ε} {a : α} : okOr o e = .ok a ↔ o = some a := by
  cases o <;> simp [okOr]

/-- An option that is missing is the given error. -/
@[simp] theorem okOr_eq_error {o : Option α} {e e' : ε} :
    okOr o e = .error e' ↔ o = none ∧ e = e' := by
  cases o <;> simp [okOr]

/-- Renaming the errors does not change what succeeds. -/
@[simp] theorem mapError_eq_ok {ε' : Type} {x : Except ε α} {g : ε → ε'} {a : α} :
    x.mapError g = .ok a ↔ x = .ok a := by
  cases x <;> simp [Except.mapError]

/-- A renamed error comes from an error. -/
theorem mapError_eq_error {ε' : Type} {x : Except ε α} {g : ε → ε'} {e' : ε'} :
    x.mapError g = .error e' ↔ ∃ e, x = .error e ∧ g e = e' := by
  cases x <;> simp [Except.mapError]

/-- A list that is read entry by entry. -/
theorem forall₂_of_mapM {f : α → Except ε β} {xs : List α} {ys : List β} (h : xs.mapM f = .ok ys) :
    List.Forall₂ (fun x y => f x = .ok y) xs ys := by
  induction xs generalizing ys with
  | nil =>
      obtain rfl := Except.ok.inj h
      exact .nil
  | cons x xs ih =>
      rw [List.mapM_cons] at h
      obtain ⟨y, hx, h⟩ := bind_eq_ok.mp h
      obtain ⟨ys', hxs, h⟩ := bind_eq_ok.mp h
      obtain rfl := Except.ok.inj h
      exact .cons hx (ih hxs)

/-- A list that is read has read each entry. -/
theorem exists_of_mapM_ok {f : α → Except ε β} {xs : List α} {ys : List β}
    (h : xs.mapM f = .ok ys) {x : α} (hx : x ∈ xs) : ∃ y ∈ ys, f x = .ok y := by
  have hpairs := forall₂_of_mapM h
  clear h
  induction hpairs with
  | nil => cases hx
  | @cons x' y xs ys hy _ ih =>
      rcases List.mem_cons.mp hx with rfl | hx
      · exact ⟨y, List.mem_cons_self, hy⟩
      · obtain ⟨y', hy', hread⟩ := ih hx
        exact ⟨y', List.mem_cons_of_mem y hy', hread⟩

/-- A list that is refused has an entry that is refused, with the error of this entry. -/
theorem exists_of_mapM_error {f : α → Except ε β} {xs : List α} {e : ε}
    (h : xs.mapM f = .error e) : ∃ x ∈ xs, f x = .error e := by
  induction xs with
  | nil => cases h
  | cons x xs ih =>
      rw [List.mapM_cons] at h
      obtain hx | ⟨y, -, h⟩ := bind_eq_error.mp h
      · exact ⟨x, List.mem_cons_self, hx⟩
      · obtain hxs | ⟨ys, -, h⟩ := bind_eq_error.mp h
        · obtain ⟨x', hx', he⟩ := ih hxs
          exact ⟨x', List.mem_cons_of_mem x hx', he⟩
        · cases h

end Fallible
