/-
# The least element of each group

A list is read from left to right into a map that keeps, for each group, an
element whose key is least: a later element replaces the kept one only if its key
is strictly smaller, so of equal keys the first one stays.

`leastBy_eq_some` says which element is kept: a member of the group whose key is
least in the group; by `exists_leastBy` every group with an element keeps one.

`leastKey` is the least key of a group, `⊤` for a group without elements.  It depends
on the members of the list only, and it turns `++` into `⊓` (`leastKey_append`), so a
list may be reduced in parts: `Distils` says that a part has been reduced to least
elements of its groups, and `leastKey_flatten` that nothing is lost by it.
-/
import Mathlib.Order.Lattice
import Mathlib.Order.WithBot
import Mathlib.Data.List.Forall2
import Mathlib.Data.List.Induction
import Mathlib.Logic.Function.Basic

namespace LeastBy

variable {α γ κ : Type*} [LinearOrder κ] (group : α → γ) (key : α → κ)

/-- `w` belongs to group `g` of the list and no key of the group is smaller. -/
structure IsLeastOf (xs : List α) (g : γ) (w : α) : Prop where
  mem : w ∈ xs
  group_eq : group w = g
  key_le : ∀ x ∈ xs, group x = g → key w ≤ key x

/-- Two least elements of a group have the same key. -/
theorem IsLeastOf.key_eq {group : α → γ} {key : α → κ} {xs : List α} {g : γ} {v w : α}
    (hv : IsLeastOf group key xs g v) (hw : IsLeastOf group key xs g w) : key v = key w :=
  le_antisymm (hv.key_le w hw.mem hw.group_eq) (hw.key_le v hv.mem hv.group_eq)

variable [DecidableEq γ]

/-- The element kept after `x` is read. -/
def keep (kept : Option α) (x : α) : α :=
  match kept with
  | none => x
  | some w => if key x < key w then x else w

/-- The map after `x` is read. -/
def insertLeast (kept : γ → Option α) (x : α) : γ → Option α :=
  Function.update kept (group x) (some (keep key (kept (group x)) x))

/-- The map of least elements of a list. -/
def leastBy (xs : List α) : γ → Option α :=
  xs.foldl (insertLeast group key) fun _ => none

/-- What is known of the map after the elements `xs` are read. -/
def Keeps (xs : List α) (kept : γ → Option α) : Prop :=
  ∀ g, match kept g with
    | none => ∀ x ∈ xs, group x ≠ g
    | some w => IsLeastOf group key xs g w

/-- Reading one more element preserves `Keeps`. -/
theorem keeps_insertLeast {xs : List α} {kept : γ → Option α} (x : α)
    (h : Keeps group key xs kept) :
    Keeps group key (xs ++ [x]) (insertLeast group key kept x) := by
  intro g
  have hg := h g
  by_cases hx : group x = g
  · subst hx
    -- the group of the new element
    rw [insertLeast, Function.update_self]
    dsimp only
    cases hkept : kept (group x) with
    | none =>
        rw [hkept] at hg
        refine ⟨by simp [keep], rfl, fun y hy hyg => ?_⟩
        rcases List.mem_append.mp hy with hy | hy
        · exact absurd hyg (hg y hy)
        · rw [List.mem_singleton.mp hy]; exact le_refl _
    | some w =>
        rw [hkept] at hg
        obtain ⟨hmem, hgroup, hleast⟩ := hg
        by_cases hlt : key x < key w
        · -- the new element takes the place
          refine ⟨by simp [keep, hlt], by simp [keep, hlt], fun y hy hyg => ?_⟩
          rw [keep, if_pos hlt]
          rcases List.mem_append.mp hy with hy | hy
          · exact le_of_lt (lt_of_lt_of_le hlt (hleast y hy hyg))
          · rw [List.mem_singleton.mp hy]
        · -- the kept element stays
          refine ⟨by simp [keep, hlt, hmem], by simp [keep, hlt, hgroup], fun y hy hyg => ?_⟩
          rw [keep, if_neg hlt]
          rcases List.mem_append.mp hy with hy | hy
          · exact hleast y hy hyg
          · rw [List.mem_singleton.mp hy]; exact not_lt.mp hlt
  -- the other groups are as they were
  · rw [insertLeast, Function.update_of_ne (Ne.symm hx)]
    cases hkept : kept g with
    | none =>
        rw [hkept] at hg
        intro y hy
        rcases List.mem_append.mp hy with hy | hy
        · exact hg y hy
        · rw [List.mem_singleton.mp hy]; exact hx
    | some w =>
        rw [hkept] at hg
        refine ⟨List.mem_append_left _ hg.mem, hg.group_eq, fun y hy hyg => ?_⟩
        rcases List.mem_append.mp hy with hy | hy
        · exact hg.key_le y hy hyg
        · rw [List.mem_singleton.mp hy] at hyg; exact absurd hyg hx

/-- The map of a whole list keeps what `Keeps` says of it. -/
theorem keeps_leastBy (xs : List α) : Keeps group key xs (leastBy group key xs) := by
  induction xs using List.reverseRecOn with
  | nil => intro g; simp [leastBy]
  | append_singleton xs x ih =>
      rw [leastBy, List.foldl_append]
      exact keeps_insertLeast group key x ih

/-- A group with an element has a kept one. -/
theorem exists_leastBy {xs : List α} {x : α} (hx : x ∈ xs) :
    ∃ w, leastBy group key xs (group x) = some w := by
  have hk := keeps_leastBy group key xs (group x)
  cases h : leastBy group key xs (group x) with
  | none => rw [h] at hk; exact absurd rfl (hk x hx)
  | some w => exact ⟨w, rfl⟩

variable {group key}

/-- The kept element of a group is a least one. -/
theorem leastBy_eq_some {xs : List α} {g : γ} {w : α} (h : leastBy group key xs g = some w) :
    IsLeastOf group key xs g w := by
  have hk := keeps_leastBy group key xs g
  rw [h] at hk
  exact hk

/-! ## Longer lists -/

/-- The kept element of a list is replaced in a longer one only by a new element with a
strictly smaller key. -/
theorem exists_leastBy_append {xs : List α} {g : γ} {w : α} (h : leastBy group key xs g = some w)
    (ys : List α) :
    ∃ w', leastBy group key (xs ++ ys) g = some w' ∧ (w' = w ∨ w' ∈ ys ∧ key w' < key w) := by
  induction ys using List.reverseRecOn with
  | nil => exact ⟨w, by rw [List.append_nil, h], Or.inl rfl⟩
  | append_singleton ys x ih =>
      obtain ⟨v, hv, hchange⟩ := ih
      have hmem : v = w ∨ v ∈ ys ++ [x] ∧ key v < key w :=
        hchange.imp_right fun hnew => ⟨List.mem_append_left _ hnew.1, hnew.2⟩
      have hstep : leastBy group key (xs ++ (ys ++ [x])) =
          insertLeast group key (leastBy group key (xs ++ ys)) x := by
        rw [← List.append_assoc, leastBy, List.foldl_append]
        rfl
      rw [hstep, insertLeast]
      by_cases hx : group x = g
      · subst hx
        rw [Function.update_self, hv]
        by_cases hlt : key x < key v
        · refine ⟨x, by rw [keep, if_pos hlt], Or.inr ⟨List.mem_concat_self, ?_⟩⟩
          rcases hchange with rfl | ⟨-, hsmaller⟩
          · exact hlt
          · exact hlt.trans hsmaller
        · exact ⟨v, by rw [keep, if_neg hlt], hmem⟩
      · rw [Function.update_of_ne (Ne.symm hx)]
        exact ⟨v, hv, hmem⟩

/-! ## The least key of a group -/

section LeastKey

variable (group key)

/-- The least key of a group; a group without elements has `⊤`. -/
def leastKey (xs : List α) (g : γ) : WithTop κ := (leastBy group key xs g).map key

variable {group key}

/-- The bounds below the least key are the bounds below all keys of the group. -/
theorem le_leastKey_iff {xs : List α} {g : γ} {a : WithTop κ} :
    a ≤ leastKey group key xs g ↔ ∀ x ∈ xs, group x = g → a ≤ key x := by
  have hk := keeps_leastBy group key xs g
  rw [leastKey]
  cases h : leastBy group key xs g with
  | none =>
      rw [h] at hk
      exact ⟨fun _ x hx hg => absurd hg (hk x hx), fun _ => le_top⟩
  | some w =>
      rw [h] at hk
      constructor
      · exact fun ha x hx hg => le_trans ha (WithTop.coe_le_coe.mpr (hk.key_le x hx hg))
      · exact fun ha => ha w hk.mem hk.group_eq

/-- The least key depends on the members of the group only. -/
theorem leastKey_congr {xs ys : List α} {g : γ} (h : ∀ x, group x = g → (x ∈ xs ↔ x ∈ ys)) :
    leastKey group key xs g = leastKey group key ys g := by
  refine eq_of_forall_le_iff fun a => ?_
  rw [le_leastKey_iff, le_leastKey_iff]
  exact ⟨fun ha x hx hg => ha x ((h x hg).mpr hx) hg, fun ha x hx hg => ha x ((h x hg).mp hx) hg⟩

@[simp] theorem leastKey_nil (g : γ) : leastKey group key [] g = ⊤ := rfl

@[simp] theorem leastKey_append (xs ys : List α) (g : γ) :
    leastKey group key (xs ++ ys) g = leastKey group key xs g ⊓ leastKey group key ys g := by
  refine eq_of_forall_le_iff fun a => ?_
  rw [le_inf_iff, le_leastKey_iff, le_leastKey_iff, le_leastKey_iff]
  refine ⟨fun ha => ⟨fun x hx => ha x (List.mem_append_left _ hx),
    fun x hx => ha x (List.mem_append_right _ hx)⟩, fun ha x hx => ?_⟩
  rcases List.mem_append.mp hx with hx | hx
  · exact ha.1 x hx
  · exact ha.2 x hx

variable (group key) in
/-- The list `kept` holds a least element of each group of `xs`, and nothing else. -/
structure Distils (xs kept : List α) : Prop where
  least : ∀ w ∈ kept, IsLeastOf group key xs (group w) w
  covers : ∀ x ∈ xs, ∃ w ∈ kept, group w = group x

/-- The elements kept of a list have its least keys. -/
theorem Distils.leastKey_eq {xs kept : List α} (h : Distils group key xs kept) (g : γ) :
    leastKey group key kept g = leastKey group key xs g := by
  refine eq_of_forall_le_iff fun a => ?_
  rw [le_leastKey_iff, le_leastKey_iff]
  constructor
  · intro ha x hx hg
    obtain ⟨w, hw, hgroup⟩ := h.covers x hx
    have hkey : key w ≤ key x := (h.least w hw).key_le x hx hgroup.symm
    exact (ha w hw (hgroup.trans hg)).trans (WithTop.coe_le_coe.mpr hkey)
  · exact fun ha w hw => ha w (h.least w hw).mem

/-- Reducing the parts of a list does not change the least keys of the whole. -/
theorem leastKey_flatten {batches kept : List (List α)}
    (h : List.Forall₂ (Distils group key) batches kept) (g : γ) :
    leastKey group key kept.flatten g = leastKey group key batches.flatten g := by
  induction h with
  | nil => rfl
  | cons hbatch _ ih =>
      rw [List.flatten_cons, List.flatten_cons, leastKey_append, leastKey_append,
        hbatch.leastKey_eq g, ih]

variable (group key) in
/-- The kept elements themselves are such a reduction. -/
theorem distils_filter [DecidableEq α] (xs : List α) :
    Distils group key xs (xs.filter fun x => leastBy group key xs (group x) = some x) where
  least := by
    intro w hw
    exact leastBy_eq_some (of_decide_eq_true (List.mem_filter.mp hw).2)
  covers := by
    intro x hx
    obtain ⟨w, hw⟩ := exists_leastBy group key hx
    have hleast := leastBy_eq_some hw
    refine ⟨w, List.mem_filter.mpr ⟨hleast.mem, decide_eq_true ?_⟩, hleast.group_eq⟩
    rw [hleast.group_eq]
    exact hw

end LeastKey

end LeastBy
