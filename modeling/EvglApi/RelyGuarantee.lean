/-
# Rely and guarantee for programs over a shared store

A `Discipline` says what every program at work on a store keeps to: an invariant
of the store, what a program of a given role may do to it in one step (`guar`),
what it may count on while the others are at work (`rely`), and what must hold
whenever it is about to execute a statement (`needs`).

`Discipline.wp` is the weakest precondition of a program that is interrupted by
the others before each of its statements.  Programs are verified one by one with
the rules of the second section; `PoolOk.run` then says that a pool of verified
programs keeps the discipline under every schedule whose steps meet `assume`.
-/
import EvglApi.Prog

namespace Concurrency

universe u

variable {S : Type → Type u} {ρ ω σ ι κ α β : Type} {M : Machine S ρ ω σ ι κ}

/-- What the programs at work on a store agree on. -/
structure Discipline (M : Machine S ρ ω σ ι κ) where
  /-- Holds of the store between any two steps. -/
  inv : σ → Prop
  /-- What a schedule has to respect when a statement is executed on an input. -/
  assume : {β : Type} → ρ → S β → ι → σ → Prop
  /-- The clients a schedule lets in. -/
  admits : κ → Prop
  /-- Holds whenever the statement is about to be executed. -/
  needs : {β : Type} → ρ → S β → σ → Prop
  /-- What one step of the role may do. -/
  guar : ρ → σ → σ → Prop
  /-- What the others may do between two steps of the role. -/
  rely : ρ → σ → σ → Prop
  /-- A program of this role has been started. -/
  taken : σ → ρ → Prop
  /-- Holds of the value of a finished program from then on. -/
  post : ρ → ω → σ → Prop
  rely_refl : ∀ r s, rely r s s
  rely_trans : ∀ {r s s' s''}, rely r s s' → rely r s' s'' → rely r s s''
  rely_of_guar : ∀ {r r' s s'}, inv s → inv s' → taken s' r → taken s r' → r ≠ r' →
    guar r s s' → rely r' s s'
  taken_of_guar : ∀ {r r' s s'}, guar r s s' → taken s r' → taken s' r'
  post_of_rely : ∀ {r a s s'}, rely r s s' → post r a s → post r a s'

namespace Discipline

variable (D : Discipline M)

/-! ## The weakest precondition -/

/-- From a store with `D.wp r p Q`, the program `p` in role `r` keeps the discipline
whatever the others do, and ends with `Q`. -/
def wp : ∀ {α : Type}, ρ → Prog S ρ ω α → (α → σ → Prop) → σ → Prop
  | _, _, .pure a, Q, s => Q a s
  | _, r, .step st k, Q, s =>
      ∀ s', D.rely r s s' → D.inv s' → D.taken s' r → D.needs r st s' ∧
        ∀ x b s'', D.assume r st x s' → M.exec st x s' = some (b, s'') →
          D.guar r s' s'' ∧ D.inv s'' ∧ wp r (k b) Q s''
  | _, r, .fork r' child k, Q, s =>
      ∀ s', D.rely r s s' → D.inv s' → D.taken s' r →
        ¬ D.taken s' r' ∧ D.guar r s' (M.enter r' s') ∧ D.inv (M.enter r' s') ∧
          D.taken (M.enter r' s') r' ∧ wp r' child (D.post r') (M.enter r' s') ∧
            wp r k Q (M.enter r' s')

variable {D} {r : ρ} {s s' : σ}

@[simp] theorem wp_pure {a : α} {Q : α → σ → Prop} : D.wp r (.pure a) Q s ↔ Q a s := Iff.rfl

theorem wp_step {st : S β} {k : β → Prog S ρ ω α} {Q : α → σ → Prop} :
    D.wp r (.step st k) Q s ↔
      ∀ s', D.rely r s s' → D.inv s' → D.taken s' r → D.needs r st s' ∧
        ∀ x b s'', D.assume r st x s' → M.exec st x s' = some (b, s'') →
          D.guar r s' s'' ∧ D.inv s'' ∧ D.wp r (k b) Q s'' := Iff.rfl

theorem wp_fork {r' : ρ} {child : Prog S ρ ω ω} {k : Prog S ρ ω α} {Q : α → σ → Prop} :
    D.wp r (.fork r' child k) Q s ↔
      ∀ s', D.rely r s s' → D.inv s' → D.taken s' r →
        ¬ D.taken s' r' ∧ D.guar r s' (M.enter r' s') ∧ D.inv (M.enter r' s') ∧
          D.taken (M.enter r' s') r' ∧ D.wp r' child (D.post r') (M.enter r' s') ∧
            D.wp r k Q (M.enter r' s') := Iff.rfl

/-! ## Rules -/

/-- A weaker postcondition is met as well. -/
theorem wp_mono {p : Prog S ρ ω α} {Q Q' : α → σ → Prop} (hQ : ∀ a s, Q a s → Q' a s)
    (h : D.wp r p Q s) : D.wp r p Q' s := by
  induction p generalizing s with
  | pure a => exact hQ a s h
  | step st k ih =>
      intro s' hrely hinv htaken
      obtain ⟨hneeds, hstep⟩ := h s' hrely hinv htaken
      refine ⟨hneeds, fun x b s'' hassume hexec => ?_⟩
      obtain ⟨hguar, hinv', hk⟩ := hstep x b s'' hassume hexec
      exact ⟨hguar, hinv', ih b hQ hk⟩
  | fork r' child k _ ih =>
      intro s' hrely hinv htaken
      obtain ⟨hfree, hguar, hinv', htaken', hchild, hk⟩ := h s' hrely hinv htaken
      exact ⟨hfree, hguar, hinv', htaken', hchild, ih hQ hk⟩

/-- A sequence is verified part by part. -/
theorem wp_bind {p : Prog S ρ ω α} {f : α → Prog S ρ ω β} {Q : β → σ → Prop} :
    D.wp r (p.bind f) Q s ↔ D.wp r p (fun a => D.wp r (f a) Q) s := by
  induction p generalizing s with
  | pure a => exact Iff.rfl
  | step st k ih =>
      rw [Prog.step_bind, wp_step, wp_step]
      simp only [ih]
  | fork r' child k _ ih =>
      rw [Prog.fork_bind, wp_fork, wp_fork]
      simp only [ih]

/-- The precondition of a program survives what the others do, if the postcondition
does. -/
theorem wp_of_rely {p : Prog S ρ ω α} {Q : α → σ → Prop}
    (hQ : ∀ a s s', D.rely r s s' → Q a s → Q a s')
    (hrely : D.rely r s s') (h : D.wp r p Q s) : D.wp r p Q s' := by
  cases p with
  | pure a => exact hQ a s s' hrely h
  | step st k => exact fun t ht hinv htaken => h t (D.rely_trans hrely ht) hinv htaken
  | fork r' child k => exact fun t ht hinv htaken => h t (D.rely_trans hrely ht) hinv htaken

/-- What neither the others nor the role itself can undo still holds at the end. -/
theorem wp_frame {P : σ → Prop} (hrely : ∀ s s', D.rely r s s' → P s → P s')
    (hguar : ∀ s s', D.guar r s s' → P s → P s') {p : Prog S ρ ω α} {Q : α → σ → Prop}
    (hP : P s) (h : D.wp r p Q s) : D.wp r p (fun a s => Q a s ∧ P s) s := by
  induction p generalizing s with
  | pure a => exact ⟨h, hP⟩
  | step st k ih =>
      intro s' hs' hinv htaken
      obtain ⟨hneeds, hstep⟩ := h s' hs' hinv htaken
      refine ⟨hneeds, fun x b s'' hassume hexec => ?_⟩
      obtain ⟨hg, hinv', hk⟩ := hstep x b s'' hassume hexec
      exact ⟨hg, hinv', ih b (hguar s' s'' hg (hrely s s' hs' hP)) hk⟩
  | fork r' child k _ ih =>
      intro s' hs' hinv htaken
      obtain ⟨hfree, hg, hinv', htaken', hchild, hk⟩ := h s' hs' hinv htaken
      exact ⟨hfree, hg, hinv', htaken', hchild, ih (hguar s' _ hg (hrely s s' hs' hP)) hk⟩

/-- A program keeps the discipline and an assertion `A` if each of its statements does. -/
theorem wp_of_every {P : ∀ {β : Type}, S β → Prop} {A : σ → Prop} {p : Prog S ρ ω α}
    (hp : p.Every P) (hrely : ∀ s s', D.rely r s s' → A s → A s')
    (h : ∀ {β : Type} {st : S β}, P st → ∀ s, D.inv s → D.taken s r → A s → D.needs r st s ∧
      ∀ x b s', D.assume r st x s → M.exec st x s = some (b, s') →
        D.guar r s s' ∧ D.inv s' ∧ A s')
    (hA : A s) : D.wp r p (fun _ => A) s := by
  induction p generalizing s with
  | pure a => exact hA
  | step st k ih =>
      intro s' hs' hinv htaken
      obtain ⟨hneeds, hstep⟩ := h hp.1 s' hinv htaken (hrely s s' hs' hA)
      refine ⟨hneeds, fun x b s'' hassume hexec => ?_⟩
      obtain ⟨hguar, hinv', hA'⟩ := hstep x b s'' hassume hexec
      exact ⟨hguar, hinv', ih b (hp.2 b) hA'⟩
  | fork r' child k => exact hp.elim

/-! ## Pools of verified programs -/

/-- The schedule entry respects what the discipline assumes. -/
def Follows (D : Discipline M) (p : Pool S ρ ω σ) : Label ι κ → Prop
  | .arrive c => D.admits c
  | .turn i x => ∀ t, p.threads[i]? = some t →
      match t.prog with
      | .step st _ => D.assume t.role st x p.shared
      | _ => True

/-- Every entry of the schedule respects what the discipline assumes. -/
def FollowsAll (D : Discipline M) (p : Pool S ρ ω σ) : List (Label ι κ) → Prop
  | [] => True
  | l :: ls => D.Follows p l ∧ ∀ p', p.act M l = some p' → FollowsAll D p' ls

/-- A client that is let in starts a verified program in a role of its own. -/
structure Welcomes (D : Discipline M) (c : κ) (s : σ) : Prop where
  free : ¬ D.taken s (M.arrival c s).1
  guar : D.guar (M.arrival c s).1 s (M.enter (M.arrival c s).1 s)
  inv : D.inv (M.enter (M.arrival c s).1 s)
  taken : D.taken (M.enter (M.arrival c s).1 s) (M.arrival c s).1
  wp : D.wp (M.arrival c s).1 (M.arrival c s).2 (D.post (M.arrival c s).1)
    (M.enter (M.arrival c s).1 s)

/-- The discipline lets clients in only to verified programs. -/
def Hospitable (D : Discipline M) : Prop := ∀ c s, D.admits c → D.inv s → D.Welcomes c s

/-- The store satisfies the invariant, and every program at work is verified from
here on and has a role of its own. -/
structure PoolOk (D : Discipline M) (p : Pool S ρ ω σ) : Prop where
  inv : D.inv p.shared
  taken : ∀ t ∈ p.threads, D.taken p.shared t.role
  roles : p.threads.Pairwise fun t t' => t.role ≠ t'.role
  wp : ∀ t ∈ p.threads, D.wp t.role t.prog (D.post t.role) p.shared

/-- A store without programs is in order if it satisfies the invariant. -/
theorem poolOk_nil (h : D.inv s) : D.PoolOk ⟨s, []⟩ :=
  ⟨h, by simp, List.Pairwise.nil, by simp⟩

/-- The other programs are still verified after a step that keeps the guarantee. -/
theorem PoolOk.wp_of_guar {p : Pool S ρ ω σ} (h : D.PoolOk p) {t : Thread S ρ ω}
    (ht : t ∈ p.threads) (hinv : D.inv s') (htaken : D.taken s' r) (hne : r ≠ t.role)
    (hguar : D.guar r p.shared s') : D.wp t.role t.prog (D.post t.role) s' :=
  wp_of_rely (fun _ _ _ hrely hpost => D.post_of_rely hrely hpost)
    (D.rely_of_guar h.inv hinv htaken (h.taken t ht) hne hguar) (h.wp t ht)

/-- Distinct positions hold distinct roles. -/
theorem PoolOk.role_ne {p : Pool S ρ ω σ} (h : D.PoolOk p) {i j : ℕ} {t u : Thread S ρ ω}
    (hij : i ≠ j) (ht : p.threads[i]? = some t) (hu : p.threads[j]? = some u) :
    t.role ≠ u.role := by
  obtain ⟨hi, rfl⟩ := List.getElem?_eq_some_iff.mp ht
  obtain ⟨hj, rfl⟩ := List.getElem?_eq_some_iff.mp hu
  rcases Nat.lt_or_gt_of_ne hij with hlt | hgt
  · exact List.pairwise_iff_getElem.mp h.roles i j hi hj hlt
  · exact (List.pairwise_iff_getElem.mp h.roles j i hj hi hgt).symm

/-- A role has one program. -/
theorem PoolOk.eq_of_role {p : Pool S ρ ω σ} (h : D.PoolOk p) {t u : Thread S ρ ω}
    (ht : t ∈ p.threads) (hu : u ∈ p.threads) (hrole : t.role = u.role) : t = u := by
  obtain ⟨i, hi⟩ := List.getElem?_of_mem ht
  obtain ⟨j, hj⟩ := List.getElem?_of_mem hu
  by_cases hij : i = j
  · subst hij
    exact Option.some.inj (hi.symm.trans hj)
  · exact absurd hrole (h.role_ne hij hi hj)

/-- The threads after the one at position `i` is replaced: the new one, or an old one
at another position. -/
theorem mem_set_cases {ts : List (Thread S ρ ω)} {i : ℕ} {t u : Thread S ρ ω}
    (h : u ∈ ts.set i t) : u = t ∨ ∃ j, i ≠ j ∧ ts[j]? = some u := by
  obtain ⟨j, hj⟩ := List.getElem?_of_mem h
  rw [List.getElem?_set] at hj
  split at hj
  · split at hj
    · exact Or.inl (Option.some.inj hj).symm
    · cases hj
  · next hne => exact Or.inr ⟨j, hne, hj⟩

/-- Replacing a thread by one of the same role leaves the roles as they are. -/
theorem map_role_set {ts : List (Thread S ρ ω)} {i : ℕ} {t u : Thread S ρ ω}
    (ht : ts[i]? = some t) (hrole : u.role = t.role) :
    (ts.set i u).map Thread.role = ts.map Thread.role := by
  rw [List.map_set, hrole]
  apply List.ext_getElem?
  intro j
  rw [List.getElem?_set]
  split
  · next hij =>
      subst hij
      rw [List.getElem?_map, ht]
      split
      · rfl
      · next hlen =>
          rw [List.length_map] at hlen
          exact absurd (List.getElem?_eq_some_iff.mp ht).1 hlen
  · rfl

/-- Roles are pairwise distinct exactly if their list has no duplicates. -/
theorem pairwise_role_iff {ts : List (Thread S ρ ω)} :
    (ts.Pairwise fun t t' => t.role ≠ t'.role) ↔ (ts.map Thread.role).Nodup := by
  rw [List.Nodup, List.pairwise_map]

/-- A statement of one program keeps the pool in order. -/
theorem PoolOk.step {p : Pool S ρ ω σ} (h : D.PoolOk p) {i : ℕ} {t : Thread S ρ ω}
    (ht : p.threads[i]? = some t) {prog : Prog S ρ ω ω} (hguar : D.guar t.role p.shared s')
    (hinv : D.inv s') (hwp : D.wp t.role prog (D.post t.role) s') :
    D.PoolOk ⟨s', p.threads.set i ⟨t.role, prog⟩⟩ := by
  have hmem : t ∈ p.threads := List.mem_of_getElem? ht
  have htaken : ∀ {r'}, D.taken p.shared r' → D.taken s' r' := D.taken_of_guar hguar
  refine ⟨hinv, fun u hu => ?_, ?_, fun u hu => ?_⟩
  · rcases mem_set_cases hu with rfl | ⟨j, -, hj⟩
    · exact htaken (h.taken t hmem)
    · exact htaken (h.taken u (List.mem_of_getElem? hj))
  · have hroles : ((p.threads.set i ⟨t.role, prog⟩).map Thread.role).Nodup := by
      have hmap := map_role_set (u := ⟨t.role, prog⟩) ht rfl
      rw [hmap, ← pairwise_role_iff]
      exact h.roles
    exact pairwise_role_iff.mpr hroles
  · rcases mem_set_cases hu with rfl | ⟨j, hij, hj⟩
    · exact hwp
    · exact h.wp_of_guar (List.mem_of_getElem? hj) hinv (htaken (h.taken t hmem))
        (h.role_ne hij ht hj) hguar

/-- A new verified program in a free role keeps the pool in order. -/
theorem PoolOk.add {p : Pool S ρ ω σ} {s₀ : σ} (h : D.PoolOk p) {prog : Prog S ρ ω ω}
    (hroles : ∀ u ∈ p.threads, D.taken s₀ u.role) (hfree : ¬ D.taken s₀ r)
    (htaken : D.taken p.shared r) (hwp : D.wp r prog (D.post r) p.shared) :
    D.PoolOk ⟨p.shared, p.threads ++ [⟨r, prog⟩]⟩ := by
  refine ⟨h.inv, fun u hu => ?_, ?_, fun u hu => ?_⟩
  · rcases List.mem_append.mp hu with hu | hu
    · exact h.taken u hu
    · rw [List.mem_singleton.mp hu]; exact htaken
  · rw [List.pairwise_append]
    refine ⟨h.roles, List.pairwise_singleton _ _, fun u hu v hv heq => ?_⟩
    obtain rfl := List.mem_singleton.mp hv
    have hu' : D.taken s₀ r := (show u.role = r from heq) ▸ hroles u hu
    exact hfree hu'
  · rcases List.mem_append.mp hu with hu | hu
    · exact h.wp u hu
    · rw [List.mem_singleton.mp hu]; exact hwp

/-- One entry of a schedule keeps the pool in order, and does no more to the store
than some role guarantees. -/
theorem PoolOk.act {p p' : Pool S ρ ω σ} {l : Label ι κ} (h : D.PoolOk p) (hD : D.Hospitable)
    (hl : D.Follows p l) (hact : p.act M l = some p') :
    D.PoolOk p' ∧ ∃ r, D.guar r p.shared p'.shared := by
  cases l with
  | arrive c =>
      obtain ⟨hfree, hguar, hinv, htaken, hwp⟩ := hD c p.shared hl h.inv
      obtain rfl := Option.some.inj hact
      refine ⟨?_, _, hguar⟩
      have hall : ∀ u ∈ p.threads, D.taken p.shared u.role := h.taken
      -- the new role was free, so nobody at work has it
      have hne : ∀ u ∈ p.threads, (M.arrival c p.shared).1 ≠ u.role := by
        intro u hu heq
        exact hfree (heq ▸ hall u hu)
      have hpool : D.PoolOk ⟨M.enter (M.arrival c p.shared).1 p.shared, p.threads⟩ :=
        ⟨hinv, fun u hu => D.taken_of_guar hguar (hall u hu), h.roles,
          fun u hu => h.wp_of_guar hu hinv htaken (hne u hu) hguar⟩
      exact hpool.add hall hfree htaken hwp
  | turn i x =>
      obtain ⟨t, ht, hturn⟩ := Option.bind_eq_some_iff.mp hact
      have hmem : t ∈ p.threads := List.mem_of_getElem? ht
      have hthread := h.wp t hmem
      have hassume := hl t ht
      obtain ⟨r, prog⟩ := t
      unfold Pool.turn at hturn
      cases prog with
      | pure a => cases hturn
      | step st k =>
          obtain ⟨⟨b, s'⟩, hexec, rfl⟩ := Option.map_eq_some_iff.mp hturn
          obtain ⟨-, hstep⟩ := hthread p.shared (D.rely_refl r _) h.inv (h.taken _ hmem)
          obtain ⟨hguar, hinv, hk⟩ := hstep x b s' hassume hexec
          exact ⟨h.step ht hguar hinv hk, r, hguar⟩
      | fork r' child k =>
          obtain rfl := Option.some.inj hturn
          obtain ⟨hfree, hguar, hinv, htaken, hchild, hk⟩ :=
            hthread p.shared (D.rely_refl r _) h.inv (h.taken _ hmem)
          refine ⟨?_, r, hguar⟩
          -- the program goes on, and its child joins the pool
          refine (h.step ht hguar hinv hk).add (fun u hu => ?_) hfree htaken hchild
          rcases mem_set_cases hu with rfl | ⟨j, -, hj⟩
          · exact h.taken ⟨r, .fork r' child k⟩ hmem
          · exact h.taken u (List.mem_of_getElem? hj)

/-- A schedule that respects the assumptions keeps the pool in order. -/
theorem PoolOk.run {p p' : Pool S ρ ω σ} {ls : List (Label ι κ)} (h : D.PoolOk p)
    (hD : D.Hospitable) (hls : D.FollowsAll p ls) (hrun : p.run M ls = some p') :
    D.PoolOk p' := by
  induction ls generalizing p with
  | nil => obtain rfl := Option.some.inj hrun; exact h
  | cons l ls ih =>
      obtain ⟨q, hq, hrest⟩ := Option.bind_eq_some_iff.mp hrun
      exact ih (h.act hD hls.1 hq).1 (hls.2 q hq) hrest

/-- What every step does to the store, a whole schedule does. -/
theorem PoolOk.run_rel {T : σ → σ → Prop} (hrefl : ∀ s, T s s)
    (htrans : ∀ {s s' s''}, T s s' → T s' s'' → T s s'')
    (hguar : ∀ {r s s'}, D.inv s → D.inv s' → D.guar r s s' → T s s')
    {p p' : Pool S ρ ω σ} {ls : List (Label ι κ)} (h : D.PoolOk p)
    (hD : D.Hospitable) (hls : D.FollowsAll p ls) (hrun : p.run M ls = some p') :
    T p.shared p'.shared := by
  induction ls generalizing p with
  | nil => obtain rfl := Option.some.inj hrun; exact hrefl _
  | cons l ls ih =>
      obtain ⟨q, hq, hrest⟩ := Option.bind_eq_some_iff.mp hrun
      obtain ⟨hok, r, hr⟩ := h.act hD hls.1 hq
      exact htrans (hguar h.inv hok.inv hr) (ih hok (hls.2 q hq) hrest)

/-- Without assumptions every schedule is respected. -/
theorem followsAll_of_assume (hassume : ∀ {β : Type} r (st : S β) x s, D.assume r st x s)
    (hadmits : ∀ c, D.admits c) (p : Pool S ρ ω σ) (ls : List (Label ι κ)) :
    D.FollowsAll p ls := by
  induction ls generalizing p with
  | nil => trivial
  | cons l ls ih =>
      refine ⟨?_, fun p' _ => ih p'⟩
      cases l with
      | arrive c => exact hadmits c
      | turn i x =>
          intro t _
          split
          · exact hassume _ _ _ _
          · trivial

/-- A run whose turns meet a condition respects an assumption that follows from it. -/
theorem followsAll_of_meets {f : Thread S ρ ω → ι → σ → Bool} {p : Pool S ρ ω σ}
    {ls : List (Label ι κ)} (hadmits : ∀ c, .arrive c ∈ ls → D.admits c)
    (hassume : ∀ {β : Type} i r (st : S β) k x s, .turn i x ∈ ls → f ⟨r, .step st k⟩ x s = true →
      D.assume r st x s) (h : p.meets M f ls = true) : D.FollowsAll p ls := by
  induction ls generalizing p with
  | nil => trivial
  | cons l ls ih =>
      obtain ⟨hl, hrest⟩ := Bool.and_eq_true_iff.mp h
      refine ⟨?_, fun p' hact => ih (fun c hc => hadmits c (List.mem_cons_of_mem _ hc))
        (fun i r st k x s hmem => hassume i r st k x s (List.mem_cons_of_mem _ hmem)) ?_⟩
      · cases l with
        | arrive c => exact hadmits c List.mem_cons_self
        | turn i x =>
            intro t ht
            change p.threads[i]?.all (fun t => f t x p.shared) = true at hl
            rw [ht] at hl
            obtain ⟨r, prog⟩ := t
            cases prog with
            | step st k => exact hassume i r st k x _ List.mem_cons_self hl
            | pure a => trivial
            | fork r' child k => trivial
      · rw [hact] at hrest
        exact hrest

/-- What a program needs holds whenever it is about to execute a statement. -/
theorem PoolOk.needs {p : Pool S ρ ω σ} (h : D.PoolOk p) {i : ℕ} {st : S β}
    {k : β → Prog S ρ ω ω} (ht : p.threads[i]? = some ⟨r, .step st k⟩) :
    D.needs r st p.shared := by
  have hmem : (⟨r, .step st k⟩ : Thread S ρ ω) ∈ p.threads := List.mem_of_getElem? ht
  exact (h.wp _ hmem p.shared (D.rely_refl r _) h.inv (h.taken _ hmem)).1

/-- A statement of one program is what the others may count on. -/
theorem PoolOk.rely_of_exec {p : Pool S ρ ω σ} (h : D.PoolOk p) {i j : ℕ} {st : S β}
    {k : β → Prog S ρ ω ω} {x : ι} {b : β} {u : Thread S ρ ω} (hij : i ≠ j)
    (ht : p.threads[i]? = some ⟨r, .step st k⟩) (hu : p.threads[j]? = some u)
    (hassume : D.assume r st x p.shared) (hexec : M.exec st x p.shared = some (b, s')) :
    D.rely u.role p.shared s' := by
  have hmem : (⟨r, .step st k⟩ : Thread S ρ ω) ∈ p.threads := List.mem_of_getElem? ht
  obtain ⟨-, hstep⟩ := h.wp _ hmem p.shared (D.rely_refl r _) h.inv (h.taken _ hmem)
  obtain ⟨hguar, hinv, -⟩ := hstep x b s' hassume hexec
  have htaken : D.taken s' r := D.taken_of_guar hguar (h.taken _ hmem)
  exact D.rely_of_guar h.inv hinv htaken (h.taken u (List.mem_of_getElem? hu))
    (h.role_ne hij ht hu) hguar

/-- What is promised of a finished program holds of it. -/
theorem PoolOk.post {p : Pool S ρ ω σ} (h : D.PoolOk p) {i : ℕ} {a : ω}
    (ht : p.threads[i]? = some ⟨r, .pure a⟩) : D.post r a p.shared :=
  h.wp _ (List.mem_of_getElem? ht)

/-! ## Roles and threads -/

/-- Every role in `T` is the role of some thread. -/
def Manned (T : σ → ρ → Prop) (p : Pool S ρ ω σ) : Prop :=
  ∀ r, T p.shared r → ∃ t ∈ p.threads, t.role = r

/-- A thread keeps its role when its program goes on. -/
theorem exists_role_set {ts : List (Thread S ρ ω)} {i : ℕ} {t v : Thread S ρ ω}
    (ht : ts[i]? = some t) (hrole : v.role = t.role) (h : ∃ u ∈ ts, u.role = r) :
    ∃ u ∈ ts.set i v, u.role = r := by
  obtain ⟨u, hu, hur⟩ := h
  have hmem : r ∈ (ts.set i v).map Thread.role := by
    rw [map_role_set ht hrole]
    exact List.mem_map.mpr ⟨u, hu, hur⟩
  exact List.mem_map.mp hmem

/-- If only the start of a program adds its role, every role keeps its thread. -/
theorem PoolOk.manned_act {T : σ → ρ → Prop} {p p' : Pool S ρ ω σ} {l : Label ι κ}
    (hexec : ∀ {β : Type} (st : S β) x s b s' r, M.exec st x s = some (b, s') → T s' r → T s r)
    (henter : ∀ r s r', ¬ D.taken s r → D.taken (M.enter r s) r → T (M.enter r s) r' →
      T s r' ∨ r' = r)
    (h : D.PoolOk p) (hD : D.Hospitable) (hl : D.Follows p l) (hmanned : Manned T p)
    (hact : p.act M l = some p') : Manned T p' := by
  intro r hr
  cases l with
  | arrive c =>
      obtain ⟨hfree, -, -, htaken, -⟩ := hD c p.shared hl h.inv
      obtain rfl := Option.some.inj hact
      -- the role was taken before, or it is the one that has just arrived
      rcases henter _ _ r hfree htaken hr with hr | rfl
      · obtain ⟨t, ht, hrole⟩ := hmanned r hr
        exact ⟨t, List.mem_append_left _ ht, hrole⟩
      · exact ⟨_, List.mem_append_right _ (List.mem_singleton_self _), rfl⟩
  | turn i x =>
      obtain ⟨t, ht, hturn⟩ := Option.bind_eq_some_iff.mp hact
      have hmem : t ∈ p.threads := List.mem_of_getElem? ht
      have hthread := h.wp t hmem
      obtain ⟨r₀, prog⟩ := t
      unfold Pool.turn at hturn
      cases prog with
      | pure a => cases hturn
      | step st k =>
          obtain ⟨⟨b, s'⟩, hstep, rfl⟩ := Option.map_eq_some_iff.mp hturn
          exact exists_role_set ht rfl (hmanned r (hexec st x _ b s' r hstep hr))
      | fork r' child k =>
          obtain rfl := Option.some.inj hturn
          obtain ⟨hfree, -, -, htaken, -⟩ :=
            hthread p.shared (D.rely_refl r₀ _) h.inv (h.taken _ hmem)
          rcases henter _ _ r hfree htaken hr with hr | rfl
          · obtain ⟨u, hu, hrole⟩ :=
              exists_role_set (v := ⟨r₀, k⟩) ht rfl (hmanned r hr)
            exact ⟨u, List.mem_append_left _ hu, hrole⟩
          · exact ⟨_, List.mem_append_right _ (List.mem_singleton_self _), rfl⟩

theorem PoolOk.manned_run {T : σ → ρ → Prop} {p p' : Pool S ρ ω σ} {ls : List (Label ι κ)}
    (hexec : ∀ {β : Type} (st : S β) x s b s' r, M.exec st x s = some (b, s') → T s' r → T s r)
    (henter : ∀ r s r', ¬ D.taken s r → D.taken (M.enter r s) r → T (M.enter r s) r' →
      T s r' ∨ r' = r)
    (h : D.PoolOk p) (hD : D.Hospitable) (hls : D.FollowsAll p ls) (hmanned : Manned T p)
    (hrun : p.run M ls = some p') : Manned T p' := by
  induction ls generalizing p with
  | nil => obtain rfl := Option.some.inj hrun; exact hmanned
  | cons l ls ih =>
      obtain ⟨q, hq, hrest⟩ := Option.bind_eq_some_iff.mp hrun
      exact ih (h.act hD hls.1 hq).1 (hls.2 q hq)
        (h.manned_act hexec henter hD hls.1 hmanned hq) hrest

end Discipline

end Concurrency
