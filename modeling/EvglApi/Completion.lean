/-
# Running a pool to its end

Programs are finite trees, so without new clients the turns of a pool come to an end, in
whatever order they are taken; if in addition some program can always take its turn, the pool
can be run until every program has ended.

* `wellFounded_turns`: a turn replaces a program by parts of it, one of `CutExpand`'s moves.
* `exists_drained_of_progress`: the invariant of the pool has to give progress only.
* `Locking` are the rules for programs that wait for locks under which some program can always
  go on (`Locking.progress`): a program that holds a lock does not wait itself.
-/
import EvglApi.Conservation
import Mathlib.Logic.Hydra

namespace Concurrency

universe u

variable {S : Type → Type u} {ρ ω σ ι κ : Type} {M : Machine S ρ ω σ ι κ}

/-! ## Parts of programs -/

/-- What is left of a program after its first statement, and the program that it starts. -/
inductive Prog.Part : Prog S ρ ω ω → Prog S ρ ω ω → Prop
  | step {β : Type} {st : S β} {k : β → Prog S ρ ω ω} (b : β) : Part (k b) (.step st k)
  | next {r : ρ} {child k : Prog S ρ ω ω} : Part k (.fork r child k)
  | child {r : ρ} {child k : Prog S ρ ω ω} : Part child (.fork r child k)

theorem Prog.acc_part (p : Prog S ρ ω ω) : Acc Part p := by
  -- the induction is on programs of any value, of which those of value `ω` have parts
  have hacc : ∀ {α : Type} (p : Prog S ρ ω α), ∀ h : α = ω, Acc Part (h ▸ p) := by
    intro α p
    induction p with
    | pure a =>
        rintro rfl
        exact ⟨_, fun q hq => nomatch hq⟩
    | step st k ih =>
        rintro rfl
        refine ⟨_, fun q hq => ?_⟩
        cases hq with
        | step b => exact ih b rfl
    | fork r child k ihchild ih =>
        rintro rfl
        refine ⟨_, fun q hq => ?_⟩
        cases hq with
        | next => exact ih rfl
        | child => exact ihchild rfl
  exact hacc p rfl

namespace Pool

variable {p p' p'' : Pool S ρ ω σ} {i : ℕ} {x : ι}

/-! ## Turns -/

/-- Some program takes its turn. -/
def Turns (M : Machine S ρ ω σ ι κ) (p p' : Pool S ρ ω σ) : Prop :=
  ∃ i x, p.act M (.turn i x) = some p'

/-- The programs at work. -/
def work (p : Pool S ρ ω σ) : Multiset (Prog S ρ ω ω) := p.held fun t => {t.prog}

/-- A turn replaces a program by parts of it. -/
theorem cutExpand_of_turns (h : Turns M p p') :
    Relation.CutExpand Prog.Part p'.work p.work := by
  obtain ⟨i, x, hact⟩ := h
  obtain ⟨⟨r, prog⟩, ht, hturn⟩ := Option.bind_eq_some_iff.mp hact
  have hset := fun s' t' =>
    held_set (f := fun t : Thread S ρ ω => ({t.prog} : Multiset (Prog S ρ ω ω))) p.shared s' ht t'
  cases prog with
  | pure a => cases hturn
  | step st k =>
      obtain ⟨⟨b, s'⟩, -, rfl⟩ := Option.map_eq_some_iff.mp hturn
      obtain ⟨rest, hbefore, hafter⟩ := hset s' ⟨r, k b⟩
      refine ⟨{k b}, .step st k, ?_, ?_⟩
      · intro q hq
        obtain rfl := Multiset.mem_singleton.mp hq
        exact .step b
      · rw [show p.work = _ from hbefore, show work ⟨s', p.threads.set i ⟨r, k b⟩⟩ = _ from hafter]
        abel
  | fork r' child k =>
      obtain rfl := Option.some.inj hturn
      obtain ⟨rest, hbefore, hafter⟩ := hset p.shared ⟨r, k⟩
      refine ⟨{child} + {k}, .fork r' child k, ?_, ?_⟩
      · intro q hq
        rcases Multiset.mem_add.mp hq with hq | hq
        · obtain rfl := Multiset.mem_singleton.mp hq
          exact .child
        · obtain rfl := Multiset.mem_singleton.mp hq
          exact .next
      · rw [show p.work = _ from hbefore, work, held_append p.shared, hafter]
        abel

/-- Without new clients the turns come to an end. -/
theorem wellFounded_turns (M : Machine S ρ ω σ ι κ) :
    WellFounded fun p' p : Pool S ρ ω σ => Turns M p p' :=
  Subrelation.wf (fun h => cutExpand_of_turns h)
    (InvImage.wf work (WellFounded.cutExpand ⟨Prog.acc_part⟩))

/-! ## Completion -/

/-- Every program has ended. -/
def Ended (p : Pool S ρ ω σ) : Prop := ∀ t ∈ p.threads, ∃ a, t.prog = .pure a

/-- A pool of ended programs has no turn left. -/
theorem Ended.turn {p : Pool S ρ ω σ} (h : p.Ended) (i : ℕ) (x : ι) :
    p.act M (.turn i x) = none := by
  refine Option.bind_eq_none_iff.mpr fun ⟨r, prog⟩ ht => ?_
  obtain ⟨a, rfl⟩ := h _ (List.mem_of_getElem? ht)
  rfl

/-- Turns on allowed inputs lead from one pool to another. -/
inductive Drains (M : Machine S ρ ω σ ι κ) (ok : Pool S ρ ω σ → ℕ → ι → Prop) :
    Pool S ρ ω σ → Pool S ρ ω σ → Prop
  | done (p : Pool S ρ ω σ) : Drains M ok p p
  | turn {p p' p'' : Pool S ρ ω σ} {i : ℕ} {x : ι} : ok p i x → p.act M (.turn i x) = some p' →
      Drains M ok p' p'' → Drains M ok p p''

variable {ok : Pool S ρ ω σ → ℕ → ι → Prop} {I : Pool S ρ ω σ → Prop}

theorem Drains.reaches {p p' : Pool S ρ ω σ} (h : Drains M ok p p') : Reaches M p p' := by
  induction h with
  | done p => exact Reaches.refl p
  | turn _ hact _ ih => exact (Reaches.act hact).trans ih

/-- If some program can always take its turn, all programs can be run to their ends. -/
theorem exists_drained_of_progress
    (hstep : ∀ {p p' i x}, I p → p.act M (.turn i x) = some p' → I p')
    (hprogress : ∀ {p}, I p → ¬ p.Ended → ∃ i x p', ok p i x ∧ p.act M (.turn i x) = some p')
    (h : I p) : ∃ p', Drains M ok p p' ∧ p'.Ended := by
  induction p using (wellFounded_turns M).induction with
  | _ p ih =>
    by_cases hended : p.Ended
    · exact ⟨p, .done p, hended⟩
    · obtain ⟨i, x, p₁, hok, hact⟩ := hprogress h hended
      obtain ⟨p', hdrains, hended'⟩ := ih p₁ ⟨i, x, hact⟩ (hstep h hact)
      exact ⟨p', .turn hok hact hdrains, hended'⟩

end Pool

/-! ## Locks -/

section Locks

variable {Λ : Type} {calm : ι → σ → Prop} {locked : σ → Λ → Prop}
  {holds : Λ → Prog S ρ ω ω → Prop} {ok : ρ → Prog S ρ ω ω → Prop} {p p' : Pool S ρ ω σ}
  {l : Label ι κ} {ls : List (Label ι κ)}

/-- Rules for programs that wait for locks: `locked s l` says that `l` is locked, `holds l p` that
`p` is a program that has locked it, and `ok r p` that `p` keeps to the rules. -/
structure Locking (M : Machine S ρ ω σ ι κ) (calm : ι → σ → Prop) (locked : σ → Λ → Prop)
    (holds : Λ → Prog S ρ ω ω → Prop) (ok : ρ → Prog S ρ ω ω → Prop) : Prop where
  /-- A lock is taken by the program that executes a statement, or was held by another one. -/
  step : ∀ {β : Type} {r : ρ} {st : S β} {k : β → Prog S ρ ω ω} {x s b s'},
    ok r (.step st k) → M.exec st x s = some (b, s') →
      ok r (k b) ∧ ∀ l, locked s' l → holds l (k b) ∨ locked s l ∧ ¬ holds l (.step st k)
  fork : ∀ {r r' : ρ} {child k : Prog S ρ ω ω}, ok r (.fork r' child k) →
    ok r k ∧ ok r' child ∧ ∀ l, ¬ holds l (.fork r' child k)
  arrival : ∀ c s, ok (M.arrival c s).1 (M.arrival c s).2
  enter : ∀ {r s l}, locked (M.enter r s) l → locked s l
  /-- A statement that has to wait waits for a lock. -/
  waits : ∀ {β : Type} {st : S β} {x s}, calm x s → M.exec st x s = none → ∃ l, locked s l
  /-- A program that holds a lock does not wait. -/
  goes : ∀ {l p}, holds l p → ∃ (β : Type) (st : S β) (k : β → Prog S ρ ω ω), p = .step st k ∧
    ∀ x s, calm x s → ∃ r, M.exec st x s = some r

/-- Every program keeps to the rules, and every lock is held by one of them. -/
structure Pool.LocksHeld (p : Pool S ρ ω σ) (locked : σ → Λ → Prop)
    (holds : Λ → Prog S ρ ω ω → Prop) (ok : ρ → Prog S ρ ω ω → Prop) : Prop where
  ok : ∀ t ∈ p.threads, ok t.role t.prog
  held : ∀ l, locked p.shared l → ∃ t ∈ p.threads, holds l t.prog

namespace Locking

theorem act (hM : Locking M calm locked holds ok) (h : p.LocksHeld locked holds ok)
    (hact : p.act M l = some p') : p'.LocksHeld locked holds ok := by
  cases l with
  | arrive c =>
      obtain rfl := Option.some.inj hact
      refine ⟨fun t ht => ?_, fun l hl => ?_⟩
      · rcases List.mem_append.mp ht with ht | ht
        · exact h.ok t ht
        · obtain rfl := List.mem_singleton.mp ht
          exact hM.arrival c p.shared
      · obtain ⟨t, ht, hholds⟩ := h.held l (hM.enter hl)
        exact ⟨t, List.mem_append_left _ ht, hholds⟩
  | turn i x =>
      obtain ⟨⟨r, prog⟩, ht, hturn⟩ := Option.bind_eq_some_iff.mp hact
      have hlt : i < p.threads.length := (List.getElem?_eq_some_iff.mp ht).1
      have hown := h.ok _ (List.mem_of_getElem? ht)
      -- a lock that the program at work does not hold is held by a program that stays
      have hothers : ∀ {l prog'}, locked p.shared l → ¬ holds l prog →
          ∃ t ∈ p.threads.set i ⟨r, prog'⟩, holds l t.prog := by
        intro l prog' hl hnot
        obtain ⟨t, htmem, hholds⟩ := h.held l hl
        obtain ⟨j, hj⟩ := List.mem_iff_getElem?.mp htmem
        have hne : i ≠ j := by
          rintro rfl
          obtain rfl := Option.some.inj (ht.symm.trans hj)
          exact hnot hholds
        refine ⟨t, List.mem_iff_getElem?.mpr ⟨j, ?_⟩, hholds⟩
        rw [List.getElem?_set_ne hne, hj]
      cases prog with
      | pure a => cases hturn
      | step st k =>
          obtain ⟨⟨b, s'⟩, hexec, rfl⟩ := Option.map_eq_some_iff.mp hturn
          obtain ⟨hk, hlocks⟩ := hM.step hown hexec
          refine ⟨fun t ht => ?_, fun l hl => ?_⟩
          · rcases List.mem_or_eq_of_mem_set ht with ht | rfl
            · exact h.ok t ht
            · exact hk
          · rcases hlocks l hl with hholds | ⟨hl, hnot⟩
            · exact ⟨_, List.mem_set hlt _, hholds⟩
            · exact hothers hl hnot
      | fork r' child k =>
          obtain rfl := Option.some.inj hturn
          obtain ⟨hk, hchild, hnot⟩ := hM.fork hown
          refine ⟨fun t ht => ?_, fun l hl => ?_⟩
          · rcases List.mem_append.mp ht with ht | ht
            · rcases List.mem_or_eq_of_mem_set ht with ht | rfl
              · exact h.ok t ht
              · exact hk
            · obtain rfl := List.mem_singleton.mp ht
              exact hchild
          · obtain ⟨t, ht, hholds⟩ := hothers (hM.enter hl) (hnot l)
            exact ⟨t, List.mem_append_left _ ht, hholds⟩

/-- Every run keeps the locks with the programs that hold them. -/
theorem run (hM : Locking M calm locked holds ok) (h : p.LocksHeld locked holds ok)
    (hrun : p.run M ls = some p') : p'.LocksHeld locked holds ok := by
  induction ls generalizing p with
  | nil => exact Option.some.inj hrun ▸ h
  | cons l ls ih =>
      obtain ⟨p₁, hact, hrun⟩ := Option.bind_eq_some_iff.mp hrun
      exact ih (hM.act h hact) hrun

/-- Unless all have ended, some program can take its turn on any calm input. -/
theorem progress (hM : Locking M calm locked holds ok) (h : p.LocksHeld locked holds ok)
    (hended : ¬ p.Ended) :
    ∃ i, ∀ x, calm x p.shared → ∃ p', p.act M (.turn i x) = some p' := by
  have hturn : ∀ {i r} {β : Type} {st : S β} {k x b}, p.threads[i]? = some ⟨r, .step st k⟩ →
      M.exec st x p.shared = some b → ∃ p', p.act M (.turn i x) = some p' := fun ht hexec =>
    ⟨_, Option.bind_eq_some_iff.mpr ⟨_, ht, Option.map_eq_some_iff.mpr ⟨_, hexec, rfl⟩⟩⟩
  obtain ⟨t, ht, hnot⟩ := not_forall₂.mp hended
  obtain ⟨i, hi⟩ := List.mem_iff_getElem?.mp ht
  obtain ⟨r, prog⟩ := t
  cases prog with
  | pure a => exact absurd ⟨a, rfl⟩ hnot
  | fork r' child k =>
      exact ⟨i, fun x _ => ⟨_, Option.bind_eq_some_iff.mpr ⟨_, hi, rfl⟩⟩⟩
  | step st k =>
      by_cases hwaits : ∃ x, calm x p.shared ∧ M.exec st x p.shared = none
      · -- it waits for a program that does not
        obtain ⟨x, hcalm, hnone⟩ := hwaits
        obtain ⟨l, hl⟩ := hM.waits hcalm hnone
        obtain ⟨⟨r', prog⟩, ht', hholds⟩ := h.held l hl
        obtain ⟨β, st', k', rfl, hgoes⟩ := hM.goes hholds
        obtain ⟨j, hj⟩ := List.mem_iff_getElem?.mp ht'
        refine ⟨j, fun x hcalm => ?_⟩
        obtain ⟨b, hexec⟩ := hgoes x p.shared hcalm
        exact hturn hj hexec
      · refine ⟨i, fun x hcalm => ?_⟩
        obtain ⟨b, hexec⟩ := Option.ne_none_iff_exists'.mp fun hnone => hwaits ⟨x, hcalm, hnone⟩
        exact hturn hi hexec

end Locking

end Locks

end Concurrency
