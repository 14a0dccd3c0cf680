/-
# Histories

What the programs of a run have done, in the order in which they did it.

* `Pool.history` lists the executed statements of a run with their answers, and `own` those
  of one program.
* A `Conduct` says which statement a program of a given role may execute after what it has
  done so far, and what it may end with.  `Conduct.Follows` is checked program by program,
  and `Acts` for programs that may return early.
* `Recorded.run` is the induction over a run that looks at its history, and `conducted_run`
  says that programs that follow a conduct have done so in every run.
-/
import EvglApi.Runs
import EvglApi.Tries

namespace Concurrency

universe u

variable {S : Type → Type u} {ρ ω σ ι κ ε ε' α β : Type}

/-! ## Entries -/

/-- An executed statement. -/
structure Act (S : Type → Type u) (ι : Type) where
  {answers : Type}
  stmt : S answers
  input : ι
  answer : answers

/-- A statement that the program at position `thread` has executed. -/
structure Entry (S : Type → Type u) (ρ ι : Type) extends Act S ι where
  thread : ℕ
  role : ρ

/-- What the program at position `i` has done. -/
def own (i : ℕ) (h : List (Entry S ρ ι)) : List (Act S ι) :=
  (h.filter (·.thread = i)).map (·.toAct)

section Own

variable {i : ℕ} {h : List (Entry S ρ ι)} {e : Entry S ρ ι} {a : Act S ι}

@[simp] theorem own_nil : own i ([] : List (Entry S ρ ι)) = [] := rfl

theorem own_append (h' : List (Entry S ρ ι)) : own i (h ++ h') = own i h ++ own i h' := by
  rw [own, List.filter_append, List.map_append]
  rfl

theorem own_concat_of_eq (he : e.thread = i) : own i (h ++ [e]) = own i h ++ [e.toAct] := by
  subst he
  rw [own_append]
  simp [own]

theorem own_concat_of_ne (he : e.thread ≠ i) : own i (h ++ [e]) = own i h := by
  rw [own_append]
  simp [own, he]

theorem mem_own : a ∈ own i h ↔ ∃ e ∈ h, e.thread = i ∧ e.toAct = a := by
  simp [own, and_assoc]

/-- What a program has done is a part of what it does later. -/
theorem own_mono {h' : List (Entry S ρ ι)} (hstarts : h <+: h') : own i h <+: own i h' := by
  obtain ⟨rest, rfl⟩ := hstarts
  exact ⟨own i rest, (own_append rest).symm⟩

end Own

/-! ## Histories -/

namespace Pool

variable (M : Machine S ρ ω σ ι κ)

/-- What an entry of the schedule adds to the history. -/
def noted (p : Pool S ρ ω σ) : Label ι κ → List (Entry S ρ ι)
  | .arrive _ => []
  | .turn i x =>
      match p.threads[i]? with
      | some ⟨r, .step st _⟩ =>
          match M.exec st x p.shared with
          | some (b, _) => [⟨⟨st, x, b⟩, i, r⟩]
          | none => []
      | _ => []

/-- The history of a run. -/
def history (p : Pool S ρ ω σ) : List (Label ι κ) → List (Entry S ρ ι)
  | [] => []
  | l :: ls =>
      p.noted M l ++
        match p.act M l with
        | some p' => p'.history ls
        | none => []

end Pool

variable {M : Machine S ρ ω σ ι κ}

namespace Pool

variable {p p' q : Pool S ρ ω σ} {l : Label ι κ} {ls : List (Label ι κ)} {e : Entry S ρ ι}
  {h₁ h₂ : List (Entry S ρ ι)}

/-- A step adds nothing to the history, or the statement that it executes. -/
theorem noted_cases (hact : p.act M l = some q) : p.noted M l = [] ∨
    ∃ e, p.noted M l = [e] ∧ (∃ k, p.threads[e.thread]? = some ⟨e.role, .step e.stmt k⟩) ∧
      M.exec e.stmt e.input p.shared = some (e.answer, q.shared) := by
  cases l with
  | arrive c => exact Or.inl rfl
  | turn i x =>
      obtain ⟨⟨r, prog⟩, ht, hturn⟩ := Option.bind_eq_some_iff.mp hact
      cases prog with
      | pure a => cases hturn
      | step st k =>
          obtain ⟨⟨b, s⟩, hexec, rfl⟩ := Option.map_eq_some_iff.mp hturn
          refine Or.inr ⟨⟨⟨st, x, b⟩, i, r⟩, ?_, ⟨k, ht⟩, hexec⟩
          simp only [noted, ht, hexec]
      | fork r' child k =>
          refine Or.inl ?_
          rw [noted, ht]

/-- The moment of a run at which an entry of its history was executed. -/
theorem exists_moment (hrun : p.run M ls = some p')
    (hhistory : p.history M ls = h₁ ++ e :: h₂) :
    ∃ ls₁ ls₂ p₁, p.run M ls₁ = some p₁ ∧ p.history M ls₁ = h₁ ∧ p₁.run M ls₂ = some p' ∧
      (∃ k, p₁.threads[e.thread]? = some ⟨e.role, .step e.stmt k⟩) ∧
        ∃ s, M.exec e.stmt e.input p₁.shared = some (e.answer, s) := by
  induction ls generalizing p h₁ with
  | nil => exact absurd hhistory.symm (by simp [history])
  | cons l ls ih =>
      obtain ⟨q, hact, hrest⟩ := Option.bind_eq_some_iff.mp hrun
      have hcons : ∀ ls', p.history M (l :: ls') = p.noted M l ++ q.history M ls' := by
        intro ls'
        rw [history, hact]
      rw [hcons] at hhistory
      -- the entry stands behind what the first step has added
      have hlater : ∀ {h}, q.history M ls = h ++ e :: h₂ → h₁ = p.noted M l ++ h →
          ∃ ls₁ ls₂ p₁, p.run M ls₁ = some p₁ ∧ p.history M ls₁ = h₁ ∧ p₁.run M ls₂ = some p' ∧
            (∃ k, p₁.threads[e.thread]? = some ⟨e.role, .step e.stmt k⟩) ∧
              ∃ s, M.exec e.stmt e.input p₁.shared = some (e.answer, s) := by
        rintro h hq rfl
        obtain ⟨ls₁, ls₂, p₁, hrun₁, hhistory₁, hmoment⟩ := ih hrest hq
        refine ⟨l :: ls₁, ls₂, p₁, Option.bind_eq_some_iff.mpr ⟨q, hact, hrun₁⟩, ?_, hmoment⟩
        rw [hcons, hhistory₁]
      rcases noted_cases hact with hnone | ⟨e', hone, hk, hexec⟩
      · rw [hnone] at hhistory
        exact hlater hhistory (by rw [hnone]; rfl)
      · rw [hone] at hhistory
        cases h₁ with
        | nil =>
            obtain rfl := (List.cons.inj hhistory).1
            exact ⟨[], l :: ls, p, rfl, rfl, hrun, hk, _, hexec⟩
        | cons e₁ h₁ =>
            obtain ⟨rfl, hq⟩ := List.cons.inj hhistory
            exact hlater hq (by rw [hone]; rfl)

end Pool

/-- A property of a pool and its history that no step breaks. -/
structure Recorded (M : Machine S ρ ω σ ι κ) (I : List (Entry S ρ ι) → Pool S ρ ω σ → Prop) :
    Prop where
  arrive : ∀ {h p} c, I h p → I h
    ⟨M.enter (M.arrival c p.shared).1 p.shared,
      p.threads ++ [⟨(M.arrival c p.shared).1, (M.arrival c p.shared).2⟩]⟩
  step : ∀ {h p i r} {β : Type} {st : S β} {k x b s}, I h p →
    p.threads[i]? = some ⟨r, .step st k⟩ → M.exec st x p.shared = some (b, s) →
      I (h ++ [⟨⟨st, x, b⟩, i, r⟩]) ⟨s, p.threads.set i ⟨r, k b⟩⟩
  fork : ∀ {h p i r r' child k} (_ : ι), I h p →
    p.threads[i]? = some ⟨r, .fork r' child k⟩ →
    I h ⟨M.enter r' p.shared, p.threads.set i ⟨r, k⟩ ++ [⟨r', child⟩]⟩

namespace Recorded

variable {I : List (Entry S ρ ι) → Pool S ρ ω σ → Prop} {h : List (Entry S ρ ι)}
  {p p' : Pool S ρ ω σ} {l : Label ι κ} {ls : List (Label ι κ)}

theorem act (hI : Recorded M I) (hp : I h p) (hact : p.act M l = some p') :
    I (h ++ p.noted M l) p' := by
  cases l with
  | arrive c =>
      obtain rfl := Option.some.inj hact
      rw [Pool.noted, List.append_nil]
      exact hI.arrive c hp
  | turn i x =>
      obtain ⟨⟨r, prog⟩, ht, hturn⟩ := Option.bind_eq_some_iff.mp hact
      rw [Pool.noted, ht]
      cases prog with
      | pure a => cases hturn
      | step st k =>
          obtain ⟨⟨b, s⟩, hexec, rfl⟩ := Option.map_eq_some_iff.mp hturn
          show I (h ++ match M.exec st x p.shared with
            | some (b, _) => [⟨⟨st, x, b⟩, i, r⟩]
            | none => []) _
          rw [hexec]
          exact hI.step hp ht hexec
      | fork r' child k =>
          obtain rfl := Option.some.inj hturn
          rw [List.append_nil]
          exact hI.fork x hp ht

/-- What no step breaks holds of a run and its history. -/
theorem run (hI : Recorded M I) (hp : I h p) (hrun : p.run M ls = some p') :
    I (h ++ p.history M ls) p' := by
  induction ls generalizing h p with
  | nil =>
      obtain rfl := Option.some.inj hrun
      rw [Pool.history, List.append_nil]
      exact hp
  | cons l ls ih =>
      obtain ⟨q, hq, hrest⟩ := Option.bind_eq_some_iff.mp hrun
      rw [Pool.history, hq, ← List.append_assoc]
      exact ih (hI.act hp hq) hrest

theorem and {J : List (Entry S ρ ι) → Pool S ρ ω σ → Prop} (hI : Recorded M I)
    (hJ : Recorded M J) : Recorded M fun h p => I h p ∧ J h p where
  arrive c hp := ⟨hI.arrive c hp.1, hJ.arrive c hp.2⟩
  step hp ht hexec := ⟨hI.step hp.1 ht hexec, hJ.step hp.2 ht hexec⟩
  fork x hp ht := ⟨hI.fork x hp.1 ht, hJ.fork x hp.2 ht⟩

/-- What no step breaks holds of every run that starts without programs. -/
theorem of_run {s₀ : σ} (hI : Recorded M I) (hstart : I [] ⟨s₀, []⟩)
    (hrun : Pool.run M ⟨s₀, []⟩ ls = some p) : I (Pool.history M ⟨s₀, []⟩ ls) p :=
  hI.run hstart hrun

end Recorded

/-- What is reached by the run so far. -/
theorem recorded_reaches (p₀ : Pool S ρ ω σ) :
    Recorded M fun (_ : List (Entry S ρ ι)) p => Pool.Reaches M p₀ p where
  arrive c hp := Pool.Reaches.trans hp (Pool.Reaches.act (l := .arrive c) rfl)
  step {h p i r β st k x b s} hp ht hexec := by
    refine Pool.Reaches.trans hp (Pool.Reaches.act (l := .turn i x) ?_)
    show (p.threads[i]?).bind (p.turn M i x) = _
    rw [ht]
    show (M.exec st x p.shared).map _ = _
    rw [hexec]
    rfl
  fork {h p i r r' child k} x hp ht := by
    refine Pool.Reaches.trans hp (Pool.Reaches.act (l := .turn i x) ?_)
    show (p.threads[i]?).bind (p.turn M i x) = _
    rw [ht]
    rfl

/-! ## Conduct -/

/-- What programs may execute after what they have done, and what they may end with. -/
structure Conduct (S : Type → Type u) (ρ ω ι : Type) where
  allows : {β : Type} → ρ → List (Act S ι) → S β → Prop
  ends : ρ → ω → List (Act S ι) → Prop

namespace Conduct

variable (C : Conduct S ρ ω ι)

/-- After the acts the program keeps to the conduct, and ends with `Q`. -/
def Follows : ∀ {α : Type}, ρ → Prog S ρ ω α → (α → List (Act S ι) → Prop) →
    List (Act S ι) → Prop
  | _, _, .pure a, Q, acts => Q a acts
  | _, r, .step st k, Q, acts =>
      C.allows r acts st ∧ ∀ x b, Follows r (k b) Q (acts ++ [⟨st, x, b⟩])
  | _, r, .fork r' child k, Q, acts => Follows r' child (C.ends r') [] ∧ Follows r k Q acts

variable {C} {r : ρ} {acts : List (Act S ι)}

theorem Follows.mono {p : Prog S ρ ω α} {Q Q' : α → List (Act S ι) → Prop}
    (h : C.Follows r p Q acts) (hQ : ∀ a acts, Q a acts → Q' a acts) :
    C.Follows r p Q' acts := by
  induction p generalizing acts with
  | pure a => exact hQ a acts h
  | step st k ih => exact ⟨h.1, fun x b => ih b (h.2 x b) hQ⟩
  | fork r' child k _ ih => exact ⟨h.1, ih h.2 hQ⟩

/-- What a program has done before stays done. -/
theorem Follows.grows {p : Prog S ρ ω α} {Q : α → List (Act S ι) → Prop}
    (h : C.Follows r p Q acts) :
    C.Follows r p (fun a acts' => Q a acts' ∧ acts <+: acts') acts := by
  induction p generalizing acts with
  | pure a => exact ⟨h, List.prefix_refl _⟩
  | step st k ih =>
      refine ⟨h.1, fun x b => (ih b (h.2 x b)).mono fun a acts' h' => ⟨h'.1, ?_⟩⟩
      exact (List.prefix_append _ _).trans h'.2
  | fork r' child k _ ih => exact ⟨h.1, ih h.2⟩

/-- A sequence is checked part by part. -/
theorem Follows.bind {p : Prog S ρ ω α} {f : α → Prog S ρ ω β} {Q : β → List (Act S ι) → Prop}
    (h : C.Follows r p (fun a => C.Follows r (f a) Q) acts) : C.Follows r (p.bind f) Q acts := by
  induction p generalizing acts with
  | pure a => exact h
  | step st k ih => exact ⟨h.1, fun x b => ih b (h.2 x b)⟩
  | fork r' child k _ ih => exact ⟨h.1, ih h.2⟩

/-- What keeps to a conduct keeps to one that allows more. -/
theorem Follows.weaken {C' : Conduct S ρ ω ι} {p : Prog S ρ ω α}
    {Q : α → List (Act S ι) → Prop}
    (hallows : ∀ {β : Type} r acts (st : S β), C.allows r acts st → C'.allows r acts st)
    (hends : ∀ r o acts, C.ends r o acts → C'.ends r o acts) (h : C.Follows r p Q acts) :
    C'.Follows r p Q acts := by
  induction p generalizing r acts with
  | pure a => exact h
  | step st k ih => exact ⟨hallows _ _ _ h.1, fun x b => ih b (h.2 x b)⟩
  | fork r' child k ihchild ihk => exact ⟨(ihchild h.1).mono (hends r'), ihk h.2⟩

/-- A program whose statements are always allowed keeps to the conduct. -/
theorem Follows.of_every {P : ∀ {β : Type}, S β → Prop} {p : Prog S ρ ω α} (hp : p.Every P)
    (hP : ∀ {β : Type} {st : S β} acts, P st → C.allows r acts st) :
    C.Follows r p (fun _ _ => True) acts := by
  induction p generalizing acts with
  | pure a => trivial
  | step st k ih => exact ⟨hP acts hp.1, fun x b => ih b (hp.2 b)⟩
  | fork r' child k => exact hp.elim

end Conduct

/-! ## Runs of programs with a conduct -/

/-- The programs have kept to the conduct and go on to do so. -/
structure Conducted (M : Machine S ρ ω σ ι κ) (C : Conduct S ρ ω ι) (h : List (Entry S ρ ι))
    (p : Pool S ρ ω σ) : Prop where
  /-- An entry is that of a program at work. -/
  thread : ∀ e ∈ h, ∃ prog, p.threads[e.thread]? = some ⟨e.role, prog⟩
  follows : ∀ i r prog, p.threads[i]? = some ⟨r, prog⟩ → C.Follows r prog (C.ends r) (own i h)
  allowed : ∀ h₁ e h₂, h = h₁ ++ e :: h₂ → C.allows e.role (own e.thread h₁) e.stmt
  executed : ∀ e ∈ h, ∃ s s', M.exec e.stmt e.input s = some (e.answer, s')

namespace Conducted

variable {C : Conduct S ρ ω ι} {h : List (Entry S ρ ι)} {p : Pool S ρ ω σ}

/-- A program that has just been started has done nothing. -/
theorem own_length (hp : Conducted M C h p) : own p.threads.length h = [] := by
  refine List.eq_nil_iff_forall_not_mem.mpr fun a ha => ?_
  obtain ⟨e, he, hthread, -⟩ := mem_own.mp ha
  obtain ⟨prog, hprog⟩ := hp.thread e he
  rw [hthread, List.getElem?_eq_none (Nat.le_refl _)] at hprog
  cases hprog

/-- Entries of one program have one role. -/
theorem role_eq (hp : Conducted M C h p) {e e' : Entry S ρ ι} (he : e ∈ h) (he' : e' ∈ h)
    (hthread : e.thread = e'.thread) : e.role = e'.role := by
  obtain ⟨prog, hprog⟩ := hp.thread e he
  obtain ⟨prog', hprog'⟩ := hp.thread e' he'
  rw [hthread, hprog'] at hprog
  exact (Thread.mk.inj (Option.some.inj hprog)).1.symm

/-- The programs that are there before a new one is started. -/
theorem getElem?_concat {ts : List (Thread S ρ ω)} {t t' : Thread S ρ ω} {i : ℕ}
    (ht : (ts ++ [t])[i]? = some t') : ts[i]? = some t' ∨ i = ts.length ∧ t' = t := by
  rcases Nat.lt_or_ge i ts.length with hlt | hge
  · rw [List.getElem?_append_left hlt] at ht
    exact Or.inl ht
  · rw [List.getElem?_append_right hge, List.getElem?_singleton] at ht
    split at ht
    · next hi => exact Or.inr ⟨by omega, (Option.some.inj ht).symm⟩
    · cases ht

/-- A new program that keeps to the conduct. -/
theorem add (hp : Conducted M C h p) {r : ρ} {prog : Prog S ρ ω ω} {s : σ}
    (hprog : C.Follows r prog (C.ends r) []) :
    Conducted M C h ⟨s, p.threads ++ [⟨r, prog⟩]⟩ where
  thread e he := by
    obtain ⟨prog', hprog'⟩ := hp.thread e he
    obtain ⟨hlt, -⟩ := List.getElem?_eq_some_iff.mp hprog'
    exact ⟨prog', (List.getElem?_append_left hlt).trans hprog'⟩
  follows i r' prog' ht := by
    rcases getElem?_concat ht with ht | ⟨rfl, heq⟩
    · exact hp.follows i r' prog' ht
    · obtain ⟨rfl, rfl⟩ := Thread.mk.inj heq
      rw [hp.own_length]
      exact hprog
  allowed := hp.allowed
  executed := hp.executed

/-- A program goes on. -/
theorem set (hp : Conducted M C h p) {i : ℕ} {t : Thread S ρ ω} {prog : Prog S ρ ω ω} {s : σ}
    (ht : p.threads[i]? = some t) (hprog : C.Follows t.role prog (C.ends t.role) (own i h)) :
    Conducted M C h ⟨s, p.threads.set i ⟨t.role, prog⟩⟩ where
  thread e he := by
    obtain ⟨prog', hprog'⟩ := hp.thread e he
    by_cases hi : i = e.thread
    · subst hi
      obtain rfl := Option.some.inj (ht.symm.trans hprog')
      exact ⟨prog, List.getElem?_set_self (List.getElem?_eq_some_iff.mp ht).1⟩
    · exact ⟨prog', (List.getElem?_set_ne hi).trans hprog'⟩
  follows j r' prog' ht' := by
    by_cases hi : i = j
    · subst hi
      rw [List.getElem?_set_self (List.getElem?_eq_some_iff.mp ht).1] at ht'
      obtain ⟨rfl, rfl⟩ := Thread.mk.inj (Option.some.inj ht')
      exact hprog
    · exact hp.follows j r' prog' ((List.getElem?_set_ne hi).symm.trans ht')
  allowed := hp.allowed
  executed := hp.executed

/-- A program has executed its next statement. -/
theorem record (hp : Conducted M C h p) {i : ℕ} {r : ρ} {st : S β} {k : β → Prog S ρ ω ω} {x : ι}
    {b : β} {s s' : σ} (ht : p.threads[i]? = some ⟨r, .step st k⟩)
    (hexec : M.exec st x s = some (b, s')) :
    Conducted M C (h ++ [⟨⟨st, x, b⟩, i, r⟩]) ⟨s', p.threads.set i ⟨r, k b⟩⟩ := by
  obtain ⟨hallows, hgo⟩ := hp.follows i r _ ht
  have hi := (List.getElem?_eq_some_iff.mp ht).1
  refine ⟨fun e he => ?_, fun j r' prog' ht' => ?_, fun h₁ e h₂ heq => ?_, fun e he => ?_⟩
  · rcases List.mem_append.mp he with he | he
    · obtain ⟨prog', hprog'⟩ := hp.thread e he
      by_cases hie : i = e.thread
      · subst hie
        obtain ⟨rfl, -⟩ := Thread.mk.inj (Option.some.inj (ht.symm.trans hprog'))
        exact ⟨k b, List.getElem?_set_self hi⟩
      · exact ⟨prog', (List.getElem?_set_ne hie).trans hprog'⟩
    · obtain rfl := List.mem_singleton.mp he
      exact ⟨k b, List.getElem?_set_self hi⟩
  · by_cases hij : i = j
    · subst hij
      rw [List.getElem?_set_self hi] at ht'
      obtain ⟨rfl, rfl⟩ := Thread.mk.inj (Option.some.inj ht')
      have hown : own i (h ++ [⟨⟨st, x, b⟩, i, r⟩]) = own i h ++ [⟨st, x, b⟩] :=
        own_concat_of_eq rfl
      rw [hown]
      exact hgo x b
    · have hown : own j (h ++ [⟨⟨st, x, b⟩, i, r⟩]) = own j h := own_concat_of_ne hij
      rw [hown]
      exact hp.follows j r' prog' ((List.getElem?_set_ne hij).symm.trans ht')
  · -- the entry is the last one or an earlier one
    rcases List.eq_nil_or_concat h₂ with rfl | ⟨h₂, e', rfl⟩
    · obtain ⟨rfl, hlast⟩ := List.append_inj' heq rfl
      obtain rfl := (List.cons.inj hlast).1
      exact hallows
    · rw [List.concat_eq_append, ← List.cons_append, ← List.append_assoc] at heq
      exact hp.allowed h₁ e h₂ (List.append_inj' heq rfl).1
  · rcases List.mem_append.mp he with he | he
    · exact hp.executed e he
    · obtain rfl := List.mem_singleton.mp he
      exact ⟨s, s', hexec⟩

end Conducted

/-- If arriving clients keep to the conduct, no step breaks it. -/
theorem recorded_conducted {C : Conduct S ρ ω ι}
    (harrival : ∀ c s, C.Follows (M.arrival c s).1 (M.arrival c s).2 (C.ends (M.arrival c s).1) []) :
    Recorded M (Conducted M C) where
  arrive c hp := hp.add (harrival c _)
  step hp ht hexec := hp.record ht hexec
  fork {h p i r r' child k} _ hp ht := by
    obtain ⟨hchild, hk⟩ := hp.follows _ _ _ ht
    have hset : Conducted M C h ⟨p.shared, p.threads.set i ⟨r, k⟩⟩ := hp.set ht hk
    exact hset.add hchild

theorem conducted_nil {C : Conduct S ρ ω ι} (s : σ) : Conducted M C [] ⟨s, []⟩ :=
  ⟨by simp, by simp, fun h₁ e h₂ heq => by simp at heq, by simp⟩

/-! ## Programs that may return early -/

/-- What holds of a program that ends with a value or an error after what it has done. -/
def ending (Q : α → List (Act S ι) → Prop) (E : ε → List (Act S ι) → Prop) :
    Except ε α → List (Act S ι) → Prop
  | .ok a => Q a
  | .error e => E e

/-- After the acts the program keeps to the conduct, and ends with `Q` or, in case of an
error, with `E`. -/
def Acts (C : Conduct S ρ ω ι) (r : ρ) (p : Tries S ρ ω ε α) (Q : α → List (Act S ι) → Prop)
    (E : ε → List (Act S ι) → Prop) (acts : List (Act S ι)) : Prop :=
  C.Follows r p.run (ending Q E) acts

namespace Acts

variable {C : Conduct S ρ ω ι} {r : ρ} {acts : List (Act S ι)} {Q : α → List (Act S ι) → Prop}
  {E : ε → List (Act S ι) → Prop}

theorem pure {a : α} (h : Q a acts) : Acts C r (Pure.pure a) Q E acts := h

theorem throw {e : ε} (h : E e acts) :
    Acts C r (MonadExcept.throw e : Tries S ρ ω ε α) Q E acts := h

theorem mono {p : Tries S ρ ω ε α} {Q' : α → List (Act S ι) → Prop}
    {E' : ε → List (Act S ι) → Prop} (h : Acts C r p Q E acts)
    (hQ : ∀ a acts, Q a acts → Q' a acts) (hE : ∀ e acts, E e acts → E' e acts) :
    Acts C r p Q' E' acts := by
  refine Conduct.Follows.mono h fun a acts h => ?_
  cases a with
  | ok a => exact hQ a acts h
  | error e => exact hE e acts h

/-- What a program has done before stays done. -/
theorem grows {p : Tries S ρ ω ε α} (h : Acts C r p Q E acts) :
    Acts C r p (fun a acts' => Q a acts' ∧ acts <+: acts') E acts := by
  refine Conduct.Follows.mono (Conduct.Follows.grows h) fun a acts' h' => ?_
  cases a with
  | ok a => exact h'
  | error e => exact h'.1

/-- A sequence is checked part by part. -/
theorem bind {p : Tries S ρ ω ε β} {f : β → Tries S ρ ω ε α}
    (h : Acts C r p (fun b => Acts C r (f b) Q E) E acts) : Acts C r (p >>= f) Q E acts := by
  show C.Follows r (p.run.bind _) (ending Q E) acts
  refine Conduct.Follows.bind (Conduct.Follows.mono h fun a acts h => ?_)
  cases a with
  | ok b => exact h
  | error e => exact h

/-- A sequence whose first part is known to end with `Q'`. -/
theorem andThen {p : Tries S ρ ω ε β} {f : β → Tries S ρ ω ε α} {Q' : β → List (Act S ι) → Prop}
    (hp : Acts C r p Q' E acts)
    (hf : ∀ b acts', Q' b acts' → acts <+: acts' → Acts C r (f b) Q E acts') :
    Acts C r (p >>= f) Q E acts :=
  bind (hp.grows.mono (fun b acts' h => hf b acts' h.1 h.2) fun _ _ h => h)

theorem result {x : Except ε α} (hok : ∀ a, x = .ok a → Q a acts)
    (herror : ∀ e, x = .error e → E e acts) : Acts C r (Tries.result x) Q E acts := by
  cases x with
  | ok a => exact hok a rfl
  | error e => exact herror e rfl

theorem stmt {s : S α} (hallows : C.allows r acts s) (h : ∀ x a, Q a (acts ++ [⟨s, x, a⟩])) :
    Acts C r (Tries.stmt s) Q E acts := ⟨hallows, h⟩

theorem attempt {s : S (Except ε' α)} {wrap : ε' → ε} (hallows : C.allows r acts s)
    (h : ∀ x a, ending Q E (a.mapError wrap) (acts ++ [⟨s, x, a⟩])) :
    Acts C r (Tries.attempt wrap s) Q E acts := ⟨hallows, h⟩

/-- A program that goes on with whatever another one ends with. -/
theorem caught {p : Tries S ρ ω ε α} {Q : Except ε α → List (Act S ι) → Prop}
    (h : Acts C r p (fun a => Q (.ok a)) (fun e => Q (.error e)) acts) :
    Acts C r (Tries.caught p) Q E acts := by
  show C.Follows r (p.run.bind _) _ _
  refine Conduct.Follows.bind (Conduct.Follows.mono h fun a acts h => ?_)
  cases a with
  | ok a => exact h
  | error e => exact h

/-- A program whose statements are always allowed keeps to the conduct. -/
theorem of_only {P : ∀ {β : Type}, S β → Prop} {p : Tries S ρ ω ε α} (hp : Only P p)
    (hP : ∀ {β : Type} {st : S β} acts, P st → C.allows r acts st) :
    Acts C r p (fun _ _ => True) (fun _ _ => True) acts := by
  refine Conduct.Follows.mono (Conduct.Follows.of_every hp hP) fun a acts _ => ?_
  cases a with
  | ok a => trivial
  | error e => trivial

end Acts

end Concurrency
