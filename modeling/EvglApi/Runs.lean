/-
# Runs

What holds along a run of a pool, whatever its programs are.

* `act_rel` and `run_rel`: what every statement and every start of a program does to the
  store, a step and a run do;
* `along_run`: what no entry of a schedule breaks that meets a condition holds after a schedule
  whose entries meet it;
* `Upheld.run`: a property of single programs that no step breaks holds of every program
  at work;
* `Pool.Followed.run`: so does a property of one program and of the inputs it has had;
* `ended_of_act`: a program that has ended stays as it is;
* `Reaches.induct`: what no step breaks holds of whatever is reached;
* `exists_turning`: a property that holds at the end of a run and not at its start comes
  true in one of its steps.
-/
import EvglApi.Prog

namespace Concurrency

universe u

variable {S : Type → Type u} {ρ ω σ ι κ : Type} {M : Machine S ρ ω σ ι κ}

namespace Pool

variable {p p' : Pool S ρ ω σ} {l : Label ι κ} {ls ls' : List (Label ι κ)}

/-- A step executes a statement or starts a program. -/
theorem act_rel {T : σ → σ → Prop}
    (hexec : ∀ {β : Type} (st : S β) x s b s', M.exec st x s = some (b, s') → T s s')
    (henter : ∀ r s, T s (M.enter r s)) (hact : p.act M l = some p') :
    T p.shared p'.shared := by
  cases l with
  | arrive c =>
      obtain rfl := Option.some.inj hact
      exact henter _ _
  | turn i x =>
      obtain ⟨⟨r, prog⟩, -, hturn⟩ := Option.bind_eq_some_iff.mp hact
      cases prog with
      | pure a => cases hturn
      | step st k =>
          obtain ⟨⟨b, s'⟩, hstep, rfl⟩ := Option.map_eq_some_iff.mp hturn
          exact hexec st x _ b s' hstep
      | fork r' child k =>
          obtain rfl := Option.some.inj hturn
          exact henter r' _

/-- What every step does to the store, a run does. -/
theorem run_rel {T : σ → σ → Prop} (hrefl : ∀ s, T s s)
    (htrans : ∀ {s s' s''}, T s s' → T s' s'' → T s s'')
    (hexec : ∀ {β : Type} (st : S β) x s b s', M.exec st x s = some (b, s') → T s s')
    (henter : ∀ r s, T s (M.enter r s)) (hrun : p.run M ls = some p') :
    T p.shared p'.shared := by
  induction ls generalizing p with
  | nil =>
      obtain rfl := Option.some.inj hrun
      exact hrefl _
  | cons l ls ih =>
      obtain ⟨q, hq, hrest⟩ := Option.bind_eq_some_iff.mp hrun
      exact htrans (act_rel hexec henter hq) (ih hrest)

/-- In the run under the schedule, every entry meets the condition `C` on the pool before it. -/
def Along (M : Machine S ρ ω σ ι κ) (C : Pool S ρ ω σ → Label ι κ → Prop) (p : Pool S ρ ω σ) :
    List (Label ι κ) → Prop
  | [] => True
  | l :: ls => C p l ∧ ∀ p', p.act M l = some p' → Along M C p' ls

/-- What no entry breaks that meets the condition holds at the end of the run. -/
theorem along_run {C : Pool S ρ ω σ → Label ι κ → Prop} {I : Pool S ρ ω σ → Prop}
    (hstep : ∀ {p l p'}, l ∈ ls → I p → C p l → p.act M l = some p' → I p') (hp : I p)
    (halong : p.Along M C ls) (hrun : p.run M ls = some p') : I p' := by
  induction ls generalizing p with
  | nil =>
      obtain rfl := Option.some.inj hrun
      exact hp
  | cons l ls ih =>
      obtain ⟨q, hq, hrest⟩ := Option.bind_eq_some_iff.mp hrun
      exact ih (fun hl => hstep (List.mem_cons_of_mem _ hl))
        (hstep List.mem_cons_self hp halong.1 hq) (halong.2 q hq) hrest

/-- A run is continued by another one. -/
theorem run_trans {p'' : Pool S ρ ω σ} (h : p.run M ls = some p') (h' : p'.run M ls' = some p'') :
    p.run M (ls ++ ls') = some p'' := by
  rw [run_append, h]
  exact h'

theorem run_singleton (h : p.act M l = some p') : p.run M [l] = some p' := by
  rw [run, h]
  rfl

theorem Reaches.trans {p'' : Pool S ρ ω σ} (h : Reaches M p p') (h' : Reaches M p' p'') :
    Reaches M p p'' := by
  obtain ⟨ls, hrun⟩ := h
  obtain ⟨ls', hrun'⟩ := h'
  exact ⟨ls ++ ls', run_trans hrun hrun'⟩

theorem Reaches.act (h : p.act M l = some p') : Reaches M p p' := ⟨[l], run_singleton h⟩

/-- What no step from a pool breaks holds of whatever is reached from it. -/
theorem Reaches.induct {I : Pool S ρ ω σ → Prop} (h : Reaches M p p') (hp : I p)
    (hstep : ∀ {q l q'}, Reaches M p q → I q → q.act M l = some q' → I q') : I p' := by
  obtain ⟨ls, hrun⟩ := h
  suffices hrest : ∀ {q}, Reaches M p q → I q → q.run M ls = some p' → I p' from
    hrest (Reaches.refl p) hp hrun
  clear hrun
  induction ls with
  | nil =>
      intro q _ hq hrun
      obtain rfl := Option.some.inj hrun
      exact hq
  | cons l ls ih =>
      intro q hreach hq hrun
      obtain ⟨q', hact, hrest⟩ := Option.bind_eq_some_iff.mp hrun
      exact ih (hreach.trans (Reaches.act hact)) (hstep hreach hq hact) hrest

/-- A client that arrives is the last program at work. -/
theorem getElem?_of_arrive {c : κ} (hact : p.act M (.arrive c) = some p') :
    p'.threads[p.threads.length]? =
      some ⟨(M.arrival c p.shared).1, (M.arrival c p.shared).2⟩ := by
  obtain rfl := Option.some.inj hact
  rw [List.getElem?_append_right (Nat.le_refl _), Nat.sub_self]
  rfl

/-- A program that has ended stays as it is. -/
theorem ended_of_act {r : ρ} {a : ω} (h : ⟨r, .pure a⟩ ∈ p.threads) (hact : p.act M l = some p') :
    ⟨r, .pure a⟩ ∈ p'.threads := by
  cases l with
  | arrive c =>
      obtain rfl := Option.some.inj hact
      exact List.mem_append_left _ h
  | turn i x =>
      obtain ⟨⟨r', prog⟩, ht, hturn⟩ := Option.bind_eq_some_iff.mp hact
      have hstays : ∀ t, prog ≠ .pure a → ⟨r, .pure a⟩ ∈ p.threads.set i t := by
        intro t hne
        obtain ⟨m, hm⟩ := List.getElem?_of_mem h
        have him : i ≠ m := by
          rintro rfl
          exact hne (Thread.mk.inj (Option.some.inj (ht.symm.trans hm))).2
        exact List.mem_of_getElem? ((List.getElem?_set_ne him).trans hm)
      cases prog with
      | pure b => cases hturn
      | step st k =>
          obtain ⟨⟨b, s'⟩, -, rfl⟩ := Option.map_eq_some_iff.mp hturn
          exact hstays _ nofun
      | fork r'' child k =>
          obtain rfl := Option.some.inj hturn
          exact List.mem_append_left _ (hstays _ nofun)

/-- A property that holds at the end of a run and not at its start comes true in one of
its steps. -/
theorem exists_turning {Q : Pool S ρ ω σ → Prop} (hrun : p.run M ls = some p') (hstart : ¬ Q p)
    (hend : Q p') :
    ∃ ls₁ l ls₂ p₁ p₂, ls = ls₁ ++ l :: ls₂ ∧ p.run M ls₁ = some p₁ ∧ p₁.act M l = some p₂ ∧
      p₂.run M ls₂ = some p' ∧ ¬ Q p₁ ∧ Q p₂ := by
  induction ls generalizing p with
  | nil =>
      obtain rfl := Option.some.inj hrun
      exact absurd hend hstart
  | cons l ls ih =>
      obtain ⟨q, hq, hrest⟩ := Option.bind_eq_some_iff.mp hrun
      by_cases hQ : Q q
      · exact ⟨[], l, ls, p, q, rfl, rfl, hq, hrest, hstart, hQ⟩
      · obtain ⟨ls₁, l', ls₂, p₁, p₂, rfl, hrun₁, hstep, hrun₂, hbefore, hafter⟩ := ih hrest hQ
        refine ⟨l :: ls₁, l', ls₂, p₁, p₂, rfl, ?_, hstep, hrun₂, hbefore, hafter⟩
        rw [run, hq]
        exact hrun₁

end Pool

/-! ## One program in a run -/

/-- The input that an entry of the schedule gives to the program at position `i`. -/
def Label.inputTo (i : ℕ) : Label ι κ → Option ι
  | .turn j x => if j = i then some x else none
  | .arrive _ => none

namespace Pool

variable {p p' : Pool S ρ ω σ} {l : Label ι κ} {ls : List (Label ι κ)} {i : ℕ} {r : ρ}
  {prog : Prog S ρ ω ω} {I : List ι → σ → Prog S ρ ω ω → Prop} {xs : List ι}

/-- What is known of a program after its own inputs `xs`, whatever the others do. -/
structure Followed (M : Machine S ρ ω σ ι κ) (I : List ι → σ → Prog S ρ ω ω → Prop) : Prop where
  step : ∀ {β : Type} {st : S β} {k : β → Prog S ρ ω ω} {xs x s b s'},
    I xs s (.step st k) → M.exec st x s = some (b, s') → I (xs ++ [x]) s' (k b)
  fork : ∀ {r : ρ} {child k : Prog S ρ ω ω} {xs x s},
    I xs s (.fork r child k) → I (xs ++ [x]) (M.enter r s) k
  exec : ∀ {β : Type} {st : S β} {x s b s' xs prog}, M.exec st x s = some (b, s') →
    I xs s prog → I xs s' prog
  enter : ∀ {r s xs prog}, I xs s prog → I xs (M.enter r s) prog

theorem Followed.act (hI : Followed M I) (ht : p.threads[i]? = some ⟨r, prog⟩)
    (h : I xs p.shared prog) (hact : p.act M l = some p') :
    ∃ prog', p'.threads[i]? = some ⟨r, prog'⟩ ∧
      I (xs ++ (l.inputTo i).toList) p'.shared prog' := by
  obtain ⟨hlt, -⟩ := List.getElem?_eq_some_iff.mp ht
  cases l with
  | arrive c =>
      obtain rfl := Option.some.inj hact
      refine ⟨prog, ?_, ?_⟩
      · rw [List.getElem?_append_left hlt]
        exact ht
      · rw [show (Label.inputTo i (.arrive c)).toList = [] from rfl, List.append_nil]
        exact hI.enter h
  | turn j x =>
      obtain ⟨⟨r₀, prog₀⟩, hj, hturn⟩ := Option.bind_eq_some_iff.mp hact
      by_cases hij : j = i
      · -- the turn of the program itself
        subst hij
        obtain ⟨rfl, rfl⟩ := Thread.mk.inj (Option.some.inj (ht.symm.trans hj))
        rw [show (Label.inputTo j (.turn j x : Label ι κ)).toList = [x] by
          rw [Label.inputTo, if_pos rfl]
          rfl]
        cases prog with
        | pure a => cases hturn
        | step st k =>
            obtain ⟨⟨b, s'⟩, hexec, rfl⟩ := Option.map_eq_some_iff.mp hturn
            exact ⟨k b, List.getElem?_set_self hlt, hI.step h hexec⟩
        | fork r' child k =>
            obtain rfl := Option.some.inj hturn
            refine ⟨k, ?_, hI.fork h⟩
            rw [List.getElem?_append_left (by rwa [List.length_set])]
            exact List.getElem?_set_self hlt
      · rw [show (Label.inputTo i (.turn j x : Label ι κ)).toList = [] by
          rw [Label.inputTo, if_neg hij]
          rfl, List.append_nil]
        -- the turn of another program
        refine ⟨prog, ?_⟩
        cases prog₀ with
        | pure a => cases hturn
        | step st k =>
            obtain ⟨⟨b, s'⟩, hexec, rfl⟩ := Option.map_eq_some_iff.mp hturn
            refine ⟨?_, hI.exec hexec h⟩
            rw [List.getElem?_set_ne hij]
            exact ht
        | fork r' child k =>
            obtain rfl := Option.some.inj hturn
            refine ⟨?_, hI.enter h⟩
            rw [List.getElem?_append_left (by rwa [List.length_set]), List.getElem?_set_ne hij]
            exact ht

/-- What is known of a program after a run. -/
theorem Followed.run (hI : Followed M I) (ht : p.threads[i]? = some ⟨r, prog⟩)
    (h : I xs p.shared prog) (hrun : p.run M ls = some p') :
    ∃ prog', p'.threads[i]? = some ⟨r, prog'⟩ ∧
      I (xs ++ ls.filterMap (Label.inputTo i)) p'.shared prog' := by
  induction ls generalizing p prog xs with
  | nil =>
      obtain rfl := Option.some.inj hrun
      rw [List.filterMap_nil, List.append_nil]
      exact ⟨prog, ht, h⟩
  | cons l ls ih =>
      obtain ⟨q, hq, hrest⟩ := Option.bind_eq_some_iff.mp hrun
      obtain ⟨prog', ht', h'⟩ := hI.act ht h hq
      obtain ⟨prog'', ht'', h''⟩ := ih ht' h' hrest
      refine ⟨prog'', ht'', ?_⟩
      have hinputs : (l.inputTo i).toList ++ ls.filterMap (Label.inputTo i) =
          (l :: ls).filterMap (Label.inputTo i) := by
        rw [List.filterMap_cons]
        cases l.inputTo i with
        | none => rfl
        | some x => rfl
      rw [List.append_assoc, hinputs] at h''
      exact h''

end Pool

/-! ## Properties of single programs -/

/-- A property of a store and a program at work on it that no step breaks: neither the
program's own statements, nor those of the others, nor the start of a program. -/
structure Upheld (M : Machine S ρ ω σ ι κ) (I : σ → Thread S ρ ω → Prop) : Prop where
  step : ∀ {β : Type} {r : ρ} {st : S β} {k : β → Prog S ρ ω ω} {x s b s'},
    I s ⟨r, .step st k⟩ → M.exec st x s = some (b, s') → I s' ⟨r, k b⟩
  fork : ∀ {r r' : ρ} {child k : Prog S ρ ω ω} {s},
    I s ⟨r, .fork r' child k⟩ → I (M.enter r' s) ⟨r, k⟩ ∧ I (M.enter r' s) ⟨r', child⟩
  arrival : ∀ c s, I (M.enter (M.arrival c s).1 s) ⟨(M.arrival c s).1, (M.arrival c s).2⟩
  exec : ∀ {β : Type} {st : S β} {x s b s' t}, M.exec st x s = some (b, s') → I s t → I s' t
  enter : ∀ {r s t}, I s t → I (M.enter r s) t

namespace Upheld

variable {I : σ → Thread S ρ ω → Prop} {p p' : Pool S ρ ω σ} {l : Label ι κ}
  {ls : List (Label ι κ)}

theorem act (hI : Upheld M I) (h : ∀ t ∈ p.threads, I p.shared t) (hact : p.act M l = some p') :
    ∀ t ∈ p'.threads, I p'.shared t := by
  cases l with
  | arrive c =>
      obtain rfl := Option.some.inj hact
      intro t ht
      rcases List.mem_append.mp ht with ht | ht
      · exact hI.enter (h t ht)
      · obtain rfl := List.mem_singleton.mp ht
        exact hI.arrival c p.shared
  | turn i x =>
      obtain ⟨⟨r, prog⟩, ht, hturn⟩ := Option.bind_eq_some_iff.mp hact
      have hown := h _ (List.mem_of_getElem? ht)
      cases prog with
      | pure a => cases hturn
      | step st k =>
          obtain ⟨⟨b, s'⟩, hstep, rfl⟩ := Option.map_eq_some_iff.mp hturn
          intro t ht
          rcases List.mem_or_eq_of_mem_set ht with ht | rfl
          · exact hI.exec hstep (h t ht)
          · exact hI.step hown hstep
      | fork r' child k =>
          obtain rfl := Option.some.inj hturn
          obtain ⟨hk, hchild⟩ := hI.fork hown
          intro t ht
          rcases List.mem_append.mp ht with ht | ht
          · rcases List.mem_or_eq_of_mem_set ht with ht | rfl
            · exact hI.enter (h t ht)
            · exact hk
          · obtain rfl := List.mem_singleton.mp ht
            exact hchild

/-- A property that no step breaks holds of every program at work. -/
theorem run (hI : Upheld M I) (h : ∀ t ∈ p.threads, I p.shared t) (hrun : p.run M ls = some p') :
    ∀ t ∈ p'.threads, I p'.shared t := by
  induction ls generalizing p with
  | nil =>
      obtain rfl := Option.some.inj hrun
      exact h
  | cons l ls ih =>
      obtain ⟨q, hq, hrest⟩ := Option.bind_eq_some_iff.mp hrun
      exact ih (hI.act h hq) hrest

/-- What every statement of every arriving program satisfies. -/
theorem every {P : ∀ {β : Type}, S β → Prop} (hP : ∀ c s, (M.arrival c s).2.Every P) :
    Upheld M fun _ t => t.prog.Every P where
  step h _ := h.2 _
  fork h := h.elim
  arrival c s := hP c s
  exec _ h := h
  enter h := h

/-- If no program starts another one, such starts need not be considered. -/
theorem of_every (hquiet : ∀ c s, (M.arrival c s).2.Every fun _ => True)
    (hstep : ∀ {β : Type} {r : ρ} {st : S β} {k : β → Prog S ρ ω ω} {x s b s'},
      I s ⟨r, .step st k⟩ → M.exec st x s = some (b, s') → I s' ⟨r, k b⟩)
    (harrival : ∀ c s, I (M.enter (M.arrival c s).1 s) ⟨(M.arrival c s).1, (M.arrival c s).2⟩)
    (hexec : ∀ {β : Type} {st : S β} {x s b s' t}, M.exec st x s = some (b, s') → I s t → I s' t)
    (henter : ∀ {r s t}, I s t → I (M.enter r s) t) :
    Upheld M fun s t => I s t ∧ t.prog.Every fun _ => True where
  step h hst := ⟨hstep h.1 hst, h.2.2 _⟩
  fork h := h.2.elim
  arrival c s := ⟨harrival c s, hquiet c s⟩
  exec hst h := ⟨hexec hst h.1, h.2⟩
  enter h := ⟨henter h.1, h.2⟩

/-- A property that no step breaks holds of every program that has arrived. -/
theorem of_reaches (hI : Upheld M I) {s₀ : σ} (hreach : Pool.Reaches M ⟨s₀, []⟩ p) {i : ℕ}
    {t : Thread S ρ ω} (ht : p.threads[i]? = some t) : I p.shared t := by
  obtain ⟨ls, hrun⟩ := hreach
  refine hI.run (fun t ht => ?_) hrun t (List.mem_of_getElem? ht)
  cases ht

end Upheld

end Concurrency
