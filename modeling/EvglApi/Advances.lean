/-
# What a later request finds

* `Advances` is what an earlier store is to a later one: committed jobs keep their fixed columns
  and the targets they have, the rows of a job that is over stay, events stay, and the id of a
  connection is not given to another account.
* `advances_of_reaches`: a run leads from store to store by it.
* `spans_of_answered`: a request that has been answered is an execution of its handler after its
  arrival, and between its statements the store advances.
-/
import EvglApi.Announcements
import EvglApi.Conclusion
import EvglApi.Envelopes
import EvglApi.Narration
import EvglApi.Spans

open Concurrency Mvcc

namespace Service

variable {env : Deployment} {p p' : Pool Stmt Role Outcome World} {w w' w'' : World} {j : Uuid}
  {l : Label Draw Request} {ls : List (Label Draw Request)} {i n : ℕ} {q : Request} {a : Outcome}
  {β : Type} {x : Draw} {b : β} {st : Stmt β}

/-! ## Statements -/

/-- A statement does not change which targets a committed job has. -/
theorem targetsOf_exec (hinv : Inv env w) (hinv' : Inv env w') (hexec : st.exec x w = some (b, w'))
    {v : Version JobRow} (hv : v ∈ w.jobs) (hc : v.committed = true) :
    w'.targetsOf v.row.id = w.targetsOf v.row.id := by
  have hsame : w'.targets = w.targets → w'.targetsOf v.row.id = w.targetsOf v.row.id :=
    fun h => World.targetsOf_congr h _
  cases st with
  | query k =>
      obtain ⟨text, -, -, rfl⟩ | ⟨-, hexec⟩ := Stmt.exec_query hexec
      · rfl
      · cases k with
        | commit m =>
            obtain ⟨-, rfl⟩ := Prod.mk.inj (Option.some.inj hexec)
            exact targetsOf_commit w m v.row.id
        | insertTarget m jobId connectionId provider options =>
            obtain ⟨e, -, rfl⟩ | ⟨row, -, rfl, -⟩ := insertTarget_cases hexec
            · rfl
            · -- the new target is not committed, and so it is one of another job
              have hnew : ⟨m, false, row⟩ ∈ (w.addTarget m row).targets :=
                Table.mem_insert.mpr (Or.inr rfl)
              have hne : row.jobId ≠ v.row.id := fun hjob =>
                Bool.false_ne_true (hinv'.target_committed hnew hv hjob.symm hc)
              rw [World.targetsOf, World.targetsOf]
              show ((w.targets.insert m row).map fun u => u.row.toTargetFixed).filter _ = _
              rw [Table.insert, List.map_append, List.filter_append]
              simp [hne]
        | updateTargetRunning id attempt =>
            obtain ⟨-, rfl⟩ := Prod.mk.inj (Option.some.inj hexec)
            refine targetsOf_updateTarget ?_ v.row.id
            exact fun _ => rfl
        | updateTargetComplete id status result | updateTargetFailed id attempt error =>
            obtain ⟨-, rfl⟩ := Prod.mk.inj (Option.some.inj hexec)
            refine (targetsOf_logOutcome id v.row.id).trans (targetsOf_updateTarget ?_ v.row.id)
            exact fun _ => rfl
        | _ => exact hsame ((Query.exec_frame hexec).targets (by simp))
  | rollback m =>
      obtain ⟨-, rfl⟩ := Prod.mk.inj (Option.some.inj hexec)
      exact targetsOf_rollback hinv hv hc m
  | _ => exact hsame ((Stmt.exec_frame hexec).targets (by simp))

/-- Events stay. -/
theorem events_exec (hexec : st.exec x w = some (b, w')) : w.events <+: w'.events := by
  by_cases hst : st.Aloof
  · exact (hst.exec hexec).1 ▸ List.prefix_refl _
  · cases st with
    | query k =>
        obtain ⟨text, -, -, rfl⟩ | ⟨-, hexec⟩ := Stmt.exec_query hexec
        · exact List.prefix_refl _
        · cases k with
          | insertEvent id owner document =>
              obtain ⟨-, rfl⟩ := Prod.mk.inj (Option.some.inj hexec)
              exact List.prefix_append _ _
          | _ => exact absurd trivial hst
    | newUuid =>
        obtain ⟨-, -, rfl⟩ := Stmt.exec_newUuid hexec
        exact List.prefix_refl _
    | sendEvent event =>
        obtain ⟨-, rfl⟩ := Prod.mk.inj (Option.some.inj hexec)
        exact List.prefix_refl _
    | _ => exact absurd trivial hst

/-! ## Accounts -/

/-- No connection of the later store has the id of another account of the earlier one. -/
structure SameAccounts (w w' : World) : Prop where
  drawn : w.drawn ⊆ w'.drawn
  connections : ∀ c' ∈ w'.connections, c'.id ∈ w.drawn →
    ∃ c ∈ w.connections, c.toConnectionFixed = c'.toConnectionFixed

/-- Without an upsert no connection is added. -/
theorem Writes.subset {a : Act Stmt Draw} {rows rows' : List ConnectionRow}
    (h : Writes a rows rows') (ha : upsertedAccount a = none) : rows' ⊆ rows := by
  cases h with
  | updated c old x => cases ha
  | inserted c x => cases ha
  | deleted a id => exact fun _ hr => List.mem_of_mem_filter hr
  | kept a => exact List.Subset.refl _

/-- No statement gives a stored connection another account. -/
theorem sameAccounts_exec {st : Stmt β} {b : β} (hinv : Inv env w)
    (hexec : st.exec x w = some (b, w')) : SameAccounts w w' := by
  refine ⟨?_, ?_⟩
  · rcases Stmt.exec_fresh hexec with hdrawn | ⟨-, hdrawn⟩
    · exact hdrawn ▸ List.Subset.refl _
    · exact hdrawn ▸ List.subset_cons_self _ _
  · have hsub : upsertedAccount ⟨st, x, b⟩ = none → ∀ c' ∈ w'.connections, c'.id ∈ w.drawn →
        ∃ c ∈ w.connections, c.toConnectionFixed = c'.toConnectionFixed :=
      fun hnone c' hc' _ => ⟨c', (writes_stmt hexec).subset hnone hc', rfl⟩
    cases st with
    | query k =>
        cases k with
        | upsertConnection user provider accountKey displayName metadata envelope =>
            obtain ⟨text, -, -, rfl⟩ | ⟨-, hexec⟩ := Stmt.exec_query hexec
            · exact fun c hc _ => ⟨c, hc, rfl⟩
            · exact (quiet_upsert hinv hexec).connections
        | _ => exact hsub rfl
    | _ => exact hsub rfl

theorem SameAccounts.refl (w : World) : SameAccounts w w :=
  ⟨List.Subset.refl _, fun c hc _ => ⟨c, hc, rfl⟩⟩

theorem SameAccounts.trans (h : SameAccounts w w') (h' : SameAccounts w' w'') :
    SameAccounts w w'' := by
  refine ⟨List.Subset.trans h.drawn h'.drawn, fun c hc hid => ?_⟩
  obtain ⟨c', hc', heq'⟩ := h'.connections c hc (h.drawn hid)
  have hid' : c'.id = c.id := congrArg ConnectionFixed.id heq'
  obtain ⟨c₀, hc₀, heq⟩ := h.connections c' hc' (hid' ▸ hid)
  exact ⟨c₀, hc₀, heq.trans heq'⟩

/-- The id of a connection is not given to another account. -/
theorem SameAccounts.eq (h : SameAccounts w w') (hinv : Inv env w) {c c' : ConnectionRow}
    (hc : c ∈ w.connections) (hc' : c' ∈ w'.connections) (hid : c'.id = c.id) :
    c'.toConnectionFixed = c.toConnectionFixed := by
  obtain ⟨c₀, hc₀, heq⟩ := h.connections c' hc' (hid ▸ hinv.connectionDrawn c hc)
  have hsame : c₀.id = c.id := (congrArg ConnectionFixed.id heq).trans hid
  rw [← heq, List.inj_on_of_nodup_map hinv.connectionIds hc₀ hc hsame]

/-! ## Advances -/

/-- `w` is an earlier store than `w'`. -/
structure Advances (env : Deployment) (w w' : World) : Prop where
  inv : Inv env w'
  definite : Definite w'
  eventIds : w'.eventIds.Nodup
  evolves : Evolves w w'
  events : w.events <+: w'.events
  /-- A committed job has the targets it has. -/
  enlisted : ∀ v ∈ w.jobs, v.committed = true → w'.targetsOf v.row.id = w.targetsOf v.row.id
  /-- The targets of a job that is over stay as they are. -/
  rests : ∀ j, Effect.finished j ∈ w.trace → ∀ v : Version TargetRow, v.row.jobId = j →
    (v ∈ w'.targets ↔ v ∈ w.targets)
  accounts : SameAccounts w w'

namespace Advances

/-- A store that the service reaches has advanced from itself. -/
theorem refl (h : Reachable env p) : Advances env p.shared p.shared where
  inv := h.poolOk.inv
  definite := definite_of_reachable h
  eventIds := nodup_eventIds h
  evolves := Evolves.refl _
  events := List.prefix_refl _
  enlisted _ _ _ := rfl
  rests _ _ _ _ := Iff.rfl
  accounts := SameAccounts.refl _

/-- What has advanced has advanced from before. -/
theorem trans (h : Advances env w w') (h' : Advances env w' w'') : Advances env w w'' where
  inv := h'.inv
  definite := h'.definite
  eventIds := h'.eventIds
  evolves := h.evolves.trans h'.evolves
  events := h.events.trans h'.events
  enlisted := by
    intro v hv hc
    obtain ⟨v', hv', hc', hfixed, -⟩ := h.evolves.jobs v hv hc
    have hid : v'.row.id = v.row.id := congrArg JobFixed.id hfixed
    have hlater := h'.enlisted v' hv' hc'
    rw [hid] at hlater
    exact hlater.trans (h.enlisted v hv hc)
  rests j hj v hv := (h'.rests j (h.evolves.trace.subset hj) v hv).trans (h.rests j hj v hv)
  accounts := h.accounts.trans h'.accounts

theorem act (h : Reachable env p) (hact : p.act (service env) l = some p') :
    Advances env p.shared p'.shared where
  inv := (h.run (Pool.run_singleton hact)).poolOk.inv
  definite := definite_of_reachable (h.run (Pool.run_singleton hact))
  eventIds := nodup_eventIds (h.run (Pool.run_singleton hact))
  evolves := evolves_of_reaches h (Pool.Reaches.act hact)
  events := by
    refine Pool.act_rel (T := fun w w' => w.events <+: w'.events) (fun st x w b w' hexec => ?_)
      (fun r w => ?_) hact
    · exact events_exec hexec
    · cases r <;> exact List.prefix_refl _
  enlisted := by
    have hinv : Inv env p.shared := h.poolOk.inv
    have hinv' : Inv env p'.shared := (h.run (Pool.run_singleton hact)).poolOk.inv
    refine Pool.act_rel (T := fun w w' => Inv env w → Inv env w' → ∀ v ∈ w.jobs,
      v.committed = true → w'.targetsOf v.row.id = w.targetsOf v.row.id)
      (fun st x w b w' hexec hinv hinv' v hv hc => ?_) (fun r w _ _ v _ _ => ?_) hact hinv hinv'
    · exact targetsOf_exec hinv hinv' hexec hv hc
    · cases r <;> rfl
  rests j hj v hv := targets_act h hj hact hv
  accounts := by
    have hinv : Inv env p.shared := h.poolOk.inv
    refine Pool.act_rel (T := fun w w' => Inv env w → SameAccounts w w')
      (fun st x w b w' hexec hinv => sameAccounts_exec hinv hexec) (fun r w _ => ?_) hact hinv
    cases r <;> exact ⟨List.Subset.refl _, fun c hc _ => ⟨c, hc, rfl⟩⟩

end Advances

/-! ## Requests -/

/-- A run leads to a later store. -/
theorem advances_of_reaches (h : Reachable env p) (hreach : Pool.Reaches (service env) p p') :
    Advances env p.shared p'.shared :=
  Pool.Reaches.induct (I := fun q => Advances env p.shared q.shared) hreach (Advances.refl h)
    fun hq h' hact => h'.trans (Advances.act (h.trans hq) hact)

/-- A request that arrived after `p` and has been answered is an execution of its handler. -/
theorem spans_of_answered (h : Reachable env p) (hreach : Pool.Reaches (service env) p p')
    (hi : p.threads.length ≤ i) (ht : p'.threads[i]? = some ⟨.request n q, .pure a⟩) :
    ∃ u, Spans (service env) (Advances env) (respond env n q) p.shared a u ∧
      Advances env u p'.shared := by
  obtain ⟨ls, hrun⟩ := hreach
  obtain ⟨hlt', -⟩ := List.getElem?_eq_some_iff.mp ht
  -- the step with which the program came in
  obtain ⟨ls₁, l, ls₂, p₁, p₂, -, hrun₁, hact, hrun₂, hbefore, hafter⟩ :=
    Pool.exists_turning (Q := fun p => i < p.threads.length) hrun (Nat.not_lt.mpr hi) hlt'
  have hp₁ : Reachable env p₁ := h.run hrun₁
  have hp₂ : Reachable env p₂ := hp₁.run (Pool.run_singleton hact)
  have hspans : ∀ {r prog}, p₂.threads[i]? = some ⟨r, prog⟩ → .request n q = r ∧
      ∃ u, Spans (service env) (Advances env) prog p₂.shared a u ∧ Advances env u p'.shared := by
    intro r prog hprog
    refine Pool.exists_spans (J := Reachable env) (fun hq hact => ?_) (fun hq => Advances.refl hq)
      (fun hq hact => Advances.act hq hact) (fun _ _ _ h h' => h.trans h') hp₂ hprog hrun₂ ht
    exact hq.run (Pool.run_singleton hact)
  obtain ⟨t, ht₂⟩ : ∃ t, p₂.threads[i]? = some t := ⟨_, List.getElem?_eq_getElem hafter⟩
  obtain ⟨hrole, u, hspan, hu⟩ := hspans ht₂
  have hbegins : Advances env p.shared p₂.shared :=
    (advances_of_reaches h ⟨_, hrun₁⟩).trans (Advances.act hp₁ hact)
  rcases Pool.act_new (Nat.not_lt.mp hbefore) hact ht₂ with ⟨c, rfl⟩ | ⟨r, child, k, hfork⟩
  · obtain ⟨rfl, rfl⟩ := Role.request.inj hrole
    exact hspan.earlier (fun _ _ _ h h' => h.trans h') hbegins hu
  · -- only workers are started
    have hconcluding : Concluding ⟨r, .fork t.role child k⟩ := concluding_of_reachable hp₁ _ hfork
    cases r with
    | request m q' =>
        obtain ⟨⟨k', hk', -⟩, -⟩ := hconcluding
        cases hrole.trans hk'
    | worker m => exact hconcluding.elim

end Service
