/-
# The updates of a job

Only the worker of a job emits updates about it, and the last statement of a worker that
returns well emits the update that the job is finished.

* `World.channel` is what has been sent on the channel of a job.
* `act_channel` is what a step of the service can do to it.
* `channel_of_finishedWell` and `announced_of_finishes` say it for runs: after the last update
  nothing is sent, and the last update is sent while the worker has not returned yet.
-/
import EvglApi.Orphans
import EvglApi.Runs

open Concurrency Mvcc

namespace Service

variable {env : Deployment} {p p' : Pool Stmt Role Outcome World} {w w' : World} {j : Uuid}
  {u : JobUpdate} {l : Label Draw Request} {ls : List (Label Draw Request)} {n : ℕ} {q : Request}

/-- What has been sent on the channel of job `j`. -/
def World.channel (w : World) (j : Uuid) : List JobUpdate :=
  (w.trace.filterMap Effect.update).filter (·.jobId = j)

/-- The worker of job `j` has returned well. -/
def FinishedWell (p : Pool Stmt Role Outcome World) (j : Uuid) : Prop :=
  ⟨.worker j, .pure (.finished (.ok ()))⟩ ∈ p.threads

/-- The update that a job is finished. -/
structure JobUpdate.Final (u : JobUpdate) : Prop where
  provider : u.provider = none
  message : u.message = "job finished"

/-! ## What the statements send -/

/-- Effects that are no updates leave every channel as it is. -/
theorem channel_append (es : List Effect) (htrace : w'.trace = w.trace ++ es)
    (hes : ∀ e ∈ es, e.update = none) : w'.channel j = w.channel j := by
  rw [World.channel, htrace, List.filterMap_append, List.filterMap_eq_nil_iff.mpr hes,
    List.append_nil, World.channel]

/-- An update goes to the end of the channel of its job and of no other. -/
theorem channel_emitted (u : JobUpdate) :
    (w.log (.emitted u)).channel j = w.channel j ++ if u.jobId = j then [u] else [] := by
  have hupdates : (w.log (.emitted u)).trace.filterMap Effect.update =
      w.trace.filterMap Effect.update ++ [u] := List.filterMap_append ..
  rw [World.channel, hupdates, List.filter_append, World.channel, List.filter_singleton]
  simp

/-- A statement that does not emit leaves every channel as it is. -/
theorem channel_silent {β : Type} {st : Stmt β} {x : Draw} {b : β} (hst : st.Silent)
    (hexec : st.exec x w = some (b, w')) : w'.channel j = w.channel j := by
  obtain ⟨es, htrace, hes⟩ := Stmt.exec_trace hst hexec
  exact channel_append es htrace hes

theorem channel_enter (r : Role) : (World.enter r w).channel j = w.channel j := by
  cases r with
  | request n q => rfl
  | worker k => rfl

/-! ## Who sends them -/

/-- A program of the worker of job `j` that has not returned well. -/
def Underway (j : Uuid) : Prog Stmt Role Outcome Outcome → Prop :=
  Prog.EndsOn (Stmt.OfWorker j) (Stmt.Announces j) (· = .finished (.ok ()))

/-- A request starts workers that have not returned yet. -/
def StartsWorker (r : Role) (child : Prog Stmt Role Outcome Outcome) : Prop :=
  ∃ j, r = .worker j ∧ Underway j child

/-- A request emits nothing; a worker emits for its job, and the last word at last. -/
def Discreet (t : Thread Stmt Role Outcome) : Prop :=
  match t.role with
  | .request _ _ => t.prog.Starts Stmt.Silent StartsWorker
  | .worker j => Underway j t.prog ∨ ∃ a, t.prog = .pure a

theorem only_enqueueJob {userId eventId : Uuid} {key : String} {targets : List PublishTarget} :
    Only Stmt.Silent (Store.enqueueJob env n userId eventId key targets) := by
  refine Only.transaction trivial trivial (Only.bind (Only.query trivial) (Only.option ?_ ?_))
  · refine Only.bind (Only.query trivial) fun job => Only.bind ?_ fun _ => ?_
    · exact only_enqueueTargets (fun _ => trivial) (fun _ _ _ => trivial) targets
    · exact Only.bind (Only.query trivial) fun _ => Only.pure _
  · exact fun existing => Only.bind (Only.query trivial) fun _ => Only.pure _

theorem starts_crossPost {userId eventId : Uuid} {key : Option String}
    {targets : List PublishTarget} :
    (Events.crossPost env n userId eventId key targets).run.Starts Stmt.Silent StartsWorker := by
  cases key with
  | none => trivial
  | some key =>
      refine starts_bind (Prog.Starts.of_every (Only.result _)) fun _ => ?_
      refine starts_bind (Prog.Starts.of_every (only_getEvent trivial)) fun _ => ?_
      refine starts_bind (Prog.Starts.of_every only_enqueueJob) fun enqueued => ?_
      show (if _ then _ else _ : Api Response).run.Starts _ _
      split
      · exact starts_bind ⟨⟨_, rfl, endsOn_worker enqueued.job⟩, trivial⟩ fun _ => trivial
      · trivial

/-- A handler emits nothing itself; the workers that it starts emit for their own jobs. -/
theorem starts_handle (q : Request) :
    (handle env n q).run.Starts Stmt.Silent StartsWorker := by
  have hothers : q.NotCrossPost → (handle env n q).run.Starts Stmt.Silent StartsWorker :=
    fun hq => Prog.Starts.of_every (Prog.Every.mono (fun {_ st} h => by
      cases st with
      | emit job provider status attempt message publication => exact h.2.elim
      | _ => trivial) (only_handle hq))
  cases q with
  | crossPost user eventId key targets => exact starts_crossPost
  | _ => exact hothers trivial

/-- Every program of the service is discreet. -/
theorem upheld_discreet (env : Deployment) : Upheld (service env) fun _ t => Discreet t where
  step {_ r _ _ _ _ b _} h _ := by
    cases r with
    | request n q => exact h.2 b
    | worker k =>
        rcases h with h | ⟨a, ha⟩
        · rcases h.2 b with hk | ⟨-, a, ha⟩
          · exact Or.inl hk
          · exact Or.inr ⟨a, ha⟩
        · cases ha
  fork {r r' _ _ _} h := by
    cases r with
    | request n q =>
        obtain ⟨⟨k, rfl, hchild⟩, hk⟩ := h
        exact ⟨hk, Or.inl hchild⟩
    | worker k =>
        rcases h with h | ⟨a, ha⟩
        · exact h.elim
        · cases ha
  arrival q w := Prog.Starts.bind (starts_handle q) fun _ => trivial
  exec _ h := h
  enter h := h

/-- In every run each thread emits for its own job at most. -/
theorem discreet_of_reachable (h : Reachable env p) : ∀ t ∈ p.threads, Discreet t := by
  obtain ⟨ls, hrun⟩ := h
  exact (upheld_discreet env).run (by simp [idleService]) hrun

/-! ## One step -/

/-- A worker that is done is not at work. -/
theorem FinishedWell.not_atWork (h : FinishedWell p j) (hp : Reachable env p) :
    ¬ AtWork p (.worker j) := by
  rintro ⟨prog, hprog, hwork⟩
  have hsame := hp.poolOk.eq_of_role hprog h rfl
  exact hwork _ (Thread.mk.inj hsame).2

/-- What a step can send on the channel of job `j`: nothing, and then the worker does not return
well in this step, or one update of the worker, which is the final one if it then returns well. -/
theorem act_channel (hp : ∀ t ∈ p.threads, Discreet t) (hact : p.act (service env) l = some p') :
    (p'.shared.channel j = p.shared.channel j ∧ (FinishedWell p' j → FinishedWell p j)) ∨
      AtWork p (.worker j) ∧ ∃ u, p'.shared.channel j = p.shared.channel j ++ [u] ∧
        (FinishedWell p' j → FinishedWell p j ∨ u.Final) := by
  cases l with
  | arrive q =>
      obtain rfl := Option.some.inj hact
      refine Or.inl ⟨channel_enter _, fun h => ?_⟩
      rcases List.mem_append.mp h with h | h
      · exact h
      · cases List.mem_singleton.mp h
  | turn i x =>
      obtain ⟨⟨r, prog⟩, ht, hturn⟩ := Option.bind_eq_some_iff.mp hact
      have hmem := List.mem_of_getElem? ht
      have hdiscreet := hp _ hmem
      cases prog with
      | pure a => cases hturn
      | fork r' child k =>
          obtain rfl := Option.some.inj hturn
          refine Or.inl ⟨channel_enter _, fun h => ?_⟩
          cases r with
          | worker m =>
              rcases hdiscreet with h | ⟨a, ha⟩
              · exact h.elim
              · cases ha
          | request m q =>
              obtain ⟨⟨m', rfl, hchild⟩, -⟩ := hdiscreet
              rcases List.mem_append.mp h with h | h
              · exact (List.mem_or_eq_of_mem_set h).resolve_right fun heq => nomatch heq
              · -- a worker that is started has not returned yet
                obtain ⟨-, rfl⟩ := Thread.mk.inj (List.mem_singleton.mp h)
                exact absurd rfl hchild
      | step st k =>
          obtain ⟨⟨b, w'⟩, hstep, rfl⟩ := Option.map_eq_some_iff.mp hturn
          have hexec : st.exec x p.shared = some (b, w') := hstep
          have hothers : ∀ {t}, t ∈ (p.threads.set i ⟨r, k b⟩) → t ≠ ⟨r, k b⟩ → t ∈ p.threads :=
            fun ht hne => (List.mem_or_eq_of_mem_set ht).resolve_right hne
          cases r with
          | request m q =>
              exact Or.inl ⟨channel_silent hdiscreet.1 hexec, fun h => hothers h nofun⟩
          | worker m =>
              obtain ⟨⟨-, hown⟩, hend⟩ : Underway m (.step st k) := hdiscreet.resolve_right nofun
              -- the worker returns well in this step only by its last word
              have hlast : FinishedWell ⟨w', p.threads.set i ⟨.worker m, k b⟩⟩ j →
                  FinishedWell p j ∨ st.Announces m := by
                intro h
                rcases List.mem_or_eq_of_mem_set h with h | heq
                · exact Or.inl h
                · obtain ⟨-, hk⟩ := Thread.mk.inj heq
                  rcases hend b with hunderway | ⟨hlast, -⟩
                  · rw [← hk] at hunderway
                    exact absurd rfl hunderway
                  · exact Or.inr hlast
              cases st with
              | emit job provider status attempt message publication =>
                  obtain rfl : job.id = m := hown
                  obtain ⟨-, rfl⟩ := Prod.mk.inj (Option.some.inj hexec)
                  by_cases hjob : job.id = j
                  · subst hjob
                    refine Or.inr ⟨⟨_, hmem, nofun⟩,
                      { jobId := job.id, eventId := job.eventId, provider, status, attempt, message
                        occurredAt := x.now, publication }, ?_, fun h => ?_⟩
                    · exact (channel_emitted _).trans (by rw [if_pos rfl])
                    · exact (hlast h).imp_right fun h => ⟨h.2.1, h.2.2⟩
                  · refine Or.inl ⟨?_, fun h => hothers h fun heq => ?_⟩
                    · exact (channel_emitted _).trans (by rw [if_neg hjob, List.append_nil])
                    · exact hjob (Role.worker.inj (Thread.mk.inj heq).1).symm
              | _ =>
                  refine Or.inl ⟨channel_silent ?_ hexec, fun h => (hlast h).resolve_right id⟩
                  trivial

/-! ## Runs -/

theorem Reachable.run (h : Reachable env p) (hrun : p.run (service env) ls = some p') :
    Reachable env p' := by
  obtain ⟨ls₀, hrun₀⟩ := h
  exact ⟨ls₀ ++ ls, Pool.run_trans hrun₀ hrun⟩

/-- A step only adds to a channel. -/
theorem channel_prefix_act (hp : Reachable env p) (hact : p.act (service env) l = some p') :
    p.shared.channel j <+: p'.shared.channel j := by
  rcases act_channel (discreet_of_reachable hp) hact with ⟨hsame, -⟩ | ⟨-, u, hmore, -⟩
  · exact hsame ▸ List.prefix_refl _
  · exact hmore ▸ List.prefix_append _ _

/-- After a worker has returned well, it stays so and nothing more is sent about its job. -/
theorem FinishedWell.step (h : FinishedWell p j) (hp : Reachable env p)
    (hact : p.act (service env) l = some p') :
    FinishedWell p' j ∧ p'.shared.channel j = p.shared.channel j := by
  refine ⟨Pool.ended_of_act h hact, ?_⟩
  rcases act_channel (discreet_of_reachable hp) hact with ⟨hsame, -⟩ | ⟨hwork, -⟩
  · exact hsame
  · exact absurd hwork (h.not_atWork hp)

theorem FinishedWell.run (h : FinishedWell p j) (hp : Reachable env p)
    (hrun : p.run (service env) ls = some p') :
    FinishedWell p' j ∧ p'.shared.channel j = p.shared.channel j := by
  induction ls generalizing p with
  | nil =>
      obtain rfl := Option.some.inj hrun
      exact ⟨h, rfl⟩
  | cons l ls ih =>
      obtain ⟨p₁, hact, hrest⟩ := Option.bind_eq_some_iff.mp hrun
      obtain ⟨h₁, hsame⟩ := h.step hp hact
      obtain ⟨h', hsame'⟩ := ih h₁ (hp.run (Pool.run_singleton hact)) hrest
      exact ⟨h', hsame'.trans hsame⟩

/-- A worker that returns well in a run sends the final update in it, after everything else. -/
theorem exists_final (hp : Reachable env p) (hrun : p.run (service env) ls = some p')
    (hbefore : ¬ FinishedWell p j) (hafter : FinishedWell p' j) :
    ∃ sent u, p'.shared.channel j = sent ++ [u] ∧ u.Final ∧ p.shared.channel j <+: sent := by
  induction ls generalizing p with
  | nil =>
      obtain rfl := Option.some.inj hrun
      exact absurd hafter hbefore
  | cons l ls ih =>
      obtain ⟨p₁, hact, hrest⟩ := Option.bind_eq_some_iff.mp hrun
      have hp₁ : Reachable env p₁ := hp.run (Pool.run_singleton hact)
      by_cases hfinished : FinishedWell p₁ j
      · -- the worker returns in this step
        rcases act_channel (discreet_of_reachable hp) hact with ⟨-, hback⟩ | ⟨-, u, hmore, hfinal⟩
        · exact absurd (hback hfinished) hbefore
        · refine ⟨_, u, ?_, (hfinal hfinished).resolve_left hbefore, List.prefix_refl _⟩
          rw [(hfinished.run hp₁ hrest).2, hmore]
      · obtain ⟨sent, u, hsent, hfinal, hprefix⟩ := ih hp₁ hrest hfinished
        exact ⟨sent, u, hsent, hfinal, (channel_prefix_act hp hact).trans hprefix⟩

end Service
