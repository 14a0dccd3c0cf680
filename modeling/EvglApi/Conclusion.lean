/-
# The rows of a job that is over

A worker that has stored the status of its job only reads and announces after it, and nobody
else writes the rows of the job.  So these do not change any more.

* `marked_worker` is what the program of a worker does after that.
* `targets_act`: no step changes the targets of a job that is over.
* `definite_of_reachable`: a job with a terminal status is over.
-/
import EvglApi.HandlerRules
import EvglApi.Updates

open Concurrency Mvcc

namespace Service

variable {env : Deployment} {p p' : Pool Stmt Role Outcome World} {w w' : World} {j : Uuid}
  {l : Label Draw Request} {ls : List (Label Draw Request)} {β : Type}

/-! ## The program of a worker -/

/-- The statement with which a worker stores the status of its job. -/
def Stmt.Finishes : Stmt β → Prop
  | .query (.updateJobStatus ..) => True
  | _ => False

/-- A statement with which a worker leaves the rows as they are. -/
def Stmt.Still : Stmt β → Prop
  | .query (.selectJob ..) => True
  | .query (.selectTargets ..) => True
  | .emit .. => True
  | _ => False

/-- A statement of a worker about one of the targets. -/
def Stmt.OnTarget : Stmt β → Prop
  | .query (.selectConnection ..) => True
  | .query (.updateTargetRunning ..) => True
  | .query (.updateTargetComplete ..) => True
  | .query (.updateTargetFailed ..) => True
  | .publish .. => True
  | .emit .. => True
  | _ => False

variable {x : Draw} {b : β} {st : Stmt β}

section Only

variable {P : ∀ {β : Type}, Stmt β → Prop}
  (hP : ∀ {β : Type} {st : Stmt β}, st.OnTarget → P st)

include hP

theorem only_failTarget (job : JobRow) (id : Uuid) (provider : Option ProviderKind) (attempt : ℕ)
    (error : TargetFailure) : Only P (failTarget job id provider attempt error) :=
  Only.bind (Only.query (hP trivial)) fun _ => Only.stmt (hP trivial)

/-- An attempt is made of statements about the target, also when it is repeated. -/
theorem only_publishLoop (job : JobRow) (call : PublishCall) (finalAttempt : ℕ)
    (attempts : List ℕ) : Only P (publishLoop env job call finalAttempt attempts) := by
  induction attempts generalizing finalAttempt with
  | nil => exact only_failTarget hP _ _ _ _ _
  | cons attempt rest ih =>
      unfold publishLoop
      refine Only.bind (Only.query (hP trivial)) fun _ => ?_
      refine Only.bind (Only.stmt (hP trivial)) fun _ => ?_
      refine Only.bind (Only.stmt (hP trivial)) fun answer => ?_
      cases answer with
      | ok publication =>
          refine Only.bind (Only.result _) fun _ => ?_
          exact Only.bind (Only.query (hP trivial)) fun _ => Only.stmt (hP trivial)
      | error error =>
          show Only P (if _ then _ else _)
          split
          · exact Only.bind (Only.stmt (hP trivial)) fun _ => ih attempt
          · exact only_failTarget hP _ _ _ _ _

/-- The turn of a target, whatever it meets with. -/
theorem only_processTarget (job : JobRow) (event : EventDraft) (target : TargetRow) :
    Only P (processTarget env job event target) := by
  unfold processTarget
  split
  · exact Only.throw _
  · split
    · exact only_failTarget hP _ _ _ _ _
    · refine Only.bind (Only.caught (only_getConnection (hP trivial))) fun connection => ?_
      cases connection with
      | error error => exact only_failTarget hP _ _ _ _ _
      | ok connection =>
          show Only P (if _ then _ else _)
          split
          · exact only_failTarget hP _ _ _ _ _
          · split
            · exact only_failTarget hP _ _ _ _ _
            · exact only_publishLoop hP _ _ _ _

theorem only_processTargets (job : JobRow) (event : EventDraft) (targets : List TargetRow) :
    Only P (processTargets env job event targets) := by
  induction targets with
  | nil => exact Only.pure _
  | cons target rest ih => exact Only.bind (only_processTarget hP job event target) fun _ => ih

end Only

/-- A statement about a target is one of a worker, and does not store the status of the job. -/
theorem Stmt.OnTarget.before (h : st.OnTarget) : st.Aside ∧ ¬ st.Finishes := by
  cases st with
  | query q => cases q <;> first | exact h.elim | exact ⟨trivial, id⟩
  | publish call => exact ⟨trivial, id⟩
  | emit job provider status attempt message publication => exact ⟨trivial, id⟩
  | _ => exact h.elim

/-- After the status of its job is stored, a worker leaves the rows as they are. -/
theorem marked_worker (job : JobRow) :
    (worker env job).Marked Stmt.Aside Stmt.Finishes Stmt.Still := by
  refine Prog.Marked.bind ?_ (fun _ => trivial) fun _ => trivial
  refine marked_bind (only_getEvent ⟨trivial, id⟩) fun event => ?_
  refine marked_bind (Only.bind (Only.query ⟨trivial, id⟩) fun _ =>
    Only.query ⟨trivial, id⟩) fun targets => ?_
  refine marked_bind (Only.stmt ⟨trivial, id⟩) fun _ => ?_
  refine marked_bind (only_processTargets Stmt.OnTarget.before job event targets) fun _ => ?_
  refine marked_bind_marked ?_ (fun _ => ?_) fun _ => ?_
  · -- the last statement of `finish_job` is the mark
    refine marked_bind (Only.query ⟨trivial, id⟩) fun _ => ?_
    refine marked_bind (Only.query ⟨trivial, id⟩) fun _ => ?_
    exact ⟨trivial, fun _ => ⟨trivial, fun _ => trivial⟩⟩
  · refine marked_bind (only_getJob ⟨trivial, id⟩ ⟨trivial, id⟩) fun current => ?_
    exact ⟨trivial, fun _ => ⟨trivial, fun _ => trivial⟩⟩
  · exact Only.bind (only_getJob trivial trivial) fun current => Only.stmt trivial

/-! ## What a worker does to the rows -/

/-- A statement after the mark leaves the targets as they are. -/
theorem targets_of_still (hst : st.Still) (hexec : st.exec x w = some (b, w')) :
    w'.targets = w.targets := by
  refine (Stmt.exec_frame hexec).targets ?_
  cases st with
  | query q =>
      cases q with
      | selectJob id userId | selectTargets id => simp
      | _ => exact hst.elim
  | emit job provider status attempt message publication => simp
  | _ => exact hst.elim

theorem Effect.finished_notMem_outcomes (targets : List TargetRow) :
    Effect.finished j ∉ targets.map fun t => Effect.outcome t.jobId t.id := by
  intro h
  obtain ⟨t, -, heq⟩ := List.mem_map.mp h
  cases heq

/-- A job is over when its worker has stored the status. -/
theorem finished_of_aside (hst : st.Aside) (hnot : ¬ st.Finishes)
    (hexec : st.exec x w = some (b, w')) (h : Effect.finished j ∈ w'.trace) :
    Effect.finished j ∈ w.trace := by
  cases st with
  | query q =>
      obtain ⟨text, -, -, rfl⟩ | ⟨-, hexec⟩ := Stmt.exec_query hexec
      · exact h
      · cases q with
        | updateTargetComplete id status result | updateTargetFailed id attempt error =>
            obtain ⟨-, rfl⟩ := Prod.mk.inj (Option.some.inj hexec)
            exact (List.mem_append.mp h).resolve_right (Effect.finished_notMem_outcomes _)
        | updateJobStatus id name => exact absurd trivial hnot
        | upsertConnection => exact hst.elim
        | _ => exact (Query.exec_frame hexec).trace (by simp) ▸ h
  | publish call | emit job provider status attempt message publication =>
      obtain ⟨-, rfl⟩ := Prod.mk.inj (Option.some.inj hexec)
      exact (List.mem_append.mp h).resolve_right (by simp)
  | _ => exact hst.elim

/-! ## The programs of the service -/

/-- A request starts workers that leave the rows alone after the status of the job is stored. -/
def StartsMarked (r : Role) (child : Prog Stmt Role Outcome Outcome) : Prop :=
  ∃ k, r = .worker k ∧ child.Marked Stmt.Aside Stmt.Finishes Stmt.Still

/-- A worker leaves the rows alone after the status of its job is stored. -/
def Concluding (t : Thread Stmt Role Outcome) : Prop :=
  match t.role with
  | .request _ _ => t.prog.Starts (fun _ => True) StartsMarked
  | .worker _ => t.prog.Marked Stmt.Aside Stmt.Finishes Stmt.Still

/-- A handler may start workers, and nothing else. -/
theorem starts_respond (n : ℕ) (q : Request) :
    (respond env n q).Starts (fun _ => True) StartsMarked := by
  have hof : ∀ {α : Type} {p : Api α}, Only (fun _ => True) p →
      p.run.Starts (fun _ => True) StartsMarked := fun hp => Prog.Starts.of_every hp
  refine Prog.Starts.bind ?_ fun _ => trivial
  refine sequential_starts.handle q ?_ (fun hash => hof ?_)
    (fun userId eventId key targets => hof ?_) fun job => ?_
  · exact ⟨fun _ => ⟨trivial, fun _ => trivial⟩, fun _ => ⟨trivial, fun _ => trivial⟩⟩
  · exact only_consumeOauthSession hash trivial trivial trivial trivial
  · exact only_enqueue targets trivial trivial trivial (fun _ => trivial)
      (fun _ _ _ _ => trivial) trivial trivial
  · exact ⟨⟨job.id, rfl, marked_worker job⟩, trivial⟩

/-- What every thread obeys from its start on, it obeys after each of its statements. -/
theorem upheld_concluding (env : Deployment) :
    Upheld (service env) fun _ t => Concluding t where
  step {_ r _ _ _ _ b _} h _ := by
    cases r with
    | request n q => exact h.2 b
    | worker k => exact (h.2 b).1
  fork {r r' _ _ _} h := by
    cases r with
    | request n q =>
        obtain ⟨⟨k, rfl, hchild⟩, hk⟩ := h
        exact ⟨hk, hchild⟩
    | worker k => exact h.elim
  arrival q w := starts_respond w.requests.length q
  exec _ h := h
  enter h := h

/-- In every run the workers leave the rows alone after the mark. -/
theorem concluding_of_reachable (h : Reachable env p) : ∀ t ∈ p.threads, Concluding t := by
  obtain ⟨ls, hrun⟩ := h
  exact (upheld_concluding env).run (by simp [idleService]) hrun

/-- What a statement of a reachable service guarantees. -/
theorem guar_of_turn {r : Role} {k : β → Prog Stmt Role Outcome Outcome} (h : Reachable env p)
    (ht : ⟨r, .step st k⟩ ∈ p.threads) (hexec : st.exec x p.shared = some (b, w')) :
    Guar r p.shared w' := by
  have hok := h.poolOk
  obtain ⟨-, hstep⟩ := hok.wp _ ht p.shared (Rely.refl r _) hok.inv (hok.taken _ ht)
  exact (hstep x b w' trivial hexec).1

/-! ## Runs -/

/-- If the job is over, its worker leaves the rows as they are. -/
def Resting (j : Uuid) (p : Pool Stmt Role Outcome World) : Prop :=
  Effect.finished j ∈ p.shared.trace →
    ∀ prog, ⟨.worker j, prog⟩ ∈ p.threads → prog.Every Stmt.Still

/-- A step of a run: the statement by which the job gets over is the mark of its own worker,
and no worker is started for a job that is over. -/
theorem Resting.act (h : Resting j p) (hp : Reachable env p)
    (hact : p.act (service env) l = some p') : Resting j p' := by
  have hinv : Inv env p.shared := hp.poolOk.inv
  have hp' : Reachable env p' := hp.run (Pool.run_singleton hact)
  intro hfinished prog' hprog'
  cases l with
  | arrive q =>
      obtain rfl := Option.some.inj hact
      refine h hfinished prog' ((List.mem_append.mp hprog').resolve_right fun hnew => ?_)
      cases List.mem_singleton.mp hnew
  | turn i x =>
      obtain ⟨⟨r, prog⟩, hi, hturn⟩ := Option.bind_eq_some_iff.mp hact
      have ht : ⟨r, prog⟩ ∈ p.threads := List.mem_of_getElem? hi
      have hlt := (List.getElem?_eq_some_iff.mp hi).1
      have hconcluding : Concluding ⟨r, prog⟩ := concluding_of_reachable hp _ ht
      cases prog with
      | pure a => cases hturn
      | step st k =>
          obtain ⟨⟨b, w'⟩, hexec, rfl⟩ := Option.map_eq_some_iff.mp hturn
          have hgoes : ⟨r, k b⟩ ∈ p.threads.set i ⟨r, k b⟩ :=
            List.mem_of_getElem? (List.getElem?_set_self hlt)
          by_cases hr : r = .worker j
          · subst hr
            have hmarked : (Prog.step st k).Marked Stmt.Aside Stmt.Finishes Stmt.Still :=
              hconcluding
            obtain ⟨-, hsame⟩ := Thread.mk.inj (hp'.poolOk.eq_of_role hprog' hgoes rfl)
            subst hsame
            by_cases hbefore : Effect.finished j ∈ p.shared.trace
            · exact (h hbefore _ ht).2 b
            · -- the job is over since this statement
              have hfinishes : st.Finishes := by
                by_contra hnot
                exact hbefore (finished_of_aside hmarked.1 hnot hexec hfinished)
              exact (hmarked.2 b).2 hfinishes
          · have hstays : ⟨.worker j, prog'⟩ ∈ p.threads :=
              (List.mem_or_eq_of_mem_set hprog').resolve_right fun heq =>
                hr (Thread.mk.inj heq).1.symm
            have hrely : RelyWorker j p.shared w' :=
              (guar_of_turn hp ht hexec).others _ hr (hp.poolOk.taken _ hstays)
            exact h (hrely.traced _ rfl hfinished) prog' hstays
      | fork r' child k =>
          obtain rfl := Option.some.inj hturn
          cases r with
          | worker m => exact hconcluding.elim
          | request m q =>
              obtain ⟨⟨m', rfl, -⟩, -⟩ := hconcluding
              have htrace : Effect.finished j ∈ p.shared.trace := hfinished
              rcases List.mem_append.mp hprog' with hold | hnew
              · exact h htrace prog' ((List.mem_or_eq_of_mem_set hold).resolve_right nofun)
              · -- the job of a worker that is started is not over
                obtain ⟨hj, -⟩ := Thread.mk.inj (List.mem_singleton.mp hnew)
                obtain ⟨hfree, -⟩ := hp.poolOk.wp _ ht p.shared ((ownership env).rely_refl _ _)
                  hinv (hp.poolOk.taken _ ht)
                refine absurd (hinv.jobTraced _ htrace j rfl) fun htaken => hfree ?_
                rw [← hj]
                exact htaken

/-- In every run the worker of a job that is over leaves the rows as they are. -/
theorem resting_of_reachable (h : Reachable env p) : Resting j p :=
  Pool.Reaches.induct h (fun hfinished => nomatch hfinished) fun hq h hact => h.act hq hact

/-- No step changes the targets of a job that is over. -/
theorem targets_act (hp : Reachable env p) (hfinished : Effect.finished j ∈ p.shared.trace)
    (hact : p.act (service env) l = some p') {v : Version TargetRow} (hv : v.row.jobId = j) :
    v ∈ p'.shared.targets ↔ v ∈ p.shared.targets := by
  have henter : ∀ r, (World.enter r p.shared).targets = p.shared.targets := by
    intro r
    cases r <;> rfl
  cases l with
  | arrive q =>
      obtain rfl := Option.some.inj hact
      exact iff_of_eq (congrArg (v ∈ ·) (henter _))
  | turn i x =>
      obtain ⟨⟨r, prog⟩, hi, hturn⟩ := Option.bind_eq_some_iff.mp hact
      have ht : ⟨r, prog⟩ ∈ p.threads := List.mem_of_getElem? hi
      cases prog with
      | pure a => cases hturn
      | step st k =>
          obtain ⟨⟨b, w'⟩, hexec, rfl⟩ := Option.map_eq_some_iff.mp hturn
          by_cases hr : r = .worker j
          · subst hr
            have hstill := (resting_of_reachable hp hfinished _ ht).1
            exact iff_of_eq (congrArg (v ∈ ·) (targets_of_still hstill hexec))
          · have hinv : Inv env p.shared := hp.poolOk.inv
            have htaken : Taken p.shared (.worker j) := hinv.jobTraced _ hfinished j rfl
            have hrely : RelyWorker j p.shared w' := (guar_of_turn hp ht hexec).others _ hr htaken
            exact hrely.targets v hv
      | fork r' child k =>
          obtain rfl := Option.some.inj hturn
          exact iff_of_eq (congrArg (v ∈ ·) (henter _))

/-! ## Terminal statuses -/

/-- A status is terminal before a query, or the query stores it. -/
theorem terminal_of_query {q : Query β} {a : Except DbError β}
    (hexec : q.exec x w = some (a, w')) {v' : Version JobRow} (hv' : v' ∈ w'.jobs)
    (hterminal : Terminal v'.row.status) :
    (∃ v ∈ w.jobs, v.row.id = v'.row.id ∧ Terminal v.row.status) ∨
      Effect.finished v'.row.id ∈ w'.trace := by
  cases q with
  | commit n =>
      obtain ⟨-, rfl⟩ := Prod.mk.inj (Option.some.inj hexec)
      obtain ⟨v, hv, -, hrow, -⟩ := Table.exists_of_mem_commit hv'
      exact Or.inl ⟨v, hv, by rw [hrow], by rwa [hrow]⟩
  | insertJob n userId eventId key =>
      obtain ⟨e, -, rfl⟩ | ⟨row, -, rfl, -, -, -, -, hstatus, -⟩ := insertJob_cases hexec
      · exact Or.inl ⟨v', hv', rfl, hterminal⟩
      · rcases Table.mem_insert.mp hv' with hv | rfl
        · exact Or.inl ⟨v', hv, rfl, hterminal⟩
        · rw [hstatus] at hterminal
          exact absurd hterminal (by decide)
  | updateJobRunning id =>
      obtain ⟨-, rfl⟩ := Prod.mk.inj (Option.some.inj hexec)
      rw [jobs_updateJob] at hv'
      obtain ⟨v, hv, -, -, hrow⟩ := Table.exists_of_mem_update hv'
      split at hrow
      · rw [hrow] at hterminal
        exact absurd hterminal (show ¬ Terminal "running" by decide)
      · exact Or.inl ⟨v, hv, by rw [hrow], by rwa [hrow] at hterminal⟩
  | updateJobStatus id status =>
      obtain ⟨-, rfl⟩ := Prod.mk.inj (Option.some.inj hexec)
      change v' ∈ w.jobs.update (fun j => j.id = id)
        (fun j => { j with status, updatedAt := x.now }) at hv'
      obtain ⟨v, hv, -, -, hrow⟩ := Table.exists_of_mem_update hv'
      split at hrow
      · next hsel =>
          have hid : v.row.id = id := of_decide_eq_true (Bool.and_eq_true_iff.mp hsel).2
          refine Or.inr (List.mem_append_right _ (List.mem_singleton.mpr ?_))
          rw [hrow]
          exact congrArg Effect.finished hid
      · exact Or.inl ⟨v, hv, by rw [hrow], by rwa [hrow] at hterminal⟩
  | _ =>
      have hjobs : w'.jobs = w.jobs := (Query.exec_frame hexec).jobs (by simp)
      exact Or.inl ⟨v', hjobs ▸ hv', rfl, hterminal⟩

theorem terminal_of_exec (hexec : st.exec x w = some (b, w')) {v' : Version JobRow}
    (hv' : v' ∈ w'.jobs) (hterminal : Terminal v'.row.status) :
    (∃ v ∈ w.jobs, v.row.id = v'.row.id ∧ Terminal v.row.status) ∨
      Effect.finished v'.row.id ∈ w'.trace := by
  have hsame : w'.jobs = w.jobs →
      (∃ v ∈ w.jobs, v.row.id = v'.row.id ∧ Terminal v.row.status) ∨
        Effect.finished v'.row.id ∈ w'.trace := fun hjobs =>
    Or.inl ⟨v', hjobs ▸ hv', rfl, hterminal⟩
  cases st with
  | query q =>
      obtain ⟨text, -, -, rfl⟩ | ⟨-, hexec⟩ := Stmt.exec_query hexec
      · exact hsame rfl
      · exact terminal_of_query hexec hv' hterminal
  | rollback n =>
      obtain ⟨-, rfl⟩ := Prod.mk.inj (Option.some.inj hexec)
      exact Or.inl ⟨v', (Table.mem_rollback.mp hv').1, rfl, hterminal⟩
  | _ => exact hsame ((Stmt.exec_frame hexec).jobs (by simp))

/-- Every job with a terminal status is over. -/
def Definite (w : World) : Prop :=
  ∀ v ∈ w.jobs, Terminal v.row.status → Effect.finished v.row.id ∈ w.trace

theorem Definite.act (h : Definite p.shared) (hp : Reachable env p)
    (hact : p.act (service env) l = some p') : Definite p'.shared := by
  intro v' hv' hterminal
  have htrace : p.shared.trace <+: p'.shared.trace :=
    (evolves_of_reaches hp (Pool.Reaches.act hact)).trace
  have hbefore : (∃ v ∈ p.shared.jobs, v.row.id = v'.row.id ∧ Terminal v.row.status) ∨
      Effect.finished v'.row.id ∈ p'.shared.trace := by
    refine Pool.act_rel (T := fun w w' => v' ∈ w'.jobs →
      (∃ v ∈ w.jobs, v.row.id = v'.row.id ∧ Terminal v.row.status) ∨
        Effect.finished v'.row.id ∈ w'.trace) (fun st x w b w' hexec hv => ?_)
      (fun r w hv => Or.inl ⟨v', ?_, rfl, hterminal⟩) hact hv'
    · exact terminal_of_exec hexec hv hterminal
    · cases r <;> exact hv
  rcases hbefore with ⟨v, hv, hid, hold⟩ | hfinished
  · exact hid ▸ htrace.subset (h v hv hold)
  · exact hfinished

theorem definite_of_reachable (h : Reachable env p) : Definite p.shared :=
  Pool.Reaches.induct (I := fun p => Definite p.shared) h (fun _ hv => nomatch hv)
    fun hq h hact => h.act hq hact

end Service
