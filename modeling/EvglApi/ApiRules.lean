/-
# Rules for handlers and workers

The rules of `Keeps`, `Returns` and `Only` for the combinators of `Api`, and the statements
of the worker and of the handlers that several developments look at.
-/
import EvglApi.Alone
import EvglApi.Endings
import EvglApi.Service

open Concurrency

namespace Service

variable {env : Deployment} {D : Discipline (service env)} {r : Role} {w : World} {α : Type}
  {Q : α → World → Prop} {E : ApiError → World → Prop}

namespace Keeps

/-- A statement of the database fails as the draw says, or is executed. -/
theorem query {q : Query α}
    (h : ∀ w', D.rely r w w' → D.inv w' → D.taken w' r → D.needs r (.query q) w' ∧
      (∀ x text, x.fails = some text → D.assume r (.query q) x w' →
        D.guar r w' w' ∧ E (.ofDb (.failure text)) w') ∧
      ∀ x a w'', x.fails = none → D.assume r (.query q) x w' → q.exec x w' = some (a, w'') →
        D.guar r w' w'' ∧ D.inv w'' ∧ either Q E (a.mapError .ofDb) w'') :
    Keeps D r (Api.query q) Q E w := by
  refine Keeps.attempt fun w' hrely hinv htaken => ?_
  obtain ⟨hneeds, hfails, hexec⟩ := h w' hrely hinv htaken
  refine ⟨hneeds, fun x a w'' hassume hstep => ?_⟩
  change Stmt.exec (.query q) x w' = some (a, w'') at hstep
  rcases Stmt.exec_query hstep with ⟨text, hx, rfl, rfl⟩ | ⟨hx, hstep⟩
  · obtain ⟨hguar, herror⟩ := hfails x text hx hassume
    exact ⟨hguar, hinv, herror⟩
  · exact hexec x a w'' hx hassume hstep

/-- A program whose error rolls the transaction back: the error is passed on after the
rollback. -/
theorem rollbackOnError {n : ℕ} {p : Api α}
    (h : Keeps D r p Q
      (fun e => D.wp r (.step (.rollback n) fun _ => .pure (.error e)) (either Q E)) w) :
    Keeps D r (Api.rollbackOnError n p) Q E w := by
  show D.wp r (p.run.bind _) (either Q E) w
  rw [Discipline.wp_bind]
  refine Discipline.wp_mono (fun a w h => ?_) h
  cases a with
  | ok a => exact h
  | error e => exact h

/-- Starting a program: it is new, starting it is a step of the parent, and it keeps the
discipline from there. -/
theorem spawn {r' : Role} {child : Prog Stmt Role Outcome Outcome} {Q : Unit → World → Prop}
    (h : ∀ w', D.rely r w w' → D.inv w' → D.taken w' r →
      ¬ D.taken w' r' ∧ D.guar r w' (w'.enter r') ∧ D.inv (w'.enter r') ∧
        D.taken (w'.enter r') r' ∧ D.wp r' child (D.post r') (w'.enter r') ∧ Q () (w'.enter r')) :
    Keeps D r (Api.spawn r' child) Q E w := h

end Keeps

namespace Returns

variable {ok : ∀ {β : Type}, Stmt β → Draw → World → Prop} {q : Query α}

/-- A statement of the database that can be executed fails as the draw says, or does what
it does. -/
theorem query (hexec : ∀ x, ok (.query q) x w → ∃ r, Stmt.exec (.query q) x w = some r)
    (hfails : ∀ x text, ok (.query q) x w → x.fails = some text → E (.ofDb (.failure text)) w)
    (h : ∀ x a w', x.fails = none → q.exec x w = some (a, w') → either Q E (a.mapError .ofDb) w') :
    Returns (service env) ok (Api.query q) Q E w := by
  refine Returns.attempt fun x hx => ?_
  obtain ⟨⟨a, w'⟩, hstep⟩ := hexec x hx
  refine ⟨a, w', hstep, ?_⟩
  rcases Stmt.exec_query hstep with ⟨text, hfail, rfl, rfl⟩ | ⟨hnone, hstep⟩
  · exact hfails x text hx hfail
  · exact h x a w' hnone hstep

/-- A statement that never waits. -/
theorem query_of_eq {f : Draw → Except DbError α × World} (hq : ∀ x, q.exec x w = some (f x))
    (hfails : ∀ x text, ok (.query q) x w → x.fails = some text → E (.ofDb (.failure text)) w)
    (h : ∀ x, x.fails = none → either Q E ((f x).1.mapError .ofDb) (f x).2) :
    Returns (service env) ok (Api.query q) Q E w := by
  refine Returns.query (fun x _ => ?_) hfails fun x a w' hnone hstep => ?_
  · cases hx : x.fails with
    | some text => exact ⟨_, by rw [Stmt.exec, hx]⟩
    | none => exact ⟨_, by rw [Stmt.exec, hx]; exact hq x⟩
  · rw [hq x] at hstep
    have hr := h x hnone
    rw [Option.some.inj hstep] at hr
    exact hr

/-- A program in a transaction, which an error rolls back. -/
theorem transaction {n : ℕ} {p : Api α}
    (hbegin : ∀ x text, ok (.query (.begin n)) x w → x.fails = some text →
      E (.ofDb (.failure text)) w)
    (h : Returns (service env) ok p Q (fun e w' => E e (w'.rollback n)) w) :
    Returns (service env) ok (Api.transaction n p) Q E w := by
  refine Returns.bind (Returns.query_of_eq (fun _ => rfl) hbegin fun x _ => ?_)
  show (p.run.bind _).Ends _ _ _ w
  refine Prog.Ends.bind (Prog.Ends.mono h fun a w' h => ?_)
  cases a with
  | ok a => exact h
  | error e => exact fun x _ => ⟨(), w'.rollback n, rfl, h⟩

end Returns

namespace Only

variable {P : ∀ {β : Type}, Stmt β → Prop}

theorem query {k : Query α} (h : P (.query k)) : Only P (Api.query k) := Only.attempt h

/-- The statements of a program in a transaction, with the `begin` and the `rollback` around
them. -/
theorem transaction {n : ℕ} {p : Api α} (hbegin : P (.query (.begin n)))
    (hrollback : P (.rollback n)) (hp : Only P p) : Only P (Api.transaction n p) := by
  refine Only.bind (query hbegin) fun _ => ?_
  show (p.run.bind _).Every _
  refine Prog.Every.bind hp fun a => ?_
  cases a with
  | ok a => trivial
  | error e => exact ⟨hrollback, fun _ => trivial⟩

end Only

/-! ## What the handlers make of documents -/

/-- The event of a document that was selected. -/
def readEvent (env : Deployment) (document : Value) : Except ApiError EventDraft :=
  (env.eventFromValue document).mapError fun e => .internal (.json e)

/-- The reply of `events::list`, for the user's rows in their order. -/
def listedEvents (env : Deployment) (rows : List EventRow) : Except ApiError Response :=
  (((rows.take 100).map (·.document)).mapM (readEvent env)).map .events

/-! ## The statements of the handlers -/

variable {P : ∀ {β : Type}, Stmt β → Prop} {userId id : Uuid}

theorem only_getEvent (h : P (.query (.selectEventDocument id userId))) :
    Only P (Store.getEvent env userId id) := by
  refine Only.bind (Only.query h) fun document => ?_
  cases document with
  | none => exact Only.throw _
  | some document => exact Only.result _

theorem only_getConnection (h : P (.query (.selectConnection id userId))) :
    Only P (Store.getConnection userId id) := by
  refine Only.bind (Only.query h) fun connection => ?_
  cases connection with
  | none => exact Only.throw _
  | some connection => exact Only.pure _

/-- `get_job` selects the job and, if it is there, its targets. -/
theorem only_getJob (hjob : P (.query (.selectJob id userId)))
    (htargets : P (.query (.selectTargets id))) : Only P (Store.getJob userId id) := by
  refine Only.bind (Only.query hjob) fun job => ?_
  cases job with
  | none => exact Only.throw _
  | some job => exact Only.bind (Only.query htargets) fun _ => Only.pure _

/-- `enqueue_targets` looks each connection up and inserts the target, one after the other.
-/
theorem only_enqueueTargets {n : ℕ} {jobId : Uuid}
    (hselect : ∀ id, P (.query (.selectConnectionProvider n id userId)))
    (hinsert : ∀ id name options, P (.query (.insertTarget n jobId id name options)))
    (targets : List PublishTarget) : Only P (Store.enqueueTargets env n userId jobId targets) := by
  induction targets with
  | nil => exact Only.pure _
  | cons target targets ih =>
      refine Only.bind (Only.query (hselect _)) (Only.option (Only.throw _) fun provider => ?_)
      show Only _ (if _ then _ else _)
      split
      · exact Only.throw _
      · exact Only.bind (Only.query (hinsert _ _ _)) fun _ => ih

/-- `events::create` draws an id, inserts the document and sends the event. -/
theorem only_createEvent (input : CreateEventInput) (huuid : P .newUuid)
    (hinsert : ∀ id document, P (.query (.insertEvent id userId document)))
    (hsend : ∀ event, P (.sendEvent event)) : Only P (Events.create env userId input) := by
  refine Only.bind (Only.stmt huuid) fun id => ?_
  refine Only.bind ?_ fun _ => Only.bind (Only.stmt (hsend _)) fun _ => Only.pure _
  refine Only.bind (Only.result _) fun _ => ?_
  exact Only.bind (Only.result _) fun document => Only.query (hinsert id document)

/-- `create_manual` may draw a secret, encrypts the tokens and upserts the connection. -/
theorem only_createManual (input : ManualConnectionInput)
    (hrandom : ∀ bytes, P (.randomUrlsafe bytes)) (hencrypt : ∀ aad tokens, P (.encrypt aad tokens))
    (hupsert : ∀ provider envelope, P (.query (.upsertConnection userId provider input.accountKey
      input.displayName input.metadata envelope))) :
    Only P (Oauth.createManual env userId input) := by
  unfold Oauth.createManual
  cases env.providers input.provider with
  | none => exact Only.throw _
  | some adapter =>
      show Only P (if _ then _ else if _ then _ else _)
      split
      · exact Only.throw _
      · split
        · exact Only.throw _
        · refine Only.bind (Only.result _) fun _ => Only.bind ?_ fun _ => ?_
          · cases input.secret with
            | none => exact Only.stmt (hrandom _)
            | some secret => exact Only.pure _
          · refine Only.bind (Only.attempt (hencrypt _ _)) fun _ => ?_
            exact Only.bind (Only.query (hupsert _ _)) fun _ => Only.pure _

theorem only_deleteConnection (h : P (.query (.deleteConnection id userId))) :
    Only P (Oauth.deleteConnection userId id) := by
  refine Only.bind ?_ fun _ => Only.pure _
  refine Only.bind (Only.query h) fun rows => ?_
  show Only P (if _ then _ else _)
  split
  · exact Only.throw _
  · exact Only.pure _

/-! ## The statements of the worker -/

/-- A statement of a worker. -/
def Stmt.Aside : Stmt β → Prop
  | .query (.selectEventDocument ..) => True
  | .query (.selectConnection ..) => True
  | .query (.selectJob ..) => True
  | .query (.selectTargets ..) => True
  | .query (.updateJobRunning ..) => True
  | .query (.updateTargetRunning ..) => True
  | .query (.updateTargetComplete ..) => True
  | .query (.updateTargetFailed ..) => True
  | .query (.countTargets ..) => True
  | .query (.updateJobStatus ..) => True
  | .publish .. => True
  | .emit .. => True
  | _ => False

/-- The statement with which the worker announces that job `j` is finished. -/
def Stmt.Announces (j : Uuid) : Stmt β → Prop
  | .emit job provider _ _ message _ => job.id = j ∧ provider = none ∧ message = "job finished"
  | _ => False

/-- A statement of the worker of job `j`, which emits updates about this job only. -/
def Stmt.OfWorker (j : Uuid) (st : Stmt β) : Prop :=
  st.Aside ∧ match st with
    | .emit job _ _ _ _ _ => job.id = j
    | _ => True

theorem ofWorker_failTarget (job : JobRow) (id : Uuid) (provider : Option ProviderKind)
    (attempt : ℕ) (error : TargetFailure) :
    Only (Stmt.OfWorker job.id) (failTarget job id provider attempt error) :=
  Only.bind (Only.query ⟨trivial, trivial⟩) fun _ => Only.stmt ⟨trivial, rfl⟩

/-- Each attempt is an update of the row, an announcement and a call; the last of them
stores the outcome or the failure. -/
theorem ofWorker_publishLoop (job : JobRow) (call : PublishCall) (finalAttempt : ℕ)
    (attempts : List ℕ) :
    Only (Stmt.OfWorker job.id) (publishLoop env job call finalAttempt attempts) := by
  induction attempts generalizing finalAttempt with
  | nil => exact ofWorker_failTarget _ _ _ _ _
  | cons attempt rest ih =>
      unfold publishLoop
      refine Only.bind (Only.query ⟨trivial, trivial⟩) fun _ => ?_
      refine Only.bind (Only.stmt ⟨trivial, rfl⟩) fun _ => ?_
      refine Only.bind (Only.stmt ⟨trivial, trivial⟩) fun answer => ?_
      cases answer with
      | ok publication =>
          refine Only.bind (Only.result _) fun _ => ?_
          refine Only.bind (Only.query ⟨trivial, trivial⟩) fun _ => ?_
          exact Only.stmt ⟨trivial, rfl⟩
      | error error =>
          show Only (Stmt.OfWorker job.id) (if _ then _ else _)
          split
          · exact Only.bind (Only.stmt ⟨trivial, rfl⟩) fun _ => ih attempt
          · exact ofWorker_failTarget _ _ _ _ _

/-- Whatever `process_target` meets with, it works on its own job. -/
theorem ofWorker_processTarget (job : JobRow) (event : EventDraft) (target : TargetRow) :
    Only (Stmt.OfWorker job.id) (processTarget env job event target) := by
  unfold processTarget
  split
  · exact Only.throw _
  · split
    · exact ofWorker_failTarget _ _ _ _ _
    · refine Only.bind (Only.caught (only_getConnection ⟨trivial, trivial⟩)) fun connection => ?_
      cases connection with
      | error error => exact ofWorker_failTarget _ _ _ _ _
      | ok connection =>
          show Only (Stmt.OfWorker job.id) (if _ then _ else _)
          split
          · exact ofWorker_failTarget _ _ _ _ _
          · split
            · exact ofWorker_failTarget _ _ _ _ _
            · exact ofWorker_publishLoop _ _ _ _

theorem ofWorker_processTargets (job : JobRow) (event : EventDraft) (targets : List TargetRow) :
    Only (Stmt.OfWorker job.id) (processTargets env job event targets) := by
  induction targets with
  | nil => exact Only.pure _
  | cons target rest ih => exact Only.bind (ofWorker_processTarget job event target) fun _ => ih

theorem ofWorker_claimTargets (jobId : Uuid) :
    Only (Stmt.OfWorker id) (Store.claimTargets jobId) :=
  Only.bind (Only.query ⟨trivial, trivial⟩) fun _ => Only.query ⟨trivial, trivial⟩

/-- `finish_job` counts twice and stores the status. -/
theorem ofWorker_finishJob (jobId : Uuid) : Only (Stmt.OfWorker id) (Store.finishJob jobId) :=
  Only.bind (Only.query ⟨trivial, trivial⟩) fun _ =>
    Only.bind (Only.query ⟨trivial, trivial⟩) fun _ => Only.query ⟨trivial, trivial⟩

/-- A worker that returns well has just announced its job. -/
theorem endsOn_runWorker (job : JobRow) :
    (runWorker env job).run.EndsOn (Stmt.OfWorker job.id) (Stmt.Announces job.id) (· = .ok ()) := by
  refine endsOn_bind nofun (only_getEvent ⟨trivial, trivial⟩) fun event => ?_
  refine endsOn_bind nofun (ofWorker_claimTargets job.id) fun targets => ?_
  refine endsOn_bind nofun (Only.stmt ⟨trivial, rfl⟩) fun _ => ?_
  refine endsOn_bind nofun (ofWorker_processTargets job event targets) fun _ => ?_
  refine endsOn_bind nofun (ofWorker_finishJob job.id) fun _ => ?_
  refine endsOn_bind nofun (only_getJob ⟨trivial, trivial⟩ ⟨trivial, trivial⟩) fun current => ?_
  exact ⟨⟨trivial, rfl⟩, fun _ => Or.inr ⟨⟨rfl, rfl, rfl⟩, _, rfl⟩⟩

/-- The outcome of a worker tells whether it has just announced its job. -/
theorem endsOn_worker (job : JobRow) :
    (worker env job).EndsOn (Stmt.OfWorker job.id) (Stmt.Announces job.id)
      (· = .finished (.ok ())) := by
  refine Prog.EndsOn.map Outcome.finished ?_
  simpa only [Outcome.finished.injEq] using endsOn_runWorker job

/-- Whatever it ends with, `run` executes statements of a worker only. -/
theorem aside_runWorker (job : JobRow) : Only Stmt.Aside (runWorker env job) :=
  Prog.Every.mono (fun h => h.1) (endsOn_runWorker job).every

theorem aside_worker (job : JobRow) : (worker env job).Every Stmt.Aside :=
  Prog.Every.bind (aside_runWorker job) fun _ => trivial

end Service
