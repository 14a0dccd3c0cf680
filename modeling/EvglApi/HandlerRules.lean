/-
# Handlers as sequences

A handler is a sequence of statements, with at most one transaction and at most one start of a
worker.  Whatever is closed under sequences holds of a handler if it holds of these parts.

* `Sequential` is closure under sequences that may return early.
* `Stmt.Outside` lists the statements of a request outside of its transaction.
* `Sequential.handle` is the rule for all handlers.
-/
import EvglApi.ApiRules

open Concurrency

namespace Service

open Api Tries

/-- A property of programs that holds of a sequence if it holds of its parts. -/
structure Sequential (Q : ∀ {α : Type}, Api α → Prop) : Prop where
  pure : ∀ {α : Type} (a : α), Q (Pure.pure a)
  throw : ∀ {α : Type} (e : ApiError), Q (MonadExcept.throw e : Api α)
  bind : ∀ {α β : Type} {p : Api α} {f : α → Api β}, Q p → (∀ a, Q (f a)) → Q (p >>= f)

/-- The statements of a request outside of its transaction. -/
def Stmt.Outside (q : Request) {β : Type} : Stmt β → Prop
  | .query (.insertOauthSession ..) => True
  | .query (.upsertConnection ..) => True
  | .query (.selectConnections ..) => True
  | .query (.deleteConnection ..) => True
  | .query (.selectEventDocument ..) => True
  | .query (.selectEventDocuments ..) => True
  | .query (.selectJob ..) => True
  | .query (.selectTargets ..) => True
  | .query (.insertEvent ..) => ∃ user input, q = .createEvent user input
  | .newUuid => ∃ user input, q = .createEvent user input
  | .sendEvent _ => ∃ user input, q = .createEvent user input
  | .randomUrlsafe _ => True
  | .encrypt .. => True
  | .exchangeCode .. => True
  | .resolveAccounts .. => True
  | _ => False

variable {env : Deployment} {n : ℕ} {userId : Uuid} {Q : ∀ {α : Type}, Api α → Prop}

namespace Sequential

/-- A result that is at hand is a sequence without statements. -/
theorem result (hQ : Sequential Q) {α : Type} (r : Except ApiError α) : Q (Tries.result r) := by
  cases r with
  | ok a => exact hQ.pure a
  | error e => exact hQ.throw e

/-- What is done with an optional row. -/
theorem option {α β : Type} {f : Option α → Api β} (hnone : Q (f none))
    (hsome : ∀ a, Q (f (some a)))
    (row : Option α) : Q (f row) := by
  cases row with
  | none => exact hnone
  | some a => exact hsome a

/-- Every single statement outside of a transaction has the property. -/
structure Covers (Q : ∀ {α : Type}, Api α → Prop) (q : Request) : Prop where
  stmt : ∀ {β : Type} {st : Stmt β}, st.Outside q → Q (Tries.stmt st)
  attempt : ∀ {ε β : Type} {wrap : ε → ApiError} {st : Stmt (Except ε β)}, st.Outside q →
    Q (Tries.attempt wrap st)

variable {q : Request}

/-- A query outside of a transaction is one of the statements. -/
theorem Covers.query (h : Covers Q q) {β : Type} {k : Query β} (hk : Stmt.Outside q (.query k)) :
    Q (Api.query k) := h.attempt hk

theorem getEvent (hQ : Sequential Q) (h : Covers Q q) (id : Uuid) :
    Q (Store.getEvent env userId id) :=
  hQ.bind (h.query trivial) (option (hQ.throw _) fun _ => hQ.result _)

/-- `events::create` of the request itself: the statements that only such a request may
execute. -/
theorem create (hQ : Sequential Q) {input : CreateEventInput}
    (h : Covers Q (.createEvent userId input)) : Q (Events.create env userId input) := by
  refine hQ.bind (h.stmt ⟨_, _, rfl⟩) fun id => hQ.bind ?_ fun _ => ?_
  · refine hQ.bind (hQ.result _) fun _ => hQ.bind (hQ.result _) fun document => ?_
    exact h.query ⟨_, _, rfl⟩
  · exact hQ.bind (h.stmt ⟨_, _, rfl⟩) fun _ => hQ.pure _

/-- `cross_post` reads the event, enqueues the job, and starts a worker if the job is new.
-/
theorem crossPost (hQ : Sequential Q) (h : Covers Q q) {eventId : Uuid} {key : Option String}
    {targets : List PublishTarget}
    (henqueue : ∀ key, Q (Store.enqueueJob env n userId eventId key targets))
    (hspawn : ∀ job : JobRow, Q (Api.spawn (.worker job.id) (worker env job))) :
    Q (Events.crossPost env n userId eventId key targets) := by
  cases key with
  | none => exact hQ.throw _
  | some key =>
      refine hQ.bind (hQ.result _) fun _ => hQ.bind (hQ.getEvent h eventId) fun _ => ?_
      refine hQ.bind (henqueue key) fun enqueued => ?_
      show Q (if _ then _ else _)
      split
      · exact hQ.bind (hspawn enqueued.job) fun _ => hQ.pure _
      · exact hQ.pure _

/-- `oauth::start` up to the insertion of the session, with every early return. -/
theorem start (hQ : Sequential Q) (h : Covers Q q) (provider : String) :
    Q (Oauth.start env n userId provider) := by
  refine hQ.bind (hQ.result _) fun provider => ?_
  cases env.providers provider with
  | none => exact hQ.throw _
  | some adapter =>
      show Q (if _ then _ else _)
      split
      · exact hQ.throw _
      · refine hQ.bind (h.stmt trivial) fun _ => hQ.bind (h.stmt trivial) fun _ => ?_
        refine hQ.bind (hQ.result _) fun _ => ?_
        exact hQ.bind (h.query trivial) fun _ => hQ.pure _

/-- The loop of `oauth::callback` over the accounts. -/
theorem connectAccounts (hQ : Sequential Q) (h : Covers Q q) (provider : ProviderKind)
    (tokens : TokenSet) (accounts : List Account) :
    Q (Oauth.connectAccounts env userId provider tokens accounts) := by
  induction accounts with
  | nil => exact hQ.pure _
  | cons account accounts ih =>
      refine hQ.bind (h.attempt trivial) fun _ => hQ.bind (h.query trivial) fun _ => ?_
      exact hQ.bind ih fun _ => hQ.pure _

/-- `oauth::callback` consumes the session first, whatever it refuses later. -/
theorem callback (hQ : Sequential Q) (h : Covers Q q) (provider : String) (query : CallbackQuery)
    (hconsume : ∀ stateHash, Q (Store.consumeOauthSession n stateHash)) :
    Q (Oauth.callback env n provider query) := by
  unfold Oauth.callback
  cases query.error with
  | some error => exact hQ.throw _
  | none =>
      refine hQ.bind (hconsume _) fun session => ?_
      refine hQ.bind (hQ.result _) fun provider => hQ.bind (hQ.result _) fun path => ?_
      show Q (if _ then _ else if _ then _ else _)
      split
      · exact hQ.throw _
      · split
        · exact hQ.throw _
        · cases query.code with
          | none => exact hQ.throw _
          | some code =>
              refine hQ.bind (h.attempt trivial) fun _ => hQ.bind (h.attempt trivial) fun _ => ?_
              refine hQ.bind (hQ.connectAccounts h _ _ _) fun _ => ?_
              exact hQ.bind (hQ.result _) fun _ => hQ.pure _

/-- `create_manual` with a given secret or one that is drawn. -/
theorem createManual (hQ : Sequential Q) (h : Covers Q q) (input : ManualConnectionInput) :
    Q (Oauth.createManual env userId input) := by
  unfold Oauth.createManual
  cases env.providers input.provider with
  | none => exact hQ.throw _
  | some adapter =>
      show Q (if _ then _ else if _ then _ else _)
      split
      · exact hQ.throw _
      · split
        · exact hQ.throw _
        · refine hQ.bind (hQ.result _) fun _ => hQ.bind ?_ fun _ => ?_
          · cases input.secret with
            | none => exact h.stmt trivial
            | some secret => exact hQ.pure _
          · refine hQ.bind (h.attempt trivial) fun _ => ?_
            exact hQ.bind (h.query trivial) fun _ => hQ.pure _

/-- The rule for all handlers. -/
theorem handle (hQ : Sequential Q) (q : Request) (h : Covers Q q)
    (hconsume : ∀ stateHash, Q (Store.consumeOauthSession n stateHash))
    (henqueue : ∀ userId eventId key targets, Q (Store.enqueueJob env n userId eventId key targets))
    (hspawn : ∀ job : JobRow, Q (Api.spawn (.worker job.id) (worker env job))) :
    Q (Service.handle env n q) := by
  cases q with
  | createEvent user input => exact hQ.create h
  | listEvents user =>
      refine hQ.bind (hQ.bind (h.query trivial) fun _ => hQ.result _) fun _ => ?_
      exact hQ.pure _
  | getEvent user id => exact hQ.bind (hQ.getEvent h id) fun _ => hQ.pure _
  | crossPost user eventId key targets =>
      exact hQ.crossPost h (henqueue user eventId · targets) hspawn
  | getJob user id =>
      refine hQ.bind (hQ.bind (h.query trivial) (option (hQ.throw _) fun job => ?_)) fun _ => ?_
      · exact hQ.bind (h.query trivial) fun _ => hQ.pure _
      · exact hQ.pure _
  | start user provider => exact hQ.start h provider
  | callback provider query => exact hQ.callback h provider query hconsume
  | createManual user input => exact hQ.createManual h input
  | listConnections user => exact hQ.bind (h.query trivial) fun _ => hQ.pure _
  | deleteConnection user id =>
      refine hQ.bind (hQ.bind (h.query trivial) fun rows => ?_) fun _ => hQ.pure _
      show Q (if _ then _ else _)
      split
      · exact hQ.throw _
      · exact hQ.pure _

end Sequential

/-! ## The transactions -/

variable {P : ∀ {β : Type}, Stmt β → Prop} {C : Role → Prog Stmt Role Outcome Outcome → Prop}

/-- What is executed and started is closed under sequences. -/
theorem sequential_starts : Sequential fun p => p.run.Starts P C where
  pure _ := trivial
  throw _ := trivial
  bind hp hf := starts_bind hp hf

theorem only_consumeOauthSession (stateHash : String) (hbegin : P (.query (.begin n)))
    (hdelete : P (.query (.deleteOauthSession n stateHash)))
    (hcommit : P (.query (.commit n))) (hrollback : P (.rollback n)) :
    Only P (Store.consumeOauthSession n stateHash) := by
  refine Only.transaction hbegin hrollback (Only.bind (Only.query hdelete) ?_)
  refine Only.option (Only.throw _) fun session => ?_
  exact Only.bind (Only.query hcommit) fun _ => Only.pure _

/-- `enqueue_job` looks the key up and ends with a commit on both branches, unless it is
rolled back. -/
theorem only_enqueue {eventId : Uuid} {key : String} (targets : List PublishTarget)
    (hbegin : P (.query (.begin n))) (hselect : P (.query (.selectJobByKey n userId key)))
    (hinsert : P (.query (.insertJob n userId eventId key)))
    (hprovider : ∀ id, P (.query (.selectConnectionProvider n id userId)))
    (htarget : ∀ jobId id name options, P (.query (.insertTarget n jobId id name options)))
    (hcommit : P (.query (.commit n))) (hrollback : P (.rollback n)) :
    Only P (Store.enqueueJob env n userId eventId key targets) := by
  refine Only.transaction hbegin hrollback
    (Only.bind (Only.query hselect) (Only.option ?_ fun existing => ?_))
  · refine Only.bind (Only.query hinsert) fun job => Only.bind ?_ fun _ => ?_
    · exact only_enqueueTargets hprovider (htarget _) targets
    · exact Only.bind (Only.query hcommit) fun _ => Only.pure _
  · exact Only.bind (Only.query hcommit) fun _ => Only.pure _

end Service
