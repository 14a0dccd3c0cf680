/-
# The store and its statements

The tables of `migrations/0001_initial.sql`, the SQL statements of `store.rs`, and
the other things a handler or a worker asks of the world outside the process.

A statement is executed in one step on a `World` and reads what the world does not
determine from a `Draw`.  The transaction of a request carries the request's
number.

* `Query.exec` is `none` while the statement has to wait for another transaction.
* Identifiers are drawn fresh (`Uuid::new_v4` is assumed not to repeat): a draw
  that repeats one has no result.  A row whose id is bound in the `INSERT` draws
  it there, so primary keys cannot conflict.
* A statement fails with the error of the draw, if it has one, and has no effect.
* Where an `ORDER BY` does not tell rows apart, the draw has their order.
* `requests`, `workers`, `missed` and `trace` are a record of what has happened;
  no statement reads them.
-/
import EvglApi.Arrangement
import EvglApi.Keyed
import EvglApi.Records
import EvglApi.Table
import EvglApi.Prog
import Mathlib.Data.String.Basic

open Mvcc

namespace Service

/-! ## The world -/

structure SessionRow extends OAuthSession where
  stateHash : String
  expiresAt : Instant
  /-- The request that stored the row. -/
  xmin : ℕ
  /-- The request whose open transaction has deleted the row. -/
  deletedBy : Option ℕ

/-- What a worker hands to an adapter's `publish`. -/
structure PublishCall where
  target : TargetRow
  provider : ProviderKind
  tokens : TokenSet
  event : EventDraft
  context : PublishContext

/-- What has happened, apart from the rows. -/
inductive Effect
  | published (call : PublishCall) (result : Except ProviderError Publication)
  | outcome (job target : Uuid)
  | finished (job : Uuid)
  | emitted (update : JobUpdate)
  | announced (event : EventDraft)
  | encrypted (aad : String) (tokens : TokenSet) (envelope : String)
  | upserted (row : ConnectionRow)
  | exchanged (request : ℕ) (provider : ProviderKind) (code : String) (verifier : Option String)

structure World where
  events : List EventRow
  connections : List ConnectionRow
  jobs : Table JobRow
  targets : Table TargetRow
  sessions : List SessionRow
  drawn : List Uuid
  /-- The keys that a still open transaction has looked up and found unused. -/
  missed : List (ℕ × Uuid × String)
  requests : List Request
  /-- The jobs whose worker has been spawned. -/
  workers : List Uuid
  trace : List Effect

/-- The world after the migration. -/
def World.empty : World := ⟨[], [], [], [], [], [], [], [], [], []⟩

/-- What a statement gets from outside. -/
structure Draw where
  fails : Option String := none
  uuid : Uuid := 0
  now : Instant := 0
  text : String := ""
  envelope : Except String String := .ok ""
  publication : Except ProviderError Publication := .ok ⟨.published, .null⟩
  tokens : Except ProviderError TokenSet := .ok ⟨"", none, none, [], .null⟩
  accounts : Except ProviderError (List Account) := .ok []
  /-- The places, by their ids, of rows that an `ORDER BY` does not tell apart. -/
  ties : Uuid → ℕ := fun _ => 0

namespace World

/-- Commit the transaction of request `n`. -/
def commit (n : ℕ) (w : World) : World :=
  { w with
    jobs := w.jobs.commit n
    targets := w.targets.commit n
    sessions := w.sessions.filter (·.deletedBy ≠ some n)
    missed := w.missed.filter (·.1 ≠ n) }

/-- Roll the transaction of request `n` back. -/
def rollback (n : ℕ) (w : World) : World :=
  { w with
    jobs := w.jobs.rollback n
    targets := w.targets.rollback n
    sessions := w.sessions.map fun s =>
      if s.deletedBy = some n then { s with deletedBy := none } else s
    missed := w.missed.filter (·.1 ≠ n) }

/-- Record an effect. -/
def log (e : Effect) (w : World) : World := { w with trace := w.trace ++ [e] }

end World

/-! ## Queries -/

/-- The statements of `store.rs`; those inside a transaction name it. -/
inductive Query : Type → Type
  | begin (tx : ℕ) : Query Unit
  | commit (tx : ℕ) : Query Unit
  | insertOauthSession (request : ℕ) (stateHash : String) (userId : Uuid) (provider : String)
      (pkceVerifier : Option String) (usesPkce : Bool) : Query Unit
  | deleteOauthSession (tx : ℕ) (stateHash : String) : Query (Option OAuthSession)
  | upsertConnection (userId : Uuid) (provider accountKey displayName : String)
      (metadata : Value) (tokenEnvelope : String) : Query ConnectionRow
  | selectConnections (userId : Uuid) : Query (List ConnectionRow)
  | selectConnection (id userId : Uuid) : Query (Option ConnectionRow)
  | deleteConnection (id userId : Uuid) : Query ℕ
  | insertEvent (id ownerId : Uuid) (document : Value) : Query Unit
  | selectEventDocument (id ownerId : Uuid) : Query (Option Value)
  | selectEventDocuments (ownerId : Uuid) : Query (List Value)
  | selectJobByKey (tx : ℕ) (userId : Uuid) (key : String) : Query (Option JobRow)
  | insertJob (tx : ℕ) (userId eventId : Uuid) (key : String) : Query JobRow
  | selectConnectionProvider (tx : ℕ) (id userId : Uuid) : Query (Option String)
  | insertTarget (tx : ℕ) (jobId connectionId : Uuid) (provider : String) (options : Value) :
      Query Unit
  | selectJob (id userId : Uuid) : Query (Option JobRow)
  | selectTargets (jobId : Uuid) : Query (List TargetRow)
  | updateJobRunning (id : Uuid) : Query Unit
  | updateTargetRunning (id : Uuid) (attempt : ℕ) : Query Unit
  | updateTargetComplete (id : Uuid) (status : PublicationStatus) (result : Value) : Query Unit
  | updateTargetFailed (id : Uuid) (attempt : ℕ) (error : TargetFailure) : Query Unit
  | countTargets (jobId : Uuid) (status : String) : Query ℕ
  | updateJobStatus (id : Uuid) (status : String) : Query Unit

/-- `ORDER BY provider, display_name`. -/
def ConnectionRow.le (a b : ConnectionRow) : Prop :=
  a.provider < b.provider ∨ a.provider = b.provider ∧ a.displayName ≤ b.displayName

instance : DecidableRel ConnectionRow.le := fun _ _ =>
  inferInstanceAs (Decidable (_ ∨ _ ∧ _))

instance : Std.Total ConnectionRow.le where
  total a b := by
    rcases lt_trichotomy a.provider b.provider with hlt | heq | hgt
    · exact Or.inl (Or.inl hlt)
    · exact (le_total a.displayName b.displayName).imp (fun hle => Or.inr ⟨heq, hle⟩)
        fun hle => Or.inr ⟨heq.symm, hle⟩
    · exact Or.inr (Or.inl hgt)

instance : IsTrans ConnectionRow ConnectionRow.le where
  trans a b c hab hbc := by
    obtain hlt | ⟨heq, hle⟩ := hab
    · obtain hlt' | ⟨heq', -⟩ := hbc
      · exact Or.inl (lt_trans hlt hlt')
      · exact Or.inl (heq' ▸ hlt)
    · obtain hlt' | ⟨heq', hle'⟩ := hbc
      · exact Or.inl (heq ▸ hlt')
      · exact Or.inr ⟨heq.trans heq', le_trans hle hle'⟩

/-- `ORDER BY created_at DESC`. -/
def EventRow.le (a b : EventRow) : Prop := b.createdAt ≤ a.createdAt

instance : DecidableRel EventRow.le := fun _ _ => inferInstanceAs (Decidable (_ ≤ _))

instance : Std.Total EventRow.le where
  total a b := le_total b.createdAt a.createdAt

instance : IsTrans EventRow EventRow.le where
  trans _ _ _ hab hbc := le_trans hbc hab

/-- The job has this user and idempotency key. -/
def JobRow.hasKey (userId : Uuid) (key : String) (j : JobRow) : Prop :=
  j.userId = userId ∧ j.idempotencyKey = key

instance (userId : Uuid) (key : String) (j : JobRow) : Decidable (j.hasKey userId key) :=
  inferInstanceAs (Decidable (_ ∧ _))

/-- The account of a connection. -/
def ConnectionRow.account (c : ConnectionRow) : Uuid × String × String :=
  (c.userId, c.provider, c.accountKey)

/-- The connection has this user, provider and account key. -/
def ConnectionRow.hasKey (userId : Uuid) (provider accountKey : String) (c : ConnectionRow) : Prop :=
  c.userId = userId ∧ c.provider = provider ∧ c.accountKey = accountKey

instance (userId : Uuid) (provider accountKey : String) (c : ConnectionRow) :
    Decidable (c.hasKey userId provider accountKey) :=
  inferInstanceAs (Decidable (_ ∧ _ ∧ _))

def jobKeyMessage : String :=
  "duplicate key value violates unique constraint \"cross_post_jobs_user_id_idempotency_key_key\""

def sessionKeyMessage : String :=
  "duplicate key value violates unique constraint \"oauth_sessions_pkey\""

def jobEventMessage : String :=
  "insert or update on table \"cross_post_jobs\" violates foreign key constraint " ++
    "\"cross_post_jobs_event_id_fkey\""

def targetJobMessage : String :=
  "insert or update on table \"cross_post_targets\" violates foreign key constraint " ++
    "\"cross_post_targets_job_id_fkey\""

def targetConnectionMessage : String :=
  "insert or update on table \"cross_post_targets\" violates foreign key constraint " ++
    "\"cross_post_targets_connection_id_fkey\""

def connectionInUseMessage : String :=
  "update or delete on table \"provider_connections\" violates foreign key constraint " ++
    "\"cross_post_targets_connection_id_fkey\" on table \"cross_post_targets\""

/-- `interval '10 minutes'`. -/
def tenMinutes : Duration := 600 * 1000000000

namespace World

/-- `INSERT INTO oauth_sessions`; the primary key is the hash of the state token. -/
def insertOauthSession (w : World) (s : SessionRow) : Option (Except DbError Unit × World) :=
  match w.sessions.find? (·.stateHash = s.stateHash) with
  | some old =>
      -- a row that an open transaction has deleted may come back
      if old.deletedBy.isSome then none else some (.error (.uniqueViolation sessionKeyMessage), w)
  | none => some (.ok (), { w with sessions := w.sessions ++ [s] })

/-- `DELETE FROM oauth_sessions … RETURNING`. -/
def deleteOauthSession (w : World) (x : Draw) (n : ℕ) (stateHash : String) :
    Option (Except DbError (Option OAuthSession) × World) :=
  match w.sessions.find? (fun s => s.stateHash = stateHash ∧ s.expiresAt > x.now) with
  | none => some (.ok none, w)
  | some s =>
      match s.deletedBy with
      | some m => if m = n then some (.ok none, w) else none
      | none =>
          some (.ok (some s.toOAuthSession),
            { w with
              sessions := w.sessions.map fun s' =>
                if s'.stateHash = stateHash then { s' with deletedBy := some n } else s' })

/-- `INSERT INTO provider_connections … ON CONFLICT … DO UPDATE … RETURNING *`. -/
def upsertConnection (w : World) (x : Draw) (userId : Uuid)
    (provider accountKey displayName : String) (metadata : Value) (tokenEnvelope : String) :
    Option (Except DbError ConnectionRow × World) :=
  match w.connections.find? (·.hasKey userId provider accountKey) with
  | some old =>
      let row := { old with displayName, metadata, tokenEnvelope, updatedAt := x.now }
      some (.ok row,
        { w with
          connections := w.connections.map fun c => if c.id = old.id then row else c
          trace := w.trace ++ [.upserted row] })
  | none =>
      if x.uuid ∈ w.drawn then none
      else
        let row : ConnectionRow :=
          { id := x.uuid, userId, provider, accountKey, createdAt := x.now, displayName, metadata
            tokenEnvelope, updatedAt := x.now }
        some (.ok row,
          { w with
            connections := w.connections ++ [row]
            drawn := x.uuid :: w.drawn
            trace := w.trace ++ [.upserted row] })

/-- `DELETE FROM provider_connections`, restricted by the targets that refer to the row. -/
def deleteConnection (w : World) (id userId : Uuid) : Option (Except DbError ℕ × World) :=
  match w.connections.find? (fun c => c.id = id ∧ c.userId = userId) with
  | none => some (.ok 0, w)
  | some _ =>
      -- a transaction that has inserted a reference holds a lock on the row
      if w.targets.any (fun v => v.row.connectionId = id ∧ v.committed = false) then none
      else if w.targets.any (fun v => v.row.connectionId = id) then
        some (.error (.foreignKeyViolation connectionInUseMessage), w)
      else some (.ok 1, { w with connections := w.connections.filter (·.id ≠ id) })

/-- `SELECT * FROM cross_post_jobs WHERE user_id = $1 AND idempotency_key = $2`. -/
def selectJobByKey (w : World) (n : ℕ) (userId : Uuid) (key : String) :
    Option (Except DbError (Option JobRow) × World) :=
  match (w.jobs.rows (some n)).find? (·.hasKey userId key) with
  | some job => some (.ok (some job), w)
  | none => some (.ok none, { w with missed := w.missed ++ [(n, userId, key)] })

/-- `INSERT INTO cross_post_jobs … RETURNING *`. -/
def insertJob (w : World) (x : Draw) (n : ℕ) (userId eventId : Uuid) (key : String) :
    Option (Except DbError JobRow × World) :=
  if x.uuid ∈ w.drawn then none
  -- the unique index: wait for the transaction that has inserted the key
  else if w.jobs.any (fun v => v.row.hasKey userId key ∧ v.committed = false ∧ v.xmin ≠ n) then none
  else if w.jobs.any (fun v => v.row.hasKey userId key) then
    some (.error (.uniqueViolation jobKeyMessage), w)
  else if w.events.all (fun e => e.id ≠ eventId) then
    some (.error (.foreignKeyViolation jobEventMessage), w)
  else
    let row : JobRow :=
      { id := x.uuid, userId, eventId, idempotencyKey := key, createdAt := x.now
        status := "queued", updatedAt := x.now }
    some (.ok row, { w with jobs := w.jobs.insert n row, drawn := x.uuid :: w.drawn })

/-- `INSERT INTO cross_post_targets`. -/
def insertTarget (w : World) (x : Draw) (n : ℕ) (jobId connectionId : Uuid) (provider : String)
    (options : Value) : Option (Except DbError Unit × World) :=
  if x.uuid ∈ w.drawn then none
  else if (w.jobs.rows (some n)).all (·.id ≠ jobId) then
    some (.error (.foreignKeyViolation targetJobMessage), w)
  else if w.connections.all (·.id ≠ connectionId) then
    some (.error (.foreignKeyViolation targetConnectionMessage), w)
  else
    let row : TargetRow :=
      { id := x.uuid, jobId, connectionId, provider, options, status := "queued", attempt := 0
        result := none, error := none }
    some (.ok (), { w with targets := w.targets.insert n row, drawn := x.uuid :: w.drawn })

/-- `UPDATE cross_post_targets … WHERE id = $1`. -/
def updateTarget (w : World) (id : Uuid) (f : TargetRow → TargetRow) : World :=
  { w with targets := w.targets.update (·.id = id) f }

/-- `UPDATE cross_post_jobs … WHERE id = $1`. -/
def updateJob (w : World) (id : Uuid) (f : JobRow → JobRow) : World :=
  { w with jobs := w.jobs.update (·.id = id) f }

/-- Record that an outcome has been stored in the rows of a target. -/
def logOutcome (w : World) (id : Uuid) : World :=
  { w with
    trace := w.trace ++
      ((w.targets.rows none).filter (·.id = id)).map fun t => .outcome t.jobId t.id }

end World

/-- The answer of a statement that does not fail, and the world after it. -/
def Query.exec {β : Type} : Query β → Draw → World → Option (Except DbError β × World)
  | .begin _, _, w => some (.ok (), w)
  | .commit n, _, w => some (.ok (), w.commit n)
  | .insertOauthSession n stateHash userId provider pkceVerifier usesPkce, x, w =>
      w.insertOauthSession
        { userId, provider, pkceVerifier, usesPkce, stateHash, expiresAt := x.now + tenMinutes
          xmin := n, deletedBy := none }
  | .deleteOauthSession n stateHash, x, w => w.deleteOauthSession x n stateHash
  | .upsertConnection userId provider accountKey displayName metadata envelope, x, w =>
      w.upsertConnection x userId provider accountKey displayName metadata envelope
  | .selectConnections userId, x, w =>
      some (.ok (orderBy ConnectionRow.le (fun c => x.ties c.id)
        (w.connections.filter (·.userId = userId))), w)
  | .selectConnection id userId, _, w =>
      some (.ok (w.connections.find? fun c => c.id = id ∧ c.userId = userId), w)
  | .deleteConnection id userId, _, w => w.deleteConnection id userId
  | .insertEvent id ownerId document, x, w =>
      some (.ok (), { w with events := w.events ++ [⟨id, ownerId, document, x.now⟩] })
  | .selectEventDocument id ownerId, _, w =>
      some (.ok ((w.events.find? fun e => e.id = id ∧ e.ownerId = ownerId).map (·.document)), w)
  | .selectEventDocuments ownerId, x, w =>
      some (.ok (((orderBy EventRow.le (fun e => x.ties e.id)
        (w.events.filter (·.ownerId = ownerId))).take 100).map (·.document)), w)
  | .selectJobByKey n userId key, _, w => w.selectJobByKey n userId key
  | .insertJob n userId eventId key, x, w => w.insertJob x n userId eventId key
  | .selectConnectionProvider _ id userId, _, w =>
      some (.ok ((w.connections.find? fun c => c.id = id ∧ c.userId = userId).map (·.provider)), w)
  | .insertTarget n jobId connectionId provider options, x, w =>
      w.insertTarget x n jobId connectionId provider options
  | .selectJob id userId, _, w =>
      some (.ok ((w.jobs.rows none).find? fun j => j.id = id ∧ j.userId = userId), w)
  | .selectTargets jobId, _, w =>
      -- the ids are distinct
      some (.ok (((w.targets.rows none).filter (·.jobId = jobId)).insertionSort
        fun a b => a.id ≤ b.id), w)
  | .updateJobRunning id, x, w =>
      some (.ok (), w.updateJob id fun j => { j with status := "running", updatedAt := x.now })
  | .updateTargetRunning id attempt, _, w =>
      some (.ok (), w.updateTarget id fun t =>
        { t with status := "running", attempt := attempt, error := none })
  | .updateTargetComplete id status result, _, w =>
      some (.ok (), (w.updateTarget id fun t =>
        { t with status := statusName status, result := some result, error := none }).logOutcome id)
  | .updateTargetFailed id attempt error, _, w =>
      some (.ok (), (w.updateTarget id fun t =>
        { t with
          status := "failed", attempt := attempt, error := some error.message }).logOutcome id)
  | .countTargets jobId status, _, w =>
      some (.ok ((w.targets.rows none).countP fun t => t.jobId = jobId ∧ t.status = status), w)
  | .updateJobStatus id status, x, w =>
      some (.ok (), (w.updateJob id fun j =>
        { j with status := status, updatedAt := x.now }).log (.finished id))

/-! ## Statements -/

/-- The statements of handlers and workers. -/
inductive Stmt : Type → Type 1
  | query {β : Type} (q : Query β) : Stmt (Except DbError β)
  | rollback (tx : ℕ) : Stmt Unit
  | newUuid : Stmt Uuid
  | randomUrlsafe (bytes : ℕ) : Stmt String
  | encrypt (aad : String) (tokens : TokenSet) : Stmt (Except String String)
  | exchangeCode (request : ℕ) (provider : ProviderKind) (code : String)
      (verifier : Option String) : Stmt (Except ProviderError TokenSet)
  | resolveAccounts (provider : ProviderKind) (tokens : TokenSet) :
      Stmt (Except ProviderError (List Account))
  | publish (call : PublishCall) : Stmt (Except ProviderError Publication)
  | emit (job : JobRow) (provider : Option ProviderKind) (status : PublicationStatus)
      (attempt : ℕ) (message : String) (publication : Option Publication) : Stmt Unit
  | sendEvent (event : EventDraft) : Stmt Unit

def Stmt.exec {β : Type} : Stmt β → Draw → World → Option (β × World)
  | .query q, x, w =>
      match x.fails with
      | some text => some (.error (.failure text), w)
      | none => q.exec x w
  | .rollback n, _, w => some ((), w.rollback n)
  | .newUuid, x, w =>
      if x.uuid ∈ w.drawn then none else some (x.uuid, { w with drawn := x.uuid :: w.drawn })
  | .randomUrlsafe _, x, w => some (x.text, w)
  | .encrypt aad tokens, x, w =>
      match x.envelope with
      | .error e => some (.error e, w)
      | .ok envelope => some (.ok envelope, w.log (.encrypted aad tokens envelope))
  | .exchangeCode n provider code verifier, x, w =>
      some (x.tokens, w.log (.exchanged n provider code verifier))
  | .resolveAccounts _ _, x, w => some (x.accounts, w)
  | .publish call, x, w => some (x.publication, w.log (.published call x.publication))
  | .emit job provider status attempt message publication, x, w =>
      some ((), w.log (.emitted
        { jobId := job.id, eventId := job.eventId, provider, status, attempt, message
          occurredAt := x.now, publication }))
  | .sendEvent event, _, w => some ((), w.log (.announced event))

/-! ## What a statement has done

Of the statements that can fail or have to wait. -/

section Inversion

variable {β : Type} {x : Draw} {w w' : World}

/-- A query has failed as the draw says, or has been executed. -/
theorem Stmt.exec_query {q : Query β} {a : Except DbError β}
    (h : Stmt.exec (.query q) x w = some (a, w')) :
    (∃ text, x.fails = some text ∧ a = .error (.failure text) ∧ w' = w) ∨
      x.fails = none ∧ q.exec x w = some (a, w') := by
  rw [Stmt.exec] at h
  cases hfails : x.fails with
  | some text =>
      rw [hfails] at h
      obtain ⟨rfl, rfl⟩ := Prod.mk.inj (Option.some.inj h)
      exact Or.inl ⟨text, rfl, rfl, rfl⟩
  | none =>
      rw [hfails] at h
      exact Or.inr ⟨rfl, h⟩

/-- An identifier that is drawn is new. -/
theorem Stmt.exec_newUuid {id : Uuid} (h : Stmt.exec .newUuid x w = some (id, w')) :
    x.uuid ∉ w.drawn ∧ id = x.uuid ∧ w' = { w with drawn := x.uuid :: w.drawn } := by
  rw [Stmt.exec] at h
  split at h
  · cases h
  · next hnew =>
      obtain ⟨rfl, rfl⟩ := Prod.mk.inj (Option.some.inj h)
      exact ⟨hnew, rfl, rfl⟩

/-- Only an encryption that succeeds is recorded. -/
theorem Stmt.exec_encrypt {aad : String} {tokens : TokenSet} {a : Except String String}
    (h : Stmt.exec (.encrypt aad tokens) x w = some (a, w')) :
    (∃ e, a = .error e ∧ w' = w) ∨
      ∃ envelope, a = .ok envelope ∧ w' = w.log (.encrypted aad tokens envelope) := by
  rw [Stmt.exec] at h
  split at h
  · obtain ⟨rfl, rfl⟩ := Prod.mk.inj (Option.some.inj h)
    exact Or.inl ⟨_, rfl, rfl⟩
  · obtain ⟨rfl, rfl⟩ := Prod.mk.inj (Option.some.inj h)
    exact Or.inr ⟨_, rfl, rfl⟩

end Inversion

end Service
