/-
# The functions of the store

A handler is a program over the statements of the store that may return early with
an `ApiError`.  This file has the functions of `store.rs`.

A handler runs as request number `self`, and its transaction, if it opens one, goes
by that number.  `transaction` is the scope of a `sqlx::Transaction`: a return with
an error drops it, which rolls it back.
-/
import EvglApi.Frames
import EvglApi.Tries

open Concurrency

namespace Service

/-- What a program runs as. -/
inductive Role
  | request (n : ℕ) (q : Request)
  | worker (job : Uuid)

/-- What a program ends with. -/
inductive Outcome
  | reply (r : Except ApiError Response)
  | finished (r : Except ApiError Unit)

/-- A program of the service that may return early with an error. -/
abbrev Api (α : Type) := Tries Stmt Role Outcome ApiError α

namespace Api

variable {α : Type}

/-- Execute a statement of the database. -/
def query (q : Query α) : Api α := Tries.attempt .ofDb (.query q)

/-- Roll transaction `n` back if the program returns with an error. -/
def rollbackOnError (n : ℕ) (body : Api α) : Api α :=
  ExceptT.mk <| body.run.bind fun
    | .ok a => .pure (.ok a)
    | .error e => .step (.rollback n) fun _ => .pure (.error e)

/-- The scope of the transaction of request `n`. -/
def transaction (n : ℕ) (body : Api α) : Api α := do
  query (.begin n)
  rollbackOnError n body

/-- Start a program beside this one. -/
def spawn (r : Role) (child : Prog Stmt Role Outcome Outcome) : Api Unit :=
  ExceptT.mk (.fork r child (.pure (.ok ())))

end Api

open Api Tries

variable (env : Deployment)

namespace Store

def createOauthSession (self : ℕ) (stateHash : String) (userId : Uuid) (provider : ProviderKind)
    (pkceVerifier : Option String) (usesPkce : Bool) : Api Unit :=
  query (.insertOauthSession self stateHash userId (env.asStr provider) pkceVerifier usesPkce)

def consumeOauthSession (self : ℕ) (stateHash : String) : Api OAuthSession :=
  transaction self do
    match ← query (.deleteOauthSession self stateHash) with
    | none => throw (.unauthorized "OAuth state is invalid or expired")
    | some session => do
        query (.commit self)
        pure session

def upsertConnection (userId : Uuid) (provider : ProviderKind) (accountKey displayName : String)
    (metadata : Value) (tokenEnvelope : String) : Api ConnectionRow :=
  query (.upsertConnection userId (env.asStr provider) accountKey displayName metadata tokenEnvelope)

def listConnections (userId : Uuid) : Api (List ConnectionRow) := query (.selectConnections userId)

def getConnection (userId id : Uuid) : Api ConnectionRow := do
  match ← query (.selectConnection id userId) with
  | none => throw (.notFound "connection not found")
  | some connection => pure connection

def deleteConnection (userId id : Uuid) : Api Unit := do
  let rowsAffected ← query (.deleteConnection id userId)
  if rowsAffected = 0 then throw (.notFound "connection not found") else pure ()

def createEvent (event : EventDraft) : Api Unit := do
  result ((env.validateEvent event).mapError .badRequest)
  let document ← result ((env.eventToValue event).mapError fun e => .internal (.json e))
  query (.insertEvent event.id event.ownerId document)

def getEvent (userId eventId : Uuid) : Api EventDraft := do
  match ← query (.selectEventDocument eventId userId) with
  | none => throw (.notFound "event not found")
  | some document => result ((env.eventFromValue document).mapError fun e => .internal (.json e))

def listEvents (userId : Uuid) : Api (List EventDraft) := do
  let documents ← query (.selectEventDocuments userId)
  result (documents.mapM fun document =>
    (env.eventFromValue document).mapError fun e => .internal (.json e))

structure EnqueueResult where
  job : JobRow
  created : Bool

/-- The loop of `enqueue_job` over the targets. -/
def enqueueTargets (self : ℕ) (userId jobId : Uuid) : List PublishTarget → Api Unit
  | [] => pure ()
  | target :: rest => do
      match ← query (.selectConnectionProvider self target.connectionId userId) with
      | none =>
          throw (.badRequest ("connection " ++ uuidText target.connectionId ++ " was not found"))
      | some connectionProvider =>
          if connectionProvider ≠ env.asStr target.provider then
            throw (.badRequest ("connection " ++ uuidText target.connectionId ++ " belongs to " ++
              connectionProvider ++ ", not " ++ env.displayProvider target.provider))
          else do
            query (.insertTarget self jobId target.connectionId (env.asStr target.provider)
              target.options)
            enqueueTargets self userId jobId rest

def enqueueJob (self : ℕ) (userId eventId : Uuid) (idempotencyKey : String)
    (targets : List PublishTarget) : Api EnqueueResult :=
  transaction self do
    match ← query (.selectJobByKey self userId idempotencyKey) with
    | some existing => do
        query (.commit self)
        pure { job := existing, created := false }
    | none => do
        let job ← query (.insertJob self userId eventId idempotencyKey)
        enqueueTargets env self userId job.id targets
        query (.commit self)
        pure { job, created := true }

def getJob (userId jobId : Uuid) : Api (JobRow × List TargetRow) := do
  match ← query (.selectJob jobId userId) with
  | none => throw (.notFound "job not found")
  | some job => do
      let targets ← query (.selectTargets jobId)
      pure (job, targets)

def claimTargets (jobId : Uuid) : Api (List TargetRow) := do
  query (.updateJobRunning jobId)
  query (.selectTargets jobId)

def targetRunning (targetId : Uuid) (attempt : ℕ) : Api Unit :=
  query (.updateTargetRunning targetId attempt)

def targetComplete (targetId : Uuid) (status : PublicationStatus) (result : Value) : Api Unit :=
  query (.updateTargetComplete targetId status result)

def targetFailed (targetId : Uuid) (attempt : ℕ) (error : TargetFailure) : Api Unit :=
  query (.updateTargetFailed targetId attempt error)

/-- The status of a job by the numbers of its targets that failed and that need an action. -/
def summary (failures actions : ℕ) : String :=
  if failures > 0 then "failed" else if actions > 0 then "action_required" else "published"

def finishJob (jobId : Uuid) : Api Unit := do
  let failures ← query (.countTargets jobId "failed")
  let actions ← query (.countTargets jobId "action_required")
  query (.updateJobStatus jobId (summary failures actions))

end Store

end Service
