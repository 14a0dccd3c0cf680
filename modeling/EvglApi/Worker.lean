/-
# The worker of a job

`worker.rs`: a worker reads the event of its job, claims the job's targets and
publishes the event to each of them in turn, in at most three attempts; then it
stores the job's status and announces it.
-/
import EvglApi.Api

open Concurrency

namespace Service

open Api Tries

variable (env : Deployment)

def emit (job : JobRow) (provider : Option ProviderKind) (status : PublicationStatus)
    (attempt : ℕ) (message : String) (publication : Option Publication) : Api Unit :=
  stmt (.emit job provider status attempt message publication)

def failTarget (job : JobRow) (targetId : Uuid) (provider : Option ProviderKind) (attempt : ℕ)
    (error : TargetFailure) : Api Unit := do
  Store.targetFailed targetId attempt error
  emit job provider .failed attempt error.message none

/-- The loop over the attempts at one target, with the number of the last attempt
made.  Between two attempts the worker sleeps, which is no statement. -/
def publishLoop (job : JobRow) (call : PublishCall) (finalAttempt : ℕ) : List ℕ → Api Unit
  | [] =>
      failTarget job call.target.id (some call.provider) finalAttempt
        (.publishFailed "provider publish failed")
  | attempt :: rest => do
      Store.targetRunning call.target.id attempt
      emit job (some call.provider) .running attempt "provider request started" none
      match ← stmt (.publish call) with
      | .ok publication => do
          let value ← result ((env.publicationToValue publication).mapError fun e =>
            .internal (.json e))
          Store.targetComplete call.target.id publication.status value
          emit job (some call.provider) publication.status attempt "provider request completed"
            (some publication)
      | .error error =>
          if attempt < 3 ∧ isRetryable error then do
            emit job (some call.provider) .retrying attempt (env.displayProviderError error) none
            publishLoop job call attempt rest
          else
            failTarget job call.target.id (some call.provider) attempt
              (.publishFailed (env.displayProviderError error))

/-- The body of the loop over the targets. -/
def processTarget (job : JobRow) (event : EventDraft) (target : TargetRow) : Api Unit :=
  if target.jobId ≠ job.id then throw (.internal (.foreignTarget target.id target.jobId job.id))
  else
    match env.fromStr target.provider with
    | .error error => failTarget job target.id none 0 (.invalidProvider error)
    | .ok provider => do
        match ← caught (Store.getConnection job.userId target.connectionId) with
        | .error error => failTarget job target.id (some provider) 0 (.connectionUnavailable error)
        | .ok connection =>
            if (env.providers provider).isNone then
              failTarget job target.id (some provider) 0
                (.notConfigured (env.displayProvider provider))
            else
              match env.decrypt connection.aad connection.tokenEnvelope with
              | .error error => failTarget job target.id (some provider) 0 (.undecryptable error)
              | .ok tokens =>
                  publishLoop env job
                    { target, provider, tokens, event
                      context :=
                        { accountKey := connection.accountKey
                          accountMetadata := connection.metadata
                          targetOptions := target.options } } 0 [1, 2, 3]

/-- The loop over the targets. -/
def processTargets (job : JobRow) (event : EventDraft) : List TargetRow → Api Unit
  | [] => pure ()
  | target :: rest => do
      processTarget env job event target
      processTargets job event rest

/-- The status that the last update of a job carries. -/
def finalStatus (status : String) : PublicationStatus :=
  match status with
  | "failed" => .failed
  | "action_required" => .actionRequired
  | _ => .published

/-- `run`. -/
def runWorker (job : JobRow) : Api Unit := do
  let event ← Store.getEvent env job.userId job.eventId
  let targets ← Store.claimTargets job.id
  emit job none .running 0 "job started" none
  processTargets env job event targets
  Store.finishJob job.id
  let (current, _) ← Store.getJob job.userId job.id
  emit job none (finalStatus current.status) 0 "job finished" none

/-- The program that `spawn` starts. -/
def worker (job : JobRow) : Prog Stmt Role Outcome Outcome :=
  (runWorker env job).run.bind fun r => .pure (.finished r)

end Service
