/-
# The service

The handlers of `events.rs` and `jobs.rs`, and the machine that runs all handlers
and workers over one store: requests arrive in any number and are numbered in the
order of their arrival.
-/
import EvglApi.Worker
import EvglApi.Oauth

open Concurrency

namespace Service

open Api Tries

variable (env : Deployment)

namespace Events

def create (userId : Uuid) (input : CreateEventInput) : Api Response := do
  let id ← stmt .newUuid
  let event : EventDraft :=
    { id, ownerId := userId, title := input.title, summary := input.summary
      descriptionHtml := input.descriptionHtml, startsAt := input.startsAt
      endsAt := input.endsAt, timezone := input.timezone, canonicalUrl := input.canonicalUrl
      onlineUrl := input.onlineUrl, venue := input.venue, tags := input.tags
      metadata := input.metadata }
  Store.createEvent env event
  stmt (.sendEvent event)
  pure (.event 201 event)

def list (userId : Uuid) : Api Response := do
  let events ← Store.listEvents env userId
  pure (.events events)

def get (userId id : Uuid) : Api Response := do
  let event ← Store.getEvent env userId id
  pure (.event 200 event)

def crossPost (self : ℕ) (userId eventId : Uuid) (key : Option String)
    (targets : List PublishTarget) : Api Response :=
  match key with
  | none => throw (.badRequest "Idempotency-Key header is required")
  | some key => do
      let request : CrossPostRequest := { eventId, targets, idempotencyKey := key }
      result ((env.validateCrossPost request).mapError .badRequest)
      let _ ← Store.getEvent env userId eventId
      let enqueued ← Store.enqueueJob env self userId eventId key request.targets
      if enqueued.created then do
        spawn (.worker enqueued.job.id) (worker env enqueued.job)
        pure (.job 202 enqueued.job)
      else pure (.job 200 enqueued.job)

end Events

namespace Jobs

/-- The view of a target. -/
def view (t : TargetRow) : TargetView :=
  { id := t.id, connectionId := t.connectionId, provider := t.provider, options := t.options
    status := t.status, attempt := t.attempt, result := t.result, error := t.error }

def get (userId jobId : Uuid) : Api Response := do
  let (job, targets) ← Store.getJob userId jobId
  pure (.jobView job (targets.map view))

end Jobs

/-! ## The machine -/

/-- The handler of a request. -/
def handle (self : ℕ) : Request → Api Response
  | .createEvent user input => Events.create env user input
  | .listEvents user => Events.list env user
  | .getEvent user id => Events.get env user id
  | .crossPost user eventId key targets => Events.crossPost env self user eventId key targets
  | .getJob user jobId => Jobs.get user jobId
  | .start user provider => Oauth.start env self user provider
  | .callback provider query => Oauth.callback env self provider query
  | .createManual user input => Oauth.createManual env user input
  | .listConnections user => Oauth.listConnections user
  | .deleteConnection user id => Oauth.deleteConnection user id

/-- The program of a request. -/
def respond (self : ℕ) (q : Request) : Prog Stmt Role Outcome Outcome :=
  (handle env self q).run.bind fun r => .pure (.reply r)

/-- The world after a program is started. -/
def World.enter : Role → World → World
  | .request _ q, w => { w with requests := w.requests ++ [q] }
  | .worker j, w => { w with workers := w.workers ++ [j] }

/-- Handlers and workers over one store. -/
def service : Machine Stmt Role Outcome World Draw Request where
  exec := Stmt.exec
  enter := World.enter
  arrival q w := (.request w.requests.length q, respond env w.requests.length q)

end Service
