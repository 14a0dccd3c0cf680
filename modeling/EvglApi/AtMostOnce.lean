/-
# A target is published at most once

Under every schedule of requests, statements and inputs, failures of the database
included:

* there is one job for a user and an idempotency key, and one worker for a job;
* a call on a target that has succeeded, or whose outcome has been stored, is the
  last call on it (`Effect.NotAgain`);
* attempt numbers never decrease, and a stored outcome never changes (`Evolves`).
-/
import EvglApi.CrossPostKeeps

open Concurrency Mvcc

namespace Service

variable {env : Deployment} {p p' : Pool Stmt Role Outcome World}

/-- No two jobs have the same user and idempotency key, and ids are unique. -/
structure JobsUnique (w : World) : Prop where
  keys : (w.jobs.map fun v => (v.row.userId, v.row.idempotencyKey)).Nodup
  ids : (w.jobs.map fun v => v.row.id).Nodup
  targetIds : (w.targets.map fun v => v.row.id).Nodup

/-- No two programs, finished ones included, are workers of the same job. -/
def WorkersUnique (threads : List (Thread Stmt Role Outcome)) : Prop :=
  threads.Pairwise fun t t' => ∀ j, t.role = .worker j → t'.role ≠ .worker j

/-- What a reachable service does from now on never changes a stored outcome. -/
theorem evolves_of_reaches (h : Reachable env p) (hp' : Pool.Reaches (service env) p p') :
    Evolves p.shared p'.shared := by
  obtain ⟨ls, hls⟩ := hp'
  exact h.poolOk.run_rel Evolves.refl Evolves.trans (fun _ _ hguar => Guar.evolves hguar)
    (hospitable_ownership env)
    (Discipline.followsAll_of_assume (fun _ _ _ _ => trivial) (fun _ => trivial) _ _) hls

/-- At-most-once publishing, in every state that the service reaches. -/
theorem publishes_at_most_once (h : Reachable env p) :
    JobsUnique p.shared ∧ WorkersUnique p.threads ∧ p.shared.trace.Pairwise Effect.NotAgain ∧
      ∀ p', Pool.Reaches (service env) p p' → Evolves p.shared p'.shared := by
  have hok := h.poolOk
  have hinv : Inv env p.shared := hok.inv
  refine ⟨⟨hinv.jobKeys, hinv.jobIds, hinv.targetIds⟩, ?_, hinv.once,
    fun p' hp' => evolves_of_reaches h hp'⟩
  refine hok.roles.imp fun hne j hj hj' => ?_
  exact hne (hj.trans hj'.symm)

/-! ## A run -/

namespace Sample

/-- The fields of an event that the samples vary; the others are fixed. -/
def event (id ownerId : Uuid) (title : String) : EventDraft :=
  { id, ownerId, title, summary := "", descriptionHtml := "", startsAt := 0, endsAt := 3600
    timezone := "UTC", canonicalUrl := "https://example.com", onlineUrl := none, venue := none
    tags := [], metadata := [] }

def asStr : ProviderKind → String
  | .eventbrite => "eventbrite"
  | .meetup => "meetup"
  | .metaFacebookPage => "meta_facebook_page"
  | .craigslist => "craigslist"
  | .genericWebhook => "generic_webhook"

def fromStr (text : String) : Except String ProviderKind :=
  match [.eventbrite, .meetup, .metaFacebookPage, .craigslist, .genericWebhook].find?
    fun p => asStr p = text with
  | some p => .ok p
  | none => .error ("unknown provider " ++ text)

/-- The number below 100 with the given text. -/
def readNumber (text : String) : Option ℕ := (List.range 100).find? fun n => toString n = text

/-- The fields of `event` as JSON, and back. -/
def eventToValue (e : EventDraft) : Except String Value :=
  .ok (.array [.number (toString e.id), .number (toString e.ownerId), .string e.title])

def eventFromValue : Value → Except String EventDraft
  | .array [.number id, .number ownerId, .string title] =>
      match readNumber id, readNumber ownerId with
      | some id, some ownerId => .ok (event id ownerId title)
      | _, _ => .error "invalid number"
  | _ => .error "invalid event"

/-- A deployment with the two adapters that need no OAuth client, and a vault that marks
an envelope with its associated data. -/
def deployment : Deployment where
  asStr := asStr
  fromStr := fromStr
  displayProvider := asStr
  displayProviderError
    | .network text => text
    | .remote status text => toString status ++ " " ++ text
    | .other text => text
  providers
    | .craigslist => some ⟨false, fun _ _ => .error (.other "not an OAuth provider")⟩
    | .genericWebhook => some ⟨false, fun _ _ => .error (.other "not an OAuth provider")⟩
    | _ => none
  validateEvent e := if e.title = "" then .error "title is required" else .ok ()
  validateCrossPost r := if r.targets.isEmpty then .error "targets are required" else .ok ()
  eventToValue := eventToValue
  eventFromValue := eventFromValue
  publicationToValue p := .ok (.string (statusName p.status))
  decrypt aad envelope :=
    if envelope = "sealed " ++ aad then .ok ⟨"secret", none, none, [], .null⟩
    else .error "decryption failed"
  sha256 bytes := bytes
  parseUrl _ := .ok ⟨"https", some (.domain "example.com")⟩
  integrationsUrl := .ok "https://example.com/integrations"

/-- User 1 connects an account, creates the events 20 and 21, and cross-posts. -/
def connect : List (Label Draw Request) :=
  [.arrive (.createManual 1 ⟨.craigslist, "account", "Account", .null, some "secret"⟩),
   .turn 0 { envelope := .ok ("sealed " ++ aadOf 1 "craigslist" "account") },
   .turn 0 { uuid := 10 },
   .arrive (.createEvent 1
    ⟨"Party", "", "", 0, 3600, "UTC", "https://example.com", none, none, [], []⟩),
   .turn 1 { uuid := 20 }, .turn 1 {}, .turn 1 {},
   .arrive (.createEvent 1
    ⟨"Lunch", "", "", 0, 3600, "UTC", "https://example.com", none, none, [], []⟩),
   .turn 2 { uuid := 21 }, .turn 2 {}, .turn 2 {}]

/-- The request of user 1 to post the event to the connected account, under one key. -/
def post (eventId : Uuid) : Label Draw Request :=
  .arrive (.crossPost 1 eventId (some "key") [⟨10, .craigslist, .null⟩])

/-- The first cross-post request up to the start of the worker. -/
def enqueue : List (Label Draw Request) :=
  [post 20, .turn 3 {}, .turn 3 {}, .turn 3 {}, .turn 3 { uuid := 30 }, .turn 3 {},
   .turn 3 { uuid := 40 }, .turn 3 {}, .turn 3 {}]

/-- The worker, whose first call fails with an error worth a retry. -/
def work : List (Label Draw Request) :=
  List.replicate 7 (.turn 4 {}) ++
    [.turn 4 { publication := .error (.remote 503 "unavailable") }] ++
      List.replicate 12 (.turn 4 {})

end Sample

/-- A run with a retry: the target is published in the second attempt. -/
theorem publishes_at_most_once_sample :
    ∃ p, idleService.run (service Sample.deployment)
        (Sample.connect ++ Sample.enqueue ++ Sample.work) = some p ∧
      (p.shared.targets.map fun v => (v.row.status, v.row.attempt)) = [("published", 2)] ∧
      JobsUnique p.shared ∧ WorkersUnique p.threads ∧
        p.shared.trace.Pairwise Effect.NotAgain ∧
        ∀ p', Pool.Reaches (service Sample.deployment) p p' → Evolves p.shared p'.shared := by
  have hrun : ((idleService.run (service Sample.deployment)
      (Sample.connect ++ Sample.enqueue ++ Sample.work)).map fun p =>
        p.shared.targets.map fun v => (v.row.status, v.row.attempt)) =
          some [("published", 2)] := by decide +kernel
  obtain ⟨p, hp, hrow⟩ := Option.map_eq_some_iff.mp hrun
  exact ⟨p, hp, hrow, publishes_at_most_once ⟨_, hp⟩⟩

end Service
