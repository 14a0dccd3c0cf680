/-
# Rows, requests and errors of the cross-posting service

The data of `store.rs`, `events.rs`, `jobs.rs`, `oauth.rs` and `worker.rs`.

* A row type keeps the columns that no statement ever updates in a structure of
  their own (`JobFixed`, `TargetFixed`, `ConnectionFixed`), which it extends.
* What comes from the shared crates and from the configuration (the adapters, the
  vault's decryption, the domain checks, the JSON codecs) is a `Deployment`.
* `TargetFailure` is the reason with which a worker gives a target up;
  `TargetFailure.message` is the text it stores and emits.
-/
import EvglApi.Basic
import EvglApi.Base64

namespace Service

/-! ## Values of the shared crates -/

/-- A JSON value (`serde_json::Value`); a number is kept as its text. -/
inductive Value
  | null
  | bool (b : Bool)
  | number (text : String)
  | string (text : String)
  | array (items : List Value)
  | object (fields : List (String × Value))

namespace Value

/-- `Value::get` at a field name. -/
def get (name : String) : Value → Option Value
  | .object fields => (fields.find? fun f => f.1 == name).map Prod.snd
  | _ => none

/-- `Value::as_str`. -/
def asStr : Value → Option String
  | .string text => some text
  | _ => none

end Value

inductive ProviderKind
  | eventbrite
  | meetup
  | metaFacebookPage
  | craigslist
  | genericWebhook
  deriving DecidableEq

inductive PublicationStatus
  | queued
  | running
  | published
  | actionRequired
  | retrying
  | failed
  deriving DecidableEq

/-- `status_name`. -/
def statusName : PublicationStatus → String
  | .queued => "queued"
  | .running => "running"
  | .published => "published"
  | .actionRequired => "action_required"
  | .retrying => "retrying"
  | .failed => "failed"

/-- A publication; the worker reads its status only and stores the whole as JSON. -/
structure Publication where
  status : PublicationStatus
  fields : Value

inductive ProviderError
  | network (text : String)
  | remote (status : ℕ) (text : String)
  | other (text : String)
  deriving DecidableEq

/-- `is_retryable`. -/
def isRetryable : ProviderError → Bool
  | .network _ => true
  | .remote status _ => status == 429 || status ≥ 500
  | .other _ => false

structure TokenSet where
  accessToken : String
  refreshToken : Option String
  expiresAt : Option Instant
  scopes : List String
  providerData : Value

structure Account where
  accountKey : String
  displayName : String
  metadata : Value
  tokenOverride : Option TokenSet

structure PublishContext where
  accountKey : String
  accountMetadata : Value
  targetOptions : Value

structure EventDraft where
  id : Uuid
  ownerId : Uuid
  title : String
  summary : String
  descriptionHtml : String
  startsAt : Instant
  endsAt : Instant
  timezone : String
  canonicalUrl : String
  onlineUrl : Option String
  venue : Option Value
  tags : List String
  metadata : List (String × Value)

structure PublishTarget where
  connectionId : Uuid
  provider : ProviderKind
  options : Value

structure CrossPostRequest where
  eventId : Uuid
  targets : List PublishTarget
  idempotencyKey : String

structure OAuthStart where
  authorizationUrl : String
  usesPkce : Bool

/-- The host of a parsed URL. -/
inductive Host
  | domain (name : String)
  | ipv4 (address : BitVec 32)
  | ipv6 (address : BitVec 128)
  deriving DecidableEq

/-- What the webhook check reads of a parsed URL. -/
structure Url where
  scheme : String
  host : Option Host
  deriving DecidableEq

/-! ## Errors -/

/-- An error of the database; a violation carries the message of the server. -/
inductive DbError
  | uniqueViolation (text : String)
  | foreignKeyViolation (text : String)
  | failure (text : String)
  deriving DecidableEq

def DbError.message : DbError → String
  | .uniqueViolation text => s!"error returned from database: {text}"
  | .foreignKeyViolation text => s!"error returned from database: {text}"
  | .failure text => text

/-- The cause of an internal error. -/
inductive InternalError
  | db (error : DbError)
  | json (error : String)
  | vault (error : String)
  | url (error : String)
  | providerName (error : String)
  | foreignTarget (target job expected : Uuid)
  deriving DecidableEq

def InternalError.message : InternalError → String
  | .db error => error.message
  | .json error => error
  | .vault error => error
  | .url error => error
  | .providerName error => error
  | .foreignTarget target job expected =>
      "claimed target " ++ uuidText target ++ " belongs to job " ++ uuidText job ++
        ", expected " ++ uuidText expected

inductive ApiError
  | badRequest (text : String)
  | unauthorized (text : String)
  | notFound (text : String)
  | conflict (text : String)
  | provider (text : String)
  | internal (cause : InternalError)
  deriving DecidableEq

def ApiError.message : ApiError → String
  | .badRequest text => text
  | .unauthorized text => text
  | .notFound text => text
  | .conflict text => text
  | .provider text => text
  | .internal cause => cause.message

/-- `From<sqlx::Error> for ApiError`. -/
def ApiError.ofDb (error : DbError) : ApiError := .internal (.db error)

/-- Why a worker gives a target up. -/
inductive TargetFailure
  | invalidProvider (error : String)
  | connectionUnavailable (error : ApiError)
  | notConfigured (provider : String)
  | undecryptable (error : String)
  | publishFailed (error : String)
  deriving DecidableEq

def TargetFailure.message : TargetFailure → String
  | .invalidProvider error => s!"invalid provider on queued target: {error}"
  | .connectionUnavailable error => s!"provider connection is unavailable: {error.message}"
  | .notConfigured provider => s!"{provider} is not configured on this deployment"
  | .undecryptable error => s!"could not decrypt provider credentials: {error}"
  | .publishFailed error => error

/-! ## Rows -/

structure EventRow where
  id : Uuid
  ownerId : Uuid
  document : Value
  createdAt : Instant

/-- The columns of a connection that an upsert leaves as they are. -/
structure ConnectionFixed where
  id : Uuid
  userId : Uuid
  provider : String
  accountKey : String
  createdAt : Instant

structure ConnectionRow extends ConnectionFixed where
  displayName : String
  metadata : Value
  tokenEnvelope : String
  updatedAt : Instant

/-- The associated data under which the credentials of an account are encrypted. -/
def aadOf (userId : Uuid) (provider accountKey : String) : String :=
  uuidText userId ++ s!":{provider}:{accountKey}"

/-- `ConnectionRow::aad`. -/
def ConnectionRow.aad (c : ConnectionRow) : String := aadOf c.userId c.provider c.accountKey

/-- The columns of a job that no statement updates. -/
structure JobFixed where
  id : Uuid
  userId : Uuid
  eventId : Uuid
  idempotencyKey : String
  createdAt : Instant
  deriving DecidableEq

structure JobRow extends JobFixed where
  status : String
  updatedAt : Instant
  deriving DecidableEq

/-- The columns of a target that no statement updates. -/
structure TargetFixed where
  id : Uuid
  jobId : Uuid
  connectionId : Uuid
  provider : String
  options : Value

structure TargetRow extends TargetFixed where
  status : String
  attempt : ℕ
  result : Option Value
  error : Option String

structure OAuthSession where
  userId : Uuid
  provider : String
  pkceVerifier : Option String
  usesPkce : Bool

/-! ## Requests and replies -/

structure CreateEventInput where
  title : String
  summary : String
  descriptionHtml : String
  startsAt : Instant
  endsAt : Instant
  timezone : String
  canonicalUrl : String
  onlineUrl : Option String
  venue : Option Value
  tags : List String
  metadata : List (String × Value)

structure CallbackQuery where
  code : Option String
  state : String
  error : Option String
  errorDescription : Option String

structure ManualConnectionInput where
  provider : ProviderKind
  accountKey : String
  displayName : String
  metadata : Value
  secret : Option String

/-- The requests that reach the store, each with its authenticated user.  The key of
a cross-post request is the `Idempotency-Key` header, if there is a readable one. -/
inductive Request
  | createEvent (user : Uuid) (input : CreateEventInput)
  | listEvents (user : Uuid)
  | getEvent (user id : Uuid)
  | crossPost (user eventId : Uuid) (key : Option String) (targets : List PublishTarget)
  | getJob (user jobId : Uuid)
  | start (user : Uuid) (provider : String)
  | callback (provider : String) (query : CallbackQuery)
  | createManual (user : Uuid) (input : ManualConnectionInput)
  | listConnections (user : Uuid)
  | deleteConnection (user id : Uuid)

/-- A target as `jobs::get` shows it. -/
structure TargetView where
  id : Uuid
  connectionId : Uuid
  provider : String
  options : Value
  status : String
  attempt : ℕ
  result : Option Value
  error : Option String

/-- The status and the body of a successful reply. -/
inductive Response
  | event (status : ℕ) (event : EventDraft)
  | events (events : List EventDraft)
  | job (status : ℕ) (job : JobRow)
  | jobView (job : JobRow) (targets : List TargetView)
  | authorization (provider : ProviderKind) (url : String) (expiresInSeconds : ℕ)
  | redirect (path : String) (connected : String) (accounts : ℕ)
  | connection (row : ConnectionRow)
  | connections (rows : List ConnectionRow)
  | noContent

structure JobUpdate where
  jobId : Uuid
  eventId : Uuid
  provider : Option ProviderKind
  status : PublicationStatus
  attempt : ℕ
  message : String
  occurredAt : Instant
  publication : Option Publication

/-! ## The deployment -/

/-- What the service knows of a configured adapter without calling the provider. -/
structure Adapter where
  oauth : Bool
  authorizationUrl : (state : String) → (challenge : Option String) →
    Except ProviderError OAuthStart

/-- The shared crates and the configuration the service runs with. -/
structure Deployment where
  asStr : ProviderKind → String
  fromStr : String → Except String ProviderKind
  displayProvider : ProviderKind → String
  displayProviderError : ProviderError → String
  providers : ProviderKind → Option Adapter
  validateEvent : EventDraft → Except String Unit
  validateCrossPost : CrossPostRequest → Except String Unit
  eventToValue : EventDraft → Except String Value
  eventFromValue : Value → Except String EventDraft
  publicationToValue : Publication → Except String Value
  decrypt : (aad envelope : String) → Except String TokenSet
  sha256 : Bytes → Bytes
  parseUrl : String → Except String Url
  integrationsUrl : Except String String

end Service
