/-
# What the handlers of `oauth.rs` have done before

The conduct of the handlers that store sessions and credentials: each of their statements
with the ones that precede it in the same handler.

* `Flow` is what a call of `start` puts together, `Flow.insertion` its last statement.
* `consuming` is the transaction in which a callback consumes a session, and `Passed` what
  the callback has checked before it exchanges its code.
* `Grants` says whose tokens are stored in a connection, and `Sealing` that they were
  encrypted just before.
* `Stmt.Vetted` is what a request has checked before it stores a session or a connection,
  whatever it has done.
* `acts_handle`: every handler keeps to this conduct and has checked that much.
-/
import EvglApi.ApiRules
import EvglApi.Fallible
import EvglApi.History

open Concurrency Fallible

namespace Service

variable (env : Deployment)

/-! ## The two halves of the flow -/

/-- What a call of `start` puts together. -/
structure Flow where
  user : Uuid
  provider : ProviderKind
  token : String
  verifier : String
  oauth : OAuthStart

namespace Flow

/-- The request asks for this flow, and the adapter has answered with its URL. -/
def AskedBy (f : Flow) (q : Request) : Prop :=
  ∃ name adapter, q = .start f.user name ∧ env.fromStr name = .ok f.provider ∧
    env.providers f.provider = some adapter ∧
    adapter.authorizationUrl f.token (some (hashState env f.verifier)) = .ok f.oauth

/-- The state token and the verifier are drawn. -/
def draws (f : Flow) (x₁ x₂ : Draw) : List (Act Stmt Draw) :=
  [⟨.randomUrlsafe 32, x₁, f.token⟩, ⟨.randomUrlsafe 48, x₂, f.verifier⟩]

/-- The session is stored. -/
def insertion (f : Flow) (n : ℕ) : Query Unit :=
  .insertOauthSession n (hashState env f.token) f.user (env.asStr f.provider) (some f.verifier)
    f.oauth.usesPkce

/-- The session of the flow. -/
def session (f : Flow) : OAuthSession :=
  { userId := f.user, provider := env.asStr f.provider, pkceVerifier := some f.verifier
    usesPkce := f.oauth.usesPkce }

end Flow

/-- The verifier that goes with the code of a session. -/
def OAuthSession.verifier (session : OAuthSession) : Option String :=
  if session.usesPkce then session.pkceVerifier else none

/-- The first statement of a transaction. -/
def beginning (n : ℕ) (x : Draw) : Act Stmt Draw := ⟨.query (.begin n), x, .ok ()⟩

/-- The session with this hash is deleted. -/
def deletion (n : ℕ) (stateHash : String) (x : Draw) (session : OAuthSession) : Act Stmt Draw :=
  ⟨.query (.deleteOauthSession n stateHash), x, .ok (some session)⟩

/-- The transaction is committed. -/
def committing (n : ℕ) (x : Draw) : Act Stmt Draw := ⟨.query (.commit n), x, .ok ()⟩

/-- The transaction in which a callback consumes the session with this hash. -/
def consuming (n : ℕ) (stateHash : String) (session : OAuthSession) (x₁ x₂ x₃ : Draw) :
    List (Act Stmt Draw) :=
  [beginning n x₁, deletion n stateHash x₂ session, committing n x₃]

/-- What a callback has passed before it exchanges its code. -/
structure Passed (path : String) (query : CallbackQuery) (session : OAuthSession)
    (provider : ProviderKind) (code : String) : Prop where
  error : query.error = none
  session : env.fromStr session.provider = .ok provider
  path : env.fromStr path = .ok provider
  code : query.code = some code

/-- The code is exchanged, and the accounts of the tokens are resolved. -/
def exchanging (n : ℕ) (provider : ProviderKind) (code : String) (session : OAuthSession)
    (tokens : TokenSet) (accounts : List Account) (x₁ x₂ : Draw) : List (Act Stmt Draw) :=
  [⟨.exchangeCode n provider code session.verifier, x₁, .ok tokens⟩,
    ⟨.resolveAccounts provider tokens, x₂, .ok accounts⟩]

/-! ## Credentials -/

/-- The token set of a manual connection. -/
def manualTokens (secret : String) : TokenSet :=
  { accessToken := secret, refreshToken := none, expiresAt := none, scopes := []
    providerData := .null }

/-- A callback has the tokens of an account from its exchange. -/
def GrantsAccount (n : ℕ) (path : String) (query : CallbackQuery) (acts : List (Act Stmt Draw))
    (user : Uuid) (provider : ProviderKind) (accountKey : String) (tokens : TokenSet) : Prop :=
  ∃ session code exchanged accounts account x₁ x₂ x₃ x₄ x₅,
    consuming n (hashState env query.state) session x₁ x₂ x₃ ++
      exchanging n provider code session exchanged accounts x₄ x₅ <+: acts ∧
    Passed env path query session provider code ∧ session.userId = user ∧ account ∈ accounts ∧
      account.accountKey = accountKey ∧ account.tokenOverride.getD exchanged = tokens

/-- The request has the tokens for this account: from an exchange, or as a secret that it
has been sent or has drawn. -/
def Grants (n : ℕ) (q : Request) (acts : List (Act Stmt Draw)) (user : Uuid)
    (provider : ProviderKind) (accountKey : String) (tokens : TokenSet) : Prop :=
  match q with
  | .callback path query => GrantsAccount env n path query acts user provider accountKey tokens
  | .createManual u input => u = user ∧ input.provider = provider ∧
      input.accountKey = accountKey ∧ ∃ secret, tokens = manualTokens secret ∧
        (input.secret = some secret ∨
          input.secret = none ∧ ∃ x rest, acts = ⟨.randomUrlsafe 32, x, secret⟩ :: rest)
  | _ => False

/-- The tokens have just been encrypted. -/
def Sealing (acts : List (Act Stmt Draw)) (aad : String) (tokens : TokenSet)
    (envelope : String) : Prop :=
  ∃ rest x, acts = rest ++ [⟨.encrypt aad tokens, x, .ok envelope⟩]

/-! ## What a request has done -/

/-- What request `n` has done before it executes the query. -/
def Query.Prepared {β : Type} (n : ℕ) (q : Request) (acts : List (Act Stmt Draw)) :
    Query β → Prop
  | .insertOauthSession m stateHash user provider verifier usesPkce =>
      ∃ f : Flow, f.AskedBy env q ∧ (∃ x₁ x₂, acts = f.draws x₁ x₂) ∧
        Query.insertOauthSession m stateHash user provider verifier usesPkce = f.insertion env n
  | .deleteOauthSession m stateHash => m = n ∧ ∃ path query x,
      q = .callback path query ∧ stateHash = hashState env query.state ∧ acts = [beginning n x]
  | .commit m => m = n
  | .upsertConnection user name accountKey _ _ envelope => ∃ provider tokens,
      name = env.asStr provider ∧ Grants env n q acts user provider accountKey tokens ∧
        Sealing acts (aadOf user (env.displayProvider provider) accountKey) tokens envelope
  | _ => True

/-- What request `n` has done before it executes the statement. -/
def Stmt.Prepared {β : Type} (n : ℕ) (q : Request) (acts : List (Act Stmt Draw)) :
    Stmt β → Prop
  | .query k => k.Prepared env n q acts
  | .rollback m => m = n
  | .exchangeCode m provider code verifier => m = n ∧
      ∃ path query session x₁ x₂ x₃, q = .callback path query ∧
        acts = consuming n (hashState env query.state) session x₁ x₂ x₃ ∧
        Passed env path query session provider code ∧ verifier = session.verifier
  | _ => True

/-! ## What a request has checked -/

/-- The provider with this name uses OAuth. -/
def OauthName (name : String) : Prop :=
  ∃ provider adapter, name = env.asStr provider ∧ env.providers provider = some adapter ∧
    adapter.oauth = true

/-- What is checked of a manual connection. -/
structure CheckedInput (input : ManualConnectionInput) : Prop where
  manual : ∃ adapter, env.providers input.provider = some adapter ∧ adapter.oauth = false
  webhook : input.provider = .genericWebhook → Oauth.checkWebhook env input = .ok ()

/-- What a request has checked before it executes the query. -/
def Query.Vetted {β : Type} (q : Request) : Query β → Prop
  | .insertOauthSession _ _ _ name _ _ => OauthName env name
  | .upsertConnection _ name _ _ metadata _ =>
      match q with
      | .createManual _ input => name = env.asStr input.provider ∧ metadata = input.metadata ∧
          CheckedInput env input
      | _ => True
  | _ => True

/-- What a request has checked before it executes the statement. -/
def Stmt.Vetted {β : Type} (q : Request) : Stmt β → Prop
  | .query k => k.Vetted env q
  | _ => True

/-! ## The conduct -/

/-- A worker neither opens a transaction nor stores sessions or connections. -/
def Query.Unconnected {β : Type} : Query β → Prop
  | .insertOauthSession .. => False
  | .deleteOauthSession .. => False
  | .commit _ => False
  | .upsertConnection .. => False
  | _ => True

def Stmt.Unconnected {β : Type} : Stmt β → Prop
  | .query k => k.Unconnected
  | .rollback _ => False
  | .exchangeCode .. => False
  | _ => True

/-- What handlers and workers have done before. -/
def connecting : Conduct Stmt Role Outcome Draw where
  allows
    | .request n q, acts, st => st.Prepared env n q acts
    | .worker _, _, st => st.Unconnected
  ends _ _ _ := True

/-- What handlers and workers have done and checked before. -/
def vetting : Conduct Stmt Role Outcome Draw where
  allows
    | .request n q, acts, st => st.Prepared env n q acts ∧ st.Vetted env q
    | .worker _, _, st => st.Unconnected
  ends _ _ _ := True

variable {env} {n : ℕ} {q : Request} {acts : List (Act Stmt Draw)} {α β : Type}

theorem Stmt.Unconnected.prepared {st : Stmt β} (h : st.Unconnected) :
    st.Prepared env n q acts := by
  cases st with
  | query k =>
      cases k with
      | insertOauthSession m stateHash user provider verifier usesPkce => exact h.elim
      | deleteOauthSession m stateHash => exact h.elim
      | commit m => exact h.elim
      | upsertConnection user provider accountKey displayName metadata envelope => exact h.elim
      | _ => trivial
  | rollback m => exact h.elim
  | exchangeCode m provider code verifier => exact h.elim
  | _ => trivial

theorem Stmt.Unconnected.vetted {st : Stmt β} (h : st.Unconnected) : st.Vetted env q := by
  cases st with
  | query k =>
      cases k with
      | insertOauthSession m stateHash user provider verifier usesPkce => exact h.elim
      | upsertConnection user provider accountKey displayName metadata envelope => exact h.elim
      | _ => trivial
  | _ => trivial

theorem Stmt.Aside.unconnected {st : Stmt β} (h : st.Aside) : st.Unconnected := by
  cases st with
  | query k =>
      cases k with
      | insertOauthSession m stateHash user provider verifier usesPkce => exact h.elim
      | deleteOauthSession m stateHash => exact h.elim
      | commit m => exact h.elim
      | upsertConnection user provider accountKey displayName metadata envelope => exact h.elim
      | _ => trivial
  | rollback m => exact h.elim
  | exchangeCode m provider code verifier => exact h.elim
  | _ => trivial

/-! ## Rules -/

section Rules

variable {r : Role} {Q : α → List (Act Stmt Draw) → Prop}
  {E : ApiError → List (Act Stmt Draw) → Prop}

/-- Whatever the program ends with. -/
def anyEnd (_ : α) (_ : List (Act Stmt Draw)) : Prop := True

theorem acts_query {k : Query α} (hallows : (vetting env).allows r acts (.query k))
    (h : ∀ x a, ending Q E (a.mapError .ofDb) (acts ++ [⟨.query k, x, a⟩])) :
    Acts (vetting env) r (Api.query k) Q E acts := Acts.attempt hallows h

/-- A query after which an error ends the program. -/
theorem acts_query_any {k : Query α} (hallows : (vetting env).allows r acts (.query k))
    (h : ∀ x a, Q a (acts ++ [⟨.query k, x, .ok a⟩])) :
    Acts (vetting env) r (Api.query k) Q anyEnd acts := by
  refine acts_query hallows fun x a => ?_
  cases a with
  | ok a => exact h x a
  | error e => trivial

/-- The scope of a transaction. -/
theorem acts_transaction {body : Api α}
    (h : ∀ x, Acts (vetting env) (.request n q) body Q anyEnd (acts ++ [beginning n x])) :
    Acts (vetting env) (.request n q) (Api.transaction n body) Q anyEnd acts := by
  refine Acts.bind (acts_query_any ⟨trivial, trivial⟩ fun x _ => ?_)
  show (vetting env).Follows _ (body.run.bind _) _ _
  refine Conduct.Follows.bind (Conduct.Follows.mono (h x) fun a acts h => ?_)
  cases a with
  | ok a => exact h
  | error e => exact ⟨⟨rfl, trivial⟩, fun _ _ => trivial⟩

/-- A program without such statements. -/
theorem acts_unconnected {p : Api α} (hp : Only Stmt.Unconnected p) :
    Acts (vetting env) r p anyEnd anyEnd acts := by
  refine Acts.of_only hp fun {β st} acts h => ?_
  cases r with
  | request n q => exact ⟨h.prepared, h.vetted⟩
  | worker j => exact h

end Rules

/-! ## The flow -/

theorem acts_start {user : Uuid} {name : String} :
    Acts (vetting env) (.request n (.start user name)) (Oauth.start env n user name) anyEnd
      anyEnd [] := by
  unfold Oauth.start
  refine Acts.bind (Acts.result (fun provider hprovider => ?_) fun _ _ => trivial)
  cases hadapter : env.providers provider with
  | none => exact Acts.throw trivial
  | some adapter =>
      show Acts _ _ (if _ then _ else _) _ _ _
      split
      · exact Acts.throw trivial
      · next hoauth =>
          refine Acts.bind (Acts.stmt ⟨trivial, trivial⟩ fun x₁ token => ?_)
          refine Acts.bind (Acts.stmt ⟨trivial, trivial⟩ fun x₂ verifier => ?_)
          refine Acts.bind (Acts.result (fun oauth hstart => ?_) fun _ _ => trivial)
          refine Acts.bind (acts_query_any ?_ fun _ _ => Acts.pure trivial)
          refine ⟨⟨⟨user, provider, token, verifier, oauth⟩, ⟨name, adapter, rfl, ?_, hadapter, ?_⟩,
            ⟨x₁, x₂, rfl⟩, rfl⟩, provider, adapter, rfl, hadapter, ?_⟩
          · exact mapError_eq_ok.mp hprovider
          · exact mapError_eq_ok.mp hstart
          · exact Bool.eq_true_of_not_eq_false hoauth

/-- The session that a callback goes on with is the one it has consumed. -/
theorem acts_consumeOauthSession {path : String} {query : CallbackQuery} :
    Acts (vetting env) (.request n (.callback path query))
      (Store.consumeOauthSession n (hashState env query.state))
      (fun session acts => ∃ x₁ x₂ x₃,
        acts = consuming n (hashState env query.state) session x₁ x₂ x₃) anyEnd [] := by
  refine acts_transaction fun x₁ => Acts.bind (acts_query_any ?_ fun x₂ session => ?_)
  · exact ⟨⟨rfl, path, query, x₁, rfl, rfl, rfl⟩, trivial⟩
  · cases session with
    | none => exact Acts.throw trivial
    | some session =>
        refine Acts.bind (acts_query_any ⟨rfl, trivial⟩ fun x₃ _ => Acts.pure ?_)
        exact ⟨x₁, x₂, x₃, rfl⟩

/-- The loop over the accounts stores the tokens of each account under its key. -/
theorem acts_connectAccounts {path : String} {query : CallbackQuery} {session : OAuthSession}
    {provider : ProviderKind} {code : String} {tokens : TokenSet} {accounts rest : List Account}
    {x₁ x₂ x₃ x₄ x₅ : Draw} (hpassed : Passed env path query session provider code)
    (hrest : rest ⊆ accounts)
    (hdone : consuming n (hashState env query.state) session x₁ x₂ x₃ ++
      exchanging n provider code session tokens accounts x₄ x₅ <+: acts) :
    Acts (vetting env) (.request n (.callback path query))
      (Oauth.connectAccounts env session.userId provider tokens rest) anyEnd anyEnd acts := by
  induction rest generalizing acts with
  | nil => exact Acts.pure trivial
  | cons account rest ih =>
      obtain ⟨hmem, hrest⟩ := List.cons_subset.mp hrest
      refine Acts.bind (Acts.attempt ⟨trivial, trivial⟩ fun x envelope => ?_)
      cases envelope with
      | error e => trivial
      | ok envelope =>
          refine Acts.bind (acts_query_any ?_ fun y row => ?_)
          · exact ⟨⟨provider, _, rfl, ⟨session, code, tokens, accounts, account, x₁, x₂, x₃, x₄, x₅,
              hdone.trans (List.prefix_append _ _), hpassed, rfl, hmem, rfl, rfl⟩, acts, x, rfl⟩,
              trivial⟩
          · refine Acts.andThen (ih hrest ?_) fun _ _ _ _ => Acts.pure trivial
            exact (hdone.trans (List.prefix_append _ _)).trans (List.prefix_append _ _)

theorem acts_callback {path : String} {query : CallbackQuery} :
    Acts (vetting env) (.request n (.callback path query)) (Oauth.callback env n path query)
      anyEnd anyEnd [] := by
  unfold Oauth.callback
  cases herror : query.error with
  | some error => exact Acts.throw trivial
  | none =>
      refine Acts.andThen acts_consumeOauthSession fun session acts h _ => ?_
      obtain ⟨x₁, x₂, x₃, rfl⟩ := h
      refine Acts.bind (Acts.result (fun provider hprovider => ?_) fun _ _ => trivial)
      refine Acts.bind (Acts.result (fun pathProvider hpath => ?_) fun _ _ => trivial)
      show Acts _ _ (if _ then _ else if _ then _ else _) _ _ _
      split
      · exact Acts.throw trivial
      · next hsame =>
          obtain rfl : provider = pathProvider := not_not.mp hsame
          split
          · exact Acts.throw trivial
          · cases hcode : query.code with
            | none => exact Acts.throw trivial
            | some code =>
                have hpassed : Passed env path query session provider code :=
                  ⟨herror, mapError_eq_ok.mp hprovider, mapError_eq_ok.mp hpath, hcode⟩
                refine Acts.bind (Acts.attempt ?_ fun x₄ tokens => ?_)
                · exact ⟨⟨rfl, path, query, session, x₁, x₂, x₃, rfl, rfl, hpassed, rfl⟩, trivial⟩
                · cases tokens with
                  | error e => trivial
                  | ok tokens =>
                      refine Acts.bind (Acts.attempt ⟨trivial, trivial⟩ fun x₅ accounts => ?_)
                      cases accounts with
                      | error e => trivial
                      | ok accounts =>
                          refine Acts.andThen (acts_connectAccounts hpassed
                            (List.Subset.refl accounts) (List.prefix_refl _))
                            fun connected acts _ _ => ?_
                          exact Acts.bind (Acts.result (fun _ _ => Acts.pure trivial)
                            fun _ _ => trivial)

/-- The secret of a manual connection, and what has been done to get it. -/
theorem acts_manualSecret {secret : Option String} :
    Acts (vetting env) (.request n q) (Oauth.manualSecret secret)
      (fun text acts => secret = some text ∨
        secret = none ∧ ∃ x rest, acts = ⟨.randomUrlsafe 32, x, text⟩ :: rest) anyEnd [] := by
  cases secret with
  | some secret => exact Acts.pure (Or.inl rfl)
  | none => exact Acts.stmt ⟨trivial, trivial⟩ fun x secret => Or.inr ⟨rfl, x, [], rfl⟩

/-- A manual connection stores the secret that was sent or drawn. -/
theorem acts_createManual {user : Uuid} {input : ManualConnectionInput} :
    Acts (vetting env) (.request n (.createManual user input))
      (Oauth.createManual env user input) anyEnd anyEnd [] := by
  unfold Oauth.createManual
  cases hadapter : env.providers input.provider with
  | none => exact Acts.throw trivial
  | some adapter =>
      show Acts _ _ (if _ then _ else if _ then _ else _) _ _ _
      split
      · exact Acts.throw trivial
      · next hmanual =>
          split
          · exact Acts.throw trivial
          · refine Acts.bind (Acts.result (fun _ hwebhook => ?_) fun _ _ => trivial)
            have hchecked : CheckedInput env input :=
              ⟨⟨adapter, hadapter, Bool.eq_false_of_not_eq_true hmanual⟩, fun heq => by
                rw [if_pos heq] at hwebhook
                exact hwebhook⟩
            refine Acts.andThen acts_manualSecret fun secret acts hsecret _ => ?_
            refine Acts.bind (Acts.attempt ⟨trivial, trivial⟩ fun x envelope => ?_)
            cases envelope with
            | error e => trivial
            | ok envelope =>
                refine Acts.bind (acts_query_any ?_ fun _ _ => Acts.pure trivial)
                refine ⟨⟨input.provider, manualTokens secret, rfl, ⟨rfl, rfl, rfl, secret, rfl, ?_⟩,
                  acts, x, rfl⟩, rfl, rfl, hchecked⟩
                rcases hsecret with hsecret | ⟨hnone, y, rest, rfl⟩
                · exact Or.inl hsecret
                · exact Or.inr ⟨hnone, y, rest ++ [_], rfl⟩

/-! ## The other programs -/

/-- A worker executes statements of its own kind only. -/
theorem only_worker (job : JobRow) : (worker env job).Every Stmt.Unconnected :=
  Prog.Every.mono Stmt.Aside.unconnected (aside_worker job)

theorem acts_crossPost {user eventId : Uuid} {key : Option String}
    {targets : List PublishTarget} :
    Acts (vetting env) (.request n (.crossPost user eventId key targets))
      (Events.crossPost env n user eventId key targets) anyEnd anyEnd [] := by
  cases key with
  | none => exact Acts.throw trivial
  | some key =>
      refine Acts.bind (Acts.result (fun _ _ => ?_) fun _ _ => trivial)
      refine Acts.andThen (acts_unconnected (only_getEvent trivial)) fun _ acts _ _ => ?_
      refine Acts.bind (acts_transaction fun x => ?_)
      refine Acts.bind (acts_query_any ⟨trivial, trivial⟩ fun y found => ?_)
      have hend : ∀ enqueued : Store.EnqueueResult, ∀ acts, Acts (vetting env)
          (.request n (.crossPost user eventId (some key) targets))
          (if enqueued.created then do
            Api.spawn (.worker enqueued.job.id) (worker env enqueued.job)
            pure (Response.job 202 enqueued.job)
          else pure (.job 200 enqueued.job)) anyEnd anyEnd acts := by
        intro enqueued acts
        split
        · refine Acts.bind ⟨Conduct.Follows.of_every (only_worker enqueued.job) fun _ h => h, ?_⟩
          exact Acts.pure trivial
        · exact Acts.pure trivial
      cases found with
      | some existing =>
          exact Acts.bind (acts_query_any ⟨rfl, trivial⟩ fun _ _ => Acts.pure (hend _ _))
      | none =>
          refine Acts.bind (acts_query_any ⟨trivial, trivial⟩ fun _ job => ?_)
          refine Acts.andThen (acts_unconnected
            (only_enqueueTargets (fun _ => trivial) (fun _ _ _ => trivial) targets))
            fun _ acts _ _ => ?_
          exact Acts.bind (acts_query_any ⟨rfl, trivial⟩ fun _ _ => Acts.pure (hend _ _))

/-- Every handler keeps to the conduct. -/
theorem acts_handle : Acts (vetting env) (.request n q) (handle env n q) anyEnd anyEnd [] := by
  cases q with
  | createEvent user input =>
      exact acts_unconnected (only_createEvent input trivial (fun _ _ => trivial) fun _ => trivial)
  | listEvents user =>
      exact acts_unconnected (Only.bind (Only.bind (Only.query trivial) fun _ => Only.result _)
        fun _ => Only.pure _)
  | getEvent user id =>
      exact acts_unconnected (Only.bind (only_getEvent trivial) fun _ => Only.pure _)
  | crossPost user eventId key targets => exact acts_crossPost
  | getJob user id =>
      exact acts_unconnected (Only.bind (only_getJob trivial trivial) fun _ => Only.pure _)
  | start user name => exact acts_start
  | callback path query => exact acts_callback
  | createManual user input => exact acts_createManual
  | listConnections user =>
      exact acts_unconnected (Only.bind (Only.query trivial) fun _ => Only.pure _)
  | deleteConnection user id => exact acts_unconnected (only_deleteConnection trivial)

/-- Every handler keeps to the conduct with its checks, with the answer in an outcome. -/
theorem follows_arrival (q : Request) (w : World) :
    (vetting env).Follows ((service env).arrival q w).1 ((service env).arrival q w).2
      ((vetting env).ends ((service env).arrival q w).1) [] := by
  have hhandle : Acts (vetting env) (.request w.requests.length q)
      (handle env w.requests.length q) anyEnd anyEnd [] := acts_handle
  exact Conduct.Follows.bind (Conduct.Follows.mono hhandle fun _ _ _ => trivial)

theorem allows_connecting {r : Role} {st : Stmt β} (h : (vetting env).allows r acts st) :
    (connecting env).allows r acts st := by
  cases r with
  | request n q => exact h.1
  | worker j => exact h

/-- No step of the service breaks the conduct with the checks. -/
theorem recorded_vetting (env : Deployment) :
    Recorded (service env) (Conducted (service env) (vetting env)) :=
  recorded_conducted follows_arrival

/-- No step of the service breaks the conduct. -/
theorem recorded_connecting (env : Deployment) :
    Recorded (service env) (Conducted (service env) (connecting env)) :=
  recorded_conducted fun q w =>
    (follows_arrival q w).weaken (fun _ _ _ => allows_connecting) fun _ _ _ _ => trivial

end Service
