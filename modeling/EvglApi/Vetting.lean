/-
# Webhook connections are vetted

Every stored connection of `generic_webhook` has an endpoint that the validation accepts and
a secret of 32 bytes or more, whatever the order of starts, callbacks, manual connections and
deletions.

* `checkWebhook_eq_ok_iff` is what `create_manual` checks of a webhook.
* `SessionsVetted` is the invariant of the flow: a session that is stored, or that a callback
  has deleted, belongs to a provider that uses OAuth.  A callback therefore never writes a
  webhook, and a webhook is what a manual connection wrote last (`vettedWebhook_of_mem`).
-/
import EvglApi.Envelopes

open Concurrency Fallible

namespace Service

variable {env : Deployment} {h h₁ h₂ : List (Entry Stmt Role Draw)} {e : Entry Stmt Role Draw}
  {p : Pool Stmt Role Outcome World} {x : Draw} {w w' : World} {c : ConnectionRow}

/-! ## The check -/

/-- The endpoint in the metadata of a webhook is accepted. -/
def AcceptedEndpoint (env : Deployment) (metadata : Value) : Prop :=
  ∃ text url, (metadata.get "endpoint").bind Value.asStr = some text ∧
    env.parseUrl text = .ok url ∧ Oauth.validateWebhookEndpoint url = .ok ()

/-- A webhook passes if its endpoint is accepted and its secret is sent and long enough. -/
theorem checkWebhook_eq_ok_iff {input : ManualConnectionInput} :
    Oauth.checkWebhook env input = .ok () ↔ AcceptedEndpoint env input.metadata ∧
      ∃ secret, input.secret = some secret ∧ 32 ≤ secret.utf8ByteSize := by
  have hsecret : (if input.secret.all fun secret => secret.utf8ByteSize < 32 then
        .error (.badRequest "generic_webhook requires a secret containing at least 32 characters")
      else .ok () : Except ApiError Unit) = .ok () ↔
      ∃ secret, input.secret = some secret ∧ 32 ≤ secret.utf8ByteSize := by
    cases input.secret with
    | none => simp
    | some secret => simp
  rw [Oauth.checkWebhook, ← hsecret, AcceptedEndpoint]
  cases (input.metadata.get "endpoint").bind Value.asStr with
  | none => simp
  | some text =>
      constructor
      · intro hcheck
        obtain ⟨url, hurl, hrest⟩ := bind_eq_ok.mp hcheck
        obtain ⟨⟨⟩, hvalid, hlong⟩ := bind_eq_ok.mp hrest
        exact ⟨⟨text, url, rfl, mapError_eq_ok.mp hurl, hvalid⟩, hlong⟩
      · rintro ⟨⟨text', url, htext, hurl, hvalid⟩, hlong⟩
        obtain rfl := Option.some.inj htext
        exact bind_eq_ok.mpr ⟨url, mapError_eq_ok.mpr hurl, bind_eq_ok.mpr ⟨(), hvalid, hlong⟩⟩

/-! ## Sessions -/

/-- A name belongs to one provider, and the webhook's is not one that uses OAuth. -/
theorem oauth_of_oauthName (hnames : env.NamesParse) {provider : ProviderKind}
    (hname : OauthName env (env.asStr provider)) :
    ∃ adapter, env.providers provider = some adapter ∧ adapter.oauth = true := by
  obtain ⟨provider', adapter, heq, hadapter, hoauth⟩ := hname
  have hparse := hnames provider'
  rw [← heq, hnames provider] at hparse
  obtain rfl := Except.ok.inj hparse
  exact ⟨adapter, hadapter, hoauth⟩

/-- The sessions that are stored and those that were deleted belong to providers that use
OAuth. -/
structure SessionsVetted (env : Deployment) (h : List (Entry Stmt Role Draw))
    (sessions : List SessionRow) : Prop where
  stored : ∀ s ∈ sessions, OauthName env s.provider
  deleted : ∀ e ∈ h, ∀ n stateHash x session, e.toAct = deletion n stateHash x session →
    OauthName env session.provider

/-- The invariant after one more act, if a session is only stored for such a provider. -/
theorem SessionsVetted.concat {sessions sessions' : List SessionRow}
    (hvetted : SessionsVetted env h sessions) (hmoves : Moves e.toAct sessions sessions')
    (hstoring : ∀ n s x, e.toAct = storing n s x → OauthName env s.provider) :
    SessionsVetted env (h ++ [e]) sessions' := by
  refine ⟨fun s hs => ?_, fun d hd n stateHash x session hact => ?_⟩
  · rcases hmoves.exists_of_mem hs with ⟨s', hs', heq, -⟩ | ⟨n, x, hact, -⟩
    · rw [heq]
      exact hvetted.stored s' hs'
    · exact hstoring n s x hact
  · rcases List.mem_append.mp hd with hd | hd
    · exact hvetted.deleted d hd n stateHash x session hact
    · obtain rfl := List.mem_singleton.mp hd
      obtain ⟨s, hs, -, rfl, -⟩ := hmoves.of_deletion hact
      exact hvetted.stored s hs

/-! ## The invariant -/

/-- What is known of a run, its connections, its checks and its sessions. -/
structure VettingInv (env : Deployment) (h : List (Entry Stmt Role Draw))
    (p : Pool Stmt Role Outcome World) : Prop where
  envelopes : EnvelopeInv env h p
  conducted : Conducted (service env) (vetting env) h p
  sessions : SessionsVetted env h p.shared.sessions

/-- A session is stored by a call of `start` for a provider that uses OAuth. -/
theorem oauthName_of_storing {r : Role} {n : ℕ} {s : SessionRow} {acts : List (Act Stmt Draw)}
    (hallows : (vetting env).allows r acts (storing n s x).stmt) : OauthName env s.provider := by
  cases r with
  | request m q => exact hallows.2
  | worker j => exact hallows.elim

theorem recorded_vettingInv (env : Deployment) : Recorded (service env) (VettingInv env) := by
  refine ⟨fun {h p} c hp => ?_, fun {h p i r β st k x b s} hp ht hexec => ?_,
    fun {h p i r r' child k} x hp ht => ?_⟩
  · exact ⟨(recorded_envelopeInv env).arrive c hp.envelopes,
      (recorded_vetting env).arrive c hp.conducted, hp.sessions⟩
  · refine ⟨(recorded_envelopeInv env).step hp.envelopes ht hexec,
      (recorded_vetting env).step hp.conducted ht hexec, ?_⟩
    refine hp.sessions.concat (moves_stmt hexec) fun n row y hact => ?_
    have hallows := (hp.conducted.follows i r _ ht).1
    change (⟨st, x, b⟩ : Act Stmt Draw) = _ at hact
    cases hact
    exact oauthName_of_storing (x := x) hallows
  · refine ⟨(recorded_envelopeInv env).fork x hp.envelopes ht,
      (recorded_vetting env).fork x hp.conducted ht, ?_⟩
    cases r' with
    | request m q => exact hp.sessions
    | worker j => exact hp.sessions

theorem vettingInv_of_run {ls : List (Label Draw Request)}
    (hrun : idleService.run (service env) ls = some p) :
    VettingInv env (idleService.history (service env) ls) p :=
  (recorded_vettingInv env).of_run
    ⟨⟨⟨Pool.Reaches.refl _, conducted_nil _⟩, List.nodup_nil, by simp [World.empty]⟩,
      conducted_nil _, by simp [World.empty], by simp⟩ hrun

/-! ## The theorem -/

/-- The vault opens the envelopes that it has made. -/
def VaultOpens (env : Deployment) (h : List (Entry Stmt Role Draw)) : Prop :=
  ∀ aad tokens envelope, Sealed h aad tokens envelope → env.decrypt aad envelope = .ok tokens

/-- The endpoint of a webhook is accepted and its envelope holds a secret of 32 bytes or
more. -/
structure VettedWebhook (env : Deployment) (h : List (Entry Stmt Role Draw))
    (c : ConnectionRow) : Prop where
  endpoint : AcceptedEndpoint env c.metadata
  secret : ∃ aad tokens, Sealed h aad tokens c.tokenEnvelope ∧
    (VaultOpens env h → env.decrypt aad c.tokenEnvelope = .ok tokens) ∧
    32 ≤ tokens.accessToken.utf8ByteSize

/-- Webhooks are vetted, OAuth sessions are not for webhooks, and manual connections are not
for providers that use OAuth. -/
structure Vetted (env : Deployment) (h : List (Entry Stmt Role Draw))
    (p : Pool Stmt Role Outcome World) : Prop where
  webhooks : ∀ c ∈ p.shared.connections, c.provider = env.asStr .genericWebhook →
    VettedWebhook env h c
  sessions : ∀ s ∈ p.shared.sessions, s.provider ≠ env.asStr .genericWebhook
  manual : ∀ e ∈ h, ∀ n user input c x, e.role = .request n (.createManual user input) →
    e.toAct = upserting c x → ¬ OauthName env c.provider

/-- A callback has the tokens of an account of a provider that uses OAuth only. -/
theorem oauth_of_grantsAccount (hnames : env.NamesParse) {sessions : List SessionRow}
    (hvetted : SessionsVetted env h sessions) {n i : ℕ} {path : String} {query : CallbackQuery}
    {user : Uuid} {provider : ProviderKind} {accountKey : String} {tokens : TokenSet}
    (hstarts : h₁ <+: h)
    (hgrants : GrantsAccount env n path query (own i h₁) user provider accountKey tokens) :
    ∃ adapter, env.providers provider = some adapter ∧ adapter.oauth = true := by
  obtain ⟨session, code, exchanged, accounts, account, x₁, x₂, x₃, x₄, x₅, hown, hpassed, -⟩ :=
    hgrants
  have hmem : deletion n (hashState env query.state) x₂ session ∈ own i h₁ :=
    hown.subset (List.mem_append_left _ (List.mem_cons_of_mem _ List.mem_cons_self))
  obtain ⟨e, he, -, hact⟩ := mem_own.mp hmem
  have hname := hvetted.deleted e (hstarts.subset he) _ _ _ _ hact
  -- the name of the session is that of the provider that it parses to
  have hsame : session.provider = env.asStr provider := by
    obtain ⟨provider', -, heq, -⟩ := hname
    have hparse := hpassed.session
    rw [heq, hnames provider'] at hparse
    rw [heq, Except.ok.inj hparse]
  rw [hsame] at hname
  exact oauth_of_oauthName hnames hname

theorem vettedWebhook_of_mem (hnames : env.NamesParse)
    (hwebhook : ∀ adapter, env.providers .genericWebhook = some adapter → adapter.oauth = false)
    (hinv : VettingInv env h p) (hc : c ∈ p.shared.connections)
    (hprovider : c.provider = env.asStr .genericWebhook) : VettedWebhook env h c := by
  obtain ⟨h₁, e, h₂, heq, ⟨x, hact⟩, -⟩ := hinv.envelopes.2.last c hc
  have hallowed := hinv.conducted.allowed h₁ e h₂ heq
  have hstarts : h₁ <+: h := ⟨_, heq.symm⟩
  obtain ⟨act, i, r⟩ := e
  obtain rfl : act = upserting c x := hact
  cases r with
  | worker j => exact hallowed.elim
  | request n q =>
      obtain ⟨⟨provider, tokens, hname, hgrants, hsealing⟩, hvetted⟩ := hallowed
      obtain rfl : provider = .genericWebhook := by
        have hparse := hnames provider
        rw [← hname, hprovider, hnames] at hparse
        exact (Except.ok.inj hparse).symm
      cases q with
      | callback path query =>
          obtain ⟨adapter, hadapter, hoauth⟩ :=
            oauth_of_grantsAccount hnames hinv.sessions hstarts hgrants
          rw [hwebhook adapter hadapter] at hoauth
          cases hoauth
      | createManual user input =>
          obtain ⟨rfl, hkind, -, secret, rfl, hsecret⟩ := hgrants
          obtain ⟨-, hmetadata, hchecked⟩ := hvetted
          obtain ⟨hendpoint, sent, hsent, hlength⟩ :=
            checkWebhook_eq_ok_iff.mp (hchecked.webhook hkind)
          -- the secret was sent, so none was drawn
          obtain rfl : sent = secret := by
            rcases hsecret with hsecret | ⟨hnone, -⟩
            · exact Option.some.inj (hsent.symm.trans hsecret)
            · rw [hnone] at hsent
              cases hsent
          have hsealed := sealed_of_own hstarts hsealing
          exact ⟨hmetadata ▸ hendpoint, _, _, hsealed, fun hopens => hopens _ _ _ hsealed, hlength⟩
      | _ => exact hgrants.elim

/-- A manual connection is not for a provider that uses OAuth. -/
theorem not_oauthName_of_manual (hnames : env.NamesParse) (hinv : VettingInv env h p) (he : e ∈ h)
    {n : ℕ} {user : Uuid} {input : ManualConnectionInput}
    (hrole : e.role = .request n (.createManual user input)) (hact : e.toAct = upserting c x) :
    ¬ OauthName env c.provider := by
  intro hname
  obtain ⟨h₁, h₂, heq⟩ := exists_split_of_mem he
  have hallowed := hinv.conducted.allowed h₁ e h₂ heq
  obtain ⟨act, i, r⟩ := e
  obtain rfl : act = upserting c x := hact
  obtain rfl : r = .request n (.createManual user input) := hrole
  obtain ⟨-, hprovider, -, ⟨adapter, hadapter, hmanual⟩, -⟩ := hallowed
  change c.provider = _ at hprovider
  rw [hprovider] at hname
  obtain ⟨adapter', hadapter', hoauth⟩ := oauth_of_oauthName hnames hname
  rw [hadapter] at hadapter'
  rw [← Option.some.inj hadapter', hmanual] at hoauth
  cases hoauth

/-- Webhook rows are always vetted, in every state that the service reaches. -/
theorem webhooks_vetted {ls : List (Label Draw Request)} (hnames : env.NamesParse)
    (hwebhook : ∀ adapter, env.providers .genericWebhook = some adapter → adapter.oauth = false)
    (hrun : idleService.run (service env) ls = some p) :
    Vetted env (idleService.history (service env) ls) p := by
  have hinv := vettingInv_of_run hrun
  refine ⟨fun c hc hprovider => vettedWebhook_of_mem hnames hwebhook hinv hc hprovider,
    fun s hs hprovider => ?_,
    fun e he n user input c x hrole hact => not_oauthName_of_manual hnames hinv he hrole hact⟩
  have hname := hinv.sessions.stored s hs
  rw [hprovider] at hname
  obtain ⟨adapter, hadapter, hoauth⟩ := oauth_of_oauthName hnames hname
  rw [hwebhook adapter hadapter] at hoauth
  cases hoauth

/-! ## A run -/

namespace Sample

/-- The deployment with an adapter that uses OAuth and one that does not. -/
def webhookDeployment : Deployment :=
  { deployment with
    providers
      | .meetup => some ⟨true, fun state _ => .ok ⟨"https://example.com/?state=" ++ state, true⟩⟩
      | .genericWebhook => some ⟨false, fun _ _ => .error (.other "not an OAuth provider")⟩
      | _ => none }

/-- User 2 connects a webhook, tries one without a secret, and replaces the first one, while
user 1 goes through a flow. -/
def webhooks : List (Label Draw Request) :=
  let manual (secret : Option String) : Label Draw Request :=
    .arrive (.createManual 2 ⟨.genericWebhook, "hook", "Hook",
      .object [("endpoint", .string "https://example.com/hook")], secret⟩)
  [.arrive (.start 1 "meetup"), manual (some "0123456789abcdef0123456789abcdef"),
   .turn 0 { text := "state" }, .turn 1 { envelope := .ok "first" }, .turn 0 { text := "verifier" },
   .turn 1 { uuid := 10 }, .turn 0 { now := 5 }, manual none, .arrive (.start 2 "generic_webhook"),
   manual (some "fedcba9876543210fedcba9876543210"), .turn 4 { envelope := .ok "second" },
   .turn 4 { uuid := 11 }]

theorem webhookDeployment_namesParse : webhookDeployment.NamesParse := by
  intro p
  cases p <;> rfl

end Sample

/-- The webhook is the one that was connected last, and the session is for the other
provider. -/
theorem webhooks_vetted_sample :
    ∃ p, idleService.run (service Sample.webhookDeployment) Sample.webhooks = some p ∧
      (p.shared.connections.map fun c => (c.provider, c.tokenEnvelope)) =
        [("generic_webhook", "second")] ∧
      (p.shared.sessions.map (·.provider)) = ["meetup"] ∧
      Vetted Sample.webhookDeployment
        (idleService.history (service Sample.webhookDeployment) Sample.webhooks) p := by
  have hrun : ((idleService.run (service Sample.webhookDeployment) Sample.webhooks).map fun p =>
      (p.shared.connections.map fun c => (c.provider, c.tokenEnvelope),
        p.shared.sessions.map (·.provider))) =
          some ([("generic_webhook", "second")], ["meetup"]) := by
    decide +kernel
  obtain ⟨p, hp, hrows⟩ := Option.map_eq_some_iff.mp hrun
  obtain ⟨hconnections, hsessions⟩ := Prod.mk.inj hrows
  refine ⟨p, hp, hconnections, hsessions, ?_⟩
  exact webhooks_vetted Sample.webhookDeployment_namesParse
    (fun adapter h => by rw [← Option.some.inj h]) hp

end Service
