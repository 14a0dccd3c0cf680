/-
# The OAuth flow is bound to its start

Whatever the order of starts and callbacks, if the drawn texts are distinct and the hash
does not collide on the texts of the run:

* a callback that exchanges a code has consumed the session of one call of `start`, with its
  own state and provider, before the session expired, and sends that call's verifier if the
  authorization URL uses PKCE (`ExchangesBound`);
* no two callbacks consume the session of one call (`ConsumedOnce`);
* a connection that a callback writes has the user and the provider of that call, and is
  written after the exchange (`WritesBound`).
-/
import EvglApi.AtMostOnce
import EvglApi.Sessions

open Concurrency

namespace Service

variable {env : Deployment} {h h₁ h₂ : List (Entry Stmt Role Draw)} {e : Entry Stmt Role Draw}
  {p : Pool Stmt Role Outcome World} {c c' i n : ℕ} {f f' : Flow}

/-- The program at position `c` has consumed the session that the program at position `i` had
stored before, and which had not expired. -/
def Consumes (env : Deployment) (h : List (Entry Stmt Role Draw)) (c i : ℕ) (f : Flow) : Prop :=
  ∃ h₁ e h₂ n x₁ x x₃ expiresAt, h = h₁ ++ e :: h₂ ∧ e.thread = c ∧
    e.toAct = deletion n (hashState env f.token) x (f.session env) ∧
    consuming n (hashState env f.token) (f.session env) x₁ x x₃ <+: own c h ∧
    Started env h₁ i f expiresAt ∧ x.now < expiresAt

/-- A code is exchanged by a callback that has consumed the session of exactly one call of
`start`, for the state and the provider of the callback, and with the verifier of the call. -/
def ExchangesBound (env : Deployment) (h : List (Entry Stmt Role Draw)) : Prop :=
  ∀ h₁ h₂ m provider code verifier x answer c r,
    h = h₁ ++ ⟨⟨.exchangeCode m provider code verifier, x, answer⟩, c, r⟩ :: h₂ →
    ∃ path query i f, r = .request m (.callback path query) ∧ Consumes env h₁ c i f ∧
      f.token = query.state ∧ f.provider = provider ∧ env.fromStr path = .ok provider ∧
      verifier = (if f.oauth.usesPkce then some f.verifier else none) ∧
      ∀ i' f' expiresAt, Started env h i' f' expiresAt → f'.token = query.state → i' = i

/-- The session of a call of `start` is consumed by one callback at most. -/
def ConsumedOnce (env : Deployment) (h : List (Entry Stmt Role Draw)) : Prop :=
  ∀ c c' i f f', Consumes env h c i f → Consumes env h c' i f' → c = c'

/-- A connection that a callback writes has the user and the provider of the call of `start`
whose session it has consumed, and comes after its exchange. -/
def WritesBound (env : Deployment) (h : List (Entry Stmt Role Draw)) : Prop :=
  ∀ h₁ h₂ c n path query user name accountKey displayName metadata envelope x row,
    h = h₁ ++ ⟨⟨.query (.upsertConnection user name accountKey displayName metadata envelope), x,
      .ok row⟩, c, .request n (.callback path query)⟩ :: h₂ →
    ∃ i f, Consumes env h₁ c i f ∧ f.token = query.state ∧ row.userId = f.user ∧
      row.provider = env.asStr f.provider ∧
      ∃ code verifier y tokens,
        ⟨.exchangeCode n f.provider code verifier, y, .ok tokens⟩ ∈ own c h₁

/-! ## Consumed sessions -/

/-- A session that is consumed is that of a call of `start`. -/
theorem exists_consumes (hp : Conducted (service env) (connecting env) h₂ p)
    (hinv : SessionInv h₂ p.shared.sessions) (hstarts : h <+: h₂) {stateHash : String}
    {session : OAuthSession} {x₁ x₂ x₃ : Draw}
    (hown : consuming n stateHash session x₁ x₂ x₃ <+: own c h) :
    ∃ i f, Consumes env h c i f ∧ hashState env f.token = stateHash ∧ f.session env = session := by
  have hmem : deletion n stateHash x₂ session ∈ own c h :=
    hown.subset (List.mem_cons_of_mem _ List.mem_cons_self)
  obtain ⟨e, he, hthread, ha⟩ := mem_own.mp hmem
  obtain ⟨k₁, k₂, rfl⟩ := exists_split_of_mem he
  obtain ⟨rest, rfl⟩ := hstarts
  -- the row that was deleted had been stored before
  obtain ⟨s, ⟨d, hd, m, y, had, hexpires⟩, hsession, hhash, hlt⟩ :=
    hinv.read k₁ e (k₂ ++ rest) n stateHash x₂ session (by rw [List.append_assoc]; rfl) ha
  obtain ⟨l₁, l₂, rfl⟩ := exists_split_of_mem hd
  have hsplit : l₁ ++ d :: l₂ ++ e :: k₂ ++ rest = l₁ ++ d :: (l₂ ++ e :: k₂ ++ rest) := by
    simp only [List.append_assoc, List.cons_append]
  -- and what was stored comes from a call of `start`
  obtain ⟨f, hstarted, hhash', hsession', -⟩ := started_of_storing hp hsplit had
  have hstarted' : Started env (l₁ ++ d :: l₂) d.thread f (y.now + tenMinutes) := by
    refine hstarted.mono hp ⟨l₂, by simp⟩ ?_
    rw [List.append_assoc]
    exact List.prefix_append _ _
  have hhash'' : hashState env f.token = stateHash := hhash'.trans hhash
  have hsession'' : f.session env = session := hsession'.trans hsession
  refine ⟨d.thread, f, ⟨l₁ ++ d :: l₂, e, k₂, n, x₁, x₂, x₃, _, rfl, hthread, ?_, ?_, hstarted',
    hexpires ▸ hlt⟩, hhash'', hsession''⟩
  · rw [hhash'', hsession'']
    exact ha
  · rw [hhash'', hsession'']
    exact hown

/-- A consumed session is claimed. -/
theorem Consumes.claims (hconsumes : Consumes env h c i f) :
    Claims h c (hashState env f.token) := by
  obtain ⟨h₁, e, h₂, n, x₁, x, x₃, expiresAt, -, -, -, hown, -⟩ := hconsumes
  exact Or.inr ⟨n, _, x₁, x, x₃, hown⟩

theorem Consumes.started (hp : Conducted (service env) (connecting env) h₂ p) (hstarts : h <+: h₂)
    (hconsumes : Consumes env h c i f) : ∃ expiresAt, Started env h i f expiresAt := by
  obtain ⟨h₁, e, k, n, x₁, x, x₃, expiresAt, rfl, -, -, -, hstarted, -⟩ := hconsumes
  exact ⟨expiresAt, hstarted.mono hp (List.prefix_append _ _) hstarts⟩

/-- A call of `start` has one token. -/
theorem Started.token_eq {t t' : Instant} (hstarted : Started env h i f t)
    (hstarted' : Started env h i f' t') : f.token = f'.token := by
  obtain ⟨n, q, x₁, x₂, x₃, -, ⟨rest, hown⟩, -⟩ := hstarted
  obtain ⟨n', q', x₁', x₂', x₃', -, ⟨rest', hown'⟩, -⟩ := hstarted'
  -- the first act of the call draws the token
  have hfirst := (List.cons.inj (hown.trans hown'.symm)).1
  injection hfirst

/-- The state of a callback is a text of the run. -/
theorem mem_hashedTexts_of_callback {path : String} {query : CallbackQuery} (he : e ∈ h)
    (hrole : e.role = .request n (.callback path query)) : query.state ∈ hashedTexts h := by
  refine List.mem_append_right _ (List.mem_filterMap.mpr ⟨e, he, ?_⟩)
  rw [presentedState, hrole]

/-- The hash of a callback's state is that of one state token only. -/
theorem token_eq_state (hsha : NoCollision env h) {path : String} {query : CallbackQuery}
    {t : Instant} (he : e ∈ h) (hrole : e.role = .request n (.callback path query))
    (hstarted : Started env h i f t) (hhash : hashState env f.token = hashState env query.state) :
    f.token = query.state := by
  obtain ⟨d, hd, -, hdtext⟩ := hstarted.exists_token
  exact hsha _ (mem_hashedTexts_of_startText hd hdtext) _ (mem_hashedTexts_of_callback he hrole)
    hhash

/-- The provider of a session is that of its flow. -/
theorem provider_eq (hnames : env.NamesParse) {session : OAuthSession} {provider : ProviderKind}
    (hsession : f.session env = session) (hprovider : env.fromStr session.provider = .ok provider) :
    f.provider = provider := by
  rw [← hsession] at hprovider
  exact Except.ok.inj ((hnames f.provider).symm.trans hprovider)

/-- The row that an upsert answers with is that of its account. -/
theorem upsertConnection_row {w w' : World} {x : Draw} {user : Uuid}
    {name accountKey displayName envelope : String} {metadata : Value} {row : ConnectionRow}
    (hexec : w.upsertConnection x user name accountKey displayName metadata envelope =
      some (.ok row, w')) :
    row.hasKey user name accountKey ∧ row.tokenEnvelope = envelope := by
  obtain ⟨row', hrow, hkey, ⟨-, -, henvelope⟩, -⟩ := upsertConnection_cases hexec
  obtain rfl := Except.ok.inj hrow
  exact ⟨hkey, henvelope⟩

/-! ## The theorem -/

theorem exchangesBound_of_inv (hnames : env.NamesParse) (hinv : OauthInv env h p)
    (hfresh : FreshDraws h) (hsha : NoCollision env h) : ExchangesBound env h := by
  obtain ⟨⟨-, hp⟩, hsessions⟩ := hinv
  intro h₁ h₂ m provider code verifier x answer c r heq
  have hallowed := hp.allowed h₁ _ h₂ heq
  cases r with
  | worker j => exact hallowed.elim
  | request m' q =>
      obtain ⟨rfl, path, query, session, x₁, x₂, x₃, rfl, hown, hpassed, hverifier⟩ := hallowed
      have hstarts : h₁ <+: h := ⟨_, heq.symm⟩
      have hown' : consuming m (hashState env query.state) session x₁ x₂ x₃ <+: own c h₁ :=
        ⟨[], (List.append_nil _).trans hown.symm⟩
      obtain ⟨i, f, hconsumes, hhash, hsession⟩ :=
        exists_consumes hp (hsessions hfresh hsha) hstarts hown'
      obtain ⟨t, hstarted⟩ := hconsumes.started hp hstarts
      have hstarted := hstarted.mono hp hstarts (List.prefix_refl _)
      -- the state of the callback is the token of the call: their hashes do not collide
      have htoken : f.token = query.state := by
        have hmem : (⟨⟨.exchangeCode m provider code verifier, x, answer⟩, c,
            .request m (.callback path query)⟩ : Entry Stmt Role Draw) ∈ h := by
          rw [heq]
          exact List.mem_append_right _ List.mem_cons_self
        exact token_eq_state hsha hmem rfl hstarted hhash
      refine ⟨path, query, i, f, rfl, hconsumes, htoken, provider_eq hnames hsession hpassed.session,
        hpassed.path, ?_, fun i' f' t' hstarted' htoken' => ?_⟩
      · rw [hverifier, ← hsession]
        rfl
      · exact hstarted'.thread_eq hfresh hstarted (htoken'.trans htoken.symm)

theorem consumedOnce_of_inv (hinv : OauthInv env h p) (hfresh : FreshDraws h)
    (hsha : NoCollision env h) : ConsumedOnce env h := by
  obtain ⟨⟨-, hp⟩, hsessions⟩ := hinv
  intro c c' i f f' hconsumes hconsumes'
  obtain ⟨t, hstarted⟩ := hconsumes.started hp (List.prefix_refl _)
  obtain ⟨t', hstarted'⟩ := hconsumes'.started hp (List.prefix_refl _)
  have hclaims' := hconsumes'.claims
  rw [← hstarted.token_eq hstarted'] at hclaims'
  exact (hsessions hfresh hsha).once c c' _ hconsumes.claims hclaims'

theorem writesBound_of_inv (hnames : env.NamesParse) (hinv : OauthInv env h p)
    (hfresh : FreshDraws h) (hsha : NoCollision env h) : WritesBound env h := by
  obtain ⟨⟨-, hp⟩, hsessions⟩ := hinv
  intro h₁ h₂ c n path query user name accountKey displayName metadata envelope x row heq
  have hmem : (⟨⟨.query (.upsertConnection user name accountKey displayName metadata envelope), x,
      .ok row⟩, c, .request n (.callback path query)⟩ : Entry Stmt Role Draw) ∈ h := by
    rw [heq]
    exact List.mem_append_right _ List.mem_cons_self
  obtain ⟨w, w', hexec⟩ := hp.executed _ hmem
  obtain ⟨provider, tokens, rfl, hgrants, -⟩ := hp.allowed h₁ _ h₂ heq
  obtain ⟨session, code, exchanged, accounts, account, x₁, x₂, x₃, x₄, x₅, hown, hpassed, rfl, -⟩ :=
    hgrants
  have hstarts : h₁ <+: h := ⟨_, heq.symm⟩
  obtain ⟨i, f, hconsumes, hhash, hsession⟩ := exists_consumes hp (hsessions hfresh hsha) hstarts
    ((List.prefix_append _ _).trans hown)
  obtain ⟨t, hstarted⟩ := hconsumes.started hp hstarts
  have hstarted := hstarted.mono hp hstarts (List.prefix_refl _)
  obtain rfl := provider_eq hnames hsession hpassed.session
  -- the row that was written has the key of the statement
  have hrow : row.hasKey session.userId (env.asStr f.provider) accountKey := by
    have hstmt : Stmt.exec (.query (.upsertConnection session.userId (env.asStr f.provider)
        accountKey displayName metadata envelope)) x w = some (.ok row, w') := hexec
    rcases Stmt.exec_query hstmt with ⟨text, -, heq, -⟩ | ⟨-, hupsert⟩
    · cases heq
    · exact (upsertConnection_row hupsert).1
  refine ⟨i, f, hconsumes, token_eq_state hsha hmem rfl hstarted hhash, ?_, hrow.2.1, code,
    session.verifier, x₄, exchanged, ?_⟩
  · rw [hrow.1, ← hsession]
    rfl
  · exact hown.subset (List.mem_append_right _ List.mem_cons_self)

/-- OAuth flows are bound to their starts and used once, in every run. -/
theorem oauth_flow_bound {ls : List (Label Draw Request)} (hnames : env.NamesParse)
    (hrun : idleService.run (service env) ls = some p)
    (hfresh : FreshDraws (idleService.history (service env) ls))
    (hsha : NoCollision env (idleService.history (service env) ls)) :
    ExchangesBound env (idleService.history (service env) ls) ∧
      ConsumedOnce env (idleService.history (service env) ls) ∧
      WritesBound env (idleService.history (service env) ls) := by
  have hinv := oauthInv_of_run hrun
  exact ⟨exchangesBound_of_inv hnames hinv hfresh hsha, consumedOnce_of_inv hinv hfresh hsha,
    writesBound_of_inv hnames hinv hfresh hsha⟩

/-! ## A run -/

namespace Sample

/-- The deployment with one adapter that uses OAuth. -/
def oauthDeployment : Deployment :=
  { deployment with
    providers
      | .meetup => some ⟨true, fun state _ => .ok ⟨"https://example.com/?state=" ++ state, true⟩⟩
      | _ => none }

theorem oauthDeployment_namesParse : oauthDeployment.NamesParse := by
  intro p
  cases p <;> rfl

/-- User 1 starts a flow, its callback connects an account, and is replayed. -/
def flow : List (Label Draw Request) :=
  let callback : Label Draw Request :=
    .arrive (.callback "meetup" ⟨some "code", "state", none, none⟩)
  [.arrive (.start 1 "meetup"), .turn 0 { text := "state" }, .turn 0 { text := "verifier" },
   .turn 0 { now := 5 }, callback, callback, .turn 1 {}, .turn 2 {}, .turn 1 { now := 7 },
   .turn 1 {}, .turn 2 { now := 8 }, .turn 2 {}, .turn 1 {},
   .turn 1 { accounts := .ok [⟨"account", "Account", .null, none⟩] },
   .turn 1 { envelope := .ok ("sealed " ++ aadOf 1 "meetup" "account") }, .turn 1 { uuid := 10 }]

end Sample

/-- The replayed callback ends without a connection. -/
theorem oauth_flow_bound_sample :
    ∃ p, idleService.run (service Sample.oauthDeployment) Sample.flow = some p ∧
      (p.shared.connections.map fun c => (c.userId, c.provider)) = [(1, "meetup")] ∧
      let h := idleService.history (service Sample.oauthDeployment) Sample.flow
      ExchangesBound Sample.oauthDeployment h ∧ ConsumedOnce Sample.oauthDeployment h ∧
        WritesBound Sample.oauthDeployment h := by
  have hrun : ((idleService.run (service Sample.oauthDeployment) Sample.flow).map fun p =>
      p.shared.connections.map fun c => (c.userId, c.provider)) = some [(1, "meetup")] := by
    decide +kernel
  obtain ⟨p, hp, hrow⟩ := Option.map_eq_some_iff.mp hrun
  have hfresh : FreshDraws (idleService.history (service Sample.oauthDeployment) Sample.flow) := by
    decide +kernel
  have hsha : NoCollision Sample.oauthDeployment
      (idleService.history (service Sample.oauthDeployment) Sample.flow) := by
    decide +kernel
  exact ⟨p, hp, hrow, oauth_flow_bound Sample.oauthDeployment_namesParse hp hfresh hsha⟩

end Service
