/-
# Credentials stay bound to their row

With a vault that decrypts what was encrypted under its associated data only, the envelope
of every stored connection decrypts under the associated data of the row, to the tokens of
the last upsert of its account, and under that of no other row.

* `aadOf_injective`: the associated data determines user, provider and account key, whatever
  colons the account key has.
* `Writes` is what an executed statement does to the connections, and `AccountsInv` the
  invariant: a stored row is the answer of the last upsert of its account.
-/
import EvglApi.OauthFlow

open Concurrency

namespace Service

variable {env : Deployment} {h h₁ h₂ : List (Entry Stmt Role Draw)} {e : Entry Stmt Role Draw}
  {p : Pool Stmt Role Outcome World} {x : Draw} {w w' : World}

/-! ## The associated data -/

/-- A list is cut at the first occurrence of an element in one way. -/
theorem append_cons_inj {α : Type*} {a : α} {l l' r r' : List α} (hl : a ∉ l) (hl' : a ∉ l')
    (heq : l ++ a :: r = l' ++ a :: r') : l = l' ∧ r = r' := by
  induction l generalizing l' with
  | nil =>
      cases l' with
      | nil => exact ⟨rfl, (List.cons.inj heq).2⟩
      | cons b l' =>
          obtain ⟨rfl, -⟩ := List.cons.inj heq
          exact absurd List.mem_cons_self hl'
  | cons b l ih =>
      cases l' with
      | nil =>
          obtain ⟨rfl, -⟩ := List.cons.inj heq
          exact absurd List.mem_cons_self hl
      | cons b' l' =>
          obtain ⟨rfl, hrest⟩ := List.cons.inj heq
          obtain ⟨rfl, hr⟩ := ih (List.not_mem_of_not_mem_cons hl)
            (List.not_mem_of_not_mem_cons hl') hrest
          exact ⟨rfl, hr⟩

theorem toList_aadOf (user : Uuid) (provider accountKey : String) :
    (aadOf user provider accountKey).toList =
      (uuidText user).toList ++ ':' :: (provider.toList ++ ':' :: accountKey.toList) := by
  have htext : s!":{provider}:{accountKey}" = ":" ++ provider ++ ":" ++ accountKey := rfl
  rw [aadOf, htext]
  simp only [String.toList_append]
  simp

/-- The associated data determines the account, if provider names have no colon. -/
theorem aadOf_injective {user user' : Uuid} {provider provider' accountKey accountKey' : String}
    (hprovider : ':' ∉ provider.toList) (hprovider' : ':' ∉ provider'.toList)
    (haad : aadOf user provider accountKey = aadOf user' provider' accountKey') :
    user = user' ∧ provider = provider' ∧ accountKey = accountKey' := by
  have hlist := congrArg String.toList haad
  rw [toList_aadOf, toList_aadOf] at hlist
  -- the first colon ends the user, the second one the provider
  obtain ⟨huser, hrest⟩ := append_cons_inj (colon_notMem_uuidText user)
    (colon_notMem_uuidText user') hlist
  obtain ⟨hname, hkey⟩ := append_cons_inj hprovider hprovider' hrest
  exact ⟨uuidText_injective (String.toList_injective huser), String.toList_injective hname,
    String.toList_injective hkey⟩

/-! ## The statements on connections -/

/-- The connection is upserted. -/
def upserting (c : ConnectionRow) (x : Draw) : Act Stmt Draw :=
  ⟨.query (.upsertConnection c.userId c.provider c.accountKey c.displayName c.metadata
    c.tokenEnvelope), x, .ok c⟩

/-- The account that an act upserts. -/
def upsertedAccount : Act Stmt Draw → Option (Uuid × String × String)
  | ⟨.query (.upsertConnection user provider accountKey _ _ _), _, .ok _⟩ =>
      some (user, provider, accountKey)
  | _ => none

/-- What an executed statement does to the connections. -/
inductive Writes : Act Stmt Draw → List ConnectionRow → List ConnectionRow → Prop
  | updated {rows} (c old : ConnectionRow) (x : Draw) (hmem : old ∈ rows) (hid : c.id = old.id)
      (haccount : c.account = old.account) :
      Writes (upserting c x) rows (rows.map fun r => if r.id = old.id then c else r)
  | inserted {rows} (c : ConnectionRow) (x : Draw) (hfree : ∀ r ∈ rows, r.account ≠ c.account) :
      Writes (upserting c x) rows (rows ++ [c])
  | deleted {rows} (a : Act Stmt Draw) (id : Uuid) (ha : upsertedAccount a = none) :
      Writes a rows (rows.filter (·.id ≠ id))
  | kept {rows} (a : Act Stmt Draw) (ha : upsertedAccount a = none) : Writes a rows rows

variable {rows rows' : List ConnectionRow}

/-- What a query does to the connections. -/
theorem writes_query {β : Type} {k : Query β} {b : Except DbError β}
    (hexec : k.exec x w = some (b, w')) : Writes ⟨.query k, x, b⟩ w.connections w'.connections := by
  cases k with
  | upsertConnection user provider accountKey displayName metadata envelope =>
      obtain ⟨row, rfl, ⟨rfl, rfl, rfl⟩, ⟨rfl, rfl, rfl⟩, hchange⟩ :=
        upsertConnection_cases hexec
      obtain ⟨old, hmem, hfixed, rfl⟩ | ⟨hfree, -, rfl⟩ := hchange
      · have hid : row.id = old.id := congrArg ConnectionFixed.id hfixed
        show Writes _ _ (w.connections.map fun c => if c.id = row.id then row else c)
        rw [hid]
        refine .updated row old x hmem hid ?_
        exact congrArg (fun c : ConnectionFixed => (c.userId, c.provider, c.accountKey)) hfixed
      · refine .inserted row x fun r hr haccount => hfree r hr ?_
        obtain ⟨huser, hrest⟩ := Prod.mk.inj haccount
        obtain ⟨hprovider, hkey⟩ := Prod.mk.inj hrest
        exact ⟨huser, hprovider, hkey⟩
  | deleteConnection id user =>
      obtain ⟨rfl, rfl, -⟩ | ⟨c, -, -, -, ⟨rfl, rfl⟩ | ⟨rfl, rfl, -⟩⟩ :=
        deleteConnection_cases hexec
      · exact .kept _ rfl
      · exact .kept _ rfl
      · exact .deleted _ id rfl
  | _ =>
      rw [(Query.exec_frame hexec).connections (by simp)]
      exact .kept _ rfl

/-- What a statement does to them. -/
theorem writes_stmt {β : Type} {st : Stmt β} {b : β} (hexec : st.exec x w = some (b, w')) :
    Writes ⟨st, x, b⟩ w.connections w'.connections := by
  cases st with
  | query k =>
      rcases Stmt.exec_query hexec with ⟨text, -, rfl, rfl⟩ | ⟨-, hexec⟩
      · refine .kept _ ?_
        cases k with
        | _ => rfl
      · exact writes_query hexec
  | _ =>
      rw [(Stmt.exec_frame hexec).connections (by simp)]
      exact .kept _ rfl

/-! ## The invariant -/

/-- The row is the answer of the last upsert of its account. -/
def LastUpsert (e : Entry Stmt Role Draw) (later : List (Entry Stmt Role Draw))
    (c : ConnectionRow) : Prop :=
  (∃ x, e.toAct = upserting c x) ∧ ∀ e' ∈ later, upsertedAccount e'.toAct ≠ some c.account

structure AccountsInv (h : List (Entry Stmt Role Draw)) (rows : List ConnectionRow) : Prop where
  accounts : (rows.map (·.account)).Nodup
  last : ∀ c ∈ rows, ∃ h₁ e h₂, h = h₁ ++ e :: h₂ ∧ LastUpsert e h₂ c

/-- The invariant after one more act. -/
theorem AccountsInv.concat (hinv : AccountsInv h rows) (hids : (rows.map (·.id)).Nodup)
    (hwrites : Writes e.toAct rows rows') : AccountsInv (h ++ [e]) rows' := by
  have hkeep : ∀ c ∈ rows, upsertedAccount e.toAct ≠ some c.account →
      ∃ h₁ d h₂, h ++ [e] = h₁ ++ d :: h₂ ∧ LastUpsert d h₂ c := by
    intro c hc hother
    obtain ⟨h₁, d, h₂, rfl, hact, hlater⟩ := hinv.last c hc
    refine ⟨h₁, d, h₂ ++ [e], by simp, hact, fun e' he' => ?_⟩
    rcases List.mem_append.mp he' with he' | he'
    · exact hlater e' he'
    · rw [List.mem_singleton.mp he']
      exact hother
  have hnew : ∀ {c x}, e.toAct = upserting c x →
      ∃ h₁ d h₂, h ++ [e] = h₁ ++ d :: h₂ ∧ LastUpsert d h₂ c :=
    fun hact => ⟨h, e, [], rfl, ⟨_, hact⟩, by simp⟩
  generalize hact : e.toAct = act at hwrites
  cases hwrites with
  | updated c old x hmem hid haccount =>
      have hsame : ∀ r ∈ rows, (if r.id = old.id then c else r).account = r.account := by
        intro r hr
        split
        · next heq =>
            obtain rfl := List.inj_on_of_nodup_map hids hr hmem heq
            exact haccount
        · rfl
      refine ⟨?_, fun c' hc' => ?_⟩
      · rw [List.map_map]
        show (rows.map fun r => (if r.id = old.id then c else r).account).Nodup
        rw [List.map_congr_left hsame]
        exact hinv.accounts
      · obtain ⟨r, hr, rfl⟩ := List.mem_map.mp hc'
        by_cases heq : r.id = old.id
        · rw [if_pos heq]
          exact hnew hact
        · rw [if_neg heq]
          refine hkeep r hr fun hupserted => heq ?_
          rw [hact] at hupserted
          have hr' : old.account = r.account := haccount.symm.trans (Option.some.inj hupserted)
          rw [List.inj_on_of_nodup_map hinv.accounts hmem hr hr']
  | inserted c x hfree =>
      refine ⟨Keyed.nodup_concat hinv.accounts hfree, fun c' hc' => ?_⟩
      rcases List.mem_append.mp hc' with hc' | hc'
      · refine hkeep c' hc' fun hupserted => hfree c' hc' ?_
        rw [hact] at hupserted
        exact (Option.some.inj hupserted).symm
      · rw [List.mem_singleton.mp hc']
        exact hnew hact
  | deleted _ id ha =>
      refine ⟨(List.filter_sublist.map _).nodup hinv.accounts, fun c hc => ?_⟩
      refine hkeep c (List.mem_of_mem_filter hc) ?_
      rw [hact, ha]
      simp
  | kept _ ha =>
      refine ⟨hinv.accounts, fun c hc => hkeep c hc ?_⟩
      rw [hact, ha]
      simp

/-- What is known of a run, its programs and its connections. -/
def EnvelopeInv (env : Deployment) (h : List (Entry Stmt Role Draw))
    (p : Pool Stmt Role Outcome World) : Prop :=
  (Reachable env p ∧ Conducted (service env) (connecting env) h p) ∧
    AccountsInv h p.shared.connections

theorem recorded_envelopeInv (env : Deployment) : Recorded (service env) (EnvelopeInv env) := by
  have hboth : Recorded (service env) fun h p =>
      Reachable env p ∧ Conducted (service env) (connecting env) h p :=
    (recorded_reaches idleService).and (recorded_connecting env)
  refine ⟨fun {h p} c hp => ⟨hboth.arrive c hp.1, hp.2⟩,
    fun {h p i r β st k x b s} hp ht hexec => ?_, fun {h p i r r' child k} x hp ht => ?_⟩
  · have hinv : Inv env p.shared := hp.1.1.poolOk.inv
    exact ⟨hboth.step hp.1 ht hexec, hp.2.concat hinv.connectionIds (writes_stmt hexec)⟩
  · refine ⟨hboth.fork x hp.1 ht, ?_⟩
    cases r' with
    | request m q => exact hp.2
    | worker j => exact hp.2

theorem envelopeInv_of_run {ls : List (Label Draw Request)}
    (hrun : idleService.run (service env) ls = some p) :
    EnvelopeInv env (idleService.history (service env) ls) p :=
  (recorded_envelopeInv env).of_run
    ⟨⟨Pool.Reaches.refl _, conducted_nil _⟩, List.nodup_nil, by simp [World.empty]⟩ hrun

/-! ## The theorem -/

/-- The vault has made the envelope from the tokens. -/
def Sealed (h : List (Entry Stmt Role Draw)) (aad : String) (tokens : TokenSet)
    (envelope : String) : Prop :=
  ∃ e ∈ h, ∃ x, e.toAct = ⟨.encrypt aad tokens, x, .ok envelope⟩

/-- What a program has just encrypted is sealed. -/
theorem sealed_of_own {i : ℕ} {aad envelope : String} {tokens : TokenSet} (hstarts : h₁ <+: h)
    (hsealing : Sealing (own i h₁) aad tokens envelope) : Sealed h aad tokens envelope := by
  obtain ⟨rest, x, hown⟩ := hsealing
  have hmem : (⟨.encrypt aad tokens, x, .ok envelope⟩ : Act Stmt Draw) ∈ own i h₁ := by
    rw [hown]
    exact List.mem_append_right _ (List.mem_singleton_self _)
  obtain ⟨e, he, -, hact⟩ := mem_own.mp hmem
  exact ⟨e, hstarts.subset he, x, hact⟩

/-- Whatever was encrypted in the run decrypts under its associated data, and under no
other. -/
def IdealVault (env : Deployment) (h : List (Entry Stmt Role Draw)) : Prop :=
  ∀ e ∈ h, ∀ aad tokens x envelope, e.toAct = ⟨.encrypt aad tokens, x, .ok envelope⟩ →
    env.decrypt aad envelope = .ok tokens ∧
      ∀ aad', aad' ≠ aad → ∀ tokens', env.decrypt aad' envelope ≠ .ok tokens'

/-- The envelope of the row decrypts to the tokens that a request had for the account when
it made the last upsert of the account. -/
def BoundToRow (env : Deployment) (h : List (Entry Stmt Role Draw)) (c : ConnectionRow) : Prop :=
  ∃ h₁ e h₂ n q provider tokens, h = h₁ ++ e :: h₂ ∧ LastUpsert e h₂ c ∧
    e.role = .request n q ∧ c.provider = env.asStr provider ∧
    Grants env n q (own e.thread h₁) c.userId provider c.accountKey tokens ∧
    Sealing (own e.thread h₁) c.aad tokens c.tokenEnvelope ∧
    env.decrypt c.aad c.tokenEnvelope = .ok tokens

/-- The conditions of the vault on what a program has just encrypted. -/
theorem IdealVault.sealing (hvault : IdealVault env h) {i : ℕ} {aad envelope : String}
    {tokens : TokenSet} (hstarts : h₁ <+: h) (hsealing : Sealing (own i h₁) aad tokens envelope) :
    env.decrypt aad envelope = .ok tokens ∧
      ∀ aad', aad' ≠ aad → ∀ tokens', env.decrypt aad' envelope ≠ .ok tokens' := by
  obtain ⟨e, he, x, hact⟩ := sealed_of_own hstarts hsealing
  exact hvault e he aad tokens x envelope hact

theorem boundToRow_of_mem (hdisplay : env.displayProvider = env.asStr) (hinv : EnvelopeInv env h p)
    (hvault : IdealVault env h) {c : ConnectionRow} (hc : c ∈ p.shared.connections) :
    BoundToRow env h c := by
  obtain ⟨⟨-, hp⟩, haccounts⟩ := hinv
  obtain ⟨h₁, e, h₂, heq, ⟨x, hact⟩, hlater⟩ := haccounts.last c hc
  have hallowed := hp.allowed h₁ e h₂ heq
  obtain ⟨act, i, r⟩ := e
  obtain rfl : act = upserting c x := hact
  cases r with
  | worker j => exact hallowed.elim
  | request n q =>
      obtain ⟨provider, tokens, hname, hgrants, hsealing⟩ := hallowed
      have haad : aadOf c.userId (env.displayProvider provider) c.accountKey = c.aad := by
        rw [hdisplay, ← hname]
        rfl
      rw [haad] at hsealing
      exact ⟨h₁, _, h₂, n, q, provider, tokens, heq, ⟨⟨x, rfl⟩, hlater⟩, rfl, hname, hgrants,
        hsealing, (hvault.sealing ⟨_, heq.symm⟩ hsealing).1⟩

/-- Rows of different accounts have different associated data. -/
theorem aad_ne (hcolon : ∀ provider, ':' ∉ (env.asStr provider).toList)
    {c c' : ConnectionRow} {provider provider' : ProviderKind}
    (hname : c.provider = env.asStr provider) (hname' : c'.provider = env.asStr provider')
    (haccount : c.account ≠ c'.account) : c.aad ≠ c'.aad := by
  intro haad
  obtain ⟨huser, hprovider, hkey⟩ := aadOf_injective (hname ▸ hcolon provider)
    (hname' ▸ hcolon provider') haad
  exact haccount (Prod.ext huser (Prod.ext hprovider hkey))

/-- Envelopes stay bound to their row, in every state that the service reaches. -/
theorem envelopes_bound {ls : List (Label Draw Request)} (hdisplay : env.displayProvider = env.asStr)
    (hcolon : ∀ provider, ':' ∉ (env.asStr provider).toList)
    (hrun : idleService.run (service env) ls = some p)
    (hvault : IdealVault env (idleService.history (service env) ls)) :
    (∀ c ∈ p.shared.connections, BoundToRow env (idleService.history (service env) ls) c) ∧
      ∀ c ∈ p.shared.connections, ∀ c' ∈ p.shared.connections, c ≠ c' →
        c.aad ≠ c'.aad ∧ ∀ tokens, env.decrypt c'.aad c.tokenEnvelope ≠ .ok tokens := by
  have hinv := envelopeInv_of_run hrun
  have hbound : ∀ c ∈ p.shared.connections,
      BoundToRow env (idleService.history (service env) ls) c :=
    fun c hc => boundToRow_of_mem hdisplay hinv hvault hc
  refine ⟨hbound, fun c hc c' hc' hne => ?_⟩
  obtain ⟨h₁, e, h₂, n, q, provider, tokens, heq, -, -, hname, -, hsealing, -⟩ := hbound c hc
  obtain ⟨-, -, -, -, -, provider', -, -, -, -, hname', -⟩ := hbound c' hc'
  have haad : c.aad ≠ c'.aad := aad_ne hcolon hname hname' fun haccount =>
    hne (List.inj_on_of_nodup_map hinv.2.accounts hc hc' haccount)
  exact ⟨haad, (hvault.sealing ⟨_, heq.symm⟩ hsealing).2 c'.aad haad.symm⟩

/-! ## A run -/

namespace Sample

/-- The content of the envelope of an account of user 1, whose secret is the account key. -/
def openAccount (aad : String) : Option String → Except String TokenSet
  | some key =>
      if aad = aadOf 1 "craigslist" key then .ok (manualTokens key) else .error "other data"
  | none => .error "no envelope"

/-- A vault for two accounts. -/
def vaultDeployment : Deployment :=
  { deployment with
    decrypt := fun aad envelope => openAccount aad <|
      ["a", "b:c"].find? fun key => envelope = "sealed " ++ aadOf 1 "craigslist" key }

/-- User 1 connects two accounts, the second one with a colon in its key, and then the first
one again. -/
def accounts : List (Label Draw Request) :=
  let manual (key : String) : Label Draw Request :=
    .arrive (.createManual 1 ⟨.craigslist, key, "Account", .null, some key⟩)
  let envelope (key : String) : Draw := { envelope := .ok ("sealed " ++ aadOf 1 "craigslist" key) }
  [manual "a", .turn 0 (envelope "a"), .turn 0 { uuid := 10 },
   manual "b:c", .turn 1 (envelope "b:c"), manual "a", .turn 2 (envelope "a"),
   .turn 1 { uuid := 11 }, .turn 2 { uuid := 12 }]

/-- What an act has encrypted: associated data, tokens and envelope. -/
def encryptionOf : Act Stmt Draw → Option (String × TokenSet × String)
  | ⟨.encrypt aad tokens, _, .ok envelope⟩ => some (aad, tokens, envelope)
  | _ => none

/-- The envelope of an account of user 1. -/
def sealed (key : String) : String × TokenSet × String :=
  (aadOf 1 "craigslist" key, manualTokens key, "sealed " ++ aadOf 1 "craigslist" key)

theorem decrypt_sealed {key : String} (hkey : key = "a" ∨ key = "b:c") (aad : String) :
    vaultDeployment.decrypt aad ("sealed " ++ aadOf 1 "craigslist" key) =
      if aad = aadOf 1 "craigslist" key then .ok (manualTokens key) else .error "other data" := by
  have hfind : ["a", "b:c"].find? (fun k =>
      "sealed " ++ aadOf 1 "craigslist" key = "sealed " ++ aadOf 1 "craigslist" k) = some key := by
    rcases hkey with rfl | rfl
    · decide +kernel
    · decide +kernel
  show openAccount aad (["a", "b:c"].find? _) = _
  rw [hfind]
  rfl

theorem idealVault_accounts :
    IdealVault vaultDeployment (idleService.history (service vaultDeployment) accounts) := by
  have hencrypted : (idleService.history (service vaultDeployment) accounts).filterMap
      (fun e => encryptionOf e.toAct) = [sealed "a", sealed "b:c", sealed "a"] := rfl
  intro e he aad tokens x envelope hact
  have hmem : (aad, tokens, envelope) ∈ [sealed "a", sealed "b:c", sealed "a"] := by
    rw [← hencrypted]
    exact List.mem_filterMap.mpr ⟨e, he, by rw [hact]; rfl⟩
  obtain ⟨key, hkey, heq⟩ : ∃ key, (key = "a" ∨ key = "b:c") ∧
      sealed key = (aad, tokens, envelope) := by
    simp only [List.mem_cons, List.not_mem_nil, or_false] at hmem
    rcases hmem with h | h | h
    · exact ⟨_, Or.inl rfl, h.symm⟩
    · exact ⟨_, Or.inr rfl, h.symm⟩
    · exact ⟨_, Or.inl rfl, h.symm⟩
  obtain ⟨rfl, hrest⟩ := Prod.mk.inj heq
  obtain ⟨rfl, rfl⟩ := Prod.mk.inj hrest
  refine ⟨(decrypt_sealed hkey _).trans (if_pos rfl), fun aad' hne tokens' => ?_⟩
  rw [decrypt_sealed hkey, if_neg hne]
  simp

end Sample

/-- Both accounts are bound, the first one to its second upsert. -/
theorem envelopes_bound_sample :
    ∃ p, idleService.run (service Sample.vaultDeployment) Sample.accounts = some p ∧
      (p.shared.connections.map fun c => (c.id, c.accountKey)) = [(10, "a"), (11, "b:c")] ∧
      (∀ c ∈ p.shared.connections, BoundToRow Sample.vaultDeployment
        (idleService.history (service Sample.vaultDeployment) Sample.accounts) c) ∧
      ∀ c ∈ p.shared.connections, ∀ c' ∈ p.shared.connections, c ≠ c' → c.aad ≠ c'.aad ∧
        ∀ tokens, Sample.vaultDeployment.decrypt c'.aad c.tokenEnvelope ≠ .ok tokens := by
  have hrun : ((idleService.run (service Sample.vaultDeployment) Sample.accounts).map fun p =>
      p.shared.connections.map fun c => (c.id, c.accountKey)) = some [(10, "a"), (11, "b:c")] := by
    decide +kernel
  obtain ⟨p, hp, hrow⟩ := Option.map_eq_some_iff.mp hrun
  exact ⟨p, hp, hrow, envelopes_bound rfl (by intro provider; cases provider <;> decide) hp
    Sample.idealVault_accounts⟩

end Service
