/-
# Calls are made on behalf of the user who asked

Whenever a worker is about to call a provider, the user of its job has asked for this call, and
the credentials are those that this user had obtained for the account when the worker read the
connection.

* `publishing` is the conduct of a worker: what it has read before it makes a call.
* `OnBehalf` is what stands behind a call, `calls_on_behalf` the theorem.
-/
import EvglApi.Advances
import EvglApi.Envelopes
import EvglApi.Scripts

open Concurrency Mvcc

namespace Service

variable {env : Deployment} {p p' : Pool Stmt Role Outcome World} {w w' : World} {i n : ℕ}
  {j : Uuid} {q : Request} {r : Role} {call : PublishCall} {acts acts' : List (Act Stmt Draw)}
  {job : JobRow} {x : Draw} {α β : Type}

/-! ## What a worker has read -/

/-- The targets of a job are read. -/
def readingTargets (j : Uuid) (rows : List TargetRow) (x : Draw) : Act Stmt Draw :=
  ⟨.query (.selectTargets j), x, .ok rows⟩

/-- A connection is read. -/
def readingConnection (id user : Uuid) (c : ConnectionRow) (x : Draw) : Act Stmt Draw :=
  ⟨.query (.selectConnection id user), x, .ok (some c)⟩

/-- What the worker of job `j` has read before it makes a call. -/
structure Briefed (env : Deployment) (j : Uuid) (call : PublishCall)
    (acts : List (Act Stmt Draw)) : Prop where
  provider : env.fromStr call.target.provider = .ok call.provider
  target : ∃ rows x, readingTargets j rows x ∈ acts ∧ call.target ∈ rows
  connection : ∃ user c x, readingConnection call.target.connectionId user c x ∈ acts ∧
    env.decrypt c.aad c.tokenEnvelope = .ok call.tokens ∧
      call.context = ⟨c.accountKey, c.metadata, call.target.options⟩

theorem Briefed.mono (h : Briefed env j call acts) (hacts : acts <+: acts') :
    Briefed env j call acts' := by
  obtain ⟨hprovider, ⟨rows, x, hrows, htarget⟩, user, c, y, hc, hrest⟩ := h
  exact ⟨hprovider, ⟨rows, x, hacts.subset hrows, htarget⟩, user, c, y, hacts.subset hc, hrest⟩

/-- The statement publishes nothing. -/
def Stmt.Inward : Stmt β → Prop
  | .publish _ => False
  | _ => True

/-- A worker makes no call before it has read what it is about. -/
def Stmt.Informed (env : Deployment) (r : Role) (acts : List (Act Stmt Draw)) : Stmt β → Prop
  | .publish call => ∃ j, r = .worker j ∧ Briefed env j call acts
  | _ => True

/-- The conduct of handlers, which make no calls, and of workers. -/
def publishing (env : Deployment) : Conduct Stmt Role Outcome Draw where
  allows r acts st := st.Informed env r acts
  ends _ _ _ := True

theorem Stmt.Inward.informed {st : Stmt β} (h : st.Inward) : st.Informed env r acts := by
  cases st with
  | publish call => exact h.elim
  | _ => trivial

/-! ## Workers -/

section Rules

variable {Q : α → List (Act Stmt Draw) → Prop}

/-- A program that publishes nothing. -/
theorem acts_inward {p : Api α} (hp : Only Stmt.Inward p) :
    Acts (publishing env) r p anyEnd anyEnd acts :=
  Acts.of_only hp fun _ h => h.informed

/-- A program that publishes nothing, and then another one. -/
theorem acts_inward_bind {p : Api β} {f : β → Api α} (hp : Only Stmt.Inward p)
    (hf : ∀ b acts', acts <+: acts' → Acts (publishing env) r (f b) Q anyEnd acts') :
    Acts (publishing env) r (p >>= f) Q anyEnd acts :=
  Acts.andThen (acts_inward hp) fun b acts' _ h => hf b acts' h

end Rules

theorem inward_failTarget (job : JobRow) (id : Uuid) (provider : Option ProviderKind)
    (attempt : ℕ) (error : TargetFailure) :
    Only Stmt.Inward (failTarget job id provider attempt error) :=
  Only.bind (Only.query trivial) fun _ => Only.stmt trivial

/-- Every attempt is made after what the worker has read. -/
theorem acts_publishLoop (h : Briefed env job.id call acts) (finalAttempt : ℕ)
    (attempts : List ℕ) :
    Acts (publishing env) (.worker job.id) (publishLoop env job call finalAttempt attempts) anyEnd
      anyEnd acts := by
  induction attempts generalizing finalAttempt acts with
  | nil => exact acts_inward (inward_failTarget _ _ _ _ _)
  | cons attempt rest ih =>
      unfold publishLoop
      refine acts_inward_bind (Only.query trivial) fun _ acts₁ h₁ => ?_
      refine acts_inward_bind (Only.stmt trivial) fun _ acts₂ h₂ => ?_
      have hcall : Briefed env job.id call acts₂ := h.mono (h₁.trans h₂)
      refine Acts.bind (Acts.stmt ⟨job.id, rfl, hcall⟩ fun x answer => ?_)
      cases answer with
      | ok publication =>
          refine acts_inward (Only.bind (Only.result _) fun _ => ?_)
          exact Only.bind (Only.query trivial) fun _ => Only.stmt trivial
      | error error =>
          show Acts _ _ (if _ then _ else _) _ _ _
          split
          · refine acts_inward_bind (Only.stmt trivial) fun _ acts₃ h₃ => ?_
            exact ih (hcall.mono ((List.prefix_append _ _).trans h₃)) attempt
          · exact acts_inward (inward_failTarget _ _ _ _ _)

/-- The connection that a worker goes on with is the one that it has read. -/
theorem acts_getConnection (user id : Uuid) :
    Acts (publishing env) r (Store.getConnection user id)
      (fun c acts' => ∃ x, readingConnection id user c x ∈ acts') anyEnd acts := by
  refine Acts.bind (Acts.attempt trivial fun x row => ?_)
  cases row with
  | error e => trivial
  | ok row =>
      cases row with
      | none => exact Acts.throw trivial
      | some c => exact Acts.pure ⟨x, List.mem_append_right _ (List.mem_singleton.mpr rfl)⟩

theorem acts_processTarget {target : TargetRow} (event : EventDraft)
    (htarget : ∃ rows x, readingTargets job.id rows x ∈ acts ∧ target ∈ rows) :
    Acts (publishing env) (.worker job.id) (processTarget env job event target) anyEnd anyEnd
      acts := by
  have hfails : ∀ {acts} (provider : Option ProviderKind) (error : TargetFailure),
      Acts (publishing env) (.worker job.id) (failTarget job target.id provider 0 error) anyEnd
        anyEnd acts := fun provider error => acts_inward (inward_failTarget _ _ _ _ _)
  unfold processTarget
  split
  · exact Acts.throw trivial
  · cases hprovider : env.fromStr target.provider with
    | error error => exact hfails _ _
    | ok provider =>
        have hread : Acts (publishing env) (.worker job.id)
            (Tries.caught (Store.getConnection job.userId target.connectionId))
            (fun a acts' => ∀ c, a = .ok c → ∃ x,
              readingConnection target.connectionId job.userId c x ∈ acts') anyEnd acts := by
          refine Acts.caught ((acts_getConnection _ _).mono (fun c acts' h c' hc => ?_) ?_)
          · exact Except.ok.inj hc ▸ h
          · intro e acts' _ c hc
            cases hc
        refine Acts.andThen hread fun a acts₁ hconnection hacts => ?_
        cases a with
        | error error => exact hfails _ _
        | ok c =>
            obtain ⟨x, hx⟩ := hconnection c rfl
            show Acts _ _ (if _ then _ else _) _ _ _
            split
            · exact hfails _ _
            · cases htokens : env.decrypt c.aad c.tokenEnvelope with
              | error error => exact hfails _ _
              | ok tokens =>
                  obtain ⟨rows, y, hrows, hmem⟩ := htarget
                  exact acts_publishLoop ⟨hprovider, ⟨rows, y, hacts.subset hrows, hmem⟩,
                    job.userId, c, x, hx, htokens, rfl⟩ 0 [1, 2, 3]

theorem acts_processTargets (event : EventDraft) {targets : List TargetRow}
    (htargets : ∃ rows x, readingTargets job.id rows x ∈ acts ∧ targets ⊆ rows) :
    Acts (publishing env) (.worker job.id) (processTargets env job event targets) anyEnd anyEnd
      acts := by
  induction targets generalizing acts with
  | nil => exact Acts.pure trivial
  | cons target rest ih =>
      obtain ⟨rows, x, hrows, hsub⟩ := htargets
      obtain ⟨hmem, hrest⟩ := List.cons_subset.mp hsub
      have htarget : Acts (publishing env) (.worker job.id) (processTarget env job event target)
          anyEnd anyEnd acts := acts_processTarget event ⟨rows, x, hrows, hmem⟩
      refine Acts.andThen htarget fun _ acts₁ _ h₁ => ?_
      exact ih ⟨rows, x, h₁.subset hrows, hrest⟩

theorem acts_claimTargets :
    Acts (publishing env) r (Store.claimTargets job.id)
      (fun rows acts' => ∃ x, readingTargets job.id rows x ∈ acts') anyEnd acts := by
  refine acts_inward_bind (Only.query trivial) fun _ acts₁ _ => ?_
  refine Acts.attempt trivial fun x rows => ?_
  cases rows with
  | error e => trivial
  | ok rows => exact ⟨x, List.mem_append_right _ (List.mem_singleton.mpr rfl)⟩

/-- A worker makes its calls after what it has read. -/
theorem follows_worker (job : JobRow) :
    (publishing env).Follows (.worker job.id) (worker env job) (fun _ _ => True) [] := by
  have hrun : Acts (publishing env) (.worker job.id) (runWorker env job) anyEnd anyEnd [] := by
    refine acts_inward_bind (only_getEvent trivial) fun event acts _ => ?_
    refine Acts.andThen acts_claimTargets fun rows acts₁ h₁ _ => ?_
    obtain ⟨x, hx⟩ := h₁
    refine acts_inward_bind (Only.stmt trivial) fun _ acts₂ h₂ => ?_
    have htargets : ∃ rows' y, readingTargets job.id rows' y ∈ acts₂ ∧ rows ⊆ rows' :=
      ⟨rows, x, h₂.subset hx, List.Subset.refl _⟩
    refine Acts.andThen (acts_processTargets event htargets) fun _ acts₃ _ _ => ?_
    refine acts_inward_bind ?_ fun _ acts₄ _ => ?_
    · exact Only.bind (Only.query trivial) fun _ => Only.bind (Only.query trivial) fun _ =>
        Only.query trivial
    · refine acts_inward_bind (only_getJob trivial trivial) fun _ acts₅ _ => ?_
      exact acts_inward (Only.stmt trivial)
  exact Conduct.Follows.bind (Conduct.Follows.mono hrun fun _ _ _ => trivial)

/-! ## Handlers -/

/-- What publishes nothing is closed under sequences. -/
theorem sequential_publishing :
    Sequential fun p => ∀ acts, Acts (publishing env) r p anyEnd anyEnd acts where
  pure _ _ := trivial
  throw _ _ := trivial
  bind hp hf acts := Acts.andThen (hp acts) fun a acts' _ _ => hf a acts'

theorem Stmt.Outside.inward {st : Stmt β} (h : st.Outside q) : st.Inward := by
  cases st with
  | publish call => exact h.elim
  | _ => trivial

/-- Handlers make no calls, and the workers that they start keep to the conduct. -/
theorem acts_publishing_handle :
    Acts (publishing env) (.request n q) (handle env n q) anyEnd anyEnd acts := by
  have hcovers : Sequential.Covers
      (fun p => ∀ acts, Acts (publishing env) (.request n q) p anyEnd anyEnd acts) q :=
    ⟨fun h _ => acts_inward (Only.stmt h.inward), fun h _ => acts_inward (Only.attempt h.inward)⟩
  refine sequential_publishing.handle q hcovers (fun stateHash acts => ?_) ?_ ?_ acts
  · exact acts_inward (only_consumeOauthSession stateHash trivial trivial trivial trivial)
  · intro userId eventId key targets acts
    exact acts_inward (only_enqueue targets trivial trivial trivial (fun _ => trivial)
      (fun _ _ _ _ => trivial) trivial trivial)
  · exact fun job _ => ⟨follows_worker job, trivial⟩

/-- No step of the service breaks the conduct. -/
theorem recorded_publishing (env : Deployment) :
    Recorded (service env) (Conducted (service env) (publishing env)) := by
  refine recorded_conducted fun q w => ?_
  have hhandle : Acts (publishing env) (.request w.requests.length q)
      (handle env w.requests.length q) anyEnd anyEnd [] := acts_publishing_handle
  exact Conduct.Follows.bind (Conduct.Follows.mono hhandle fun _ _ _ => trivial)

/-! ## What stands behind a call -/

/-- The tokens are those that a request of its user had for the account when it made the last
upsert of the account. -/
def LastGrant (env : Deployment) (h : List (Entry Stmt Role Draw)) (c : ConnectionRow)
    (tokens : TokenSet) : Prop :=
  ∃ h₁ e h₂ n q provider, h = h₁ ++ e :: h₂ ∧ LastUpsert e h₂ c ∧ e.role = .request n q ∧
    c.provider = env.asStr provider ∧
      Grants env n q (own e.thread h₁) c.userId provider c.accountKey tokens

/-- The user of the job has asked for the call that the program at position `i` is about to make,
the event is the one of the job, and the credentials were the last ones that the user had obtained
for the account when the program read the connection. -/
structure OnBehalf (env : Deployment) (h : List (Entry Stmt Role Draw)) (w : World) (i : ℕ)
    (call : PublishCall) (v : Version JobRow) : Prop where
  asked : ∃ targets, w.Asked v.xmin v.row.toJobFixed targets ∧
    ∃ t ∈ targets, t.columns env = call.target.toTargetFixed.columns
  event : ∃ e ∈ w.events, e.id = v.row.eventId ∧ e.ownerId = v.row.userId ∧
    env.eventFromValue e.document = .ok call.event
  provider : env.fromStr call.target.provider = .ok call.provider
  credentials : ∃ h₁ e h₂ c x, h = h₁ ++ e :: h₂ ∧ e.thread = i ∧
    e.toAct = readingConnection call.target.connectionId v.row.userId c x ∧
      c.id = call.target.connectionId ∧ c.userId = v.row.userId ∧
        c.provider = call.target.provider ∧
          call.context = ⟨c.accountKey, c.metadata, call.target.options⟩ ∧
            LastGrant env h₁ c call.tokens

variable {h h₁ h₂ : List (Entry Stmt Role Draw)} {e : Entry Stmt Role Draw}
  {ls : List (Label Draw Request)}

theorem IdealVault.of_prefix (hvault : IdealVault env h) (hstarts : h₁ <+: h) :
    IdealVault env h₁ := fun e he => hvault e (hstarts.subset he)

theorem BoundToRow.lastGrant {c : ConnectionRow} {tokens : TokenSet} (h : BoundToRow env h₁ c)
    (htokens : env.decrypt c.aad c.tokenEnvelope = .ok tokens) : LastGrant env h₁ c tokens := by
  obtain ⟨g₁, e, g₂, n, q, provider, tokens', heq, hlast, hrole, hname, hgrants, -, hdecrypt⟩ := h
  obtain rfl := Except.ok.inj (hdecrypt.symm.trans htokens)
  exact ⟨g₁, e, g₂, n, q, provider, heq, hlast, hrole, hname, hgrants⟩

/-- What a worker has read of its targets is still there. -/
theorem target_of_readingTargets (hrun : idleService.run (service env) ls = some p)
    {k : Prog Stmt Role Outcome Outcome} (hi : p.threads[i]? = some ⟨.worker j, k⟩)
    {rows : List TargetRow}
    (hmem : readingTargets j rows x ∈ own i (idleService.history (service env) ls))
    {t : TargetRow} (ht : t ∈ rows) : t.toTargetFixed ∈ p.shared.targetsOf j := by
  have hconducted : Conducted (service env) (publishing env)
      (idleService.history (service env) ls) p :=
    (recorded_publishing env).of_run (conducted_nil _) hrun
  obtain ⟨e, he, rfl, hact⟩ := mem_own.mp hmem
  obtain ⟨k', hk'⟩ := hconducted.thread e he
  obtain ⟨hrole, -⟩ := Thread.mk.inj (Option.some.inj (hk'.symm.trans hi))
  obtain ⟨h₁, h₂, hsplit⟩ := List.append_of_mem he
  obtain ⟨ls₁, ls₂, p₁, hrun₁, -, hrun₂, ⟨k₁, hk₁⟩, s, hexec⟩ := Pool.exists_moment hrun hsplit
  obtain ⟨act, i', r⟩ := e
  obtain rfl : act = readingTargets j rows x := hact
  obtain rfl : r = .worker j := hrole
  have hp₁ : Reachable env p₁ := ⟨ls₁, hrun₁⟩
  have htaken : j ∈ p₁.shared.workers := hp₁.poolOk.taken _ (List.mem_of_getElem? hk₁)
  rw [(enlists_of_reaches hp₁ ⟨ls₂, hrun₂⟩).targets j htaken, mem_targetsOf]
  have hexec : Stmt.exec (.query (.selectTargets j)) x p₁.shared = some (.ok rows, s) := hexec
  obtain ⟨text, -, hfailed, -⟩ | ⟨-, hexec⟩ := Stmt.exec_query hexec
  · cases hfailed
  · obtain ⟨hrows, -⟩ := Prod.mk.inj (Option.some.inj hexec)
    obtain rfl := Except.ok.inj hrows
    obtain ⟨hjob, v, hv, -, rfl⟩ := mem_claimed.mp ht
    exact ⟨v, hv, hjob, rfl⟩

/-- A worker has read what it needs for the call that it is about to make. -/
theorem briefed_of_calling (hrun : idleService.run (service env) ls = some p)
    {k : Except ProviderError Publication → Prog Stmt Role Outcome Outcome}
    (hi : p.threads[i]? = some ⟨.worker j, .step (.publish call) k⟩) :
    Briefed env j call (own i (idleService.history (service env) ls)) := by
  have hconducted : Conducted (service env) (publishing env)
      (idleService.history (service env) ls) p :=
    (recorded_publishing env).of_run (conducted_nil _) hrun
  obtain ⟨j', hj', hbriefed⟩ := (hconducted.follows i _ _ hi).1
  exact Role.worker.inj hj' ▸ hbriefed

/-- A call is about a target of the worker's job. -/
theorem target_of_calling (h : Reachable env p)
    {k : Except ProviderError Publication → Prog Stmt Role Outcome Outcome}
    (hi : p.threads[i]? = some ⟨.worker j, .step (.publish call) k⟩) :
    call.target.toTargetFixed ∈ p.shared.targetsOf j := by
  obtain ⟨ls, hrun⟩ := h
  obtain ⟨rows, x, hrows, hmem⟩ := (briefed_of_calling hrun hi).target
  exact target_of_readingTargets hrun hi hrows hmem

/-- What a program has read of a connection: a row with the last credentials of its account, which
still is the one of this account. -/
theorem grant_of_readingConnection (hdisplay : env.displayProvider = env.asStr)
    (hrun : idleService.run (service env) ls = some p)
    (hvault : IdealVault env (idleService.history (service env) ls)) {id user : Uuid}
    {c : ConnectionRow} {tokens : TokenSet}
    (hmem : readingConnection id user c x ∈ own i (idleService.history (service env) ls))
    (htokens : env.decrypt c.aad c.tokenEnvelope = .ok tokens) :
    ∃ h₁ e h₂, idleService.history (service env) ls = h₁ ++ e :: h₂ ∧ e.thread = i ∧
      e.toAct = readingConnection id user c x ∧ LastGrant env h₁ c tokens ∧
        c.id = id ∧ c.userId = user ∧
          ∀ c' ∈ p.shared.connections, c'.id = id →
            c'.toConnectionFixed = c.toConnectionFixed := by
  obtain ⟨e, he, hthread, hact⟩ := mem_own.mp hmem
  obtain ⟨h₁, h₂, hsplit⟩ := List.append_of_mem he
  obtain ⟨ls₁, ls₂, p₁, hrun₁, hhistory, hrun₂, -, s, hexec⟩ := Pool.exists_moment hrun hsplit
  refine ⟨h₁, e, h₂, hsplit, hthread, hact, ?_⟩
  obtain ⟨act, i', r⟩ := e
  obtain rfl : act = readingConnection id user c x := hact
  have hexec : Stmt.exec (.query (.selectConnection id user)) x p₁.shared =
      some (.ok (some c), s) := hexec
  obtain ⟨text, -, hfailed, -⟩ | ⟨-, hexec⟩ := Stmt.exec_query hexec
  · cases hfailed
  · obtain ⟨hfound, -⟩ := Prod.mk.inj (Option.some.inj hexec)
    obtain ⟨hc, rfl, rfl⟩ := Keyed.found (Except.ok.inj hfound)
    have hp₁ : Reachable env p₁ := ⟨ls₁, hrun₁⟩
    have hinv : EnvelopeInv env h₁ p₁ := hhistory ▸ envelopeInv_of_run hrun₁
    have hbound : BoundToRow env h₁ c :=
      boundToRow_of_mem hdisplay hinv (hvault.of_prefix ⟨_, hsplit.symm⟩) hc
    refine ⟨hbound.lastGrant htokens, rfl, rfl, fun c' hc' hid => ?_⟩
    exact (advances_of_reaches hp₁ ⟨ls₂, hrun₂⟩).accounts.eq hp₁.poolOk.inv hc hc' hid

/-- **No call is made but for the user who asked for it.**  Whatever the programs of the service
do at the same time, this is what stands behind a call that a worker is about to make. -/
theorem calls_on_behalf (hdisplay : env.displayProvider = env.asStr)
    (hrun : idleService.run (service env) ls = some p)
    (hvault : IdealVault env (idleService.history (service env) ls))
    {k : Except ProviderError Publication → Prog Stmt Role Outcome Outcome}
    (hi : p.threads[i]? = some ⟨.worker j, .step (.publish call) k⟩) :
    ∃ v ∈ p.shared.jobs, v.committed = true ∧ v.row.id = j ∧ call.target.jobId = j ∧
      OnBehalf env (idleService.history (service env) ls) p.shared i call v := by
  have hreachable : Reachable env p := ⟨ls, hrun⟩
  have hinv : Inv env p.shared := hreachable.poolOk.inv
  obtain ⟨v, hv, hid, hjob, hevent, -⟩ : Rightful env j call p.shared :=
    hreachable.poolOk.needs hi
  obtain ⟨u, hu, huid, hcommitted⟩ :=
    hinv.spawned j (hreachable.poolOk.taken _ (List.mem_of_getElem? hi))
  obtain rfl := hinv.eq_of_jobId hu hv (huid.trans hid.symm)
  have hbriefed := briefed_of_calling hrun hi
  have htarget := target_of_calling hreachable hi
  -- the target is one of the job
  obtain ⟨row, hrow, -, hfixed⟩ := mem_targetsOf.mp htarget
  obtain ⟨targets, hasked, hperm⟩ := hinv.asked u hu
  have hcolumns := (hperm hcommitted).subset (List.mem_map_of_mem (huid ▸ htarget))
  -- and its connection is the one that the worker has read
  obtain ⟨user, c, y, hread, htokens, hcontext⟩ := hbriefed.connection
  obtain ⟨h₁, e, h₂, hsplit, hthread, hact, hgrant, hcid, huser, hsame⟩ :=
    grant_of_readingConnection hdisplay hrun hvault hread htokens
  obtain ⟨u', hu', hu'id, -, -, -, c', hc', hc'id, hc'user, hc'provider⟩ := hinv.targetJob row hrow
  have hjobId : row.row.jobId = j := (congrArg TargetFixed.jobId hfixed).trans (hjob ▸ huid)
  obtain rfl := hinv.eq_of_jobId hu' hu (hu'id.trans (hjobId.trans huid.symm))
  have haccount := hsame c' hc' (hc'id.trans (congrArg TargetFixed.connectionId hfixed))
  have hcuser : c.userId = u'.row.userId :=
    (congrArg ConnectionFixed.userId haccount).symm.trans hc'user
  have hcprovider : c.provider = call.target.provider :=
    (congrArg ConnectionFixed.provider haccount).symm.trans
      (hc'provider.trans (congrArg TargetFixed.provider hfixed))
  obtain ⟨t, ht, heq⟩ := List.mem_map.mp hcolumns
  refine ⟨u', hu, hcommitted, huid, hjob ▸ huid, ⟨targets, hasked, t, ht, heq⟩, hevent,
    hbriefed.provider, h₁, e, h₂, c, y, hsplit, hthread, ?_, hcid, hcuser, hcprovider, hcontext,
    hgrant⟩
  rw [← hcuser, huser]
  exact hact

namespace Sample

/-- The call that the worker at position `i` is about to make, and the job of this worker. -/
def calling (p : Pool Stmt Role Outcome World) (i : ℕ) : Option (Uuid × PublishCall) :=
  match p.threads[i]? with
  | some ⟨.worker j, .step (.publish call) _⟩ => some (j, call)
  | _ => none

theorem exists_of_calling (h : calling p i = some (j, call)) :
    ∃ k, p.threads[i]? = some ⟨.worker j, .step (.publish call) k⟩ := by
  unfold calling at h
  split at h
  · next k hi =>
      obtain ⟨rfl, rfl⟩ := Prod.mk.inj (Option.some.inj h)
      exact ⟨k, hi⟩
  · cases h

/-- The first steps of the worker, up to its first call. -/
def calls : List (Label Draw Request) := connect ++ enqueue ++ work.take 7

/-- The vault of the sample opens what it has sealed. -/
theorem idealVault_calls :
    IdealVault deployment (idleService.history (service deployment) calls) := by
  have hencrypted : (idleService.history (service deployment) calls).filterMap
      (fun e => encryptionOf e.toAct) = [(aadOf 1 "craigslist" "account", manualTokens "secret",
        "sealed " ++ aadOf 1 "craigslist" "account")] := rfl
  intro e he aad tokens x envelope hact
  have hmem : (aad, tokens, envelope) ∈
      (idleService.history (service deployment) calls).filterMap fun e => encryptionOf e.toAct :=
    List.mem_filterMap.mpr ⟨e, he, by rw [hact]; rfl⟩
  rw [hencrypted] at hmem
  obtain ⟨rfl, hrest⟩ := Prod.mk.inj (List.mem_singleton.mp hmem)
  obtain ⟨rfl, rfl⟩ := Prod.mk.inj hrest
  have hopen : ∀ aad, deployment.decrypt aad ("sealed " ++ aadOf 1 "craigslist" "account") =
      if "sealed " ++ aadOf 1 "craigslist" "account" = "sealed " ++ aad then
        .ok (manualTokens "secret")
      else .error "decryption failed" := fun _ => rfl
  refine ⟨(hopen _).trans (if_pos rfl), fun aad' hne tokens' h => ?_⟩
  rw [hopen, if_neg fun heq => hne ((String.append_right_inj _).mp heq).symm] at h
  cases h

end Sample

/-- The first call of the worker of a job of user 1. -/
theorem calls_on_behalf_sample :
    ∃ p call k, idleService.run (service Sample.deployment) Sample.calls = some p ∧
      p.threads[4]? = some ⟨.worker 30, .step (.publish call) k⟩ ∧
      call.target.connectionId = 10 ∧ call.tokens.accessToken = "secret" ∧
      ∃ v ∈ p.shared.jobs, v.committed = true ∧ v.row.id = 30 ∧ call.target.jobId = 30 ∧
        OnBehalf Sample.deployment
          (idleService.history (service Sample.deployment) Sample.calls) p.shared 4 call v := by
  have hrun : ((idleService.run (service Sample.deployment) Sample.calls).bind fun p =>
      (Sample.calling p 4).map fun (j, call) =>
        (j, call.target.connectionId, call.tokens.accessToken)) = some (30, 10, "secret") := by
    decide +kernel
  obtain ⟨p, hp, hcalling⟩ := Option.bind_eq_some_iff.mp hrun
  obtain ⟨⟨j, call⟩, hcall, hshown⟩ := Option.map_eq_some_iff.mp hcalling
  obtain ⟨rfl, hrest⟩ := Prod.mk.inj hshown
  obtain ⟨hconnection, htokens⟩ := Prod.mk.inj hrest
  obtain ⟨k, hi⟩ := Sample.exists_of_calling hcall
  exact ⟨p, call, k, hp, hi, hconnection, htokens,
    calls_on_behalf rfl hp Sample.idealVault_calls hi⟩

end Service
