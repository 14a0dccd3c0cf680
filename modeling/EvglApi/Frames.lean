/-
# What a statement changes

A statement that can wait, be refused or find nothing is taken apart once, in a lemma that says
what it has answered and what it has changed (`insertJob_cases` and the like).

`Query.writes` and `Stmt.writes` are the parts of the store that a statement may change;
`Query.exec_frame` and `Stmt.exec_frame` say that it leaves the others as they are.
-/
import EvglApi.Store

open Mvcc

namespace Service

variable {x : Draw} {w w' : World} {n : ℕ} {β : Type}

/-! ## Rows that are written -/

/-- The world in which `row` replaces the connection with its id. -/
def World.replaceConnection (w : World) (row : ConnectionRow) : World :=
  { w with
    connections := w.connections.map fun c => if c.id = row.id then row else c
    trace := w.trace ++ [.upserted row] }

/-- The world with a new connection. -/
def World.addConnection (w : World) (row : ConnectionRow) : World :=
  { w with
    connections := w.connections ++ [row]
    drawn := row.id :: w.drawn
    trace := w.trace ++ [.upserted row] }

/-- The world with a new job of transaction `n`. -/
def World.addJob (w : World) (n : ℕ) (row : JobRow) : World :=
  { w with jobs := w.jobs.insert n row, drawn := row.id :: w.drawn }

/-- The world with a new target of transaction `n`. -/
def World.addTarget (w : World) (n : ℕ) (row : TargetRow) : World :=
  { w with targets := w.targets.insert n row, drawn := row.id :: w.drawn }

/-- What a request asks of a target. -/
def TargetFixed.columns (t : TargetFixed) : Uuid × String × Value :=
  (t.connectionId, t.provider, t.options)

/-! ## Statements with conditions -/

/-- An `INSERT` of a session is refused, or adds a session with a new hash. -/
theorem insertOauthSession_cases {s : SessionRow} {a : Except DbError Unit}
    (h : w.insertOauthSession s = some (a, w')) :
    (∃ e, a = .error e ∧ w' = w) ∨
    a = .ok () ∧ w' = { w with sessions := w.sessions ++ [s] } ∧
      ∀ s' ∈ w.sessions, s'.stateHash ≠ s.stateHash := by
  unfold World.insertOauthSession at h
  split at h
  · split at h
    · cases h
    · obtain ⟨rfl, rfl⟩ := Prod.mk.inj (Option.some.inj h)
      exact Or.inl ⟨_, rfl, rfl⟩
  · next hnone =>
      obtain ⟨rfl, rfl⟩ := Prod.mk.inj (Option.some.inj h)
      refine Or.inr ⟨rfl, rfl, fun s' hs' => ?_⟩
      exact of_decide_eq_false (Bool.eq_false_iff.mpr (List.find?_eq_none.mp hnone s' hs'))

/-- A `DELETE` of a session finds none, or deletes one that is not over and not deleted. -/
theorem deleteOauthSession_cases {stateHash : String} {a : Except DbError (Option OAuthSession)}
    (h : w.deleteOauthSession x n stateHash = some (a, w')) :
    a = .ok none ∧ w' = w ∨
    ∃ s ∈ w.sessions, s.stateHash = stateHash ∧ s.expiresAt > x.now ∧ s.deletedBy = none ∧
      a = .ok (some s.toOAuthSession) ∧
        w' = { w with sessions := w.sessions.map fun s' =>
          if s'.stateHash = stateHash then { s' with deletedBy := some n } else s' } := by
  unfold World.deleteOauthSession at h
  split at h
  · obtain ⟨rfl, rfl⟩ := Prod.mk.inj (Option.some.inj h)
    exact Or.inl ⟨rfl, rfl⟩
  · next s hfind =>
      obtain ⟨hmem, hhash, hexpires⟩ := Keyed.found hfind
      split at h
      · split at h
        · obtain ⟨rfl, rfl⟩ := Prod.mk.inj (Option.some.inj h)
          exact Or.inl ⟨rfl, rfl⟩
        · cases h
      · next hfree =>
          obtain ⟨rfl, rfl⟩ := Prod.mk.inj (Option.some.inj h)
          exact Or.inr ⟨s, hmem, hhash, hexpires, hfree, rfl, rfl⟩

/-- An upsert updates the connection of the account, or adds one with a new id. -/
theorem upsertConnection_cases {userId : Uuid} {provider accountKey displayName : String}
    {metadata : Value} {envelope : String} {a : Except DbError ConnectionRow}
    (h : w.upsertConnection x userId provider accountKey displayName metadata envelope =
      some (a, w')) :
    ∃ row : ConnectionRow, a = .ok row ∧ row.hasKey userId provider accountKey ∧
      (row.displayName = displayName ∧ row.metadata = metadata ∧ row.tokenEnvelope = envelope) ∧
      ((∃ old ∈ w.connections, row.toConnectionFixed = old.toConnectionFixed ∧
          w' = w.replaceConnection row) ∨
        (∀ c ∈ w.connections, ¬ c.hasKey userId provider accountKey) ∧ row.id ∉ w.drawn ∧
          w' = w.addConnection row) := by
  unfold World.upsertConnection at h
  split at h
  · next old hfind =>
      obtain ⟨rfl, rfl⟩ := Prod.mk.inj (Option.some.inj h)
      obtain ⟨hmem, hkey⟩ := Keyed.found hfind
      exact ⟨_, rfl, hkey, ⟨rfl, rfl, rfl⟩, Or.inl ⟨old, hmem, rfl, rfl⟩⟩
  · next hnone =>
      split at h
      · cases h
      · next hfresh =>
          obtain ⟨rfl, rfl⟩ := Prod.mk.inj (Option.some.inj h)
          refine ⟨_, rfl, ⟨rfl, rfl, rfl⟩, ⟨rfl, rfl, rfl⟩,
            Or.inr ⟨fun c hc hkey => ?_, hfresh, rfl⟩⟩
          exact List.find?_eq_none.mp hnone c hc (decide_eq_true hkey)

/-- A `DELETE` of a connection finds none, is refused, or removes one that no target refers to. -/
theorem deleteConnection_cases {id userId : Uuid} {a : Except DbError ℕ}
    (h : w.deleteConnection id userId = some (a, w')) :
    a = .ok 0 ∧ w' = w ∧ (∀ c ∈ w.connections, c.id = id → c.userId ≠ userId) ∨
    ∃ c ∈ w.connections, c.id = id ∧ c.userId = userId ∧
      (a = .error (.foreignKeyViolation connectionInUseMessage) ∧ w' = w ∨
        a = .ok 1 ∧ w' = { w with connections := w.connections.filter (·.id ≠ id) } ∧
          ∀ t ∈ w.targets, t.row.connectionId ≠ id) := by
  unfold World.deleteConnection at h
  split at h
  · next hnone =>
      obtain ⟨rfl, rfl⟩ := Prod.mk.inj (Option.some.inj h)
      refine Or.inl ⟨rfl, rfl, fun c hc hid huser => ?_⟩
      exact List.find?_eq_none.mp hnone c hc (decide_eq_true ⟨hid, huser⟩)
  · next c hfind =>
      obtain ⟨hmem, hid, huser⟩ := Keyed.found hfind
      refine Or.inr ⟨c, hmem, hid, huser, ?_⟩
      split at h
      · cases h
      · split at h
        · obtain ⟨rfl, rfl⟩ := Prod.mk.inj (Option.some.inj h)
          exact Or.inl ⟨rfl, rfl⟩
        · next hunused =>
            obtain ⟨rfl, rfl⟩ := Prod.mk.inj (Option.some.inj h)
            refine Or.inr ⟨rfl, rfl, fun t ht hid => ?_⟩
            exact hunused (List.any_eq_true.mpr ⟨t, ht, decide_eq_true hid⟩)

/-- A key is found with the job that the transaction sees, or missed. -/
theorem selectJobByKey_cases (w : World) (n : ℕ) (userId : Uuid) (key : String) :
    (∃ job, w.selectJobByKey n userId key = some (.ok (some job), w) ∧
      job ∈ w.jobs.rows (some n) ∧ job.hasKey userId key) ∨
    w.selectJobByKey n userId key =
        some (.ok none, { w with missed := w.missed ++ [(n, userId, key)] }) ∧
      ∀ job ∈ w.jobs.rows (some n), ¬ job.hasKey userId key := by
  unfold World.selectJobByKey
  cases hfind : (w.jobs.rows (some n)).find? fun job => job.hasKey userId key with
  | some job =>
      obtain ⟨hmem, hkey⟩ := Keyed.found hfind
      exact Or.inl ⟨job, rfl, hmem, hkey⟩
  | none =>
      refine Or.inr ⟨rfl, fun job hjob hkey => ?_⟩
      exact absurd (decide_eq_true hkey) (List.find?_eq_none.mp hfind job hjob)

/-- An `INSERT` of a job fails and changes nothing, or adds a queued job with a fresh
id under an unused key. -/
theorem insertJob_cases {x : Draw} {userId eventId : Uuid} {key : String}
    {a : Except DbError JobRow} (h : w.insertJob x n userId eventId key = some (a, w')) :
    (∃ e, a = .error e ∧ w' = w) ∨
    ∃ row : JobRow, a = .ok row ∧ w' = w.addJob n row ∧ row.id ∉ w.drawn ∧ row.userId = userId ∧
      row.eventId = eventId ∧ row.idempotencyKey = key ∧ row.status = "queued" ∧
      ∀ v ∈ w.jobs, ¬ v.row.hasKey userId key := by
  unfold World.insertJob at h
  split at h
  · cases h
  · next hfresh =>
      split at h
      · cases h
      · split at h
        · obtain ⟨rfl, rfl⟩ := Prod.mk.inj (Option.some.inj h)
          exact Or.inl ⟨_, rfl, rfl⟩
        · next hunused =>
            split at h
            · obtain ⟨rfl, rfl⟩ := Prod.mk.inj (Option.some.inj h)
              exact Or.inl ⟨_, rfl, rfl⟩
            · obtain ⟨rfl, rfl⟩ := Prod.mk.inj (Option.some.inj h)
              refine Or.inr ⟨_, rfl, rfl, hfresh, rfl, rfl, rfl, rfl, fun v hv hkey => ?_⟩
              exact hunused (List.any_eq_true.mpr ⟨v, hv, decide_eq_true hkey⟩)

/-- An `INSERT` of a target fails and changes nothing, or adds a queued target with a
fresh id that refers to a visible job and a stored connection. -/
theorem insertTarget_cases {x : Draw} {jobId connectionId : Uuid} {provider : String}
    {options : Value} {a : Except DbError Unit}
    (h : w.insertTarget x n jobId connectionId provider options = some (a, w')) :
    (∃ e, a = .error e ∧ w' = w) ∨
    ∃ row : TargetRow, a = .ok () ∧ w' = w.addTarget n row ∧ row.id ∉ w.drawn ∧
      row.jobId = jobId ∧ row.toTargetFixed.columns = (connectionId, provider, options) ∧
      row.status = "queued" ∧ row.attempt = 0 ∧ ∃ c ∈ w.connections, c.id = connectionId := by
  unfold World.insertTarget at h
  split at h
  · cases h
  · next hfresh =>
      split at h
      · obtain ⟨rfl, rfl⟩ := Prod.mk.inj (Option.some.inj h)
        exact Or.inl ⟨_, rfl, rfl⟩
      · split at h
        · obtain ⟨rfl, rfl⟩ := Prod.mk.inj (Option.some.inj h)
          exact Or.inl ⟨_, rfl, rfl⟩
        · next hconnection =>
            obtain ⟨rfl, rfl⟩ := Prod.mk.inj (Option.some.inj h)
            refine Or.inr ⟨_, rfl, rfl, hfresh, rfl, rfl, rfl, rfl, ?_⟩
            by_contra hnone
            refine hconnection (List.all_eq_true.mpr fun c hc => decide_eq_true fun hid => ?_)
            exact hnone ⟨c, hc, hid⟩

/-! ## Frames -/

/-- The parts of the store that statements change. -/
inductive Part
  | events
  | connections
  | jobs
  | targets
  | sessions
  | drawn
  | missed
  | trace
  deriving DecidableEq

/-- The second world differs from the first one in the given parts at most.  No statement touches
the record of the programs. -/
structure ChangesOnly (parts : List Part) (w w' : World) : Prop where
  events : .events ∉ parts → w'.events = w.events
  connections : .connections ∉ parts → w'.connections = w.connections
  jobs : .jobs ∉ parts → w'.jobs = w.jobs
  targets : .targets ∉ parts → w'.targets = w.targets
  sessions : .sessions ∉ parts → w'.sessions = w.sessions
  drawn : .drawn ∉ parts → w'.drawn = w.drawn
  missed : .missed ∉ parts → w'.missed = w.missed
  trace : .trace ∉ parts → w'.trace = w.trace
  requests : w'.requests = w.requests
  workers : w'.workers = w.workers

theorem ChangesOnly.refl (parts : List Part) (w : World) : ChangesOnly parts w w :=
  ⟨fun _ => rfl, fun _ => rfl, fun _ => rfl, fun _ => rfl, fun _ => rfl, fun _ => rfl,
    fun _ => rfl, fun _ => rfl, rfl, rfl⟩

/-- The parts that a query may change. -/
@[simp] def Query.writes : Query β → List Part
  | .commit _ => [.jobs, .targets, .sessions, .missed]
  | .insertOauthSession .. => [.sessions]
  | .deleteOauthSession .. => [.sessions]
  | .upsertConnection .. => [.connections, .drawn, .trace]
  | .deleteConnection .. => [.connections]
  | .insertEvent .. => [.events]
  | .selectJobByKey .. => [.missed]
  | .insertJob .. => [.jobs, .drawn]
  | .insertTarget .. => [.targets, .drawn]
  | .updateJobRunning _ => [.jobs]
  | .updateTargetRunning .. => [.targets]
  | .updateTargetComplete .. => [.targets, .trace]
  | .updateTargetFailed .. => [.targets, .trace]
  | .updateJobStatus .. => [.jobs, .trace]
  | _ => []

/-- A query changes no other part. -/
theorem Query.exec_frame {q : Query β} {a : Except DbError β} (h : q.exec x w = some (a, w')) :
    ChangesOnly q.writes w w' := by
  cases q with
  | insertOauthSession m stateHash userId provider verifier usesPkce =>
      obtain ⟨e, -, rfl⟩ | ⟨-, rfl, -⟩ := insertOauthSession_cases h
      · exact ChangesOnly.refl _ _
      · constructor <;> simp
  | deleteOauthSession m stateHash =>
      obtain ⟨-, rfl⟩ | ⟨s, -, -, -, -, -, rfl⟩ := deleteOauthSession_cases h
      · exact ChangesOnly.refl _ _
      · constructor <;> simp
  | upsertConnection userId provider accountKey displayName metadata envelope =>
      obtain ⟨row, -, -, -, ⟨old, -, -, rfl⟩ | ⟨-, -, rfl⟩⟩ := upsertConnection_cases h
      · constructor <;> simp [World.replaceConnection]
      · constructor <;> simp [World.addConnection]
  | deleteConnection id userId =>
      obtain ⟨-, rfl, -⟩ | ⟨c, -, -, -, ⟨-, rfl⟩ | ⟨-, rfl, -⟩⟩ := deleteConnection_cases h
      · exact ChangesOnly.refl _ _
      · exact ChangesOnly.refl _ _
      · constructor <;> simp
  | selectJobByKey m userId key =>
      change w.selectJobByKey m userId key = some (a, w') at h
      obtain ⟨job, hfound, -⟩ | ⟨hmissed, -⟩ := selectJobByKey_cases w m userId key
      · cases hfound.symm.trans h
        exact ChangesOnly.refl _ _
      · cases hmissed.symm.trans h
        constructor <;> simp
  | insertJob m userId eventId key =>
      obtain ⟨e, -, rfl⟩ | ⟨row, -, rfl, -⟩ := insertJob_cases h
      · exact ChangesOnly.refl _ _
      · constructor <;> simp [World.addJob]
  | insertTarget m jobId connectionId provider options =>
      obtain ⟨e, -, rfl⟩ | ⟨row, -, rfl, -⟩ := insertTarget_cases h
      · exact ChangesOnly.refl _ _
      · constructor <;> simp [World.addTarget]
  | _ =>
      -- the other queries change the same parts whatever the tables hold
      obtain ⟨-, rfl⟩ := Prod.mk.inj (Option.some.inj h)
      constructor <;>
        simp [World.commit, World.updateJob, World.updateTarget, World.logOutcome, World.log]

/-- The parts that a statement may change. -/
@[simp] def Stmt.writes : Stmt β → List Part
  | .query q => q.writes
  | .rollback _ => [.jobs, .targets, .sessions, .missed]
  | .newUuid => [.drawn]
  | .encrypt .. => [.trace]
  | .exchangeCode .. => [.trace]
  | .publish _ => [.trace]
  | .emit .. => [.trace]
  | .sendEvent _ => [.trace]
  | .randomUrlsafe _ => []
  | .resolveAccounts .. => []

/-- A statement changes no other part. -/
theorem Stmt.exec_frame {st : Stmt β} {b : β} (h : st.exec x w = some (b, w')) :
    ChangesOnly st.writes w w' := by
  cases st with
  | query q =>
      rcases Stmt.exec_query h with ⟨text, -, -, rfl⟩ | ⟨-, hexec⟩
      · exact ChangesOnly.refl _ _
      · exact Query.exec_frame hexec
  | newUuid =>
      obtain ⟨-, -, rfl⟩ := Stmt.exec_newUuid h
      constructor <;> simp
  | encrypt aad tokens =>
      rcases Stmt.exec_encrypt h with ⟨e, -, rfl⟩ | ⟨envelope, -, rfl⟩
      · exact ChangesOnly.refl _ _
      · constructor <;> simp [World.log]
  | _ =>
      obtain ⟨-, rfl⟩ := Prod.mk.inj (Option.some.inj h)
      constructor <;> simp [World.log, World.rollback]

/-! ## Identifiers -/

/-- A query that draws an identifier draws a new one. -/
theorem Query.exec_fresh {q : Query β} {a : Except DbError β} (h : q.exec x w = some (a, w')) :
    w'.drawn = w.drawn ∨ x.uuid ∉ w.drawn ∧ w'.drawn = x.uuid :: w.drawn := by
  cases q with
  | upsertConnection | insertJob | insertTarget =>
      simp only [Query.exec, World.upsertConnection, World.insertJob, World.insertTarget] at h
      grind
  | _ => exact Or.inl ((Query.exec_frame h).drawn (by simp))

/-- So does a statement. -/
theorem Stmt.exec_fresh {st : Stmt β} {b : β} (h : st.exec x w = some (b, w')) :
    w'.drawn = w.drawn ∨ x.uuid ∉ w.drawn ∧ w'.drawn = x.uuid :: w.drawn := by
  cases st with
  | query q =>
      rcases Stmt.exec_query h with ⟨text, -, -, rfl⟩ | ⟨-, hexec⟩
      · exact Or.inl rfl
      · exact Query.exec_fresh hexec
  | newUuid =>
      obtain ⟨hnew, -, rfl⟩ := Stmt.exec_newUuid h
      exact Or.inr ⟨hnew, rfl⟩
  | _ => exact Or.inl ((Stmt.exec_frame h).drawn (by simp))

/-! ## Updates -/

/-- The update of a recorded effect. -/
def Effect.update : Effect → Option JobUpdate
  | .emitted u => some u
  | _ => none

/-- A statement that emits no update. -/
def Stmt.Silent {β : Type} : Stmt β → Prop
  | .emit .. => False
  | _ => True

/-- What a query records is no update. -/
theorem Query.exec_trace {q : Query β} {a : Except DbError β} (h : q.exec x w = some (a, w')) :
    ∃ es, w'.trace = w.trace ++ es ∧ ∀ e ∈ es, Effect.update e = none := by
  have hnothing : w'.trace = w.trace → ∃ es, w'.trace = w.trace ++ es ∧
      ∀ e ∈ es, Effect.update e = none := fun htrace => ⟨[], by simp [htrace], by simp⟩
  have houtcome : ∀ (w : World) (id : Uuid), ∃ es, (w.logOutcome id).trace = w.trace ++ es ∧
      ∀ e ∈ es, Effect.update e = none := by
    refine fun w id => ⟨_, rfl, fun e he => ?_⟩
    obtain ⟨t, -, rfl⟩ := List.mem_map.mp he
    rfl
  cases q with
  | upsertConnection user provider accountKey displayName metadata envelope =>
      obtain ⟨row, -, -, -, ⟨old, -, -, rfl⟩ | ⟨-, -, rfl⟩⟩ := upsertConnection_cases h
      · exact ⟨_, rfl, by simp [Effect.update]⟩
      · exact ⟨_, rfl, by simp [Effect.update]⟩
  | updateTargetComplete id status result =>
      obtain ⟨-, rfl⟩ := Prod.mk.inj (Option.some.inj h)
      exact houtcome _ id
  | updateTargetFailed id attempt error =>
      obtain ⟨-, rfl⟩ := Prod.mk.inj (Option.some.inj h)
      exact houtcome _ id
  | updateJobStatus id status =>
      obtain ⟨-, rfl⟩ := Prod.mk.inj (Option.some.inj h)
      exact ⟨_, rfl, by simp [Effect.update]⟩
  | _ => exact hnothing ((Query.exec_frame h).trace (by simp))

/-- What a silent statement records is no update. -/
theorem Stmt.exec_trace {st : Stmt β} {b : β} (hst : st.Silent)
    (h : st.exec x w = some (b, w')) :
    ∃ es, w'.trace = w.trace ++ es ∧ ∀ e ∈ es, e.update = none := by
  have hsame : w'.trace = w.trace → ∃ es, w'.trace = w.trace ++ es ∧
      ∀ e ∈ es, Effect.update e = none := fun htrace => ⟨[], by simp [htrace], by simp⟩
  cases st with
  | query q =>
      rcases Stmt.exec_query h with ⟨text, -, -, heq⟩ | ⟨-, hexec⟩
      · exact hsame (congrArg World.trace heq)
      · exact Query.exec_trace hexec
  | encrypt aad tokens =>
      obtain ⟨e, -, heq⟩ | ⟨envelope, -, rfl⟩ := Stmt.exec_encrypt h
      · exact hsame (congrArg World.trace heq)
      · exact ⟨_, rfl, by simp [Effect.update]⟩
  | emit job provider status attempt message publication => exact hst.elim
  | exchangeCode | publish | sendEvent =>
      obtain ⟨-, rfl⟩ := Prod.mk.inj (Option.some.inj h)
      exact ⟨_, rfl, by simp [Effect.update]⟩
  | _ => exact hsame ((Stmt.exec_frame h).trace (by simp))

end Service
