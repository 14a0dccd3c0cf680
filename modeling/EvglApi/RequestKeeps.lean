/-
# The handlers keep the discipline

All handlers but that of a cross-post request execute only harmless statements:
quiet ones, and the end of a transaction that has inserted no job.
-/
import EvglApi.WorkerKeeps

open Concurrency Mvcc

namespace Service

variable {env : Deployment} {w w' : World} {n : ℕ} {q : Request} {α β ε : Type}

/-! ## Harmless statements -/

/-- Neither the job and target tables nor a foreign transaction are written. -/
def Query.Harmless (n : ℕ) : Query β → Prop
  | .commit m => m = n
  | .insertJob .. => False
  | .insertTarget .. => False
  | .updateJobRunning .. => False
  | .updateTargetRunning .. => False
  | .updateTargetComplete .. => False
  | .updateTargetFailed .. => False
  | .updateJobStatus .. => False
  | _ => True

def Stmt.Harmless (n : ℕ) : Stmt β → Prop
  | .query q => q.Harmless n
  | .rollback m => m = n
  | .publish _ => False
  | _ => True

/-- What a request other than a cross-post request may execute: a harmless statement, and no
report on a job. -/
def Stmt.OfRequest (n : ℕ) (st : Stmt β) : Prop :=
  st.Harmless n ∧ match st with
    | .emit .. => False
    | _ => True

/-- Request `n` has no uncommitted rows. -/
def Idle (n : ℕ) (w : World) : Prop := w.jobs.pending n = [] ∧ w.targets.pending n = []

/-- A request without pending rows stays without. -/
theorem stable_idle (n : ℕ) (q : Request) : Stable (.request n q) (Idle n) := by
  intro w w' hrely h
  exact ⟨hrely.pendingJobs.trans h.1, hrely.pendingTargets.trans h.2⟩

/-- A quiet step makes no row pending. -/
theorem Quiet.idle (h : Quiet w w') (hidle : Idle n w) : Idle n w' := by
  unfold Idle
  rw [h.jobs, h.targets]
  exact hidle

/-- A step that changes the sessions or the looked-up keys only. -/
theorem quiet_sessions (h : Inv env w) (sessions : List SessionRow)
    (missed : List (ℕ × Uuid × String)) :
    Quiet w { w with sessions := sessions, missed := missed } := by
  apply quiet_of_connections_eq h <;> try rfl
  · exact fun _ he => he
  · exact fun _ hd => hd
  · exact ⟨[], by simp⟩

theorem quiet_insertSession (h : Inv env w) {s : SessionRow} {a : Except DbError Unit}
    (hexec : w.insertOauthSession s = some (a, w')) : Quiet w w' := by
  unfold World.insertOauthSession at hexec
  split at hexec
  · split at hexec
    · cases hexec
    · obtain ⟨-, rfl⟩ := Prod.mk.inj (Option.some.inj hexec)
      exact Quiet.refl h
  · obtain ⟨-, rfl⟩ := Prod.mk.inj (Option.some.inj hexec)
    exact quiet_sessions h _ _

theorem quiet_deleteSession (h : Inv env w) {x : Draw} {stateHash : String}
    {a : Except DbError (Option OAuthSession)}
    (hexec : w.deleteOauthSession x n stateHash = some (a, w')) : Quiet w w' := by
  unfold World.deleteOauthSession at hexec
  split at hexec
  · obtain ⟨-, rfl⟩ := Prod.mk.inj (Option.some.inj hexec)
    exact Quiet.refl h
  · split at hexec
    · split at hexec
      · obtain ⟨-, rfl⟩ := Prod.mk.inj (Option.some.inj hexec)
        exact Quiet.refl h
      · cases hexec
    · obtain ⟨-, rfl⟩ := Prod.mk.inj (Option.some.inj hexec)
      exact quiet_sessions h _ _

/-- A look-up that misses is recorded, and changes no row. -/
theorem quiet_selectJobByKey (h : Inv env w) {userId : Uuid} {key : String}
    {a : Except DbError (Option JobRow)}
    (hexec : w.selectJobByKey n userId key = some (a, w')) : Quiet w w' := by
  unfold World.selectJobByKey at hexec
  split at hexec
  · obtain ⟨-, rfl⟩ := Prod.mk.inj (Option.some.inj hexec)
    exact Quiet.refl h
  · obtain ⟨-, rfl⟩ := Prod.mk.inj (Option.some.inj hexec)
    exact quiet_sessions h _ _

/-- Appending an event is quiet. -/
theorem quiet_insertEvent (h : Inv env w) (e : EventRow) :
    Quiet w { w with events := w.events ++ [e] } := by
  apply quiet_of_connections_eq h <;> try rfl
  · exact fun _ he => List.mem_append_left _ he
  · exact fun _ hd => hd
  · exact ⟨[], by simp⟩

/-- Drawing an id is quiet. -/
theorem quiet_draw (h : Inv env w) (id : Uuid) : Quiet w { w with drawn := id :: w.drawn } := by
  apply quiet_of_connections_eq h <;> try rfl
  · exact fun _ he => he
  · exact fun _ hd => List.mem_cons_of_mem _ hd
  · exact ⟨[], by simp⟩

/-- A harmless query is quiet or commits the transaction. -/
theorem Query.Harmless.exec {k : Query β} (hk : k.Harmless n) (h : Inv env w) {x : Draw}
    {a : Except DbError β} (hexec : k.exec x w = some (a, w')) :
    Quiet w w' ∨ w' = w.commit n := by
  cases k with
  | commit m =>
      obtain rfl : m = n := hk
      obtain ⟨-, rfl⟩ := Prod.mk.inj (Option.some.inj hexec)
      exact Or.inr rfl
  | insertOauthSession m stateHash userId provider verifier uses =>
      exact Or.inl (quiet_insertSession h hexec)
  | deleteOauthSession m stateHash => exact Or.inl (quiet_deleteSession h hexec)
  | upsertConnection userId provider accountKey displayName metadata envelope =>
      exact Or.inl (quiet_upsert h hexec)
  | deleteConnection id userId => exact Or.inl (quiet_delete h hexec)
  | insertEvent id ownerId document =>
      obtain ⟨-, rfl⟩ := Prod.mk.inj (Option.some.inj hexec)
      exact Or.inl (quiet_insertEvent h _)
  | selectJobByKey m userId key => exact Or.inl (quiet_selectJobByKey h hexec)
  -- the statements of cross-posts and of workers are no harmless ones
  | insertJob m userId eventId key => exact hk.elim
  | insertTarget m jobId connectionId provider options => exact hk.elim
  | updateJobRunning id => exact hk.elim
  | updateTargetRunning id attempt => exact hk.elim
  | updateTargetComplete id status result => exact hk.elim
  | updateTargetFailed id attempt error => exact hk.elim
  | updateJobStatus id status => exact hk.elim
  | _ =>
      obtain ⟨-, rfl⟩ := Prod.mk.inj (Option.some.inj hexec)
      exact Or.inl (Quiet.refl h)

/-- The end of an idle transaction. -/
theorem Idle.commit (hidle : Idle n w) (h : Inv env w) (hself : Taken w (.request n q)) :
    Guar (.request n q) w (w.commit n) ∧ Inv env (w.commit n) ∧ Idle n (w.commit n) := by
  refine ⟨guar_commit h hself, h.commit fun job hjob => ?_, Table.pending_commit_self,
    Table.pending_commit_self⟩
  rw [hidle.1] at hjob
  cases hjob

/-- A harmless statement is quiet or ends the transaction. -/
theorem Stmt.Harmless.exec {st : Stmt β} (hst : st.Harmless n) (h : Inv env w) {x : Draw} {b : β}
    (hexec : st.exec x w = some (b, w')) :
    Quiet w w' ∨ w' = w.commit n ∨ w' = w.rollback n := by
  cases st with
  | query k =>
      rcases Stmt.exec_query hexec with ⟨text, -, -, rfl⟩ | ⟨-, hexec⟩
      · exact Or.inl (Quiet.refl h)
      · exact (Query.Harmless.exec hst h hexec).imp id Or.inl
  | rollback m =>
      obtain rfl : m = n := hst
      obtain ⟨-, rfl⟩ := Prod.mk.inj (Option.some.inj hexec)
      exact Or.inr (Or.inr rfl)
  | newUuid =>
      obtain ⟨-, -, rfl⟩ := Stmt.exec_newUuid hexec
      exact Or.inl (quiet_draw h _)
  | encrypt aad tokens =>
      rcases Stmt.exec_encrypt hexec with ⟨e, -, rfl⟩ | ⟨envelope, -, rfl⟩
      · exact Or.inl (Quiet.refl h)
      · exact Or.inl (quiet_log h rfl rfl)
  | publish call => exact hst.elim
  | randomUrlsafe bytes =>
      obtain ⟨-, rfl⟩ := Prod.mk.inj (Option.some.inj hexec)
      exact Or.inl (Quiet.refl h)
  | resolveAccounts provider tokens =>
      obtain ⟨-, rfl⟩ := Prod.mk.inj (Option.some.inj hexec)
      exact Or.inl (Quiet.refl h)
  | _ =>
      -- the others record something that is about no job
      obtain ⟨-, rfl⟩ := Prod.mk.inj (Option.some.inj hexec)
      exact Or.inl (quiet_log h rfl rfl)

/-- A harmless statement of a request keeps the discipline, and the request idle. -/
theorem Stmt.Harmless.keeps {st : Stmt β} (hst : st.Harmless n) (h : Inv env w)
    (hself : Taken w (.request n q)) (hidle : Idle n w) {x : Draw} {b : β}
    (hexec : st.exec x w = some (b, w')) :
    Guar (.request n q) w w' ∧ Inv env w' ∧ Idle n w' := by
  rcases hst.exec h hexec with hquiet | rfl | rfl
  · exact ⟨hquiet.guar _, hquiet.inv h, hquiet.idle hidle⟩
  · exact hidle.commit h hself
  · exact ⟨guar_rollback h hself, h.rollback n, Table.pending_rollback_self,
      Table.pending_rollback_self⟩

/-! ## Harmless programs -/

theorem only_start (userId : Uuid) (provider : String) :
    Only (Stmt.OfRequest n) (Oauth.start env n userId provider) := by
  refine Only.bind (Only.result _) fun provider => ?_
  cases env.providers provider with
  | none => exact Only.throw _
  | some adapter =>
      show Only (Stmt.OfRequest n) (if _ then _ else _)
      split
      · exact Only.throw _
      · refine Only.bind (Only.stmt ⟨trivial, trivial⟩) fun _ => ?_
        refine Only.bind (Only.stmt ⟨trivial, trivial⟩) fun _ => ?_
        refine Only.bind (Only.result _) fun _ => ?_
        exact Only.bind (Only.query ⟨trivial, trivial⟩) fun _ => Only.pure _

theorem only_connectAccounts (userId : Uuid) (provider : ProviderKind) (tokens : TokenSet)
    (accounts : List Account) :
    Only (Stmt.OfRequest n) (Oauth.connectAccounts env userId provider tokens accounts) := by
  induction accounts with
  | nil => exact Only.pure _
  | cons account accounts ih =>
      refine Only.bind (Only.attempt ⟨trivial, trivial⟩) fun _ => ?_
      refine Only.bind (Only.query ⟨trivial, trivial⟩) fun _ => ?_
      exact Only.bind ih fun _ => Only.pure _

theorem only_callback (provider : String) (query : CallbackQuery) :
    Only (Stmt.OfRequest n) (Oauth.callback env n provider query) := by
  unfold Oauth.callback
  cases query.error with
  | some error => exact Only.throw _
  | none =>
      refine Only.bind (Only.transaction ⟨trivial, trivial⟩ ⟨rfl, trivial⟩
        (Only.bind (Only.query ⟨trivial, trivial⟩) fun session => ?_)) fun session => ?_
      · cases session with
        | none => exact Only.throw _
        | some session => exact Only.bind (Only.query ⟨rfl, trivial⟩) fun _ => Only.pure _
      · refine Only.bind (Only.result _) fun provider => Only.bind (Only.result _) fun path => ?_
        show Only (Stmt.OfRequest n) (if _ then _ else if _ then _ else _)
        split
        · exact Only.throw _
        · split
          · exact Only.throw _
          · cases query.code with
            | none => exact Only.throw _
            | some code =>
                refine Only.bind (Only.attempt ⟨trivial, trivial⟩) fun _ => ?_
                refine Only.bind (Only.attempt ⟨trivial, trivial⟩) fun _ => ?_
                refine Only.bind (only_connectAccounts _ _ _ _) fun _ => ?_
                exact Only.bind (Only.result _) fun _ => Only.pure _

/-- A request that is not a cross-post request. -/
def Request.NotCrossPost : Request → Prop
  | .crossPost .. => False
  | _ => True

/-- A handler other than `cross_post` executes statements of its own request only. -/
theorem only_handle (hq : q.NotCrossPost) : Only (Stmt.OfRequest n) (handle env n q) := by
  cases q with
  | createEvent user input =>
      exact only_createEvent input ⟨trivial, trivial⟩ (fun _ _ => ⟨trivial, trivial⟩)
        fun _ => ⟨trivial, trivial⟩
  | listEvents user =>
      refine Only.bind (Only.bind (Only.query ⟨trivial, trivial⟩) fun _ => Only.result _) fun _ => ?_
      exact Only.pure _
  | getEvent user id => exact Only.bind (only_getEvent ⟨trivial, trivial⟩) fun _ => Only.pure _
  | crossPost user eventId key targets => exact hq.elim
  | getJob user id =>
      exact Only.bind (only_getJob ⟨trivial, trivial⟩ ⟨trivial, trivial⟩) fun _ => Only.pure _
  | start user provider => exact only_start user provider
  | callback provider query => exact only_callback provider query
  | createManual user input =>
      exact only_createManual input (fun _ => ⟨trivial, trivial⟩) (fun _ _ => ⟨trivial, trivial⟩)
        fun _ _ => ⟨trivial, trivial⟩
  | listConnections user => exact Only.bind (Only.query ⟨trivial, trivial⟩) fun _ => Only.pure _
  | deleteConnection user id => exact only_deleteConnection ⟨trivial, trivial⟩

/-- The program of a request that is not a cross-post request keeps the discipline. -/
theorem wp_respond_of_notCrossPost (hq : q.NotCrossPost) (hidle : Idle n w) :
    (ownership env).wp (.request n q) (respond env n q) ((ownership env).post (.request n q))
      w := by
  rw [respond, Discipline.wp_bind]
  have hharmless : Only (Stmt.OfRequest n) (handle env n q) := only_handle hq
  have hevery := Discipline.wp_of_every (D := ownership env) (r := .request n q) hharmless
    (stable_idle n q)
    (fun {_ _} hst w hinv htaken hidle => ⟨trivial, fun _ _ _ _ hexec =>
      Stmt.Harmless.keeps hst.1 hinv htaken hidle hexec⟩) hidle
  refine Discipline.wp_mono (fun r w _ => ?_) hevery
  intro user eventId key targets status job heq
  rw [heq] at hq
  exact hq.elim

end Service
