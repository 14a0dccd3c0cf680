/-
# The service comes to rest

A statement waits for a row that an open transaction has inserted or deleted.  A request whose
transaction has such rows does not wait itself before the transaction has ended, so some program
can always go on, and without new clients all programs come to their ends.

* `World.Unlocked` says that the transaction of a request keeps no one waiting.
* `Holding` are the programs in whose transactions there may be such rows.
* `Locks` are the programs that hold what they lock; `locks_handle` is about all handlers.
* `locking`: the service keeps to the rules for locks.
-/
import EvglApi.AtMostOnce
import EvglApi.Completion
import EvglApi.HandlerRules

open Concurrency Mvcc

namespace Service

variable {env : Deployment} {p p' : Pool Stmt Role Outcome World} {w w' : World} {m n : ℕ}
  {x : Draw} {α β : Type}

/-! ## Rows that keep others waiting -/

/-- The transaction of request `m` has no row that is not committed. -/
structure World.Unlocked (w : World) (m : ℕ) : Prop where
  jobs : w.jobs.pending m = []
  targets : w.targets.pending m = []
  sessions : ∀ s ∈ w.sessions, s.deletedBy ≠ some m

/-- The statement gives the transaction of request `m` such a row. -/
def Stmt.Acquires (m : ℕ) : {β : Type} → Stmt β → β → Prop
  | _, .query (.insertJob n ..), .ok _ => n = m
  | _, .query (.insertTarget n ..), .ok _ => n = m
  | _, .query (.deleteOauthSession n _), .ok (some _) => n = m
  | _, _, _ => False

/-- What a transaction holds depends on its pending rows and on the sessions it has deleted.
-/
theorem World.Unlocked.of_eq (h : w.Unlocked m) (hjobs : w'.jobs.pending m = w.jobs.pending m)
    (htargets : w'.targets.pending m = w.targets.pending m) (hsessions : w'.sessions = w.sessions) :
    w'.Unlocked m :=
  ⟨hjobs.trans h.jobs, htargets.trans h.targets, hsessions ▸ h.sessions⟩

/-- A commit releases everything. -/
theorem unlocked_commit_self : (w.commit m).Unlocked m := by
  refine ⟨Table.pending_commit_self, Table.pending_commit_self, fun s hs => ?_⟩
  simpa using (List.mem_filter.mp hs).2

theorem World.Unlocked.commit (h : w.Unlocked m) : (w.commit n).Unlocked m := by
  by_cases hmn : m = n
  · subst hmn
    exact unlocked_commit_self
  · exact ⟨(Table.pending_commit_of_ne hmn).trans h.jobs,
      (Table.pending_commit_of_ne hmn).trans h.targets,
      fun s hs => h.sessions s (List.mem_of_mem_filter hs)⟩

theorem unlocked_rollback_self : (w.rollback m).Unlocked m := by
  refine ⟨Table.pending_rollback_self, Table.pending_rollback_self, fun s hs => ?_⟩
  obtain ⟨s', -, rfl⟩ := List.mem_map.mp hs
  split
  · exact nofun
  · next h => exact h

/-- A rollback acquires nothing, whosoever it is. -/
theorem World.Unlocked.rollback (h : w.Unlocked m) : (w.rollback n).Unlocked m := by
  by_cases hmn : m = n
  · subst hmn
    exact unlocked_rollback_self
  · refine ⟨(Table.pending_rollback_of_ne hmn).trans h.jobs,
      (Table.pending_rollback_of_ne hmn).trans h.targets, fun s hs => ?_⟩
    obtain ⟨s', hs', rfl⟩ := List.mem_map.mp hs
    split
    · exact nofun
    · exact h.sessions s' hs'

/-- A statement that changes no row takes no lock. -/
theorem World.Unlocked.of_changesOnly {parts : List Part} (h : w.Unlocked m)
    (hchanges : ChangesOnly parts w w')
    (hparts : .jobs ∉ parts ∧ .targets ∉ parts ∧ .sessions ∉ parts) :
    w'.Unlocked m := by
  obtain ⟨hjobs, htargets, hsessions⟩ := hparts
  exact h.of_eq (by rw [hchanges.jobs hjobs]) (by rw [hchanges.targets htargets])
    (hchanges.sessions hsessions)

theorem World.Unlocked.updateJob (h : w.Unlocked m) (id : Uuid) (f : JobRow → JobRow) :
    (w.updateJob id f).Unlocked m := by
  refine h.of_eq ?_ rfl rfl
  rw [World.updateJob, Table.pending_update]

theorem World.Unlocked.updateTarget (h : w.Unlocked m) (id : Uuid) (f : TargetRow → TargetRow) :
    (w.updateTarget id f).Unlocked m := by
  refine h.of_eq rfl ?_ rfl
  rw [World.updateTarget, Table.pending_update]

theorem World.Unlocked.log (h : w.Unlocked m) (e : Effect) : (w.log e).Unlocked m :=
  h.of_eq rfl rfl rfl

theorem World.Unlocked.logOutcome (h : w.Unlocked m) (id : Uuid) : (w.logOutcome id).Unlocked m :=
  h.of_eq rfl rfl rfl

/-- A session that is stored is not deleted. -/
theorem World.Unlocked.insertOauthSession (h : w.Unlocked m) {s : SessionRow}
    {a : Except DbError Unit} (hexec : w.insertOauthSession s = some (a, w'))
    (hs : s.deletedBy = none) : w'.Unlocked m := by
  obtain ⟨e, -, rfl⟩ | ⟨-, rfl, -⟩ := insertOauthSession_cases hexec
  · exact h
  · refine ⟨h.jobs, h.targets, fun s' hs' => ?_⟩
    rcases List.mem_append.mp hs' with hs' | hs'
    · exact h.sessions s' hs'
    · rw [List.mem_singleton.mp hs', hs]
      exact (Option.some_ne_none m).symm

/-- A session that is deleted is locked by the transaction that deletes it. -/
theorem World.Unlocked.deleteOauthSession (h : w.Unlocked m) {stateHash : String}
    {a : Except DbError (Option OAuthSession)}
    (hexec : w.deleteOauthSession x n stateHash = some (a, w'))
    (hother : ∀ session, a = .ok (some session) → n ≠ m) : w'.Unlocked m := by
  obtain ⟨-, rfl⟩ | ⟨s, -, -, -, -, rfl, rfl⟩ := deleteOauthSession_cases hexec
  · exact h
  · refine ⟨h.jobs, h.targets, fun s' hs' => ?_⟩
    obtain ⟨s₀, hs₀, rfl⟩ := List.mem_map.mp hs'
    split
    · exact fun heq => hother _ rfl (Option.some.inj heq)
    · exact h.sessions s₀ hs₀

/-- A job that is inserted is locked by the transaction that inserts it, -/
theorem World.Unlocked.insertJob (h : w.Unlocked m) {userId eventId : Uuid} {key : String}
    {a : Except DbError JobRow} (hexec : w.insertJob x n userId eventId key = some (a, w'))
    (hother : ∀ row, a = .ok row → n ≠ m) : w'.Unlocked m := by
  obtain ⟨e, -, rfl⟩ | ⟨row, rfl, rfl, -⟩ := insertJob_cases hexec
  · exact h
  · exact h.of_eq (Table.pending_insert_of_ne (hother row rfl).symm) rfl rfl

/-- and so is a target. -/
theorem World.Unlocked.insertTarget (h : w.Unlocked m) {jobId connectionId : Uuid}
    {provider : String} {options : Value} {a : Except DbError Unit}
    (hexec : w.insertTarget x n jobId connectionId provider options = some (a, w'))
    (hother : a = .ok () → n ≠ m) : w'.Unlocked m := by
  obtain ⟨e, -, rfl⟩ | ⟨row, rfl, rfl, -⟩ := insertTarget_cases hexec
  · exact h
  · exact h.of_eq rfl (Table.pending_insert_of_ne (hother rfl).symm) rfl

/-- Only the queries that acquire a row for a transaction take its locks. -/
theorem World.Unlocked.query (h : w.Unlocked m) {q : Query β} {a : Except DbError β}
    (hexec : q.exec x w = some (a, w')) (hq : ¬ (Stmt.query q).Acquires m a) : w'.Unlocked m := by
  cases q with
  | commit n =>
      obtain ⟨-, rfl⟩ := Prod.mk.inj (Option.some.inj hexec)
      exact h.commit
  | insertOauthSession n stateHash userId provider verifier usesPkce =>
      exact h.insertOauthSession hexec rfl
  | deleteOauthSession n stateHash =>
      refine h.deleteOauthSession hexec ?_
      rintro session rfl
      exact hq
  | insertJob n userId eventId key =>
      refine h.insertJob hexec ?_
      rintro row rfl
      exact hq
  | insertTarget n jobId connectionId provider options =>
      refine h.insertTarget hexec ?_
      rintro rfl
      exact hq
  | updateJobRunning id =>
      obtain ⟨-, rfl⟩ := Prod.mk.inj (Option.some.inj hexec)
      exact h.updateJob id _
  | updateTargetRunning id attempt =>
      obtain ⟨-, rfl⟩ := Prod.mk.inj (Option.some.inj hexec)
      exact h.updateTarget id _
  | updateTargetComplete id status result =>
      obtain ⟨-, rfl⟩ := Prod.mk.inj (Option.some.inj hexec)
      exact (h.updateTarget id _).logOutcome id
  | updateTargetFailed id attempt error =>
      obtain ⟨-, rfl⟩ := Prod.mk.inj (Option.some.inj hexec)
      exact (h.updateTarget id _).logOutcome id
  | updateJobStatus id status =>
      obtain ⟨-, rfl⟩ := Prod.mk.inj (Option.some.inj hexec)
      exact (h.updateJob id _).log (.finished id)
  | _ => exact h.of_changesOnly (Query.exec_frame hexec) (by simp)

/-- Only the statements that acquire a row for a transaction take its locks. -/
theorem World.Unlocked.exec (h : w.Unlocked m) {st : Stmt β} {b : β}
    (hexec : st.exec x w = some (b, w')) (hst : ¬ st.Acquires m b) : w'.Unlocked m := by
  cases st with
  | query q =>
      rcases Stmt.exec_query hexec with ⟨text, -, -, rfl⟩ | ⟨-, hexec⟩
      · exact h
      · exact h.query hexec hst
  | rollback n =>
      obtain ⟨-, rfl⟩ := Prod.mk.inj (Option.some.inj hexec)
      exact h.rollback
  | _ => exact h.of_changesOnly (Stmt.exec_frame hexec) (by simp)

theorem unlocked_enter (r : Role) (h : w.Unlocked m) : (World.enter r w).Unlocked m := by
  cases r <;> exact h.of_eq rfl rfl rfl

/-! ## Statements that wait -/

/-- A statement with a new identifier waits for an open transaction only. -/
theorem exists_locked_of_waits {st : Stmt β} (hfails : x.fails = none) (hnew : x.uuid ∉ w.drawn)
    (h : st.exec x w = none) : ∃ m, ¬ w.Unlocked m := by
  cases st with
  | query k =>
      rw [Stmt.exec, hfails] at h
      change k.exec x w = none at h
      cases k with
      | insertOauthSession n stateHash userId provider verifier usesPkce =>
          rw [Query.exec, World.insertOauthSession] at h
          split at h
          · next old hold =>
              split at h
              · next hdeleted =>
                  obtain ⟨m, hm⟩ := Option.isSome_iff_exists.mp hdeleted
                  exact ⟨m, fun hfree => hfree.sessions old (List.mem_of_find?_eq_some hold) hm⟩
              · cases h
          · cases h
      | deleteOauthSession n stateHash =>
          rw [Query.exec, World.deleteOauthSession] at h
          split at h
          · cases h
          · next s hs =>
              split at h
              · next m hm =>
                  exact ⟨m, fun hfree => hfree.sessions s (List.mem_of_find?_eq_some hs) hm⟩
              · cases h
      | upsertConnection userId provider accountKey displayName metadata envelope =>
          rw [Query.exec, World.upsertConnection] at h
          split at h
          · cases h
          · rw [if_neg hnew] at h
            cases h
      | deleteConnection id userId =>
          rw [Query.exec, World.deleteConnection] at h
          split at h
          · cases h
          · split at h
            · next hany =>
                obtain ⟨v, hv, hrow⟩ := List.any_eq_true.mp hany
                have hopen := (of_decide_eq_true hrow).2
                exact ⟨v.xmin, fun hfree => Bool.false_ne_true
                  (hopen.symm.trans (Table.pending_eq_nil_iff.mp hfree.targets v hv rfl))⟩
            · split at h <;> cases h
      | selectJobByKey n userId key =>
          rw [Query.exec, World.selectJobByKey] at h
          split at h <;> cases h
      | insertJob n userId eventId key =>
          rw [Query.exec, World.insertJob, if_neg hnew] at h
          split at h
          · next hany =>
              obtain ⟨v, hv, hrow⟩ := List.any_eq_true.mp hany
              have hopen := (of_decide_eq_true hrow).2.1
              exact ⟨v.xmin, fun hfree => Bool.false_ne_true
                (hopen.symm.trans (Table.pending_eq_nil_iff.mp hfree.jobs v hv rfl))⟩
          · split at h
            · cases h
            · split at h <;> cases h
      | insertTarget n jobId connectionId provider options =>
          rw [Query.exec, World.insertTarget, if_neg hnew] at h
          split at h
          · cases h
          · split at h <;> cases h
      | _ => cases h
  | newUuid =>
      rw [Stmt.exec, if_neg hnew] at h
      cases h
  | encrypt aad tokens =>
      rw [Stmt.exec] at h
      split at h <;> cases h
  | _ => cases h

/-! ## Programs with open rows -/

/-- The transaction of request `n` may have rows that keep others waiting.  Until it ends, the
program executes statements that never wait, or ends with a value in `E`. -/
inductive Holding (n : ℕ) {α : Type} (E : α → Prop) : Prog Stmt Role Outcome α → Prop
  | pure {a : α} (h : E a) : Holding n E (.pure a)
  | provider {id userId : Uuid} {k} (h : ∀ b, Holding n E (k b)) :
      Holding n E (.step (.query (.selectConnectionProvider n id userId)) k)
  | target {jobId connectionId : Uuid} {name : String} {options : Value} {k}
      (h : ∀ b, Holding n E (k b)) :
      Holding n E (.step (.query (.insertTarget n jobId connectionId name options)) k)
  | commit {k} (h : ∀ e, Holding n E (k (.error e))) :
      Holding n E (.step (.query (.commit n)) k)
  | rollback {k} : Holding n E (.step (.rollback n) k)

/-- A program that has ended holds nothing. -/
def nothing {α : Type} (_ : α) : Prop := False

/-- The end of a program that returns early. -/
def early {α : Type} (r : Except ApiError α) : Prop := ∃ e, r = .error e

/-- A sequence that is not left with locks may hold them in between. -/
theorem Holding.bind {E : α → Prop} {F : β → Prop} {p : Prog Stmt Role Outcome α}
    {f : α → Prog Stmt Role Outcome β} (hp : Holding n E p) (hf : ∀ a, E a → Holding n F (f a)) :
    Holding n F (p.bind f) := by
  induction hp with
  | pure h => exact hf _ h
  | provider _ ih => exact .provider ih
  | target _ ih => exact .target ih
  | commit _ ih => exact .commit ih
  | rollback => exact .rollback

/-- What is held is still held after a part that does not end the transaction. -/
theorem Holding.tries {p : Api α} {f : α → Api β} (hp : Holding n (fun _ => True) p.run)
    (hf : ∀ a, Holding n early (f a).run) : Holding n early (p >>= f).run := by
  show Holding n early (p.run.bind _)
  refine hp.bind fun a _ => ?_
  cases a with
  | ok a => exact hf a
  | error e => exact .pure ⟨e, rfl⟩

/-- A statement that holds never waits. -/
theorem Holding.goes {p : Prog Stmt Role Outcome α} (h : Holding n nothing p) :
    ∃ (β : Type) (st : Stmt β) (k : β → Prog Stmt Role Outcome α), p = .step st k ∧
      ∀ (x : Draw) (w : World), x.fails = none ∧ x.uuid ∉ w.drawn → ∃ r, st.exec x w = some r := by
  have hcalm : ∀ {β : Type} {q : Query β} {x : Draw} {w : World} {r}, x.fails = none →
      q.exec x w = some r → ∃ r, (Stmt.query q).exec x w = some r := by
    intro β q x w r hx hexec
    exact ⟨r, by rw [Stmt.exec, hx]; exact hexec⟩
  cases h with
  | pure h => exact h.elim
  | provider _ => exact ⟨_, _, _, rfl, fun x w hx => hcalm hx.1 rfl⟩
  | target _ =>
      refine ⟨_, _, _, rfl, fun x w hx => ?_⟩
      refine Option.ne_none_iff_exists'.mp fun hnone => ?_
      rw [Stmt.exec, hx.1] at hnone
      change Query.exec _ x w = none at hnone
      rw [Query.exec, World.insertTarget, if_neg hx.2] at hnone
      split at hnone
      · cases hnone
      · split at hnone <;> cases hnone
  | commit _ => exact ⟨_, _, _, rfl, fun x w hx => hcalm hx.1 rfl⟩
  | rollback => exact ⟨_, _, _, rfl, fun x w _ => ⟨_, rfl⟩⟩

/-! ## Programs that hold what they lock -/

/-- A statement that acquires nothing. -/
def Stmt.Free {β : Type} (st : Stmt β) : Prop := ∀ m b, ¬ st.Acquires m b

/-- What the program acquires it acquires for request `n`, and holds it until it ends with a value
in `E`; it starts programs that acquire nothing. -/
def Locks (n : ℕ) : {α : Type} → (α → Prop) → Prog Stmt Role Outcome α → Prop
  | _, _, .pure _ => True
  | _, E, .step st k => ∀ b, Locks n E (k b) ∧ ∀ m, st.Acquires m b → m = n ∧ Holding n E (k b)
  | _, E, .fork _ child k => child.Every Stmt.Free ∧ Locks n E k

namespace Locks

theorem of_free {E : α → Prop} {p : Prog Stmt Role Outcome α} (h : p.Every Stmt.Free) :
    Locks n E p := by
  induction p with
  | pure a => trivial
  | step st k ih => exact fun b => ⟨ih b (h.2 b), fun m hm => absurd hm (h.1 m b)⟩
  | fork r child k => exact h.elim

theorem bind {E : α → Prop} {F : β → Prop} {p : Prog Stmt Role Outcome α}
    {f : α → Prog Stmt Role Outcome β} (hp : Locks n E p) (hf : ∀ a, Locks n F (f a))
    (hheld : ∀ a, E a → Holding n F (f a)) : Locks n F (p.bind f) := by
  induction p with
  | pure a => exact hf a
  | step st k ih =>
      refine fun b => ⟨ih b (hp b).1 hf hheld, fun m hm => ?_⟩
      obtain ⟨rfl, hk⟩ := (hp b).2 m hm
      exact ⟨rfl, hk.bind hheld⟩
  | fork r child k _ ih => exact ⟨hp.1, ih hp.2 hf hheld⟩

/-- A program that has ended when it is followed by another one. -/
theorem tries {E : Except ApiError β → Prop} {p : Api α} {f : α → Api β}
    (hp : Locks n nothing p.run) (hf : ∀ a, Locks n E (f a).run) : Locks n E (p >>= f).run := by
  show Locks n E (p.run.bind _)
  refine bind hp (fun a => ?_) fun _ h => h.elim
  cases a with
  | ok a => exact hf a
  | error e => trivial

end Locks

/-- Handlers hold nothing at their ends. -/
theorem sequential_locks : Sequential fun p => Locks n nothing p.run where
  pure _ := trivial
  throw _ := trivial
  bind hp hf := Locks.tries hp hf

/-- A transaction holds what its body acquires. -/
theorem locks_transaction {body : Api α} (h : Locks n early body.run) :
    Locks n nothing (Api.transaction n body).run := by
  refine Locks.tries (Locks.of_free (Only.query fun _ _ h => h.elim)) fun _ => ?_
  show Locks n nothing (body.run.bind _)
  refine Locks.bind h (fun a => ?_) ?_
  · cases a with
    | ok a => trivial
    | error e => exact fun _ => ⟨trivial, fun _ h => h.elim⟩
  · rintro _ ⟨e, rfl⟩
    exact .rollback

/-- The end of a transaction, whether it is committed or not. -/
theorem holding_commit (a : α) :
    Holding n early (Api.query (.commit n) >>= fun _ => (pure a : Api α)).run :=
  .commit fun _ => .pure ⟨_, rfl⟩

theorem locks_commit (a : α) :
    Locks n early (Api.query (.commit n) >>= fun _ => (pure a : Api α)).run :=
  Locks.of_free (Only.bind (Only.query fun _ _ h => h.elim) fun _ => Only.pure _)

/-- The row lock of the session is released on every path. -/
theorem locks_consumeOauthSession (stateHash : String) :
    Locks n nothing (Store.consumeOauthSession n stateHash).run := by
  refine locks_transaction fun b => ?_
  cases b with
  | error e => exact ⟨trivial, fun _ h => h.elim⟩
  | ok session =>
      cases session with
      | none => exact ⟨trivial, fun _ h => h.elim⟩
      | some session =>
          refine ⟨locks_commit session, fun m hm => ?_⟩
          exact ⟨Eq.symm hm, holding_commit session⟩

/-- The loop over the targets inserts rows and does not wait. -/
theorem holding_enqueueTargets {userId jobId : Uuid} (targets : List PublishTarget) :
    Holding n (fun _ => True) (Store.enqueueTargets env n userId jobId targets).run := by
  induction targets with
  | nil => exact .pure trivial
  | cons target targets ih =>
      refine .provider fun b => ?_
      cases b with
      | error e => exact .pure trivial
      | ok provider =>
          cases provider with
          | none => exact .pure trivial
          | some provider =>
              show Holding n _ (if _ then _ else _ : Api Unit).run
              split
              · exact .pure trivial
              · refine .target fun b => ?_
                cases b with
                | error e => exact .pure trivial
                | ok _ => exact ih

theorem locks_enqueueTargets {userId jobId : Uuid} (targets : List PublishTarget) :
    Locks n (fun _ => True) (Store.enqueueTargets env n userId jobId targets).run := by
  induction targets with
  | nil => trivial
  | cons target targets ih =>
      refine fun b => ⟨?_, fun _ h => h.elim⟩
      cases b with
      | error e => trivial
      | ok provider =>
          cases provider with
          | none => trivial
          | some provider =>
              show Locks n _ (if _ then _ else _ : Api Unit).run
              split
              · trivial
              · refine fun b => ?_
                cases b with
                | error e => exact ⟨trivial, fun _ h => h.elim⟩
                | ok _ => exact ⟨ih, fun m hm => ⟨Eq.symm hm, holding_enqueueTargets targets⟩⟩

/-- The lock of the key is released on every path. -/
theorem locks_enqueueJob {userId eventId : Uuid} {key : String} (targets : List PublishTarget) :
    Locks n nothing (Store.enqueueJob env n userId eventId key targets).run := by
  refine locks_transaction fun b => ?_
  cases b with
  | error e => exact ⟨trivial, fun _ h => h.elim⟩
  | ok found =>
      refine ⟨?_, fun _ h => h.elim⟩
      cases found with
      | some existing => exact locks_commit _
      | none =>
          refine fun b => ?_
          cases b with
          | error e => exact ⟨trivial, fun _ h => h.elim⟩
          | ok job =>
              refine ⟨?_, fun m hm => ⟨Eq.symm hm, ?_⟩⟩
              · show Locks n early ((Store.enqueueTargets env n userId job.id targets).run.bind _)
                refine Locks.bind (locks_enqueueTargets targets) (fun a => ?_) fun a _ => ?_
                · cases a with
                  | ok _ => exact locks_commit _
                  | error e => trivial
                · cases a with
                  | ok _ => exact holding_commit _
                  | error e => exact .pure ⟨e, rfl⟩
              · exact (holding_enqueueTargets targets).tries fun _ => holding_commit _

theorem free_worker (job : JobRow) : (worker env job).Every Stmt.Free :=
  Prog.Every.mono (fun {_ st} h m b => by
    cases st with
    | query k =>
        cases k with
        | insertJob => exact h.elim
        | insertTarget => exact h.elim
        | deleteOauthSession => exact h.elim
        | _ => exact fun h => h.elim
    | _ => exact fun h => h.elim) (aside_worker job)

theorem locks_handle (q : Request) : Locks n nothing (handle env n q).run := by
  have hfree : ∀ {β : Type} {st : Stmt β}, st.Outside q → st.Free := by
    intro β st hst m b
    cases st with
    | query k =>
        cases k with
        | insertJob => exact hst.elim
        | insertTarget => exact hst.elim
        | deleteOauthSession => exact hst.elim
        | _ => exact fun h => h.elim
    | _ => exact fun h => h.elim
  refine sequential_locks.handle q ⟨fun hst => ?_, fun hst => ?_⟩ locks_consumeOauthSession
    (fun _ _ _ targets => locks_enqueueJob targets) fun job => ?_
  · exact Locks.of_free (Only.stmt (hfree hst))
  · exact Locks.of_free (Only.attempt (hfree hst))
  · exact ⟨free_worker job, trivial⟩

/-! ## The service -/

/-- No failure, and a new identifier. -/
def Draw.Calm (x : Draw) (w : World) : Prop := x.fails = none ∧ x.uuid ∉ w.drawn

/-- A request holds what it locks, and a worker locks nothing. -/
def HoldsLocks : Role → Prog Stmt Role Outcome Outcome → Prop
  | .request n _, prog => Locks n nothing prog
  | .worker _, prog => prog.Every Stmt.Free

theorem HoldsLocks.step {r : Role} {st : Stmt β} {k : β → Prog Stmt Role Outcome Outcome} {b : β}
    (h : HoldsLocks r (.step st k)) :
    HoldsLocks r (k b) ∧ ∀ m, st.Acquires m b → Holding m nothing (k b) := by
  cases r with
  | worker j => exact ⟨h.2 b, fun m hm => absurd hm (h.1 m b)⟩
  | request n q =>
      refine ⟨(h b).1, fun m hm => ?_⟩
      obtain ⟨rfl, hk⟩ := (h b).2 m hm
      exact hk

/-- While it is not over, a transaction is held by the program. -/
theorem Holding.step {st : Stmt β} {k : β → Prog Stmt Role Outcome α} {b : β}
    (h : Holding m nothing (.step st k)) (hexec : st.exec x w = some (b, w')) :
    w'.Unlocked m ∨ Holding m nothing (k b) := by
  cases h with
  | provider h => exact Or.inr (h b)
  | target h => exact Or.inr (h b)
  | commit h =>
      rcases Stmt.exec_query hexec with ⟨text, -, rfl, -⟩ | ⟨-, hexec⟩
      · exact Or.inr (h _)
      · obtain ⟨-, rfl⟩ := Prod.mk.inj (Option.some.inj hexec)
        exact Or.inl unlocked_commit_self
  | rollback =>
      obtain ⟨-, rfl⟩ := Prod.mk.inj (Option.some.inj hexec)
      exact Or.inl unlocked_rollback_self

/-- The service keeps to the rules for locks. -/
theorem locking (env : Deployment) : Locking (service env) Draw.Calm
    (fun (w : World) (m : ℕ) => ¬ w.Unlocked m) (fun m => Holding m nothing) HoldsLocks where
  step {_ _ st k _ _ b _} h hexec := by
    obtain ⟨hk, hheld⟩ := h.step
    refine ⟨hk, fun m hlocked => ?_⟩
    by_cases hacquires : st.Acquires m b
    · exact Or.inl (hheld m hacquires)
    · by_cases hholds : Holding m nothing (.step st k)
      · exact Or.inl ((hholds.step hexec).resolve_left hlocked)
      · exact Or.inr ⟨fun h => hlocked (h.exec hexec hacquires), hholds⟩
  fork {r r' _ _} h := by
    cases r with
    | worker j => exact h.elim
    | request n q =>
        refine ⟨h.2, ?_, fun _ h => nomatch h⟩
        cases r' with
        | worker j => exact h.1
        | request m q' => exact Locks.of_free h.1
  arrival q w := Locks.bind (locks_handle q) (fun _ => trivial) fun _ h => h.elim
  enter hlocked h := hlocked (unlocked_enter _ h)
  waits hcalm hnone := exists_locked_of_waits hcalm.1 hcalm.2 hnone
  goes h := h.goes

/-- In every run the transaction that holds a lock belongs to a program that is yet to
release it. -/
theorem locksHeld_of_reachable (h : Reachable env p) : p.LocksHeld
    (fun (w : World) (m : ℕ) => ¬ w.Unlocked m) (fun m => Holding m nothing) HoldsLocks := by
  obtain ⟨ls, hrun⟩ := h
  refine (locking env).run ⟨fun t ht => absurd ht List.not_mem_nil, fun m hm => ?_⟩ hrun
  exact absurd ⟨rfl, rfl, fun s hs => absurd hs List.not_mem_nil⟩ hm

/-- As long as the database does not fail, all programs can be run to their ends. -/
theorem exists_drained (h : Reachable env p) (choose : Pool Stmt Role Outcome World → ℕ → Draw)
    (hcalm : ∀ p i, (choose p i).fails = none) :
    ∃ p', Pool.Drains (service env) (fun p i x => ∃ id, x = { choose p i with uuid := id }) p p' ∧
      p'.Ended := by
  refine Pool.exists_drained_of_progress (I := Reachable env)
    (fun h hact => Pool.Reaches.trans h (Pool.Reaches.act hact)) (fun {p} h hnot => ?_) h
  obtain ⟨i, hturn⟩ := (locking env).progress (locksHeld_of_reachable h) hnot
  obtain ⟨id, hid⟩ := Infinite.exists_notMem_finset p.shared.drawn.toFinset
  obtain ⟨p', hact⟩ := hturn { choose p i with uuid := id }
    ⟨hcalm p i, fun hmem => hid (List.mem_toFinset.mpr hmem)⟩
  exact ⟨i, _, p', ⟨id, rfl⟩, hact⟩

/-- **The service comes to rest.**  Without new clients no run is infinite, in whatever order the
programs take their turns; and as long as the database does not fail, whatever the providers
answer, all programs can be run to their ends: at no time do they all wait for each other. -/
theorem service_completes (h : Reachable env p) (choose : Pool Stmt Role Outcome World → ℕ → Draw)
    (hcalm : ∀ p i, (choose p i).fails = none) :
    (∀ pools : ℕ → Pool Stmt Role Outcome World, pools 0 = p →
      ¬ ∀ k, Pool.Turns (service env) (pools k) (pools (k + 1))) ∧
    ∃ p', Pool.Drains (service env) (fun p i x => ∃ id, x = { choose p i with uuid := id }) p p' ∧
      p'.Ended := by
  refine ⟨fun pools _ hturns => ?_, exists_drained h choose hcalm⟩
  exact (wellFounded_iff_isEmpty_descending_chain.mp
    (Pool.wellFounded_turns (service env))).false ⟨pools, hturns⟩

/-- Two requests with one key: the second one waits for the first one, and both come to their
ends. -/
theorem service_completes_sample :
    ∃ p, idleService.run (service Sample.deployment) (Sample.connect ++ Sample.enqueue.take 5 ++
        [Sample.post 21, .turn 4 {}, .turn 4 {}, .turn 4 {}]) = some p ∧
      p.act (service Sample.deployment) (.turn 4 { uuid := 31 }) = none ∧
      ∃ p', Pool.Drains (service Sample.deployment)
        (fun _ _ x => ∃ id, x = { ({} : Draw) with uuid := id }) p p' ∧ p'.Ended := by
  have hrun : ((idleService.run (service Sample.deployment) (Sample.connect ++
      Sample.enqueue.take 5 ++ [Sample.post 21, .turn 4 {}, .turn 4 {}, .turn 4 {}])).map fun p =>
        (p.act (service Sample.deployment) (.turn 4 { uuid := 31 })).isNone) = some true := by
    decide +kernel
  obtain ⟨p, hp, hnone⟩ := Option.map_eq_some_iff.mp hrun
  obtain ⟨-, hdrained⟩ := service_completes ⟨_, hp⟩ (fun _ _ => {}) fun _ _ => rfl
  exact ⟨p, hp, Option.isNone_iff_eq_none.mp hnone, hdrained⟩

end Service
