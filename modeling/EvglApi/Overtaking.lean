/-
# Updates that are not overtaken

The guard of an update misses stock only if an allocation of the event is committed after
the statement of the update has begun and before it has the lock.  In a run in which no
update is overtaken like this, the capacity of every event covers its stock in every state.
-/
import EvglApi.Capacity
import EvglApi.Runs

open Concurrency
open Admission (Timestamp timestamptz)

namespace Ticketing

variable {env : Deployment} {db db' seen : Database} {n : ℕ} {e : Uuid} {now : Timestamp}
  {input : ConfigureEventInventory} {t : Instant} {x : Option String} {β : Type} {b : β}
  {st : Stmt β} {k : β → Prog Stmt Role Outcome Outcome} {prog : Prog Stmt Role Outcome Outcome}

/-! ## Schedules without overtaking -/

/-- The statement of an update of the event has begun, and it does not have the lock yet. -/
def Waits (e : Uuid) : Thread Stmt Role Outcome → Prop
  | ⟨.request _ (.configureEvent input _), .step (.lock _ _) _⟩ => input.eventId = e
  | _ => False

/-- The turn commits an allocation of the event. -/
def Commits (e : Uuid) (thread : Thread Stmt Role Outcome) (x : Option String) : Prop :=
  match thread, x with
  | ⟨_, .step (.commit _ writes) _⟩, none => ∃ w ∈ writes, w.eventId = e
  | _, _ => False

/-- No allocation of an event is committed while an update of it waits. -/
def InTurn (p : Pool Stmt Role Outcome Database) : Label (Option String) Request → Prop
  | .arrive _ => True
  | .turn i x => ∀ thread e, p.threads[i]? = some thread → Commits e thread x →
      ∀ other ∈ p.threads, ¬ Waits e other

/-- Only the commit of an allocation of the event changes its stock. -/
theorem allocated_exec {r : Role} (hcommits : ¬ Commits e ⟨r, .step st k⟩ x)
    (hexec : st.exec x db = some (b, db')) : db'.allocated e now = db.allocated e now := by
  cases st with
  | snapshot tx =>
      cases x with
      | some text => cases hexec; rfl
      | none => cases hexec; rfl
  | lock tx key =>
      cases x with
      | some text => cases hexec; rfl
      | none =>
          obtain ⟨db₁, hlock, heq⟩ := Option.map_eq_some_iff.mp hexec
          cases heq
          rw [(lock_cases hlock).2]
          rfl
  | upsertInventory tx seen row =>
      cases x with
      | some text => cases hexec; rfl
      | none =>
          cases hexec
          exact allocated_upsertInventory row
  | commit tx writes =>
      cases x with
      | some text => cases hexec; rfl
      | none =>
          cases hexec
          refine allocated_congr (rowsOf_writes fun w hw heq => ?_)
          exact hcommits ⟨w, hw, heq.symm⟩
  | rollback tx => cases hexec; rfl

/-! ## One update -/

/-- What an update has left to do when it has the lock. -/
def updating (n : ℕ) (input : ConfigureEventInventory) (t : Instant) (seen : Database) :
    Api Uuid := do
  match ← Tries.attempt .database (.upsertInventory n seen
      { eventId := input.eventId, capacity := input.capacity, createdAt := timestamptz t
        updatedAt := timestamptz t }) with
  | none => throw (.recordNotFound "event capacity cannot be reduced below allocated stock")
  | some eventId => pure eventId

/-- What it has left to do when its statement has begun. -/
def waiting (env : Deployment) (n : ℕ) (input : ConfigureEventInventory) (t : Instant)
    (seen : Database) : Api Uuid := do
  Tries.attempt .database (.lock n (env.lockKey input.eventId))
  updating n input t seen

/-- An update on its way, whose statement has seen the stock that is committed. -/
inductive Current (env : Deployment) (n : ℕ) (input : ConfigureEventInventory) (t : Instant)
    (db : Database) : Prog Stmt Role Outcome Outcome → Prop
  | begins : Current env n input t db (configureEvent env n input t).run
  | waits {seen : Database}
      (hseen : db.allocated input.eventId (timestamptz t) =
        seen.allocated input.eventId (timestamptz t)) :
      Current env n input t db (waiting env n input t seen).run
  | holds {seen : Database} (hlocked : Locked env n input.eventId db)
      (hseen : db.allocated input.eventId (timestamptz t) =
        seen.allocated input.eventId (timestamptz t)) :
      Current env n input t db (updating n input t seen).run
  | ends (outcome : Outcome) : Current env n input t db (.pure outcome)

/-- An update begins with its snapshot. -/
theorem configureEvent_run : (configureEvent env n input t).run =
    match (env.validate input).mapError DbErr.custom with
    | .error err => .pure (.error err)
    | .ok _ => .step (.snapshot n) fun answer => match answer with
      | .error text => .pure (.error (.database text))
      | .ok seen => (waiting env n input t seen).run := by
  unfold configureEvent
  cases (env.validate input).mapError DbErr.custom with
  | error err => rfl
  | ok _ =>
      refine congrArg (Prog.step _) (funext fun answer => ?_)
      cases answer with
      | error text => rfl
      | ok seen => rfl

/-- The statement of the update itself. -/
theorem Current.step (h : Current env n input t db prog) (hprog : prog = .step st k)
    (hexec : st.exec x db = some (b, db')) : Current env n input t db' (k b) := by
  cases h with
  | begins =>
      rw [configureEvent_run] at hprog
      cases hvalid : (env.validate input).mapError DbErr.custom with
      | error err =>
          rw [hvalid] at hprog
          cases hprog
      | ok valid =>
          rw [hvalid] at hprog
          cases hprog
          cases x with
          | some text => cases hexec; exact .ends _
          | none => cases hexec; exact .waits rfl
  | @waits seen hseen =>
      change Prog.step (Stmt.lock n (env.lockKey input.eventId)) _ = _ at hprog
      cases hprog
      cases x with
      | some text => cases hexec; exact .ends _
      | none =>
          obtain ⟨db₁, hlock, heq⟩ := Option.map_eq_some_iff.mp hexec
          cases heq
          obtain ⟨-, rfl⟩ := lock_cases hlock
          refine .holds (List.mem_append_right _ (List.mem_singleton_self _)) ?_
          exact hseen
  | holds hlocked hseen =>
      change Prog.step (Stmt.upsertInventory n _ _) _ = _ at hprog
      cases hprog
      -- whatever the answer is, the update is over
      cases b with
      | error text => exact .ends _
      | ok row =>
          cases row with
          | none => exact .ends _
          | some eventId => exact .ends _
  | ends outcome => cases hprog

/-- An update starts no other call. -/
theorem Current.not_fork {r : Role} {child k : Prog Stmt Role Outcome Outcome} :
    ¬ Current env n input t db (.fork r child k) := by
  intro h
  generalize hprog : Prog.fork r child k = prog at h
  cases h with
  | begins =>
      rw [configureEvent_run] at hprog
      cases hvalid : (env.validate input).mapError DbErr.custom with
      | error err =>
          rw [hvalid] at hprog
          cases hprog
      | ok valid =>
          rw [hvalid] at hprog
          cases hprog
  | waits hseen => cases hprog
  | holds hlocked hseen => cases hprog
  | ends outcome => cases hprog

/-- The statement of another call. -/
theorem Current.mono (h : Current env n input t db prog) (hrely : Rely env n db db')
    (hstock : Waits input.eventId ⟨.request n (.configureEvent input t), prog⟩ →
      db'.allocated input.eventId (timestamptz t) = db.allocated input.eventId (timestamptz t)) :
    Current env n input t db' prog := by
  cases h with
  | begins => exact .begins
  | waits hseen =>
      refine .waits ((hstock ?_).trans hseen)
      exact rfl
  | holds hlocked hseen =>
      exact .holds (hrely.locked hlocked) ((allocated_congr (hrely.rows _ hlocked)).trans hseen)
  | ends outcome => exact .ends outcome

/-- The update has seen the whole stock when it is made. -/
theorem Current.guarded {r : Role} (h : Current env n input t db prog) :
    guarded ⟨r, prog⟩ x db = true := by
  cases h with
  | begins =>
      rw [configureEvent_run]
      cases (env.validate input).mapError DbErr.custom with
      | error err => rfl
      | ok valid => rfl
  | waits hseen => rfl
  | @holds seen hlocked hseen =>
      cases x with
      | some text => rfl
      | none => exact decide_eq_true (guarded_of_seen hseen.le)
  | ends outcome => rfl

/-! ## Runs -/

/-- The statement updates no capacity. -/
def Plain {β : Type} : Stmt β → Prop
  | .upsertInventory _ _ _ => False
  | _ => True

theorem plain_allocate (a : Allocation) : Only Plain (allocate env n a t) := by
  refine Only.bind (Only.attempt trivial) fun _ =>
    Only.bind (Only.attempt trivial) fun seen => ?_
  cases a.writes seen (timestamptz t) with
  | none => exact Only.bind (Only.stmt trivial) fun _ => Only.throw _
  | some writes => exact Only.bind (Only.attempt trivial) fun _ => Only.pure _

/-- A call at work: an update has seen the committed stock. -/
def Seen (env : Deployment) (db : Database) : Thread Stmt Role Outcome → Prop
  | ⟨.request n (.configureEvent input t), prog⟩ => Current env n input t db prog
  | ⟨.request _ (.allocate _ _), prog⟩ => prog.Every Plain

/-- The calls at work, none of which has been overtaken. -/
structure Ordered (env : Deployment) (now : Timestamp) (p : Pool Stmt Role Outcome Database) :
    Prop where
  ok : (calls env now).PoolOk p
  seen : ∀ thread ∈ p.threads, Seen env p.shared thread

variable {p p' : Pool Stmt Role Outcome Database} {l : Label (Option String) Request}
  {db₀ : Database} {ls : List (Label (Option String) Request)} {thread : Thread Stmt Role Outcome}

theorem Seen.guarded (h : Seen env db thread) : guarded thread x db = true := by
  obtain ⟨⟨n, q⟩, prog⟩ := thread
  cases q with
  | configureEvent input t => exact Current.guarded h
  | allocate a t =>
      cases prog with
      | pure outcome => rfl
      | fork r child k => rfl
      | step st k =>
          cases st with
          | upsertInventory tx seen row => exact h.1.elim
          | _ => rfl

theorem Seen.step {r : Role} (h : Seen env db ⟨r, .step st k⟩)
    (hexec : st.exec x db = some (b, db')) : Seen env db' ⟨r, k b⟩ := by
  obtain ⟨n, q⟩ := r
  cases q with
  | configureEvent input t => exact Current.step h rfl hexec
  | allocate a t => exact h.2 b

theorem Seen.mono (h : Seen env db thread)
    (hrely : (calls env now).rely thread.role db db')
    (hstock : ∀ e t, Waits e thread → db'.allocated e t = db.allocated e t) :
    Seen env db' thread := by
  obtain ⟨⟨n, q⟩, prog⟩ := thread
  cases q with
  | configureEvent input t => exact Current.mono h hrely (hstock _ _)
  | allocate a t => exact h

theorem seen_arrival (q : Request) :
    Seen env (db.enter (.request n q)) ⟨.request n q, (handle env n q).run⟩ := by
  cases q with
  | configureEvent input t => exact .begins
  | allocate a t => exact plain_allocate a

/-- No update is overtaken by the next entry of the schedule. -/
theorem Ordered.act (hlawful : env.Lawful) (h : Ordered env now p)
    (hnow : ∀ q, l = .arrive q → q.time = now) (hturn : InTurn p l)
    (hact : p.act (ticketing env) l = some p') : Ordered env now p' := by
  have hfollows : (calls env now).Follows p l := by
    cases l with
    | arrive q => exact hnow q rfl
    | turn i x =>
        intro thread hthread
        obtain ⟨r, prog⟩ := thread
        cases prog with
        | step st k =>
            exact guardedStmt_of_guarded (h.seen _ (List.mem_of_getElem? hthread)).guarded
        | pure outcome => trivial
        | fork r' child k => trivial
  refine ⟨(h.ok.act (hospitable hlawful) hfollows hact).1, ?_⟩
  cases l with
  | arrive q =>
      obtain rfl := Option.some.inj hact
      intro thread hthread
      rcases List.mem_append.mp hthread with hthread | hthread
      · have hrely : (calls env now).rely thread.role p.shared
            (p.shared.enter (.request p.shared.requests.length q)) :=
          ⟨List.prefix_append _ _, fun _ => Iff.rfl, fun _ _ => rfl⟩
        exact (h.seen thread hthread).mono hrely fun _ _ _ => rfl
      · obtain rfl := List.mem_singleton.mp hthread
        exact seen_arrival q
  | turn i x =>
      obtain ⟨⟨r, prog⟩, hthread, hstep⟩ := Option.bind_eq_some_iff.mp hact
      have hown := h.seen _ (List.mem_of_getElem? hthread)
      cases prog with
      | pure outcome => cases hstep
      | fork r' child k =>
          obtain ⟨n, q⟩ := r
          cases q with
          | configureEvent input t => exact absurd hown Current.not_fork
          | allocate a t => exact hown.elim
      | step st k =>
          obtain ⟨⟨b, db'⟩, hexec, rfl⟩ := Option.map_eq_some_iff.mp hstep
          intro other hother
          rcases Discipline.mem_set_cases hother with rfl | ⟨j, hij, hj⟩
          · exact hown.step hexec
          · have hmem := List.mem_of_getElem? hj
            refine (h.seen other hmem).mono
              (h.ok.rely_of_exec hij hthread hj (hfollows _ hthread) hexec) fun e t hwaits => ?_
            -- an update waits, so this turn commits nothing of its event
            exact allocated_exec (fun hcommits => hturn _ e hthread hcommits other hmem hwaits)
              hexec

/-- If no allocation of an event is committed while an update of it waits for the lock, the
capacity of every event covers its allocated stock. -/
theorem covers_of_inTurn (hlawful : env.Lawful) (hlocks : db₀.locks = [])
    (hstocked : ∀ e, Stocked now db₀ e) (hnow : ∀ q, .arrive q ∈ ls → q.time = now)
    (hturns : Pool.Along (ticketing env) InTurn ⟨db₀, []⟩ ls)
    (hrun : Pool.run (ticketing env) ⟨db₀, []⟩ ls = some p) : CapacityCovers now p.shared := by
  have hstart : Ordered env now ⟨db₀, []⟩ :=
    ⟨poolOk_start hlocks hstocked, fun _ hthread => by cases hthread⟩
  have hend : Ordered env now p := Pool.along_run
    (fun hl h hturn hact => h.act hlawful (fun q hq => hnow q (hq ▸ hl)) hturn hact)
    hstart hturns hrun
  exact fun e row hrow => (hend.ok.inv.2 e).covers row hrow

end Ticketing
