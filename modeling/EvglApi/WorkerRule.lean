/-
# What becomes of each target

The worker of a job, run without failing statements, treats each target by a rule that looks
at this target alone.

* `precheck` is what the worker finds out before it calls the adapter, and `Attempts` says
  which answers make up the calls at one target.
* `TargetRule` is the rule: the row that the target ends with, the calls, and the last update.
* `World.settle` is what a part of the worker does to the row of one target and to the record;
  `returns_publishLoop` and `returns_processTarget` say it for the loops.
-/
import EvglApi.AtMostOnce
import EvglApi.WorkerKeeps

open Concurrency Mvcc

namespace Service

variable {env : Deployment} {w s : World} {job : JobRow} {event : EventDraft} {target : TargetRow}
  {id : Uuid} {f g : TargetRow → TargetRow} {done done' : List Effect}

/-! ## The rule -/

/-- The call of a recorded effect, with its answer. -/
def Effect.call : Effect → Option (PublishCall × Except ProviderError Publication)
  | .published call answer => some (call, answer)
  | _ => none

/-- The status and the attempt of an update. -/
def Effect.progress : Effect → Option (PublicationStatus × ℕ)
  | .emitted u => some (u.status, u.attempt)
  | _ => none

/-- The recorded calls, with their answers. -/
def callsIn (done : List Effect) : List (PublishCall × Except ProviderError Publication) :=
  done.filterMap Effect.call

/-- The status and the attempt of the last update. -/
def lastUpdate (done : List Effect) : Option (PublicationStatus × ℕ) :=
  (done.filterMap Effect.progress).getLast?

/-- What is found out about a target before the adapter is called: the call, or why the target
is given up. -/
def precheck (env : Deployment) (w : World) (job : JobRow) (event : EventDraft)
    (target : TargetRow) : Except TargetFailure PublishCall :=
  match env.fromStr target.provider with
  | .error error => .error (.invalidProvider error)
  | .ok provider =>
      match w.connections.find? fun c => c.id = target.connectionId ∧ c.userId = job.userId with
      | none => .error (.connectionUnavailable (.notFound "connection not found"))
      | some connection =>
          if (env.providers provider).isNone then
            .error (.notConfigured (env.displayProvider provider))
          else
            match env.decrypt connection.aad connection.tokenEnvelope with
            | .error error => .error (.undecryptable error)
            | .ok tokens =>
                .ok { target, provider, tokens, event
                      context :=
                        { accountKey := connection.accountKey
                          accountMetadata := connection.metadata
                          targetOptions := target.options } }

/-- The errors that are worth another attempt: the network failed, the remote side had been asked
too often, or it failed itself. -/
def WorthRetry : ProviderError → Prop
  | .network _ => True
  | .remote status _ => status = 429 ∨ 500 ≤ status
  | .other _ => False

/-- The code's test is the classification: a network failure, or a remote one with 429 or at
least 500. -/
theorem isRetryable_iff (e : ProviderError) : isRetryable e = true ↔ WorthRetry e := by
  cases e <;> simp [isRetryable, WorthRetry]

/-- The texts that stand for the statuses in the table. -/
def storedStatus : PublicationStatus → String
  | .queued => "queued"
  | .running => "running"
  | .published => "published"
  | .actionRequired => "action_required"
  | .retrying => "retrying"
  | .failed => "failed"

/-- The code's texts are the stored statuses. -/
theorem statusName_eq (status : PublicationStatus) : statusName status = storedStatus status := by
  cases status <;> rfl

/-- The answers to the calls at one target: up to three, all but the last one errors that are
worth another attempt, and the last one not, unless it is the third. -/
structure Attempts (answers : List (Except ProviderError Publication)) : Prop where
  early : ∀ a ∈ answers.dropLast, ∃ e, a = .error e ∧ WorthRetry e
  last : ∃ a, answers.getLast? = some a ∧
    ((∃ p, a = .ok p) ∨ (∃ e, a = .error e ∧ ¬ WorthRetry e) ∨ answers.length = 3)
  most : answers.length ≤ 3

/-- The row of a target that is given up. -/
def failedRow (attempt : ℕ) (error : String) (target : TargetRow) : TargetRow :=
  { target with status := "failed", attempt := attempt, error := some error }

/-- The row of a target after the answers to its calls. -/
def settledRow (env : Deployment) (answers : List (Except ProviderError Publication))
    (target : TargetRow) : TargetRow :=
  match answers.getLast? with
  | some (.ok p) =>
      { target with
        status := storedStatus p.status
        attempt := answers.length
        result := (env.publicationToValue p).toOption
        error := none }
  | some (.error e) => failedRow answers.length (env.displayProviderError e) target
  | none => target

/-- The rule for a target, with the row that it ends with and what is recorded on the way. -/
structure TargetRule (env : Deployment) (w : World) (job : JobRow) (event : EventDraft)
    (target row : TargetRow) (done : List Effect) : Prop where
  outcome : match precheck env w job event target with
    | .error why => callsIn done = [] ∧ row = failedRow 0 why.message target
    | .ok call => ∃ answers, callsIn done = answers.map (call, ·) ∧ Attempts answers ∧
        row = settledRow env answers target
  update : ∃ status, lastUpdate done = some (status, row.attempt) ∧ row.status = storedStatus status

/-! ## The record -/

@[simp] theorem callsIn_append : callsIn (done ++ done') = callsIn done ++ callsIn done' :=
  List.filterMap_append ..

/-- An update at the end is the last one. -/
theorem lastUpdate_concat (u : JobUpdate) :
    lastUpdate (done ++ [.emitted u]) = some (u.status, u.attempt) := by
  rw [lastUpdate, List.filterMap_append]
  exact List.getLast?_concat

/-- The last update of the later part is the last one. -/
theorem lastUpdate_append {last : PublicationStatus × ℕ} (h : lastUpdate done' = some last) :
    lastUpdate (done ++ done') = some last := by
  rw [lastUpdate] at h ⊢
  rw [List.filterMap_append, List.getLast?_append, h]
  rfl

/-! ## The row of one target -/

/-- The rows with the identifier are changed, and something is recorded. -/
def World.settle (w : World) (id : Uuid) (f : TargetRow → TargetRow) (done : List Effect) : World :=
  { w with targets := w.targets.update (·.id = id) f, trace := w.trace ++ done }

theorem updateTarget_eq : s.updateTarget id f = s.settle id f [] := by
  rw [World.updateTarget, World.settle, List.append_nil]

theorem settle_log (e : Effect) : (s.settle id f done).log e = s.settle id f (done ++ [e]) := by
  rw [World.log, World.settle, World.settle, List.append_assoc]

theorem settle_settle (hf : ∀ t, (f t).id = t.id) :
    (s.settle id f done).settle id g done' = s.settle id (g ∘ f) (done ++ done') := by
  have hself : ∀ t : TargetRow, decide ((f t).id = id) = decide (t.id = id) := fun t => by rw [hf]
  have htargets := Table.update_update_self (fun t => t.id = id) f g s.targets hself
  rw [World.settle, World.settle, World.settle, List.append_assoc]
  simp only [htargets]

/-- The record of an outcome has no calls in it. -/
theorem exists_logOutcome (s : World) (id : Uuid) (f : TargetRow → TargetRow)
    (done : List Effect) : ∃ es, (s.settle id f done).logOutcome id = s.settle id f (done ++ es) ∧
    callsIn es = [] := by
  refine ⟨(((s.settle id f done).targets.rows none).filter (·.id = id)).map fun t =>
    .outcome t.jobId t.id, ?_, ?_⟩
  · rw [World.logOutcome, World.settle, World.settle, List.append_assoc]
  · refine List.filterMap_eq_nil_iff.mpr fun e he => ?_
    obtain ⟨t, -, rfl⟩ := List.mem_map.mp he
    rfl

/-! ## Statements that do not fail -/

/-- A statement that does not fail, with a publication that can be stored. -/
structure Faultless (env : Deployment) (x : Draw) : Prop where
  fails : x.fails = none
  json : ∀ p, x.publication = .ok p → ∃ value, env.publicationToValue p = .ok value

variable (env) in
/-- Every statement is one that does not fail. -/
def faultless {β : Type} (_ : Stmt β) (x : Draw) (_ : World) : Prop := Faultless env x

section Walk

variable {α : Type} {Q : α → World → Prop} {E : ApiError → World → Prop}

/-- A query that neither waits nor conflicts. -/
theorem returns_query {q : Query α} {a : Draw → α} {next : Draw → World}
    (hq : ∀ x, q.exec x s = some (.ok (a x), next x)) (h : ∀ x, Q (a x) (next x)) :
    Returns (service env) (faultless env) (Api.query q) Q E s := by
  refine Returns.query_of_eq (f := fun x => (.ok (a x), next x)) hq (fun x text hx hfails => ?_)
    fun x _ => h x
  rw [hx.fails] at hfails
  cases hfails

/-- An update is emitted. -/
theorem returns_emit {provider : Option ProviderKind} {status : PublicationStatus} {attempt : ℕ}
    {message : String} {publication : Option Publication} {Q : Unit → World → Prop}
    (h : ∀ u : JobUpdate, u.status = status → u.attempt = attempt → Q () (s.log (.emitted u))) :
    Returns (service env) (faultless env)
      (emit job provider status attempt message publication) Q E s :=
  Returns.stmt fun _ _ => ⟨(), _, rfl, h _ rfl rfl⟩

/-- A target is given up. -/
theorem returns_failTarget {provider : Option ProviderKind} {attempt : ℕ} {why : TargetFailure} :
    Returns (service env) (faultless env) (failTarget job id provider attempt why)
      (fun _ w' => ∃ done, w' = s.settle id (failedRow attempt why.message) done ∧
        callsIn done = [] ∧ lastUpdate done = some (.failed, attempt)) E s := by
  obtain ⟨es, hes, hcalls⟩ := exists_logOutcome s id (failedRow attempt why.message) []
  refine Returns.bind (returns_query (fun _ => rfl) fun x => ?_)
  refine returns_emit fun u hstatus hattempt => ?_
  show ∃ done, ((s.updateTarget id (failedRow attempt why.message)).logOutcome id).log
    (.emitted u) = _ ∧ _
  rw [updateTarget_eq, hes, settle_log]
  refine ⟨_, rfl, ?_, ?_⟩
  · rw [callsIn_append, List.nil_append, hcalls]
    rfl
  · rw [lastUpdate_concat, hstatus, hattempt]

/-- The row of a target at which an attempt begins. -/
def runningRow (attempt : ℕ) (target : TargetRow) : TargetRow :=
  { target with status := "running", attempt := attempt, error := none }

/-- An attempt begins, and the adapter is called. -/
theorem returns_attempt {call : PublishCall} {attempt : ℕ} {α : Type}
    {next : Except ProviderError Publication → Api α} {Q : α → World → Prop}
    (h : ∀ x u, Faultless env x →
      Returns (service env) (faultless env) (next x.publication) Q E (s.settle call.target.id
        (runningRow attempt) [.emitted u, .published call x.publication])) :
    Returns (service env) (faultless env) (do
      Store.targetRunning call.target.id attempt
      emit job (some call.provider) .running attempt "provider request started" none
      let answer ← Tries.stmt (.publish call)
      next answer) Q E s := by
  refine Returns.bind (returns_query (fun _ => rfl) fun _ => ?_)
  refine Returns.bind (returns_emit fun u _ _ => ?_)
  refine Returns.bind (Returns.stmt fun x hx => ⟨_, _, rfl, ?_⟩)
  have hworld : ((s.updateTarget call.target.id (runningRow attempt)).log (.emitted u)).log
      (.published call x.publication) = s.settle call.target.id (runningRow attempt)
        [.emitted u, .published call x.publication] := by
    rw [updateTarget_eq, settle_log, settle_log]
    rfl
  show Returns _ _ _ _ _ (((s.updateTarget call.target.id (runningRow attempt)).log
    (.emitted u)).log (.published call x.publication))
  rw [hworld]
  exact h x u hx

/-- A publication is stored and announced. -/
theorem returns_complete {call : PublishCall} {attempt : ℕ} {p : Publication} {value : Value} :
    Returns (service env) (faultless env) (do
      Store.targetComplete id p.status value
      emit job (some call.provider) p.status attempt "provider request completed" (some p))
      (fun _ w' => ∃ done, w' = s.settle id (fun t =>
          { t with status := statusName p.status, result := some value, error := none }) done ∧
        callsIn done = [] ∧ lastUpdate done = some (p.status, attempt)) E s := by
  obtain ⟨es, hes, hcalls⟩ := exists_logOutcome s id (fun t =>
    { t with status := statusName p.status, result := some value, error := none }) []
  refine Returns.bind (returns_query (fun _ => rfl) fun x => ?_)
  refine returns_emit fun u hstatus hattempt => ?_
  show ∃ done, ((s.updateTarget id fun t => { t with
    status := statusName p.status, result := some value, error := none }).logOutcome id).log
      (.emitted u) = _ ∧ _
  rw [updateTarget_eq, hes, settle_log]
  refine ⟨_, rfl, ?_, ?_⟩
  · rw [callsIn_append, List.nil_append, hcalls]
    rfl
  · rw [lastUpdate_concat, hstatus, hattempt]

end Walk

/-! ## Rows -/

theorem settledRow_fixed (answers : List (Except ProviderError Publication)) (t : TargetRow) :
    (settledRow env answers t).toTargetFixed = t.toTargetFixed := by
  rw [settledRow]
  cases answers.getLast? with
  | none => rfl
  | some a =>
      cases a with
      | ok p => rfl
      | error e => rfl

variable {before answers : List (Except ProviderError Publication)}

/-- The last answer is a success: the row is completed. -/
theorem settledRow_concat_ok {p : Publication} {value : Value}
    (hvalue : env.publicationToValue p = .ok value) :
    settledRow env (before ++ [.ok p]) = (fun t => { t with
      status := statusName p.status, result := some value, error := none }) ∘
        runningRow (before.length + 1) := by
  funext t
  rw [settledRow, List.getLast?_concat, List.length_append]
  simp only [hvalue, statusName_eq]
  rfl

/-- The last answer is a failure: the row has its number and its message. -/
theorem settledRow_concat_error {e : ProviderError} (attempt : ℕ) :
    settledRow env (before ++ [.error e]) =
      failedRow (before.length + 1) (env.displayProviderError e) ∘ runningRow attempt := by
  funext t
  rw [settledRow, List.getLast?_concat, List.length_append]
  rfl

/-- The answers decide on everything that an attempt changes when it begins. -/
theorem settledRow_runningRow (hne : answers ≠ []) (attempt : ℕ) :
    settledRow env answers ∘ runningRow attempt = settledRow env answers := by
  funext t
  show settledRow env answers (runningRow attempt t) = _
  rw [settledRow, settledRow, List.getLast?_eq_some_getLast hne]
  cases answers.getLast hne with
  | ok p => rfl
  | error e => rfl

/-- The stored attempt is the number of the calls. -/
theorem settledRow_attempt (hne : answers ≠ []) (t : TargetRow) :
    (settledRow env answers t).attempt = answers.length := by
  rw [settledRow, List.getLast?_eq_some_getLast hne]
  cases answers.getLast hne with
  | ok p => rfl
  | error e => rfl

/-! ## The attempts -/

/-- The answers of a call, after those before it, are the last ones. -/
theorem attempts_concat {a : Except ProviderError Publication}
    (hbefore : ∀ a ∈ before, ∃ e, a = .error e ∧ WorthRetry e)
    (hlast : (∃ p, a = .ok p) ∨ (∃ e, a = .error e ∧ ¬ WorthRetry e) ∨ before.length = 2)
    (hmost : before.length ≤ 2) : Attempts (before ++ [a]) := by
  have hlength : (before ++ [a]).length = before.length + 1 := by simp
  refine ⟨?_, ⟨a, List.getLast?_concat, ?_⟩, by omega⟩
  · rw [List.dropLast_concat]
    exact hbefore
  · rcases hlast with hok | herror | htwo
    · exact Or.inl hok
    · exact Or.inr (Or.inl herror)
    · exact Or.inr (Or.inr (by omega))

/-- What the calls at one target end with: all answers, of which those `before` came earlier. -/
structure Tried (env : Deployment) (call : PublishCall)
    (before answers : List (Except ProviderError Publication)) (done : List Effect) : Prop where
  calls : callsIn done = answers.map (call, ·)
  attempts : Attempts (before ++ answers)
  update : ∃ status, lastUpdate done = some (status, (before ++ answers).length) ∧
    ∀ t, (settledRow env (before ++ answers) t).status = storedStatus status

/-- The loop over the remaining `m` attempts, after `k` answers that are worth another one. -/
theorem returns_publishLoop {call : PublishCall} {k m finalAttempt : ℕ} (hkm : k + m = 3)
    (hm : 0 < m) (hlength : before.length = k)
    (hbefore : ∀ a ∈ before, ∃ e, a = .error e ∧ WorthRetry e) :
    Returns (service env) (faultless env)
      (publishLoop env job call finalAttempt (List.range' (k + 1) m))
      (fun _ w' => ∃ answers done,
        w' = s.settle call.target.id (settledRow env (before ++ answers)) done ∧
        Tried env call before answers done) (fun _ _ => False) s := by
  induction m generalizing k finalAttempt before s with
  | zero => exact absurd hm (Nat.lt_irrefl 0)
  | succ m ih =>
      have hid : ∀ t, (runningRow (k + 1) t).id = t.id := fun _ => rfl
      rw [List.range'_succ]
      unfold publishLoop
      refine returns_attempt fun x u hx => ?_
      cases hanswer : x.publication with
      | ok p =>
          obtain ⟨value, hvalue⟩ := hx.json p hanswer
          refine Returns.bind (Returns.result (fun value' hvalue' => ?_) fun e he => ?_)
          · obtain rfl : value' = value := by
              rw [hvalue] at hvalue'
              exact (Except.ok.inj hvalue').symm
            refine returns_complete.mono ?_ fun _ _ h => h
            rintro - w' ⟨done, rfl, hcalls, hlast⟩
            rw [settle_settle hid, ← hlength, ← settledRow_concat_ok hvalue]
            refine ⟨[.ok p], _, rfl, ?_, attempts_concat hbefore (Or.inl ⟨p, rfl⟩) (by omega),
              p.status, ?_, fun t => ?_⟩
            · rw [callsIn_append, hcalls]
              rfl
            · rw [List.length_append, hlength]
              exact lastUpdate_append hlast
            · rw [settledRow_concat_ok hvalue]
              exact statusName_eq p.status
          · rw [hvalue] at he
            cases he
      | error e =>
          show Returns _ _ (if _ then _ else _) _ _ _
          split
          · next hretry =>
              -- another attempt
              obtain ⟨hlt, hretryable⟩ := hretry
              refine Returns.bind (returns_emit fun u' _ _ => ?_)
              have hbefore' :
                  ∀ a ∈ before ++ [.error e], ∃ e, a = .error e ∧ WorthRetry e := by
                intro a ha
                rcases List.mem_append.mp ha with ha | ha
                · exact hbefore a ha
                · exact ⟨e, List.mem_singleton.mp ha, (isRetryable_iff e).mp hretryable⟩
              refine (ih (by omega) (by omega) (by rw [List.length_append, hlength]; rfl)
                hbefore').mono ?_ fun _ _ h => h
              rintro - w' ⟨answers, done, rfl, htried⟩
              obtain ⟨hcalls, hattempts, status, hlast, hstatus⟩ := htried
              rw [List.append_assoc, List.singleton_append] at hattempts hlast hstatus ⊢
              rw [settle_log, settle_settle hid, settledRow_runningRow (by simp)]
              refine ⟨.error e :: answers, _, rfl, ?_, hattempts, status, lastUpdate_append hlast,
                hstatus⟩
              rw [callsIn_append, hcalls]
              rfl
          · next hretry =>
              refine returns_failTarget.mono ?_ fun _ _ h => h
              rintro - w' ⟨done, rfl, hcalls, hlast⟩
              have hlast' : (∃ p, (.error e : Except ProviderError Publication) = .ok p) ∨
                  (∃ e', (.error e : Except ProviderError Publication) = .error e' ∧
                    ¬ WorthRetry e') ∨ before.length = 2 := by
                by_cases hretryable : isRetryable e = true
                · have hthird : ¬ k + 1 < 3 := fun hlt => hretry ⟨hlt, hretryable⟩
                  exact Or.inr (Or.inr (by omega))
                · exact Or.inr (Or.inl ⟨e, rfl, fun hworth =>
                    hretryable ((isRetryable_iff e).mpr hworth)⟩)
              have hmessage : (TargetFailure.publishFailed (env.displayProviderError e)).message =
                  env.displayProviderError e := rfl
              rw [settle_settle hid, hmessage, ← hlength,
                ← settledRow_concat_error (before.length + 1)]
              refine ⟨[.error e], _, rfl, ?_, attempts_concat hbefore hlast' (by omega), .failed, ?_,
                fun t => ?_⟩
              · rw [callsIn_append, hcalls]
                rfl
              · rw [List.length_append, hlength]
                exact lastUpdate_append hlast
              · rw [settledRow_concat_error 0]
                rfl

/-! ## The loop over the targets -/

/-- The body of the loop treats the target by the rule. -/
theorem returns_processTarget (hjob : target.jobId = job.id)
    (hconnections : s.connections = w.connections) :
    Returns (service env) (faultless env) (processTarget env job event target)
      (fun _ w' => ∃ f done, (∀ t, (f t).toTargetFixed = t.toTargetFixed) ∧
        w' = s.settle target.id f done ∧ TargetRule env w job event target (f target) done)
      (fun _ _ => False) s := by
  -- a target that is given up before the adapter is called
  have hrefused : ∀ {provider why}, precheck env w job event target = .error why →
      Returns (service env) (faultless env) (failTarget job target.id provider 0 why)
        (fun _ w' => ∃ f done, (∀ t, (f t).toTargetFixed = t.toTargetFixed) ∧
          w' = s.settle target.id f done ∧ TargetRule env w job event target (f target) done)
        (fun _ _ => False) s := by
    intro provider why hwhy
    refine returns_failTarget.mono ?_ fun _ _ h => h
    rintro - w' ⟨done, rfl, hcalls, hlast⟩
    refine ⟨failedRow 0 why.message, done, fun _ => rfl, rfl, ?_, .failed, hlast, rfl⟩
    rw [hwhy]
    exact ⟨hcalls, rfl⟩
  unfold processTarget
  rw [if_neg (not_not.mpr hjob)]
  cases hprovider : env.fromStr target.provider with
  | error error =>
      refine hrefused ?_
      rw [precheck, hprovider]
  | ok provider =>
      have hread : Returns (service env) (faultless env)
          (Tries.caught (Store.getConnection job.userId target.connectionId))
          (fun answer w' => w' = s ∧ answer = match w.connections.find? fun c =>
              c.id = target.connectionId ∧ c.userId = job.userId with
            | none => .error (.notFound "connection not found")
            | some connection => .ok connection) (fun _ _ => False) s := by
        refine Returns.caught (Returns.bind (returns_query (fun _ => rfl) fun _ => ?_))
        rw [hconnections]
        cases w.connections.find? fun c => c.id = target.connectionId ∧ c.userId = job.userId with
        | none => exact Returns.throw ⟨rfl, rfl⟩
        | some connection => exact Returns.pure ⟨rfl, rfl⟩
      refine Returns.andThen hread ?_
      rintro answer w' ⟨rfl, rfl⟩
      cases hfind : w.connections.find? fun c =>
          c.id = target.connectionId ∧ c.userId = job.userId with
      | none =>
          refine hrefused ?_
          rw [precheck, hprovider]
          simp only [hfind]
      | some connection =>
          show Returns _ _ (if _ then _ else _) _ _ _
          split
          · next hconfigured =>
              refine hrefused ?_
              rw [precheck, hprovider]
              simp only [hfind, if_pos hconfigured]
          · next hconfigured =>
              cases htokens : env.decrypt connection.aad connection.tokenEnvelope with
              | error error =>
                  refine hrefused ?_
                  rw [precheck, hprovider]
                  simp only [hfind, if_neg hconfigured, htokens]
              | ok tokens =>
                  have hnone : ∀ a ∈ ([] : List (Except ProviderError Publication)),
                      ∃ e, a = .error e ∧ WorthRetry e := by simp
                  refine (returns_publishLoop (show 0 + 3 = 3 from rfl) (by decide) rfl
                    hnone).mono ?_ fun _ _ h => h
                  rintro - w' ⟨answers, done, rfl, hcalls, hattempts, status, hlast, hstatus⟩
                  rw [List.nil_append] at hattempts hlast hstatus ⊢
                  have hne : answers ≠ [] := by
                    rintro rfl
                    obtain ⟨a, ha, -⟩ := hattempts.last
                    cases ha
                  refine ⟨_, done, settledRow_fixed answers, rfl, ?_, status, ?_, hstatus target⟩
                  · rw [precheck, hprovider]
                    simp only [hfind, if_neg hconfigured, htokens]
                    exact ⟨answers, hcalls, hattempts, rfl⟩
                  · rw [settledRow_attempt hne]
                    exact hlast

/-- The rows of these targets are changed, and something is recorded for each. -/
def World.settleAll (w : World) (targets : List TargetRow) (row : TargetRow → TargetRow)
    (done : TargetRow → List Effect) : World :=
  { w with
    targets := w.targets.update (fun t => t.id ∈ targets.map (·.id)) row
    trace := w.trace ++ targets.flatMap done }

/-- One target and then the others. -/
theorem settle_settleAll {targets : List TargetRow} {done : List Effect}
    {row : TargetRow → TargetRow} {dones : TargetRow → List Effect}
    (hf : ∀ t, (f t).id = t.id) (hnew : target.id ∉ targets.map (·.id)) :
    (s.settle target.id f done).settleAll targets row dones =
      s.settleAll (target :: targets) (fun t => if t.id = target.id then f t else row t)
        (fun t => if t.id = target.id then done else dones t) := by
  have hdisjoint : ∀ t : TargetRow, decide (t.id = target.id) = true →
      decide ((f t).id ∈ targets.map (·.id)) = false := by
    intro t ht
    rw [hf, of_decide_eq_true ht]
    exact decide_eq_false hnew
  have hupdates := Table.update_update_of_disjoint (fun t => t.id = target.id)
    (fun t => t.id ∈ targets.map (·.id)) f row s.targets hdisjoint
  have hselected : s.targets.update
        (fun t => decide (t.id = target.id) || decide (t.id ∈ targets.map (·.id)))
        (fun t => if decide (t.id = target.id) then f t else row t) =
      s.targets.update (fun t => t.id ∈ (target :: targets).map (·.id))
        (fun t => if t.id = target.id then f t else row t) :=
    Table.update_congr (fun v _ _ => by simp) fun v _ _ _ => by simp
  have hothers : targets.flatMap (fun t => if t.id = target.id then done else dones t) =
      targets.flatMap dones := by
    exact List.flatMap_congr fun t ht => if_neg fun heq => hnew (List.mem_map.mpr ⟨t, ht, heq⟩)
  rw [World.settleAll, World.settleAll, World.settle, List.flatMap_cons, if_pos rfl, hothers,
    ← hselected, ← hupdates, List.append_assoc]

/-- The loop treats each target by the rule. -/
theorem returns_processTargets {targets : List TargetRow}
    (hjob : ∀ t ∈ targets, t.jobId = job.id) (hnodup : (targets.map (·.id)).Nodup)
    (hconnections : s.connections = w.connections) :
    Returns (service env) (faultless env) (processTargets env job event targets)
      (fun _ w' => ∃ row done, w' = s.settleAll targets row done ∧
        ∀ t ∈ targets, TargetRule env w job event t (row t) (done t)) (fun _ _ => False) s := by
  induction targets generalizing s with
  | nil =>
      refine Returns.pure ⟨id, fun _ => [], ?_, by simp⟩
      have hnone : s.targets.update (fun t => t.id ∈ ([] : List TargetRow).map (·.id)) id =
          s.targets :=
        (List.map_congr_left fun v _ => if_neg (by simp)).trans (List.map_id _)
      rw [World.settleAll, hnone, List.flatMap_nil, List.append_nil]
  | cons target targets ih =>
      obtain ⟨hnew, hnodup⟩ := List.nodup_cons.mp hnodup
      have hhead := hjob target List.mem_cons_self
      refine Returns.andThen (returns_processTarget hhead hconnections) ?_
      rintro - w' ⟨f, done, hfixed, rfl, hrule⟩
      have hrest := ih (s := s.settle target.id f done)
        (fun t ht => hjob t (List.mem_cons_of_mem _ ht)) hnodup hconnections
      refine hrest.mono ?_ fun _ _ h => h
      rintro - w' ⟨row, dones, rfl, hrules⟩
      have hid : ∀ t, (f t).id = t.id := fun t => congrArg TargetFixed.id (hfixed t)
      refine ⟨_, _, settle_settleAll hid hnew, fun t ht => ?_⟩
      rcases List.mem_cons.mp ht with rfl | ht
      · rw [if_pos rfl, if_pos rfl]
        exact hrule
      · have hne : t.id ≠ target.id := fun heq => hnew (List.mem_map.mpr ⟨t, ht, heq⟩)
        rw [if_neg hne, if_neg hne]
        exact hrules t ht

/-! ## The whole run -/

/-- The worker can start: its job is committed, the event of the job is found and reads as
`event`, and the identifiers of the targets are distinct.  The cross-post handler reads the
event and commits the job before it starts the worker. -/
structure Workable (env : Deployment) (w : World) (job : JobRow) (event : EventDraft) : Prop where
  own : OwnJob w job
  event : ∃ e, (w.events.find? fun e => e.id = job.eventId ∧ e.ownerId = job.userId) = some e ∧
    env.eventFromValue e.document = .ok event
  ids : ((w.targets.rows none).map (·.id)).Nodup

/-- What a run of the worker leaves: every target of the job has been treated by the rule, one
after the other between the first update and the last ones, and no other row has changed. -/
structure Refined (env : Deployment) (w : World) (job : JobRow) (event : EventDraft) (w' : World) :
    Prop where
  rule : ∃ (row : TargetRow → TargetRow) (done : TargetRow → List Effect) (first last : JobUpdate),
    w'.targets = w.targets.update (·.jobId = job.id) row ∧
    w'.trace = w.trace ++ .emitted first :: ((claimed w job.id).flatMap done ++
      [.finished job.id, .emitted last]) ∧
    ∀ t ∈ claimed w job.id, TargetRule env w job event t (row t) (done t)

/-- The claimed targets are the ones of the job. -/
theorem update_claimed (hids : ((w.targets.rows none).map (·.id)).Nodup) (j : Uuid)
    (row : TargetRow → TargetRow) :
    w.targets.update (fun t => t.id ∈ (claimed w j).map (·.id)) row =
      w.targets.update (·.jobId = j) row := by
  refine Table.update_congr (fun v hv hc => decide_eq_decide.mpr ?_) fun _ _ _ _ => rfl
  have hrow : v.row ∈ w.targets.rows none := Table.mem_rows_none.mpr ⟨v, hv, hc, rfl⟩
  constructor
  · intro hmem
    obtain ⟨t, ht, hid⟩ := List.mem_map.mp hmem
    obtain ⟨hjob, u, hu, huc, rfl⟩ := mem_claimed.mp ht
    have hsame := List.inj_on_of_nodup_map hids
      (Table.mem_rows_none.mpr ⟨u, hu, huc, rfl⟩) hrow hid
    rw [← hsame]
    exact hjob
  · exact fun hjob => List.mem_map.mpr ⟨v.row, mem_claimed.mpr ⟨hjob, v, hv, hc, rfl⟩, rfl⟩

section Parts

variable {E : ApiError → World → Prop}

theorem returns_getEvent (hworkable : Workable env w job event) :
    Returns (service env) (faultless env) (Store.getEvent env job.userId job.eventId)
      (fun event' w' => event' = event ∧ w' = w) E w := by
  obtain ⟨e, hfind, hread⟩ := hworkable.event
  refine Returns.bind (returns_query (fun _ => rfl) fun _ => ?_)
  rw [hfind]
  refine Returns.result (fun event' hevent' => ?_) fun error herror => ?_
  · rw [hread] at hevent'
    exact ⟨(Except.ok.inj hevent').symm, rfl⟩
  · rw [hread] at herror
    cases herror

theorem returns_claimTargets (j : Uuid) :
    Returns (service env) (faultless env) (Store.claimTargets j)
      (fun targets w' => targets = claimed w j ∧
        ∃ f, w' = w.updateJob j f ∧ ∀ r : JobRow, (f r).toJobFixed = r.toJobFixed) E w :=
  Returns.bind (returns_query (fun _ => rfl) fun _ =>
    returns_query (fun _ => rfl) fun _ => ⟨rfl, _, rfl, fun _ => rfl⟩)

theorem returns_finishJob (j : Uuid) :
    Returns (service env) (faultless env) (Store.finishJob j)
      (fun _ w' => ∃ f, w' = (w.updateJob j f).log (.finished j) ∧
        ∀ r : JobRow, (f r).toJobFixed = r.toJobFixed) E w :=
  Returns.bind (returns_query (fun _ => rfl) fun _ => Returns.bind (returns_query (fun _ => rfl)
    fun _ => returns_query (fun _ => rfl) fun _ => ⟨_, rfl, fun _ => rfl⟩))

theorem returns_getJob (hown : OwnJob w job) :
    Returns (service env) (faultless env) (Store.getJob job.userId job.id)
      (fun _ w' => w' = w) E w := by
  obtain ⟨row, hfind⟩ := hown.exists_found
  refine Returns.bind (returns_query (fun _ => rfl) fun _ => ?_)
  rw [hfind]
  exact Returns.bind (returns_query (fun _ => rfl) fun _ => Returns.pure rfl)

end Parts

/-- **The program of a worker**, with no others at work, does to the store what the rule
says. -/
theorem returns_runWorker (hworkable : Workable env w job event) :
    Returns (service env) (faultless env) (runWorker env job)
      (fun _ w' => Refined env w job event w') (fun _ _ => False) w := by
  refine Returns.andThen (returns_getEvent hworkable) ?_
  rintro event' w' ⟨hevent, hw⟩
  rw [hevent, hw]
  refine Returns.andThen (returns_claimTargets job.id) ?_
  rintro _ _ ⟨rfl, f, rfl, hf⟩
  refine Returns.bind (returns_emit fun first _ _ => ?_)
  refine Returns.andThen (returns_processTargets (w := w) (fun t ht => (mem_claimed.mp ht).1)
    (nodup_claimed_of_ids hworkable.ids job.id) ?_) ?_
  · rfl
  rintro - _ ⟨row, done, rfl, hrules⟩
  refine Returns.andThen (returns_finishJob job.id) ?_
  rintro - _ ⟨g, rfl, hg⟩
  have hown : OwnJob ((w.updateJob job.id f).updateJob job.id g) job :=
    (hworkable.own.updateJob hf).updateJob hg
  refine Returns.andThen (returns_getJob ?_) ?_
  · exact hown
  rintro _ _ rfl
  refine returns_emit fun last _ _ => ⟨row, done, first, last, ?_, ?_, hrules⟩
  · exact update_claimed hworkable.ids job.id row
  · show ((w.trace ++ [.emitted first] ++ (claimed w job.id).flatMap done) ++ [.finished job.id]) ++
      [.emitted last] = _
    simp only [List.append_assoc, List.cons_append, List.nil_append]

/-- What the cross-post handler has read and committed is enough in any world that keeps the
invariants: the identifiers of its targets are distinct. -/
theorem Inv.workable (hinv : Inv env w) (hown : OwnJob w job)
    (hevent : ∃ e, (w.events.find? fun e => e.id = job.eventId ∧ e.ownerId = job.userId) = some e ∧
      env.eventFromValue e.document = .ok event) : Workable env w job event := by
  refine ⟨hown, hevent, ?_⟩
  rw [Table.rows, List.map_map]
  exact (List.filter_sublist.map _).nodup hinv.targetIds

theorem exists_refined {draws : Stream' Draw} (hworkable : Workable env w job event)
    (hdraws : ∀ i, Faultless env (draws.get i)) :
    ∃ k w', (runWorker env job).run.runAlone (service env) (draws.take k) w = some (.ok (), w') ∧
      Refined env w job event w' := by
  obtain ⟨k, r, w', hrun, hr⟩ :=
    (returns_runWorker hworkable).exists_run (feeds_forall (Faultless env)) hdraws
  cases r with
  | ok _ => exact ⟨k, w', hrun, hr⟩
  | error e => exact hr.elim

/-- Whatever the adapters answer, the worker returns `Ok` and has treated every target of the
job by the rule. -/
theorem worker_refines {draws : Stream' Draw} (hworkable : Workable env w job event)
    (hdraws : ∀ i, Faultless env (draws.get i)) :
    ∃ k w', (runWorker env job).run.runAlone (service env) (draws.take k) w = some (.ok (), w') ∧
      Refined env w job event w' :=
  exists_refined hworkable hdraws

/-- In particular, in every state that the service reaches, for every committed job whose event
can be read. -/
theorem refined_of_reachable {p : Pool Stmt Role Outcome World} (h : Reachable env p)
    {v : Version JobRow} (hv : v ∈ p.shared.jobs) (hc : v.committed = true)
    (hread : ∀ e ∈ p.shared.events, e.id = v.row.eventId →
      env.eventFromValue e.document = .ok event)
    {draws : Stream' Draw} (hdraws : ∀ i, Faultless env (draws.get i)) :
    ∃ k w', (runWorker env v.row).run.runAlone (service env) (draws.take k) p.shared =
      some (.ok (), w') ∧ Refined env p.shared v.row event w' := by
  have hinv : Inv env p.shared := h.poolOk.inv
  obtain ⟨e, he, hid, howner⟩ := hinv.eventOwned v hv
  obtain ⟨e', hfind, he', hid', -⟩ := Keyed.exists_found
    (p := fun e : EventRow => e.id = v.row.eventId ∧ e.ownerId = v.row.userId) he ⟨hid, howner⟩
  exact exists_refined (hinv.workable ⟨v, hv, hc, rfl⟩ ⟨e', hfind, hread e' he' hid'⟩) hdraws

namespace Sample

/-- The job of user 1 for the event 20. -/
def committedJob : JobRow := ⟨⟨30, 1, 20, "key", 0⟩, "queued", 0⟩

/-- The job is committed, with a target for the account of the user and one for an account that
does not exist. -/
def committed : World :=
  { World.empty with
    events := [⟨20, 1, .array [.number "20", .number "1", .string "Party"], 0⟩]
    connections := [⟨⟨10, 1, "craigslist", "account", 0⟩, "Account", .null,
      "sealed " ++ aadOf 1 "craigslist" "account", 0⟩]
    jobs := [⟨3, true, committedJob⟩]
    targets := [⟨3, true, ⟨⟨40, 30, 10, "craigslist", .null⟩, "queued", 0, none, none⟩⟩,
      ⟨3, true, ⟨⟨41, 30, 11, "craigslist", .null⟩, "queued", 0, none, none⟩⟩] }

theorem workable_committed : Workable deployment committed committedJob
    (Sample.event 20 1 "Party") where
  own := ⟨_, List.mem_cons_self, rfl, rfl⟩
  event := by
    have howner : readNumber "1" = some 1 := by decide +kernel
    have hid : readNumber "20" = some 20 := by decide +kernel
    refine ⟨_, rfl, ?_⟩
    show eventFromValue (.array [.number "20", .number "1", .string "Party"]) = _
    simp only [eventFromValue, hid, howner]
  ids := by decide

end Sample

/-- The adapter never recovers: three calls for the first target, none for the second one. -/
theorem worker_refines_sample :
    (((runWorker Sample.deployment Sample.committedJob).run.runAlone (service Sample.deployment)
        (List.replicate 27 { publication := .error (.network "timeout") }) Sample.committed).map
      fun r => (r.2.targets.rows none).map fun t => (t.status, t.attempt, t.error)) =
      some [("failed", 3, some "timeout"),
        ("failed", 0, some "provider connection is unavailable: connection not found")] ∧
    ∃ k w', (runWorker Sample.deployment Sample.committedJob).run.runAlone
        (service Sample.deployment)
        ((Stream'.const { publication := .error (.network "timeout") }).take k) Sample.committed =
          some (.ok (), w') ∧
      Refined Sample.deployment Sample.committed Sample.committedJob
        (Sample.event 20 1 "Party") w' := by
  refine ⟨by decide +kernel, worker_refines Sample.workable_committed fun i => ⟨rfl, ?_⟩⟩
  intro p hp
  exact ⟨_, rfl⟩

end Service
