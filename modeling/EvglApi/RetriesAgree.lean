/-
# Concurrent retries agree

Under every schedule in which a request looks the key up only while no other request
holds it, all requests that have ended have the same job, one of them at most has
created it, one has if all have ended, and no program has to wait.

When two requests both find the key unused before one of them inserts the job, the
other one ends with an internal error.
-/
import EvglApi.RetriesKeeps

open Concurrency Mvcc

namespace Service

variable {env : Deployment} {c : Retry} {w₀ w w' : World} {n : ℕ} {q : Request} {β : Type}

/-! ## Schedules -/

/-- Only the retried request arrives, and the database does not fail. -/
def Fair (c : Retry) : Label Draw Request → Prop
  | .arrive q => q = c.request
  | .turn _ x => x.fails = none

/-- The thread does not look a key up, or no other request holds the key. -/
def alone (w : World) : Thread Stmt Role Outcome → Bool
  | ⟨_, .step (.query (.selectJobByKey n user key)) _⟩ =>
      w.missed.all fun held => held.2 ≠ (user, key) || held.1 = n
  | _ => true

/-- In the run under the schedule, all look-ups are alone. -/
def lookUpsAlone (env : Deployment) (p : Pool Stmt Role Outcome World)
    (ls : List (Label Draw Request)) : Bool :=
  p.meets (service env) (fun t _ w => alone w t) ls

theorem undisturbed_of_alone {x : Draw} {r : Role} {st : Stmt β}
    {k : β → Prog Stmt Role Outcome Outcome}
    (hfails : x.fails = none) (h : alone w ⟨r, .step st k⟩ = true) : Undisturbed st x w := by
  cases st with
  | query k' =>
      refine ⟨hfails, ?_⟩
      cases k' with
      | selectJobByKey n user key =>
          intro m hm
          have hone := List.all_eq_true.mp h _ hm
          simpa using hone
      | _ => trivial
  | _ => trivial

theorem followsAll_of_alone {p : Pool Stmt Role Outcome World} {ls : List (Label Draw Request)}
    (hfair : ∀ l ∈ ls, Fair c l) (halone : lookUpsAlone env p ls = true) :
    (retries env c w₀).FollowsAll p ls :=
  Discipline.followsAll_of_meets (fun _ hq => hfair _ hq)
    (fun _ _ _ _ _ _ hmem h => undisturbed_of_alone (hfair _ hmem) h) halone

/-! ## Agreement -/

/-- Request `n` has ended with a job. -/
def Answered (p : Pool Stmt Role Outcome World) (n status : ℕ) (job : JobRow) : Prop :=
  ∃ (i : ℕ) (q : Request),
    p.threads[i]? = some ⟨.request n q, .pure (.reply (.ok (.job status job)))⟩

/-- The retries agree. -/
structure RetriesAgree (p : Pool Stmt Role Outcome World) : Prop where
  /-- Every request that has ended has the same job. -/
  same : ∃ job : JobFixed, ∀ (i n : ℕ) q a, p.threads[i]? = some ⟨.request n q, .pure a⟩ →
    ∃ status row, a = .reply (.ok (.job status row)) ∧ row.toJobFixed = job ∧
      (status = 202 ∨ status = 200)
  /-- One request at most has created it. -/
  once : ∀ n n' row row', Answered p n 202 row → Answered p n' 202 row' → n = n'
  /-- One has if there are requests and all have ended. -/
  created : (∃ t ∈ p.threads, ∃ n q, t.role = .request n q) →
    (∀ t ∈ p.threads, ∀ n q, t.role = .request n q → ∃ a, t.prog = .pure a) →
      ∃ n row, Answered p n 202 row
  /-- No program has to wait. -/
  proceeds : ∀ (i : ℕ) r (β : Type) (st : Stmt β) k,
    p.threads[i]? = some ⟨r, .step st k⟩ → CanGo st p.shared

/-- The retry has arrived. -/
def Arrived (w₀ w : World) (r : Role) : Prop :=
  ∃ n q, r = .request n q ∧ w₀.requests.length ≤ n ∧ w.requests[n]? = some q

theorem arrived_of_exec {st : Stmt β} {x : Draw} {b : β} {r : Role}
    (hexec : st.exec x w = some (b, w')) (h : Arrived w₀ w' r) : Arrived w₀ w r := by
  obtain ⟨n, q, rfl, hlater, hn⟩ := h
  have htaken : Taken w' (.request n q) := hn
  exact ⟨n, q, rfl, hlater, taken_of_exec hexec htaken⟩

theorem arrived_of_enter {r r' : Role} (hfree : ¬ Taken w r) (htaken : Taken (w.enter r) r)
    (h : Arrived w₀ (w.enter r) r') : Arrived w₀ w r' ∨ r' = r := by
  obtain ⟨n, q, rfl, hlater, hn⟩ := h
  have hn' : Taken (w.enter r) (.request n q) := hn
  exact (taken_of_enter hfree htaken hn').imp (fun hn => ⟨n, q, rfl, hlater, hn⟩) id

section Pool

variable {p : Pool Stmt Role Outcome World} {i : ℕ} {a : Outcome}

/-- A request that has ended agrees with the store. -/
theorem agreed_of_ended (hok : (retries env c w₀).PoolOk p)
    (ht : p.threads[i]? = some ⟨.request n q, .pure a⟩) :
    ∃ r, a = .reply r ∧ Agreed c n r p.shared := by
  have h : AgreedEnd c (.request n q) a p.shared := hok.post ht
  cases a with
  | reply r => exact ⟨r, rfl, h⟩
  | finished r => exact h.elim

/-- A request that was answered with a new job has inserted the job of the key. -/
theorem inserted_of_created {row : JobRow} (hok : (retries env c w₀).PoolOk p)
    (h : Answered p n 202 row) : ∃ v ∈ p.shared.marks, c.Keyed v.row ∧ v.xmin = n := by
  obtain ⟨i, q, ht⟩ := h
  obtain ⟨r, hr, status, row', hr', -, v, hv, -, hkey, -, hiff⟩ := agreed_of_ended hok ht
  obtain rfl := Outcome.reply.inj hr
  obtain ⟨rfl, -⟩ := Response.job.inj (Except.ok.inj hr')
  exact ⟨v, hv, hkey, hiff.mp rfl⟩

/-- All requests that have ended have the job of the key. -/
theorem same_job (hok : (retries env c w₀).PoolOk p) :
    ∃ job : JobFixed, ∀ (i n : ℕ) q a, p.threads[i]? = some ⟨.request n q, .pure a⟩ →
      ∃ status row, a = .reply (.ok (.job status row)) ∧ row.toJobFixed = job ∧
        (status = 202 ∨ status = 200) := by
  have hphase : Phase c w₀ p.shared := hok.inv
  by_cases hstored : ∃ v ∈ p.shared.marks, c.Keyed v.row
  · obtain ⟨v, hv, hkey⟩ := hstored
    refine ⟨v.row, fun i n q a ht => ?_⟩
    obtain ⟨r, rfl, status, row, rfl, hstatus, v', hv', -, hkey', hrow, -⟩ := agreed_of_ended hok ht
    obtain rfl := hphase.unique v hv v' hv' hkey hkey'
    exact ⟨status, row, rfl, hrow.symm, hstatus⟩
  · -- without a job no request has ended, and any job will do
    refine ⟨⟨0, 0, 0, "", 0⟩, fun i n q a ht => ?_⟩
    obtain ⟨r, rfl, status, row, rfl, -, v, hv, -, hkey, -⟩ := agreed_of_ended hok ht
    exact absurd ⟨v, hv, hkey⟩ hstored

/-- If some request has ended, the one that inserted the job has arrived. -/
theorem exists_creator (hok : (retries env c w₀).PoolOk p)
    (hmanned : Discipline.Manned (Arrived w₀) p)
    (ht : p.threads[i]? = some ⟨.request n q, .pure a⟩) :
    ∃ v ∈ p.shared.marks, c.Keyed v.row ∧ ∃ t ∈ p.threads, ∃ q', t.role = .request v.xmin q' := by
  have hphase : Phase c w₀ p.shared := hok.inv
  obtain ⟨r, rfl, status, row, rfl, -, v, hv, -, hkey, -⟩ := agreed_of_ended hok ht
  obtain ⟨q', hq'⟩ : ∃ q', p.shared.requests[v.xmin]? = some q' :=
    ⟨_, List.getElem?_eq_getElem (hphase.below v hv)⟩
  obtain ⟨t, ht, hrole⟩ := hmanned _ ⟨v.xmin, q', rfl, hphase.later v hv hkey, hq'⟩
  exact ⟨v, hv, hkey, t, ht, q', hrole⟩

/-- If all requests have ended, one of them has created the job. -/
theorem exists_created (hok : (retries env c w₀).PoolOk p)
    (hmanned : Discipline.Manned (Arrived w₀) p)
    (hsome : ∃ t ∈ p.threads, ∃ n q, t.role = .request n q)
    (hall : ∀ t ∈ p.threads, ∀ n q, t.role = .request n q → ∃ a, t.prog = .pure a) :
    ∃ n row, Answered p n 202 row := by
  have hphase : Phase c w₀ p.shared := hok.inv
  obtain ⟨⟨r, prog⟩, ht, n, q, hrole⟩ := hsome
  obtain ⟨a, hprog⟩ := hall _ ht n q hrole
  obtain rfl : r = .request n q := hrole
  obtain rfl : prog = .pure a := hprog
  obtain ⟨i, hi⟩ := List.getElem?_of_mem ht
  -- the request that inserted the job has ended too, with status 202
  obtain ⟨v, hv, hkey, ⟨r', prog'⟩, ht', q', hrole'⟩ := exists_creator hok hmanned hi
  obtain ⟨a', hprog'⟩ := hall _ ht' _ _ hrole'
  obtain rfl : r' = .request v.xmin q' := hrole'
  obtain rfl : prog' = .pure a' := hprog'
  obtain ⟨j, hj⟩ := List.getElem?_of_mem ht'
  obtain ⟨r, rfl, status, row, rfl, -, v', hv', -, hkey', -, hiff⟩ := agreed_of_ended hok hj
  rw [hphase.unique v' hv' v hv hkey' hkey] at hiff
  obtain rfl := hiff.mpr rfl
  exact ⟨v.xmin, row, j, q', hj⟩

end Pool

/-- Concurrent retries agree in every run in which a request looks the key up only while
no other request holds it. -/
theorem retries_agree {p : Pool Stmt Role Outcome World} {ls : List (Label Draw Request)}
    (hready : Ready env c w₀) (hfair : ∀ l ∈ ls, Fair c l)
    (halone : lookUpsAlone env ⟨w₀, []⟩ ls = true)
    (hrun : Pool.run (service env) ⟨w₀, []⟩ ls = some p) : RetriesAgree p := by
  have hstart : (retries env c w₀).PoolOk ⟨w₀, []⟩ := Discipline.poolOk_nil (phase_ready hready)
  have hfollows : (retries env c w₀).FollowsAll ⟨w₀, []⟩ ls := followsAll_of_alone hfair halone
  have hok := hstart.run (hospitable_retries hready) hfollows hrun
  have hphase : Phase c w₀ p.shared := hok.inv
  have hmanned : Discipline.Manned (Arrived w₀) p := by
    refine hstart.manned_run (fun st x s b s' r hexec h => arrived_of_exec hexec h)
      (fun r s r' hfree htaken h => arrived_of_enter hfree htaken h)
      (hospitable_retries hready) hfollows ?_ hrun
    rintro r ⟨m, q', -, hlater, hm⟩
    exact absurd (List.getElem?_eq_some_iff.mp hm).1 (Nat.not_lt.mpr hlater)
  refine ⟨same_job hok, fun n n' row row' h h' => ?_, exists_created hok hmanned,
    fun i r β st k ht => hok.needs ht⟩
  obtain ⟨v, hv, hkey, rfl⟩ := inserted_of_created hok h
  obtain ⟨v', hv', hkey', rfl⟩ := inserted_of_created hok h'
  rw [hphase.unique v hv v' hv' hkey hkey']

/-! ## Runs of two retries -/

namespace Sample

/-- The store after the first requests of user 1. -/
def connected : World :=
  ((idleService.run (service deployment) connect).map (·.shared)).getD World.empty

/-- The request to post event 20. -/
def retry : Retry := ⟨1, 20, "key", [⟨10, .craigslist, .null⟩]⟩

/-- Two retries; the second one looks the key up when the first one has committed. -/
def inTurn : List (Label Draw Request) :=
  [.arrive retry.request, .arrive retry.request, .turn 0 {}, .turn 1 {}, .turn 0 {}, .turn 1 {},
   .turn 0 {}, .turn 0 { uuid := 30 }, .turn 0 {}, .turn 0 { uuid := 40 }, .turn 0 {},
   .turn 1 {}, .turn 0 {}, .turn 1 {}]

/-- Two retries that both look the key up before the first one inserts the job. -/
def crossed : List (Label Draw Request) :=
  [.arrive retry.request, .arrive retry.request, .turn 0 {}, .turn 1 {}, .turn 0 {}, .turn 1 {},
   .turn 0 {}, .turn 1 {}, .turn 0 { uuid := 30 }, .turn 0 {}, .turn 0 { uuid := 40 }, .turn 0 {},
   .turn 0 {}, .turn 1 { uuid := 31 }, .turn 1 {}]

theorem ready_connected : Ready deployment retry connected where
  inv := by
    -- the world is the one that a run has reached
    have hrun : (idleService.run (service deployment) connect).isSome = true := by decide +kernel
    obtain ⟨p, hp⟩ := Option.isSome_iff_exists.mp hrun
    have hp' : connected = p.shared := by rw [connected, hp]; rfl
    rw [hp']
    exact (Reachable.poolOk ⟨_, hp⟩).inv
  valid := rfl
  event := by
    have hfind : ((connected.events.find? fun e => e.id = 20 ∧ e.ownerId = 1).bind fun e =>
        (eventFromValue e.document).toOption).isSome = true := by decide +kernel
    obtain ⟨draft, hsome⟩ := Option.isSome_iff_exists.mp hfind
    obtain ⟨e, he, hdraft⟩ := Option.bind_eq_some_iff.mp hsome
    refine ⟨e, draft, he, ?_⟩
    show eventFromValue e.document = .ok draft
    cases hread : eventFromValue e.document with
    | ok d => rw [hread] at hdraft; exact congrArg _ (Option.some.inj hdraft)
    | error e => rw [hread] at hdraft; cases hdraft
  connections := by
    intro t ht
    obtain rfl := List.mem_singleton.mp ht
    have hfind : ((connected.connections.find? fun k => k.id = 10 ∧ k.userId = 1).map
        (·.provider)) = some (asStr .craigslist) := by decide +kernel
    obtain ⟨k, hk, hprovider⟩ := Option.map_eq_some_iff.mp hfind
    exact ⟨k, hk, hprovider⟩
  unused := by
    have hnone : connected.marks.length = 0 := by decide +kernel
    intro v hv
    rw [List.length_eq_zero_iff.mp hnone] at hv
    cases hv
  unheld := by
    have hnone : connected.missed.length = 0 := by decide +kernel
    intro m hm
    have hm' : (m, retry.user, retry.key) ∈ connected.missed := hm
    rw [List.length_eq_zero_iff.mp hnone] at hm'
    cases hm'

/-- The statuses and the errors of the replies. -/
def statuses (p : Pool Stmt Role Outcome World) : List (Except ApiError ℕ) :=
  p.threads.filterMap fun t =>
    match t with
    | ⟨.request _ _, .pure (.reply (.ok (.job status _)))⟩ => some (.ok status)
    | ⟨.request _ _, .pure (.reply (.error e))⟩ => some (.error e)
    | _ => none

end Sample

/-- In turn, the first request creates the job and the second one is answered with it. -/
theorem retries_agree_sample :
    ∃ p, Pool.run (service Sample.deployment) ⟨Sample.connected, []⟩ Sample.inTurn = some p ∧
      Sample.statuses p = [.ok 202, .ok 200] ∧ RetriesAgree p := by
  have hrun : ((Pool.run (service Sample.deployment) ⟨Sample.connected, []⟩ Sample.inTurn).map
      Sample.statuses) = some [.ok 202, .ok 200] := by decide +kernel
  obtain ⟨p, hp, hstatuses⟩ := Option.map_eq_some_iff.mp hrun
  have halone : lookUpsAlone Sample.deployment ⟨Sample.connected, []⟩ Sample.inTurn = true := by
    decide +kernel
  have hfair : ∀ l ∈ Sample.inTurn, Fair Sample.retry l := by simp [Sample.inTurn, Fair]
  exact ⟨p, hp, hstatuses, retries_agree Sample.ready_connected hfair halone hp⟩

/-- When both requests find the key unused, the second one ends with the violation of the
unique index, as an internal error. -/
theorem not_retries_agree :
    ¬ ∀ (env : Deployment) (c : Retry) (w₀ : World) (ls : List (Label Draw Request))
        (p : Pool Stmt Role Outcome World), Ready env c w₀ → (∀ l ∈ ls, Fair c l) →
      Pool.run (service env) ⟨w₀, []⟩ ls = some p → RetriesAgree p := by
  intro h
  have hrun : ((Pool.run (service Sample.deployment) ⟨Sample.connected, []⟩ Sample.crossed).map
      Sample.statuses) =
        some [.ok 202, .error (.internal (.db (.uniqueViolation jobKeyMessage)))] := by
    decide +kernel
  obtain ⟨p, hp, hstatuses⟩ := Option.map_eq_some_iff.mp hrun
  have hfair : ∀ l ∈ Sample.crossed, Fair Sample.retry l := by simp [Sample.crossed, Fair]
  obtain ⟨job, hsame⟩ := (h _ _ _ _ p Sample.ready_connected hfair hp).same
  have hmem : .error (.internal (.db (.uniqueViolation jobKeyMessage))) ∈ Sample.statuses p := by
    rw [hstatuses]
    exact List.mem_cons_of_mem _ List.mem_cons_self
  obtain ⟨t, ht, hsome⟩ := List.mem_filterMap.mp hmem
  obtain ⟨i, hi⟩ := List.getElem?_of_mem ht
  split at hsome
  · cases hsome
  · obtain ⟨status, row, heq, -⟩ := hsame i _ _ _ hi
    cases heq
  · cases hsome

end Service
