/-
# Every event is announced once

`events::create` stores an event and then sends it to the event channel.  Every stored event is
on the channel exactly once, apart from the events whose requests are between the two
statements.

* `Creating` lists the forms of the program of `create`; the statements of all other programs
  are `Stmt.Aloof`.
* `announced_perm` compares the channel with the table, by `Conserved.run`; ids do not come
  twice by `Budgeted.run`, as each is drawn before it is stored.
-/
import EvglApi.AtMostOnce
import EvglApi.Conservation
import EvglApi.HandlerRules
import Mathlib.Data.Multiset.OrderedMonoid

open Concurrency Mvcc

namespace Service

variable {env : Deployment} {p p' : Pool Stmt Role Outcome World} {w w' : World} {n : ℕ}
  {q : Request} {x : Draw} {β : Type} {user : Uuid}

/-! ## The event channel -/

/-- The event of a recorded effect. -/
def Effect.event? : Effect → Option EventDraft
  | .announced event => some event
  | _ => none

/-- What has been sent to the event channel. -/
def World.eventChannel (w : World) : List EventDraft := w.trace.filterMap Effect.event?

/-- What the table holds of an event: its id, its owner and its document. -/
def EventRow.entry (e : EventRow) : Uuid × Uuid × Except String Value :=
  (e.id, e.ownerId, .ok e.document)

/-- What the table is to hold of an event. -/
def EventDraft.entry (env : Deployment) (e : EventDraft) : Uuid × Uuid × Except String Value :=
  (e.id, e.ownerId, env.eventToValue e)

/-! ## Who has to do with events -/

/-- A statement that is none of `create`. -/
def Stmt.Aloof : Stmt β → Prop
  | .newUuid => False
  | .query (.insertEvent ..) => False
  | .sendEvent _ => False
  | _ => True

/-- An aloof statement leaves the events as they are. -/
theorem Stmt.Aloof.exec {st : Stmt β} {b : β} (hst : st.Aloof)
    (hexec : st.exec x w = some (b, w')) :
    w'.events = w.events ∧ w'.eventChannel = w.eventChannel := by
  have hlog : ∀ {e : Effect} {v : World}, e.event? = none →
      (v.log e).eventChannel = v.eventChannel := by
    intro e v he
    show (v.trace ++ [e]).filterMap Effect.event? = _
    rw [List.filterMap_append, List.filterMap_cons_none he, List.filterMap_nil, List.append_nil]
    rfl
  have houtcome : ∀ {v : World} {id : Uuid}, (v.logOutcome id).eventChannel = v.eventChannel := by
    intro v id
    have hnothing : (((v.targets.rows none).filter (·.id = id)).map fun t =>
        Effect.outcome t.jobId t.id).filterMap Effect.event? = [] := by
      refine List.filterMap_eq_nil_iff.mpr fun e he => ?_
      obtain ⟨t, -, rfl⟩ := List.mem_map.mp he
      rfl
    show (v.trace ++ List.map _ _).filterMap Effect.event? = _
    rw [List.filterMap_append, hnothing, List.append_nil]
    rfl
  have hsame : w'.trace = w.trace → w'.eventChannel = w.eventChannel := fun htrace =>
    congrArg (List.filterMap Effect.event?) htrace
  have hframe := Stmt.exec_frame hexec
  refine ⟨hframe.events ?_, ?_⟩
  · cases st with
    | query k =>
        cases k with
        | insertEvent id owner document => exact hst.elim
        | _ => simp
    | _ => simp
  · cases st with
    | query k =>
        rcases Stmt.exec_query hexec with ⟨text, -, -, rfl⟩ | ⟨-, hexec⟩
        · rfl
        · cases k with
          | insertEvent id owner document => exact hst.elim
          | upsertConnection user provider accountKey displayName metadata envelope =>
              obtain ⟨row, -, -, -, ⟨old, -, -, rfl⟩ | ⟨-, -, rfl⟩⟩ := upsertConnection_cases hexec
              · exact hlog (e := .upserted row) rfl
              · exact hlog (e := .upserted row) rfl
          | updateTargetComplete id status result =>
              obtain ⟨-, rfl⟩ := Prod.mk.inj (Option.some.inj hexec)
              exact houtcome
          | updateTargetFailed id attempt error =>
              obtain ⟨-, rfl⟩ := Prod.mk.inj (Option.some.inj hexec)
              exact houtcome
          | updateJobStatus id status =>
              obtain ⟨-, rfl⟩ := Prod.mk.inj (Option.some.inj hexec)
              exact hlog rfl
          | _ => exact hsame (hframe.trace (by simp))
    | newUuid => exact hst.elim
    | sendEvent event => exact hst.elim
    | encrypt aad tokens =>
        rcases Stmt.exec_encrypt hexec with ⟨e, -, rfl⟩ | ⟨envelope, -, rfl⟩
        · rfl
        · exact hlog rfl
    | exchangeCode | publish | emit =>
        obtain ⟨-, rfl⟩ := Prod.mk.inj (Option.some.inj hexec)
        exact hlog rfl
    | _ => exact hsame (hframe.trace (by simp))

/-- A request that creates no event. -/
def Request.NotCreate : Request → Prop
  | .createEvent .. => False
  | _ => True

/-- A request starts workers, whose statements are aloof. -/
def AloofWorker (r : Role) (child : Prog Stmt Role Outcome Outcome) : Prop :=
  (∃ j, r = .worker j) ∧ child.Every Stmt.Aloof

theorem aloof_worker (job : JobRow) : AloofWorker (.worker job.id) (worker env job) := by
  refine ⟨⟨_, rfl⟩, Prog.Every.mono (fun {_ st} h => ?_) (aside_worker job)⟩
  cases st with
  | query k => cases k <;> trivial
  | newUuid => exact h.elim
  | sendEvent event => exact h.elim
  | _ => trivial

/-- The statements of the other requests, and of the workers they start, are aloof. -/
theorem aloof_handle (hq : q.NotCreate) : (handle env n q).run.Starts Stmt.Aloof AloofWorker := by
  have hout : ∀ {β : Type} {st : Stmt β}, st.Outside q → st.Aloof := by
    intro β st hst
    have hcreate : ¬ ∃ user input, q = .createEvent user input := by
      rintro ⟨user, input, rfl⟩
      exact hq
    cases st with
    | newUuid => exact hcreate hst
    | sendEvent event => exact hcreate hst
    | query k =>
        cases k with
        | insertEvent id owner document => exact hcreate hst
        | _ => trivial
    | _ => trivial
  refine sequential_starts.handle q ⟨fun hst => ?_, fun hst => ?_⟩ (fun stateHash => ?_)
    (fun user eventId key targets => ?_) fun job => ?_
  · exact Prog.Starts.of_every (Only.stmt (hout hst))
  · exact Prog.Starts.of_every (Only.attempt (hout hst))
  · exact Prog.Starts.of_every (only_consumeOauthSession _ trivial trivial trivial trivial)
  · exact Prog.Starts.of_every (only_enqueue targets trivial trivial trivial (fun _ => trivial)
      (fun _ _ _ _ => trivial) trivial trivial)
  · exact ⟨aloof_worker job, trivial⟩

/-! ## The programs -/

/-- The end of `create`. -/
def announcing (event : EventDraft) : Api Response := do
  Tries.stmt (.sendEvent event)
  pure (.event 201 event)

/-- The end of `create` once the id is drawn. -/
def storingEvent (env : Deployment) (event : EventDraft) : Api Response := do
  Store.createEvent env event
  announcing event

/-- The event that a user creates. -/
def draft (user : Uuid) (input : CreateEventInput) (id : Uuid) : EventDraft where
  id := id
  ownerId := user
  title := input.title
  summary := input.summary
  descriptionHtml := input.descriptionHtml
  startsAt := input.startsAt
  endsAt := input.endsAt
  timezone := input.timezone
  canonicalUrl := input.canonicalUrl
  onlineUrl := input.onlineUrl
  venue := input.venue
  tags := input.tags
  metadata := input.metadata

/-- The reply of a handler. -/
def replying (body : Api Response) : Prog Stmt Role Outcome Outcome :=
  body.run.bind fun r => .pure (.reply r)

/-- The forms of the program of `create`. -/
inductive Creating (env : Deployment) (user : Uuid) (input : CreateEventInput) :
    Prog Stmt Role Outcome Outcome → Prop
  | drawing : Creating env user input (replying (Events.create env user input))
  | inserting {event : EventDraft} {document : Value} (h : env.eventToValue event = .ok document) :
      Creating env user input (replying do
        Api.query (.insertEvent event.id event.ownerId document)
        announcing event)
  | announcing (event : EventDraft) : Creating env user input (replying (announcing event))
  | created (event : EventDraft) : Creating env user input (.pure (.reply (.ok (.event 201 event))))
  | failed (e : ApiError) : Creating env user input (.pure (.reply (.error e)))

/-- A request to create an event is in one of its forms; all other programs are aloof. -/
def OrderlyProg (env : Deployment) : Role → Prog Stmt Role Outcome Outcome → Prop
  | .request _ (.createEvent user input), prog => Creating env user input prog
  | _, prog => prog.Starts Stmt.Aloof AloofWorker

/-! ## The balances -/

/-- The ids of the stored events. -/
def World.eventIds (w : World) : Multiset Uuid := ↑(w.events.map (·.id))

/-- The id that was drawn for the event that a program is about to store. -/
def drawnId : Prog Stmt Role Outcome Outcome → Multiset Uuid
  | .step (.query (.insertEvent id _ _)) _ => {id}
  | _ => 0

/-- The stored events. -/
def World.stored (w : World) : Multiset (Uuid × Uuid × Except String Value) :=
  ↑(w.events.map EventRow.entry)

/-- The announced events. -/
def World.announced (env : Deployment) (w : World) :
    Multiset (Uuid × Uuid × Except String Value) :=
  ↑(w.eventChannel.map (EventDraft.entry env))

/-- The event that a program is about to announce. -/
def owed (env : Deployment) :
    Prog Stmt Role Outcome Outcome → Multiset (Uuid × Uuid × Except String Value)
  | .step (.sendEvent event) _ => {event.entry env}
  | _ => 0

/-- What a step of a program does to both balances: an id is drawn before it is stored, and
what is stored is announced next. -/
structure Balances (env : Deployment) (w w' : World) (prog prog' : Prog Stmt Role Outcome Outcome) :
    Prop where
  ids : w'.eventIds + drawnId prog' + ↑w.drawn ≤ w.eventIds + drawnId prog + ↑w'.drawn
  entries : w'.announced env + owed env prog' + w.stored =
    w.announced env + owed env prog + w'.stored

/-- A program that keeps aloof has drawn no id and owes no announcement. -/
theorem aloof_balance (env : Deployment) {C : Role → Prog Stmt Role Outcome Outcome → Prop}
    {prog : Prog Stmt Role Outcome Outcome} (h : prog.Starts Stmt.Aloof C) :
    drawnId prog = 0 ∧ owed env prog = 0 := by
  cases prog with
  | pure a => exact ⟨rfl, rfl⟩
  | fork r child k => exact ⟨rfl, rfl⟩
  | step st k =>
      have hst : st.Aloof := h.1
      cases st with
      | query q =>
          cases q with
          | insertEvent id owner document => exact hst.elim
          | _ => exact ⟨rfl, rfl⟩
      | sendEvent event => exact hst.elim
      | _ => exact ⟨rfl, rfl⟩

/-- A statement that keeps aloof moves neither side of the balance. -/
theorem Stmt.Aloof.balances {C : Role → Prog Stmt Role Outcome Outcome → Prop} {st : Stmt β}
    {k : β → Prog Stmt Role Outcome Outcome} {b : β} (h : (Prog.step st k).Starts Stmt.Aloof C)
    (hexec : st.exec x w = some (b, w')) : Balances env w w' (.step st k) (k b) := by
  obtain ⟨hevents, hchannel⟩ := Stmt.Aloof.exec h.1 hexec
  obtain ⟨hid, howed⟩ := aloof_balance env h
  obtain ⟨hid', howed'⟩ := aloof_balance env (h.2 b)
  constructor
  · rw [hid, hid', World.eventIds, World.eventIds, hevents]
    gcongr
    rcases Stmt.exec_fresh hexec with heq | ⟨-, heq⟩
    · rw [heq]
    · rw [heq]
      exact Multiset.le_cons_self _ _
  · rw [howed, howed', World.announced, World.announced, World.stored, World.stored, hevents,
      hchannel]

theorem eventIds_append (e : EventRow) :
    ({ w with events := w.events ++ [e] } : World).eventIds = w.eventIds + {e.id} := by
  show (↑((w.events ++ [e]).map (·.id)) : Multiset Uuid) = _
  rw [List.map_append, ← Multiset.coe_add]
  rfl

theorem stored_append (e : EventRow) :
    ({ w with events := w.events ++ [e] } : World).stored = w.stored + {e.entry} := by
  show (↑((w.events ++ [e]).map EventRow.entry) : Multiset (Uuid × Uuid × Except String Value)) = _
  rw [List.map_append, ← Multiset.coe_add]
  rfl

/-- An announcement goes to the end of the channel of events. -/
theorem eventChannel_announced (event : EventDraft) :
    (w.log (.announced event)).eventChannel = w.eventChannel ++ [event] := by
  show (w.trace ++ [Effect.announced event]).filterMap Effect.event? = _
  rw [List.filterMap_append]
  rfl

theorem announced_log (event : EventDraft) :
    (w.log (.announced event)).announced env = w.announced env + {event.entry env} := by
  rw [World.announced, eventChannel_announced, List.map_append, ← Multiset.coe_add]
  rfl

/-- After the id is drawn, the event is stored next if it is stored at all. -/
theorem creating_storingEvent (user : Uuid) (input : CreateEventInput) (event : EventDraft) :
    Creating env user input (replying (storingEvent env event)) ∧
      drawnId (replying (storingEvent env event)) ≤ {event.id} ∧
        owed env (replying (storingEvent env event)) = 0 ∧
          ∀ r, replying (storingEvent env event) ≠ .pure (.reply (.ok r)) := by
  rw [storingEvent, Store.createEvent]
  cases env.validateEvent event with
  | error e => exact ⟨.failed _, Multiset.zero_le _, rfl, nofun⟩
  | ok _ =>
      cases hdocument : env.eventToValue event with
      | error e => exact ⟨.failed _, Multiset.zero_le _, rfl, nofun⟩
      | ok document => exact ⟨.inserting hdocument, le_refl _, rfl, nofun⟩

/-- A statement of `create` keeps the balances. -/
theorem Creating.balances {input : CreateEventInput} {st : Stmt β}
    {k : β → Prog Stmt Role Outcome Outcome} {b : β} (h : Creating env user input (.step st k))
    (hexec : st.exec x w = some (b, w')) :
    Creating env user input (k b) ∧ Balances env w w' (.step st k) (k b) ∧
      ∀ r, k b = .pure (.reply (.ok r)) → ∃ e, r = .event 201 e ∧ e ∈ w'.eventChannel := by
  generalize hprog : Prog.step st k = prog at h
  cases h with
  | drawing =>
      obtain ⟨rfl, hst, hk⟩ := Prog.step.inj hprog
      obtain rfl := eq_of_heq hst
      obtain rfl := eq_of_heq hk
      obtain ⟨-, rfl, rfl⟩ := Stmt.exec_newUuid hexec
      obtain ⟨hcreating, hid, howed, hreply⟩ := creating_storingEvent user input
        (draft user input x.uuid)
      refine ⟨hcreating, ⟨?_, ?_⟩, fun r hr => absurd hr (hreply r)⟩
      · show w.eventIds + drawnId (replying (storingEvent env _)) + ↑w.drawn ≤
          w.eventIds + 0 + (x.uuid ::ₘ ↑w.drawn)
        rw [← Multiset.singleton_add, add_zero, ← add_assoc]
        gcongr
        exact hid
      · show _ + owed env (replying (storingEvent env (draft user input x.uuid))) + _ = _
        rw [howed]
        rfl
  | @inserting event document hdocument =>
      obtain ⟨rfl, hst, hk⟩ := Prog.step.inj hprog
      obtain rfl := eq_of_heq hst
      obtain rfl := eq_of_heq hk
      rcases Stmt.exec_query hexec with ⟨text, -, rfl, rfl⟩ | ⟨-, hexec⟩
      · -- the statement has failed, and nothing is announced
        refine ⟨.failed _, ⟨?_, rfl⟩, nofun⟩
        show World.eventIds _ + 0 + _ ≤ _
        gcongr
        exact Multiset.zero_le _
      · obtain ⟨rfl, rfl⟩ := Prod.mk.inj (Option.some.inj hexec)
        refine ⟨.announcing _, ⟨?_, ?_⟩, nofun⟩
        · rw [eventIds_append]
          show w.eventIds + {event.id} + 0 + _ ≤ w.eventIds + {event.id} + _
          rw [add_zero]
        · have hentry : event.entry env = (event.id, event.ownerId, .ok document) := by
            rw [EventDraft.entry, hdocument]
          rw [stored_append]
          show w.announced env + {event.entry env} + w.stored =
            w.announced env + 0 + (w.stored + {(event.id, event.ownerId, .ok document)})
          rw [hentry]
          abel
  | announcing event =>
      obtain ⟨rfl, hst, hk⟩ := Prog.step.inj hprog
      obtain rfl := eq_of_heq hst
      obtain rfl := eq_of_heq hk
      obtain ⟨rfl, rfl⟩ := Prod.mk.inj (Option.some.inj hexec)
      refine ⟨.created _, ⟨le_refl _, ?_⟩, fun r hr => ⟨event, ?_, ?_⟩⟩
      · rw [announced_log]
        show w.announced env + {event.entry env} + 0 + w.stored =
          w.announced env + {event.entry env} + w.stored
        rw [add_zero]
      · exact (Except.ok.inj (Outcome.reply.inj (Prog.pure.inj hr))).symm
      · rw [eventChannel_announced]
        exact List.mem_append_right _ List.mem_cons_self
  | created event => cases hprog
  | failed e => cases hprog

/-! ## Runs -/

/-- A statement of an orderly program moves the balance from what is owed to what is
announced or stored. -/
theorem OrderlyProg.step {r : Role} {st : Stmt β} {k : β → Prog Stmt Role Outcome Outcome} {b : β}
    (h : OrderlyProg env r (.step st k)) (hexec : st.exec x w = some (b, w')) :
    OrderlyProg env r (k b) ∧ Balances env w w' (.step st k) (k b) := by
  have haloof : (Prog.step st k).Starts Stmt.Aloof AloofWorker →
      (k b).Starts Stmt.Aloof AloofWorker ∧ Balances env w w' (.step st k) (k b) :=
    fun h => ⟨h.2 b, Stmt.Aloof.balances h hexec⟩
  cases r with
  | worker j => exact haloof h
  | request n q =>
      cases q with
      | createEvent user input =>
          obtain ⟨hcreating, hbalances, -⟩ := Creating.balances h hexec
          exact ⟨hcreating, hbalances⟩
      | _ => exact haloof h

/-- The program of `create` starts no other one. -/
theorem Creating.not_fork {input : CreateEventInput} {r : Role}
    {child k : Prog Stmt Role Outcome Outcome} : ¬ Creating env user input (.fork r child k) := by
  intro h
  generalize hprog : Prog.fork r child k = prog at h
  cases h <;> cases hprog

theorem OrderlyProg.fork {r r' : Role} {child k : Prog Stmt Role Outcome Outcome}
    (h : OrderlyProg env r (.fork r' child k)) :
    (Prog.fork r' child k).Starts Stmt.Aloof AloofWorker ∧ OrderlyProg env r k ∧
      OrderlyProg env r' child := by
  have haloof : (Prog.fork r' child k).Starts Stmt.Aloof AloofWorker →
      OrderlyProg env r' child := by
    rintro ⟨⟨⟨j, rfl⟩, hchild⟩, -⟩
    exact Prog.Starts.of_every hchild
  cases r with
  | worker j => exact ⟨h, h.2, haloof h⟩
  | request n q =>
      cases q with
      | createEvent user input =>
          exact (Creating.not_fork h).elim
      | _ => exact ⟨h, h.2, haloof h⟩

theorem aloof_respond (hq : q.NotCreate) :
    (respond env n q).Starts Stmt.Aloof AloofWorker :=
  Prog.Starts.bind (aloof_handle hq) fun _ => trivial

/-- The program of a request is orderly: `events::create` in its order, all others aloof. -/
theorem orderly_respond (n : ℕ) (q : Request) :
    OrderlyProg env (.request n q) (respond env n q) := by
  cases q with
  | createEvent user input => exact .drawing
  | _ => exact aloof_respond trivial

/-- A request that arrives is not about to do anything with an event. -/
theorem respond_balance (env : Deployment) (n : ℕ) (q : Request) :
    drawnId (respond env n q) = 0 ∧ owed env (respond env n q) = 0 := by
  cases q with
  | createEvent user input => exact ⟨rfl, rfl⟩
  | _ => exact aloof_balance env (aloof_respond trivial)

theorem upheld_orderly (env : Deployment) :
    Upheld (service env) fun _ t => OrderlyProg env t.role t.prog where
  step h hexec := (OrderlyProg.step h hexec).1
  fork h := (OrderlyProg.fork h).2
  arrival q _ := orderly_respond _ q
  exec _ h := h
  enter h := h

/-- No program that has started another one, and none that was started, has to do with events. -/
theorem OrderlyProg.fork_balance {r r' : Role} {child k : Prog Stmt Role Outcome Outcome}
    (h : OrderlyProg env r (.fork r' child k)) :
    drawnId child + drawnId k = 0 ∧ owed env child + owed env k = 0 := by
  obtain ⟨hfork, -, -⟩ := OrderlyProg.fork h
  obtain ⟨hid, howed⟩ := aloof_balance env hfork.2
  have hchild : child.Starts Stmt.Aloof AloofWorker := Prog.Starts.of_every hfork.1.2
  obtain ⟨hid', howed'⟩ := aloof_balance env hchild
  rw [hid, hid', howed, howed']
  exact ⟨add_zero _, add_zero _⟩

/-- **Conservation:** what is announced and what is still owed make up what is stored. -/
theorem conserved_announced (env : Deployment) :
    Conserved (service env) (fun t => OrderlyProg env t.role t.prog) (World.announced env)
      World.stored fun t => owed env t.prog where
  step h hexec := (OrderlyProg.step h hexec).2.entries
  fork {r r' child k s} h := by
    show _ + (owed env child + owed env k) + _ = _
    rw [(OrderlyProg.fork_balance h).2]
    cases r' <;> rfl
  arrival q w := by
    show World.announced env w + owed env (respond env _ q) + _ = _
    rw [(respond_balance env _ q).2, add_zero]
    rfl

/-- The ids of the events and those that are still to be stored are among the ids that were
drawn. -/
theorem budgeted_ids (env : Deployment) :
    Budgeted (service env) (fun t => OrderlyProg env t.role t.prog) World.eventIds
      (fun w => ↑w.drawn) fun t => drawnId t.prog where
  step h hexec := (OrderlyProg.step h hexec).2.ids
  fork {r r' child k s} h := by
    show _ + (drawnId child + drawnId k) + _ ≤ _
    rw [(OrderlyProg.fork_balance h).1]
    cases r' <;> exact le_refl _
  arrival q w := by
    show World.eventIds w + drawnId (respond env _ q) + _ ≤ _
    rw [(respond_balance env _ q).1, add_zero]
    exact le_refl _

theorem Stmt.exec_nodup {st : Stmt β} {b : β} (hexec : st.exec x w = some (b, w'))
    (h : w.drawn.Nodup) : w'.drawn.Nodup := by
  rcases Stmt.exec_fresh hexec with heq | ⟨hnew, heq⟩
  · rwa [heq]
  · rw [heq]
    exact List.nodup_cons.mpr ⟨hnew, h⟩

/-- No id is drawn twice. -/
theorem nodup_drawn (h : Reachable env p) : p.shared.drawn.Nodup := by
  obtain ⟨ls, hrun⟩ := h
  refine Pool.run_rel (T := fun w w' => w.drawn.Nodup → w'.drawn.Nodup) (fun _ h => h)
    (fun h h' hs => h' (h hs)) (fun st x w b w' hexec => Stmt.exec_nodup hexec) (fun r w hw => ?_)
    hrun List.nodup_nil
  cases r <;> exact hw

/-- The events on the channel are the stored ones, but for those that a request is about to
announce. -/
theorem announced_add_owed (h : Reachable env p) :
    p.shared.announced env + p.held (fun t => owed env t.prog) = p.shared.stored := by
  obtain ⟨ls, hrun⟩ := h
  exact (conserved_announced env).run (upheld_orderly env) (by simp [idleService]) rfl hrun

/-- No two events have the same id. -/
theorem nodup_eventIds (h : Reachable env p) : p.shared.eventIds.Nodup := by
  have hdrawn := nodup_drawn h
  obtain ⟨ls, hrun⟩ := h
  have hle := (budgeted_ids env).run (upheld_orderly env) (by simp [idleService]) (le_refl _) hrun
  exact Multiset.nodup_of_le ((Multiset.le_add_right _ _).trans hle) (Multiset.coe_nodup.mpr hdrawn)

/-! ## The channel in every run -/

/-- A statement only adds to the channel. -/
theorem Stmt.exec_eventChannel {st : Stmt β} {b : β} (hexec : st.exec x w = some (b, w')) :
    w.eventChannel <+: w'.eventChannel := by
  by_cases hst : st.Aloof
  · exact (hst.exec hexec).2 ▸ List.prefix_refl _
  · cases st with
    | query q =>
        rcases Stmt.exec_query hexec with ⟨text, -, -, rfl⟩ | ⟨-, hexec⟩
        · exact List.prefix_refl _
        · cases q with
          | insertEvent id owner document =>
              obtain ⟨-, rfl⟩ := Prod.mk.inj (Option.some.inj hexec)
              exact List.prefix_refl _
          | _ => exact absurd trivial hst
    | newUuid =>
        obtain ⟨-, -, rfl⟩ := Stmt.exec_newUuid hexec
        exact List.prefix_refl _
    | sendEvent event =>
        obtain ⟨-, rfl⟩ := Prod.mk.inj (Option.some.inj hexec)
        exact ⟨[event], (eventChannel_announced event).symm⟩
    | _ => exact absurd trivial hst

theorem eventChannel_enter (r : Role) : (World.enter r w).eventChannel = w.eventChannel := by
  cases r <;> rfl

/-- A request to create an event that has ended well has announced the event of its reply. -/
def EventAnnounced (w : World) (t : Thread Stmt Role Outcome) : Prop :=
  ∀ n user input r, t = ⟨.request n (.createEvent user input), .pure (.reply (.ok r))⟩ →
    ∃ e, r = .event 201 e ∧ e ∈ w.eventChannel

theorem upheld_announced (env : Deployment) :
    Upheld (service env) fun w t => OrderlyProg env t.role t.prog ∧ EventAnnounced w t where
  step {_ r st k x w b w'} h hexec := by
    refine ⟨(upheld_orderly env).step h.1 hexec, fun n user input reply ht => ?_⟩
    obtain ⟨rfl, hk⟩ := Thread.mk.inj ht
    exact (Creating.balances h.1 hexec).2.2 reply hk
  fork {r r' child k w} h := by
    obtain ⟨hk, hchild⟩ := (upheld_orderly env).fork h.1 (s := w)
    obtain ⟨⟨⟨j, rfl⟩, -⟩, -⟩ := (OrderlyProg.fork h.1).1
    refine ⟨⟨hk, fun n user input reply ht => ?_⟩, hchild, fun n user input reply ht => ?_⟩
    · obtain ⟨rfl, -⟩ := Thread.mk.inj ht
      exact (Creating.not_fork h.1).elim
    · cases (Thread.mk.inj ht).1
  arrival q w := by
    refine ⟨orderly_respond _ q, fun n user input reply ht => ?_⟩
    obtain ⟨hrole, hprog⟩ := Thread.mk.inj ht
    obtain ⟨-, rfl⟩ := Role.request.inj hrole
    cases hprog
  exec hexec h := by
    refine ⟨h.1, fun n user input reply ht => ?_⟩
    obtain ⟨e, rfl, he⟩ := h.2 n user input reply ht
    exact ⟨e, rfl, (Stmt.exec_eventChannel hexec).subset he⟩
  enter {r w t} h := by
    refine ⟨h.1, fun n user input reply ht => ?_⟩
    obtain ⟨e, rfl, he⟩ := h.2 n user input reply ht
    exact ⟨e, rfl, (eventChannel_enter r).symm ▸ he⟩

/-- The program is about to announce an event. -/
def AboutToAnnounce (prog : Prog Stmt Role Outcome Outcome) : Prop :=
  ∃ event k, prog = .step (.sendEvent event) k

theorem owed_eq_zero {prog : Prog Stmt Role Outcome Outcome} (h : ¬ AboutToAnnounce prog) :
    owed env prog = 0 := by
  cases prog with
  | step st k =>
      cases st with
      | sendEvent event => exact absurd ⟨event, k, rfl⟩ h
      | _ => rfl
  | _ => rfl

/-- An event on the channel is stored as it was announced. -/
theorem exists_row_of_announced (h : Reachable env p) {e : EventDraft}
    (he : e ∈ p.shared.eventChannel) :
    ∃ row ∈ p.shared.events, row.id = e.id ∧ row.ownerId = e.ownerId ∧
      env.eventToValue e = .ok row.document := by
  have hentry : e.entry env ∈ p.shared.announced env :=
    Multiset.mem_coe.mpr (List.mem_map_of_mem he)
  have hle := announced_add_owed h ▸ Multiset.le_add_right (p.shared.announced env) _
  obtain ⟨row, hrow, heq⟩ := List.mem_map.mp (Multiset.mem_coe.mp (Multiset.mem_of_le hle hentry))
  obtain ⟨hid, hrest⟩ := Prod.mk.inj heq
  obtain ⟨howner, hdocument⟩ := Prod.mk.inj hrest
  exact ⟨row, hrow, hid, howner, hdocument.symm⟩

/-- Every event is announced once: the channel holds stored events, no two with the same id, and
the event of every good reply; it holds all the stored events when none is about to be sent. -/
theorem events_announced_once (h : Reachable env p) :
    (p.shared.eventChannel.map (·.id)).Nodup ∧
      (∀ e ∈ p.shared.eventChannel, ∃ row ∈ p.shared.events, row.id = e.id ∧
        row.ownerId = e.ownerId ∧ env.eventToValue e = .ok row.document) ∧
      (∀ n user input r,
        ⟨.request n (.createEvent user input), .pure (.reply (.ok r))⟩ ∈ p.threads →
          ∃ e, r = .event 201 e ∧ e ∈ p.shared.eventChannel) ∧
      ((∀ t ∈ p.threads, ¬ AboutToAnnounce t.prog) →
        ∀ row ∈ p.shared.events, ∃ e ∈ p.shared.eventChannel, e.id = row.id) := by
  have hbalance := announced_add_owed h
  refine ⟨?_, fun e he => exists_row_of_announced h he, fun n user input r ht => ?_,
    fun hnone row hrow => ?_⟩
  · have hle : p.shared.announced env ≤ p.shared.stored :=
      hbalance ▸ Multiset.le_add_right _ _
    have hids := Multiset.map_le_map (f := Prod.fst) hle
    rw [World.announced, World.stored, Multiset.map_coe, Multiset.map_coe, List.map_map,
      List.map_map] at hids
    exact Multiset.coe_nodup.mp (Multiset.nodup_of_le hids (nodup_eventIds h))
  · obtain ⟨ls, hrun⟩ := h
    exact ((upheld_announced env).run (by simp [idleService]) hrun _ ht).2 n user input r rfl
  · have hheld : p.held (fun t => owed env t.prog) = 0 := by
      refine List.sum_eq_zero fun m hm => ?_
      obtain ⟨t, ht, rfl⟩ := List.mem_map.mp hm
      exact owed_eq_zero (hnone t ht)
    rw [hheld, add_zero] at hbalance
    have hentry : row.entry ∈ p.shared.stored := Multiset.mem_coe.mpr (List.mem_map_of_mem hrow)
    rw [← hbalance] at hentry
    obtain ⟨e, he, heq⟩ := List.mem_map.mp (Multiset.mem_coe.mp hentry)
    exact ⟨e, he, (Prod.mk.inj heq).1⟩

/-- User 1 creates two events. -/
theorem events_announced_once_sample :
    ∃ p, idleService.run (service Sample.deployment) Sample.connect = some p ∧
      p.shared.eventChannel.map (·.id) = [20, 21] ∧ (p.shared.eventChannel.map (·.id)).Nodup ∧
        ∀ e ∈ p.shared.eventChannel, ∃ row ∈ p.shared.events, row.id = e.id ∧
          row.ownerId = e.ownerId ∧ Sample.deployment.eventToValue e = .ok row.document := by
  have hrun : ((idleService.run (service Sample.deployment) Sample.connect).map fun p =>
      p.shared.eventChannel.map (·.id)) = some [20, 21] := by decide +kernel
  obtain ⟨p, hp, hids⟩ := Option.map_eq_some_iff.mp hrun
  obtain ⟨hnodup, hstored, -⟩ := events_announced_once ⟨_, hp⟩
  exact ⟨p, hp, hids, hnodup, hstored⟩

end Service
