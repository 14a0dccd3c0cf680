/-
# What a reply has reported is found

An event is stored before `events::create` replies, and the transaction of a job is committed
before `events::cross_post` does.

* `spans_create`, `spans_getEvent` and `spans_listEvents` say what the replies about events are.
* `later_requests_find`: what a reply has reported as stored is found by the requests that arrive
  after it.
-/
import EvglApi.Fallible
import EvglApi.Replies
import EvglApi.ReplyBelongs

open Concurrency Mvcc

namespace Service

variable {env : Deployment} {p p' : Pool Stmt Role Outcome World} {w w' : World} {user : Uuid}
  {i n : ℕ} {r : Except ApiError Response}

/-! ## Events -/

/-- An event is stored under its id. -/
def StoredEvent (w : World) (id owner : Uuid) (document : Value) : Prop :=
  ∃ row ∈ w.events, row.id = id ∧ row.ownerId = owner ∧ row.document = document

theorem Advances.storedEvent {id owner : Uuid} {document : Value} (h : Advances env w w')
    (hrow : StoredEvent w id owner document) : StoredEvent w' id owner document := by
  obtain ⟨row, hmem, hrow⟩ := hrow
  exact ⟨row, h.events.subset hmem, hrow⟩

/-- An event is found under its id. -/
theorem StoredEvent.found {id owner : Uuid} {document : Value} (h : StoredEvent w id owner document)
    (hids : w.eventIds.Nodup) :
    (w.events.find? fun e => e.id = id ∧ e.ownerId = owner).map (·.document) = some document := by
  obtain ⟨row, hrow, rfl, rfl, rfl⟩ := h
  cases hfind : w.events.find? fun e => e.id = row.id ∧ e.ownerId = row.ownerId with
  | none => exact absurd (decide_eq_true ⟨rfl, rfl⟩) (List.find?_eq_none.mp hfind row hrow)
  | some found =>
      have hown := List.find?_some hfind
      obtain ⟨hid, -⟩ := of_decide_eq_true hown
      have hnodup : (w.events.map fun e => e.id).Nodup := Multiset.coe_nodup.mp hids
      rw [List.inj_on_of_nodup_map hnodup (List.mem_of_find?_eq_some hfind) hrow hid]
      rfl

/-- A good reply to `events::create` is about an event that is stored. -/
theorem spans_create {input : CreateEventInput} {reply : Response}
    (h : Spans (service env) (Advances env) (respond env n (.createEvent user input)) w
      (.reply (.ok reply)) w') :
    ∃ id document, reply = .event 201 (draft user input id) ∧
      env.eventToValue (draft user input id) = .ok document ∧ StoredEvent w' id user document := by
  obtain ⟨t, x, id, t', -, -, hrest⟩ := Spans.step_inv h
  have hrest : Spans (service env) (Advances env)
    (replying (storingEvent env (draft user input id))) t' (.reply (.ok reply)) w' := hrest
  rw [storingEvent, Store.createEvent] at hrest
  cases hvalid : env.validateEvent (draft user input id) with
  | error e =>
      rw [hvalid] at hrest
      cases (Spans.pure_inv hrest).1
  | ok _ =>
      cases hdocument : env.eventToValue (draft user input id) with
      | error e =>
          rw [hvalid, hdocument] at hrest
          cases (Spans.pure_inv hrest).1
      | ok document =>
          rw [hvalid, hdocument] at hrest
          obtain ⟨s, x', answer, s', -, hexec, hsend⟩ := Spans.step_inv hrest
          have hexec : Stmt.exec (.query (.insertEvent id user document)) x' s =
            some (answer, s') := hexec
          obtain ⟨text, -, rfl, -⟩ | ⟨-, hexec⟩ := Stmt.exec_query hexec
          · cases (Spans.pure_inv hsend).1
          · obtain ⟨rfl, rfl⟩ := Prod.mk.inj (Option.some.inj hexec)
            obtain ⟨u, x'', answer', u', hu, hexec', hend⟩ := Spans.step_inv hsend
            have hexec' : Stmt.exec (.sendEvent (draft user input id)) x'' u = some (answer', u') :=
              hexec'
            obtain ⟨-, rfl⟩ := Prod.mk.inj (Option.some.inj hexec')
            obtain ⟨ha, rfl⟩ := Spans.pure_inv hend
            refine ⟨id, document, Except.ok.inj (Outcome.reply.inj ha), hdocument, ?_⟩
            have hrow : StoredEvent u id user document :=
              hu.storedEvent
                ⟨_, List.mem_append_right _ (List.mem_singleton.mpr rfl), rfl, rfl, rfl⟩
            exact hrow

/-- A reply to `events::get` is read at one moment. -/
theorem spans_getEvent {id : Uuid}
    (h : Spans (service env) (Advances env) (respond env n (.getEvent user id)) w (.reply r) w') :
    (∃ text, r = .error (.ofDb (.failure text))) ∨ ∃ t, Advances env w t ∧
      ((t.events.find? fun e => e.id = id ∧ e.ownerId = user).map (·.document) = none ∨
        ∃ document, (t.events.find? fun e => e.id = id ∧ e.ownerId = user).map (·.document) =
          some document ∧ r = (readEvent env document).map (.event 200)) := by
  obtain ⟨t, x, found, t', ht, hexec, hrest⟩ := Spans.step_inv h
  have hexec : Stmt.exec (.query (.selectEventDocument id user)) x t = some (found, t') := hexec
  obtain ⟨text, -, rfl, rfl⟩ | ⟨-, hexec⟩ := Stmt.exec_query hexec
  · obtain ⟨ha, -⟩ := Spans.pure_inv hrest
    exact Or.inl ⟨text, Outcome.reply.inj ha⟩
  · obtain ⟨rfl, rfl⟩ := Prod.mk.inj (Option.some.inj hexec)
    refine Or.inr ⟨t, ht, ?_⟩
    cases hfind : (t.events.find? fun e => e.id = id ∧ e.ownerId = user).map (·.document) with
    | none => exact Or.inl rfl
    | some document =>
        rw [hfind] at hrest
        refine Or.inr ⟨document, rfl, ?_⟩
        have hrest : Spans (service env) (Advances env) (replying do
            let event ← Tries.result (readEvent env document)
            pure (.event 200 event)) t (.reply r) w' := hrest
        cases hread : readEvent env document with
        | error e =>
            rw [hread] at hrest
            exact Outcome.reply.inj (Spans.pure_inv hrest).1
        | ok event =>
            rw [hread] at hrest
            exact Outcome.reply.inj (Spans.pure_inv hrest).1

/-- A reply to `events::list` is read at one moment. -/
theorem spans_listEvents
    (h : Spans (service env) (Advances env) (respond env n (.listEvents user)) w (.reply r) w') :
    (∃ text, r = .error (.ofDb (.failure text))) ∨ ∃ t, Advances env w t ∧
      ∃ rows, Arranged EventRow.le (t.events.filter (·.ownerId = user)) rows ∧
        r = listedEvents env rows := by
  obtain ⟨t, x, found, t', ht, hexec, hrest⟩ := Spans.step_inv h
  have hexec : Stmt.exec (.query (.selectEventDocuments user)) x t = some (found, t') := hexec
  obtain ⟨text, -, rfl, rfl⟩ | ⟨-, hexec⟩ := Stmt.exec_query hexec
  · obtain ⟨ha, -⟩ := Spans.pure_inv hrest
    exact Or.inl ⟨text, Outcome.reply.inj ha⟩
  · obtain ⟨rfl, rfl⟩ := Prod.mk.inj (Option.some.inj hexec)
    refine Or.inr ⟨t, ht, _, arranged_orderBy (fun e => x.ties e.id) _, ?_⟩
    rw [listedEvents]
    generalize ((orderBy EventRow.le (fun e => x.ties e.id)
        (t.events.filter (·.ownerId = user))).take 100).map (·.document) = documents at hrest ⊢
    have hrest : Spans (service env) (Advances env) (replying do
        let events ← Tries.result (documents.mapM (readEvent env))
        pure (.events events)) t (.reply r) w' := hrest
    cases hread : documents.mapM (readEvent env) with
    | error e =>
        rw [hread] at hrest
        exact Outcome.reply.inj (Spans.pure_inv hrest).1
    | ok events =>
        rw [hread] at hrest
        exact Outcome.reply.inj (Spans.pure_inv hrest).1

/-! ## Later requests -/

/-- The newest events of a user are all of them, or a hundred. -/
theorem mem_of_take {rows : List EventRow} {row : EventRow} (hmem : row ∈ rows) (k : ℕ) :
    (rows.take k).length = k ∨ row ∈ rows.take k := by
  by_cases hlen : rows.length ≤ k
  · exact Or.inr (by rwa [List.take_of_length_le hlen])
  · exact Or.inl (by rw [List.length_take]; omega)

/-- An event whose document is `document` is found by the requests of `p'` at position `i`: they
fail only as the database does, or because the event, or another one of the list, cannot be read. -/
structure EventFound (env : Deployment) (p' : Pool Stmt Role Outcome World) (i : ℕ) (user id : Uuid)
    (document : Value) : Prop where
  get : ∀ n r, p'.threads[i]? = some ⟨.request n (.getEvent user id), .pure (.reply r)⟩ →
    (∃ text, r = .error (.ofDb (.failure text))) ∨ r = (readEvent env document).map (.event 200)
  list : ∀ n r, p'.threads[i]? = some ⟨.request n (.listEvents user), .pure (.reply r)⟩ →
    (∃ cause, r = .error (.internal cause)) ∨ ∃ events, r = .ok (.events events) ∧
      (events.length = 100 ∨ ∃ e ∈ events, env.eventFromValue document = .ok e)

theorem eventFound_of_storedEvent (h : Reachable env p)
    (hreach : Pool.Reaches (service env) p p') (hi : p.threads.length ≤ i) {id : Uuid}
    {document : Value} (hstored : StoredEvent p.shared id user document) :
    EventFound env p' i user id document where
  get n r ht' := by
    obtain ⟨u, hspans, -⟩ := spans_of_answered h hreach hi ht'
    obtain htext | ⟨t, ht, hfound⟩ := spans_getEvent hspans
    · exact Or.inl htext
    · have hfind := (ht.storedEvent hstored).found ht.eventIds
      obtain hnone | ⟨document', hsome, rfl⟩ := hfound
      · cases hfind.symm.trans hnone
      · obtain rfl := Option.some.inj (hfind.symm.trans hsome)
        exact Or.inr rfl
  list n r ht' := by
    obtain ⟨u, hspans, -⟩ := spans_of_answered h hreach hi ht'
    obtain ⟨text, rfl⟩ | ⟨t, ht, rows, harranged, rfl⟩ := spans_listEvents hspans
    · exact Or.inl ⟨_, rfl⟩
    · obtain ⟨row, hrow, -, howner, rfl⟩ := ht.storedEvent hstored
      have hown : row ∈ t.events.filter (·.ownerId = user) :=
        List.mem_filter.mpr ⟨hrow, decide_eq_true howner⟩
      have hlist := mem_of_take (harranged.perm.mem_iff.mpr hown) 100
      rw [listedEvents]
      generalize rows.take 100 = rows at hlist ⊢
      cases hread : (rows.map (·.document)).mapM (readEvent env) with
      | error e =>
          obtain ⟨document, -, he⟩ := Fallible.exists_of_mapM_error hread
          obtain ⟨text, -, rfl⟩ := Fallible.mapError_eq_error.mp he
          exact Or.inl ⟨_, rfl⟩
      | ok events =>
          refine Or.inr ⟨events, rfl, hlist.imp (fun hlen => ?_) fun hmem => ?_⟩
          · rw [← (Fallible.forall₂_of_mapM hread).length_eq, List.length_map, hlen]
          · have hdocument := List.mem_map_of_mem (f := fun e => e.document) hmem
            obtain ⟨e, he, hrow⟩ := Fallible.exists_of_mapM_ok hread hdocument
            exact ⟨e, he, Fallible.mapError_eq_ok.mp hrow⟩

/-- A stored job is found by its user. -/
theorem jobFound_of_stored (h : Reachable env p) (hreach : Pool.Reaches (service env) p p')
    (hi : p.threads.length ≤ i) {v : Version JobRow} (hv : v ∈ p.shared.jobs)
    (hc : v.committed = true)
    (ht' : p'.threads[i]? =
      some ⟨.request n (.getJob v.row.userId v.row.id), .pure (.reply r)⟩) :
    (∃ text, r = .error (.ofDb (.failure text))) ∨ ∃ job views u, r = .ok (.jobView job views) ∧
      job.toJobFixed = v.row.toJobFixed ∧ ShowsJob env p'.shared u job views := by
  obtain ⟨u, hspans, hu⟩ := spans_of_answered h hreach hi ht'
  obtain ⟨text, ha⟩ | ⟨t, ht, hnone, -⟩ | ⟨t, ht, hlater, v', hv', hc', hid', -, ha⟩ :=
    spans_getJob hspans
  · exact Or.inl ⟨text, Outcome.reply.inj ha⟩
  · obtain ⟨v', hv', hc', hfixed, -⟩ := ht.evolves.jobs v hv hc
    exact absurd ⟨congrArg JobFixed.id hfixed, congrArg JobFixed.userId hfixed⟩ (hnone v' hv' hc')
  · obtain ⟨v'', hv'', -, hfixed, -⟩ := ht.evolves.jobs v hv hc
    have hid : v''.row.id = v.row.id := congrArg JobFixed.id hfixed
    obtain rfl := ht.inv.eq_of_jobId hv'' hv' (hid.trans hid'.symm)
    obtain ⟨-, -, w, hshows⟩ := showsJob_of_spans (ha ▸ hspans) hu
    exact Or.inr ⟨_, _, w, Outcome.reply.inj ha, hfixed, hshows⟩

/-- **Later requests find what a reply has reported.**  A request that arrives after the reply to
`events::create` gets the event; a list of the user's events has it or is full, unless a document
of the user does not read as an event and the list fails; a request that arrives after a reply to
a cross-post request gets the job, with the targets that were asked for. -/
theorem later_requests_find (h : Reachable env p) (hreach : Pool.Reaches (service env) p p')
    (hi : p.threads.length ≤ i) :
    (∀ m input status e,
      ⟨.request m (.createEvent user input), .pure (.reply (.ok (.event status e)))⟩ ∈ p.threads →
        status = 201 ∧ ∃ document, env.eventToValue e = .ok document ∧
          EventFound env p' i user e.id document) ∧
      ∀ eventId key targets job, Replied p user eventId key targets job →
        ∀ n r, p'.threads[i]? = some ⟨.request n (.getJob user job.id), .pure (.reply r)⟩ →
          (∃ text, r = .error (.ofDb (.failure text))) ∨ ∃ job' views v,
            r = .ok (.jobView job' views) ∧ job'.toJobFixed = job.toJobFixed ∧
              ShowsJob env p'.shared v job' views := by
  constructor
  · intro m input status e ht
    obtain ⟨k, hk⟩ := List.getElem?_of_mem ht
    obtain ⟨u, hspans, hu⟩ := spans_of_answered ⟨[], rfl⟩ h (Nat.zero_le k) hk
    obtain ⟨id, document, hreply, hdocument, hstored⟩ := spans_create hspans
    obtain ⟨rfl, rfl⟩ := Response.event.inj hreply
    exact ⟨rfl, document, hdocument,
      eventFound_of_storedEvent h hreach hi (hu.storedEvent hstored)⟩
  · rintro eventId key targets job ⟨k, m, status, hk⟩ n r ht'
    have hreply : JobReply (.crossPost user eventId key targets) (.ok (.job status job)) p.shared :=
      h.poolOk.post hk
    obtain ⟨⟨m', v, hv, hc, -, hfixed⟩, huser, -⟩ := hreply _ _ _ _ _ _ rfl rfl
    have hid : v.row.id = job.id := congrArg JobFixed.id hfixed
    have hown : v.row.userId = user := (congrArg JobFixed.userId hfixed).trans huser
    rw [← hid, ← hown] at ht'
    rw [← hfixed]
    exact jobFound_of_stored h hreach hi hv hc ht'

/-- User 1 creates an event and enqueues a job, and then asks for the job. -/
theorem later_requests_find_sample :
    ∃ p p', idleService.run (service Sample.deployment) (Sample.connect ++ Sample.enqueue) =
        some p ∧
      p.run (service Sample.deployment) (Sample.read 5) = some p' ∧
      (p'.threads[5]?.bind Sample.shown) = some ("queued", [("queued", 0)]) ∧
      (∀ m input status e,
        ⟨.request m (.createEvent 1 input), .pure (.reply (.ok (.event status e)))⟩ ∈ p.threads →
          status = 201 ∧ ∃ document, Sample.deployment.eventToValue e = .ok document ∧
            EventFound Sample.deployment p' 5 1 e.id document) ∧
        ∀ eventId key targets job, Replied p 1 eventId key targets job →
          ∀ n r, p'.threads[5]? = some ⟨.request n (.getJob 1 job.id), .pure (.reply r)⟩ →
            (∃ text, r = .error (.ofDb (.failure text))) ∨ ∃ job' views v,
              r = .ok (.jobView job' views) ∧ job'.toJobFixed = job.toJobFixed ∧
                ShowsJob Sample.deployment p'.shared v job' views := by
  have hrun : ((idleService.run (service Sample.deployment)
      (Sample.connect ++ Sample.enqueue)).bind fun p =>
        (p.run (service Sample.deployment) (Sample.read 5)).map fun p' =>
          (p.threads.length, p'.threads[5]?.bind Sample.shown)) =
            some (5, some ("queued", [("queued", 0)])) := by decide +kernel
  obtain ⟨p, hp, hrest⟩ := Option.bind_eq_some_iff.mp hrun
  obtain ⟨p', hp', hseen⟩ := Option.map_eq_some_iff.mp hrest
  obtain ⟨hlen, hshown⟩ := Prod.mk.inj hseen
  exact ⟨p, p', hp, hp', hshown, later_requests_find ⟨_, hp⟩ ⟨_, hp'⟩ hlen.le⟩

end Service
