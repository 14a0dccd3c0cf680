/-
# The event feed

`events::websocket` subscribes to the event channel and leaves the receiver to `stream_events`,
which forwards to the client the events of its own user.  Here one client is connected while the
service goes on.

* An event of another user is read and dropped; what the client is told about it is at most the
  number in a notice.
* `json!` panics if the event cannot be turned into JSON.  It was turned into JSON before it was
  stored, so this never happens.
-/
import EvglApi.Announcements
import EvglApi.Relay

open Concurrency Mvcc Broadcast

namespace Service

/-! ## The feed -/

/-- What the feed needs of the JSON serializer. -/
structure FeedCodec where
  instantToValue : Instant → Value
  valueToText : Value → Except String String
  valueToString : Value → String

/-- The payload for an event whose JSON is `data`. -/
def feedPayload (codec : FeedCodec) (event : EventDraft) (now : Instant) (data : Value) : Value :=
  .object [("event_id", .string (uuidText event.id)), ("event_type", .string "event.created"),
    ("occurred_at", codec.instantToValue now), ("data", data)]

/-- The service with a client of the feed; the task of the client may have panicked. -/
structure Feed where
  pool : Pool Stmt Role Outcome World
  socket : Socket
  panicked : Bool

/-- A step of the service or of the loop of `stream_events`. -/
inductive FeedMove
  | service (l : Label Draw Request)
  | receive (now : Instant) (succeeds : Bool)
  | incoming (message : Incoming) (succeeds : Bool)

variable (env : Deployment) (codec : FeedCodec) (userId : Uuid)

/-- What is done with a received answer; `none` is a panic. -/
def Socket.forwardEvent (now : Instant) (succeeds : Bool) (s : Socket) :
    Received EventDraft → Option Socket
  | .value event =>
      if event.ownerId = userId then
        match env.eventToValue event with
        | .error _ => none
        | .ok data =>
            match codec.valueToText (feedPayload codec event now data) with
            | .ok payload => some (s.send (.text payload) succeeds)
            | .error _ => some { s with opened := false }
      else some s
  | .lagged skipped => some (s.send (.text (codec.valueToString (resyncRequired skipped))) succeeds)

namespace Feed

/-- The client is connected. -/
def connect (pool : Pool Stmt Role Outcome World) : Feed :=
  ⟨pool, ⟨pool.shared.eventChannel.length, [], true⟩, false⟩

/-- One step of the loop for the client, or of the service. -/
def act (f : Feed) : FeedMove → Option Feed
  | .service l => (f.pool.act (service env) l).map fun pool => { f with pool }
  | .receive now succeeds =>
      if f.socket.opened then
        (recv 512 f.pool.shared.eventChannel f.socket.next).map fun (answer, next) =>
          match { f.socket with next }.forwardEvent env codec userId now succeeds answer with
          | some socket => { f with socket }
          | none => { f with socket := { f.socket with opened := false }, panicked := true }
      else none
  | .incoming message succeeds =>
      if f.socket.opened then
        some { f with socket := f.socket.incoming succeeds message }
      else none

/-- The steps of a schedule. -/
def run (f : Feed) : List FeedMove → Option Feed
  | [] => some f
  | m :: ms => (f.act env codec userId m).bind fun f' => f'.run ms

end Feed

/-! ## What the client is told -/

/-- What is written for an answer of the event channel. -/
inductive Tells : Received EventDraft → List String → Prop
  | own {event : EventDraft} {now : Instant} {data : Value} {payload : String}
      (howner : event.ownerId = userId) (hdata : env.eventToValue event = .ok data)
      (hpayload : codec.valueToText (feedPayload codec event now data) = .ok payload) :
      Tells (.value event) [payload]
  | other {event : EventDraft} (howner : event.ownerId ≠ userId) : Tells (.value event) []
  | resync (skipped : ℕ) : Tells (.lagged skipped) [codec.valueToString (resyncRequired skipped)]

variable {env codec userId} {f f' : Feed} {first : ℕ} {m : FeedMove} {ms : List FeedMove}
  {p : Pool Stmt Role Outcome World} {channel : List EventDraft} {s s' : Socket} {now : Instant}
  {succeeds : Bool} {answer : Received EventDraft} {next : ℕ}

/-- An event that has a JSON is relayed without a panic. -/
theorem Relayed.receive_event (now : Instant) (succeeds : Bool)
    (h : Relayed 512 (Tells env codec userId) channel first s)
    (hopen : s.opened = true) (hrecv : recv 512 channel s.next = some (answer, next))
    (hchannel : ∀ e ∈ channel, ∃ data, env.eventToValue e = .ok data) :
    ∃ s', { s with next }.forwardEvent env codec userId now succeeds answer = some s' ∧
      Relayed 512 (Tells env codec userId) channel first s' := by
  cases answer with
  | lagged skipped =>
      exact ⟨_, rfl, h.receive hopen hrecv (.resync skipped) (Socket.wrote_send _)⟩
  | value event =>
      by_cases howner : event.ownerId = userId
      · obtain ⟨data, hdata⟩ := hchannel event (mem_of_recv hrecv)
        simp only [Socket.forwardEvent, if_pos howner, hdata]
        cases hpayload : codec.valueToText (feedPayload codec event now data) with
        | error e => exact ⟨_, rfl, h.leave rfl rfl⟩
        | ok payload =>
            exact ⟨_, rfl, h.receive hopen hrecv (.own howner hdata hpayload)
              (Socket.wrote_send _)⟩
      · rw [Socket.forwardEvent, if_neg howner]
        exact ⟨_, rfl,
          h.receive hopen hrecv (.other howner) (Or.inr ⟨rfl, (List.append_nil _).symm⟩)⟩

namespace Feed

/-- The client has been sent the answers of its receiver, and its task has not panicked. -/
structure Tellings (env : Deployment) (codec : FeedCodec) (userId : Uuid) (first : ℕ) (f : Feed) :
    Prop where
  pool : Reachable env f.pool
  calm : f.panicked = false
  started : first ≤ f.pool.shared.eventChannel.length
  relayed : Relayed 512 (Tells env codec userId) f.pool.shared.eventChannel first f.socket

theorem Tellings.step (h : Tellings env codec userId first f)
    (hact : f.act env codec userId m = some f') : Tellings env codec userId first f' := by
  cases m with
  | service l =>
      obtain ⟨pool, hpool, rfl⟩ := Option.map_eq_some_iff.mp hact
      have hgrows : f.pool.shared.eventChannel <+: pool.shared.eventChannel :=
        Pool.act_rel (T := fun w w' => w.eventChannel <+: w'.eventChannel)
          (fun st x w b w' => Stmt.exec_eventChannel)
          (fun r w => (eventChannel_enter r).symm ▸ List.prefix_refl _) hpool
      exact ⟨h.pool.run (Pool.run_singleton hpool), h.calm, h.started.trans hgrows.length_le,
        h.relayed.mono hgrows⟩
  | receive now succeeds =>
      rw [act] at hact
      split at hact
      · next hopen =>
          obtain ⟨⟨answer, next⟩, hrecv, rfl⟩ := Option.map_eq_some_iff.mp hact
          obtain ⟨s', hs', hrelayed⟩ := h.relayed.receive_event now succeeds
            hopen hrecv fun e he => by
              obtain ⟨row, -, -, -, hdata⟩ := exists_row_of_announced h.pool he
              exact ⟨_, hdata⟩
          simp only [hs']
          exact ⟨h.pool, h.calm, h.started, hrelayed⟩
      · cases hact
  | incoming message succeeds =>
      rw [act] at hact
      split at hact
      · next hopen =>
          obtain rfl := Option.some.inj hact
          exact ⟨h.pool, h.calm, h.started, h.relayed.incoming hopen message succeeds⟩
      · cases hact

theorem Tellings.run (h : Tellings env codec userId first f)
    (hrun : f.run env codec userId ms = some f') : Tellings env codec userId first f' := by
  induction ms generalizing f with
  | nil =>
      obtain rfl := Option.some.inj hrun
      exact h
  | cons m ms ih =>
      obtain ⟨f₁, hact, hrest⟩ := Option.bind_eq_some_iff.mp hrun
      exact ih (h.step hact) hrest

theorem tellings_connect (h : Reachable env p) :
    Tellings env codec userId p.shared.eventChannel.length (connect p) :=
  ⟨h, rfl, le_refl _, Relayed.start _ _⟩

/-- A read that is serialized and sent moves the receiver on. -/
theorem Tellings.exists_read (h : Tellings env codec userId first f)
    (hopen : f.socket.opened = true)
    (hcodec : ∀ value, ∃ text, codec.valueToText value = .ok text) (now : Instant)
    (hrecv : recv 512 f.pool.shared.eventChannel f.socket.next = some (answer, next)) :
    ∃ f', f.act env codec userId (.receive now true) = some f' ∧ f'.pool = f.pool ∧
      f'.socket.opened = true ∧ f'.socket.next = next := by
  rw [act, if_pos hopen, hrecv]
  cases answer with
  | lagged skipped => exact ⟨_, rfl, rfl, hopen, rfl⟩
  | value event =>
      by_cases howner : event.ownerId = userId
      · obtain ⟨row, -, -, -, hdata⟩ := exists_row_of_announced h.pool (mem_of_recv hrecv)
        obtain ⟨payload, hpayload⟩ := hcodec (feedPayload codec event now row.document)
        simp only [Option.map_some, Socket.forwardEvent, if_pos howner, hdata, hpayload]
        exact ⟨_, rfl, rfl, hopen, rfl⟩
      · simp only [Option.map_some, Socket.forwardEvent, if_neg howner]
        exact ⟨_, rfl, rfl, hopen, rfl⟩

/-- The client can read on to the end of the channel, if what is read is serialized and sent. -/
theorem Tellings.exists_drained (h : Tellings env codec userId first f)
    (hopen : f.socket.opened = true)
    (hcodec : ∀ value, ∃ text, codec.valueToText value = .ok text) (now : Instant) :
    ∃ n f', f.run env codec userId (List.replicate n (.receive now true)) = some f' ∧
      f'.pool = f.pool ∧ f'.socket.opened = true ∧
        f'.socket.next = f.pool.shared.eventChannel.length := by
  -- every read brings the receiver nearer to the end
  induction hleft : f.pool.shared.eventChannel.length - f.socket.next using Nat.strong_induction_on
    generalizing f with
  | _ left ih =>
    cases hrecv : recv 512 f.pool.shared.eventChannel f.socket.next with
    | none =>
        obtain ⟨answers, pieces, next, htranscript, -, -, hnext⟩ := h.relayed
        refine ⟨0, f, rfl, rfl, hopen, le_antisymm ?_ (recv_eq_none_iff.mp hrecv)⟩
        rw [hnext hopen]
        exact htranscript.next_le h.started
    | some answer =>
        obtain ⟨answer, next⟩ := answer
        obtain ⟨hlt, hle⟩ := recv_moves hrecv
        obtain ⟨f₁, hact, hpool, hopen₁, hnext⟩ := h.exists_read hopen hcodec now hrecv
        rw [← hpool] at hle hleft
        obtain ⟨n, f', hrun, hpool', hopen', hend⟩ :=
          ih (f₁.pool.shared.eventChannel.length - f₁.socket.next) (by omega) (h.step hact) hopen₁
            rfl
        refine ⟨n + 1, f', ?_, hpool'.trans hpool, hopen', hpool ▸ hend⟩
        rw [List.replicate_succ, Feed.run, hact]
        exact hrun

end Feed

/-! ## The events of a user -/

/-- The text of an event. -/
def EventText (env : Deployment) (codec : FeedCodec) (event : EventDraft) (payload : String) :
    Prop :=
  ∃ now data, env.eventToValue event = .ok data ∧
    codec.valueToText (feedPayload codec event now data) = .ok payload

/-- What is told about events is the texts of those of the user. -/
theorem eventTexts_of_tells {events : List EventDraft} {pieces : List (List String)}
    (h : List.Forall₂ (fun e => Tells env codec userId (.value e)) events pieces) :
    List.Forall₂ (EventText env codec) (events.filter (·.ownerId = userId)) pieces.flatten := by
  induction h with
  | nil => exact .nil
  | cons hpiece _ ih =>
      cases hpiece with
      | own howner hdata hpayload =>
          rw [List.filter_cons_of_pos (by simpa using howner)]
          exact .cons ⟨_, _, hdata, hpayload⟩ ih
      | other howner =>
          rw [List.filter_cons_of_neg (by simpa using howner)]
          exact ih

/-- The client of the feed is sent the events of its user that were announced since it connected,
each once and in order, and the numbers of the events that were dropped; its task does not panic.
Nothing is dropped unless more events are announced than the channel holds. -/
theorem feed_relays (h : Reachable env p)
    (hrun : (Feed.connect p).run env codec userId ms = some f) :
    f.panicked = false ∧
      Relayed 512 (Tells env codec userId) f.pool.shared.eventChannel
        p.shared.eventChannel.length f.socket ∧
      (f.pool.shared.eventChannel.length ≤ p.shared.eventChannel.length + 512 →
        ∃ read, read <+: f.pool.shared.eventChannel.drop p.shared.eventChannel.length ∧
          List.Forall₂ (EventText env codec) (read.filter (·.ownerId = userId))
            f.socket.texts) := by
  have htellings := (Feed.tellings_connect h).run hrun
  refine ⟨htellings.calm, htellings.relayed, fun hlength => ?_⟩
  obtain ⟨pieces, next, hpieces, htexts, -⟩ := htellings.relayed.of_length_le hlength
  refine ⟨_, ?_, htexts ▸ eventTexts_of_tells hpieces⟩
  rw [List.extract_eq_take_drop]
  exact List.take_prefix _ _

namespace Sample

/-- Events as their ids, and notices as their types. -/
def eventIds : FeedCodec where
  instantToValue _ := .null
  valueToText value := .ok (((value.get "event_id").bind Value.asStr).getD "")
  valueToString value := ((value.get "type").bind Value.asStr).getD ""

/-- User 1 creates two events while a client of the user is connected. -/
theorem exists_feed (more : List FeedMove) {n : ℕ}
    (h : (((Feed.connect idleService).run deployment eventIds 1
      (connect.map .service ++ more)).map fun f =>
        (f.socket.texts.length, f.socket.opened, f.pool.shared.eventChannel.length)) =
          some (n, true, 2)) :
    ∃ f, (Feed.connect idleService).run deployment eventIds 1
      (connect.map .service ++ more) = some f ∧ f.socket.texts.length = n ∧
        f.socket.opened = true ∧ f.pool.shared.eventChannel.length = 2 := by
  obtain ⟨f, hf, heq⟩ := Option.map_eq_some_iff.mp h
  obtain ⟨htexts, hrest⟩ := Prod.mk.inj heq
  exact ⟨f, hf, htexts, (Prod.mk.inj hrest).1, (Prod.mk.inj hrest).2⟩

end Sample

/-- The client has read both events. -/
theorem feed_relays_sample :
    ∃ f, (Feed.connect idleService).run Sample.deployment Sample.eventIds 1
        (Sample.connect.map .service ++ List.replicate 2 (.receive 0 true)) = some f ∧
      f.socket.texts.length = 2 ∧ f.panicked = false ∧
      Relayed 512 (Tells Sample.deployment Sample.eventIds 1) f.pool.shared.eventChannel 0
        f.socket := by
  obtain ⟨f, hrun, htexts, -⟩ := Sample.exists_feed (n := 2)
    (List.replicate 2 (.receive 0 true)) (by decide +kernel)
  obtain ⟨hcalm, hrelayed, -⟩ := feed_relays (Pool.Reaches.refl _) hrun
  exact ⟨f, hrun, htexts, hcalm, hrelayed⟩

/-- A client that stays connected and reads on comes to know all events of its user that were
announced since it connected, if the events that were announced since then, of all users, are no
more than the channel holds. -/
theorem feed_catches_up (h : Reachable env p)
    (hrun : (Feed.connect p).run env codec userId ms = some f) (hopen : f.socket.opened = true)
    (hcodec : ∀ value, ∃ text, codec.valueToText value = .ok text)
    (hlength : f.pool.shared.eventChannel.length ≤ p.shared.eventChannel.length + 512)
    (now : Instant) :
    ∃ n f', f.run env codec userId (List.replicate n (.receive now true)) = some f' ∧
      f'.pool = f.pool ∧ f'.socket.opened = true ∧
        List.Forall₂ (EventText env codec)
          ((f.pool.shared.eventChannel.drop p.shared.eventChannel.length).filter
            (·.ownerId = userId)) f'.socket.texts := by
  have htellings := (Feed.tellings_connect h).run hrun
  obtain ⟨n, f', hrun', hpool, hopen', hend⟩ := htellings.exists_drained hopen hcodec now
  refine ⟨n, f', hrun', hpool, hopen', ?_⟩
  have htellings' := htellings.run hrun'
  rw [← hpool] at hlength hend ⊢
  obtain ⟨pieces, next, hpieces, htexts, hnext⟩ := htellings'.relayed.of_length_le hlength
  have hread : f'.pool.shared.eventChannel.extract p.shared.eventChannel.length next =
      f'.pool.shared.eventChannel.drop p.shared.eventChannel.length := by
    rw [← hnext hopen', hend, List.extract_eq_take_drop]
    exact List.take_of_length_le (by rw [List.length_drop])
  rw [hread] at hpieces
  rw [htexts]
  exact eventTexts_of_tells hpieces

/-- The client has read nothing yet when both events are there. -/
theorem feed_catches_up_sample :
    ∃ f n f', (Feed.connect idleService).run Sample.deployment Sample.eventIds 1
        (Sample.connect.map .service ++ []) = some f ∧
      f.socket.texts.length = 0 ∧ f.pool.shared.eventChannel.length = 2 ∧
      f.run Sample.deployment Sample.eventIds 1 (List.replicate n (.receive 0 true)) = some f' ∧
      f'.pool = f.pool ∧ f'.socket.opened = true ∧
      List.Forall₂ (EventText Sample.deployment Sample.eventIds)
        ((f.pool.shared.eventChannel.drop 0).filter (·.ownerId = 1)) f'.socket.texts := by
  obtain ⟨f, hrun, hnone, hopen, hlength⟩ := Sample.exists_feed (n := 0) [] (by decide +kernel)
  obtain ⟨n, f', hrun', hpool, hopen', htexts⟩ := feed_catches_up (Pool.Reaches.refl _) hrun hopen
    (fun _ => ⟨_, rfl⟩) (by rw [hlength]; decide) 0
  exact ⟨f, n, f', hrun, hnone, hlength, hrun', hpool, hopen', htexts⟩

end Service
