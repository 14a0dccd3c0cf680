/-
# Following a job over a WebSocket

`jobs::websocket` reads the job, subscribes to its channel and leaves the receiver to `stream`,
which forwards to the client what it receives.  Here one client follows one job while the
service goes on.

* `Watch.act` is one step of the service or of the handler; the reads of `get_job` are
  statements of their own.
* The sender of a channel stays in the map of the channels, so a channel is never closed.
* `select!` takes any branch that is ready, and a failed `send` ends the loop.
-/
import EvglApi.Broadcast
import EvglApi.Summaries
import EvglApi.Updates

open Concurrency Mvcc

namespace Service

/-! ## The socket -/

/-- What the socket needs of the JSON serializer. -/
structure Codec where
  updateToString : JobUpdate → Except String String
  valueToString : Value → String

/-- A message to the client. -/
inductive Frame
  | text (payload : String)
  | pong (data : Bytes)

/-- What `incoming.next()` yields. -/
inductive Incoming
  | close
  | ping (data : Bytes)
  | other
  | failed
  | ended

/-- The notice that updates were skipped. -/
def resyncRequired (skipped : ℕ) : Value :=
  .object [("type", .string "resync_required"), ("skipped", .number (toString skipped))]

/-- The loop of `stream`: the position of the receiver, and what was sent to the client.  The
socket is no longer open when the loop is left. -/
structure Socket where
  next : ℕ
  sent : List Frame
  opened : Bool

namespace Socket

/-- `sender.send`, which succeeds or not. -/
def send (frame : Frame) (succeeds : Bool) (s : Socket) : Socket :=
  if succeeds then { s with sent := s.sent ++ [frame] } else { s with opened := false }

variable (codec : Codec)

/-- What is done with a received answer. -/
def forward (succeeds : Bool) (s : Socket) : Broadcast.Received JobUpdate → Socket
  | .value update =>
      match codec.updateToString update with
      | .ok payload => s.send (.text payload) succeeds
      | .error _ => { s with opened := false }
  | .lagged skipped => s.send (.text (codec.valueToString (resyncRequired skipped))) succeeds

/-- The branch of `select!` for the receiver; `none` while there is nothing to receive. -/
def receive (channel : List JobUpdate) (succeeds : Bool) (s : Socket) : Option Socket :=
  (Broadcast.recv 128 channel s.next).map fun (answer, next) =>
    { s with next }.forward codec succeeds answer

/-- The branch of `select!` for the client. -/
def incoming (succeeds : Bool) (s : Socket) : Incoming → Socket
  | .close | .failed | .ended => { s with opened := false }
  | .ping data => s.send (.pong data) succeeds
  | .other => s

end Socket

/-! ## The handler beside the service -/

/-- How far the handler of the client is. -/
inductive Handler
  | reading (prog : Prog Stmt Role Outcome (Except ApiError (JobRow × List TargetRow)))
  | rejected (error : ApiError)
  | subscribing (job : JobRow)
  | streaming (job : JobRow) (socket : Socket)

/-- What the handler does after a part of `get_job`. -/
def Handler.resume : Prog Stmt Role Outcome (Except ApiError (JobRow × List TargetRow)) → Handler
  | .pure (.ok (job, _)) => .subscribing job
  | .pure (.error error) => .rejected error
  | prog => .reading prog

/-- The service with a client. -/
structure Watch where
  pool : Pool Stmt Role Outcome World
  handler : Handler

/-- A step of the service or of the handler. -/
inductive Move
  | service (l : Label Draw Request)
  | read (x : Draw)
  | subscribe
  | receive (succeeds : Bool)
  | incoming (message : Incoming) (succeeds : Bool)

namespace Watch

/-- A user asks to follow a job. -/
def start (userId jobId : Uuid) : Watch :=
  ⟨idleService, .reading (Store.getJob userId jobId).run⟩

variable (env : Deployment) (codec : Codec) (j : Uuid)

/-- One step of the handler that follows job `j`, or of the service. -/
def act (w : Watch) : Move → Option Watch
  | .service l => (w.pool.act (service env) l).map fun pool => { w with pool }
  | .read x =>
      match w.handler with
      | .reading (.step st k) => (st.exec x w.pool.shared).map fun (b, shared) =>
          ⟨{ w.pool with shared }, .resume (k b)⟩
      | _ => none
  | .subscribe =>
      match w.handler with
      | .subscribing job =>
          some { w with handler := .streaming job ⟨(w.pool.shared.channel j).length, [], true⟩ }
      | _ => none
  | .receive succeeds =>
      match w.handler with
      | .streaming job socket =>
          if socket.opened then
            (socket.receive codec (w.pool.shared.channel j) succeeds).map fun socket =>
              { w with handler := .streaming job socket }
          else none
      | _ => none
  | .incoming message succeeds =>
      match w.handler with
      | .streaming job socket =>
          if socket.opened then
            some { w with handler := .streaming job (socket.incoming succeeds message) }
          else none
      | _ => none

/-- The steps of a schedule. -/
def run (w : Watch) : List Move → Option Watch
  | [] => some w
  | m :: ms => (w.act env codec j m).bind fun w' => w'.run ms

end Watch

/-! ## What the client is sent -/

variable {env : Deployment} {codec : Codec} {w w' : Watch} {j : Uuid} {m : Move} {ms : List Move}
  {job : JobRow} {first : ℕ} {channel : List JobUpdate} {s s' : Socket} {succeeds : Bool}

/-- The update was sent to the client. -/
def Shown (codec : Codec) (sent : List Frame) (u : JobUpdate) : Prop :=
  ∃ payload, codec.updateToString u = .ok payload ∧ .text payload ∈ sent

/-- The client was sent a notice that updates were skipped. -/
def Notified (codec : Codec) (sent : List Frame) : Prop :=
  ∃ skipped, .text (codec.valueToString (resyncRequired skipped)) ∈ sent

/-- The client was sent the final update, the last one on the channel, or the notice. -/
def Told (codec : Codec) (channel : List JobUpdate) (sent : List Frame) : Prop :=
  (∃ u, channel.getLast? = some u ∧ u.Final ∧ Shown codec sent u) ∨ Notified codec sent

theorem Shown.mono {sent sent' : List Frame} {u : JobUpdate} (h : Shown codec sent u)
    (hsent : sent ⊆ sent') : Shown codec sent' u :=
  h.imp fun _ h => ⟨h.1, hsent h.2⟩

/-- A client that was told stays told. -/
theorem Notified.mono {sent sent' : List Frame} (h : Notified codec sent) (hsent : sent ⊆ sent') :
    Notified codec sent' :=
  h.imp fun _ h => hsent h

/-- What the client is told is a text. -/
theorem Told.exists_text {sent : List Frame} (h : Told codec channel sent) :
    ∃ payload, .text payload ∈ sent := by
  rcases h with ⟨u, -, -, payload, -, hpayload⟩ | ⟨skipped, hskipped⟩
  · exact ⟨payload, hpayload⟩
  · exact ⟨_, hskipped⟩

namespace Socket

@[simp] theorem send_next (frame : Frame) : (s.send frame succeeds).next = s.next := by
  unfold send
  split <;> rfl

theorem sent_subset_send (frame : Frame) : s.sent ⊆ (s.send frame succeeds).sent := by
  unfold send
  split
  · exact List.subset_append_left _ _
  · exact List.Subset.refl _

/-- A socket is still open after a message only if the message was sent. -/
theorem mem_sent_of_opened {frame : Frame} (h : (s.send frame succeeds).opened = true) :
    frame ∈ (s.send frame succeeds).sent := by
  unfold send at h ⊢
  split at h
  · next hsucceeds =>
      rw [if_pos hsucceeds]
      exact List.mem_append_right _ List.mem_cons_self
  · cases h

/-- What comes of a received answer: it is sent, or the loop is left. -/
structure Forwarded (codec : Codec) (answer : Broadcast.Received JobUpdate) (s s' : Socket) :
    Prop where
  next : s'.next = s.next
  sent : s.sent ⊆ s'.sent
  value : s'.opened = true → ∀ u, answer = .value u → Shown codec s'.sent u
  lagged : s'.opened = true → ∀ n, answer = .lagged n → Notified codec s'.sent

/-- What becomes of an answer of the receiver: it is sent, skipped, or closes the socket. -/
theorem forwarded (answer : Broadcast.Received JobUpdate) :
    Forwarded codec answer s (s.forward codec succeeds answer) := by
  cases answer with
  | lagged skipped =>
      refine ⟨send_next _, sent_subset_send _, fun _ _ h => (nomatch h), fun hopen n _ => ?_⟩
      exact ⟨skipped, mem_sent_of_opened hopen⟩
  | value update =>
      rw [forward]
      cases hpayload : codec.updateToString update with
      | error e =>
          exact ⟨rfl, List.Subset.refl _, fun h => (nomatch h), fun h => (nomatch h)⟩
      | ok payload =>
          refine ⟨send_next _, sent_subset_send _, fun hopen u hu => ?_, fun _ _ h => (nomatch h)⟩
          obtain rfl := Broadcast.Received.value.inj hu
          exact ⟨payload, hpayload, mem_sent_of_opened hopen⟩

/-- What is sent to the client for a read. -/
theorem exists_forwarded (h : s.receive codec channel succeeds = some s') :
    ∃ answer next, Broadcast.recv 128 channel s.next = some (answer, next) ∧
      Forwarded codec answer { s with next } s' := by
  obtain ⟨⟨answer, next⟩, hrecv, rfl⟩ := Option.map_eq_some_iff.mp h
  exact ⟨answer, next, hrecv, forwarded answer⟩

/-- The branch for the client moves no receiver and sends no text. -/
theorem incoming_spec (s : Socket) (succeeds : Bool) (message : Incoming) :
    (s.incoming succeeds message).next = s.next ∧ s.sent ⊆ (s.incoming succeeds message).sent ∧
      ∀ payload, .text payload ∈ (s.incoming succeeds message).sent → .text payload ∈ s.sent := by
  cases message with
  | ping data =>
      refine ⟨send_next _, sent_subset_send _, fun payload h => ?_⟩
      change Frame.text payload ∈ (s.send (.pong data) succeeds).sent at h
      unfold send at h
      split at h
      · exact (List.mem_append.mp h).resolve_right fun h => nomatch List.mem_singleton.mp h
      · exact h
  | _ => exact ⟨rfl, List.Subset.refl _, fun _ h => h⟩

end Socket

/-! ## One step -/

/-- A statement that reads a job. -/
def Stmt.Reads {β : Type} : Stmt β → Prop
  | .query (.selectJob ..) => True
  | .query (.selectTargets ..) => True
  | _ => False

theorem Stmt.Reads.exec_eq {β : Type} {st : Stmt β} {x : Draw} {b : β} {v v' : World}
    (h : st.Reads) (hexec : st.exec x v = some (b, v')) : v' = v := by
  cases st with
  | query k =>
      rcases Stmt.exec_query hexec with ⟨-, -, -, heq⟩ | ⟨-, hexec⟩
      · exact heq
      · cases k with
        | selectJob id userId => exact (Prod.mk.inj (Option.some.inj hexec)).2.symm
        | selectTargets id => exact (Prod.mk.inj (Option.some.inj hexec)).2.symm
        | _ => exact h.elim
  | _ => exact h.elim

namespace Watch

theorem act_read {x : Draw} (h : w.act env codec j (.read x) = some w') :
    ∃ (β : Type) (st : Stmt β) (k : _) (b : β) (shared : World),
      w.handler = .reading (.step st k) ∧ st.exec x w.pool.shared = some (b, shared) ∧
        w' = ⟨{ w.pool with shared }, .resume (k b)⟩ := by
  rw [act] at h
  split at h
  · next st k hhandler =>
      obtain ⟨⟨b, shared⟩, hexec, rfl⟩ := Option.map_eq_some_iff.mp h
      exact ⟨_, st, k, b, shared, hhandler, hexec, rfl⟩
  · cases h

/-- A subscriber starts at the end of the channel as it is then. -/
theorem act_subscribe (h : w.act env codec j .subscribe = some w') :
    ∃ job, w.handler = .subscribing job ∧
      w' = { w with handler := .streaming job ⟨(w.pool.shared.channel j).length, [], true⟩ } := by
  rw [act] at h
  split at h
  · next job hhandler => exact ⟨job, hhandler, (Option.some.inj h).symm⟩
  · cases h

theorem act_receive (h : w.act env codec j (.receive succeeds) = some w') :
    ∃ job s s', w.handler = .streaming job s ∧ s.opened = true ∧
      s.receive codec (w.pool.shared.channel j) succeeds = some s' ∧
        w' = { w with handler := .streaming job s' } := by
  rw [act] at h
  split at h
  · next job s hhandler =>
      split at h
      · next hopen =>
          obtain ⟨s', hs', rfl⟩ := Option.map_eq_some_iff.mp h
          exact ⟨job, s, s', hhandler, hopen, hs', rfl⟩
      · cases h
  · cases h

theorem act_incoming {message : Incoming}
    (h : w.act env codec j (.incoming message succeeds) = some w') :
    ∃ job s, w.handler = .streaming job s ∧ s.opened = true ∧
      w' = { w with handler := .streaming job (s.incoming succeeds message) } := by
  rw [act] at h
  split at h
  · next job s hhandler =>
      split at h
      · next hopen => exact ⟨job, s, hhandler, hopen, (Option.some.inj h).symm⟩
      · cases h
  · cases h

/-- The service is reachable, and the handler does no more than read before it subscribes. -/
structure Ok (env : Deployment) (w : Watch) : Prop where
  pool : Reachable env w.pool
  reads : ∀ prog, w.handler = .reading prog → prog.Every Stmt.Reads

theorem ok_start (userId jobId : Uuid) : Ok env (start userId jobId) := by
  refine ⟨⟨[], rfl⟩, fun prog hprog => ?_⟩
  obtain rfl := Handler.reading.inj hprog
  exact only_getJob trivial trivial

/-- A step of the service, or one of the handler that leaves the service as it is. -/
theorem Ok.step (h : Ok env w) (hact : w.act env codec j m = some w') :
    Ok env w' ∧ ((∃ l, w.pool.act (service env) l = some w'.pool ∧ w'.handler = w.handler) ∨
      w'.pool = w.pool) := by
  cases m with
  | service l =>
      obtain ⟨pool, hpool, rfl⟩ := Option.map_eq_some_iff.mp hact
      exact ⟨⟨h.pool.run (Pool.run_singleton hpool), h.reads⟩, Or.inl ⟨l, hpool, rfl⟩⟩
  | read x =>
      obtain ⟨β, st, k, b, shared, hhandler, hexec, rfl⟩ := act_read hact
      have hreads := h.reads _ hhandler
      obtain rfl := Stmt.Reads.exec_eq hreads.1 hexec
      refine ⟨⟨h.pool, fun prog hprog => ?_⟩, Or.inr rfl⟩
      have hresume : k b = prog := by
        change Handler.resume (k b) = .reading prog at hprog
        unfold Handler.resume at hprog
        split at hprog
        · cases hprog
        · cases hprog
        · exact Handler.reading.inj hprog
      exact hresume ▸ hreads.2 b
  | subscribe =>
      obtain ⟨job, -, rfl⟩ := act_subscribe hact
      exact ⟨⟨h.pool, fun _ h => (nomatch h)⟩, Or.inr rfl⟩
  | receive succeeds =>
      obtain ⟨job, s, s', -, -, -, rfl⟩ := act_receive hact
      exact ⟨⟨h.pool, fun _ h => (nomatch h)⟩, Or.inr rfl⟩
  | incoming message succeeds =>
      obtain ⟨job, s, -, -, rfl⟩ := act_incoming hact
      exact ⟨⟨h.pool, fun _ h => (nomatch h)⟩, Or.inr rfl⟩

/-- A schedule can be followed in two parts. -/
theorem run_append {ms' : List Move} :
    w.run env codec j (ms ++ ms') =
      (w.run env codec j ms).bind fun w' => w'.run env codec j ms' := by
  induction ms generalizing w with
  | nil => rfl
  | cons m ms ih =>
      rw [List.cons_append, run, run]
      cases w.act env codec j m with
      | none => rfl
      | some w' => exact ih

/-- A property that no step breaks holds after a run. -/
theorem run_induct {I : Watch → Prop}
    (hstep : ∀ {w w' m}, I w → w.act env codec j m = some w' → I w') (h : I w)
    (hrun : w.run env codec j ms = some w') : I w' := by
  induction ms generalizing w with
  | nil =>
      obtain rfl := Option.some.inj hrun
      exact h
  | cons m ms ih =>
      obtain ⟨w₁, hact, hrest⟩ := Option.bind_eq_some_iff.mp hrun
      exact ih (hstep h hact) hrest

theorem Ok.run (h : Ok env w) (hrun : w.run env codec j ms = some w') : Ok env w' :=
  run_induct (fun h hact => (h.step hact).1) h hrun

/-- The service has a run of its own. -/
theorem exists_run (h : Ok env w) (hrun : w.run env codec j ms = some w') :
    ∃ ls, w.pool.run (service env) ls = some w'.pool := by
  induction ms generalizing w with
  | nil =>
      obtain rfl := Option.some.inj hrun
      exact ⟨[], rfl⟩
  | cons m ms ih =>
      obtain ⟨w₁, hact, hrest⟩ := Option.bind_eq_some_iff.mp hrun
      obtain ⟨h₁, hstep⟩ := h.step hact
      obtain ⟨ls, hls⟩ := ih h₁ hrest
      rcases hstep with ⟨l, hl, -⟩ | hsame
      · exact ⟨l :: ls, by rw [Pool.run, hl]; exact hls⟩
      · exact ⟨ls, hsame ▸ hls⟩

/-! ## The client after the subscription -/

/-- While the client is served, the service takes a step, or the loop takes one of its branches. -/
theorem act_streaming (hhandler : w.handler = .streaming job s)
    (hact : w.act env codec j m = some w') :
    (∃ l, w.pool.act (service env) l = some w'.pool ∧ w'.handler = .streaming job s) ∨
      w'.pool = w.pool ∧ s.opened = true ∧ ∃ s', w'.handler = .streaming job s' ∧
        ((∃ succeeds, s.receive codec (w.pool.shared.channel j) succeeds = some s') ∨
          ∃ message succeeds, s' = s.incoming succeeds message) := by
  cases m with
  | service l =>
      obtain ⟨pool, hpool, rfl⟩ := Option.map_eq_some_iff.mp hact
      exact Or.inl ⟨l, hpool, hhandler⟩
  | read x =>
      obtain ⟨β, st, k, b, shared, hhandler', -, -⟩ := act_read hact
      rw [hhandler] at hhandler'
      cases hhandler'
  | subscribe =>
      obtain ⟨job', hhandler', -⟩ := act_subscribe hact
      rw [hhandler] at hhandler'
      cases hhandler'
  | receive succeeds =>
      obtain ⟨job', s', s'', hhandler', hopen, hreceive, rfl⟩ := act_receive hact
      obtain ⟨rfl, rfl⟩ := Handler.streaming.inj (hhandler.symm.trans hhandler')
      exact Or.inr ⟨rfl, hopen, s'', rfl, Or.inl ⟨succeeds, hreceive⟩⟩
  | incoming message succeeds =>
      obtain ⟨job', s', hhandler', hopen, rfl⟩ := act_incoming hact
      obtain ⟨rfl, rfl⟩ := Handler.streaming.inj (hhandler.symm.trans hhandler')
      exact Or.inr ⟨rfl, hopen, _, rfl, Or.inr ⟨message, succeeds, rfl⟩⟩

/-- The client has been told about everything on the channel from position `first` on that its
receiver has come past, as long as the socket is open. -/
def Streaming (codec : Codec) (j : Uuid) (job : JobRow) (first : ℕ) (w : Watch) : Prop :=
  ∃ s, w.handler = .streaming job s ∧ (s.opened = true →
    Broadcast.Accounted (Shown codec s.sent) (Notified codec s.sent) (w.pool.shared.channel j)
      first s.next)

/-- A step of the socket or of the service leaves a streaming socket where it is or sends
the next update. -/
theorem Streaming.step (hok : Ok env w) (h : Streaming codec j job first w)
    (hact : w.act env codec j m = some w') : Streaming codec j job first w' := by
  obtain ⟨s, hhandler, haccounted⟩ := h
  rcases act_streaming hhandler hact with ⟨l, hpool, hhandler'⟩ | ⟨hpool, hopen, s', hhandler', hs'⟩
  · exact ⟨s, hhandler', fun hopen => (haccounted hopen).mono (channel_prefix_act hok.pool hpool)
      (fun _ h => h) fun h => h⟩
  · refine ⟨s', hhandler', fun hopen' => ?_⟩
    have hbefore : s.sent ⊆ s'.sent → Broadcast.Accounted (Shown codec s'.sent)
        (Notified codec s'.sent) (w.pool.shared.channel j) first s.next := fun hsent =>
      (haccounted hopen).mono (List.prefix_refl _) (fun _ h => h.mono hsent) fun h => h.mono hsent
    rw [hpool]
    rcases hs' with ⟨succeeds, hreceive⟩ | ⟨message, succeeds, rfl⟩
    · obtain ⟨answer, next, hrecv, hforwarded⟩ := Socket.exists_forwarded hreceive
      rw [hforwarded.next]
      exact (hbefore hforwarded.sent).recv hrecv (fun u hu => hforwarded.value hopen' u hu)
        fun n hn => hforwarded.lagged hopen' n hn
    · obtain ⟨hnext, hsent, -⟩ := Socket.incoming_spec s succeeds message
      rw [hnext]
      exact hbefore hsent

/-- The worker was done when the client subscribed: nothing is left to receive, and nothing was
received. -/
structure Late (j : Uuid) (job : JobRow) (w : Watch) : Prop where
  finished : FinishedWell w.pool j
  silent : ∃ s, w.handler = .streaming job s ∧ (w.pool.shared.channel j).length ≤ s.next ∧
    ∀ payload, .text payload ∉ s.sent

theorem Late.step (hok : Ok env w) (h : Late j job w) (hact : w.act env codec j m = some w') :
    Late j job w' := by
  obtain ⟨s, hhandler, hend, hsilent⟩ := h.silent
  rcases act_streaming hhandler hact with ⟨l, hpool, hhandler'⟩ | ⟨hpool, -, s', hhandler', hs'⟩
  · obtain ⟨hfinished, hsame⟩ := h.finished.step hok.pool hpool
    exact ⟨hfinished, s, hhandler', hsame ▸ hend, hsilent⟩
  · refine ⟨hpool ▸ h.finished, s', hhandler', ?_⟩
    rw [hpool]
    rcases hs' with ⟨succeeds, hreceive⟩ | ⟨message, succeeds, rfl⟩
    · obtain ⟨answer, next, hrecv, -⟩ := Socket.exists_forwarded hreceive
      rw [Broadcast.recv_eq_none_iff.mpr hend] at hrecv
      cases hrecv
    · obtain ⟨hnext, -, htext⟩ := Socket.incoming_spec s succeeds message
      exact ⟨hnext ▸ hend, fun payload h => hsilent payload (htext payload h)⟩

/-- What every step keeps, every run keeps. -/
theorem run_of_step {I : Watch → Prop} (hstep : ∀ {w w' m}, Ok env w → I w →
      w.act env codec j m = some w' → I w') (hok : Ok env w) (h : I w)
    (hrun : w.run env codec j ms = some w') : I w' :=
  (run_induct (I := fun w => Ok env w ∧ I w)
    (fun h hact => ⟨(h.1.step hact).1, hstep h.1 h.2 hact⟩) ⟨hok, h⟩ hrun).2

/-! ## The final update -/

/-- The receiver can read on until it is at the end, or the socket is closed. -/
theorem exists_drained (env : Deployment) (codec : Codec) (j : Uuid)
    (hhandler : w.handler = .streaming job s) (hopen : s.opened = true) :
    ∃ n w' s', w.run env codec j (List.replicate n (.receive true)) = some w' ∧
      w'.pool = w.pool ∧ w'.handler = .streaming job s' ∧
        (s'.opened = true → (w.pool.shared.channel j).length ≤ s'.next) := by
  -- every read brings the receiver nearer to the end
  induction hleft : (w.pool.shared.channel j).length - s.next using Nat.strong_induction_on
    generalizing w s with
  | _ left ih =>
    cases hreceive : s.receive codec (w.pool.shared.channel j) true with
    | none =>
        refine ⟨0, w, s, rfl, rfl, hhandler, fun _ => ?_⟩
        exact Broadcast.recv_eq_none_iff.mp (Option.map_eq_none_iff.mp hreceive)
    | some s₁ =>
        have hact : w.act env codec j (.receive true) =
            some { w with handler := .streaming job s₁ } := by
          rw [act, hhandler]
          show (if _ then _ else _) = _
          rw [if_pos hopen, hreceive]
          rfl
        by_cases hopen₁ : s₁.opened = true
        · obtain ⟨answer, next, hrecv, hforwarded⟩ := Socket.exists_forwarded hreceive
          obtain ⟨hlt, hle⟩ := Broadcast.recv_moves hrecv
          have hnext : s₁.next = next := hforwarded.next
          obtain ⟨n, w', s', hrun, hpool, hhandler', hend⟩ :=
            ih ((w.pool.shared.channel j).length - s₁.next) (by omega)
              (w := { w with handler := .streaming job s₁ }) rfl hopen₁ rfl
          refine ⟨n + 1, w', s', ?_, hpool, hhandler', hend⟩
          rw [List.replicate_succ, run, hact]
          exact hrun
        · refine ⟨1, { w with handler := .streaming job s₁ }, s₁, ?_, rfl, rfl,
            fun h => absurd h hopen₁⟩
          rw [List.replicate_one, run, hact]
          rfl

/-- After some more reads, whose answers are sent, the client is told as long as the socket is
open. -/
def Delivers (env : Deployment) (codec : Codec) (j : Uuid) (w : Watch) : Prop :=
  ∃ n w' job s, w.run env codec j (List.replicate n (.receive true)) = some w' ∧
    w'.handler = .streaming job s ∧
      (s.opened = true → Told codec (w'.pool.shared.channel j) s.sent)

/-- The handler of `userId` for job `j` has read a job that is not over, and subscribes at `w₁`;
at `w` the worker has returned well and the socket is open. -/
structure Watching (env : Deployment) (codec : Codec) (userId j : Uuid) (w₁ w : Watch) : Prop where
  before : ∃ ms, (start userId j).run env codec j ms = some w₁
  read : ∃ job, w₁.handler = .subscribing job ∧ ¬ Terminal job.status
  after : ∃ w₂ ms, w₁.act env codec j .subscribe = some w₂ ∧ w₂.run env codec j ms = some w
  finished : FinishedWell w.pool j
  opened : ∃ job s, w.handler = .streaming job s ∧ s.opened = true

variable {userId : Uuid} {w₁ : Watch}

/-- A client that subscribes before the worker is done is told. -/
theorem Watching.delivers (h : Watching env codec userId j w₁ w)
    (hbefore : ¬ FinishedWell w₁.pool j) : Delivers env codec j w := by
  obtain ⟨ms₁, hrun₁⟩ := h.before
  obtain ⟨w₂, ms₂, hsubscribe, hrun₂⟩ := h.after
  obtain ⟨job, s, hhandler, hopen⟩ := h.opened
  have hok₁ : Ok env w₁ := (ok_start userId j).run hrun₁
  have hok₂ : Ok env w₂ := (hok₁.step hsubscribe).1
  obtain ⟨job', -, rfl⟩ := act_subscribe hsubscribe
  obtain ⟨ls, hls⟩ := exists_run hok₂ hrun₂
  obtain ⟨sent, u, hchannel, hfinal, hprefix⟩ := exists_final hok₁.pool hls hbefore h.finished
  have hstreaming : Streaming codec j job' (w₁.pool.shared.channel j).length w :=
    run_of_step Streaming.step hok₂ ⟨_, rfl, fun _ => Broadcast.accounted_start⟩ hrun₂
  obtain ⟨n, w', s', hrun, hpool, hhandler', hend⟩ :=
    exists_drained env codec j hhandler hopen
  obtain ⟨s'', hhandler'', haccounted⟩ :=
    run_of_step Streaming.step (hok₂.run hrun₂) hstreaming hrun
  obtain ⟨-, rfl⟩ := Handler.streaming.inj (hhandler'.symm.trans hhandler'')
  refine ⟨n, w', job, s', hrun, hhandler', fun hopen' => ?_⟩
  rw [hpool, hchannel] at haccounted ⊢
  rw [hchannel, List.length_append, List.length_singleton] at hend
  rcases (haccounted hopen').last hprefix.length_le (hend hopen') with hnotified | hshown
  · exact Or.inr hnotified
  · exact Or.inl ⟨u, List.getLast?_concat, hfinal, hshown⟩

/-- A client that subscribes when the worker is done is not told. -/
theorem Watching.not_delivers (h : Watching env codec userId j w₁ w)
    (hbefore : FinishedWell w₁.pool j) : ¬ Delivers env codec j w := by
  obtain ⟨ms₁, hrun₁⟩ := h.before
  obtain ⟨w₂, ms₂, hsubscribe, hrun₂⟩ := h.after
  obtain ⟨job, s, hhandler, hopen⟩ := h.opened
  have hok₂ : Ok env w₂ := (((ok_start userId j).run hrun₁).step hsubscribe).1
  obtain ⟨job', -, rfl⟩ := act_subscribe hsubscribe
  have hlate : Late j job' w :=
    run_of_step Late.step hok₂ ⟨hbefore, _, rfl, Nat.le_refl _, by simp⟩ hrun₂
  obtain ⟨s', hhandler', hend, hsilent⟩ := hlate.silent
  obtain ⟨-, rfl⟩ := Handler.streaming.inj (hhandler.symm.trans hhandler')
  rintro ⟨n, w', job'', s'', hrun, hhandler'', htold⟩
  cases n with
  | zero =>
      obtain rfl := Option.some.inj hrun
      obtain ⟨-, rfl⟩ := Handler.streaming.inj (hhandler.symm.trans hhandler'')
      obtain ⟨payload, hpayload⟩ := (htold hopen).exists_text
      exact hsilent payload hpayload
  | succ n =>
      -- there is nothing to receive
      obtain ⟨w₃, hact, -⟩ := Option.bind_eq_some_iff.mp hrun
      obtain ⟨job₃, s₃, s₄, hhandler₃, -, hreceive, -⟩ := act_receive hact
      obtain ⟨-, rfl⟩ := Handler.streaming.inj (hhandler.symm.trans hhandler₃)
      obtain ⟨answer, next, hrecv, -⟩ := Socket.exists_forwarded hreceive
      rw [Broadcast.recv_eq_none_iff.mpr hend] at hrecv
      cases hrecv

end Watch

/-- The client is told exactly if the worker was not done when the client subscribed. -/
theorem final_update_delivered_iff {userId : Uuid} {w₁ : Watch}
    (h : Watch.Watching env codec userId j w₁ w) :
    Watch.Delivers env codec j w ↔ ¬ FinishedWell w₁.pool j :=
  ⟨fun hdelivers hbefore => h.not_delivers hbefore hdelivers, h.delivers⟩

/-! ## Runs -/

namespace Sample

/-- Updates as their messages, and other values as their types. -/
def messages : Codec where
  updateToString u := .ok u.message
  valueToString value := ((value.get "type").bind Value.asStr).getD ""

/-- Turns of the worker. -/
def turns (n : ℕ) : List Move := List.replicate n (.service (.turn 4 {}))

/-- The client asks when the worker is about to make its only call. -/
def asked : List Move := (connect ++ enqueue).map .service ++ turns 7 ++ [.read {}, .read {}]

/-- The jobs whose workers have returned well. -/
def finishedJobs (p : Pool Stmt Role Outcome World) : List Uuid :=
  p.threads.filterMap fun t =>
    match t with
    | ⟨.worker j, .pure (.finished (.ok _))⟩ => some j
    | _ => none

/-- The status that was read, or the number of messages to the client. -/
def progress : Handler → Option (String ⊕ ℕ × Bool)
  | .subscribing job => some (.inl job.status)
  | .streaming _ s => some (.inr (s.sent.length, s.opened))
  | _ => none

theorem mem_finishedJobs {p : Pool Stmt Role Outcome World} {j : Uuid} :
    j ∈ finishedJobs p ↔ FinishedWell p j := by
  constructor
  · intro h
    obtain ⟨t, ht, hsome⟩ := List.mem_filterMap.mp h
    split at hsome
    · obtain rfl := Option.some.inj hsome
      exact ht
    · cases hsome
  · exact fun h => List.mem_filterMap.mpr ⟨_, h, rfl⟩

/-- What the samples look at. -/
def seen (w : Watch) : Option (String ⊕ ℕ × Bool) × List Uuid :=
  (progress w.handler, finishedJobs w.pool)

/-- A run of the client up to the subscription and beyond. -/
theorem exists_watching {ms₁ ms₂ : List Move} {status : String} {jobs : List Uuid} {n : ℕ}
    (hbefore : ((Watch.start 1 30).run deployment messages 30 ms₁).map seen =
      some (some (.inl status), jobs)) (hstatus : ¬ Terminal status)
    (hafter : ((Watch.start 1 30).run deployment messages 30 (ms₁ ++ .subscribe :: ms₂)).map seen =
      some (some (.inr (n, true)), [30])) :
    ∃ w₁ w, Watch.Watching deployment messages 1 30 w₁ w ∧ finishedJobs w₁.pool = jobs := by
  obtain ⟨w₁, hrun₁, hseen₁⟩ := Option.map_eq_some_iff.mp hbefore
  obtain ⟨w, hrun, hseen⟩ := Option.map_eq_some_iff.mp hafter
  obtain ⟨hread, hjobs⟩ := Prod.mk.inj hseen₁
  obtain ⟨hopen, hfinished⟩ := Prod.mk.inj hseen
  rw [Watch.run_append, hrun₁, Option.bind_some] at hrun
  obtain ⟨w₂, hsubscribe, hrun₂⟩ := Option.bind_eq_some_iff.mp hrun
  refine ⟨w₁, w, ⟨⟨ms₁, hrun₁⟩, ?_, ⟨w₂, ms₂, hsubscribe, hrun₂⟩, ?_, ?_⟩, hjobs⟩
  · cases hhandler : w₁.handler with
    | subscribing job =>
        rw [hhandler] at hread
        obtain rfl := Sum.inl.inj (Option.some.inj hread)
        exact ⟨job, rfl, hstatus⟩
    | _ =>
        rw [hhandler] at hread
        cases hread
  · exact mem_finishedJobs.mp (hfinished ▸ List.mem_cons_self)
  · cases hhandler : w.handler with
    | streaming job s =>
        rw [hhandler] at hopen
        exact ⟨job, s, rfl, (Prod.mk.inj (Sum.inr.inj (Option.some.inj hopen))).2⟩
    | _ =>
        rw [hhandler] at hopen
        cases hopen

end Sample

/-- The client subscribes before the worker makes its call, and is told. -/
theorem final_update_delivered_iff_sample :
    ∃ w₁ w, Watch.Watching Sample.deployment Sample.messages 1 30 w₁ w ∧
      Watch.Delivers Sample.deployment Sample.messages 30 w := by
  have hbefore : ((Watch.start 1 30).run Sample.deployment Sample.messages 30 Sample.asked).map
      Sample.seen = some (some (.inl "running"), []) := by decide +kernel
  have hafter : ((Watch.start 1 30).run Sample.deployment Sample.messages 30
      (Sample.asked ++ .subscribe :: Sample.turns 9)).map Sample.seen =
        some (some (.inr (0, true)), [30]) := by decide +kernel
  obtain ⟨w₁, w, hwatching, hnone⟩ := Sample.exists_watching hbefore (by decide) hafter
  refine ⟨w₁, w, hwatching, (final_update_delivered_iff hwatching).mpr fun h => ?_⟩
  rw [← Sample.mem_finishedJobs, hnone] at h
  cases h

/-- The job is read while it is running, and the client subscribes when the worker is done. -/
theorem not_final_update_delivered :
    ¬ ∀ (env : Deployment) (codec : Codec) (userId j : Uuid) (w₁ w : Watch),
      Watch.Watching env codec userId j w₁ w → Watch.Delivers env codec j w := by
  intro h
  have hbefore : ((Watch.start 1 30).run Sample.deployment Sample.messages 30
      (Sample.asked ++ Sample.turns 9)).map Sample.seen =
        some (some (.inl "running"), [30]) := by decide +kernel
  have hafter : ((Watch.start 1 30).run Sample.deployment Sample.messages 30
      ((Sample.asked ++ Sample.turns 9) ++ [.subscribe])).map Sample.seen =
        some (some (.inr (0, true)), [30]) := by decide +kernel
  obtain ⟨w₁, w, hwatching, hdone⟩ := Sample.exists_watching hbefore (by decide) hafter
  refine hwatching.not_delivers ?_ (h _ _ 1 30 w₁ w hwatching)
  exact Sample.mem_finishedJobs.mp (hdone ▸ List.mem_cons_self)

end Service
