/-
# What a client is sent of a channel

The texts that the loop of a WebSocket sends are those for the answers of its receiver, in the
order of the channel, and nothing else.

* `Relayed` says so of a socket, whatever is written for an answer; `Relayed.receive`,
  `Relayed.incoming` and `Relayed.mono` keep it through the branches of `select!` and while more
  is sent on the channel.
* `updates_relayed` is the instance for the client that follows a job.
-/
import EvglApi.Transcript
import EvglApi.WebSocket

open Concurrency Mvcc Broadcast

namespace Service

/-- The payload of a text message. -/
def Frame.text? : Frame → Option String
  | .text payload => some payload
  | .pong _ => none

namespace Socket

/-- The texts that were sent to the client. -/
def texts (s : Socket) : List String := s.sent.filterMap Frame.text?

/-- The loop has written `piece`, or was left with nothing more written. -/
def Wrote (piece : List String) (s s' : Socket) : Prop :=
  s'.opened = false ∧ s'.texts = s.texts ∨ s'.next = s.next ∧ s'.texts = s.texts ++ piece

variable {s s' : Socket} {succeeds : Bool}

theorem texts_send (frame : Frame) (h : succeeds = true) :
    (s.send frame succeeds).texts = s.texts ++ frame.text?.toList := by
  rw [send, if_pos h, texts, List.filterMap_append, texts]
  cases frame <;> rfl

theorem wrote_send (payload : String) : Wrote [payload] s (s.send (.text payload) succeeds) := by
  by_cases h : succeeds = true
  · exact Or.inr ⟨send_next _, texts_send _ h⟩
  · rw [send, if_neg h]
    exact Or.inl ⟨rfl, rfl⟩

/-- The branch for the client writes no text. -/
theorem texts_incoming (message : Incoming) : (s.incoming succeeds message).texts = s.texts := by
  cases message with
  | ping data =>
      show (s.send (.pong data) succeeds).texts = s.texts
      by_cases h : succeeds = true
      · rw [texts_send _ h]
        exact List.append_nil _
      · rw [send, if_neg h]
        rfl
  | _ => rfl

end Socket

/-! ## Relaying -/

section Relaying

variable {α : Type} {capacity first next : ℕ} {writes : Received α → List String → Prop}
  {log log' : List α} {answer : Received α} {piece : List String} {s s' : Socket}

/-- The texts that the socket has sent are those written for the answers its receiver has had
since its subscription at `first`; while the socket is open, these are all its answers. -/
def Relayed (capacity : ℕ) (writes : Received α → List String → Prop) (log : List α) (first : ℕ)
    (s : Socket) : Prop :=
  ∃ answers pieces next, Transcript capacity log first answers next ∧
    List.Forall₂ writes answers pieces ∧ s.texts = pieces.flatten ∧
      (s.opened = true → s.next = next)

namespace Relayed

/-- Nothing was sent before the first answer. -/
theorem start (log : List α) (first : ℕ) : Relayed capacity writes log first ⟨first, [], true⟩ :=
  ⟨[], [], first, .subscribed, .nil, rfl, fun _ => rfl⟩

/-- What was relayed stays so when more is sent on the channel. -/
theorem mono (h : Relayed capacity writes log first s) (hlog : log <+: log') :
    Relayed capacity writes log' first s := by
  obtain ⟨answers, pieces, next, htranscript, hrest⟩ := h
  exact ⟨answers, pieces, next, htranscript.mono hlog, hrest⟩

/-- When the loop is left, what was relayed stays as it was. -/
theorem leave (h : Relayed capacity writes log first s) (hclosed : s'.opened = false)
    (hsame : s'.texts = s.texts) : Relayed capacity writes log first s' := by
  obtain ⟨answers, pieces, next, htranscript, hpieces, htexts, -⟩ := h
  refine ⟨answers, pieces, next, htranscript, hpieces, hsame.trans htexts, fun hopen => ?_⟩
  rw [hclosed] at hopen
  cases hopen

/-- An answer is relayed, or the loop is left. -/
theorem receive (h : Relayed capacity writes log first s) (hopen : s.opened = true)
    (hrecv : recv capacity log s.next = some (answer, next)) (hwrites : writes answer piece)
    (hwrote : Socket.Wrote piece { s with next } s') : Relayed capacity writes log first s' := by
  rcases hwrote with ⟨hclosed, hsame⟩ | ⟨hafter, hwrote⟩
  · exact h.leave hclosed hsame
  · obtain ⟨answers, pieces, before, htranscript, hpieces, htexts, hnext⟩ := h
    refine ⟨answers ++ [answer], pieces ++ [piece], next, ?_, ?_, ?_, fun _ => hafter⟩
    · rw [hnext hopen] at hrecv
      exact htranscript.recv hrecv
    · exact List.rel_append hpieces (.cons hwrites .nil)
    · rw [hwrote, List.flatten_append, List.flatten_singleton]
      exact congrArg (· ++ piece) htexts

/-- A message of the client changes nothing of what was relayed. -/
theorem incoming (h : Relayed capacity writes log first s) (hopen : s.opened = true)
    (message : Incoming) (succeeds : Bool) :
    Relayed capacity writes log first (s.incoming succeeds message) := by
  obtain ⟨answers, pieces, next, htranscript, hpieces, htexts, hnext⟩ := h
  refine ⟨answers, pieces, next, htranscript, hpieces, ?_, fun _ => ?_⟩
  · rw [Socket.texts_incoming]
    exact htexts
  · exact (Socket.incoming_spec s succeeds message).1.trans (hnext hopen)

/-- As long as no more is sent than the channel holds, the texts are those for all the values. -/
theorem of_length_le (h : Relayed capacity writes log first s)
    (hlength : log.length ≤ first + capacity) :
    ∃ pieces next, List.Forall₂ (fun a => writes (.value a)) (log.extract first next) pieces ∧
      s.texts = pieces.flatten ∧ (s.opened = true → s.next = next) := by
  obtain ⟨answers, pieces, next, htranscript, hpieces, htexts, hnext⟩ := h
  refine ⟨pieces, next, ?_, htexts, hnext⟩
  rw [htranscript.eq_map_value hlength, List.forall₂_map_left_iff] at hpieces
  exact hpieces

end Relayed

end Relaying

/-! ## The updates of a job -/

/-- What is written for an answer of the channel of a job. -/
inductive Codec.Writes (codec : Codec) : Received JobUpdate → List String → Prop
  | update {u : JobUpdate} {payload : String} (h : codec.updateToString u = .ok payload) :
      codec.Writes (.value u) [payload]
  | resync (skipped : ℕ) :
      codec.Writes (.lagged skipped) [codec.valueToString (resyncRequired skipped)]

variable {env : Deployment} {codec : Codec} {userId j : Uuid} {w w' w₁ w₂ : Watch} {m : Move}
  {ms : List Move} {job : JobRow} {first : ℕ} {channel : List JobUpdate} {s s' : Socket}
  {succeeds : Bool}

/-- A read of the channel is relayed; the loop is left if an update cannot be serialized. -/
theorem Relayed.receive_update (h : Relayed 128 codec.Writes channel first s)
    (hopen : s.opened = true) (hreceive : s.receive codec channel succeeds = some s') :
    Relayed 128 codec.Writes channel first s' := by
  obtain ⟨⟨answer, next⟩, hrecv, rfl⟩ := Option.map_eq_some_iff.mp hreceive
  cases answer with
  | lagged skipped => exact h.receive hopen hrecv (.resync skipped) (Socket.wrote_send _)
  | value update =>
      show Relayed _ _ _ _ (Socket.forward codec succeeds _ (.value update))
      rw [Socket.forward]
      cases hpayload : codec.updateToString update with
      | error e => exact h.leave rfl rfl
      | ok payload => exact h.receive hopen hrecv (.update hpayload) (Socket.wrote_send _)

namespace Watch

/-- The client is sent the answers of its receiver. -/
def Follows (codec : Codec) (j : Uuid) (job : JobRow) (first : ℕ) (w : Watch) : Prop :=
  ∃ s, w.handler = .streaming job s ∧
    Relayed 128 codec.Writes (w.pool.shared.channel j) first s

theorem Follows.step (hok : Ok env w) (h : Follows codec j job first w)
    (hact : w.act env codec j m = some w') : Follows codec j job first w' := by
  obtain ⟨s, hhandler, hrelayed⟩ := h
  rcases act_streaming hhandler hact with ⟨l, hpool, hhandler'⟩ | ⟨hpool, hopen, s', hhandler', hs'⟩
  · exact ⟨s, hhandler', hrelayed.mono (channel_prefix_act hok.pool hpool)⟩
  · refine ⟨s', hhandler', ?_⟩
    rw [hpool]
    rcases hs' with ⟨succeeds, hreceive⟩ | ⟨message, succeeds, rfl⟩
    · exact hrelayed.receive_update hopen hreceive
    · exact hrelayed.incoming hopen message succeeds

/-! ## The job that is followed -/

/-- The user has this job. -/
def Owns (userId j : Uuid) (job : JobRow) : Prop := job.id = j ∧ job.userId = userId

/-- The rest of `get_job` when the job is found. -/
def readTargets (jobId : Uuid) (job : JobRow) : Api (JobRow × List TargetRow) := do
  let targets ← Api.query (.selectTargets jobId)
  pure (job, targets)

/-- The handler reads the job of the user, and goes on with it. -/
def ReadsOwn (userId j : Uuid) : Handler → Prop
  | .reading prog => prog = (Store.getJob userId j).run ∨
      ∃ job, Owns userId j job ∧ prog = (readTargets j job).run
  | .rejected _ => True
  | .subscribing job => Owns userId j job
  | .streaming job _ => Owns userId j job

theorem ReadsOwn.step (h : ReadsOwn userId j w.handler) (hact : w.act env codec j m = some w') :
    ReadsOwn userId j w'.handler := by
  cases m with
  | service l =>
      obtain ⟨pool, -, rfl⟩ := Option.map_eq_some_iff.mp hact
      exact h
  | read x =>
      obtain ⟨β, st, k, b, shared, hhandler, hexec, rfl⟩ := act_read hact
      rw [hhandler] at h
      rcases h with hprog | ⟨job, howns, hprog⟩
      · obtain ⟨rfl, hst, hk⟩ := Prog.step.inj hprog
        obtain rfl := eq_of_heq hst
        obtain rfl := eq_of_heq hk
        rcases Stmt.exec_query hexec with ⟨text, -, rfl, -⟩ | ⟨-, hexec⟩
        · trivial
        · obtain ⟨rfl, -⟩ := Prod.mk.inj (Option.some.inj hexec)
          cases hfound : (w.pool.shared.jobs.rows none).find?
              (fun v => v.id = j ∧ v.userId = userId) with
          | none => trivial
          | some job =>
              have howns : job.id = j ∧ job.userId = userId := by
                simpa using List.find?_some hfound
              exact Or.inr ⟨job, howns, rfl⟩
      · obtain ⟨rfl, hst, hk⟩ := Prog.step.inj hprog
        obtain rfl := eq_of_heq hk
        cases b with
        | error e => trivial
        | ok targets => exact howns
  | subscribe =>
      obtain ⟨job, hhandler, rfl⟩ := act_subscribe hact
      rw [hhandler] at h
      exact h
  | receive succeeds =>
      obtain ⟨job, s, s', hhandler, -, -, rfl⟩ := act_receive hact
      rw [hhandler] at h
      exact h
  | incoming message succeeds =>
      obtain ⟨job, s, hhandler, -, rfl⟩ := act_incoming hact
      rw [hhandler] at h
      exact h

end Watch

/-- The client that follows a job of its own is sent what was sent on the channel of the job
since it subscribed, each update once and in order, and the numbers of those that were dropped;
nothing is dropped unless more updates are sent than the channel holds. -/
theorem updates_relayed {ms₁ ms₂ : List Move}
    (hbefore : (Watch.start userId j).run env codec j ms₁ = some w₁)
    (hsubscribe : w₁.act env codec j .subscribe = some w₂)
    (hafter : w₂.run env codec j ms₂ = some w) :
    ∃ job s, w.handler = .streaming job s ∧ Watch.Owns userId j job ∧
      Relayed 128 codec.Writes (w.pool.shared.channel j) (w₁.pool.shared.channel j).length s := by
  have hok₁ : Watch.Ok env w₁ := (Watch.ok_start userId j).run hbefore
  have hok₂ : Watch.Ok env w₂ := (hok₁.step hsubscribe).1
  have hstart : Watch.ReadsOwn userId j (Watch.start userId j).handler := Or.inl rfl
  have howns₁ : Watch.ReadsOwn userId j w₁.handler :=
    Watch.run_induct (I := fun w => Watch.ReadsOwn userId j w.handler) Watch.ReadsOwn.step
      hstart hbefore
  have howns : Watch.ReadsOwn userId j w.handler :=
    Watch.run_induct (I := fun w => Watch.ReadsOwn userId j w.handler) Watch.ReadsOwn.step
      (howns₁.step hsubscribe) hafter
  obtain ⟨job, -, rfl⟩ := Watch.act_subscribe hsubscribe
  obtain ⟨s, hhandler, hrelayed⟩ :=
    Watch.run_of_step Watch.Follows.step hok₂ ⟨_, rfl, Relayed.start _ _⟩ hafter
  rw [hhandler] at howns
  exact ⟨job, s, hhandler, howns, hrelayed⟩

/-- The client subscribes before the last call of the worker and reads both later updates. -/
theorem updates_relayed_sample :
    ∃ w₁ w₂ w job s,
      (Watch.start 1 30).run Sample.deployment Sample.messages 30 Sample.asked = some w₁ ∧
        w₁.act Sample.deployment Sample.messages 30 .subscribe = some w₂ ∧
        w₂.run Sample.deployment Sample.messages 30
          (Sample.turns 9 ++ List.replicate 2 (.receive true)) = some w ∧
        w.handler = .streaming job s ∧ Sample.progress w.handler = some (.inr (2, true)) ∧
        Watch.Owns 1 30 job ∧ Relayed 128 Sample.messages.Writes (w.pool.shared.channel 30)
          (w₁.pool.shared.channel 30).length s := by
  have hrun : ((Watch.start 1 30).run Sample.deployment Sample.messages 30
      (Sample.asked ++ .subscribe :: (Sample.turns 9 ++ List.replicate 2 (.receive true)))).map
        Sample.seen = some (some (.inr (2, true)), [30]) := by decide +kernel
  obtain ⟨w, hw, hseen⟩ := Option.map_eq_some_iff.mp hrun
  rw [Watch.run_append] at hw
  obtain ⟨w₁, hrun₁, hrest⟩ := Option.bind_eq_some_iff.mp hw
  obtain ⟨w₂, hsubscribe, hrun₂⟩ := Option.bind_eq_some_iff.mp hrest
  obtain ⟨job, s, hhandler, howns, hrelayed⟩ := updates_relayed hrun₁ hsubscribe hrun₂
  exact ⟨w₁, w₂, w, job, s, hrun₁, hsubscribe, hrun₂, hhandler, (Prod.mk.inj hseen).1, howns,
    hrelayed⟩

end Service
