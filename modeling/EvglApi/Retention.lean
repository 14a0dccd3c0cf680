/-
# Connections in use stay, deleted ones are gone

A target refers to its connection with `ON DELETE RESTRICT`, and no statement deletes a target.  So
a connection that was named by a job is never deleted: its user is refused, and goes on seeing it.
And a connection that could be deleted was named by none, and its id does not come back.

* `Uses` is what a store has of a connection in use, `Gone` what it has of a deleted one; no step
  undoes them (`Advances.uses`, `Advances.gone`).
* `used_connections_stay` and `deleted_connections_gone` are what becomes of them.
-/
import EvglApi.Behalf

open Concurrency Mvcc

namespace Service

variable {env : Deployment} {p p' : Pool Stmt Role Outcome World} {w w' : World}
  {user owner id : Uuid} {provider : String} {n : ℕ} {r : Except ApiError Response}

/-! ## Connections in use -/

/-- A committed job of the user has a target with this connection. -/
def Uses (w : World) (id user : Uuid) (provider : String) : Prop :=
  ∃ v ∈ w.jobs, v.committed = true ∧ v.row.userId = user ∧
    ∃ t ∈ w.targetsOf v.row.id, t.connectionId = id ∧ t.provider = provider

/-- A connection that is used is there, and is one of the user. -/
theorem Uses.exists_connection (h : Uses w id user provider) (hinv : Inv env w) :
    ∃ c ∈ w.connections, c.id = id ∧ c.userId = user ∧ c.provider = provider := by
  obtain ⟨v, hv, -, huser, t, ht, hid, hprovider⟩ := h
  obtain ⟨row, hrow, hjob, rfl⟩ := mem_targetsOf.mp ht
  obtain ⟨v', hv', hid', -, -, -, c, hc, hcid, hcuser, hcprovider⟩ := hinv.targetJob row hrow
  obtain rfl := hinv.eq_of_jobId hv' hv (hid'.trans hjob)
  exact ⟨c, hc, hcid.trans hid, hcuser.trans huser, hcprovider.trans hprovider⟩

/-- A connection that is used goes on being used. -/
theorem Advances.uses (h : Advances env w w') (huses : Uses w id user provider) :
    Uses w' id user provider := by
  obtain ⟨v, hv, hc, huser, t, ht, hrest⟩ := huses
  obtain ⟨v', hv', hc', hfixed, -⟩ := h.evolves.jobs v hv hc
  refine ⟨v', hv', hc', (congrArg JobFixed.userId hfixed).trans huser, t, ?_, hrest⟩
  rw [congrArg JobFixed.id hfixed, h.enlisted v hv hc]
  exact ht

/-- A committed target makes its connection one that is used. -/
theorem uses_of_committed (hinv : Inv env w) {t : Version TargetRow} (ht : t ∈ w.targets)
    (hc : t.committed = true) {c : ConnectionRow} (hmem : c ∈ w.connections)
    (hid : t.row.connectionId = c.id) : Uses w c.id c.userId c.provider := by
  obtain ⟨v, hv, hvid, -, hvc, -, c', hc', hcid, hcuser, hcprovider⟩ := hinv.targetJob t ht
  obtain rfl := List.inj_on_of_nodup_map hinv.connectionIds hc' hmem (hcid.trans hid)
  exact ⟨v, hv, hvc.trans hc, hcuser.symm, t.row.toTargetFixed,
    mem_targetsOf.mpr ⟨t, ht, hvid.symm, rfl⟩, hid, hcprovider.symm⟩

/-! ## Deleted connections -/

/-- The id is that of a connection that is not there any more. -/
def Gone (w : World) (id : Uuid) : Prop := id ∈ w.drawn ∧ ∀ c ∈ w.connections, c.id ≠ id

/-- A connection that is gone does not come back. -/
theorem Advances.gone (h : Advances env w w') (hgone : Gone w id) : Gone w' id := by
  obtain ⟨hdrawn, hnone⟩ := hgone
  refine ⟨h.accounts.drawn hdrawn, fun c hc hid => ?_⟩
  obtain ⟨c₀, hc₀, hfixed⟩ := h.accounts.connections c hc (hid ▸ hdrawn)
  exact hnone c₀ hc₀ ((congrArg ConnectionFixed.id hfixed).trans hid)

/-- No target refers to a connection that is gone. -/
theorem Gone.connectionId_ne (h : Gone w id) (hinv : Inv env w) {j : Uuid} {t : TargetFixed}
    (ht : t ∈ w.targetsOf j) : t.connectionId ≠ id := by
  obtain ⟨row, hrow, -, rfl⟩ := mem_targetsOf.mp ht
  obtain ⟨-, -, -, -, -, -, c, hc, hcid, -⟩ := hinv.targetJob row hrow
  exact fun hid => h.2 c hc (hcid.trans hid)

/-! ## Requests -/

/-- A connection that is deleted is gone. -/
theorem gone_of_deleteConnection (hinv : Inv env w) {a : ℕ} (ha : a ≠ 0)
    (hexec : w.deleteConnection id user = some (.ok a, w')) : Gone w' id := by
  obtain ⟨hzero, -⟩ | ⟨c, hc, rfl, -, ⟨hrefused, -⟩ | ⟨-, rfl, -⟩⟩ := deleteConnection_cases hexec
  · exact absurd (Except.ok.inj hzero) ha
  · cases hrefused
  · refine ⟨hinv.connectionDrawn c hc, fun c' hc' => ?_⟩
    exact of_decide_eq_true (List.mem_filter.mp hc').2

/-- The reply to a deletion, by what the statement has answered. -/
def deletionReply (a : Except DbError ℕ) : Except ApiError Response :=
  (a.mapError .ofDb).bind fun rows =>
    if rows = 0 then .error (.notFound "connection not found") else .ok .noContent

/-- A reply to `oauth::delete_connection` tells what one statement has done. -/
theorem spans_deleteConnection
    (h : Spans (service env) (Advances env) (respond env n (.deleteConnection user id)) w (.reply r)
      w') :
    (∃ text, r = .error (.ofDb (.failure text))) ∨
      ∃ t a, Advances env w t ∧ t.deleteConnection id user = some (a, w') ∧
        r = deletionReply a := by
  obtain ⟨t, x, a, t', ht, hexec, hrest⟩ := Spans.step_inv h
  have hexec : Stmt.exec (.query (.deleteConnection id user)) x t = some (a, t') := hexec
  obtain ⟨text, -, rfl, -⟩ | ⟨-, hexec⟩ := Stmt.exec_query hexec
  · exact Or.inl ⟨text, Outcome.reply.inj (Spans.pure_inv hrest).1⟩
  · refine Or.inr ⟨t, a, ht, ?_⟩
    cases a with
    | error e =>
        obtain ⟨hreply, rfl⟩ := Spans.pure_inv hrest
        exact ⟨hexec, Outcome.reply.inj hreply⟩
    | ok rows =>
        cases rows with
        | zero =>
            obtain ⟨hreply, rfl⟩ := Spans.pure_inv hrest
            exact ⟨hexec, Outcome.reply.inj hreply⟩
        | succ k =>
            obtain ⟨hreply, rfl⟩ := Spans.pure_inv hrest
            exact ⟨hexec, Outcome.reply.inj hreply⟩

/-- A reply to `oauth::list_connections` is read at one moment. -/
theorem spans_listConnections
    (h : Spans (service env) (Advances env) (respond env n (.listConnections user)) w (.reply r)
      w') :
    (∃ text, r = .error (.ofDb (.failure text))) ∨
      ∃ t rows, Advances env w t ∧ r = .ok (.connections rows) ∧
        ∀ c, c ∈ rows ↔ c ∈ t.connections ∧ c.userId = user := by
  obtain ⟨t, x, a, t', ht, hexec, hrest⟩ := Spans.step_inv h
  have hexec : Stmt.exec (.query (.selectConnections user)) x t = some (a, t') := hexec
  obtain ⟨text, -, rfl, -⟩ | ⟨-, hexec⟩ := Stmt.exec_query hexec
  · exact Or.inl ⟨text, Outcome.reply.inj (Spans.pure_inv hrest).1⟩
  · obtain ⟨rfl, -⟩ := Prod.mk.inj (Option.some.inj hexec)
    refine Or.inr ⟨t, _, ht, Outcome.reply.inj (Spans.pure_inv hrest).1, fun c => ?_⟩
    rw [(orderBy_perm _ _).mem_iff, List.mem_filter, decide_eq_true_iff]

/-! ## What becomes of a connection in use -/

/-- The deletion of a connection in use is refused. -/
theorem refused_of_uses (hinv : Inv env w) (huses : Uses w id owner provider)
    {a : Except DbError ℕ} (hexec : w.deleteConnection id user = some (a, w')) :
    deletionReply a =
      .error (if user = owner then .ofDb (.foreignKeyViolation connectionInUseMessage)
        else .notFound "connection not found") := by
  obtain ⟨c, hc, rfl, rfl, -⟩ := huses.exists_connection hinv
  rcases deleteConnection_cases hexec with ⟨rfl, -, hnone⟩ | ⟨c', hc', hid, rfl, ⟨rfl, -⟩ |
    ⟨-, -, hfree⟩⟩
  · rw [if_neg fun huser => hnone c hc rfl huser.symm]
    rfl
  · obtain rfl := List.inj_on_of_nodup_map hinv.connectionIds hc' hc hid
    rw [if_pos rfl]
    rfl
  · obtain ⟨v, -, -, -, t, ht, htid, -⟩ := huses
    obtain ⟨row, hrow, -, rfl⟩ := mem_targetsOf.mp ht
    exact absurd htid (hfree row hrow)

/-- What became of the connection between two moments of a run. -/
structure Kept (p p' : Pool Stmt Role Outcome World) (c : ConnectionRow) : Prop where
  row : ∃ c' ∈ p'.shared.connections, c'.toConnectionFixed = c.toConnectionFixed
  deletions : ∀ i n user r, p.threads.length ≤ i →
    p'.threads[i]? = some ⟨.request n (.deleteConnection user c.id), .pure (.reply r)⟩ →
      (∃ text, r = .error (.ofDb (.failure text))) ∨
        r = .error (if user = c.userId then .ofDb (.foreignKeyViolation connectionInUseMessage)
          else .notFound "connection not found")
  lists : ∀ i n r, p.threads.length ≤ i →
    p'.threads[i]? = some ⟨.request n (.listConnections c.userId), .pure (.reply r)⟩ →
      (∃ text, r = .error (.ofDb (.failure text))) ∨ ∃ rows, r = .ok (.connections rows) ∧
        ∃ c' ∈ rows, c'.id = c.id ∧ c'.userId = c.userId ∧ c'.provider = c.provider

/-- **Connections that a job has named are kept.**  From then on the connection is there, its user's
list has it, and no request deletes it: the one of its user is refused because of the targets, and
the ones of others find nothing. -/
theorem used_connections_stay (h : Reachable env p) (hreach : Pool.Reaches (service env) p p')
    {t : Version TargetRow} (ht : t ∈ p.shared.targets) (hcommitted : t.committed = true) :
    ∃ c ∈ p.shared.connections, c.id = t.row.connectionId ∧ Kept p p' c := by
  have hinv : Inv env p.shared := h.poolOk.inv
  obtain ⟨-, -, -, -, -, -, c, hc, hid, -⟩ := hinv.targetJob t ht
  have huses : Uses p.shared c.id c.userId c.provider :=
    uses_of_committed hinv ht hcommitted hc hid.symm
  have hadvances : Advances env p.shared p'.shared := advances_of_reaches h hreach
  refine ⟨c, hc, hid, ?_, fun i n user r hi hreply => ?_, fun i n r hi hreply => ?_⟩
  · obtain ⟨c', hc', hid', -⟩ := (hadvances.uses huses).exists_connection hadvances.inv
    exact ⟨c', hc', hadvances.accounts.eq hinv hc hc' hid'⟩
  · obtain ⟨u, hspans, -⟩ := spans_of_answered h hreach hi hreply
    refine (spans_deleteConnection hspans).imp_right ?_
    rintro ⟨w, a, hw, hexec, rfl⟩
    exact refused_of_uses hw.inv (hw.uses huses) hexec
  · obtain ⟨u, hspans, -⟩ := spans_of_answered h hreach hi hreply
    refine (spans_listConnections hspans).imp_right ?_
    rintro ⟨w, rows, hw, rfl, hrows⟩
    obtain ⟨c', hc', hid', huser', hprovider'⟩ := (hw.uses huses).exists_connection hw.inv
    exact ⟨rows, rfl, c', (hrows c').mpr ⟨hc', huser'⟩, hid', huser', hprovider'⟩

namespace Sample

/-- The user asks, as the request at position `i`, to delete connection 10. -/
def deletion (i : ℕ) : List (Label Draw Request) :=
  [.arrive (.deleteConnection 1 10), .turn i {}]

/-- The answer to the request at position `i`, which deletes a connection of the user. -/
def deleting (p : Pool Stmt Role Outcome World) (i : ℕ) :
    Option ((Uuid × Uuid) × Except ApiError Response) :=
  match p.threads[i]? with
  | some ⟨.request _ (.deleteConnection user id), .pure (.reply r)⟩ => some ((user, id), r)
  | _ => none

theorem exists_of_deleting {i : ℕ} (h : deleting p i = some ((user, id), r)) :
    ∃ n, p.threads[i]? = some ⟨.request n (.deleteConnection user id), .pure (.reply r)⟩ := by
  unfold deleting at h
  split at h
  · next n user' id' r' hi =>
      obtain ⟨hkey, rfl⟩ := Prod.mk.inj (Option.some.inj h)
      obtain ⟨rfl, rfl⟩ := Prod.mk.inj hkey
      exact ⟨n, hi⟩
  · cases h

end Sample

/-- The user of a queued job is refused to delete its connection. -/
theorem used_connections_stay_sample :
    ∃ p p' r n, idleService.run (service Sample.deployment) (Sample.connect ++ Sample.enqueue) =
        some p ∧ p.run (service Sample.deployment) (Sample.deletion 5) = some p' ∧
      p'.threads[5]? = some ⟨.request n (.deleteConnection 1 10), .pure (.reply r)⟩ ∧
      ∃ c ∈ p.shared.connections, c.id = 10 ∧ Kept p p' c := by
  have hrun : ((idleService.run (service Sample.deployment)
      (Sample.connect ++ Sample.enqueue)).bind fun p =>
        (p.run (service Sample.deployment) (Sample.deletion 5)).map fun p' =>
          ((p.shared.targets.map fun v => (v.committed, v.row.connectionId)),
            (Sample.deleting p' 5).map Prod.fst)) = some ([(true, 10)], some (1, 10)) := by
    decide +kernel
  obtain ⟨p, hp, hlater⟩ := Option.bind_eq_some_iff.mp hrun
  obtain ⟨p', hp', hshown⟩ := Option.map_eq_some_iff.mp hlater
  obtain ⟨htargets, hdeleting⟩ := Prod.mk.inj hshown
  obtain ⟨⟨key, r⟩, hkey, rfl⟩ := Option.map_eq_some_iff.mp hdeleting
  obtain ⟨n, hi⟩ := Sample.exists_of_deleting hkey
  obtain ⟨t, ht, hrow⟩ : ∃ t ∈ p.shared.targets, (t.committed, t.row.connectionId) = (true, 10) :=
    List.mem_map.mp (htargets ▸ List.mem_singleton_self _)
  obtain ⟨hcommitted, hid⟩ := Prod.mk.inj hrow
  obtain ⟨c, hc, hcid, hkept⟩ := used_connections_stay ⟨_, hp⟩ ⟨_, hp'⟩ ht hcommitted
  exact ⟨p, p', r, n, hp, hp', hi, c, hc, hcid.trans hid, hkept⟩

/-! ## What becomes of a deleted connection -/

/-- What became of the id of a connection between two moments of a run: it is gone for rows,
targets, calls and requests. -/
structure Forgotten (p p' : Pool Stmt Role Outcome World) (id : Uuid) : Prop where
  rows : ∀ c ∈ p'.shared.connections, c.id ≠ id
  targets : ∀ t ∈ p'.shared.targets, t.row.connectionId ≠ id
  calls : ∀ (i : ℕ) (j : Uuid) (call : PublishCall)
    (k : Except ProviderError Publication → Prog Stmt Role Outcome Outcome),
    p'.threads[i]? = some ⟨.worker j, .step (.publish call) k⟩ →
      call.target.connectionId ≠ id
  deletions : ∀ i n user r, p.threads.length ≤ i →
    p'.threads[i]? = some ⟨.request n (.deleteConnection user id), .pure (.reply r)⟩ →
      (∃ text, r = .error (.ofDb (.failure text))) ∨
        r = .error (.notFound "connection not found")
  lists : ∀ i n user rows, p.threads.length ≤ i →
    p'.threads[i]? =
      some ⟨.request n (.listConnections user), .pure (.reply (.ok (.connections rows)))⟩ →
      ∀ c ∈ rows, c.id ≠ id

/-- A connection is gone after a good reply to the request to delete it. -/
theorem gone_of_deleted {reply : Response}
    (h : Spans (service env) (Advances env) (respond env n (.deleteConnection user id)) w
      (.reply (.ok reply)) w') : Gone w' id := by
  obtain ⟨text, hreply⟩ | ⟨t, a, ht, hexec, hreply⟩ := spans_deleteConnection h
  · cases hreply
  · cases a with
    | error e => cases hreply
    | ok rows =>
        refine gone_of_deleteConnection ht.inv (fun hzero => ?_) hexec
        rw [hzero] at hreply
        cases hreply

/-- **A deleted connection is gone.**  Once its user was told so, it is never found again, no target
and no call is about it, and no other connection is given its id. -/
theorem deleted_connections_gone {i : ℕ} {reply : Response} (h : Reachable env p)
    (hi : p.threads[i]? =
      some ⟨.request n (.deleteConnection user id), .pure (.reply (.ok reply))⟩)
    (hreach : Pool.Reaches (service env) p p') : Forgotten p p' id := by
  have hgone : Gone p.shared id := by
    obtain ⟨u, hspans, hu⟩ := spans_of_answered (Pool.Reaches.refl _) h (Nat.zero_le i) hi
    exact hu.gone (gone_of_deleted hspans)
  have hadvances : Advances env p.shared p'.shared := advances_of_reaches h hreach
  have hgone' : Gone p'.shared id := hadvances.gone hgone
  have hreachable : Reachable env p' := h.trans hreach
  refine ⟨hgone'.2, fun t ht => ?_, fun i j call k hi => ?_, fun i n user r hi hreply => ?_,
    fun i n user rows hi hreply c hc => ?_⟩
  · exact hgone'.connectionId_ne hadvances.inv (mem_targetsOf.mpr ⟨t, ht, rfl, rfl⟩)
  · exact hgone'.connectionId_ne hadvances.inv (target_of_calling hreachable hi)
  · obtain ⟨u, hspans, -⟩ := spans_of_answered h hreach hi hreply
    refine (spans_deleteConnection hspans).imp_right ?_
    rintro ⟨w, a, hw, hexec, rfl⟩
    rcases deleteConnection_cases hexec with ⟨rfl, -⟩ | ⟨c, hc, hcid, -⟩
    · rfl
    · exact absurd hcid ((hw.gone hgone).2 c hc)
  · obtain ⟨u, hspans, -⟩ := spans_of_answered h hreach hi hreply
    obtain ⟨text, hfailed⟩ | ⟨w, rows', hw, hrows, hmem⟩ := spans_listConnections hspans
    · cases hfailed
    · obtain rfl := Response.connections.inj (Except.ok.inj hrows)
      exact (hw.gone hgone).2 c ((hmem c).mp hc).1

/-- The user of a connection that no job has named deletes it, and then tries it once more. -/
theorem deleted_connections_gone_sample :
    ∃ p p' reply n, idleService.run (service Sample.deployment)
        (Sample.connect ++ Sample.deletion 3) = some p ∧
      p.threads[3]? =
        some ⟨.request n (.deleteConnection 1 10), .pure (.reply (.ok reply))⟩ ∧
      p.run (service Sample.deployment) (Sample.deletion 4) = some p' ∧ Forgotten p p' 10 := by
  have hrun : ((idleService.run (service Sample.deployment)
      (Sample.connect ++ Sample.deletion 3)).bind fun p =>
        (p.run (service Sample.deployment) (Sample.deletion 4)).map fun _ =>
          (Sample.deleting p 3).map fun (key, r) => (key, r.isOk)) =
            some (some ((1, 10), true)) := by
    decide +kernel
  obtain ⟨p, hp, hlater⟩ := Option.bind_eq_some_iff.mp hrun
  obtain ⟨p', hp', hdeleting⟩ := Option.map_eq_some_iff.mp hlater
  obtain ⟨⟨key, r⟩, hkey, hshown⟩ := Option.map_eq_some_iff.mp hdeleting
  obtain ⟨rfl, hok⟩ := Prod.mk.inj hshown
  obtain ⟨n, hi⟩ := Sample.exists_of_deleting hkey
  cases r with
  | error e => cases hok
  | ok reply =>
      exact ⟨p, p', reply, n, hp, hi, hp', deleted_connections_gone ⟨_, hp⟩ hi ⟨_, hp'⟩⟩

end Service
