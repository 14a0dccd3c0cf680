/-
# Admissions and sales

`register_entitlement` binds a ticket id to a paid order and does not look at the quantity
of the order, so nothing but the callers keeps the entitlements of an order within it.

* `length_le_sum`: what is covered by bounded classes is bounded by their sum;
* `Sold`: in a run of such registrations, the tickets of an order are the ones that were
  asked for, each once, and its order is paid;
* `entitlements_within_sales`: if the callers ask for no more tickets of the orders of an event
  than these have, the entitlements of the event are within the paid quantity that
  `configure_event` counts.
-/
import EvglApi.Backing
import EvglApi.Ticketing
import Mathlib.Data.List.Dedup
import Mathlib.Algebra.BigOperators.Group.List.Basic

open Concurrency Keyed Tries

/-! ## Counting -/

namespace Counting

variable {α β : Type}

/-- If every member of a list belongs to some class and no class has more than its weight,
the list has no more than the sum of the weights. -/
theorem length_le_sum {R : α → β → Prop} [∀ a b, Decidable (R a b)] {w : β → ℕ} {l : List α}
    {m : List β} (hcover : ∀ a ∈ l, ∃ b ∈ m, R a b)
    (hfew : ∀ b ∈ m, (l.filter fun a => R a b).length ≤ w b) : l.length ≤ (m.map w).sum := by
  induction m generalizing l with
  | nil =>
      cases l with
      | nil => exact Nat.le_refl 0
      | cons a l =>
          obtain ⟨b, hb, -⟩ := hcover a List.mem_cons_self
          cases hb
  | cons b m ih =>
      -- the members of the first class, and the others
      have hsplit := List.length_eq_length_filter_add (l := l) fun a => decide (R a b)
      have hrest : (l.filter fun a => !decide (R a b)).length ≤ (m.map w).sum := by
        refine ih (fun a ha => ?_) fun b' hb' => ?_
        · obtain ⟨hmem, hnot⟩ := List.mem_filter.mp ha
          obtain ⟨b', hb', hR⟩ := hcover a hmem
          rcases List.mem_cons.mp hb' with rfl | hb'
          · simp [hR] at hnot
          · exact ⟨b', hb', hR⟩
        · have hsub := (List.filter_sublist (p := fun a => !decide (R a b)) (l := l)).filter
            fun a => decide (R a b')
          exact hsub.length_le.trans (hfew b' (List.mem_cons_of_mem _ hb'))
      rw [List.map_cons, List.sum_cons, hsplit]
      exact Nat.add_le_add (hfew b List.mem_cons_self) hrest

/-- Distinct members of a list are no more than its distinct members. -/
theorem length_le_dedup [DecidableEq α] {l m : List α} (hl : l.Nodup) (hsub : l ⊆ m) :
    l.length ≤ m.dedup.length :=
  (List.subperm_of_subset hl fun _ ha => List.mem_dedup.mpr (hsub ha)).length_le

end Counting

open Counting

namespace Admission

variable {SigningKey VerifyingKey : Type} {env : Deployment SigningKey VerifyingKey}
  {procedures : Procedures} {db db' db₀ : Database} {α : Type}

/-! ## Registered tickets -/

/-- The tickets that were asked to be registered for an order, by calls that name its event. -/
def Database.ticketsAsked (db : Database) (orderId : Uuid) : List Uuid :=
  db.requests.filterMap fun q =>
    match q with
    | .registerEntitlement ticketId orderId' eventId _ _ =>
        if orderId' = orderId ∧ ∃ o ∈ db.orders, o.id = orderId ∧ o.eventId = eventId then
          some ticketId
        else none
    | _ => none

/-- The entitlements of an order. -/
def Database.entitlementsOf (db : Database) (orderId : Uuid) : List EntitlementRow :=
  db.entitlements.filter (·.orderId = orderId)

/-- The tickets that can be admitted for an event. -/
def Database.admissible (db : Database) (eventId : Uuid) : List EntitlementRow :=
  db.entitlements.filter fun e => e.eventId = eventId ∧ e.status = "active"

/-- The order as the admission service sees it. -/
def orderOf (o : Ticketing.OrderRow) : OrderRow := ⟨o.id, o.eventId, o.status⟩

/-- The call registers an entitlement. -/
def Request.Entitles : Request → Prop
  | .registerEntitlement .. => True
  | _ => False

/-- Every ticket is registered once, on request and for a paid order. -/
structure Sold (orders : List OrderRow) (db : Database) : Prop where
  orders_eq : db.orders = orders
  once : (db.entitlements.map (·.ticketId)).Nodup
  asked : ∀ e ∈ db.entitlements, e.ticketId ∈ db.ticketsAsked e.orderId
  paid : ∀ e ∈ db.entitlements, ∃ o ∈ orders, e.toEntitlementFixed.Ordered o ∧ o.status = "paid"

/-! ## Steps -/

theorem requests_of_change {q : Query α} (h : Change procedures db q db') :
    db'.requests = db.requests := by
  cases h with
  | _ => rfl

theorem requests_stmt {β : Type} {st : Stmt β} {x : Option String} {b : β}
    (h : st.exec procedures x db = some (b, db')) : db'.requests = db.requests := by
  obtain ⟨q⟩ := st
  exact requests_of_change (change_stmt h)

variable {p p' : Pool Stmt Role Outcome Database} {l : Label (Option String) Request}
  {ls : List (Label (Option String) Request)}

/-- The call of the thread has arrived. -/
def Requested (db : Database) : Thread Stmt Role Outcome → Prop
  | ⟨.request _ q, _⟩ => q ∈ db.requests

theorem Requested.congr {r : Role} {prog prog' : Prog Stmt Role Outcome Outcome}
    (h : Requested db ⟨r, prog⟩) (hrequests : db'.requests = db.requests) :
    Requested db' ⟨r, prog'⟩ := by
  obtain ⟨n, q⟩ := r
  show q ∈ db'.requests
  rw [hrequests]
  exact h

theorem upheld_requested :
    Upheld (admission env) fun db t => Requested db t ∧ t.prog.Every fun _ => True := by
  refine Upheld.of_every (fun q db => quiet_handle _ q)
    (fun {_ r st k x db b db'} h hexec => h.congr (requests_stmt hexec))
    (fun q db => List.mem_append_right _ (List.mem_singleton_self q))
    (fun {_ st x db b db' t} hexec h => h.congr (requests_stmt hexec)) fun {r db t} h => ?_
  obtain ⟨⟨n, q⟩, prog⟩ := t
  obtain ⟨m, q'⟩ := r
  exact List.mem_append_left _ h

/-- A call at work has arrived. -/
theorem mem_requests_of_reaches (hreach : Pool.Reaches (admission env) ⟨db₀, []⟩ p) {i n : ℕ}
    {q : Request} {prog : Prog Stmt Role Outcome Outcome}
    (ht : p.threads[i]? = some ⟨.request n q, prog⟩) : q ∈ p.shared.requests :=
  (upheld_requested.of_reaches hreach ht).1

/-- The statement of a call of `register_entitlement` inserts what the call asks for, or
fails. -/
theorem stmt_registerEntitlement {β : Type} {n : ℕ} {ticketId orderId eventId : Uuid}
    {issuanceEpoch : ℤ} {now : Instant} {st : Stmt β} {k : β → Prog Stmt Role Outcome Outcome}
    {x : Option String} {b : β}
    (h : Registers env db
      ⟨.request n (.registerEntitlement ticketId orderId eventId issuanceEpoch now), .step st k⟩)
    (hexec : st.exec env.procedures x db = some (b, db')) :
    db' = db ∨ db' = (db.insertEntitlement
      { ticketId, orderId, eventId, issuanceEpoch, createdAt := timestamptz now }).2 := by
  rcases h _ rfl with hprog | ⟨o, hprog, -⟩
  · cases hprog
    cases x with
    | some e =>
        obtain ⟨-, rfl⟩ := Prod.mk.inj (Option.some.inj hexec)
        exact Or.inl rfl
    | none =>
        obtain ⟨-, rfl⟩ := Prod.mk.inj (Option.some.inj hexec)
        exact Or.inr rfl
  · cases hprog

namespace Sold

variable {orders : List OrderRow}

/-- A registered ticket was asked for. -/
theorem insertEntitlement (h : Sold orders db) {fixed : EntitlementFixed} {issuanceEpoch : ℤ}
    {now : Instant} (hasked : .registerEntitlement fixed.ticketId fixed.orderId fixed.eventId
      issuanceEpoch now ∈ db.requests) : Sold orders (db.insertEntitlement fixed).2 := by
  unfold Database.insertEntitlement
  cases hpaid : db.paidOrder fixed.orderId fixed.eventId with
  | none => exact h
  | some o =>
      obtain ⟨ho, hid, hevent, hstatus⟩ := found hpaid
      dsimp only
      rcases insertBound_cases (fun e : EntitlementRow => e.ticketId)
        (fun old => old.orderId = fixed.orderId ∧ old.eventId = fixed.eventId ∧
          old.issuanceEpoch = fixed.issuanceEpoch) (Database.newEntitlement fixed)
            db.entitlements with ⟨hnew, heq⟩ | ⟨old, hold, heq⟩
      · rw [heq]
        refine ⟨h.orders_eq, nodup_concat h.once fun e he => ?_, fun e he => ?_, fun e he => ?_⟩
        · exact of_decide_eq_false (eq_false_of_ne_true (List.find?_eq_none.mp hnew e he))
        · rcases List.mem_append.mp he with he | he
          · exact h.asked e he
          · obtain rfl := List.mem_singleton.mp he
            exact List.mem_filterMap.mpr ⟨_, hasked, if_pos ⟨rfl, o, ho, hid, hevent⟩⟩
        · rcases List.mem_append.mp he with he | he
          · exact h.paid e he
          · obtain rfl := List.mem_singleton.mp he
            exact ⟨o, h.orders_eq ▸ ho, ⟨hid, hevent⟩, hstatus⟩
      · rw [heq]
        exact h

/-- The arrival of a call. -/
theorem enter (h : Sold orders db) (r : Role) : Sold orders (db.enter r) := by
  obtain ⟨n, q⟩ := r
  refine ⟨h.orders_eq, h.once, fun e he => ?_, h.paid⟩
  show e.ticketId ∈ (db.requests ++ [q]).filterMap _
  rw [List.filterMap_append]
  exact List.mem_append_left _ (h.asked e he)

theorem act (h : Sold orders p.shared) (hreach : Pool.Reaches (admission env) ⟨db₀, []⟩ p)
    (honly : ∀ q ∈ p.shared.requests, q.Entitles) (hact : p.act (admission env) l = some p') :
    Sold orders p'.shared := by
  cases l with
  | arrive q =>
      obtain rfl := Option.some.inj hact
      exact h.enter _
  | turn i x =>
      obtain ⟨⟨⟨n, q⟩, prog⟩, ht, hturn⟩ := Option.bind_eq_some_iff.mp hact
      have hq := mem_requests_of_reaches hreach ht
      have hregisters := registers_of_reaches hreach ht
      have hentitles := honly q hq
      cases prog with
      | pure o => cases hturn
      | fork r child k => exact (upheld_registers.of_reaches hreach ht).2.elim
      | step st k =>
          obtain ⟨⟨b, db'⟩, hexec, rfl⟩ := Option.map_eq_some_iff.mp hturn
          cases q with
          | registerEntitlement ticketId orderId eventId issuanceEpoch now =>
              rcases stmt_registerEntitlement hregisters hexec with heq | heq
              · exact heq ▸ h
              · exact heq ▸ h.insertEntitlement hq
          | _ => exact hentitles.elim

/-- The requests of a run are those of its beginnings and more. -/
theorem requests_of_run (hrun : p.run (admission env) ls = some p') :
    p.shared.requests <+: p'.shared.requests := by
  refine Pool.run_rel (T := fun db db' => db.requests <+: db'.requests)
    (fun _ => List.prefix_refl _) List.IsPrefix.trans (fun st x db b db' h => ?_) (fun r db => ?_)
    hrun
  · exact requests_stmt h ▸ List.prefix_refl _
  · cases r with
    | request n q => exact List.prefix_append _ _

theorem run (h : Sold orders p.shared) (hreach : Pool.Reaches (admission env) ⟨db₀, []⟩ p)
    (honly : ∀ q ∈ p'.shared.requests, q.Entitles) (hrun : p.run (admission env) ls = some p') :
    Sold orders p'.shared := by
  induction ls generalizing p with
  | nil =>
      obtain rfl := Option.some.inj hrun
      exact h
  | cons l ls ih =>
      have hbefore := requests_of_run hrun
      obtain ⟨p₁, hact, hrest⟩ := Option.bind_eq_some_iff.mp hrun
      have hstep := h.act hreach (fun q hq => honly q (hbefore.subset hq)) hact
      exact ih hstep (hreach.trans (Pool.Reaches.act hact)) hrest

/-- An order has no more entitlements than tickets that were asked for. -/
theorem length_entitlementsOf_le (h : Sold orders db) (orderId : Uuid) :
    (db.entitlementsOf orderId).length ≤ (db.ticketsAsked orderId).dedup.length := by
  have hnodup : ((db.entitlementsOf orderId).map (·.ticketId)).Nodup :=
    h.once.sublist (List.filter_sublist.map _)
  have hsub : (db.entitlementsOf orderId).map (·.ticketId) ⊆ db.ticketsAsked orderId := by
    intro ticketId hticket
    obtain ⟨e, he, rfl⟩ := List.mem_map.mp hticket
    obtain ⟨hmem, horder⟩ := List.mem_filter.mp he
    rw [← of_decide_eq_true horder]
    exact h.asked e hmem
  have hlength := length_le_dedup hnodup hsub
  rwa [List.length_map] at hlength

/-- If the paid orders of an event have no more entitlements than tickets, the tickets that can
be admitted for the event are within the paid quantity. -/
theorem length_admissible_le {tickets : Ticketing.Database} {orders : List OrderRow}
    {eventId : Uuid} (h : Sold orders db) (hsales : orders = tickets.orders.map orderOf)
    (hfew : ∀ o ∈ tickets.orders, o.eventId = eventId → o.status = "paid" →
      (db.entitlementsOf o.id).length ≤ o.quantity) :
    (db.admissible eventId).length ≤ tickets.paid eventId := by
  refine length_le_sum (R := fun (e : EntitlementRow) (o : Ticketing.OrderRow) => e.orderId = o.id)
    (fun e he => ?_) fun o ho => ?_
  · obtain ⟨hmem, hcond⟩ := List.mem_filter.mp he
    obtain ⟨hevent, -⟩ := of_decide_eq_true hcond
    obtain ⟨o', ho', ⟨hid, hevent'⟩, hstatus⟩ := h.paid e hmem
    rw [hsales] at ho'
    obtain ⟨o, ho, rfl⟩ := List.mem_map.mp ho'
    exact ⟨o, List.mem_filter.mpr ⟨ho, decide_eq_true ⟨hevent'.trans hevent, hstatus⟩⟩, hid.symm⟩
  · have hsub : ((db.admissible eventId).filter fun e => e.orderId = o.id).length ≤
        (db.entitlementsOf o.id).length := (List.filter_sublist.filter _).length_le
    obtain ⟨hmem, hcond⟩ := List.mem_filter.mp ho
    obtain ⟨hevent, hstatus⟩ := of_decide_eq_true hcond
    exact hsub.trans (hfew o hmem hevent hstatus)

end Sold

/-! ## The theorem -/

/-- In every run of registrations of entitlements over the orders of the ticket sale, an
order has no more entitlements than distinct tickets that were asked for by calls that name its
event.  If these are within the quantity of the order, so are its entitlements; if they are for
every paid order of an event, the tickets that can be admitted for it are within the paid stock. -/
theorem entitlements_within_sales {tickets : Ticketing.Database}
    (hrun : Pool.run (admission env) ⟨db₀, []⟩ ls = some p) (hempty : db₀.entitlements = [])
    (hsales : db₀.orders = tickets.orders.map orderOf)
    (honly : ∀ q ∈ p.shared.requests, q.Entitles) :
    (∀ orderId, (p.shared.entitlementsOf orderId).length ≤
      (p.shared.ticketsAsked orderId).dedup.length) ∧
    (∀ o ∈ tickets.orders, (p.shared.ticketsAsked o.id).dedup.length ≤ o.quantity →
      (p.shared.entitlementsOf o.id).length ≤ o.quantity) ∧
    ∀ eventId, (∀ o ∈ tickets.orders, o.eventId = eventId → o.status = "paid" →
        (p.shared.ticketsAsked o.id).dedup.length ≤ o.quantity) →
      (p.shared.admissible eventId).length ≤ tickets.paid eventId := by
  have hstart : Sold db₀.orders db₀ := by
    refine ⟨rfl, ?_, fun e he => ?_, fun e he => ?_⟩
    · rw [hempty]
      exact List.nodup_nil
    · rw [hempty] at he
      cases he
    · rw [hempty] at he
      cases he
  have hsold : Sold db₀.orders p.shared := hstart.run (Pool.Reaches.refl _) honly hrun
  have hfew : ∀ o : Ticketing.OrderRow, (p.shared.ticketsAsked o.id).dedup.length ≤ o.quantity →
      (p.shared.entitlementsOf o.id).length ≤ o.quantity := fun o hasked =>
    (hsold.length_entitlementsOf_le o.id).trans hasked
  refine ⟨hsold.length_entitlementsOf_le, fun o _ => hfew o, fun eventId hasked => ?_⟩
  exact hsold.length_admissible_le hsales fun o ho hevent hpaid =>
    hfew o (hasked o ho hevent hpaid)

/-! ## Runs of the service -/

namespace Sample

/-- A paid order of one ticket. -/
def oneTicket : Ticketing.Database :=
  { inventory := [], holds := [], orders := [⟨9, 7, 1, "paid"⟩], locks := [], requests := [] }

/-- The admission database over the order. -/
def oneOrder : Database := { noRows with orders := oneTicket.orders.map orderOf }

/-- Two tickets that are registered for the order. -/
def twoTickets : List (Label (Option String) Request) :=
  [.arrive (.registerEntitlement 8 9 7 1 0), .turn 0 none,
   .arrive (.registerEntitlement 10 9 7 1 0), .turn 1 none]

/-- What the theorems below need of a pool. -/
def sold (p : Pool Stmt Role Outcome Database) : ℕ × ℕ × Bool :=
  ((p.shared.entitlementsOf 9).length, (p.shared.admissible 7).length,
    p.shared.requests.all fun q =>
      match q with
      | .registerEntitlement .. => true
      | _ => false)

theorem entitles_of_all {requests : List Request}
    (h : (requests.all fun q =>
      match q with
      | .registerEntitlement .. => true
      | _ => false) = true) : ∀ q ∈ requests, q.Entitles := by
  intro q hq
  have hq' := List.all_eq_true.mp h q hq
  cases q with
  | registerEntitlement => trivial
  | _ => cases hq'

end Sample

/-- One ticket that is registered for its order. -/
theorem entitlements_within_sales_sample :
    ∃ p, Pool.run (admission Sample.deployment) ⟨Sample.oneOrder, []⟩
        [.arrive (.registerEntitlement 8 9 7 1 0), .turn 0 none] = some p ∧
      (p.shared.admissible 7).length = 1 ∧
      (p.shared.admissible 7).length ≤ Sample.oneTicket.paid 7 := by
  have hview : (Pool.run (admission Sample.deployment) ⟨Sample.oneOrder, []⟩
      [.arrive (.registerEntitlement 8 9 7 1 0), .turn 0 none]).map
        (fun p => (Sample.sold p, p.shared.ticketsAsked 9)) = some ((1, 1, true), [8]) := by
    decide +kernel
  obtain ⟨p, hp, hsold⟩ := Option.map_eq_some_iff.mp hview
  obtain ⟨hcounts, hasked⟩ := Prod.mk.inj hsold
  obtain ⟨-, hrest⟩ := Prod.mk.inj hcounts
  obtain ⟨hone, hall⟩ := Prod.mk.inj hrest
  refine ⟨p, hp, hone, ?_⟩
  refine (entitlements_within_sales hp rfl rfl (Sample.entitles_of_all hall)).2.2 7 ?_
  intro o ho _ _
  obtain rfl := List.mem_singleton.mp ho
  show (p.shared.ticketsAsked 9).dedup.length ≤ 1
  rw [hasked]
  decide

/-- Two tickets are registered for an order of one ticket. -/
theorem not_entitlements_within_sales :
    ¬ ∀ (env : Deployment Unit Unit) (db₀ : Database) (tickets : Ticketing.Database)
        (ls : List (Label (Option String) Request)) (p : Pool Stmt Role Outcome Database),
      Pool.run (admission env) ⟨db₀, []⟩ ls = some p → db₀.entitlements = [] →
      db₀.orders = tickets.orders.map orderOf → (∀ q ∈ p.shared.requests, q.Entitles) →
      (∀ o ∈ tickets.orders, (p.shared.entitlementsOf o.id).length ≤ o.quantity) ∧
        ∀ eventId, (p.shared.admissible eventId).length ≤ tickets.paid eventId := by
  intro h
  have hview : (Pool.run (admission Sample.deployment) ⟨Sample.oneOrder, []⟩
      Sample.twoTickets).map Sample.sold = some (2, 2, true) := by
    decide +kernel
  obtain ⟨p, hp, hsold⟩ := Option.map_eq_some_iff.mp hview
  obtain ⟨htwo, hrest⟩ := Prod.mk.inj hsold
  obtain ⟨-, hall⟩ := Prod.mk.inj hrest
  have hfew := (h Sample.deployment Sample.oneOrder Sample.oneTicket Sample.twoTickets p hp rfl rfl
    (Sample.entitles_of_all hall)).1 _ (List.mem_singleton_self _)
  change (p.shared.entitlementsOf 9).length ≤ 1 at hfew
  rw [htwo] at hfew
  exact absurd hfew (by decide)

end Admission
