/-
# Capacity and allocated stock

The guard of `configure_event` sums the stock that was committed when its statement began,
and the statement may have waited for the lock since then.  The capacity of an event covers
its stock in all states of a run exactly if every update is `Guarded`.

A transaction that holds the lock of an event may count on its rows (`Rely`).
-/
import EvglApi.Inventory

open Concurrency
open Admission (Timestamp timestamptz)

namespace Ticketing

variable {env : Deployment} {db db' db'' seen : Database} {n m : ℕ} {e e' : Uuid} {now : Timestamp}
  {q : Request} {α : Type}

/-! ## The discipline -/

/-- A lock has one holder. -/
def Exclusive (db : Database) : Prop :=
  ∀ key m m', (key, m) ∈ db.locks → (key, m') ∈ db.locks → m = m'

/-- Transaction `n` holds the lock of the event. -/
def Locked (env : Deployment) (n : ℕ) (e : Uuid) (db : Database) : Prop :=
  (env.lockKey e, n) ∈ db.locks

/-- What transaction `n` may count on: its locks, and the rows they protect. -/
structure Rely (env : Deployment) (n : ℕ) (db db' : Database) : Prop where
  requests : db.requests <+: db'.requests
  locks : ∀ key, (key, n) ∈ db'.locks ↔ (key, n) ∈ db.locks
  rows : ∀ e, Locked env n e db → db'.rowsOf e = db.rowsOf e

theorem Rely.refl (n : ℕ) (db : Database) : Rely env n db db :=
  ⟨List.prefix_refl _, fun _ => Iff.rfl, fun _ _ => rfl⟩

/-- What a call may count on adds up. -/
theorem Rely.trans (h : Rely env n db db') (h' : Rely env n db' db'') : Rely env n db db'' where
  requests := h.requests.trans h'.requests
  locks := fun key => (h'.locks key).trans (h.locks key)
  rows := fun e hlocked =>
    (h'.rows e ((h.locks _).mpr hlocked)).trans (h.rows e hlocked)

/-- A lock that is held stays held until its call ends. -/
theorem Rely.locked (h : Rely env n db db') (hlocked : Locked env n e db) : Locked env n e db' :=
  (h.locks _).mpr hlocked

/-- The call has arrived. -/
def Taken (db : Database) : Role → Prop
  | .request n q => db.requests[n]? = some q

theorem Taken.mono {r : Role} (hrequests : db.requests <+: db'.requests) (h : Taken db r) :
    Taken db' r := by
  obtain ⟨n, q⟩ := r
  obtain ⟨hn, -⟩ := List.getElem?_eq_some_iff.mp h
  obtain ⟨rest, heq⟩ := hrequests
  show db'.requests[n]? = some q
  rw [← heq, List.getElem?_append_left hn]
  exact h

/-- An upsert that does not fail is guarded. -/
def GuardedStmt {β : Type} : Stmt β → Option String → Database → Prop
  | .upsertInventory _ seen row, none, db => Guarded db seen row
  | _, _, _ => True

/-- An upsert is stamped with the time. -/
def AtTime (now : Timestamp) {β : Type} : Stmt β → Prop
  | .upsertInventory _ _ row => row.updatedAt = now
  | _ => True

/-- The time of a call, as the database keeps it. -/
def Request.time : Request → Timestamp
  | .configureEvent _ now => timestamptz now
  | .allocate _ now => timestamptz now

/-- The calls at one time. -/
def calls (env : Deployment) (now : Timestamp) : Discipline (ticketing env) where
  inv db := Exclusive db ∧ ∀ e, Stocked now db e
  assume _ st x db := GuardedStmt st x db
  admits q := q.time = now
  needs _ st _ := AtTime now st
  guar r db db' := match r with
    | .request n _ => ∀ m, m ≠ n → Rely env m db db'
  rely r db db' := match r with
    | .request n _ => Rely env n db db'
  taken := Taken
  post _ _ _ := True
  rely_refl r db := by
    obtain ⟨n, q⟩ := r
    exact Rely.refl n db
  rely_trans {r _ _ _} h h' := by
    obtain ⟨n, q⟩ := r
    exact Rely.trans h h'
  rely_of_guar {r r' db db'} _ _ htaken htaken' hne hguar := by
    obtain ⟨n, q⟩ := r
    obtain ⟨m, q'⟩ := r'
    refine hguar m ?_
    rintro rfl
    -- a number belongs to one call
    have hq' : Taken db' (.request m q') :=
      Taken.mono (hguar (m + 1) (Nat.succ_ne_self m)).requests htaken'
    obtain rfl := Option.some.inj (htaken.symm.trans hq')
    exact hne rfl
  taken_of_guar {r r' _ _} hguar htaken := by
    obtain ⟨n, q⟩ := r
    exact htaken.mono (hguar (n + 1) (Nat.succ_ne_self n)).requests
  post_of_rely _ h := h

/-! ## Statements -/

theorem exclusive_release (h : Exclusive db) : Exclusive (db.release n) :=
  fun key m m' hm hm' => h key m m' (List.mem_filter.mp hm).1 (List.mem_filter.mp hm').1

/-- The end of a transaction takes no lock from another one. -/
theorem mem_release {key : ℤ} (hne : m ≠ n) :
    (key, m) ∈ (db.release n).locks ↔ (key, m) ∈ db.locks := by
  unfold Database.release
  rw [List.mem_filter]
  simp [hne]

/-- A step that writes the rows of an event at most, and releases the locks of `n`. -/
theorem rely_release (hrequests : db'.requests = db.requests) (hlocks : db'.locks = db.locks)
    (hrows : ∀ e, Locked env m e db → db'.rowsOf e = db.rowsOf e) (hne : m ≠ n) :
    Rely env m db (db'.release n) where
  requests := hrequests ▸ List.prefix_refl _
  locks := fun key => by rw [mem_release hne, hlocks]
  rows := fun e hlocked => hrows e hlocked

/-- Two transactions do not hold the lock of one event. -/
theorem ne_of_locked (h : Exclusive db) (hn : Locked env n e db) (hne : m ≠ n)
    (hm : Locked env m e' db) : e' ≠ e := by
  rintro rfl
  exact hne (h _ m n hm hn)

/-- The statement of a call keeps the discipline if each of its outcomes does. -/
theorem keeps_attempt {st : Stmt (Except String α)} {Q : α → Database → Prop}
    (htime : AtTime now st)
    (hfail : ∀ x e db, x = some e → st.exec x db = some (.error e, db.release n))
    (h : ∀ db', Rely env n db db' → Exclusive db' → (∀ e, Stocked now db' e) →
      GuardedStmt st none db' → ∀ a db'', st.exec none db' = some (a, db'') →
        (∀ m, m ≠ n → Rely env m db' db'') ∧ Exclusive db'' ∧ (∀ e, Stocked now db'' e) ∧
          ∀ b, a = .ok b → Q b db'') :
    Keeps (calls env now) (.request n q) (Tries.attempt DbErr.database st) Q (fun _ _ => True)
      db := by
  refine Keeps.attempt fun db' hrely hinv _ => ⟨htime, fun x a db'' hassume hexec => ?_⟩
  obtain ⟨hexclusive, hstocked⟩ := hinv
  cases x with
  | some e =>
      have hexec' : st.exec (some e) db' = some (a, db'') := hexec
      rw [hfail _ e db' rfl] at hexec'
      obtain ⟨rfl, rfl⟩ := Prod.mk.inj (Option.some.inj hexec')
      exact ⟨fun m hne => rely_release rfl rfl (fun _ _ => rfl) hne,
        ⟨exclusive_release hexclusive, fun e => (hstocked e).release⟩, trivial⟩
  | none =>
      obtain ⟨hguar, hexclusive', hstocked', hQ⟩ :=
        h db' hrely hexclusive hstocked hassume a db'' hexec
      refine ⟨hguar, ⟨hexclusive', hstocked'⟩, ?_⟩
      cases a with
      | ok b => exact hQ b rfl
      | error e => trivial

/-- What the transaction may count on still holds of the tables that it reads. -/
theorem keeps_snapshot {P : Database → Prop} (hP : ∀ db db', Rely env n db db' → P db → P db')
    (h : P db) :
    Keeps (calls env now) (.request n q) (Tries.attempt DbErr.database (.snapshot n))
      (fun seen db => seen = db ∧ P db) (fun _ _ => True) db := by
  refine keeps_attempt trivial (fun x e db hx => by subst hx; rfl) ?_
  intro db' hrely hexclusive hstocked _ a db'' hexec
  obtain ⟨rfl, rfl⟩ := Prod.mk.inj (Option.some.inj hexec)
  exact ⟨fun m _ => Rely.refl m _, hexclusive, hstocked, fun b hb =>
    ⟨(Except.ok.inj hb).symm, hP db db' hrely h⟩⟩

/-- A lock is taken while nobody else holds it. -/
theorem lock_cases {key : ℤ} (h : db.lock n key = some db') :
    (∀ m, (key, m) ∈ db.locks → m = n) ∧ db' = { db with locks := db.locks ++ [(key, n)] } := by
  unfold Database.lock at h
  split at h
  · cases h
  · next hfree =>
      refine ⟨fun m hm => ?_, (Option.some.inj h).symm⟩
      by_contra hne
      exact hfree (List.any_eq_true.mpr ⟨_, hm, decide_eq_true ⟨rfl, hne⟩⟩)

/-- After the statement the call holds the lock of the event. -/
theorem keeps_lock :
    Keeps (calls env now) (.request n q) (Tries.attempt DbErr.database (.lock n (env.lockKey e)))
      (fun _ => Locked env n e) (fun _ _ => True) db := by
  refine keeps_attempt trivial (fun x e db hx => by subst hx; rfl) ?_
  intro db' _ hexclusive hstocked _ a db'' hexec
  obtain ⟨db₁, hlock, heq⟩ := Option.map_eq_some_iff.mp hexec
  obtain ⟨rfl, rfl⟩ := Prod.mk.inj heq
  obtain ⟨hother, rfl⟩ := lock_cases hlock
  -- the only lock that is new is the one of this call
  have hnew : ∀ {key m}, (key, m) ∈ db'.locks ++ [(env.lockKey e, n)] →
      (key, m) ∈ db'.locks ∨ key = env.lockKey e ∧ m = n := by
    intro key m hm
    rcases List.mem_append.mp hm with hm | hm
    · exact Or.inl hm
    · exact Or.inr (Prod.mk.inj (List.mem_singleton.mp hm))
  refine ⟨fun m hne => ⟨List.prefix_refl _, fun key => ?_, fun _ _ => rfl⟩,
    fun key m m' hm hm' => ?_, fun e => ⟨(hstocked e).covers, (hstocked e).unstocked⟩,
    fun _ _ => ?_⟩
  · constructor
    · intro hm
      exact (hnew hm).resolve_right fun heq => hne heq.2
    · exact fun hm => List.mem_append_left _ hm
  · rcases hnew hm with hm | ⟨rfl, rfl⟩
    · rcases hnew hm' with hm' | ⟨rfl, hn⟩
      · exact hexclusive key m m' hm hm'
      · exact (hother m hm).trans hn.symm
    · rcases hnew hm' with hm' | ⟨-, rfl⟩
      · exact (hother m' hm').symm
      · rfl
  · exact List.mem_append_right _ (List.mem_singleton_self _)

theorem locks_upsertInventory (row : InventoryRow) :
    (db.upsertInventory seen row).2.locks = db.locks ∧
      (db.upsertInventory seen row).2.requests = db.requests := by
  unfold Database.upsertInventory
  split
  · exact ⟨rfl, rfl⟩
  · split
    · exact ⟨rfl, rfl⟩
    · exact ⟨rfl, rfl⟩

theorem keeps_upsertInventory {row : InventoryRow} (hnow : row.updatedAt = now)
    (hcapacity : 0 ≤ row.capacity) (hlocked : Locked env n row.eventId db) :
    Keeps (calls env now) (.request n q)
      (Tries.attempt DbErr.database (.upsertInventory n seen row)) (fun _ _ => True)
      (fun _ _ => True) db := by
  refine keeps_attempt hnow (fun x e db hx => by subst hx; rfl) ?_
  intro db' hrely hexclusive hstocked hguarded a db'' hexec
  change some (Except.ok (db'.upsertInventory seen row).1,
    (db'.upsertInventory seen row).2.release n) = some (a, db'') at hexec
  obtain ⟨rfl, rfl⟩ := Prod.mk.inj (Option.some.inj hexec)
  obtain ⟨hlocks, hrequests⟩ : (db'.upsertInventory seen row).2.locks = db'.locks ∧
      (db'.upsertInventory seen row).2.requests = db'.requests := locks_upsertInventory row
  have hlocked' := hrely.locked hlocked
  refine ⟨fun m hne => rely_release hrequests hlocks (fun e hm => ?_) hne, ?_, fun e => ?_,
    fun _ _ => trivial⟩
  · exact rowsOf_upsertInventory row (ne_of_locked hexclusive hlocked' hne hm)
  · refine exclusive_release fun key m m' hm hm' => ?_
    rw [hlocks] at hm hm'
    exact hexclusive key m m' hm hm'
  · exact (stocked_upsertInventory hnow hcapacity hguarded (hstocked e)).release

theorem locks_writes (ws : List Write) :
    (ws.foldl Database.write db).locks = db.locks ∧
      (ws.foldl Database.write db).requests = db.requests := by
  induction ws generalizing db with
  | nil => exact ⟨rfl, rfl⟩
  | cons w ws ih =>
      obtain ⟨hlocks, hrequests⟩ : (ws.foldl Database.write (db.write w)).locks = _ ∧
          (ws.foldl Database.write (db.write w)).requests = _ := ih
      rw [List.foldl_cons, hlocks, hrequests]
      cases w with
      | insertHold hold => exact ⟨rfl, rfl⟩
      | closeHold holdId eventId => exact ⟨rfl, rfl⟩
      | insertOrder order => exact ⟨rfl, rfl⟩

/-- A commit under the lock of its event leaves the other calls what they count on. -/
theorem keeps_commit {a : Allocation} {ws : List Write} (hws : a.writes db now = some ws)
    (hlocked : Locked env n a.eventId db) :
    Keeps (calls env now) (.request n q) (Tries.attempt DbErr.database (.commit n ws))
      (fun _ _ => True) (fun _ _ => True) db := by
  refine keeps_attempt trivial (fun x e db hx => by subst hx; rfl) ?_
  intro db' hrely hexclusive hstocked _ b db'' hexec
  obtain ⟨rfl, rfl⟩ := Prod.mk.inj (Option.some.inj hexec)
  obtain ⟨hlocks, hrequests⟩ : (ws.foldl Database.write db').locks = db'.locks ∧
      (ws.foldl Database.write db').requests = db'.requests := locks_writes ws
  have hlocked' := hrely.locked hlocked
  -- the rows that the decision was read from have not changed
  have hws' : a.writes db' now = some ws := (a.writes_congr (hrely.rows _ hlocked)).trans hws
  have hother : ∀ {e}, e ≠ a.eventId → (ws.foldl Database.write db').rowsOf e = db'.rowsOf e := by
    intro e hne
    exact rowsOf_writes fun w hw => (Allocation.eventId_of_mem_writes hws' hw) ▸ hne
  refine ⟨fun m hne => rely_release hrequests hlocks (fun e hm => ?_) hne, ?_, fun e => ?_,
    fun _ _ => trivial⟩
  · exact hother (ne_of_locked hexclusive hlocked' hne hm)
  · refine exclusive_release fun key m m' hm hm' => ?_
    rw [hlocks] at hm hm'
    exact hexclusive key m m' hm hm'
  · by_cases hne : e = a.eventId
    · subst hne
      exact (Allocation.stocked_writes hws' (hstocked _)).release
    · exact ((hstocked e).of_rows (hother hne)).release

/-! ## Calls -/

theorem keeps_configureEvent (hlawful : env.Lawful) (input : ConfigureEventInventory)
    {t : Instant} (hnow : timestamptz t = now) :
    Keeps (calls env now) (.request n q) (configureEvent env n input t) (fun _ _ => True)
      (fun _ _ => True) db := by
  refine Keeps.bind (Keeps.result (fun _ hvalid => ?_) fun _ _ => trivial)
  have hcapacity : 0 ≤ input.capacity := hlawful input (Fallible.mapError_eq_ok.mp hvalid)
  refine Keeps.andThen (keeps_snapshot (P := fun _ => True) (fun _ _ _ h => h) trivial)
    fun seen _ _ => ?_
  refine Keeps.andThen (keeps_lock (e := input.eventId)) fun _ db hlocked => ?_
  refine Keeps.andThen (keeps_upsertInventory hnow hcapacity hlocked) fun row _ _ => ?_
  cases row with
  | none => exact Keeps.throw trivial
  | some eventId => exact Keeps.pure trivial

/-- Every allocation takes the lock before it reads, and commits under it. -/
theorem keeps_allocate (a : Allocation) {t : Instant} (hnow : timestamptz t = now) :
    Keeps (calls env now) (.request n q) (allocate env n a t) (fun _ _ => True)
      (fun _ _ => True) db := by
  subst hnow
  refine Keeps.andThen (keeps_lock (e := a.eventId)) fun _ db hlocked => ?_
  -- the lock is still held when the rows are read
  refine Keeps.andThen (keeps_snapshot (fun _ _ hrely h => Rely.locked hrely h) hlocked)
    fun seen db hseen => ?_
  obtain ⟨rfl, hlocked'⟩ := hseen
  cases hws : a.writes seen (timestamptz t) with
  | none =>
      refine Keeps.bind (Keeps.stmt fun db' _ hinv _ => ⟨trivial, fun x b db'' _ hexec => ?_⟩)
      obtain ⟨-, rfl⟩ := Prod.mk.inj (Option.some.inj hexec)
      exact ⟨fun m hne => rely_release rfl rfl (fun _ _ => rfl) hne,
        ⟨exclusive_release hinv.1, fun e => (hinv.2 e).release⟩, Keeps.throw trivial⟩
  | some ws =>
      exact Keeps.andThen (keeps_commit hws hlocked') fun _ _ _ => Keeps.pure trivial

/-- A call may arrive at any time. -/
theorem hospitable (hlawful : env.Lawful) : (calls env now).Hospitable := by
  intro q db hnow hinv
  refine ⟨fun htaken => ?_, fun m _ => ?_, ?_, ?_, ?_⟩
  · obtain ⟨hlt, -⟩ := List.getElem?_eq_some_iff.mp htaken
    exact absurd hlt (Nat.lt_irrefl _)
  · exact ⟨List.prefix_append _ _, fun _ => Iff.rfl, fun _ _ => rfl⟩
  · exact ⟨hinv.1, fun e => ⟨(hinv.2 e).covers, (hinv.2 e).unstocked⟩⟩
  · show (db.requests ++ [q])[db.requests.length]? = some q
    rw [List.getElem?_append_right (le_refl _), Nat.sub_self]
    rfl
  · cases q with
    | configureEvent input t =>
        exact Discipline.wp_mono (fun _ _ _ => trivial) (keeps_configureEvent hlawful input hnow)
    | allocate a t => exact Discipline.wp_mono (fun _ _ _ => trivial) (keeps_allocate a hnow)

/-! ## Runs -/

/-- In every event the capacity is at least the sum of the held and paid tickets. -/
def CapacityCovers (now : Timestamp) (db : Database) : Prop :=
  ∀ e row, db.inventoryOf e = some row → row.capacity ≥ db.allocated e now

/-- The thread is not about to update a capacity, or the update is guarded. -/
def guarded (t : Thread Stmt Role Outcome) (x : Option String) (db : Database) : Bool :=
  match t, x with
  | ⟨_, .step (.upsertInventory _ seen row) _⟩, none => Guarded db seen row
  | _, _ => true

variable {db₀ : Database} {ls : List (Label (Option String) Request)}
  {p : Pool Stmt Role Outcome Database}

theorem guardedStmt_of_guarded {β : Type} {r : Role} {st : Stmt β} {x : Option String}
    {k : β → Prog Stmt Role Outcome Outcome} (h : guarded ⟨r, .step st k⟩ x db = true) :
    GuardedStmt st x db := by
  cases st with
  | upsertInventory tx seen row =>
      cases x with
      | none =>
          have hguarded : Guarded db seen row := of_decide_eq_true h
          exact hguarded
      | some e => trivial
  | _ => trivial

/-- Before the first call. -/
theorem poolOk_start (hlocks : db₀.locks = []) (hstocked : ∀ e, Stocked now db₀ e) :
    (calls env now).PoolOk ⟨db₀, []⟩ := by
  refine Discipline.poolOk_nil ⟨fun key m m' hm => ?_, hstocked⟩
  rw [hlocks] at hm
  cases hm

/-- The calls at work after a run whose updates are guarded. -/
theorem poolOk_of_meets (hlawful : env.Lawful) (hlocks : db₀.locks = [])
    (hstocked : ∀ e, Stocked now db₀ e) (hnow : ∀ q, .arrive q ∈ ls → q.time = now)
    (hmeets : Pool.meets (ticketing env) guarded ⟨db₀, []⟩ ls = true)
    (hrun : Pool.run (ticketing env) ⟨db₀, []⟩ ls = some p) : (calls env now).PoolOk p := by
  refine (poolOk_start hlocks hstocked).run (hospitable hlawful) ?_ hrun
  exact Discipline.followsAll_of_meets hnow (fun _ _ _ _ _ _ _ h => guardedStmt_of_guarded h) hmeets

/-- An update that is not guarded leaves a capacity below the stock. -/
theorem exists_not_covered {t : Thread Stmt Role Outcome} {x : Option String} {i : ℕ}
    {p' : Pool Stmt Role Outcome Database} (hok : (calls env now).PoolOk p)
    (ht : p.threads[i]? = some t) (hf : guarded t x p.shared = false)
    (hact : p.act (ticketing env) (.turn i x) = some p') : ¬ CapacityCovers now p'.shared := by
  obtain ⟨t', ht', hturn⟩ := Option.bind_eq_some_iff.mp hact
  obtain rfl := Option.some.inj (ht'.symm.trans ht)
  obtain ⟨r, prog⟩ := t'
  cases prog with
  | pure a => cases hturn
  | fork r' child k => cases hf
  | step st k =>
      have htime : AtTime now st := hok.needs ht
      obtain ⟨⟨b, db'⟩, hexec, rfl⟩ := Option.map_eq_some_iff.mp hturn
      cases st with
      | upsertInventory tx seen row =>
          cases x with
          | some e => cases hf
          | none =>
              obtain ⟨-, rfl⟩ := Prod.mk.inj (Option.some.inj hexec)
              obtain ⟨r, hrow, hless⟩ := not_stocked_upsertInventory htime (of_decide_eq_false hf)
              exact fun hcovers => absurd (hcovers row.eventId r hrow) (not_le.mpr hless)
      | snapshot tx => cases hf
      | lock tx key => cases hf
      | commit tx writes => cases hf
      | rollback tx => cases hf

/-- In every run of updates and allocations at one time, the capacity of every event covers
its allocated stock in every state exactly if every update of a capacity that covers the
stock seen by its statement covers the stock that is committed when it is made. -/
theorem capacity_covers_iff (hlawful : env.Lawful) (hlocks : db₀.locks = [])
    (hstocked : ∀ e, Stocked now db₀ e) (hnow : ∀ q, .arrive q ∈ ls → q.time = now)
    (hrun : Pool.run (ticketing env) ⟨db₀, []⟩ ls = some p) :
    (∀ ls' p', ls' <+: ls → Pool.run (ticketing env) ⟨db₀, []⟩ ls' = some p' →
      CapacityCovers now p'.shared) ↔
        Pool.meets (ticketing env) guarded ⟨db₀, []⟩ ls = true := by
  have hok : ∀ {ls' : List (Label (Option String) Request)} {p'}, ls' <+: ls →
      Pool.meets (ticketing env) guarded ⟨db₀, []⟩ ls' = true →
      Pool.run (ticketing env) ⟨db₀, []⟩ ls' = some p' → (calls env now).PoolOk p' := by
    intro ls' p' hstarts hmeets hrun'
    exact poolOk_of_meets hlawful hlocks hstocked (fun q hq => hnow q (hstarts.subset hq)) hmeets
      hrun'
  constructor
  · intro hcovers
    -- the first update that is not guarded leaves a stock that is not covered
    by_contra hmeets
    obtain ⟨ls₁, i, x, ls₂, p₁, t, rfl, hrun₁, hmeets₁, ht, hf⟩ :=
      Pool.exists_first_of_meets_eq_false hrun (Bool.eq_false_iff.mpr hmeets)
    rw [Pool.run_append, hrun₁, Option.bind_some] at hrun
    obtain ⟨p₂, hact, -⟩ := Option.bind_eq_some_iff.mp hrun
    refine exists_not_covered (hok (List.prefix_append _ _) hmeets₁ hrun₁) ht hf hact ?_
    refine hcovers (ls₁ ++ [.turn i x]) p₂ ⟨ls₂, by simp⟩ ?_
    rw [Pool.run_append, hrun₁, Option.bind_some, Pool.run, hact]
    rfl
  · rintro hmeets ls' p' ⟨ls₂, rfl⟩ hrun'
    have hinv := (hok (List.prefix_append _ _) (Pool.meets_of_append hmeets) hrun').inv
    exact fun e row hrow => (hinv.2 e).covers row hrow

/-- An update is guarded if its statement has seen the whole stock. -/
theorem guarded_of_seen {row : InventoryRow}
    (h : db.allocated row.eventId row.updatedAt ≤ seen.allocated row.eventId row.updatedAt) :
    Guarded db seen row :=
  Or.inr fun hseen => (Int.ofNat_le.mpr h).trans hseen

/-! ## Runs with one allocation -/

namespace Sample

def deployment : Deployment where
  validate input := if 0 ≤ input.capacity then .ok () else .error "capacity is negative"
  lockKey eventId := eventId

theorem deployment_lawful : deployment.Lawful := by
  intro input h
  by_contra hneg
  have hrefused : deployment.validate input = .error "capacity is negative" := if_neg hneg
  rw [hrefused] at h
  cases h

/-- The database after the migration. -/
def empty : Database := ⟨[], [], [], [], []⟩

theorem stocked_empty (e : Uuid) : Stocked 0 empty e where
  covers := by
    intro row hrow
    cases hrow
  unstocked := fun _ => rfl

def configure (capacity : ℤ) : Label (Option String) Request :=
  .arrive (.configureEvent ⟨1, capacity⟩ 0)

/-- Event 1 gets ten tickets, and five of them are about to be reserved. -/
def reserving : List (Label (Option String) Request) :=
  [configure 10, .turn 0 none, .turn 0 none, .turn 0 none,
   .arrive (.allocate (.reserve 7 1 5 100) 0), .turn 1 none]

/-- The capacity is cut to one when the reservation has been committed. -/
def inTurn : List (Label (Option String) Request) :=
  reserving ++ [.turn 1 none, .turn 1 none, configure 1, .turn 2 none, .turn 2 none, .turn 2 none]

/-- The statement that cuts the capacity begins before the reservation is committed. -/
def overtaken : List (Label (Option String) Request) :=
  reserving ++ [configure 1, .turn 2 none, .turn 1 none, .turn 1 none, .turn 2 none, .turn 2 none]

/-- The capacity and the stock of event 1. -/
def view (p : Pool Stmt Role Outcome Database) : Option ℤ × ℕ :=
  ((p.shared.inventoryOf 1).map (·.capacity), p.shared.allocated 1 0)

end Sample

/-- In turn, the cut is refused. -/
theorem capacity_covers_iff_sample :
    ∃ p, Pool.run (ticketing Sample.deployment) ⟨Sample.empty, []⟩ Sample.inTurn = some p ∧
      Sample.view p = (some 10, 5) ∧
      ∀ ls' p', ls' <+: Sample.inTurn →
        Pool.run (ticketing Sample.deployment) ⟨Sample.empty, []⟩ ls' = some p' →
          CapacityCovers 0 p'.shared := by
  have hrun : (Pool.run (ticketing Sample.deployment) ⟨Sample.empty, []⟩ Sample.inTurn).map
      Sample.view = some (some 10, 5) := by decide +kernel
  obtain ⟨p, hp, hview⟩ := Option.map_eq_some_iff.mp hrun
  have hmeets : Pool.meets (ticketing Sample.deployment) guarded ⟨Sample.empty, []⟩
      Sample.inTurn = true := by decide +kernel
  have hnow : ∀ q, .arrive q ∈ Sample.inTurn → q.time = 0 := by
    simp [Sample.inTurn, Sample.reserving, Sample.configure, Request.time]
  exact ⟨p, hp, hview, (capacity_covers_iff Sample.deployment_lawful rfl Sample.stocked_empty hnow
    hp).mpr hmeets⟩

/-- A capacity of one is left with five tickets held, if the statement that cuts it began
before the reservation was committed. -/
theorem not_capacity_covers :
    ¬ ∀ (env : Deployment) (db₀ : Database) (now : Timestamp)
        (ls : List (Label (Option String) Request)) (p : Pool Stmt Role Outcome Database),
      env.Lawful → db₀.locks = [] → (∀ e, Stocked now db₀ e) →
      (∀ q, .arrive q ∈ ls → q.time = now) →
      Pool.run (ticketing env) ⟨db₀, []⟩ ls = some p → CapacityCovers now p.shared := by
  intro h
  have hrun : (Pool.run (ticketing Sample.deployment) ⟨Sample.empty, []⟩ Sample.overtaken).map
      Sample.view = some (some 1, 5) := by decide +kernel
  obtain ⟨p, hp, hview⟩ := Option.map_eq_some_iff.mp hrun
  have hnow : ∀ q, .arrive q ∈ Sample.overtaken → q.time = 0 := by
    simp [Sample.overtaken, Sample.reserving, Sample.configure, Request.time]
  have hcovers := h _ _ 0 _ p Sample.deployment_lawful rfl Sample.stocked_empty hnow hp
  obtain ⟨hcapacity, hstock⟩ := Prod.mk.inj hview
  obtain ⟨row, hrow, hone⟩ := Option.map_eq_some_iff.mp hcapacity
  have hle := hcovers 1 row hrow
  rw [hstock, hone] at hle
  exact absurd hle (by decide)

end Ticketing
