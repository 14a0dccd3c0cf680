/-
# Concurrent retries of a cross-post request

Any number of requests of one user with one idempotency key, event and target list
run at the same time, and the database does not fail.

The look-up of the key and the insertion of the job are two statements, so two
requests that both find the key unused both insert, and the second one fails on the
unique index.  `LooksUpAlone` is the condition that excludes this: a request looks
the key up only while no other request holds it, that is, has found it unused and
not ended its transaction.  Under this condition the key goes through three phases
(`Phase`): unused, held by one request, and stored by that request.
-/
import EvglApi.ReplyBelongs
import Mathlib.Data.Fintype.EquivFin

open Concurrency Mvcc

namespace Service

variable {env : Deployment} {w₀ w w' w'' : World} {n : ℕ} {q : Request} {r : Role}

/-! ## The requests -/

/-- The content of the retried request. -/
structure Retry where
  user : Uuid
  eventId : Uuid
  key : String
  targets : List PublishTarget

namespace Retry

def request (c : Retry) : Request := .crossPost c.user c.eventId (some c.key) c.targets

/-- The job has the user and the key of the request. -/
def Keyed (c : Retry) (job : JobFixed) : Prop := job.userId = c.user ∧ job.idempotencyKey = c.key

/-- Request `n` has found the key unused, and its transaction is open. -/
def Held (c : Retry) (n : ℕ) (w : World) : Prop := (n, c.user, c.key) ∈ w.missed

end Retry

variable {c : Retry}

/-- The jobs with their fixed columns. -/
def World.marks (w : World) : Table JobFixed := w.jobs.mapRows JobRow.toJobFixed

/-- A store in which the request is valid and its key is unused. -/
structure Ready (env : Deployment) (c : Retry) (w : World) : Prop where
  inv : Inv env w
  valid : env.validateCrossPost ⟨c.eventId, c.targets, c.key⟩ = .ok ()
  event : ∃ e draft, w.events.find? (fun e => e.id = c.eventId ∧ e.ownerId = c.user) = some e ∧
    env.eventFromValue e.document = .ok draft
  connections : ∀ t ∈ c.targets, ∃ k,
    w.connections.find? (fun k => k.id = t.connectionId ∧ k.userId = c.user) = some k ∧
      k.provider = env.asStr t.provider
  unused : ∀ v ∈ w.marks, ¬ c.Keyed v.row
  unheld : ∀ m, ¬ c.Held m w

/-! ## The discipline -/

/-- The states of the key. -/
structure Phase (c : Retry) (w₀ w : World) : Prop where
  events : w.events = w₀.events
  connections : w.connections = w₀.connections
  unique : ∀ v ∈ w.marks, ∀ v' ∈ w.marks, c.Keyed v.row → c.Keyed v'.row → v = v'
  later : ∀ v ∈ w.marks, c.Keyed v.row → w₀.requests.length ≤ v.xmin
  alone : ∀ m m', c.Held m w → c.Held m' w → m = m'
  /-- While a request holds the key, only it can have inserted a job under the key. -/
  held : ∀ m, c.Held m w → ∀ v ∈ w.marks, c.Keyed v.row → v.committed = false ∧ v.xmin = m
  holder : ∀ v ∈ w.marks, c.Keyed v.row → v.committed = false → c.Held v.xmin w
  jobDrawn : ∀ v ∈ w.marks, v.row.id ∈ w.drawn
  workerDrawn : ∀ j ∈ w.workers, j ∈ w.drawn
  below : ∀ v ∈ w.marks, v.xmin < w.requests.length
  heldBelow : ∀ m, c.Held m w → m < w.requests.length
  grown : w₀.requests.length ≤ w.requests.length

/-- What request `n` may count on. -/
structure RelyRetry (c : Retry) (n : ℕ) (w w' : World) : Prop where
  requests : w.requests <+: w'.requests
  held : c.Held n w' ↔ c.Held n w
  kept : ∀ v ∈ w.marks, v.committed = true ∨ v.xmin = n → v ∈ w'.marks
  own : ∀ v ∈ w'.marks, v.xmin = n → v ∈ w.marks
  unspawned : ∀ v ∈ w.marks, c.Keyed v.row → v.xmin = n → v.row.id ∉ w.workers →
    v.row.id ∉ w'.workers

def RelyKey (c : Retry) : Role → World → World → Prop
  | .request n _ => RelyRetry c n
  | .worker _ => fun _ _ => True

structure GuarKey (c : Retry) (r : Role) (w w' : World) : Prop where
  requests : w.requests <+: w'.requests
  workers : w.workers ⊆ w'.workers
  others : ∀ r', r ≠ r' → Taken w r' → RelyKey c r' w w'

/-- The look-up of a key is executed while no other request holds the key. -/
def LooksUpAlone {β : Type} : Query β → World → Prop
  | .selectJobByKey n user key, w => ∀ m, (m, user, key) ∈ w.missed → m = n
  | _, _ => True

/-- The database does not fail, and look-ups are alone. -/
def Undisturbed {β : Type} : Stmt β → Draw → World → Prop
  | .query q, x, w => x.fails = none ∧ LooksUpAlone q w
  | _, _, _ => True

/-- The statement need not wait: on some input it is executed. -/
def CanGo {β : Type} (st : Stmt β) (w : World) : Prop :=
  ∃ x : Draw, x.fails = none ∧ (st.exec x w).isSome

/-- The reply is the job stored under the key, and it says whether the request stored it. -/
def Agreed (c : Retry) (n : ℕ) (r : Except ApiError Response) (w : World) : Prop :=
  ∃ status job, r = .ok (.job status job) ∧ (status = 202 ∨ status = 200) ∧
    ∃ v ∈ w.marks, v.committed = true ∧ c.Keyed v.row ∧ v.row = job.toJobFixed ∧
      (status = 202 ↔ v.xmin = n)

def AgreedEnd (c : Retry) : Role → Outcome → World → Prop
  | .request n _, .reply r, w => Agreed c n r w
  | .worker _, .finished _, _ => True
  | _, _, _ => False

/-- What a request may count on adds up: its jobs stay, and stay without a worker until it
starts one. -/
theorem RelyRetry.trans (h : RelyRetry c n w w') (h' : RelyRetry c n w' w'') :
    RelyRetry c n w w'' where
  requests := h.requests.trans h'.requests
  held := h'.held.trans h.held
  kept := by
    intro v hv hx
    exact h'.kept v (h.kept v hv hx) hx
  own := fun v hv hx => h.own v (h'.own v hv hx) hx
  unspawned := fun v hv hkey hx hfree =>
    h'.unspawned v (h.kept v hv (Or.inr hx)) hkey hx (h.unspawned v hv hkey hx hfree)

/-- The retries of one request, started on a store that is ready for it. -/
def retries (env : Deployment) (c : Retry) (w₀ : World) : Discipline (service env) where
  inv := Phase c w₀
  assume _ st x w := Undisturbed st x w
  admits q := q = c.request
  needs _ st w := CanGo st w
  guar := GuarKey c
  rely := RelyKey c
  taken := Taken
  post := AgreedEnd c
  rely_refl r w := by
    cases r with
    | request n q =>
        exact ⟨List.prefix_refl _, Iff.rfl, fun _ hv _ => hv, fun _ hv _ => hv,
          fun _ _ _ _ hfree => hfree⟩
    | worker j => trivial
  rely_trans {r _ _ _} h h' := by
    cases r with
    | request n q => exact RelyRetry.trans h h'
    | worker j => trivial
  rely_of_guar _ _ _ htaken hne hguar := hguar.others _ hne htaken
  taken_of_guar hguar htaken := htaken.mono hguar.requests hguar.workers
  post_of_rely {r a _ _} hrely hpost := by
    cases r with
    | request n q =>
        cases a with
        | reply r =>
            obtain ⟨status, job, hr, hstatus, v, hv, hc, hrest⟩ := hpost
            exact ⟨status, job, hr, hstatus, v, hrely.kept v hv (Or.inl hc), hc, hrest⟩
        | finished r => exact hpost.elim
    | worker j =>
        cases a with
        | reply r => exact hpost.elim
        | finished r => trivial

/-! ## Steps -/

/-- A step that leaves the jobs and the held keys alone. -/
structure Apart (c : Retry) (w w' : World) : Prop where
  events : w'.events = w.events
  connections : w'.connections = w.connections
  marks : w'.marks = w.marks
  held : ∀ m, c.Held m w' ↔ c.Held m w
  requests : w'.requests = w.requests
  workers : w'.workers = w.workers
  drawn : w.drawn ⊆ w'.drawn

namespace Apart

theorem refl (w : World) : Apart c w w :=
  ⟨rfl, rfl, rfl, fun _ => Iff.rfl, rfl, rfl, fun _ h => h⟩

/-- Such a step leaves the key in its phase. -/
theorem phase (h : Apart c w w') (hphase : Phase c w₀ w) : Phase c w₀ w' where
  events := h.events.trans hphase.events
  connections := h.connections.trans hphase.connections
  unique := by
    rw [h.marks]
    exact hphase.unique
  later := by
    rw [h.marks]
    exact hphase.later
  alone := by
    simp only [h.held]
    exact hphase.alone
  held := by
    simp only [h.held, h.marks]
    exact hphase.held
  holder := by
    simp only [h.held, h.marks]
    exact hphase.holder
  jobDrawn := by
    rw [h.marks]
    exact fun v hv => h.drawn (hphase.jobDrawn v hv)
  workerDrawn := by
    rw [h.workers]
    exact fun j hj => h.drawn (hphase.workerDrawn j hj)
  below := by
    rw [h.marks, h.requests]
    exact hphase.below
  heldBelow := by
    simp only [h.held, h.requests]
    exact hphase.heldBelow
  grown := by
    rw [h.requests]
    exact hphase.grown

/-- Such a step is nothing to the others. -/
theorem rely (h : Apart c w w') (r : Role) : RelyKey c r w w' := by
  cases r with
  | request n q =>
      refine ⟨h.requests ▸ List.prefix_refl _, h.held n, ?_, ?_, ?_⟩
      · rw [h.marks]
        exact fun v hv _ => hv
      · rw [h.marks]
        exact fun v hv _ => hv
      · rw [h.workers]
        exact fun v _ _ _ hfree => hfree
  | worker j => trivial

theorem guar (h : Apart c w w') (r : Role) : GuarKey c r w w' where
  requests := h.requests ▸ List.prefix_refl _
  workers := h.workers ▸ fun _ hj => hj
  others := fun r' _ _ => h.rely r'

end Apart

/-- Commit of a transaction that has inserted no job. -/
theorem apart_commit (hown : ∀ v ∈ w.marks, v.xmin ≠ n) (hheld : ¬ c.Held n w) :
    Apart c w (w.commit n) where
  events := rfl
  connections := rfl
  marks := by
    show (w.jobs.commit n).mapRows _ = w.marks
    rw [Table.mapRows_commit]
    exact Table.commit_eq_self hown
  held := by
    intro m
    show (m, c.user, c.key) ∈ w.missed.filter _ ↔ _
    rw [List.mem_filter]
    refine ⟨fun h => h.1, fun h => ⟨h, ?_⟩⟩
    rw [decide_eq_true_iff]
    rintro rfl
    exact hheld h
  requests := rfl
  workers := rfl
  drawn := fun _ hd => hd

/-- A new target. -/
theorem apart_addTarget (w : World) (n : ℕ) (row : TargetRow) : Apart c w (w.addTarget n row) :=
  ⟨rfl, rfl, rfl, fun _ => Iff.rfl, rfl, rfl, fun _ hd => List.mem_cons_of_mem _ hd⟩

/-- An update of a job's status. -/
theorem apart_updateJob (w : World) (id : Uuid) {f : JobRow → JobRow}
    (hf : ∀ r, (f r).toJobFixed = r.toJobFixed) : Apart c w (w.updateJob id f) where
  events := rfl
  connections := rfl
  marks := by
    show (w.updateJob id f).jobs.mapRows _ = w.jobs.mapRows _
    rw [jobs_updateJob]
    exact Table.mapRows_update _ hf
  held := fun _ => Iff.rfl
  requests := rfl
  workers := rfl
  drawn := fun _ hd => hd

/-! ## Steps of a request -/

/-- The request has found the key unused. -/
def World.miss (w : World) (n : ℕ) (c : Retry) : World :=
  { w with missed := w.missed ++ [(n, c.user, c.key)] }

/-- After a look-up that misses, the request holds the key besides those that held it
before. -/
theorem held_miss {m : ℕ} : c.Held m (w.miss n c) ↔ c.Held m w ∨ m = n := by
  show (m, c.user, c.key) ∈ w.missed ++ _ ↔ _
  rw [List.mem_append, List.mem_singleton]
  simp [Retry.Held]

/-- From unused to held: the look-up was alone, so that the request is the only holder. -/
theorem phase_miss (h : Phase c w₀ w) (hn : n < w.requests.length) (hfree : ∀ m, ¬ c.Held m w)
    (hunused : ∀ v ∈ w.marks, ¬ c.Keyed v.row) : Phase c w₀ (w.miss n c) where
  events := h.events
  connections := h.connections
  unique := h.unique
  later := h.later
  alone := by
    intro m m' hm hm'
    rw [(held_miss.mp hm).resolve_left (hfree m), (held_miss.mp hm').resolve_left (hfree m')]
  held := fun m _ v hv hkey => absurd hkey (hunused v hv)
  holder := fun v hv hkey _ => absurd hkey (hunused v hv)
  jobDrawn := h.jobDrawn
  workerDrawn := h.workerDrawn
  below := h.below
  heldBelow := by
    intro m hm
    rw [(held_miss.mp hm).resolve_left (hfree m)]
    exact hn
  grown := h.grown

/-- A look-up that misses changes nothing for the others. -/
theorem guar_miss (hself : Taken w (.request n q)) : GuarKey c (.request n q) w (w.miss n c) where
  requests := List.prefix_refl _
  workers := fun _ hj => hj
  others := by
    intro r' hne htaken
    cases r' with
    | request m q' =>
        have hmn := number_ne hself htaken hne
        refine ⟨List.prefix_refl _, ?_, fun v hv _ => hv, fun v hv _ => hv, fun _ _ _ _ hj => hj⟩
        rw [held_miss]
        exact or_iff_left hmn
    | worker j => trivial

theorem marks_addJob (row : JobRow) :
    (w.addJob n row).marks = w.marks.insert n row.toJobFixed :=
  Table.mapRows_insert _

/-- The holder inserts the job under the key, the first such job. -/
theorem phase_addJob (h : Phase c w₀ w) {row : JobRow} (hn : n < w.requests.length)
    (hlater : w₀.requests.length ≤ n) (hheld : c.Held n w)
    (hunused : ∀ v ∈ w.marks, ¬ c.Keyed v.row) : Phase c w₀ (w.addJob n row) where
  events := h.events
  connections := h.connections
  unique := by
    rw [marks_addJob]
    intro v hv v' hv' hkey hkey'
    -- no job was under the key, so the new one is the only one
    rw [(Table.mem_insert.mp hv).resolve_left fun hv => hunused v hv hkey,
      (Table.mem_insert.mp hv').resolve_left fun hv' => hunused v' hv' hkey']
  later := by
    rw [marks_addJob]
    intro v hv hkey
    rw [(Table.mem_insert.mp hv).resolve_left fun hv => hunused v hv hkey]
    exact hlater
  alone := h.alone
  held := by
    rw [marks_addJob]
    intro m hm v hv hkey
    rw [(Table.mem_insert.mp hv).resolve_left fun hv => hunused v hv hkey]
    exact ⟨rfl, h.alone n m hheld hm⟩
  holder := by
    rw [marks_addJob]
    intro v hv hkey _
    rw [(Table.mem_insert.mp hv).resolve_left fun hv => hunused v hv hkey]
    exact hheld
  jobDrawn := by
    rw [marks_addJob]
    intro v hv
    rcases Table.mem_insert.mp hv with hv | rfl
    · exact List.mem_cons_of_mem _ (h.jobDrawn v hv)
    · exact List.mem_cons_self
  workerDrawn := fun j hj => List.mem_cons_of_mem _ (h.workerDrawn j hj)
  below := by
    rw [marks_addJob]
    intro v hv
    rcases Table.mem_insert.mp hv with hv | rfl
    · exact h.below v hv
    · exact hn
  heldBelow := h.heldBelow
  grown := h.grown

/-- The others keep their jobs when a request inserts one. -/
theorem guarKey_addJob (hself : Taken w (.request n q)) (row : JobRow) :
    GuarKey c (.request n q) w (w.addJob n row) where
  requests := List.prefix_refl _
  workers := fun _ hj => hj
  others := by
    intro r' hne htaken
    cases r' with
    | request m q' =>
        have hmn := number_ne hself htaken hne
        refine ⟨List.prefix_refl _, Iff.rfl, ?_, ?_, fun _ _ _ _ hj => hj⟩
        · rw [marks_addJob]
          exact fun v hv _ => Table.mem_insert.mpr (Or.inl hv)
        · rw [marks_addJob]
          intro v hv hx
          rcases Table.mem_insert.mp hv with hv | rfl
          · exact hv
          · exact absurd hx.symm hmn
    | worker j => trivial

theorem marks_commit : (w.commit n).marks = w.marks.commit n := Table.mapRows_commit _

/-- With the commit the request holds nothing any more. -/
theorem held_commit {m : ℕ} : c.Held m (w.commit n) ↔ c.Held m w ∧ m ≠ n := by
  show (m, c.user, c.key) ∈ w.missed.filter _ ↔ _
  rw [List.mem_filter, decide_eq_true_iff]
  rfl

/-- The commit of the request that holds the key. -/
theorem phase_commit (h : Phase c w₀ w) (hheld : c.Held n w) : Phase c w₀ (w.commit n) where
  events := h.events
  connections := h.connections
  unique := by
    rw [marks_commit]
    intro v hv v' hv' hkey hkey'
    obtain ⟨u, hu, hx, hrow, hc⟩ := Table.exists_of_mem_commit hv
    obtain ⟨u', hu', hx', hrow', hc'⟩ := Table.exists_of_mem_commit hv'
    obtain rfl := h.unique u hu u' hu' (hrow ▸ hkey) (hrow' ▸ hkey')
    exact Version.ext (hx.symm.trans hx') (Bool.eq_iff_iff.mpr (hc.trans hc'.symm))
      (hrow.symm.trans hrow')
  later := by
    rw [marks_commit]
    intro v hv hkey
    obtain ⟨u, hu, hx, hrow, -⟩ := Table.exists_of_mem_commit hv
    exact hx ▸ h.later u hu (hrow ▸ hkey)
  alone := fun m m' hm hm' => h.alone m m' (held_commit.mp hm).1 (held_commit.mp hm').1
  held := by
    intro m hm
    obtain ⟨hm, hmn⟩ := held_commit.mp hm
    exact absurd (h.alone m n hm hheld) hmn
  holder := by
    rw [marks_commit]
    intro v hv hkey hfalse
    obtain ⟨u, hu, hx, hrow, hc⟩ := Table.exists_of_mem_commit hv
    -- a job under the key that is not committed was inserted by this request
    have hxn : u.xmin = n := (h.held n hheld u hu (hrow ▸ hkey)).2
    exact absurd (hc.mpr (Or.inr hxn)) (by rw [hfalse]; exact Bool.false_ne_true)
  jobDrawn := by
    rw [marks_commit]
    intro v hv
    obtain ⟨u, hu, -, hrow, -⟩ := Table.exists_of_mem_commit hv
    exact hrow ▸ h.jobDrawn u hu
  workerDrawn := h.workerDrawn
  below := by
    rw [marks_commit]
    intro v hv
    obtain ⟨u, hu, hx, -⟩ := Table.exists_of_mem_commit hv
    exact hx ▸ h.below u hu
  heldBelow := fun m hm => h.heldBelow m (held_commit.mp hm).1
  grown := h.grown

/-- The others keep their jobs and their marks when a request commits. -/
theorem guarKey_commit (hself : Taken w (.request n q)) :
    GuarKey c (.request n q) w (w.commit n) where
  requests := List.prefix_refl _
  workers := fun _ hj => hj
  others := by
    intro r' hne htaken
    cases r' with
    | request m q' =>
        have hmn := number_ne hself htaken hne
        refine ⟨List.prefix_refl _, ?_, ?_, ?_, fun _ _ _ _ hj => hj⟩
        · rw [held_commit]
          exact and_iff_left hmn
        · rw [marks_commit]
          intro v hv hx
          rcases hx with hc | hx
          · exact Table.mem_commit_of_committed hv hc
          · exact (Table.mem_commit_iff_of_ne (hx.trans_ne hmn)).mpr hv
        · rw [marks_commit]
          exact fun v hv hx => (Table.mem_commit_iff_of_ne (hx.trans_ne hmn)).mp hv
    | worker j => trivial

end Service
