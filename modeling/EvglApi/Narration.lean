/-
# The channel of a job tells what is stored

Whatever the programs of the service do at the same time, the updates of a job are the beginning
of a script for its targets; and when its worker has returned well, they are the script that
ends with the rows of its targets.

* `narration` is what the programs agree on besides: requests emit nothing, and a worker emits for
  its own job.
* `narrates_runWorker` is the worker once more, with what it has told so far.
-/
import EvglApi.Courses
import EvglApi.OutcomeKeeps
import EvglApi.Standing

open Concurrency Mvcc

namespace Service

variable {env : Deployment} {p p' : Pool Stmt Role Outcome World} {w w' : World} {j e : Uuid}
  {n : ℕ} {said : List JobUpdate} {u : JobUpdate} {done rest : List TargetRow} {t : TargetRow}
  {job : JobRow} {α : Type} {P : World → Prop} {calm : Prop}

/-! ## Jobs without workers -/

/-- Nothing is sent on the channel of a job without a worker. -/
def Untold (w : World) : Prop := ∀ j, j ∉ w.workers → w.channel j = []

theorem untold_enter (r : Role) (h : Untold w) : Untold (World.enter r w) := by
  intro j hj
  rw [channel_enter]
  refine h j fun hmem => hj ?_
  cases r with
  | request n q => exact hmem
  | worker k => exact List.mem_append_left _ hmem

/-- A step sends only on the channel of a job whose worker has been started. -/
theorem untold_act {l : Label Draw Request} (hp : Reachable env p) (h : Untold p.shared)
    (hact : p.act (service env) l = some p') : Untold p'.shared := by
  obtain ⟨-, r, hguar⟩ := hp.poolOk.act (hospitable_ownership env)
    (Discipline.followsAll_of_assume (fun _ _ _ _ => trivial) (fun _ => trivial) p [l]).1 hact
  intro j hj
  rcases act_channel (j := j) (discreet_of_reachable hp) hact with ⟨hsame, -⟩ | ⟨hwork, -⟩
  · rw [hsame]
    exact h j fun hmem => hj (hguar.workers hmem)
  · obtain ⟨prog, hprog, -⟩ := hwork
    exact absurd (hguar.workers (hp.poolOk.taken _ hprog)) hj

/-- In every run a job without a worker has not been told of. -/
theorem untold_of_reachable (h : Reachable env p) : Untold p.shared :=
  Pool.Reaches.induct (I := fun p => Untold p.shared) h (fun _ _ => rfl) untold_act

/-! ## What the programs agree on -/

/-- The database does not fail, and a publication can be stored. -/
def Draw.kind (env : Deployment) (x : Draw) : Bool :=
  x.fails.isNone && match x.publication with
    | .ok publication => (env.publicationToValue publication).isOk
    | .error _ => true

/-- The documents of the stored events read as events. -/
def Legible (env : Deployment) (w : World) : Prop :=
  ∀ e ∈ w.events, (env.eventFromValue e.document).isOk = true

instance : Decidable (Legible env w) :=
  inferInstanceAs (Decidable (∀ e ∈ w.events, (env.eventFromValue e.document).isOk = true))

/-- What a worker meets with, if all is calm. -/
def Kindly (calm : Prop) (env : Deployment) (r : Role) (x : Draw) (w : World) : Prop :=
  (∃ j, r = .worker j) → calm → x.kind env = true ∧ Legible env w

theorem Draw.fails_of_kind {x : Draw} (h : x.kind env = true) : x.fails = none :=
  Option.isNone_iff_eq_none.mp (Bool.and_eq_true_iff.mp h).1

/-- The answer of a kind draw can be stored. -/
theorem Draw.encodes_of_kind {x : Draw} (h : x.kind env = true) {publication : Publication}
    (hx : x.publication = .ok publication) : (env.publicationToValue publication).isOk = true := by
  have hencodes := (Bool.and_eq_true_iff.mp h).2
  rw [hx] at hencodes
  exact hencodes

/-- What was told of the job when its worker has stopped on the way. -/
def Halted (env : Deployment) (job : JobRow) (w : World) : Prop :=
  OwnJob w job ∧ (w.channel job.id = [] ∨ ∃ done said rest,
    Narrated env job.id job.eventId done said rest w ∧
      Partial env job.id job.eventId rest said)

/-- What was told of the job when its worker has come to its end. -/
def Completed (env : Deployment) (job : JobRow) (w : World) : Prop :=
  OwnJob w job ∧ ∃ done said status, Narrated env job.id job.eventId done [said] [] w ∧
    Says job.id job.eventId none status 0 "job finished" none said

/-- A worker that meets with nothing unkind does not stop on the way. -/
def Lapsed (calm : Prop) (env : Deployment) (job : JobRow) (_ : ApiError) (w : World) : Prop :=
  ¬ calm ∧ Halted env job w

/-- What a finished worker has told. -/
def Narrates (calm : Prop) (env : Deployment) : Role → Outcome → World → Prop
  | .request _ _, _, _ => True
  | .worker j, .finished (.ok _), w => ∃ job : JobRow, job.id = j ∧ Completed env job w
  | .worker j, .finished (.error e), w => ∃ job : JobRow, job.id = j ∧ Lapsed calm env job e w
  | .worker _, .reply _, _ => False

/-- Requests emit nothing, and a worker emits for its own job. -/
def Tacit {β : Type} : Role → Stmt β → Prop
  | .request _ _, st => st.Silent
  | .worker j, st => st.OfWorker j

/-- What the others do to the targets and the channel of the job of a worker: nothing. -/
def Keeping (job : JobRow) (P : World → Prop) : Prop :=
  ∀ w w', RelyWorker job.id w w' → Unmoved job.id w w' → P w → P w'

/-- What the others keep, they keep together. -/
theorem Keeping.and {P Q : World → Prop} (hP : Keeping job P) (hQ : Keeping job Q) :
    Keeping job fun w => P w ∧ Q w :=
  fun w w' hrely hw h => ⟨hP w w' hrely hw h.1, hQ w w' hrely hw h.2⟩

theorem Keeping.const_and {a : Prop} (hP : Keeping job P) : Keeping job fun w => a ∧ P w :=
  fun w w' hrely hw h => ⟨h.1, hP w w' hrely hw h.2⟩

/-- The others keep the job of the worker. -/
theorem keeping_ownJob (job : JobRow) : Keeping job fun w => OwnJob w job :=
  fun w w' hrely _ h => stable_ownJob job w w' hrely h

theorem keeping_hasRow (job : JobRow) (t : TargetRow) (P : TargetRow → Prop) :
    Keeping job (HasRow job.id t P) := fun _ _ _ hw h => h.of_unmoved hw

/-- What was told on the way stays what was told. -/
theorem keeping_halted (env : Deployment) (job : JobRow) : Keeping job (Halted env job) := by
  intro w w' hrely hw h
  refine ⟨keeping_ownJob job w w' hrely hw h.1, h.2.imp (fun h => hw.channel.trans h) ?_⟩
  rintro ⟨done, said, rest, hnarrated, hsaid⟩
  exact ⟨done, said, rest, hnarrated.of_unmoved hw, hsaid⟩

/-- What was told at the end stays what was told. -/
theorem keeping_completed (env : Deployment) (job : JobRow) : Keeping job (Completed env job) := by
  rintro w w' hrely hw ⟨hown, done, said, status, hnarrated, hsaid⟩
  exact ⟨keeping_ownJob job w w' hrely hw hown, done, said, status, hnarrated.of_unmoved hw, hsaid⟩

/-- What is said on the channel of the job of another worker is left alone. -/
theorem channel_tacit {β : Type} {r : Role} {st : Stmt β} {x : Draw} {b : β} (hst : Tacit r st)
    (hexec : st.exec x w = some (b, w')) (k : Uuid) (hk : r ≠ .worker k) :
    w'.channel k = w.channel k := by
  cases r with
  | request n q => exact channel_silent hst hexec
  | worker j =>
      cases st with
      | emit job provider status attempt message publication =>
          obtain rfl : job.id = j := hst.2
          obtain ⟨-, rfl⟩ := Prod.mk.inj (Option.some.inj hexec)
          refine (channel_emitted _).trans ?_
          rw [if_neg fun heq => hk (congrArg Role.worker heq), List.append_nil]
      | _ =>
          refine channel_silent ?_ hexec
          trivial

theorem targetsOf_logOutcome (id k : Uuid) : (w.logOutcome id).targetsOf k = w.targetsOf k := rfl

/-- A worker leaves the fixed columns of all targets alone. -/
theorem targetsOf_aside {β : Type} {st : Stmt β} {x : Draw} {b : β} (hst : st.Aside)
    (hexec : st.exec x w = some (b, w')) (k : Uuid) : w'.targetsOf k = w.targetsOf k := by
  cases st with
  | query q =>
      obtain ⟨text, -, rfl, rfl⟩ | ⟨-, hexec⟩ := Stmt.exec_query hexec
      · rfl
      · cases q with
        | updateTargetRunning id n =>
            obtain ⟨-, rfl⟩ := Prod.mk.inj (Option.some.inj hexec)
            refine targetsOf_updateTarget ?_ k
            exact fun _ => rfl
        | updateTargetComplete id status result =>
            obtain ⟨-, rfl⟩ := Prod.mk.inj (Option.some.inj hexec)
            refine (targetsOf_logOutcome id k).trans (targetsOf_updateTarget ?_ k)
            exact fun _ => rfl
        | updateTargetFailed id n error =>
            obtain ⟨-, rfl⟩ := Prod.mk.inj (Option.some.inj hexec)
            refine (targetsOf_logOutcome id k).trans (targetsOf_updateTarget ?_ k)
            exact fun _ => rfl
        | insertTarget | commit => exact hst.elim
        | _ => exact World.targetsOf_congr ((Query.exec_frame hexec).targets (by simp)) k
  | rollback => exact hst.elim
  | _ => exact World.targetsOf_congr ((Stmt.exec_frame hexec).targets (by simp)) k

/-- What a step leaves alone: the channels of other jobs and, if it is one of a worker, the fixed
columns of the targets. -/
structure Discretion (r : Role) (w w' : World) : Prop where
  channel : ∀ k, r ≠ .worker k → w'.channel k = w.channel k
  targets : ∀ k, r = .worker k → w'.targetsOf k = w.targetsOf k

/-- Requests emit nothing, and workers tell the courses of their targets. -/
def narration (env : Deployment) (calm : Prop) : Extension ((ownership env).standing Untold) where
  allows := Tacit
  does := Discretion
  assume r _ x w := Kindly calm env r x w
  rely r w w' := ∀ k, r = .worker k → w'.channel k = w.channel k
  post := Narrates calm env
  does_of_exec {β r st x s b s'} hst hexec := by
    refine ⟨channel_tacit hst hexec, ?_⟩
    rintro k rfl
    exact targetsOf_aside hst.1 hexec k
  does_of_enter _ r' w := ⟨fun _ _ => channel_enter r', fun _ _ => by cases r' <;> rfl⟩
  rely_refl _ _ _ _ := rfl
  rely_trans h h' k hk := (h' k hk).trans (h k hk)
  rely_of_does _ _ _ _ hne _ hdoes k hk := hdoes.channel k fun heq => hne (heq.trans hk.symm)
  post_of_rely {r a w w'} hrely hmore hpost := by
    cases r with
    | request n q => trivial
    | worker j =>
        have hkeeps : ∀ {P : JobRow → World → Prop}, (∀ job, Keeping job (P job)) →
            (∃ job : JobRow, job.id = j ∧ P job w) → ∃ job : JobRow, job.id = j ∧ P job w' := by
          rintro P hP ⟨job, rfl, h⟩
          have hrely : RelyWorker job.id w w' := hrely
          exact ⟨job, rfl, hP job w w' hrely ⟨hrely.targets, hmore job.id rfl⟩ h⟩
        cases a with
        | reply r => exact hpost.elim
        | finished r =>
            cases r with
            | ok u => exact hkeeps (keeping_completed env) hpost
            | error e => exact hkeeps (fun job => (keeping_halted env job).const_and) hpost

/-- What the others keep still holds when the worker executes its next statement. -/
theorem Keeping.of_finds (hP : Keeping job P) (h : P w)
    (hfinds : (narration env calm).Finds (.worker job.id) w w') : P w' := by
  have hrely : RelyWorker job.id w w' := hfinds.rely
  exact hP w w' hrely ⟨hrely.targets, hfinds.more job.id rfl⟩ h

/-! ## How far a worker has come -/

/-- Nothing has been told of the job of the worker. -/
def Unheard (job : JobRow) (w : World) : Prop := OwnJob w job ∧ w.channel job.id = []

/-- What has been told of the job of the worker. -/
def Telling (env : Deployment) (job : JobRow) (done : List TargetRow) (said : List JobUpdate)
    (rest : List TargetRow) (w : World) : Prop :=
  OwnJob w job ∧ Narrated env job.id job.eventId done said rest w

theorem keeping_unheard (job : JobRow) : Keeping job (Unheard job) :=
  (keeping_ownJob job).and fun _ _ _ hw h => hw.channel.trans h

theorem keeping_telling (env : Deployment) (job : JobRow) (done : List TargetRow)
    (said : List JobUpdate) (rest : List TargetRow) :
    Keeping job (Telling env job done said rest) :=
  (keeping_ownJob job).and fun _ _ _ hw h => h.of_unmoved hw

theorem Unheard.halted (h : Unheard job w) : Halted env job w := ⟨h.1, Or.inl h.2⟩

/-- A worker that stops in the middle of a course has told a partial one. -/
theorem Telling.halted (h : Telling env job done said rest w)
    (hsaid : Partial env job.id job.eventId rest said) : Halted env job w :=
  ⟨h.1, Or.inr ⟨done, said, rest, h.2, hsaid⟩⟩

theorem Telling.halted_nil (h : Telling env job done [] rest w) : Halted env job w :=
  h.halted (Or.inl rfl)

variable {provider : Option ProviderKind} {kind : ProviderKind} {status : PublicationStatus}
  {message : String} {publication : Option Publication}

/-- An update goes to the end of the channel of its job. -/
theorem channel_saying {j e : Uuid} (hu : Says j e provider status n message publication u) :
    (w.log (.emitted u)).channel j = w.channel j ++ [u] := by
  obtain ⟨now, rfl⟩ := hu
  exact (channel_emitted _).trans (by rw [if_pos rfl])

/-- What the worker says is added to the course of the next target. -/
theorem Telling.say (h : Telling env job done said rest w)
    (hu : Says job.id job.eventId provider status n message publication u) :
    Telling env job done (said ++ [u]) rest (w.log (.emitted u)) :=
  ⟨h.1, h.2.say rfl (channel_saying hu)⟩

/-- The course of a target is over when it accounts for the row of the target. -/
theorem Telling.close (h : Telling env job done said (t :: rest) w)
    (htold : HasRow job.id t (fun row => Course env job.id job.eventId row said) w) :
    Telling env job (done ++ [t]) [] rest w := ⟨h.1, h.2.close htold⟩

/-- An update of a row leaves what was told as it is. -/
theorem Telling.update (h : Telling env job done said (t :: rest) w) {g : TargetRow → TargetRow}
    (hg : ∀ r, (g r).toTargetFixed = r.toTargetFixed) :
    Telling env job done said (t :: rest) (w.updateTarget t.id g) := ⟨h.1, h.2.update hg⟩

/-! ## Rules -/

section Worker

variable {Q : α → World → Prop} {A : TargetRow → Prop}

/-- A failure of the database is unkind, so that the worker may stop. -/
theorem Lapsed.of_fails {x : Draw} {text : String} {e : ApiError} (hx : x.fails = some text)
    (hkind : Kindly calm env (.worker j) x w) (h : Halted env job w') :
    Lapsed calm env job e w' := by
  refine ⟨fun hcalm => ?_, h⟩
  rw [Draw.fails_of_kind (hkind ⟨j, rfl⟩ hcalm).1] at hx
  cases hx

/-- A statement of the database by which the worker may stop. -/
theorem narrates_query {k : Query α} (hst : (Stmt.query k).OfWorker job.id)
    (hP : Keeping job P) (hhalts : ∀ w, P w → Halted env job w) (h : P w)
    (hexec : ∀ w' x a w'', P w' → Inv env w' → job.id ∈ w'.workers →
      k.exec x w' = some (a, w'') →
        either Q (Lapsed calm env job) (a.mapError ApiError.ofDb) w'') :
    Adds (narration env calm) (.worker job.id) (Api.query k) Q (Lapsed calm env job) w := by
  refine Adds.query hst fun w' hfinds _ => ?_
  have h' := hP.of_finds h hfinds
  exact ⟨fun x text hx hkind => .of_fails hx hkind (hhalts _ h'),
    fun x a w'' _ hstep _ => hexec w' x a w'' h' hfinds.inv.1 hfinds.taken hstep⟩

/-- A statement that only reads. -/
theorem narrates_read {k : Query α} {f : World → α}
    (hread : ∀ x w, k.exec x w = some (.ok (f w), w)) (hst : (Stmt.query k).OfWorker job.id)
    (hP : Keeping job P) (hhalts : ∀ w, P w → Halted env job w) (h : P w) :
    Adds (narration env calm) (.worker job.id) (Api.query k) (fun _ => P) (Lapsed calm env job)
      w := by
  refine narrates_query hst hP hhalts h fun w' x a w'' h' _ _ hstep => ?_
  rw [hread] at hstep
  obtain ⟨rfl, rfl⟩ := Prod.mk.inj (Option.some.inj hstep)
  exact h'

/-- The worker says an update; what it knew before holds up to then. -/
theorem narrates_emit {Q : Unit → World → Prop} {E : ApiError → World → Prop} (hP : Keeping job P)
    (h : P w) (hspoken : ∀ w u, P w →
      Says job.id job.eventId provider status n message publication u →
      Q () (w.log (.emitted u))) :
    Adds (narration env calm) (.worker job.id) (emit job provider status n message publication) Q E
      w := by
  refine Adds.stmt ⟨trivial, rfl⟩ fun w' hfinds _ x u w'' _ hstep _ => ?_
  obtain ⟨-, rfl⟩ := Prod.mk.inj (Option.some.inj hstep)
  exact hspoken w' _ (hP.of_finds h hfinds) ⟨x.now, rfl⟩

/-! ## Targets -/

/-- A failure of the next target is the end of its course. -/
def Fails (env : Deployment) (job : JobRow) (t : TargetRow) (said : List JobUpdate)
    (provider : Option ProviderKind) (n : ℕ) (why : TargetFailure) : Prop :=
  ∀ row u, row.toTargetFixed = t.toTargetFixed → row.status = "failed" → row.attempt = n →
    row.error = some why.message →
      Says job.id job.eventId provider .failed n why.message none u →
        Course env job.id job.eventId row (said ++ [u])

/-- A target at which no call was made fails with its first update. -/
theorem fails_refused {why : TargetFailure}
    (hprovider : (env.fromStr t.provider).toOption = provider) :
    Fails env job t [] provider 0 why := by
  intro row u hfixed hstatus hattempt herror hu
  refine .refused ?_ hstatus hattempt herror
  rw [congrArg TargetFixed.provider hfixed, hprovider]
  exact hu

/-- A target fails after the last of its calls. -/
theorem fails_called {why : TargetFailure} (hkind : env.fromStr t.provider = .ok kind)
    (h : Trying job.id job.eventId kind n true said) : Fails env job t said (some kind) n why := by
  intro row u hfixed hstatus hattempt herror hu
  exact .failed ((congrArg (env.fromStr ·.provider) hfixed).trans hkind) h hu hstatus hattempt
    herror

/-- How far the worker has come, and what it knows of the row of the next target. -/
def Knowing (env : Deployment) (job : JobRow) (done : List TargetRow) (said : List JobUpdate)
    (t : TargetRow) (rest : List TargetRow) (A : TargetRow → Prop) (w : World) : Prop :=
  Telling env job done said (t :: rest) w ∧ HasRow job.id t A w

theorem keeping_knowing (env : Deployment) (job : JobRow) (done : List TargetRow)
    (said : List JobUpdate) (t : TargetRow) (rest : List TargetRow) (A : TargetRow → Prop) :
    Keeping job (Knowing env job done said t rest A) :=
  (keeping_telling env job done said (t :: rest)).and (keeping_hasRow job t A)

theorem Telling.knowing (h : Telling env job done said (t :: rest) w) :
    Knowing env job done said t rest (fun _ => True) w :=
  ⟨h, h.2.roster.hasRow (List.mem_append_right done List.mem_cons_self)⟩

/-- An update of the row of the next target changes what the worker knows of it. -/
theorem Knowing.update (h : Knowing env job done said t rest A w) (hinv : Inv env w)
    (htaken : job.id ∈ w.workers) {g : TargetRow → TargetRow}
    (hg : ∀ r, (g r).toTargetFixed = r.toTargetFixed) {A' : TargetRow → Prop}
    (hA : ∀ r, A r → A' (g r)) :
    Knowing env job done said t rest A' (w.updateTarget t.id g) := by
  refine ⟨h.1.update hg, (h.2.update hinv htaken hg).mono fun row _ hnew => ?_⟩
  obtain ⟨old, hold, rfl⟩ := hnew
  exact hA old hold

theorem Knowing.of_unmoved (h : Knowing env job done said t rest A w) (hown : w'.jobs = w.jobs)
    (hw : Unmoved job.id w w') : Knowing env job done said t rest A w' := by
  refine ⟨⟨?_, h.1.2.of_unmoved hw⟩, h.2.of_unmoved hw⟩
  rw [OwnJob, hown]
  exact h.1.1

/-- The update with which the course of the next target ends. -/
theorem narrates_close {E : ApiError → World → Prop} (h : Knowing env job done said t rest A w)
    (hends : ∀ row u, row.toTargetFixed = t.toTargetFixed → A row →
      Says job.id job.eventId provider status n message publication u →
        Course env job.id job.eventId row (said ++ [u])) :
    Adds (narration env calm) (.worker job.id) (emit job provider status n message publication)
      (fun _ => Telling env job (done ++ [t]) [] rest) E w := by
  refine narrates_emit (keeping_knowing env job done said t rest A) h fun w u h hu => ?_
  exact (h.1.say hu).close (h.2.mono fun row hfixed hrow => hends row u hfixed hrow hu)

/-- `fail_target` stores the failure and then tells it, which ends the course. -/
theorem narrates_failTarget {why : TargetFailure} (h : Telling env job done said (t :: rest) w)
    (hsaid : Partial env job.id job.eventId (t :: rest) said)
    (hfails : Fails env job t said provider n why) :
    Adds (narration env calm) (.worker job.id) (failTarget job t.id provider n why)
      (fun _ => Telling env job (done ++ [t]) [] rest) (Lapsed calm env job) w := by
  have hstored : Adds (narration env calm) (.worker job.id) (Store.targetFailed t.id n why)
      (fun _ => Knowing env job done said t rest fun row => row.status = "failed" ∧
        row.attempt = n ∧ row.error = some why.message) (Lapsed calm env job) w := by
    refine narrates_query ⟨trivial, trivial⟩ (keeping_telling env job done said (t :: rest))
      (fun w h => h.halted hsaid) h fun w' x a w'' h' hinv htaken hstep => ?_
    obtain ⟨rfl, rfl⟩ := Prod.mk.inj (Option.some.inj hstep)
    refine Knowing.of_unmoved (h'.knowing.update hinv htaken ?_ ?_) rfl (unmoved_logOutcome t.id)
    · exact fun _ => rfl
    · exact fun _ _ => ⟨rfl, rfl, rfl⟩
  refine Adds.andThen hstored fun _ w h => ?_
  exact narrates_close h fun row u hfixed hrow hu => hfails row u hfixed hrow.1 hrow.2.1 hrow.2.2 hu

theorem Trying.isPartial {called : Bool} (h : Trying job.id job.eventId kind n called said)
    (hkind : env.fromStr t.provider = .ok kind) :
    Partial env job.id job.eventId (t :: rest) said :=
  Or.inr ⟨t, rest, kind, n, called, rfl, hkind, h⟩

/-- The number of the attempt is stored before the attempt is told. -/
theorem narrates_targetRunning (h : Telling env job done said (t :: rest) w)
    (hsaid : Partial env job.id job.eventId (t :: rest) said) (n : ℕ) :
    Adds (narration env calm) (.worker job.id) (Store.targetRunning t.id n)
      (fun _ => Knowing env job done said t rest (·.attempt = n)) (Lapsed calm env job) w := by
  refine narrates_query ⟨trivial, trivial⟩ (keeping_telling env job done said (t :: rest))
    (fun w h => h.halted hsaid) h fun w' x a w'' h' hinv htaken hstep => ?_
  obtain ⟨rfl, rfl⟩ := Prod.mk.inj (Option.some.inj hstep)
  refine Knowing.update h'.knowing hinv htaken ?_ ?_
  · exact fun _ => rfl
  · exact fun _ _ => rfl

/-- The answer of a call encodes if the worker meets with nothing unkind. -/
theorem narrates_publish {call : PublishCall} {E : ApiError → World → Prop}
    (h : Knowing env job done said t rest A w) :
    Adds (narration env calm) (.worker job.id) (Tries.stmt (.publish call))
      (fun answer w => Knowing env job done said t rest A w ∧ (calm → ∀ publication,
        answer = .ok publication → (env.publicationToValue publication).isOk = true)) E w := by
  refine Adds.stmt ⟨trivial, trivial⟩ fun w' hfinds _ x answer w'' hkind hstep _ => ?_
  obtain ⟨rfl, rfl⟩ := Prod.mk.inj (Option.some.inj hstep)
  have h' := (keeping_knowing env job done said t rest A).of_finds h hfinds
  refine ⟨h'.of_unmoved rfl ⟨fun _ _ => Iff.rfl,
    channel_append [_] rfl fun e he => List.mem_singleton.mp he ▸ rfl⟩, fun hcalm _ hanswer => ?_⟩
  exact Draw.encodes_of_kind (hkind ⟨job.id, rfl⟩ hcalm).1 hanswer

/-- The answer to the last call is stored and told. -/
theorem narrates_complete {publication : Publication} {value : Value}
    (h : Knowing env job done said t rest (·.attempt = n) w)
    (hkind : env.fromStr t.provider = .ok kind)
    (htrying : Trying job.id job.eventId kind n true said)
    (hvalue : env.publicationToValue publication = .ok value) :
    Adds (narration env calm) (.worker job.id)
      (do
        Store.targetComplete t.id publication.status value
        emit job (some kind) publication.status n "provider request completed" (some publication))
      (fun _ => Telling env job (done ++ [t]) [] rest) (Lapsed calm env job) w := by
  have hstored : Adds (narration env calm) (.worker job.id)
      (Store.targetComplete t.id publication.status value)
      (fun _ => Knowing env job done said t rest fun row => row.attempt = n ∧
        row.status = statusName publication.status ∧ row.result = some value ∧ row.error = none)
      (Lapsed calm env job) w := by
    refine narrates_query ⟨trivial, trivial⟩
      (keeping_knowing env job done said t rest (·.attempt = n))
      (fun w h => h.1.halted (htrying.isPartial hkind)) h fun w' x a w'' h' hinv htaken hstep => ?_
    obtain ⟨rfl, rfl⟩ := Prod.mk.inj (Option.some.inj hstep)
    refine Knowing.of_unmoved (h'.update hinv htaken ?_ ?_) rfl (unmoved_logOutcome t.id)
    · exact fun _ => rfl
    · exact fun _ hattempt => ⟨hattempt, rfl, rfl, rfl⟩
  refine Adds.andThen hstored fun _ w h => ?_
  refine narrates_close h fun row u hfixed hrow hu => ?_
  have hkind' : env.fromStr row.provider = .ok kind :=
    (congrArg (fun f : TargetFixed => env.fromStr f.provider) hfixed).trans hkind
  exact .completed hkind' htrying hu hrow.2.1 hrow.1 hvalue hrow.2.2.1 hrow.2.2.2

/-- The loop over the attempts. -/
theorem narrates_publishLoop {call : PublishCall} (hcall : call.target = t)
    (hkind : env.fromStr t.provider = .ok call.provider) (attempts : List ℕ) (last : ℕ)
    (hattempts : attempts = List.range' (n + 1) (3 - n))
    (htrying : Trying job.id job.eventId call.provider n false said)
    (h : Telling env job done said (t :: rest) w) :
    Adds (narration env calm) (.worker job.id) (publishLoop env job call last attempts)
      (fun _ => Telling env job (done ++ [t]) [] rest) (Lapsed calm env job) w := by
  subst hcall
  induction attempts generalizing w n said last with
  | nil =>
      -- before a call there is one left
      have hlt := htrying.lt_three
      have hzero : 3 - n = 0 := List.range'_eq_nil_iff.mp hattempts.symm
      omega
  | cons attempt attempts ih =>
      obtain ⟨rfl, -, hattempts⟩ := List.range'_eq_cons_iff.mp hattempts.symm
      unfold publishLoop
      refine Adds.andThen (narrates_targetRunning h (htrying.isPartial hkind) (n + 1))
        fun _ w h => ?_
      refine Adds.bind (narrates_emit (keeping_knowing env job done said call.target rest _) h
        fun w u h hu => ?_)
      have hcalled := htrying.call hu
      have h' : Knowing env job done (said ++ [u]) call.target rest (·.attempt = n + 1)
          (w.log (.emitted u)) := ⟨h.1.say hu, h.2⟩
      refine Adds.andThen (narrates_publish h') fun answer w h => ?_
      obtain ⟨h, hencodes⟩ := h
      cases answer with
      | ok p =>
          refine Adds.bind (Adds.result (fun value hvalue => ?_) fun e he => ?_)
          · exact narrates_complete h hkind hcalled (Fallible.mapError_eq_ok.mp hvalue)
          · refine ⟨fun hcalm => ?_, h.1.halted (hcalled.isPartial hkind)⟩
            obtain ⟨e', he', -⟩ := Fallible.mapError_eq_error.mp he
            have hok := hencodes hcalm p rfl
            rw [he'] at hok
            cases hok
      | error error =>
          show Adds _ _ (if _ then _ else _) _ _ _
          split
          · next hretry =>
              refine Adds.bind (narrates_emit (keeping_telling env job done _ (call.target :: rest))
                h.1 fun w u h hu => ?_)
              refine ih (n + 1) ?_ (hcalled.retry hretry.1 hu) (h.say hu)
              rw [hattempts, Nat.sub_sub]
          · exact narrates_failTarget h.1 (hcalled.isPartial hkind) (fails_called hkind hcalled)

/-- The connection is looked up; a failure does not matter. -/
theorem narrates_getConnection (hP : Keeping job P) (h : P w) (userId id : Uuid) :
    Adds (narration env calm) (.worker job.id) (Store.getConnection userId id) (fun _ => P)
      (fun _ => P) w := by
  have hread : Adds (narration env calm) (.worker job.id) (Api.query (.selectConnection id userId))
      (fun _ => P) (fun _ => P) w := by
    refine Adds.query ⟨trivial, trivial⟩ fun w' hfinds _ => ?_
    have h' := hP.of_finds h hfinds
    refine ⟨fun _ _ _ _ => h', fun x a w'' _ hstep _ => ?_⟩
    obtain ⟨rfl, rfl⟩ := Prod.mk.inj (Option.some.inj hstep)
    exact h'
  refine Adds.andThen hread fun answer w h => ?_
  cases answer with
  | none => exact Adds.throw h
  | some connection => exact Adds.pure h

/-- The turn of one target. -/
theorem narrates_processTarget {event : EventDraft} (hjob : t.jobId = job.id)
    (h : Telling env job done [] (t :: rest) w) :
    Adds (narration env calm) (.worker job.id) (processTarget env job event t)
      (fun _ => Telling env job (done ++ [t]) [] rest) (Lapsed calm env job) w := by
  have hnothing : Partial env job.id job.eventId (t :: rest) [] := Or.inl rfl
  unfold processTarget
  rw [if_neg (not_not.mpr hjob)]
  cases hkind : env.fromStr t.provider with
  | error error => exact narrates_failTarget h hnothing (fails_refused (by rw [hkind]; rfl))
  | ok kind =>
      have hrefused : ∀ {why}, Fails env job t [] (some kind) 0 why :=
        fails_refused (by rw [hkind]; rfl)
      refine Adds.bind (Adds.caught ?_)
      refine (narrates_getConnection (keeping_telling env job done [] (t :: rest)) h job.userId
        t.connectionId).mono (fun connection w h => ?_) fun e w h =>
          narrates_failTarget h hnothing hrefused
      show Adds _ _ (if _ then _ else _) _ _ _
      split
      · exact narrates_failTarget h hnothing hrefused
      · cases env.decrypt connection.aad connection.tokenEnvelope with
        | error error => exact narrates_failTarget h hnothing hrefused
        | ok tokens => exact narrates_publishLoop rfl hkind [1, 2, 3] 0 rfl .idle h

/-- The loop over the targets. -/
theorem narrates_processTargets {event : EventDraft} (targets : List TargetRow)
    (hjob : ∀ t ∈ targets, t.jobId = job.id) (h : Telling env job done [] targets w) :
    Adds (narration env calm) (.worker job.id) (processTargets env job event targets)
      (fun _ => Telling env job (done ++ targets) [] []) (Lapsed calm env job) w := by
  induction targets generalizing w done with
  | nil =>
      refine Adds.pure ?_
      rw [List.append_nil]
      exact h
  | cons t targets ih =>
      refine Adds.andThen (narrates_processTarget (hjob t List.mem_cons_self) h) fun _ w h => ?_
      have hrest := ih (fun t ht => hjob t (List.mem_cons_of_mem _ ht)) h
      rwa [List.append_assoc] at hrest

/-! ## The beginning and the end -/

/-- The event of the job is there, and it reads as one if the worker meets with nothing unkind. -/
theorem narrates_getEvent (h : Unheard job w) (userId eventId : Uuid) :
    Adds (narration env calm) (.worker job.id) (Store.getEvent env userId eventId)
      (fun _ => Unheard job) (Lapsed calm env job) w := by
  have hread : Adds (narration env calm) (.worker job.id)
      (Api.query (.selectEventDocument eventId userId))
      (fun answer w => Unheard job w ∧ ∃ document, answer = some document ∧
        (calm → (env.eventFromValue document).isOk = true)) (Lapsed calm env job) w := by
    refine Adds.query ⟨trivial, trivial⟩ fun w' hfinds hneeds => ?_
    have h' := (keeping_unheard job).of_finds h hfinds
    refine ⟨fun x text hx hkind => .of_fails hx hkind h'.halted, fun x a w'' hkind hstep _ => ?_⟩
    obtain ⟨rfl, rfl⟩ := Prod.mk.inj (Option.some.inj hstep)
    refine ⟨h', ?_⟩
    obtain ⟨e, he, hid, howner⟩ : ∃ e ∈ w'.events, e.id = eventId ∧ e.ownerId = userId := hneeds
    obtain ⟨e', hfind, -⟩ := Keyed.exists_found
      (p := fun e : EventRow => e.id = eventId ∧ e.ownerId = userId) he ⟨hid, howner⟩
    rw [hfind]
    exact ⟨e'.document, rfl, fun hcalm =>
      (hkind ⟨job.id, rfl⟩ hcalm).2 e' (List.mem_of_find?_eq_some hfind)⟩
  refine Adds.andThen hread fun answer w h => ?_
  obtain ⟨h, document, rfl, hreads⟩ := h
  refine Adds.result (fun _ _ => h) fun e he => ⟨fun hcalm => ?_, h.halted⟩
  obtain ⟨e', he', -⟩ := Fallible.mapError_eq_error.mp he
  have hok := hreads hcalm
  rw [he'] at hok
  cases hok

/-- The targets of the job are known, and nothing has been told yet. -/
def Enrolled (job : JobRow) (targets : List TargetRow) (w : World) : Prop :=
  Unheard job w ∧ Roster job.id [] targets w

theorem keeping_enrolled (job : JobRow) (targets : List TargetRow) :
    Keeping job (Enrolled job targets) :=
  (keeping_unheard job).and fun _ _ _ hw h => h.of_unmoved hw

/-- The worker takes up the targets of its job as they are stored; nothing has been told
yet. -/
theorem narrates_claimTargets (h : Unheard job w) :
    Adds (narration env calm) (.worker job.id) (Store.claimTargets job.id)
      (fun targets w => (∀ t ∈ targets, t.jobId = job.id) ∧ Enrolled job targets w)
      (Lapsed calm env job) w := by
  have hstart : Adds (narration env calm) (.worker job.id) (Api.query (.updateJobRunning job.id))
      (fun _ => Unheard job) (Lapsed calm env job) w := by
    refine narrates_query ⟨trivial, trivial⟩ (keeping_unheard job) (fun _ h => h.halted) h
      fun w' x a w'' h' _ _ hstep => ?_
    obtain ⟨rfl, rfl⟩ := Prod.mk.inj (Option.some.inj hstep)
    refine ⟨OwnJob.updateJob h'.1 ?_, h'.2⟩
    exact fun _ => rfl
  refine Adds.andThen hstart fun _ w h => ?_
  refine narrates_query ⟨trivial, trivial⟩ (keeping_unheard job) (fun _ h => h.halted) h
    fun w' x a w'' h' hinv htaken hstep => ?_
  obtain ⟨rfl, rfl⟩ := Prod.mk.inj (Option.some.inj hstep)
  exact ⟨fun t ht => (mem_claimed.mp ht).1, h', roster_claimed hinv htaken⟩

/-- The announcement that the job has started is the head of the script. -/
theorem Enrolled.telling {targets : List TargetRow} (h : Enrolled job targets w)
    (hu : Says job.id job.eventId none .running 0 "job started" none u) :
    Telling env job [] [] targets (w.log (.emitted u)) := by
  refine ⟨h.1.1, ⟨h.2.rows, h.2.sorted⟩, u, [], hu, .nil, ?_⟩
  rw [channel_saying hu, h.1.2]
  rfl

/-- The status of the job is stored without a word. -/
theorem narrates_finishJob (h : Telling env job done [] [] w) :
    Adds (narration env calm) (.worker job.id) (Store.finishJob job.id)
      (fun _ => Telling env job done [] []) (Lapsed calm env job) w := by
  have hkeeps := keeping_telling env job done [] []
  have hcounts : ∀ {w} name, Telling env job done [] [] w →
      Adds (narration env calm) (.worker job.id) (Api.query (.countTargets job.id name))
        (fun _ => Telling env job done [] []) (Lapsed calm env job) w := fun _ h =>
    narrates_read (fun _ _ => rfl) ⟨trivial, trivial⟩ hkeeps (fun _ h => h.halted_nil) h
  refine Adds.andThen (hcounts "failed" h) fun failures w h => ?_
  refine Adds.andThen (hcounts "action_required" h) fun actions w h => ?_
  refine narrates_query ⟨trivial, trivial⟩ hkeeps (fun _ h => h.halted_nil) h
    fun w' x a w'' h' _ _ hstep => ?_
  obtain ⟨rfl, rfl⟩ := Prod.mk.inj (Option.some.inj hstep)
  have hown : OwnJob (w'.updateJob job.id fun j =>
      { j with status := Store.summary failures actions, updatedAt := x.now }) job :=
    h'.1.updateJob fun _ => rfl
  exact ⟨hown, h'.2.of_unmoved ⟨fun _ _ => Iff.rfl,
    channel_append [_] rfl fun e he => List.mem_singleton.mp he ▸ rfl⟩⟩

/-- The job of a worker is found. -/
theorem narrates_getJob (h : Telling env job done [] [] w) :
    Adds (narration env calm) (.worker job.id) (Store.getJob job.userId job.id)
      (fun _ => Telling env job done [] []) (Lapsed calm env job) w := by
  have hkeeps := keeping_telling env job done [] []
  have hselect : Adds (narration env calm) (.worker job.id)
      (Api.query (.selectJob job.id job.userId))
      (fun answer w => Telling env job done [] [] w ∧ answer.isSome) (Lapsed calm env job) w := by
    refine narrates_query ⟨trivial, trivial⟩ hkeeps (fun _ h => h.halted_nil) h
      fun w' x a w'' h' _ _ hstep => ?_
    obtain ⟨rfl, rfl⟩ := Prod.mk.inj (Option.some.inj hstep)
    refine ⟨h', ?_⟩
    obtain ⟨row, hfind⟩ := h'.1.exists_found
    rw [hfind]
    rfl
  refine Adds.andThen hselect fun answer w h => ?_
  obtain ⟨h, hfound⟩ := h
  cases answer with
  | none => cases hfound
  | some row =>
      have htargets : Adds (narration env calm) (.worker job.id) (Api.query (.selectTargets job.id))
          (fun _ => Telling env job done [] []) (Lapsed calm env job) w :=
        narrates_read (fun _ _ => rfl) ⟨trivial, trivial⟩ hkeeps (fun _ h => h.halted_nil) h
      exact Adds.andThen htargets fun _ _ h => Adds.pure h

/-- The whole program of a worker. -/
theorem narrates_runWorker (h : Unheard job w) :
    Adds (narration env calm) (.worker job.id) (runWorker env job)
      (fun _ => Completed env job) (Lapsed calm env job) w := by
  unfold runWorker
  refine Adds.andThen (narrates_getEvent h job.userId job.eventId) fun event w h => ?_
  refine Adds.andThen (narrates_claimTargets h) fun targets w h => ?_
  obtain ⟨hjob, h⟩ := h
  refine Adds.bind (narrates_emit (keeping_enrolled job targets) h fun w u h hu => ?_)
  refine Adds.andThen (narrates_processTargets targets hjob (h.telling hu)) fun _ w h => ?_
  refine Adds.andThen (narrates_finishJob h) fun _ w h => ?_
  refine Adds.andThen (narrates_getJob h) fun found w h => ?_
  refine narrates_emit (keeping_telling env job targets [] []) h fun w u h hu => ?_
  exact ⟨h.1, targets, u, finalStatus found.1.status, (h.say hu).2, hu⟩

end Worker

/-- The outcome of a worker says which of the two it has told. -/
theorem narrates_worker (h : Unheard job w) :
    (narration env calm).wp (.worker job.id) (worker env job)
      ((narration env calm).post (.worker job.id))
      w := by
  rw [worker]
  refine Extension.wp_bind (Extension.wp_mono (fun a w h => ?_) (narrates_runWorker h))
  cases a with
  | ok u => exact ⟨job, rfl, h⟩
  | error e => exact ⟨job, rfl, h⟩

end Service
