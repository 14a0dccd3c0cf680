/-
# What is told about a job

The updates of a job form a script: that the job is started, then for each of its targets the
course that it took, in the order in which the targets were claimed, and that the job is
finished.

* `Course` says which updates are told about a target that ends with a given row: it was refused,
  or it was called up to three times and the last call failed or completed.
* `Narrated` says of a store how far a worker has come in the script of its job;
  `Narrated.say`, `Narrated.update` and `Narrated.close` are what the steps of a worker do to it.
* `Narrated.isBeginning`: the script can always be completed.
-/
import EvglApi.Updates

open Concurrency Mvcc

namespace Service

variable {env : Deployment} {w w' : World} {j e : Uuid} {provider : ProviderKind} {n : ℕ}
  {called : Bool} {said : List JobUpdate} {u : JobUpdate} {done rest : List TargetRow}
  {t : TargetRow} {P : TargetRow → Prop}

/-! ## Scripts -/

/-- An update about job `j`, which posts event `e`, with these values, sent at some time. -/
def Says (j e : Uuid) (provider : Option ProviderKind) (status : PublicationStatus) (attempt : ℕ)
    (message : String) (publication : Option Publication) (u : JobUpdate) : Prop :=
  ∃ now, u =
    { jobId := j, eventId := e, provider, status, attempt, message, occurredAt := now, publication }

/-- What is told of the calls for a target: after `n` of them, while the answer to the last one
is open (`true`), or before the next one (`false`). -/
inductive Trying (j e : Uuid) (provider : ProviderKind) : ℕ → Bool → List JobUpdate → Prop
  | idle : Trying j e provider 0 false []
  | call {n : ℕ} {said : List JobUpdate} {u : JobUpdate} (h : Trying j e provider n false said)
      (hu : Says j e (some provider) .running (n + 1) "provider request started" none u) :
      Trying j e provider (n + 1) true (said ++ [u])
  | retry {n : ℕ} {said : List JobUpdate} {u : JobUpdate} {text : String}
      (h : Trying j e provider n true said) (hn : n < 3)
      (hu : Says j e (some provider) .retrying n text none u) :
      Trying j e provider n false (said ++ [u])

/-- What is told about a target from first to last, when it ends with this row. -/
inductive Course (env : Deployment) (j e : Uuid) (row : TargetRow) : List JobUpdate → Prop
  | refused {u : JobUpdate} {text : String}
      (hu : Says j e (env.fromStr row.provider).toOption .failed 0 text none u)
      (hstatus : row.status = "failed") (hattempt : row.attempt = 0)
      (herror : row.error = some text) : Course env j e row [u]
  | failed {provider : ProviderKind} {n : ℕ} {said : List JobUpdate} {u : JobUpdate}
      {text : String} (hprovider : env.fromStr row.provider = .ok provider)
      (h : Trying j e provider n true said) (hu : Says j e (some provider) .failed n text none u)
      (hstatus : row.status = "failed") (hattempt : row.attempt = n)
      (herror : row.error = some text) : Course env j e row (said ++ [u])
  | completed {provider : ProviderKind} {n : ℕ} {said : List JobUpdate} {u : JobUpdate}
      {publication : Publication} {result : Value}
      (hprovider : env.fromStr row.provider = .ok provider)
      (h : Trying j e provider n true said)
      (hu : Says j e (some provider) publication.status n "provider request completed"
        (some publication) u)
      (hstatus : row.status = statusName publication.status) (hattempt : row.attempt = n)
      (hresult : env.publicationToValue publication = .ok result) (hrow : row.result = some result)
      (herror : row.error = none) : Course env j e row (said ++ [u])

/-- All that is told about a job whose targets end with these rows, and which ends with this
status itself. -/
def Script (env : Deployment) (j e : Uuid) (rows : List TargetRow) (status : PublicationStatus)
    (updates : List JobUpdate) : Prop :=
  ∃ first courses last, Says j e none .running 0 "job started" none first ∧
    List.Forall₂ (Course env j e) rows courses ∧
      Says j e none status 0 "job finished" none last ∧
        updates = first :: (courses.flatten ++ [last])

/-- No call is made after the third one. -/
theorem Trying.lt_three (h : Trying j e provider n false said) : n < 3 := by
  cases h with
  | idle => decide
  | retry _ hn _ => exact hn

/-! ## How far a worker has come -/

/-- The job has the target `t`, and its row satisfies `P`. -/
def HasRow (j : Uuid) (t : TargetRow) (P : TargetRow → Prop) (w : World) : Prop :=
  ∃ v ∈ w.targets, v.row.jobId = j ∧ v.row.toTargetFixed = t.toTargetFixed ∧ P v.row

/-- The job has the targets `done` and `rest`, in the order of their ids. -/
structure Roster (j : Uuid) (done rest : List TargetRow) (w : World) : Prop where
  rows : ∀ t, t ∈ (done ++ rest).map TargetRow.toTargetFixed ↔
    ∃ v ∈ w.targets, v.row.jobId = j ∧ v.row.toTargetFixed = t
  sorted : (done ++ rest).Pairwise fun a b => a.id < b.id

/-- The courses of the targets `done` have been told, and `said` of that of the next one. -/
structure Narrated (env : Deployment) (j e : Uuid) (done : List TargetRow)
    (said : List JobUpdate) (rest : List TargetRow) (w : World) : Prop where
  roster : Roster j done rest w
  told : ∃ first courses, Says j e none .running 0 "job started" none first ∧
    List.Forall₂ (fun t course => HasRow j t (fun row => Course env j e row course) w)
      done courses ∧ w.channel j = first :: (courses.flatten ++ said)

/-- The targets of the job and its channel are left as they are. -/
structure Unmoved (j : Uuid) (w w' : World) : Prop where
  targets : ∀ v : Version TargetRow, v.row.jobId = j → (v ∈ w'.targets ↔ v ∈ w.targets)
  channel : w'.channel j = w.channel j

theorem HasRow.mono {P' : TargetRow → Prop} (h : HasRow j t P w)
    (hP : ∀ row, row.toTargetFixed = t.toTargetFixed → P row → P' row) : HasRow j t P' w := by
  obtain ⟨v, hv, hjob, hfixed, hrow⟩ := h
  exact ⟨v, hv, hjob, hfixed, hP v.row hfixed hrow⟩

theorem HasRow.of_unmoved (hw : Unmoved j w w') (h : HasRow j t P w) : HasRow j t P w' := by
  obtain ⟨v, hv, hjob, hrest⟩ := h
  exact ⟨v, (hw.targets v hjob).mpr hv, hjob, hrest⟩

theorem Roster.of_unmoved (h : Roster j done rest w) (hw : Unmoved j w w') :
    Roster j done rest w' := by
  refine ⟨fun f => (h.rows f).trans ?_, h.sorted⟩
  constructor
  · rintro ⟨v, hv, hjob, hfixed⟩
    exact ⟨v, (hw.targets v hjob).mpr hv, hjob, hfixed⟩
  · rintro ⟨v, hv, hjob, hfixed⟩
    exact ⟨v, (hw.targets v hjob).mp hv, hjob, hfixed⟩

theorem Narrated.of_unmoved (h : Narrated env j e done said rest w) (hw : Unmoved j w w') :
    Narrated env j e done said rest w' := by
  obtain ⟨first, courses, hfirst, hcourses, hchannel⟩ := h.told
  refine ⟨h.roster.of_unmoved hw, first, courses, hfirst, ?_, hw.channel.trans hchannel⟩
  exact hcourses.imp fun _ _ => HasRow.of_unmoved hw

theorem unmoved_logOutcome (id : Uuid) : Unmoved j w (w.logOutcome id) := by
  refine ⟨fun _ _ => Iff.rfl, channel_append _ rfl fun effect heffect => ?_⟩
  obtain ⟨row, -, rfl⟩ := List.mem_map.mp heffect
  rfl

theorem Roster.hasRow (h : Roster j done rest w) (ht : t ∈ done ++ rest) :
    HasRow j t (fun _ => True) w := by
  obtain ⟨v, hv, hjob, hfixed⟩ := (h.rows t.toTargetFixed).mp (List.mem_map_of_mem ht)
  exact ⟨v, hv, hjob, hfixed, trivial⟩

/-- One more update is told. -/
theorem Narrated.say (h : Narrated env j e done said rest w) (htargets : w'.targets = w.targets)
    (hchannel : w'.channel j = w.channel j ++ [u]) :
    Narrated env j e done (said ++ [u]) rest w' := by
  obtain ⟨first, courses, hfirst, hcourses, hsaid⟩ := h.told
  have hroster := h.roster
  refine ⟨⟨htargets ▸ hroster.rows, hroster.sorted⟩, first, courses, hfirst,
    hcourses.imp fun t course htold => ?_, ?_⟩
  · rw [HasRow, htargets]
    exact htold
  · rw [hchannel, hsaid, List.cons_append, List.append_assoc]

/-- What was told is the course of the next target. -/
theorem Narrated.close (h : Narrated env j e done said (t :: rest) w)
    (htold : HasRow j t (fun row => Course env j e row said) w) :
    Narrated env j e (done ++ [t]) [] rest w := by
  obtain ⟨first, courses, hfirst, hcourses, hsaid⟩ := h.told
  have happend : done ++ [t] ++ rest = done ++ t :: rest := List.append_assoc ..
  refine ⟨⟨?_, ?_⟩, first, courses ++ [said], hfirst,
    List.rel_append hcourses (.cons htold .nil), ?_⟩
  · rw [happend]
    exact h.roster.rows
  · rw [happend]
    exact h.roster.sorted
  · rw [hsaid, List.flatten_append, List.flatten_singleton, List.append_nil]

/-- The next target is not one of those before it. -/
theorem Roster.ne_of_mem (h : Roster j done (t :: rest) w) {t' : TargetRow} (ht' : t' ∈ done) :
    t'.id ≠ t.id := by
  obtain ⟨-, -, hbefore⟩ := List.pairwise_append.mp h.sorted
  exact (hbefore t' ht' t List.mem_cons_self).ne

variable {g : TargetRow → TargetRow}

/-- An update of a target of a job with a worker. -/
theorem HasRow.update (h : HasRow j t P w) (hinv : Inv env w) (htaken : j ∈ w.workers)
    (hg : ∀ r, (g r).toTargetFixed = r.toTargetFixed) :
    HasRow j t (fun row => ∃ old, P old ∧ row = g old) (w.updateTarget t.id g) := by
  obtain ⟨v, hv, hjob, hfixed, hP⟩ := h
  have hid : v.row.id = t.id := congrArg TargetFixed.id hfixed
  have hcommitted := hinv.target_committed_of_worker hv (hjob.symm ▸ htaken)
  rw [HasRow, targets_updateTarget]
  refine ⟨_, Table.mem_update_of_mem hv, ?_, ?_, v.row, hP, ?_⟩
  · exact (congrArg TargetFixed.jobId (fixed_update hg _ v.row)).trans hjob
  · exact (fixed_update hg _ v.row).trans hfixed
  · exact if_pos (by rw [hcommitted, decide_eq_true hid]; rfl)

theorem Narrated.update (h : Narrated env j e done said (t :: rest) w)
    (hg : ∀ r, (g r).toTargetFixed = r.toTargetFixed) :
    Narrated env j e done said (t :: rest) (w.updateTarget t.id g) := by
  obtain ⟨first, courses, hfirst, hcourses, hsaid⟩ := h.told
  refine ⟨⟨fun f => (h.roster.rows f).trans ?_, h.roster.sorted⟩, first, courses, hfirst, ?_, hsaid⟩
  · constructor
    · rintro ⟨v, hv, hjob, hf⟩
      obtain ⟨v', hv', -, -, hfixed, -⟩ := mem_updateTarget_of_mem (t := t.id) hg hv
      exact ⟨v', hv', (congrArg TargetFixed.jobId hfixed).trans hjob, hfixed.trans hf⟩
    · rintro ⟨v, hv, hjob, hf⟩
      obtain ⟨v', hv', -, -, hfixed, -⟩ := exists_of_mem_updateTarget hg hv
      exact ⟨v', hv', (congrArg TargetFixed.jobId hfixed).symm.trans hjob, hfixed.symm.trans hf⟩
  · -- the targets that have been told have other ids
    have hother := (List.forall₂_and_left done courses).mpr
      ⟨fun _ ht' => h.roster.ne_of_mem ht', hcourses⟩
    refine hother.imp fun t' course htold => ?_
    obtain ⟨hne, v, hv, hjob, hfixed, hcourse⟩ := htold
    have hid : v.row.id ≠ t.id := (congrArg TargetFixed.id hfixed).trans_ne hne
    exact ⟨v, (mem_updateTarget_of_ne hg hid).mpr hv, hjob, hfixed, hcourse⟩

/-! ## The targets of the job -/

theorem sorted_claimed (hinv : Inv env w) (j : Uuid) :
    (claimed w j).Pairwise fun a b => a.id < b.id := by
  have hle : (claimed w j).Pairwise fun a b => a.id ≤ b.id := List.pairwise_insertionSort _ _
  have hne : (claimed w j).Pairwise fun a b => a.id ≠ b.id :=
    List.pairwise_map.mp (nodup_claimed hinv j)
  exact (hle.and hne).imp fun hboth => lt_of_le_of_ne hboth.1 hboth.2

/-- A list that is sorted by a key is determined by its elements. -/
theorem eq_of_sorted {α : Type} (key : α → ℕ) {l l' : List α}
    (h : l.Pairwise fun a b => key a < key b) (h' : l'.Pairwise fun a b => key a < key b)
    (hmem : ∀ a, a ∈ l ↔ a ∈ l') : l = l' := by
  have : Std.Irrefl fun a b => key a < key b := ⟨fun a => lt_irrefl (key a)⟩
  have : Std.Antisymm fun a b => key a < key b := ⟨fun a b hab hba => absurd hba hab.asymm⟩
  exact h.eq_of_mem_iff h' hmem

/-- What a worker has claimed is what the job has. -/
theorem roster_claimed (hinv : Inv env w) (htaken : j ∈ w.workers) :
    Roster j [] (claimed w j) w := by
  refine ⟨fun f => ?_, sorted_claimed hinv j⟩
  rw [List.nil_append, List.mem_map]
  constructor
  · rintro ⟨t, ht, rfl⟩
    obtain ⟨hjob, v, hv, -, rfl⟩ := mem_claimed.mp ht
    exact ⟨v, hv, hjob, rfl⟩
  · rintro ⟨v, hv, hjob, rfl⟩
    have hcommitted := hinv.target_committed_of_worker hv (hjob.symm ▸ htaken)
    exact ⟨v.row, mem_claimed.mpr ⟨hjob, v, hv, hcommitted, rfl⟩, rfl⟩

/-- The targets of a job are the same whoever lists them. -/
theorem Roster.map_claimed (h : Roster j done rest w) (hinv : Inv env w) (htaken : j ∈ w.workers) :
    (claimed w j).map TargetRow.toTargetFixed = (done ++ rest).map TargetRow.toTargetFixed := by
  refine eq_of_sorted TargetFixed.id (List.pairwise_map.mpr (sorted_claimed hinv j))
    (List.pairwise_map.mpr h.sorted) fun f => ?_
  rw [h.rows]
  exact (roster_claimed hinv htaken).rows f

/-- The courses of all targets are those of their rows. -/
theorem Roster.courses (h : Roster j done [] w) (hinv : Inv env w) (htaken : j ∈ w.workers)
    {courses : List (List JobUpdate)}
    (htold : List.Forall₂ (fun t course => HasRow j t (fun row => Course env j e row course) w)
      done courses) : List.Forall₂ (Course env j e) (claimed w j) courses := by
  have hmap := h.map_claimed hinv htaken
  rw [List.append_nil] at hmap
  have hfixed : List.Forall₂ (fun f course => ∃ v ∈ w.targets, v.row.jobId = j ∧
      v.row.toTargetFixed = f ∧ Course env j e v.row course)
      ((claimed w j).map TargetRow.toTargetFixed) courses := by
    rw [hmap, List.forall₂_map_left_iff]
    exact htold
  rw [List.forall₂_map_left_iff] at hfixed
  have hmem := (List.forall₂_and_left (claimed w j) courses).mpr ⟨fun _ => id, hfixed⟩
  refine hmem.imp fun t course hboth => ?_
  obtain ⟨ht, v, hv, -, hfixed, hcourse⟩ := hboth
  obtain ⟨-, v', hv', -, rfl⟩ := mem_claimed.mp ht
  rwa [hinv.eq_of_targetId hv hv' (congrArg TargetFixed.id hfixed)] at hcourse

/-! ## Scripts can be completed -/

/-- What is told of the next target when a worker comes to its end in the middle. -/
def Partial (env : Deployment) (j e : Uuid) (rest : List TargetRow) (said : List JobUpdate) :
    Prop :=
  said = [] ∨ ∃ t more provider n called, rest = t :: more ∧
    env.fromStr t.provider = .ok provider ∧ Trying j e provider n called said

/-- A target can always be refused. -/
theorem exists_course (env : Deployment) (j e : Uuid) (t : TargetRow) :
    ∃ row course, row.toTargetFixed = t.toTargetFixed ∧ Course env j e row course :=
  ⟨{ t with status := "failed", attempt := 0, error := some "" }, _, rfl,
    .refused ⟨0, rfl⟩ rfl rfl rfl⟩

/-- A target that is called can fail next. -/
theorem Trying.exists_course (h : Trying j e provider n called said)
    (hprovider : env.fromStr t.provider = .ok provider) :
    ∃ row course, row.toTargetFixed = t.toTargetFixed ∧ Course env j e row course ∧
      said <+: course := by
  cases called with
  | true =>
      exact ⟨{ t with status := "failed", attempt := n, error := some "" }, _, rfl,
        .failed hprovider h ⟨0, rfl⟩ rfl rfl rfl, List.prefix_append _ _⟩
  | false =>
      refine ⟨{ t with status := "failed", attempt := n + 1, error := some "" }, _, rfl,
        .failed hprovider (h.call ⟨0, rfl⟩) ⟨0, rfl⟩ rfl rfl rfl, ?_⟩
      rw [List.append_assoc]
      exact List.prefix_append _ _

theorem exists_courses (env : Deployment) (j e : Uuid) (ts : List TargetRow) :
    ∃ rows courses, rows.map TargetRow.toTargetFixed = ts.map TargetRow.toTargetFixed ∧
      List.Forall₂ (Course env j e) rows courses := by
  induction ts with
  | nil => exact ⟨[], [], rfl, .nil⟩
  | cons t ts ih =>
      obtain ⟨row, course, hrow, hcourse⟩ := exists_course env j e t
      obtain ⟨rows, courses, hrows, hcourses⟩ := ih
      exact ⟨row :: rows, course :: courses, congrArg₂ List.cons hrow hrows, .cons hcourse hcourses⟩

theorem Partial.exists_courses (h : Partial env j e rest said) :
    ∃ rows courses, rows.map TargetRow.toTargetFixed = rest.map TargetRow.toTargetFixed ∧
      List.Forall₂ (Course env j e) rows courses ∧ said <+: courses.flatten := by
  rcases h with rfl | ⟨t, more, provider, n, called, rfl, hprovider, htrying⟩
  · obtain ⟨rows, courses, hrows, hcourses⟩ := Service.exists_courses env j e rest
    exact ⟨rows, courses, hrows, hcourses, List.nil_prefix⟩
  · obtain ⟨row, course, hrow, hcourse, hsaid⟩ := htrying.exists_course hprovider
    obtain ⟨rows, courses, hrows, hcourses⟩ := Service.exists_courses env j e more
    exact ⟨row :: rows, course :: courses, congrArg₂ List.cons hrow hrows, .cons hcourse hcourses,
      hsaid.trans (List.prefix_append _ _)⟩

/-- What is told of a job with these targets is the beginning of a script. -/
def Beginning (env : Deployment) (j e : Uuid) (ts : List TargetFixed) (updates : List JobUpdate) :
    Prop :=
  ∃ rows status all, rows.map TargetRow.toTargetFixed = ts ∧ Script env j e rows status all ∧
    updates <+: all

/-- However far a worker has come, it can go on to the end. -/
theorem Narrated.isBeginning (h : Narrated env j e done said rest w)
    (hsaid : Partial env j e rest said) :
    Beginning env j e ((done ++ rest).map TargetRow.toTargetFixed) (w.channel j) := by
  obtain ⟨first, courses, hfirst, hcourses, hchannel⟩ := h.told
  have hdone : ∃ rows, rows.map TargetRow.toTargetFixed = done.map TargetRow.toTargetFixed ∧
      List.Forall₂ (Course env j e) rows courses := by
    clear hchannel h hsaid
    induction hcourses with
    | nil => exact ⟨[], rfl, .nil⟩
    | cons hrow _ ih =>
        obtain ⟨v, -, -, hfixed, hcourse⟩ := hrow
        obtain ⟨rows, hrows, hcourses⟩ := ih
        exact ⟨v.row :: rows, congrArg₂ List.cons hfixed hrows, .cons hcourse hcourses⟩
  obtain ⟨rows, hrows, hcourses⟩ := hdone
  obtain ⟨rows', courses', hrows', hcourses', hgrown⟩ := hsaid.exists_courses
  refine ⟨rows ++ rows', .failed, _, ?_, ⟨first, courses ++ courses', _, hfirst,
    List.rel_append hcourses hcourses', ⟨0, rfl⟩, rfl⟩, ?_⟩
  · rw [List.map_append, List.map_append, hrows, hrows']
  · obtain ⟨more, hmore⟩ := hgrown
    rw [hchannel, List.flatten_append, ← hmore, List.append_assoc, List.append_assoc]
    refine List.cons_prefix_cons.mpr ⟨rfl, ?_⟩
    exact (List.prefix_append_right_inj _).mpr (List.prefix_append _ _)

end Service
