/-
# The sessions of the OAuth flow

What is known of the stored sessions from the history of a run.

* `Moves` is what an executed statement does to the sessions.
* Under fresh draws and without collisions of the hash, two sessions are never stored under
  one hash (`thread_eq_of_insertions`).
* `SessionInv` is the invariant: a stored session comes from a call of `start`, a callback
  that has deleted a session holds its row until the end of its transaction, and the row of
  a consumed session is gone for good.
-/
import EvglApi.Connecting
import EvglApi.CrossPostKeeps

open Concurrency

namespace Service

variable {env : Deployment} {h h₁ h₂ : List (Entry Stmt Role Draw)}
  {e e' : Entry Stmt Role Draw} {a : Act Stmt Draw} {w w' : World}
  {p : Pool Stmt Role Outcome World} {c c' i n : ℕ} {stateHash : String} {session : OAuthSession}
  {x x₁ x₂ x₃ : Draw}

/-! ## The statements on sessions -/

/-- The session `s` is stored. -/
def storing (n : ℕ) (s : SessionRow) (x : Draw) : Act Stmt Draw :=
  ⟨.query (.insertOauthSession n s.stateHash s.userId s.provider s.pkceVerifier s.usesPkce), x,
    .ok ()⟩

/-- The act may change the sessions. -/
def changesSessions : Act Stmt Draw → Bool
  | ⟨.query (.insertOauthSession ..), _, .ok ()⟩ => true
  | ⟨.query (.deleteOauthSession ..), _, .ok (some _)⟩ => true
  | ⟨.query (.commit _), _, .ok ()⟩ => true
  | ⟨.rollback _, _, _⟩ => true
  | _ => false

/-- What an executed statement does to the sessions. -/
inductive Moves : Act Stmt Draw → List SessionRow → List SessionRow → Prop
  | stored {rows} (n : ℕ) (s : SessionRow) (x : Draw)
      (hfree : ∀ s' ∈ rows, s'.stateHash ≠ s.stateHash)
      (hexpires : s.expiresAt = x.now + tenMinutes) :
      Moves (storing n s x) rows (rows ++ [s])
  | deleted {rows} (n : ℕ) (s : SessionRow) (x : Draw) (hmem : s ∈ rows)
      (hexpires : s.expiresAt > x.now) (hfree : s.deletedBy = none) :
      Moves (deletion n s.stateHash x s.toOAuthSession) rows (rows.map fun s' =>
        if s'.stateHash = s.stateHash then { s' with deletedBy := some n } else s')
  | committed {rows} (n : ℕ) (x : Draw) :
      Moves (committing n x) rows (rows.filter (·.deletedBy ≠ some n))
  | rolledBack {rows} (n : ℕ) (x : Draw) :
      Moves ⟨.rollback n, x, ()⟩ rows (rows.map fun s =>
        if s.deletedBy = some n then { s with deletedBy := none } else s)
  | kept {rows} (a : Act Stmt Draw) (ha : changesSessions a = false) : Moves a rows rows

/-- What a query does to the sessions. -/
theorem moves_query {β : Type} {k : Query β} {b : Except DbError β}
    (hexec : k.exec x w = some (b, w')) : Moves ⟨.query k, x, b⟩ w.sessions w'.sessions := by
  cases k with
  | commit n =>
      obtain ⟨rfl, rfl⟩ := Prod.mk.inj (Option.some.inj hexec)
      exact .committed n x
  | insertOauthSession n stateHash user provider verifier usesPkce =>
      obtain ⟨e, rfl, rfl⟩ | ⟨rfl, rfl, hfree⟩ := insertOauthSession_cases hexec
      · exact .kept _ rfl
      · exact .stored n _ x hfree rfl
  | deleteOauthSession n stateHash =>
      obtain ⟨rfl, rfl⟩ | ⟨s, hmem, rfl, hexpires, hfree, rfl, rfl⟩ := deleteOauthSession_cases hexec
      · exact .kept _ rfl
      · exact .deleted n s x hmem hexpires hfree
  | _ =>
      rw [(Query.exec_frame hexec).sessions (by simp)]
      exact .kept _ rfl

/-- What a statement does to them. -/
theorem moves_stmt {β : Type} {st : Stmt β} {b : β} (hexec : st.exec x w = some (b, w')) :
    Moves ⟨st, x, b⟩ w.sessions w'.sessions := by
  cases st with
  | query k =>
      rcases Stmt.exec_query hexec with ⟨text, -, rfl, rfl⟩ | ⟨-, hexec⟩
      · refine .kept _ ?_
        cases k with
        | _ => rfl
      · exact moves_query hexec
  | rollback n =>
      obtain ⟨rfl, rfl⟩ := Prod.mk.inj (Option.some.inj hexec)
      exact .rolledBack n x
  | _ =>
      rw [(Stmt.exec_frame hexec).sessions (by simp)]
      exact .kept _ rfl

/-- The transaction, the hash and the session of a deletion. -/
def deletionOf : Act Stmt Draw → Option (ℕ × String × OAuthSession)
  | ⟨.query (.deleteOauthSession n stateHash), _, .ok (some session)⟩ =>
      some (n, stateHash, session)
  | _ => none

/-- The transaction of a commit. -/
def commitOf : Act Stmt Draw → Option ℕ
  | ⟨.query (.commit n), _, .ok ()⟩ => some n
  | _ => none

/-- What a deletion has found and done. -/
theorem Moves.of_deletion {rows rows' : List SessionRow} (hmoves : Moves a rows rows')
    (ha : a = deletion n stateHash x session) :
    ∃ s ∈ rows, s.stateHash = stateHash ∧ s.toOAuthSession = session ∧ x.now < s.expiresAt ∧
      s.deletedBy = none ∧ { s with deletedBy := some n } ∈ rows' := by
  have hof : deletionOf a = some (n, stateHash, session) := congrArg deletionOf ha
  cases hmoves with
  | stored m s y hfree hexpires => cases hof
  | deleted m s y hmem hexpires hfree =>
      obtain ⟨rfl, hrest⟩ := Prod.mk.inj (Option.some.inj hof)
      obtain ⟨hhash, hsession⟩ := Prod.mk.inj hrest
      obtain rfl : y = x := congrArg (fun a : Act Stmt Draw => a.input) ha
      exact ⟨s, hmem, hhash, hsession, hexpires, hfree, List.mem_map.mpr ⟨s, hmem, if_pos rfl⟩⟩
  | committed m y => cases hof
  | rolledBack m y => cases hof
  | kept a hkept =>
      rw [ha] at hkept
      cases hkept

/-- A commit removes the rows that the transaction has deleted. -/
theorem Moves.of_committing {rows rows' : List SessionRow} (hmoves : Moves a rows rows')
    (ha : a = committing n x) : rows' = rows.filter (·.deletedBy ≠ some n) := by
  have hof : commitOf a = some n := congrArg commitOf ha
  cases hmoves with
  | stored m s y hfree hexpires => cases hof
  | deleted m s y hmem hexpires hfree => cases hof
  | committed m y =>
      obtain rfl := Option.some.inj hof
      rfl
  | rolledBack m y => cases hof
  | kept a hkept =>
      rw [ha] at hkept
      cases hkept

/-- A session comes from an old one with the same data, or is stored now. -/
theorem Moves.exists_of_mem {rows rows' : List SessionRow} (hmoves : Moves a rows rows')
    {s : SessionRow} (hs : s ∈ rows') :
    (∃ s' ∈ rows, s.toOAuthSession = s'.toOAuthSession ∧ s.stateHash = s'.stateHash ∧
      s.expiresAt = s'.expiresAt) ∨ ∃ n x, a = storing n s x ∧ s.expiresAt = x.now + tenMinutes := by
  have hold : ∀ {s : SessionRow}, s ∈ rows → ∃ s' ∈ rows, s.toOAuthSession = s'.toOAuthSession ∧
      s.stateHash = s'.stateHash ∧ s.expiresAt = s'.expiresAt := fun hs => ⟨_, hs, rfl, rfl, rfl⟩
  cases hmoves with
  | stored n s' x hfree hexpires =>
      rcases List.mem_append.mp hs with hs | hs
      · exact Or.inl (hold hs)
      · obtain rfl := List.mem_singleton.mp hs
        exact Or.inr ⟨n, x, rfl, hexpires⟩
  | deleted n s' x hmem hexpires hfree =>
      obtain ⟨u, hu, rfl⟩ := List.mem_map.mp hs
      refine Or.inl ⟨u, hu, ?_⟩
      split
      · exact ⟨rfl, rfl, rfl⟩
      · exact ⟨rfl, rfl, rfl⟩
  | committed n x => exact Or.inl (hold (List.mem_of_mem_filter hs))
  | rolledBack n x =>
      obtain ⟨u, hu, rfl⟩ := List.mem_map.mp hs
      refine Or.inl ⟨u, hu, ?_⟩
      split
      · exact ⟨rfl, rfl, rfl⟩
      · exact ⟨rfl, rfl, rfl⟩
  | kept a ha => exact Or.inl (hold hs)

/-! ## Fresh draws -/

/-- A text that a call of `start` has drawn. -/
def startText (e : Entry Stmt Role Draw) : Option String :=
  match e.role, e.toAct with
  | .request _ (.start ..), ⟨.randomUrlsafe _, _, text⟩ => some text
  | _, _ => none

/-- The state that a callback presents. -/
def presentedState (e : Entry Stmt Role Draw) : Option String :=
  match e.role with
  | .request _ (.callback _ query) => some query.state
  | _ => none

/-- The state tokens and verifiers that calls of `start` have drawn are distinct. -/
def FreshDraws (h : List (Entry Stmt Role Draw)) : Prop := (h.filterMap startText).Nodup

/-- The drawn texts and presented states of a run. -/
def hashedTexts (h : List (Entry Stmt Role Draw)) : List String :=
  h.filterMap startText ++ h.filterMap presentedState

/-- The hash does not collide on the texts of the run. -/
def NoCollision (env : Deployment) (h : List (Entry Stmt Role Draw)) : Prop :=
  ∀ s ∈ hashedTexts h, ∀ s' ∈ hashedTexts h, hashState env s = hashState env s' → s = s'

instance : Decidable (FreshDraws h) := inferInstanceAs (Decidable (List.Nodup _))

instance : Decidable (NoCollision env h) := inferInstanceAs (Decidable (∀ s ∈ _, _))

theorem FreshDraws.of_append (hfresh : FreshDraws (h ++ h₂)) : FreshDraws h := by
  rw [FreshDraws, List.filterMap_append] at hfresh
  exact hfresh.of_append_left

theorem hashedTexts_subset (h h₂ : List (Entry Stmt Role Draw)) :
    hashedTexts h ⊆ hashedTexts (h ++ h₂) := by
  intro s hs
  rw [hashedTexts, List.filterMap_append, List.filterMap_append]
  rcases List.mem_append.mp hs with hs | hs
  · exact List.mem_append_left _ (List.mem_append_left _ hs)
  · exact List.mem_append_right _ (List.mem_append_left _ hs)

theorem NoCollision.of_append (hsha : NoCollision env (h ++ h₂)) : NoCollision env h :=
  fun s hs s' hs' => hsha s (hashedTexts_subset h h₂ hs) s' (hashedTexts_subset h h₂ hs')

/-- An element that appears once among the values appears once in the list. -/
theorem eq_of_nodup_filterMap {α β : Type*} {f : α → Option β} {l : List α} {a a' : α} {b : β}
    (hnodup : (l.filterMap f).Nodup) (ha : a ∈ l) (ha' : a' ∈ l) (hb : f a = some b)
    (hb' : f a' = some b) : a = a' := by
  induction l with
  | nil => cases ha
  | cons c l ih =>
      have hmem : ∀ {d}, d ∈ l → f d = some b → b ∈ l.filterMap f :=
        fun hd hfd => List.mem_filterMap.mpr ⟨_, hd, hfd⟩
      rcases List.mem_cons.mp ha with rfl | hl
      · rcases List.mem_cons.mp ha' with rfl | hl'
        · rfl
        · rw [List.filterMap_cons_some hb, List.nodup_cons] at hnodup
          exact absurd (hmem hl' hb') hnodup.1
      · rcases List.mem_cons.mp ha' with rfl | hl'
        · rw [List.filterMap_cons_some hb', List.nodup_cons] at hnodup
          exact absurd (hmem hl hb) hnodup.1
        · cases hc : f c with
          | none =>
              rw [List.filterMap_cons_none hc] at hnodup
              exact ih hnodup hl hl'
          | some d =>
              rw [List.filterMap_cons_some hc, List.nodup_cons] at hnodup
              exact ih hnodup.2 hl hl'

/-! ## Calls of `start` -/

/-- What a call of `start` does. -/
def Flow.starting (env : Deployment) (f : Flow) (n : ℕ) (x₁ x₂ x₃ : Draw) :
    List (Act Stmt Draw) :=
  f.draws x₁ x₂ ++ [⟨.query (f.insertion env n), x₃, .ok ()⟩]

/-- The program at position `i` has stored a session of the flow, which expires then. -/
def Started (env : Deployment) (h : List (Entry Stmt Role Draw)) (i : ℕ) (f : Flow)
    (expiresAt : Instant) : Prop :=
  ∃ n q x₁ x₂ x₃, f.AskedBy env q ∧ f.starting env n x₁ x₂ x₃ <+: own i h ∧
    (∀ e ∈ h, e.thread = i → e.role = .request n q) ∧ expiresAt = x₃.now + tenMinutes

/-- Where an act of a program stands in the history. -/
theorem exists_split_of_mem (he : e ∈ h) : ∃ h₁ h₂, h = h₁ ++ e :: h₂ := List.append_of_mem he

/-- A session that is stored comes from a call of `start`. -/
theorem started_of_storing (hp : Conducted (service env) (connecting env) h p) {s : SessionRow}
    (heq : h = h₁ ++ e :: h₂) (ha : e.toAct = storing n s x) :
    ∃ f : Flow, Started env (h₁ ++ [e]) e.thread f (x.now + tenMinutes) ∧
      hashState env f.token = s.stateHash ∧ f.session env = s.toOAuthSession ∧
      ∃ x₁ x₂, own e.thread h₁ = f.draws x₁ x₂ := by
  have hallowed := hp.allowed h₁ e h₂ heq
  have hrole : ∀ e' ∈ h₁ ++ [e], e'.thread = e.thread → e'.role = e.role := by
    intro e' he' hthread
    refine hp.role_eq ?_ ?_ hthread
    · rw [heq, List.append_cons]
      exact List.mem_append_left _ he'
    · rw [heq]
      exact List.mem_append_right _ List.mem_cons_self
  have hown : own e.thread (h₁ ++ [e]) = own e.thread h₁ ++ [e.toAct] := own_concat_of_eq rfl
  obtain ⟨act, i, r⟩ := e
  obtain rfl : act = storing n s x := ha
  cases r with
  | worker j => exact hallowed.elim
  | request m q =>
      -- only a call of `start` stores a session, after its two draws
      obtain ⟨f, hasked, ⟨x₁, x₂, hdraws⟩, hinsertion⟩ := hallowed
      obtain ⟨rfl, hhash, huser, hprovider, hverifier, huses⟩ :=
        Query.insertOauthSession.inj hinsertion
      refine ⟨f, ⟨n, q, x₁, x₂, x, hasked, ?_, hrole, rfl⟩, hhash.symm, ?_, x₁, x₂, hdraws⟩
      · show _ <+: own i _
        rw [hown]
        show _ <+: own i h₁ ++ _
        rw [show own i h₁ = f.draws x₁ x₂ from hdraws, Flow.starting, ← hinsertion]
        exact List.prefix_refl _
      · rw [Flow.session, ← huser, ← hprovider, ← hverifier, ← huses]

/-- The state token of a call of `start` is one of the texts that calls have drawn. -/
theorem mem_of_draws {f : Flow} {q : Request} (hasked : f.AskedBy env q)
    (hrole : ∀ e ∈ h, e.thread = i → e.role = .request n q)
    (hdraws : f.draws x₁ x₂ <+: own i h) :
    ∃ e ∈ h, e.thread = i ∧ startText e = some f.token := by
  have hmem : (⟨.randomUrlsafe 32, x₁, f.token⟩ : Act Stmt Draw) ∈ own i h :=
    hdraws.subset List.mem_cons_self
  obtain ⟨e, he, hthread, hact⟩ := mem_own.mp hmem
  refine ⟨e, he, hthread, ?_⟩
  obtain ⟨name, adapter, rfl, -⟩ := hasked
  rw [startText, hrole e he hthread, hact]

theorem Started.exists_token {f : Flow} {t : Instant} (hstarted : Started env h i f t) :
    ∃ e ∈ h, e.thread = i ∧ startText e = some f.token := by
  obtain ⟨n, q, x₁, x₂, x₃, hasked, hstarts, hrole, -⟩ := hstarted
  exact mem_of_draws hasked hrole ((List.prefix_append _ _).trans hstarts)

theorem Started.mono {f : Flow} {t : Instant} (hp : Conducted (service env) (connecting env) h₂ p)
    (hstarts : h₁ <+: h) (hstarts' : h <+: h₂) (hstarted : Started env h₁ i f t) :
    Started env h i f t := by
  obtain ⟨n, q, x₁, x₂, x₃, hasked, hown, hrole, ht⟩ := hstarted
  refine ⟨n, q, x₁, x₂, x₃, hasked, hown.trans (own_mono hstarts), fun e he hthread => ?_, ht⟩
  -- the first act of the call is in the shorter history
  have hfirst : (⟨.randomUrlsafe 32, x₁, f.token⟩ : Act Stmt Draw) ∈ own i h₁ :=
    hown.subset List.mem_cons_self
  obtain ⟨e', he', hthread', -⟩ := mem_own.mp hfirst
  rw [← hrole e' he' hthread']
  exact hp.role_eq (hstarts'.subset he) (hstarts'.subset (hstarts.subset he'))
    (hthread.trans hthread'.symm)

/-- Calls of `start` with the same token are one call. -/
theorem Started.thread_eq {f f' : Flow} {t t' : Instant} (hfresh : FreshDraws h)
    (hstarted : Started env h i f t) (hstarted' : Started env h c f' t')
    (htoken : f.token = f'.token) : i = c := by
  obtain ⟨e, he, rfl, htext⟩ := hstarted.exists_token
  obtain ⟨e', he', rfl, htext'⟩ := hstarted'.exists_token
  rw [htoken] at htext
  rw [eq_of_nodup_filterMap hfresh he he' htext htext']

theorem mem_hashedTexts_of_startText {s : String} (he : e ∈ h) (hs : startText e = some s) :
    s ∈ hashedTexts h := List.mem_append_left _ (List.mem_filterMap.mpr ⟨e, he, hs⟩)

/-- Two sessions are never stored under the same hash. -/
theorem not_storing_again (hp : Conducted (service env) (connecting env) (h ++ [e]) p)
    (hfresh : FreshDraws (h ++ [e])) (hsha : NoCollision env (h ++ [e])) {s s' : SessionRow}
    {m : ℕ} {y : Draw} (he' : e' ∈ h) (ha' : e'.toAct = storing m s' y)
    (ha : e.toAct = storing n s x) : s'.stateHash ≠ s.stateHash := by
  intro hhash
  obtain ⟨h₁, h₂, rfl⟩ := exists_split_of_mem he'
  have hfirst : h₁ ++ e' :: h₂ ++ [e] = h₁ ++ e' :: (h₂ ++ [e]) := by
    rw [List.append_assoc, List.cons_append]
  have hlast : h₁ ++ e' :: h₂ ++ [e] = (h₁ ++ e' :: h₂) ++ e :: [] := rfl
  obtain ⟨f', hstarted', hhash', -, -⟩ := started_of_storing hp hfirst ha'
  obtain ⟨f, hstarted, hhash₁, -, x₁, x₂, hdraws⟩ := started_of_storing hp hlast ha
  have hstarts : h₁ ++ [e'] <+: h₁ ++ e' :: h₂ ++ [e] := ⟨h₂ ++ [e], by simp⟩
  have hstarted' := hstarted'.mono hp hstarts (List.prefix_refl _)
  obtain ⟨d, hd, -, hdtext⟩ := hstarted.exists_token
  obtain ⟨d', hd', -, hdtext'⟩ := hstarted'.exists_token
  have htoken : f.token = f'.token := hsha _ (mem_hashedTexts_of_startText hd hdtext) _
    (mem_hashedTexts_of_startText hd' hdtext') (by rw [hhash₁, hhash', hhash])
  have hthread : e.thread = e'.thread := hstarted.thread_eq hfresh hstarted' htoken
  -- what the call has done when it stores its session are two draws
  have hmem : e'.toAct ∈ own e.thread (h₁ ++ e' :: h₂) :=
    mem_own.mpr ⟨e', he', hthread.symm, rfl⟩
  rw [hdraws, ha'] at hmem
  have hchanges : ∀ a ∈ f.draws x₁ x₂, changesSessions a = false := by
    intro a ha
    rcases List.mem_cons.mp ha with rfl | ha
    · rfl
    · rw [List.mem_singleton.mp ha]
      rfl
  exact Bool.noConfusion (hchanges _ hmem)

/-! ## Callbacks -/

/-- The session of the row has been stored. -/
def StoredIn (h : List (Entry Stmt Role Draw)) (s : SessionRow) : Prop :=
  ∃ e ∈ h, ∃ n x, e.toAct = storing n s x ∧ s.expiresAt = x.now + tenMinutes

/-- The program at position `c` has deleted a session in its open transaction `n`. -/
def Holds (h : List (Entry Stmt Role Draw)) (c n : ℕ) (stateHash : String) : Prop :=
  ∃ session x₁ x₂, own c h = [beginning n x₁, deletion n stateHash x₂ session]

/-- The program at position `c` has consumed a session. -/
def HasConsumed (h : List (Entry Stmt Role Draw)) (c : ℕ) (stateHash : String) : Prop :=
  ∃ n session x₁ x₂ x₃, consuming n stateHash session x₁ x₂ x₃ <+: own c h

/-- The session is taken by the program at position `c`. -/
def Claims (h : List (Entry Stmt Role Draw)) (c : ℕ) (stateHash : String) : Prop :=
  (∃ n, Holds h c n stateHash) ∨ HasConsumed h c stateHash

theorem StoredIn.congr {s s' : SessionRow} (hstored : StoredIn h s)
    (hsession : s'.toOAuthSession = s.toOAuthSession) (hhash : s'.stateHash = s.stateHash)
    (hexpires : s'.expiresAt = s.expiresAt) : StoredIn h s' := by
  obtain ⟨e, he, n, x, ha, ht⟩ := hstored
  refine ⟨e, he, n, x, ?_, hexpires.trans ht⟩
  rw [ha, storing, storing, hsession, hhash]

theorem StoredIn.concat {s : SessionRow} (hstored : StoredIn h s) : StoredIn (h ++ [e]) s := by
  obtain ⟨d, hd, hrest⟩ := hstored
  exact ⟨d, List.mem_append_left _ hd, hrest⟩

/-- A row is deleted by the last act of its program, which has only begun before. -/
theorem Holds.cases_concat (hholds : Holds (h ++ [e]) c n stateHash) :
    e.thread ≠ c ∧ Holds h c n stateHash ∨
      e.thread = c ∧ (∃ x, own c h = [beginning n x]) ∧
        ∃ x session, e.toAct = deletion n stateHash x session := by
  obtain ⟨session, x₁, x₂, hown⟩ := hholds
  by_cases hc : e.thread = c
  · rw [own_concat_of_eq hc] at hown
    have heq : own c h ++ [e.toAct] = [beginning n x₁] ++ [deletion n stateHash x₂ session] := hown
    obtain ⟨hbegin, hlast⟩ := List.append_inj' heq rfl
    exact Or.inr ⟨hc, ⟨x₁, hbegin⟩, x₂, session, List.singleton_inj.mp hlast⟩
  · rw [own_concat_of_ne hc] at hown
    exact Or.inl ⟨hc, session, x₁, x₂, hown⟩

/-- A session is consumed when the transaction that holds its row is committed. -/
theorem HasConsumed.cases_concat (hconsumed : HasConsumed (h ++ [e]) c stateHash) :
    HasConsumed h c stateHash ∨
      e.thread = c ∧ ∃ n x, Holds h c n stateHash ∧ e.toAct = committing n x := by
  obtain ⟨n, session, x₁, x₂, x₃, hstarts⟩ := hconsumed
  by_cases hc : e.thread = c
  · rw [own_concat_of_eq hc, List.prefix_concat_iff] at hstarts
    rcases hstarts with heq | hstarts
    · have heq' : own c h ++ [e.toAct] =
          [beginning n x₁, deletion n stateHash x₂ session] ++ [committing n x₃] := heq.symm
      obtain ⟨hholds, hlast⟩ := List.append_inj' heq' rfl
      exact Or.inr ⟨hc, n, x₃, ⟨session, x₁, x₂, hholds⟩, List.singleton_inj.mp hlast⟩
    · exact Or.inl ⟨n, session, x₁, x₂, x₃, hstarts⟩
  · rw [own_concat_of_ne hc] at hstarts
    exact Or.inl ⟨n, session, x₁, x₂, x₃, hstarts⟩

/-- A claim is raised by the deletion of the row. -/
theorem Claims.cases_concat (hclaims : Claims (h ++ [e]) c stateHash) :
    Claims h c stateHash ∨
      e.thread = c ∧ ∃ n x session, e.toAct = deletion n stateHash x session := by
  rcases hclaims with ⟨n, hholds⟩ | hconsumed
  · rcases hholds.cases_concat with ⟨-, hholds⟩ | ⟨hc, -, x, session, ha⟩
    · exact Or.inl (Or.inl ⟨n, hholds⟩)
    · exact Or.inr ⟨hc, n, x, session, ha⟩
  · rcases hconsumed.cases_concat with hconsumed | ⟨-, n, -, hholds, -⟩
    · exact Or.inl (Or.inr hconsumed)
    · exact Or.inl (Or.inl ⟨n, hholds⟩)

/-- A deletion is one of a callback with the number of the transaction, for the state that
the callback presents. -/
theorem callback_of_deletion (hp : Conducted (service env) (connecting env) h p)
    (heq : h = h₁ ++ e :: h₂) (ha : e.toAct = deletion n stateHash x session) :
    ∃ path query y, e.role = .request n (.callback path query) ∧
      stateHash = hashState env query.state ∧ own e.thread h₁ = [beginning n y] := by
  have hallowed := hp.allowed h₁ e h₂ heq
  obtain ⟨act, i, r⟩ := e
  obtain rfl : act = deletion n stateHash x session := ha
  cases r with
  | worker j => exact hallowed.elim
  | request m q =>
      obtain ⟨rfl, path, query, y, rfl, hhash, hown⟩ := hallowed
      exact ⟨path, query, y, rfl, hhash, hown⟩

/-- The transaction of a callback goes by the number of its request. -/
theorem Holds.callback (hp : Conducted (service env) (connecting env) h p)
    (hholds : Holds h c n stateHash) :
    ∃ path query prog, p.threads[c]? = some ⟨.request n (.callback path query), prog⟩ := by
  obtain ⟨session, x₁, x₂, hown⟩ := hholds
  have hmem : deletion n stateHash x₂ session ∈ own c h := by
    rw [hown]
    exact List.mem_cons_of_mem _ (List.mem_singleton_self _)
  obtain ⟨e, he, rfl, ha⟩ := mem_own.mp hmem
  obtain ⟨h₁, h₂, heq⟩ := exists_split_of_mem he
  obtain ⟨path, query, -, hrole, -⟩ := callback_of_deletion hp heq ha
  obtain ⟨prog, hprog⟩ := hp.thread e he
  rw [hrole] at hprog
  exact ⟨path, query, prog, hprog⟩

/-- A transaction is ended by its own request. -/
theorem request_of_ending (hp : Conducted (service env) (connecting env) h p) (he : e ∈ h)
    (ha : e.toAct = committing n x ∨ e.toAct = ⟨.rollback n, x, ()⟩) :
    ∃ q prog, p.threads[e.thread]? = some ⟨.request n q, prog⟩ := by
  obtain ⟨prog, hprog⟩ := hp.thread e he
  obtain ⟨h₁, h₂, heq⟩ := exists_split_of_mem he
  have hallowed := hp.allowed h₁ e h₂ heq
  obtain ⟨act, i, r⟩ := e
  change p.threads[i]? = some ⟨r, prog⟩ at hprog
  rcases ha with ha | ha
  · obtain rfl : act = committing n x := ha
    cases r with
    | worker j => exact hallowed.elim
    | request m q =>
        obtain rfl : n = m := hallowed
        exact ⟨q, prog, hprog⟩
  · obtain rfl : act = ⟨.rollback n, x, ()⟩ := ha
    cases r with
    | worker j => exact hallowed.elim
    | request m q =>
        obtain rfl : n = m := hallowed
        exact ⟨q, prog, hprog⟩

/-- Requests at different positions have different numbers. -/
theorem Reachable.position_eq {q q' : Request} {prog prog' : Prog Stmt Role Outcome Outcome}
    (hreach : Reachable env p) (hi : p.threads[i]? = some ⟨.request n q, prog⟩)
    (hc : p.threads[c]? = some ⟨.request n q', prog'⟩) : i = c := by
  have hok := hreach.poolOk
  by_contra hne
  have htaken := hok.taken _ (List.mem_of_getElem? hi)
  have htaken' := hok.taken _ (List.mem_of_getElem? hc)
  change p.shared.requests[n]? = some q at htaken
  change p.shared.requests[n]? = some q' at htaken'
  obtain rfl := Option.some.inj (htaken.symm.trans htaken')
  exact hok.role_ne hne hi hc rfl

/-! ## The invariant -/

/-- What is known of the stored sessions. -/
structure SessionInv (h : List (Entry Stmt Role Draw)) (rows : List SessionRow) : Prop where
  origin : ∀ s ∈ rows, StoredIn h s
  hashes : (rows.map (·.stateHash)).Nodup
  /-- The row of an open deletion is still there. -/
  held : ∀ c n stateHash, Holds h c n stateHash →
    ∃ s ∈ rows, s.stateHash = stateHash ∧ s.deletedBy = some n
  /-- The row of a consumed session is not. -/
  gone : ∀ c stateHash, HasConsumed h c stateHash → ∀ s ∈ rows, s.stateHash ≠ stateHash
  /-- A session that was deleted had been stored before, and had not expired. -/
  read : ∀ h₁ e h₂ n stateHash x session, h = h₁ ++ e :: h₂ →
    e.toAct = deletion n stateHash x session → ∃ s, StoredIn h₁ s ∧ s.toOAuthSession = session ∧
      s.stateHash = stateHash ∧ x.now < s.expiresAt
  once : ∀ c c' stateHash, Claims h c stateHash → Claims h c' stateHash → c = c'

theorem sessionInv_nil : SessionInv [] [] where
  origin := by simp
  hashes := List.nodup_nil
  held c n stateHash hholds := by
    obtain ⟨session, x₁, x₂, hown⟩ := hholds
    cases hown
  gone c stateHash hconsumed s hs := by cases hs
  read h₁ e h₂ n stateHash x session heq := by simp at heq
  once c c' stateHash hclaims := by
    rcases hclaims with ⟨n, session, x₁, x₂, hown⟩ | ⟨n, session, x₁, x₂, x₃, hstarts⟩
    · cases hown
    · cases List.prefix_nil.mp hstarts

namespace SessionInv

variable {rows rows' : List SessionRow}

/-- Rows with one hash are one row. -/
theorem eq_of_hash (hinv : SessionInv h rows) {s s' : SessionRow} (hs : s ∈ rows) (hs' : s' ∈ rows)
    (hhash : s.stateHash = s'.stateHash) : s = s' :=
  List.inj_on_of_nodup_map hinv.hashes hs hs' hhash

/-- A row that can be deleted is not claimed. -/
theorem not_claims (hinv : SessionInv h rows) {s : SessionRow} (hs : s ∈ rows)
    (hfree : s.deletedBy = none) : ¬ Claims h c s.stateHash := by
  rintro (⟨n, hholds⟩ | hconsumed)
  · obtain ⟨s', hs', hhash, hdeleted⟩ := hinv.held c n _ hholds
    obtain rfl := hinv.eq_of_hash hs' hs hhash
    rw [hfree] at hdeleted
    cases hdeleted
  · exact hinv.gone c _ hconsumed s hs rfl

theorem hashes_of_moves (hinv : SessionInv h rows) (hmoves : Moves a rows rows') :
    (rows'.map (·.stateHash)).Nodup := by
  have hmap : ∀ f : SessionRow → SessionRow, (∀ s, (f s).stateHash = s.stateHash) →
      ((rows.map f).map (·.stateHash)).Nodup := by
    intro f hf
    rw [List.map_map, show (fun s : SessionRow => s.stateHash) ∘ f = fun s => s.stateHash from
      funext hf]
    exact hinv.hashes
  cases hmoves with
  | stored n s x hfree hexpires => exact Keyed.nodup_concat hinv.hashes hfree
  | deleted n s x hmem hexpires hfree => exact hmap _ fun s' => by split <;> rfl
  | committed n x => exact (List.filter_sublist.map _).nodup hinv.hashes
  | rolledBack n x => exact hmap _ fun s' => by split <;> rfl
  | kept a ha => exact hinv.hashes

/-- A row that a callback holds is left alone by the other programs. -/
theorem held_of_moves (hinv : SessionInv h rows) (hmoves : Moves a rows rows')
    (hholds : Holds h c n stateHash)
    (hothers : ∀ x, a ≠ committing n x ∧ a ≠ ⟨.rollback n, x, ()⟩) :
    ∃ s ∈ rows', s.stateHash = stateHash ∧ s.deletedBy = some n := by
  obtain ⟨s, hs, hhash, hdeleted⟩ := hinv.held c n stateHash hholds
  cases hmoves with
  | stored m s' x hfree hexpires => exact ⟨s, List.mem_append_left _ hs, hhash, hdeleted⟩
  | deleted m s' x hmem hexpires hfree =>
      -- a row that is held is not deleted again
      have hne : s.stateHash ≠ s'.stateHash := by
        intro heq
        obtain rfl := hinv.eq_of_hash hs hmem heq
        rw [hfree] at hdeleted
        cases hdeleted
      exact ⟨s, List.mem_map.mpr ⟨s, hs, if_neg hne⟩, hhash, hdeleted⟩
  | committed m x =>
      have hne : s.deletedBy ≠ some m := by
        intro heq
        obtain rfl := Option.some.inj (hdeleted.symm.trans heq)
        exact (hothers x).1 rfl
      exact ⟨s, List.mem_filter.mpr ⟨hs, decide_eq_true hne⟩, hhash, hdeleted⟩
  | rolledBack m x =>
      have hne : s.deletedBy ≠ some m := by
        intro heq
        obtain rfl := Option.some.inj (hdeleted.symm.trans heq)
        exact (hothers x).2 rfl
      exact ⟨s, List.mem_map.mpr ⟨s, hs, if_neg hne⟩, hhash, hdeleted⟩
  | kept a ha => exact ⟨s, hs, hhash, hdeleted⟩

end SessionInv

/-- A consumed session was stored. -/
theorem HasConsumed.exists_stored {rows : List SessionRow} (hinv : SessionInv h rows)
    (hconsumed : HasConsumed h c stateHash) : ∃ s, StoredIn h s ∧ s.stateHash = stateHash := by
  obtain ⟨n, session, x₁, x₂, x₃, hstarts⟩ := hconsumed
  have hmem : deletion n stateHash x₂ session ∈ own c h :=
    hstarts.subset (List.mem_cons_of_mem _ List.mem_cons_self)
  obtain ⟨e, he, -, ha⟩ := mem_own.mp hmem
  obtain ⟨h₁, h₂, rfl⟩ := exists_split_of_mem he
  obtain ⟨s, ⟨d, hd, hrest⟩, -, hhash, -⟩ := hinv.read h₁ e h₂ n stateHash x₂ session rfl ha
  exact ⟨s, ⟨d, List.mem_append_left _ hd, hrest⟩, hhash⟩

/-- The row of a consumed session does not come back. -/
theorem SessionInv.gone_of_moves {rows rows' : List SessionRow} (hinv : SessionInv h rows)
    (hp : Conducted (service env) (connecting env) (h ++ [e]) p) (hfresh : FreshDraws (h ++ [e]))
    (hsha : NoCollision env (h ++ [e])) (hmoves : Moves e.toAct rows rows')
    (hconsumed : HasConsumed h c stateHash) : ∀ s ∈ rows', s.stateHash ≠ stateHash := by
  intro s hs hhash
  rcases hmoves.exists_of_mem hs with ⟨s', hs', -, hhash', -⟩ | ⟨n, x, ha, -⟩
  · exact hinv.gone c stateHash hconsumed s' hs' (hhash'.symm.trans hhash)
  · obtain ⟨s', ⟨e', he', m, y, ha', -⟩, hhash'⟩ := hconsumed.exists_stored hinv
    exact not_storing_again hp hfresh hsha he' ha' ha (hhash'.trans hhash.symm)

/-- The invariant after one more act. -/
theorem SessionInv.concat {rows rows' : List SessionRow} (hinv : SessionInv h rows)
    (hreach : Reachable env p) (hp : Conducted (service env) (connecting env) (h ++ [e]) p)
    (hfresh : FreshDraws (h ++ [e])) (hsha : NoCollision env (h ++ [e]))
    (hmoves : Moves e.toAct rows rows') : SessionInv (h ++ [e]) rows' where
  origin s hs := by
    rcases hmoves.exists_of_mem hs with ⟨s', hs', hsession, hhash, hexpires⟩ | ⟨n, x, ha, ht⟩
    · exact ((hinv.origin s' hs').congr hsession hhash hexpires).concat
    · exact ⟨e, List.mem_append_right _ (List.mem_singleton_self _), n, x, ha, ht⟩
  hashes := hinv.hashes_of_moves hmoves
  held c n stateHash hholds := by
    have hrole := hholds.callback hp
    rcases hholds.cases_concat with ⟨hne, hholds⟩ | ⟨-, -, x, session, ha⟩
    · refine hinv.held_of_moves hmoves hholds fun x => ?_
      -- another request ends its own transaction only
      have hother : ¬ (e.toAct = committing n x ∨ e.toAct = ⟨.rollback n, x, ()⟩) := by
        intro ha
        obtain ⟨q, prog, hq⟩ := request_of_ending hp
          (List.mem_append_right _ (List.mem_singleton_self _)) ha
        obtain ⟨path, query, prog', hc⟩ := hrole
        exact hne (hreach.position_eq hq hc)
      exact not_or.mp hother
    · obtain ⟨s, -, hhash, -, -, -, hmem⟩ := hmoves.of_deletion ha
      exact ⟨_, hmem, hhash, rfl⟩
  gone c stateHash hconsumed := by
    rcases hconsumed.cases_concat with hconsumed | ⟨-, n, x, hholds, ha⟩
    · exact hinv.gone_of_moves hp hfresh hsha hmoves hconsumed
    · -- the commit removes the row that the transaction holds
      obtain ⟨s, hs, hhash, hdeleted⟩ := hinv.held c n stateHash hholds
      intro s' hs' hhash'
      rw [hmoves.of_committing ha] at hs'
      obtain ⟨hs', hne⟩ := List.mem_filter.mp hs'
      obtain rfl := hinv.eq_of_hash hs hs' (hhash.trans hhash'.symm)
      exact of_decide_eq_true hne hdeleted
  read h₁ d h₂ n stateHash x session heq ha := by
    rcases List.eq_nil_or_concat h₂ with rfl | ⟨h₂, e', rfl⟩
    · obtain ⟨rfl, hlast⟩ := List.append_inj' heq rfl
      obtain rfl := List.singleton_inj.mp hlast
      obtain ⟨s, hmem, hhash, hsession, hexpires, -, -⟩ := hmoves.of_deletion ha
      exact ⟨s, hinv.origin s hmem, hsession, hhash, hexpires⟩
    · rw [List.concat_eq_append, ← List.cons_append, ← List.append_assoc] at heq
      exact hinv.read h₁ d h₂ n stateHash x session (List.append_inj' heq rfl).1 ha
  once c c' stateHash hclaims hclaims' := by
    -- a row that is deleted now was not claimed before
    have hnew : ∀ {n x session}, e.toAct = deletion n stateHash x session →
        ∀ c, ¬ Claims h c stateHash := by
      intro n x session ha c
      obtain ⟨s, hmem, rfl, -, -, hfree, -⟩ := hmoves.of_deletion ha
      exact hinv.not_claims hmem hfree
    rcases hclaims.cases_concat with hclaims | ⟨hc, n, x, session, ha⟩
    · rcases hclaims'.cases_concat with hclaims' | ⟨hc', n, x, session, ha⟩
      · exact hinv.once c c' stateHash hclaims hclaims'
      · exact absurd hclaims (hnew ha c)
    · rcases hclaims'.cases_concat with hclaims' | ⟨hc', -⟩
      · exact absurd hclaims' (hnew ha c')
      · exact hc.symm.trans hc'

/-- What is known of a run, its programs and its sessions. -/
def OauthInv (env : Deployment) (h : List (Entry Stmt Role Draw))
    (p : Pool Stmt Role Outcome World) : Prop :=
  (Reachable env p ∧ Conducted (service env) (connecting env) h p) ∧
    (FreshDraws h → NoCollision env h → SessionInv h p.shared.sessions)

theorem recorded_oauthInv (env : Deployment) : Recorded (service env) (OauthInv env) := by
  have hboth : Recorded (service env) fun h p =>
      Reachable env p ∧ Conducted (service env) (connecting env) h p :=
    (recorded_reaches idleService).and (recorded_connecting env)
  refine ⟨fun {h p} c hp => ⟨hboth.arrive c hp.1, hp.2⟩,
    fun {h p i r β st k x b s} hp ht hexec => ?_, fun {h p i r r' child k} x hp ht => ?_⟩
  · have hp' := hboth.step hp.1 ht hexec
    refine ⟨hp', fun hfresh hsha => ?_⟩
    exact (hp.2 hfresh.of_append hsha.of_append).concat hp'.1 hp'.2 hfresh hsha (moves_stmt hexec)
  · refine ⟨hboth.fork x hp.1 ht, fun hfresh hsha => ?_⟩
    cases r' with
    | request m q => exact hp.2 hfresh hsha
    | worker j => exact hp.2 hfresh hsha

theorem oauthInv_of_run {ls : List (Label Draw Request)}
    (hrun : idleService.run (service env) ls = some p) :
    OauthInv env (idleService.history (service env) ls) p :=
  (recorded_oauthInv env).of_run
    ⟨⟨Pool.Reaches.refl _, conducted_nil _⟩, fun _ _ => sessionInv_nil⟩ hrun

end Service
