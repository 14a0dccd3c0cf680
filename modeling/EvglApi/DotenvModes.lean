/-
# The outputs of the dotenv parser

`.just/dotenv.py` prints what it has parsed as a script for a shell or as an env-file, for two
recipes of `.just/env.just`: `env-run` evaluates the script before it executes a command, and
`env-docker-run` hands the env-file to docker.

* `env_run_exports`: the script exports what was parsed, whatever the values are.
* `consumers_agree`: docker reads the same values, or the env-file is refused.

The mode `k8s` is not modelled: what it prints is read by a YAML parser.
-/
import EvglApi.Dotenv
import EvglApi.Fallible
import EvglApi.ShellScript

open PosixShell

namespace Secrets

variable {ε : Type} {unicodeEscape : Text → Except ε Text} {stream : List Text} {line name : Text}
  {pairs : List (Text × Text)} {kept : Text → Bool} {vars : Variables Text Char}

/-! ## The modes -/

/-- Mode `shell`. -/
def shell (pairs : List (Text × Text)) : Text := exportLines pairs

/-- A value that an env-file cannot hold. -/
def Multiline (value : Text) : Prop := '\n' ∈ value ∨ '\r' ∈ value

instance : DecidablePred Multiline := fun _ => inferInstanceAs (Decidable (_ ∨ _))

/-- The message with which mode `envfile` refuses the values of the names. -/
def envfileMessage (bad : List Text) : Text :=
  "dotenv.py: ".toList ++ ", ".toList.intercalate bad ++
    (" contain newlines, which docker --env-file cannot\n" ++
      "represent — it would keep the first line and drop the rest.\n" ++
      "Use `just env-run <env> <cmd>` or `just env-k8s-secret <env>`,\n" ++
      "or store the value single-line (e.g. base64).").toList

/-- Mode `envfile`. -/
def envfile (pairs : List (Text × Text)) : Except Text Text :=
  let bad := (pairs.filter fun p => Multiline p.2).map Prod.fst
  if bad ≠ [] then .error (envfileMessage bad)
  else .ok (pairs.flatMap fun (k, v) => entryLine k v ++ ['\n'])

/-! ## The recipes -/

/-- `eval "$(… | dotenv.py shell)"` in `env-run`.  A text that the parser stops at leaves an empty
output, and the status of the pipeline is lost. -/
def evalSecrets (unicodeEscape : Text → Except ε Text) (kept : Text → Bool)
    (vars : Variables Text Char) (stream : List Text) : Option (Variables Text Char) :=
  eval kept vars (substitute '\n' (match parse unicodeEscape stream with
    | .ok pairs => shell pairs
    | .error _ => []))

/-- The env-file in `env-docker-run`: `envdata=$(… | dotenv.py envfile)` and
`printf '%s\n' "$envdata"`. -/
def envData (text : Text) : Text := substitute '\n' text ++ ['\n']

/-- How docker takes the lines of an env-file: a variable with its value as it is, without quotes
or escapes.  Nothing is said about other lines, except for empty ones. -/
structure ReadsEntries (readLine : Text → Option (Text × Text)) : Prop where
  entry : ∀ {name value : Text}, AcceptedName name → ¬ Multiline value →
    readLine (entryLine name value) = some (name, value)
  empty : readLine [] = none

/-- What is read from an env-file, line by line. -/
def readEnvFile (readLine : Text → Option (Text × Text)) (text : Text) : List (Text × Text) :=
  (text.splitOn '\n').filterMap readLine

/-! ## The names -/

/-- A name that the parser finds is one that can be handed to a command. -/
theorem acceptedName_of_matchEntry {value : Text} (h : matchEntry line = some (name, value))
    (hsops : ¬ "sops_".toList <+: name) : AcceptedName name := by
  unfold matchEntry at h
  dsimp only at h
  split at h
  · split at h
    · next hstart =>
        obtain ⟨rfl, -⟩ := Prod.mk.inj (Option.some.inj h)
        obtain ⟨c, hhead, hdigit⟩ := (Option.any_eq_true _ _).mp hstart.1
        refine ⟨?_, fun c hc => List.mem_takeWhile_imp hc, fun d hd => ?_, hsops⟩
        · intro hnil
          rw [hnil] at hhead
          cases hhead
        · obtain rfl := Option.some.inj (hhead.symm.trans hd)
          exact of_decide_eq_true hdigit
    · cases h
  · cases h

theorem acceptedName_of_parseLine {p : Text × Text}
    (h : parseLine unicodeEscape line = .ok (some p)) : AcceptedName p.1 := by
  unfold parseLine at h
  dsimp only at h
  split at h
  · cases h
  · generalize hentry : matchEntry _ = entry at h
    cases entry with
    | none => cases h
    | some found =>
        obtain ⟨k, v⟩ := found
        have hname : ¬ "sops_".toList <+: k → AcceptedName k := acceptedName_of_matchEntry hentry
        change (if "sops_".toList <+: k then _ else _) = _ at h
        split at h
        · cases h
        · next hsops =>
            split at h
            · obtain ⟨v', -, h⟩ := Fallible.bind_eq_ok.mp h
              obtain rfl := Option.some.inj (Except.ok.inj h)
              exact hname hsops
            · split at h
              · obtain rfl := Option.some.inj (Except.ok.inj h)
                exact hname hsops
              · obtain rfl := Option.some.inj (Except.ok.inj h)
                exact hname hsops

theorem acceptedName_of_parse (h : parse unicodeEscape stream = .ok pairs) :
    ∀ p ∈ pairs, AcceptedName p.1 := by
  induction stream generalizing pairs with
  | nil =>
      obtain rfl := Except.ok.inj h
      exact fun p hp => absurd hp List.not_mem_nil
  | cons line stream ih =>
      obtain ⟨entry, hline, h⟩ := Fallible.bind_eq_ok.mp h
      obtain ⟨out, hout, h⟩ := Fallible.bind_eq_ok.mp h
      obtain rfl := Except.ok.inj h
      intro p hp
      rcases List.mem_append.mp hp with hp | hp
      · obtain rfl := Option.mem_toList.mp hp
        exact acceptedName_of_parseLine hline
      · exact ih hout p hp

theorem isAlphanum_of_isNameChar {c : Char} (h : isNameChar c = true) :
    (c.isAlphanum || c = '_') = true := by
  rw [isNameChar, decide_eq_true_eq] at h
  have hletter : (c.isUpper || c.isLower) = true → (c.isAlphanum || c = '_') = true :=
    fun h => Bool.or_eq_true_iff.mpr (Or.inl (Bool.or_eq_true_iff.mpr (Or.inl h)))
  rcases h with ⟨hlow, hhigh⟩ | ⟨hlow, hhigh⟩ | ⟨hlow, hhigh⟩ | rfl
  · have hupper : c.isUpper = true := decide_eq_true ⟨hlow, hhigh⟩
    exact hletter (Bool.or_eq_true_iff.mpr (Or.inl hupper))
  · have hlower : c.isLower = true :=
      Bool.and_eq_true_iff.mpr ⟨decide_eq_true hlow, decide_eq_true hhigh⟩
    exact hletter (Bool.or_eq_true_iff.mpr (Or.inr hlower))
  · have hdigit : c.isDigit = true :=
      Bool.and_eq_true_iff.mpr ⟨decide_eq_true hlow, decide_eq_true hhigh⟩
    exact Bool.or_eq_true_iff.mpr (Or.inl (Bool.or_eq_true_iff.mpr (Or.inr hdigit)))
  · rfl

theorem isIdentifier_of_acceptedName (h : AcceptedName name) : isIdentifier name = true := by
  rw [isIdentifier, Bool.and_eq_true, List.all_eq_true]
  refine ⟨fun c hc => isAlphanum_of_isNameChar (h.chars c hc), ?_⟩
  obtain ⟨c, cs, rfl, -⟩ := h.exists_cons
  rw [List.head?_cons, Option.any_some, h.start c rfl]
  rfl

/-! ## `env-run` -/

/-- The value of a name is the last one. -/
theorem exportAll_apply :
    pairs.foldl (fun vars p => vars.exportAs p.1 p.2) vars name =
      ((pairs.reverse.lookup name).map fun value => ⟨value, true⟩).or (vars name) := by
  induction pairs using List.reverseRecOn with
  | nil => rfl
  | append_singleton pairs p ih =>
      obtain ⟨k, v⟩ := p
      rw [List.foldl_concat, List.reverse_append, List.reverse_singleton, List.singleton_append]
      by_cases hk : name = k
      · subst hk
        simp
      · rw [Variables.exportAs_of_ne hk, ih, List.lookup_cons, beq_false_of_ne hk]

/-- Values that a shell can hold, under names that it does not keep for itself. -/
def Fits (kept : Text → Bool) (pairs : List (Text × Text)) : Prop :=
  ∀ p ∈ pairs, '\x00' ∉ p.2 ∧ kept p.1 = false

instance : Decidable (Fits kept pairs) :=
  inferInstanceAs (Decidable (∀ p ∈ pairs, '\x00' ∉ p.2 ∧ kept p.1 = false))

theorem evalSecrets_of_parse (h : parse unicodeEscape stream = .ok pairs)
    (hfits : Fits kept pairs) :
    evalSecrets unicodeEscape kept vars stream =
      some (pairs.foldl (fun vars p => vars.exportAs p.1 p.2) vars) := by
  rw [evalSecrets, h]
  exact eval_exportLines
    (fun p hp => ⟨isIdentifier_of_acceptedName (acceptedName_of_parse h p hp), (hfits p hp).1⟩)
    fun p hp => (hfits p hp).2

/-- If the parser stops at a value, nothing is exported, and `env-run` goes on. -/
theorem evalSecrets_of_error {e : ε} (h : parse unicodeEscape stream = .error e) :
    evalSecrets unicodeEscape kept vars stream = some vars := by
  rw [evalSecrets, h]
  rfl

/-- **The script is safe to evaluate.**  Whatever is in the values, it exports what was parsed, the
last value of each name, and does nothing else. -/
theorem env_run_exports (h : parse unicodeEscape stream = .ok pairs) (hfits : Fits kept pairs) :
    ∃ vars', evalSecrets unicodeEscape kept vars stream = some vars' ∧
      ∀ name, vars' name =
        ((pairs.reverse.lookup name).map fun value => ⟨value, true⟩).or (vars name) :=
  ⟨_, evalSecrets_of_parse h hfits, fun _ => exportAll_apply⟩

namespace Sample

/-- A codec for texts without escapes. -/
def plainCodec (text : Text) : Except Unit Text :=
  if '\\' ∈ text then .error () else .ok text

/-- Lines with values that a shell would not leave alone. -/
def dotenvLines : List Text :=
  ["A=it's\n".toList, "# a comment\n".toList, "export B='$(reboot) > /dev/sda'\n".toList,
    "A=\"1 = one\"\n".toList]

/-- What is parsed. -/
def parsed : List (Text × Text) :=
  [("A".toList, "it's".toList), ("B".toList, "$(reboot) > /dev/sda".toList),
    ("A".toList, "1 = one".toList)]

end Sample

/-- Of the two values of `A` the last one is exported. -/
theorem env_run_exports_sample :
    parse Sample.plainCodec Sample.dotenvLines = .ok Sample.parsed ∧
      Sample.parsed.reverse.lookup "A".toList = some "1 = one".toList ∧
      ∃ vars', evalSecrets Sample.plainCodec (fun _ => false) (fun _ => none) Sample.dotenvLines =
          some vars' ∧
        ∀ name, vars' name =
          ((Sample.parsed.reverse.lookup name).map fun value => ⟨value, true⟩).or none := by
  have hparse : parse Sample.plainCodec Sample.dotenvLines = .ok Sample.parsed := by decide +kernel
  exact ⟨hparse, by decide +kernel, env_run_exports hparse (by decide +kernel)⟩

/-! ## `env-docker-run` -/

variable {readLine : Text → Option (Text × Text)}

theorem notMem_entryLine {value : Text} (hname : AcceptedName name) (hvalue : '\n' ∉ value) :
    '\n' ∉ entryLine name value := by
  rw [entryLine, List.mem_append, List.mem_cons]
  rintro (h | h | h)
  · exact hname.notMem (by decide) h
  · cases h
  · exact hvalue h

/-- What is written to an env-file is read from it. -/
theorem readEnvFile_lines (hread : ReadsEntries readLine)
    (hpairs : ∀ p ∈ pairs, AcceptedName p.1 ∧ ¬ Multiline p.2) :
    readEnvFile readLine (pairs.flatMap fun (k, v) => entryLine k v ++ ['\n']) = pairs := by
  induction pairs with
  | nil =>
      show List.filterMap readLine [[]] = []
      rw [List.filterMap_cons_none hread.empty, List.filterMap_nil]
  | cons p pairs ih =>
      obtain ⟨k, v⟩ := p
      obtain ⟨⟨hname, hvalue⟩, hpairs⟩ := List.forall_mem_cons.mp hpairs
      have hsplit : ∀ rest : Text, (entryLine k v ++ ['\n'] ++ rest).splitOn '\n' =
          entryLine k v :: rest.splitOn '\n' := by
        intro rest
        rw [List.append_assoc, List.singleton_append]
        exact List.splitOn_append_cons_self_of_not_mem
          (notMem_entryLine hname fun hmem => hvalue (Or.inl hmem)) rest
      rw [List.flatMap_cons, readEnvFile, hsplit,
        List.filterMap_cons_some (hread.entry hname hvalue)]
      exact congrArg _ (ih hpairs)

/-- Empty lines say nothing. -/
theorem readEnvFile_envData (hread : ReadsEntries readLine) (text : Text) :
    readEnvFile readLine (envData text) = readEnvFile readLine text := by
  obtain ⟨n, hlines⟩ : ∃ n, text.splitOn '\n' =
      (substitute '\n' text).splitOn '\n' ++ List.replicate n [] := splitOn_substitute _
  rw [readEnvFile, readEnvFile, hlines, envData, splitOn_concat, List.filterMap_append,
    List.filterMap_append, List.filterMap_replicate_of_none hread.empty,
    List.filterMap_cons_none hread.empty]
  rfl

/-- **The consumers agree.**  Docker reads every value that `env-run` exports as it is, also if it
has blanks, quotes or `=` in it; if some value cannot be in an env-file, there is none. -/
theorem consumers_agree (h : parse unicodeEscape stream = .ok pairs) (hfits : Fits kept pairs)
    (hread : ReadsEntries readLine) :
    ((∃ p ∈ pairs, Multiline p.2) ∧ ∃ message, envfile pairs = .error message) ∨
      ∃ text vars', envfile pairs = .ok text ∧
        evalSecrets unicodeEscape kept vars stream = some vars' ∧
          ∀ name, vars' name =
            (((readEnvFile readLine (envData text)).reverse.lookup name).map fun value =>
              ⟨value, true⟩).or (vars name) := by
  by_cases hbad : ∃ p ∈ pairs, Multiline p.2
  · obtain ⟨p, hp, hmultiline⟩ := hbad
    have hne : (pairs.filter fun p => Multiline p.2).map Prod.fst ≠ [] :=
      List.ne_nil_of_mem
        (List.mem_map_of_mem (List.mem_filter.mpr ⟨hp, decide_eq_true hmultiline⟩))
    exact Or.inl ⟨⟨p, hp, hmultiline⟩, _, if_pos hne⟩
  · have hgood : ∀ p ∈ pairs, ¬ Multiline p.2 := fun p hp h => hbad ⟨p, hp, h⟩
    have hnil : (pairs.filter fun p => Multiline p.2).map Prod.fst = [] := by
      rw [List.map_eq_nil_iff, List.filter_eq_nil_iff]
      exact fun p hp => by simpa using hgood p hp
    refine Or.inr ⟨_, _, if_neg (not_not.mpr hnil), evalSecrets_of_parse h hfits, fun name => ?_⟩
    rw [readEnvFile_envData hread, readEnvFile_lines hread]
    · exact exportAll_apply
    · exact fun p hp => ⟨acceptedName_of_parse h p hp, hgood p hp⟩

namespace Sample

/-- A variable is what stands before the first `=` of a line, its value what comes after it. -/
def docker (line : Text) : Option (Text × Text) :=
  if '=' ∈ line then some (firstField '=' line, afterField '=' line) else none

theorem readsEntries : ReadsEntries docker := by
  refine ⟨fun {name value} hname _ => ?_, rfl⟩
  have hequals : '=' ∉ name := hname.notMem (by decide)
  have hmem : '=' ∈ entryLine name value := List.mem_append_right _ List.mem_cons_self
  rw [docker, if_pos hmem, entryLine, firstField_append hequals, afterField_append hequals]

end Sample

/-- No value of the sample has a newline. -/
theorem consumers_agree_sample :
    ∃ text vars', envfile Sample.parsed = .ok text ∧
      evalSecrets Sample.plainCodec (fun _ => false) (fun _ => none) Sample.dotenvLines =
          some vars' ∧
        ∀ name, vars' name =
          (((readEnvFile Sample.docker (envData text)).reverse.lookup name).map fun value =>
            ⟨value, true⟩).or none := by
  have hparse : parse Sample.plainCodec Sample.dotenvLines = .ok Sample.parsed := by decide +kernel
  refine (consumers_agree hparse (by decide +kernel) Sample.readsEntries).resolve_left ?_
  rintro ⟨⟨p, hp, hmultiline⟩, -⟩
  revert p
  decide +kernel

end Secrets
