/-
# Secrets at the handover

What the command of the container finds in its environment, for each line of the
decrypted secrets, and when that is what the line says.
-/
import EvglApi.Entrypoint
import EvglApi.Keyed

open Keyed PosixShell

namespace Secrets

/-! ## The environment of the command -/

/-- The variables that the script uses itself. -/
def scriptNames : List Text := [fileName, secretsName, keyName, valueName]

/-- The script decrypts the text, and there is a command to hand over to. -/
structure Decrypts (c : Container) (text : Plaintext) : Prop where
  command : c.command ≠ []
  file : c.isFile c.secretsFile = true
  key : c.keyless = false
  sops : c.hasSops = true
  text : c.decrypt c.secretsFile = some text

/-- A name that neither the shell nor the script uses for a variable of its own. -/
structure Free (c : Container) (name : Text) : Prop where
  own : c.own name = none
  script : name ∉ scriptNames

/-- The shell after the loop. -/
def imported (c : Container) (text : Plaintext) : Shell :=
  (importSecrets (c.named.assign secretsName (substitute '\n' text.chars))).unset secretsName

section Handover

variable {c : Container} {text : Plaintext} {name : Text}

/-- A script that decrypts its secrets reaches its last line. -/
theorem ending_entrypoint (h : Decrypts c text) :
    c.entrypoint.ending = .exec (imported c text).vars.environment c.command := by
  rw [Container.entrypoint, if_pos h.file, Container.checkKey, h.key, if_neg Bool.false_ne_true,
    Container.decryptSecrets, h.sops, if_neg Bool.true_eq_false.mp, h.text]
  simp only [Container.handOver, Container.exec, if_neg h.command, imported]

theorem bound_entrypoint (h : Decrypts c text) :
    c.entrypoint.bound name = (imported c text).vars.environment name := by
  rw [Ended.bound, ending_entrypoint h]

theorem AcceptedName.not_ignored (hname : AcceptedName name) : ignored name = false := by
  have hhash : name.head? ≠ some '#' := fun hhead => by
    have hc := hname.chars '#' (List.mem_of_head? hhead)
    exact absurd hc (by decide)
  exact decide_eq_false (not_or.mpr ⟨hname.nonempty, not_or.mpr ⟨hhash, hname.notSops⟩⟩)

theorem AcceptedName.not_invalidName (hname : AcceptedName name) : invalidName name = false := by
  obtain ⟨c, cs, rfl, -⟩ := hname.exists_cons
  have hchars : (c :: cs).any (fun c => isNameChar c = false) = false :=
    List.any_eq_false.mpr fun d hd => by simp [hname.chars d hd]
  rw [invalidName, hchars, Bool.false_or]
  exact hname.start c rfl

theorem vars_start : c.start.vars name =
    ((c.environment name).map fun value => ⟨value, true⟩).or
      ((c.own name).map fun value => ⟨value, false⟩) := by
  simp only [Container.start]
  cases c.environment name <;> rfl

theorem vars_named_of_ne (hne : name ≠ fileName) : c.named.vars name = c.start.vars name := by
  rw [Container.named]
  split
  · exact Variables.assign_of_ne hne
  · rfl

/-- What the shell sets for itself is set before the loop, and so is the name of the file. -/
theorem isSome_named (h : c.own name ≠ none ∨ name = fileName) :
    (c.named.vars name).isSome := by
  have hstart : c.own name ≠ none → (c.start.vars name).isSome := by
    intro hown
    rw [vars_start]
    cases hvalue : c.own name with
    | none => exact absurd hvalue hown
    | some value => cases c.environment name <;> rfl
  rw [Container.named]
  split
  · rcases h with h | rfl
    · exact Variables.isSome_assign (hstart h)
    · rw [Shell.vars_assign]
      exact Variables.isSome_assign_self
  · next hexpand =>
      rcases h with h | rfl
      · exact hstart h
      · rw [Variables.expand] at hexpand
        cases hvalue : c.start.vars fileName with
        | none => rw [hvalue] at hexpand; exact absurd rfl hexpand
        | some v => rfl

theorem isExported_named : c.named.vars.isExported name = c.start.vars.isExported name := by
  rw [Container.named]
  split
  · exact Variables.isExported_assign
  · rfl

/-- The `read` that ends the loop touches no variable but its own two. -/
theorem vars_importSecrets {sh : Shell} (hname : AcceptedName name) (hkey : name ≠ keyName)
    (hvalue : name ≠ valueName) :
    (importSecrets sh).vars name =
      (sh.vars name).or ((((sh.vars.expand secretsName).splitOn '\n').find?
        (entryName · = name)).map fun line => ⟨entryValue line, true⟩) := by
  rw [importSecrets, readLine_of_ne hkey hvalue, readableLines_hereDocument,
    vars_foldl_importLine hname.not_ignored hname.not_invalidName hkey hvalue]

/-- The empty lines that command substitution removes have no name. -/
theorem find?_substitute (hname : AcceptedName name) :
    ((substitute '\n' text.chars).splitOn '\n').find? (entryName · = name) =
      text.lines.find? (entryName · = name) := by
  obtain ⟨n, hlines⟩ : ∃ n, text.chars.splitOn '\n' =
      (substitute '\n' text.chars).splitOn '\n' ++ List.replicate n [] :=
    splitOn_substitute _
  have hempty : (List.replicate n ([] : Text)).find? (entryName · = name) = none :=
    List.find?_replicate_of_neg fun h => hname.nonempty (of_decide_eq_true h).symm
  rw [Plaintext.lines, hlines, List.find?_append, hempty, Option.or_none]

/-- The command finds a free name bound as in the environment of the container, else to the
value in the first line of the name. -/
theorem bound_of_free (h : Decrypts c text) (hname : AcceptedName name) (hfree : Free c name) :
    c.entrypoint.bound name =
      (c.environment name).or ((text.lines.find? (entryName · = name)).map entryValue) := by
  obtain ⟨hfile, hsecrets, hkey, hvalue⟩ :
      name ≠ fileName ∧ name ≠ secretsName ∧ name ≠ keyName ∧ name ≠ valueName := by
    simpa [scriptNames] using hfree.script
  have hvars : (imported c text).vars name =
      ((c.environment name).map fun value => ⟨value, true⟩).or
        ((text.lines.find? (entryName · = name)).map fun line => ⟨entryValue line, true⟩) := by
    rw [imported, Shell.vars_unset, Variables.unset_of_ne hsecrets,
      vars_importSecrets hname hkey hvalue, Shell.vars_assign, Variables.expand_assign_self,
      find?_substitute hname, Variables.assign_of_ne hsecrets, vars_named_of_ne hfile, vars_start,
      hfree.own, Option.map_none, Option.or_none]
  rw [bound_entrypoint h, Variables.environment, hvars]
  cases c.environment name with
  | some value => rfl
  | none => cases text.lines.find? (entryName · = name) <;> rfl

/-- A variable that the shell or the script uses itself, and that is not in the environment of
the container, is not handed over. -/
theorem bound_of_not_free (h : Decrypts c text) (hnew : c.environment name = none)
    (hfree : ¬ Free c name) : c.entrypoint.bound name = none := by
  rw [bound_entrypoint h]
  apply Variables.environment_eq_none
  -- `secrets` is unset after the loop, and every other such variable is set before its turn
  by_cases hsecrets : name = secretsName
  · rw [imported, Shell.vars_unset, hsecrets, Variables.isExported, Variables.unset_self]
    rfl
  · have hstart : c.start.vars.isExported name = false := by
      rw [Variables.isExported, vars_start, hnew]
      cases c.own name <;> rfl
    have hset : ((c.named.assign secretsName (substitute '\n' text.chars)).vars name).isSome ∨
        name = keyName ∨ name = valueName := by
      by_cases hown : c.own name = none
      · have hscript : name ∈ scriptNames := by
          by_contra hscript
          exact hfree ⟨hown, hscript⟩
        simp only [scriptNames, List.mem_cons, List.not_mem_nil, or_false] at hscript
        rcases hscript with hfile | hname | hloop
        · exact Or.inl (Variables.isSome_assign (isSome_named (Or.inr hfile)))
        · exact absurd hname hsecrets
        · exact Or.inr hloop
      · exact Or.inl (Variables.isSome_assign (isSome_named (Or.inl hown)))
    rw [imported, Shell.vars_unset, Variables.isExported, Variables.unset_of_ne hsecrets,
      ← Variables.isExported, importSecrets, isExported_readLine,
      isExported_foldl_importLine _ _ hset, Shell.vars_assign, Variables.isExported_assign,
      isExported_named, hstart]

end Handover

/-! ## One line of the secrets -/

/-- A text has the line of a name and a value after some other lines, and no other line gives
the name a value. -/
structure Entry (text : Plaintext) (before : List Text) (name value : Text) : Prop where
  accepted : AcceptedName name
  lines : ∃ after, text.lines = before ++ entryLine name value :: after ∧
    ∀ line ∈ before ++ after, ¬ name ++ ['='] <+: line

/-- The same container with other secrets. -/
def Container.withSecrets (c : Container) (text : Plaintext) : Container :=
  { c with decrypt := fun _ => some text }

/-- The script hands a secret over unchanged: the command gets the value, the parser reads the
same value from the line, and the other lines make no difference. -/
structure HandsOver {ε : Type} (unicodeEscape : Text → Except ε Text) (c : Container)
    (name value : Text) : Prop where
  bound : ∃ environment, c.entrypoint.ending = .exec environment c.command ∧
    environment name = some value
  parsed : parse unicodeEscape [entryLine name value ++ ['\n']] = .ok [(name, value)]
  alone : ∀ text : Plaintext, text.chars = entryLine name value ++ ['\n'] →
    (c.withSecrets text).entrypoint.bound name = c.entrypoint.bound name

/-- Nothing stands in the way of a secret: its name is free, its value is not one field with
the `=` that ends it, and a line with nothing but the name does not come before it, or does not
matter. -/
structure Unhindered (c : Container) (before : List Text) (name value : Text) : Prop where
  free : Free c name
  whole : ¬ Delimited '=' value
  first : name ∈ before → value = []

section Line

variable {c : Container} {text : Plaintext} {before : List Text} {name value line : Text}

theorem AcceptedName.notMem_equals (hname : AcceptedName name) : '=' ∉ name :=
  hname.notMem (by decide)

/-- A line has a name if it is the name, or the name with a value. -/
theorem entryName_eq (h : entryName line = name) :
    line = name ∨ name ++ ['='] <+: line := by
  by_cases hmem : '=' ∈ line
  · refine Or.inr ⟨afterField '=' line, ?_⟩
    rw [← h, List.append_assoc]
    exact firstField_append_afterField hmem
  · exact Or.inl ((firstField_of_notMem hmem).symm.trans h)

theorem entryName_entryLine (hname : AcceptedName name) :
    entryName (entryLine name value) = name :=
  firstField_append hname.notMem_equals

theorem entryValue_entryLine (hname : AcceptedName name) :
    entryValue (entryLine name value) = lastValue '=' value := by
  rw [entryValue, entryLine, afterField_append hname.notMem_equals]

/-- A line that is a name has the empty value. -/
theorem entryValue_self (hname : AcceptedName name) : entryValue name = [] := by
  rw [entryValue, afterField_of_notMem hname.notMem_equals]
  rfl

/-- The first line of the name is the one before that is nothing but the name, or the line
itself. -/
theorem Entry.map_find? (h : Entry text before name value) :
    (text.lines.find? (entryName · = name)).map entryValue =
      some (if name ∈ before then [] else lastValue '=' value) := by
  have hname := h.accepted
  obtain ⟨after, hlines, honce⟩ := h.lines
  have hbare : ∀ line ∈ before, entryName line = name → line = name := fun line hline heq =>
    (entryName_eq heq).resolve_right (honce line (List.mem_append_left _ hline))
  rw [hlines, List.find?_append]
  -- a line before that has the name but gives it no value is the name
  split
  · next hmem =>
      have hself : entryName name = name := firstField_of_notMem hname.notMem_equals
      obtain ⟨line, hfind, hline, heq⟩ :
          ∃ line, before.find? (entryName · = name) = some line ∧ line ∈ before ∧
            entryName line = name :=
        exists_found hmem hself
      rw [hfind, Option.some_or, Option.map_some, hbare line hline heq, entryValue_self hname]
  · next hmem =>
      have hfind : before.find? (entryName · = name) = none := by
        rw [List.find?_eq_none]
        intro line hline heq
        exact hmem (hbare line hline (of_decide_eq_true heq) ▸ hline)
      rw [hfind, Option.none_or, List.find?_cons,
        decide_eq_true (entryName_entryLine hname), Option.map_some, entryValue_entryLine hname]

/-- What the command finds for the line of a name that is not in the environment. -/
theorem Entry.bound_eq (h : Entry text before name value) (hdecrypts : Decrypts c text)
    (hnew : c.environment name = none) (hfree : Free c name) :
    c.entrypoint.bound name = some (if name ∈ before then [] else lastValue '=' value) := by
  rw [bound_of_free hdecrypts h.accepted hfree, hnew, Option.none_or, h.map_find?]

theorem Entry.notMem_newline (h : Entry text before name value) :
    '\n' ∉ entryLine name value := by
  obtain ⟨after, hlines, -⟩ := h.lines
  have hmem : entryLine name value ∈ text.lines := by
    rw [hlines]
    exact List.mem_append_right _ List.mem_cons_self
  exact notMem_of_mem_splitOn hmem

/-- The line alone is a text with the line. -/
theorem Entry.alone (h : Entry text before name value) {alone : Plaintext}
    (halone : alone.chars = entryLine name value ++ ['\n']) : Entry alone [] name value := by
  refine ⟨h.accepted, [[]], ?_, ?_⟩
  · rw [Plaintext.lines, halone, splitOn_concat, List.splitOn_eq_splitOnP,
      List.splitOnP_eq_singleton]
    · rfl
    · intro c hc
      exact beq_eq_false_iff_ne.mpr (ne_of_mem_of_not_mem hc h.notMem_newline)
  · simp

theorem Decrypts.withSecrets (h : Decrypts c text) (other : Plaintext) :
    Decrypts (c.withSecrets other) other :=
  ⟨h.command, h.file, h.key, h.sops, rfl⟩

/-- The script hands a secret over unchanged exactly if nothing stands in its way.  For every
container and every decrypted text, for a line with an unquoted value whose name is accepted,
new and given a value once: the script hands it over unchanged if and only if the name is free,
the value does not consist of one field and a final `=`, and no line before that is nothing but
the name has taken its place. -/
theorem hands_over_iff {ε : Type} (unicodeEscape : Text → Except ε Text)
    (hdecrypts : Decrypts c text) (hentry : Entry text before name value)
    (hnew : c.environment name = none) (hunquoted : Unquoted value) :
    HandsOver unicodeEscape c name value ↔ Unhindered c before name value := by
  constructor
  · rintro ⟨⟨environment, hexec, hvalue⟩, -, -⟩
    have hbound : c.entrypoint.bound name = some value := by
      rw [Ended.bound, hexec]
      exact hvalue
    have hfree : Free c name := by
      by_contra hfree
      rw [bound_of_not_free hdecrypts hnew hfree] at hbound
      cases hbound
    rw [hentry.bound_eq hdecrypts hnew hfree, Option.some_inj] at hbound
    split at hbound
    · next hmem =>
        subst hbound
        exact ⟨hfree, lastValue_eq_self_iff.mp rfl, fun _ => rfl⟩
    · next hmem =>
        exact ⟨hfree, lastValue_eq_self_iff.mp hbound, fun h => absurd h hmem⟩
  · rintro ⟨hfree, hwhole, hfirst⟩
    have hnewline : '\n' ∉ value := fun h =>
      hentry.notMem_newline (List.mem_append_right _ (List.mem_cons_of_mem _ h))
    have hlast := lastValue_eq_self_iff.mpr hwhole
    have hbound : c.entrypoint.bound name = some value := by
      rw [hentry.bound_eq hdecrypts hnew hfree, hlast]
      split
      · next hmem => rw [hfirst hmem]
      · rfl
    refine ⟨⟨_, ending_entrypoint hdecrypts, ?_⟩,
      parse_entryLine hentry.accepted unicodeEscape hnewline hunquoted, fun alone halone => ?_⟩
    · rw [← bound_entrypoint hdecrypts, hbound]
    · have halone := (hentry.alone halone).bound_eq (hdecrypts.withSecrets alone) hnew
        ⟨hfree.own, hfree.script⟩
      rw [halone, if_neg List.not_mem_nil, hlast, hbound]

end Line

namespace Sample

/-- A container with an age key whose secrets are one line. -/
def container (text : Plaintext) : Container where
  environment name := [("PATH".toList, "/usr/bin".toList),
    ("SOPS_SECRETS_FILE".toList, "/app/secrets/app.env".toList),
    ("SOPS_AGE_KEY".toList, "AGE-SECRET-KEY-1".toList)].lookup name
  own name := [("IFS".toList, [' ', '\t', '\n']), ("OPTIND".toList, ['1']),
    ("PPID".toList, ['0']), ("PWD".toList, ['/'])].lookup name
  command := ["/usr/bin/evgl-api".toList]
  isFile path := path = "/app/secrets/app.env".toList
  hasSops := true
  decrypt path := if path = "/app/secrets/app.env".toList then some text else none

def databaseUrl : Text := "postgres://evgl:p=w@db/evgl?sslmode=require&options=".toList

/-- A key of 32 bytes as `openssl rand -base64 32` writes it. -/
def vaultKey : Text := "MDEyMzQ1Njc4OWFiY2RlZjAxMjM0NTY3ODlhYmNkZWY=".toList

def secrets : Plaintext where
  chars := "# database\nDATABASE_URL=postgres://evgl:p=w@db/evgl?sslmode=require&options=\n".toList
    ++ "LOG=info\n".toList
  noNul := by decide

def keySecrets : Plaintext where
  chars := "TOKEN_VAULT_KEY=MDEyMzQ1Njc4OWFiY2RlZjAxMjM0NTY3ODlhYmNkZWY=\n".toList
  noNul := by decide

theorem decrypts (text : Plaintext) : Decrypts (container text) text :=
  ⟨List.cons_ne_nil _ _, rfl, rfl, rfl, rfl⟩

end Sample

/-- A URL with several `=`, the last one at its end, is handed over unchanged. -/
theorem hands_over_iff_sample :
    HandsOver (fun v => (.ok v : Except Unit Text)) (Sample.container Sample.secrets)
      "DATABASE_URL".toList Sample.databaseUrl := by
  have hentry : Entry Sample.secrets ["# database".toList] "DATABASE_URL".toList
      Sample.databaseUrl :=
    ⟨by decide, ["LOG=info".toList, []], by decide, by decide⟩
  have hunquoted : Unquoted Sample.databaseUrl := ⟨by decide, by decide⟩
  refine (hands_over_iff _ (Sample.decrypts _) hentry rfl hunquoted).mpr ?_
  exact ⟨⟨rfl, by decide⟩, lastValue_eq_self_iff.mp (by decide), by decide⟩

/-- The key of the token vault loses the `=` that pads it. -/
theorem not_hands_over :
    ¬ ∀ (unicodeEscape : Text → Except Unit Text) (c : Container) (text : Plaintext)
      (before : List Text) (name value : Text), Decrypts c text →
      Entry text before name value → c.environment name = none → Unquoted value →
      HandsOver unicodeEscape c name value := by
  intro h
  have hdecrypts := Sample.decrypts Sample.keySecrets
  have hentry : Entry Sample.keySecrets [] "TOKEN_VAULT_KEY".toList Sample.vaultKey :=
    ⟨by decide, [[]], by decide, by decide⟩
  have hunquoted : Unquoted Sample.vaultKey := ⟨by decide, by decide⟩
  have hfree : Free (Sample.container Sample.keySecrets) "TOKEN_VAULT_KEY".toList :=
    ⟨rfl, by decide⟩
  obtain ⟨⟨environment, hexec, hvalue⟩, -, -⟩ := h .ok _ _ _ _ _ hdecrypts hentry rfl hunquoted
  have hbound := hentry.bound_eq hdecrypts rfl hfree
  rw [Ended.bound, hexec, if_neg List.not_mem_nil] at hbound
  have hlast : lastValue '=' Sample.vaultKey = Sample.vaultKey :=
    Option.some.inj (hbound.symm.trans hvalue)
  exact absurd hlast (by decide)

end Secrets
