/-
# The container entrypoint

`scripts/sops-entrypoint.sh`: it decrypts the secrets of the image, exports what is
not set already, and hands over to the command of the container.

What the script finds is a parameter: the environment and the variables of the shell,
the files, and `sops`.
-/
import EvglApi.Dotenv
import EvglApi.PosixShell

open PosixShell

namespace Secrets

/-! ## The surroundings of the script -/

/-- What sops writes when it has decrypted a file.  A text holds no NUL. -/
structure Plaintext where
  chars : Text
  noNul : '\x00' ∉ chars

/-- The lines of a plaintext. -/
def Plaintext.lines (text : Plaintext) : List Text := text.chars.splitOn '\n'

/-- What the script is started with.  `environment` is what is exported when it starts, and
`own` are the other variables that the shell sets for itself (`IFS`, `OPTIND` and so on). -/
structure Container where
  environment : Text → Option Text
  own : Text → Option Text
  command : List Text
  isFile : Text → Bool
  hasSops : Bool
  decrypt : Text → Option Plaintext

/-- The variables and what was written to the standard error. -/
structure Shell where
  vars : Variables Text Char
  stderr : List Text

/-- How the script ends: it hands over to a command, or it exits. -/
inductive Ending
  | exec (environment : Text → Option Text) (command : List Text)
  | exit (status : ℕ)

/-- The end of a run. -/
structure Ended where
  ending : Ending
  stderr : List Text

/-- What a name is bound to in the environment of the command. -/
def Ended.bound (e : Ended) (name : Text) : Option Text :=
  match e.ending with
  | .exec environment _ => environment name
  | .exit _ => none

/-! ## The variables of the script -/

def fileName : Text := "SOPS_SECRETS_FILE".toList

def secretsName : Text := "secrets".toList

def keyName : Text := "key".toList

def valueName : Text := "value".toList

namespace Shell

/-- `echo "$message" >&2` -/
def warn (sh : Shell) (message : Text) : Shell := { sh with stderr := sh.stderr ++ [message] }

def assign (sh : Shell) (name value : Text) : Shell :=
  { sh with vars := sh.vars.assign name value }

def unset (sh : Shell) (name : Text) : Shell := { sh with vars := sh.vars.unset name }

@[simp] theorem vars_assign (sh : Shell) (name value : Text) :
    (sh.assign name value).vars = sh.vars.assign name value := rfl

@[simp] theorem vars_unset (sh : Shell) (name : Text) :
    (sh.unset name).vars = sh.vars.unset name := rfl

/-- `exit status` -/
def exit (sh : Shell) (status : ℕ) : Ended := ⟨.exit status, sh.stderr⟩

/-- `IFS='=' read -r key value` -/
def readLine (sh : Shell) (line : Text) : Shell :=
  { sh with vars := sh.vars.read '=' keyName [valueName] line }

end Shell

/-! ## The loop -/

/-- `'' | '#'* | sops_*` -/
def ignored (key : Text) : Bool :=
  key = [] ∨ key.head? = some '#' ∨ "sops_".toList <+: key

/-- `*[!A-Za-z0-9_]* | [0-9]*` -/
def invalidName (key : Text) : Bool :=
  key.any (fun c => isNameChar c = false) || key.head?.any Char.isDigit

/-- The body of the loop, after the `read` of its condition. -/
def importEntry (sh : Shell) : Shell :=
  let key := sh.vars.expand keyName
  if ignored key then sh
  else if invalidName key then sh.warn "sops-entrypoint: skipping invalid variable name".toList
  else if (sh.vars key).isSome then sh
  else { sh with vars := sh.vars.exportAs key (sh.vars.expand valueName) }

/-- One turn of the loop. -/
def importLine (sh : Shell) (line : Text) : Shell := importEntry (sh.readLine line)

/-- The loop over the here-document, with the `read` that ends it. -/
def importSecrets (sh : Shell) : Shell :=
  let input := hereDocument '\n' (sh.vars.expand secretsName)
  ((readableLines '\n' input).foldl importLine sh).readLine (lastLine '\n' input)

/-- The name in a line, as the loop reads it. -/
def entryName (line : Text) : Text := firstField '=' line

/-- The value in a line, as the loop reads it. -/
def entryValue (line : Text) : Text := lastValue '=' (afterField '=' line)

section Loop

variable {sh : Shell} {name line : Text}

/-- The loop's `read` assigns the name and the value, in this order. -/
theorem vars_readLine : (sh.readLine line).vars =
    (sh.vars.assign keyName (entryName line)).assign valueName (entryValue line) :=
  Variables.read_pair ..

theorem keyName_ne_valueName : keyName ≠ valueName := by decide

/-- The value is assigned after the name, under another variable. -/
@[simp] theorem expand_keyName_readLine :
    (sh.readLine line).vars.expand keyName = entryName line := by
  rw [vars_readLine, Variables.expand_assign_of_ne keyName_ne_valueName,
    Variables.expand_assign_self]

@[simp] theorem expand_valueName_readLine :
    (sh.readLine line).vars.expand valueName = entryValue line := by
  rw [vars_readLine, Variables.expand_assign_self]

/-- The other variables of the shell are not touched. -/
theorem readLine_of_ne (hkey : name ≠ keyName) (hvalue : name ≠ valueName) :
    (sh.readLine line).vars name = sh.vars name := by
  rw [vars_readLine, Variables.assign_of_ne hvalue, Variables.assign_of_ne hkey]

@[simp] theorem isExported_readLine :
    (sh.readLine line).vars.isExported name = sh.vars.isExported name := by
  rw [vars_readLine, Variables.isExported_assign, Variables.isExported_assign]

/-- After a `read` its variables are set, and so is what was set before. -/
theorem isSome_readLine (h : (sh.vars name).isSome ∨ name = keyName ∨ name = valueName) :
    ((sh.readLine line).vars name).isSome := by
  rw [vars_readLine]
  rcases h with h | rfl | rfl
  · exact Variables.isSome_assign (Variables.isSome_assign h)
  · rw [Variables.assign_of_ne keyName_ne_valueName]
    exact Variables.isSome_assign_self
  · exact Variables.isSome_assign_self

/-- The body of the loop changes nothing that is set, and sets nothing but a name that it
accepts. -/
theorem vars_importEntry : (importEntry sh).vars name =
    (sh.vars name).or (if (ignored name = false ∧ invalidName name = false) ∧
        sh.vars.expand keyName = name then
      some ⟨sh.vars.expand valueName, true⟩ else none) := by
  by_cases hname : sh.vars.expand keyName = name
  · subst hname
    rw [importEntry]
    cases ignored (sh.vars.expand keyName) with
    | true => simp
    | false =>
        cases invalidName (sh.vars.expand keyName) with
        | true => simp [Shell.warn]
        | false => cases hset : sh.vars (sh.vars.expand keyName) <;> simp [hset]
  · have hother : (importEntry sh).vars name = sh.vars name := by
      simp only [importEntry]
      split
      · rfl
      · split
        · rfl
        · split
          · rfl
          · exact Variables.exportAs_of_ne (Ne.symm hname)
    simp [hother, hname]

/-- A turn of the loop sets a name that was not set to the value in a line of the name. -/
theorem vars_importLine (hignored : ignored name = false) (hinvalid : invalidName name = false)
    (hkey : name ≠ keyName) (hvalue : name ≠ valueName) :
    (importLine sh line).vars name =
      (sh.vars name).or
        (if entryName line = name then some ⟨entryValue line, true⟩ else none) := by
  simp only [importLine, vars_importEntry, readLine_of_ne hkey hvalue, hignored, hinvalid,
    expand_keyName_readLine, expand_valueName_readLine, and_self, true_and]

/-- The loop sets a name that was not set to the value in the first line of the name. -/
theorem vars_foldl_importLine (hignored : ignored name = false)
    (hinvalid : invalidName name = false) (hkey : name ≠ keyName) (hvalue : name ≠ valueName)
    (lines : List Text) (sh : Shell) :
    (lines.foldl importLine sh).vars name =
      (sh.vars name).or
        ((lines.find? (entryName · = name)).map fun line => ⟨entryValue line, true⟩) := by
  induction lines generalizing sh with
  | nil => simp
  | cons line lines ih =>
      rw [List.foldl_cons, ih, vars_importLine hignored hinvalid hkey hvalue, Option.or_assoc,
        List.find?_cons]
      by_cases hname : entryName line = name
      · simp [hname]
      · simp [hname]

/-- The loop exports nothing that is set, nor its own variables. -/
theorem isExported_foldl_importLine (lines : List Text) (sh : Shell)
    (h : (sh.vars name).isSome ∨ name = keyName ∨ name = valueName) :
    (lines.foldl importLine sh).vars.isExported name = sh.vars.isExported name := by
  induction lines generalizing sh with
  | nil => rfl
  | cons line lines ih =>
      obtain ⟨v, hset⟩ : ∃ v, (sh.readLine line).vars name = some v :=
        Option.isSome_iff_exists.mp (isSome_readLine h)
      have hstep : (importLine sh line).vars name = (sh.readLine line).vars name := by
        rw [importLine, vars_importEntry, hset, Option.some_or]
      have hflag : (importLine sh line).vars.isExported name = sh.vars.isExported name := by
        rw [Variables.isExported, hstep]
        exact isExported_readLine
      rw [List.foldl_cons, ih _ (Or.inl (by rw [hstep, hset]; rfl)), hflag]

end Loop

/-! ## The script -/

namespace Container

variable (c : Container)

/-- The shell when the script starts. -/
def start : Shell where
  vars name :=
    match c.environment name with
    | some value => some ⟨value, true⟩
    | none => (c.own name).map fun value => ⟨value, false⟩
  stderr := []

/-- `: "${SOPS_SECRETS_FILE:=/app/secrets/app.env}"` -/
def named : Shell :=
  if c.start.vars.expand fileName = [] then
    c.start.assign fileName "/app/secrets/app.env".toList
  else c.start

/-- `$SOPS_SECRETS_FILE` -/
def secretsFile : Text := c.named.vars.expand fileName

/-- `exec "$@"`.  Without a command it does nothing, and the script goes on. -/
def exec (sh : Shell) (next : Ended) : Ended :=
  if c.command = [] then next else ⟨.exec sh.vars.environment c.command, sh.stderr⟩

/-- From the decrypted secrets to the end of the script. -/
def handOver (sh : Shell) (text : Plaintext) : Ended :=
  let sh := (importSecrets (sh.assign secretsName (substitute '\n' text.chars))).unset secretsName
  c.exec sh (sh.exit 0)

/-- From the search for sops to the end of the script. -/
def decryptSecrets (sh : Shell) : Ended :=
  if c.hasSops = false then (sh.warn "sops-entrypoint: sops binary not in image".toList).exit 1
  else
    match c.decrypt c.secretsFile with
    | none => (sh.warn ("sops-entrypoint: failed to decrypt ".toList ++ c.secretsFile)).exit 1
    | some text => c.handOver sh text

/-- Whether neither `SOPS_AGE_KEY` nor `SOPS_AGE_KEY_FILE` is set. -/
def keyless : Bool :=
  c.named.vars.expand "SOPS_AGE_KEY".toList = [] ∧
    c.named.vars.expand "SOPS_AGE_KEY_FILE".toList = []

/-- From the check for an age key to the end of the script. -/
def checkKey (sh : Shell) : Ended :=
  if c.keyless then
    if sh.vars.expand "SOPS_REQUIRE_KEY".toList = "1".toList then
      ((sh.warn ("sops-entrypoint: no SOPS_AGE_KEY or SOPS_AGE_KEY_FILE set " ++
        "(SOPS_REQUIRE_KEY=1).").toList).warn
          "  docker run -e SOPS_AGE_KEY=\"$(cat ~/.config/sops/age/keys.txt)\" ...".toList).exit 1
    else
      let sh := sh.warn ("sops-entrypoint: no age key supplied; starting without decrypting ".toList
        ++ c.secretsFile)
      c.exec sh (c.decryptSecrets sh)
  else c.decryptSecrets sh

/-- The script. -/
def entrypoint : Ended :=
  if c.isFile c.secretsFile then c.checkKey c.named
  else c.exec c.named (c.checkKey c.named)

end Container

end Secrets
