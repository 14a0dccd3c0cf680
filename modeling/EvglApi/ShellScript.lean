/-
# Scripts that export variables

What a POSIX shell makes of a script of `export` commands: the words of the commands, with their
quotes removed, and the variables after them.  A script with anything else in it has no value
here, be it an expansion, an operator, a comment or another command.

* `read_quote`: a text between single quotes, in which each single quote is written as a quoted
  one, is read as it was.
* `eval_exportLines`: a script of such exports does what it says.
-/
import EvglApi.PosixShell

namespace PosixShell

/-! ## Words -/

/-- How the next character is taken. -/
inductive Quoting
  | unquoted
  | single
  | escaped
  deriving DecidableEq

/-- What has been read of a script: the commands, the words of the last one, and the last word if
it has begun. -/
structure Reader where
  quoting : Quoting
  word : Option (List Char)
  command : List (List Char)
  commands : List (List (List Char))

/-- The characters that stand for themselves outside of quotes; there are others. -/
def isOrdinary (c : Char) : Bool := c.isAlphanum || c ∈ ['_', '=', '-', '.', '/', ':', ',']

namespace Reader

def start : Reader := ⟨.unquoted, none, [], []⟩

/-- The character belongs to the word. -/
def add (r : Reader) (c : Char) : Reader := { r with word := some (r.word.getD [] ++ [c]) }

/-- The word is over, if there is one. -/
def endWord (r : Reader) : Reader :=
  { r with word := none, command := r.command ++ r.word.toList }

/-- The command is over. -/
def endCommand (r : Reader) : Reader :=
  { r with
    word := none
    command := []
    commands := r.commands ++ [r.command ++ r.word.toList] }

/-- Read a character. -/
def read (r : Reader) (c : Char) : Option Reader :=
  -- no text of a shell has this character
  if c = '\x00' then none
  else match r.quoting with
  | .single => some (if c = '\'' then { r with quoting := .unquoted } else r.add c)
  | .escaped =>
      -- a line is continued by an escaped newline
      if c = '\n' then some { r with quoting := .unquoted }
      else some { r.add c with quoting := .unquoted }
  | .unquoted =>
      if c = '\'' then some { r with quoting := .single, word := some (r.word.getD []) }
      else if c = '\\' then some { r with quoting := .escaped }
      else if c = '\n' then some r.endCommand
      else if c = ' ' ∨ c = '\t' then some r.endWord
      else if isOrdinary c then some (r.add c)
      else none

end Reader

/-- The commands of a script. -/
def commands (script : List Char) : Option (List (List (List Char))) :=
  (script.foldlM Reader.read Reader.start).bind fun r =>
    if r.quoting = .unquoted then some r.endCommand.commands else none

/-! ## Exports -/

/-- A name that a variable can have. -/
def isIdentifier (name : List Char) : Bool :=
  name.all (fun c => c.isAlphanum || c = '_') && name.head?.any fun c => !c.isDigit

/-- `export`. -/
def exportWord : List Char := ['e', 'x', 'p', 'o', 'r', 't']

/-- Execute a command: nothing, or `export name=value` with a name that the shell does not keep
for itself. -/
def runCommand (kept : List Char → Bool) (vars : Variables (List Char) Char) :
    List (List Char) → Option (Variables (List Char) Char)
  | [] => some vars
  | [command, argument] =>
      if command = exportWord ∧ '=' ∈ argument ∧ isIdentifier (firstField '=' argument) ∧
          kept (firstField '=' argument) = false then
        some (vars.exportAs (firstField '=' argument) (afterField '=' argument))
      else none
  | _ => none

/-- The variables after `eval` of a script. -/
def eval (kept : List Char → Bool) (vars : Variables (List Char) Char) (script : List Char) :
    Option (Variables (List Char) Char) :=
  (commands script).bind fun commands => commands.foldlM (runCommand kept) vars

/-! ## Quoting -/

/-- A text between single quotes, with its own single quotes put between two such texts. -/
def quote (text : List Char) : List Char :=
  '\'' :: text.flatMap (fun c => if c = '\'' then ['\'', '\\', '\'', '\''] else [c]) ++ ['\'']

/-- `export name=…` with a quoted value. -/
def exportCommand (name value : List Char) : List Char :=
  exportWord ++ ' ' :: name ++ '=' :: quote value

variable {kept : List Char → Bool} {vars : Variables (List Char) Char} {r : Reader}
  {name value text word : List Char}

/-! ## Reading what was quoted -/

/-- Inside single quotes, up to the last quote. -/
theorem read_quoted (hnul : '\x00' ∉ text) :
    (text.flatMap (fun c => if c = '\'' then ['\'', '\\', '\'', '\''] else [c]) ++ ['\'']).foldlM
        Reader.read { r with quoting := .single, word := some word } =
      some { r with quoting := .unquoted, word := some (word ++ text) } := by
  induction text generalizing word with
  | nil => simp [Reader.read]
  | cons c text ih =>
      obtain ⟨hc, hnul⟩ := not_or.mp (List.mem_cons.not.mp hnul)
      have hrest := @ih (word ++ [c]) hnul
      rw [List.append_assoc, List.singleton_append] at hrest
      rw [List.flatMap_cons, List.append_assoc, List.foldlM_append]
      split
      · next hquote =>
          subst hquote
          exact hrest
      · next hquote =>
          have hread : Reader.read { r with quoting := .single, word := some word } c =
              some { r with quoting := .single, word := some (word ++ [c]) } := by
            simp [Reader.read, Ne.symm hc, hquote, Reader.add]
          rw [List.foldlM_cons, hread]
          exact hrest

/-- The word of a quoted text goes on with the text. -/
theorem read_quote (hr : r.quoting = .unquoted) (hnul : '\x00' ∉ text) :
    (quote text).foldlM Reader.read r =
      some { r with word := some (r.word.getD [] ++ text) } := by
  have hread : r.read '\'' = some { r with quoting := .single, word := some (r.word.getD []) } := by
    simp [Reader.read, hr]
  rw [quote, List.cons_append, List.foldlM_cons, hread]
  refine (read_quoted hnul).trans ?_
  rw [← hr]

/-- A text that needs no quotes. -/
theorem read_ordinary (hr : r.quoting = .unquoted) (hne : text ≠ [])
    (htext : ∀ c ∈ text, isOrdinary c = true) :
    text.foldlM Reader.read r = some { r with word := some (r.word.getD [] ++ text) } := by
  induction text generalizing r with
  | nil => exact absurd rfl hne
  | cons c text ih =>
      obtain ⟨hc, htext⟩ := List.forall_mem_cons.mp htext
      have hother : ∀ {d}, isOrdinary d = false → c ≠ d := by
        rintro d hd rfl
        cases hd.symm.trans hc
      have hread : r.read c = some (r.add c) := by
        simp [Reader.read, hr, hc, hother (show isOrdinary '\x00' = false by decide),
          hother (show isOrdinary '\'' = false by decide),
          hother (show isOrdinary '\\' = false by decide),
          hother (show isOrdinary '\n' = false by decide),
          hother (show isOrdinary ' ' = false by decide),
          hother (show isOrdinary '\t' = false by decide)]
      rw [List.foldlM_cons, hread]
      cases text with
      | nil => rfl
      | cons d text =>
          refine (ih (r := r.add c) hr (List.cons_ne_nil _ _) htext).trans ?_
          simp [Reader.add]

/-! ## Scripts of exports -/

/-- A name is made of characters that need no quotes. -/
theorem isOrdinary_of_isIdentifier (hname : isIdentifier name = true) {c : Char} (hc : c ∈ name) :
    isOrdinary c = true := by
  have hall := (Bool.and_eq_true_iff.mp hname).1
  have hchar := List.all_eq_true.mp hall c hc
  rw [isOrdinary]
  rcases Bool.or_eq_true_iff.mp hchar with h | h
  · rw [h, Bool.true_or]
  · rw [of_decide_eq_true h]
    decide

/-- The reader after `export name=value` without the end of the line. -/
def exported (done : List (List (List Char))) (name value : List Char) : Reader :=
  ⟨.unquoted, some (name ++ '=' :: value), [exportWord], done⟩

/-- One command, from the beginning of a line. -/
theorem read_exportCommand (done : List (List (List Char))) (hname : isIdentifier name = true)
    (hnul : '\x00' ∉ value) :
    (exportCommand name value).foldlM Reader.read ⟨.unquoted, none, [], done⟩ =
      some (exported done name value) := by
  have hword : (exportWord).foldlM Reader.read ⟨.unquoted, none, [], done⟩ =
      some ⟨.unquoted, some exportWord, [], done⟩ :=
    read_ordinary rfl (List.cons_ne_nil _ _)
      fun c hc => isOrdinary_of_isIdentifier rfl hc
  have hassign : (name ++ ['=']).foldlM Reader.read ⟨.unquoted, none, [exportWord], done⟩ =
      some ⟨.unquoted, some (name ++ ['=']), [exportWord], done⟩ := by
    refine read_ordinary rfl (List.append_ne_nil_of_right_ne_nil _ (List.cons_ne_nil _ _))
      fun c hc => ?_
    rcases List.mem_append.mp hc with hc | hc
    · exact isOrdinary_of_isIdentifier hname hc
    · rw [List.mem_singleton.mp hc]
      decide
  have hvalue : (quote value).foldlM Reader.read
      ⟨.unquoted, some (name ++ ['=']), [exportWord], done⟩ =
        some (exported done name value) := by
    refine (read_quote rfl hnul).trans ?_
    rw [exported, Option.getD_some, List.append_assoc]
    rfl
  have hsplit : exportCommand name value =
      exportWord ++ ' ' :: ((name ++ ['=']) ++ quote value) := by
    simp [exportCommand]
  rw [hsplit, List.foldlM_append, hword]
  show ((name ++ ['=']) ++ quote value).foldlM Reader.read _ = _
  rw [List.foldlM_append]
  exact (congrArg (· >>= fun r => (quote value).foldlM Reader.read r) hassign).trans hvalue

/-- A line for each of the variables. -/
def exportLines (pairs : List (List Char × List Char)) : List Char :=
  pairs.flatMap fun (name, value) => exportCommand name value ++ ['\n']

/-- The words of `export name=value`. -/
def exportWords (pair : List Char × List Char) : List (List Char) :=
  [exportWord, pair.1 ++ '=' :: pair.2]

theorem read_exportLines {pairs : List (List Char × List Char)} (done : List (List (List Char)))
    (hpairs : ∀ p ∈ pairs, isIdentifier p.1 = true ∧ '\x00' ∉ p.2) :
    (exportLines pairs).foldlM Reader.read ⟨.unquoted, none, [], done⟩ =
      some ⟨.unquoted, none, [], done ++ pairs.map exportWords⟩ := by
  induction pairs generalizing done with
  | nil => simp [exportLines]
  | cons p pairs ih =>
      obtain ⟨⟨hname, hnul⟩, hpairs⟩ := List.forall_mem_cons.mp hpairs
      have hrest := ih (done ++ [exportWords p]) hpairs
      rw [List.append_assoc, List.singleton_append, ← List.map_cons] at hrest
      rw [← hrest, exportLines, List.flatMap_cons, List.append_assoc, List.foldlM_append,
        read_exportCommand done hname hnul]
      rfl

/-- What command substitution leaves of the lines. -/
theorem substitute_exportLines (pairs : List (List Char × List Char)) (name value : List Char) :
    substitute '\n' (exportLines (pairs ++ [(name, value)])) =
      exportLines pairs ++ exportCommand name value := by
  have hlines : exportLines (pairs ++ [(name, value)]) =
      exportLines pairs ++ exportCommand name value ++ ['\n'] := by
    simp [exportLines]
  have hlast : exportLines pairs ++ exportCommand name value =
      exportLines pairs ++ (exportWord ++ ' ' :: name ++ '=' :: '\'' :: value.flatMap fun c =>
        if c = '\'' then ['\'', '\\', '\'', '\''] else [c]) ++ ['\''] := by
    simp [exportCommand, quote]
  rw [hlines, substitute, List.rdropWhile_concat_pos _ _ _ (by simp), hlast,
    List.rdropWhile_concat_neg _ _ _ (by simp)]

/-- The commands of such a script. -/
theorem commands_exportLines {pairs : List (List Char × List Char)}
    (hpairs : ∀ p ∈ pairs, isIdentifier p.1 = true ∧ '\x00' ∉ p.2) (hne : pairs ≠ []) :
    commands (substitute '\n' (exportLines pairs)) = some (pairs.map exportWords) := by
  obtain ⟨pairs, ⟨name, value⟩, rfl⟩ := (List.eq_nil_or_concat' pairs).resolve_left hne
  obtain ⟨hname, hnul⟩ := hpairs (name, value) (List.mem_append_right _ List.mem_cons_self)
  have hread : (exportLines pairs ++ exportCommand name value).foldlM Reader.read Reader.start =
      some (exported (pairs.map exportWords) name value) := by
    rw [List.foldlM_append, Reader.start,
      read_exportLines [] fun p hp => hpairs p (List.mem_append_left _ hp), Option.bind_eq_bind,
      Option.bind_some, List.nil_append]
    exact read_exportCommand _ hname hnul
  rw [commands, substitute_exportLines, hread, Option.bind_some, exported, if_pos rfl]
  simp [Reader.endCommand, exportWords]

/-- An export does what it says. -/
theorem runCommand_exportWords {p : List Char × List Char} (hname : isIdentifier p.1 = true)
    (hkept : kept p.1 = false) :
    runCommand kept vars (exportWords p) = some (vars.exportAs p.1 p.2) := by
  have hequals : '=' ∉ p.1 := by
    intro hmem
    have hall := (Bool.and_eq_true_iff.mp hname).1
    exact absurd (List.all_eq_true.mp hall '=' hmem) (by decide)
  have hmem : '=' ∈ p.1 ++ '=' :: p.2 := List.mem_append_right _ List.mem_cons_self
  rw [exportWords, runCommand, firstField_append hequals, afterField_append hequals]
  exact if_pos ⟨rfl, hmem, hname, hkept⟩

/-- A script of exports does what it says, also without the last newline. -/
theorem eval_exportLines {pairs : List (List Char × List Char)}
    (hpairs : ∀ p ∈ pairs, isIdentifier p.1 = true ∧ '\x00' ∉ p.2)
    (hkept : ∀ p ∈ pairs, kept p.1 = false) :
    eval kept vars (substitute '\n' (exportLines pairs)) =
      some (pairs.foldl (fun vars p => vars.exportAs p.1 p.2) vars) := by
  have hrun : ∀ {ps : List (List Char × List Char)} {vars : Variables (List Char) Char},
      (∀ p ∈ ps, isIdentifier p.1 = true ∧ kept p.1 = false) →
        (ps.map exportWords).foldlM (runCommand kept) vars =
          some (ps.foldl (fun vars p => vars.exportAs p.1 p.2) vars) := by
    intro ps
    induction ps with
    | nil => intro vars _; rfl
    | cons p ps ih =>
        intro vars hps
        obtain ⟨⟨hname, hkept⟩, hps⟩ := List.forall_mem_cons.mp hps
        rw [List.map_cons, List.foldlM_cons, runCommand_exportWords hname hkept]
        exact ih hps
  by_cases hne : pairs = []
  · subst hne
    rfl
  · rw [eval, commands_exportLines hpairs hne]
    exact hrun fun p hp => ⟨(hpairs p hp).1, hkept p hp⟩

end PosixShell
