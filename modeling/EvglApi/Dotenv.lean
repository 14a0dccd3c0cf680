/-
# The dotenv parser

The parser of `.just/dotenv.py`, which every consumer of the encrypted files on a
developer's machine goes through.  The codec that expands the escapes of a quoted
value is a parameter: it belongs to the library of Python and reads the names of
characters from a table.
-/
import Mathlib.Data.List.DropRight

namespace Secrets

/-- A text of a script. -/
abbrev Text := List Char

/-! ## Names and values -/

/-- `[A-Za-z0-9_]`. -/
def isNameChar (c : Char) : Bool :=
  ('A' ≤ c ∧ c ≤ 'Z') ∨ ('a' ≤ c ∧ c ≤ 'z') ∨ ('0' ≤ c ∧ c ≤ '9') ∨ c = '_'

/-- A name that can be handed to a command: letters, digits and underscores, the first one
not a digit, and not one of the names that sops keeps for itself. -/
structure AcceptedName (name : Text) : Prop where
  nonempty : name ≠ []
  chars : ∀ c ∈ name, isNameChar c = true
  start : ∀ c, name.head? = some c → c.isDigit = false
  notSops : ¬ "sops_".toList <+: name

/-- The same as a test on the characters. -/
theorem acceptedName_iff {name : Text} :
    AcceptedName name ↔ name ≠ [] ∧ name.all isNameChar = true ∧
      name.head?.all (fun c => c.isDigit = false) = true ∧ ¬ "sops_".toList <+: name := by
  constructor
  · rintro ⟨hnonempty, hchars, hstart, hsops⟩
    refine ⟨hnonempty, List.all_eq_true.mpr hchars, ?_, hsops⟩
    rw [Option.all_eq_true]
    exact fun c hc => decide_eq_true (hstart c hc)
  · rintro ⟨hnonempty, hchars, hstart, hsops⟩
    rw [Option.all_eq_true] at hstart
    exact ⟨hnonempty, List.all_eq_true.mp hchars, fun c hc => of_decide_eq_true (hstart c hc), hsops⟩

instance (name : Text) : Decidable (AcceptedName name) := decidable_of_iff' _ acceptedName_iff

/-- A value between quotation marks of one kind. -/
def Quoted (mark : Char) (value : Text) : Prop :=
  2 ≤ value.length ∧ value.head? = value.getLast? ∧ value.getLast? = some mark

instance (mark : Char) (value : Text) : Decidable (Quoted mark value) :=
  inferInstanceAs (Decidable (_ ∧ _ ∧ _))

/-- The line that gives a name a value. -/
def entryLine (name value : Text) : Text := name ++ '=' :: value

/-! ## The parser -/

/-- White space (`str.isspace`). -/
def isSpace (c : Char) : Bool :=
  (9 ≤ c.toNat ∧ c.toNat ≤ 13) ∨ (28 ≤ c.toNat ∧ c.toNat ≤ 32) ∨
    (0x2000 ≤ c.toNat ∧ c.toNat ≤ 0x200a) ∨
    c.toNat ∈ [0x85, 0xa0, 0x1680, 0x2028, 0x2029, 0x202f, 0x205f, 0x3000]

/-- `str.lstrip`. -/
def lstrip (line : Text) : Text := line.dropWhile isSpace

/-- `str.strip`. -/
def strip (line : Text) : Text := (lstrip line).rdropWhile isSpace

/-- `re.match(r"^([A-Za-z_][A-Za-z0-9_]*)=(.*)$", line)` for a line that does not end in a
newline.  The name ends at the first character that cannot be in it, since `=` cannot. -/
def matchEntry (line : Text) : Option (Text × Text) :=
  let k := line.takeWhile isNameChar
  match line.dropWhile isNameChar with
  | '=' :: v =>
      if k.head?.any (fun c => c.isDigit = false) ∧ '\n' ∉ v then some (k, v) else none
  | _ => none

section Parse

variable {ε : Type} (unicodeEscape : Text → Except ε Text)

/-- One pass of the loop of `parse`. -/
def parseLine (line : Text) : Except ε (Option (Text × Text)) :=
  let line := line.rdropWhile (· = '\n')
  if strip line = [] ∨ (lstrip line).head? = some '#' then pure none
  else
    let line := if "export ".toList <+: line then line.drop "export ".length else line
    match matchEntry line with
    | none => pure none
    | some (k, v) =>
        if "sops_".toList <+: k then pure none
        else if Quoted '"' v then do
          let v ← unicodeEscape v.tail.dropLast
          pure (some (k, v))
        else if Quoted '\x27' v then pure (some (k, v.tail.dropLast))
        else pure (some (k, v))

/-- The names and values in a stream of lines (`parse`). -/
def parse : List Text → Except ε (List (Text × Text))
  | [] => pure []
  | line :: stream => do
      let entry ← parseLine unicodeEscape line
      let out ← parse stream
      pure (entry.toList ++ out)

end Parse

/-! ## Unquoted values -/

/-- A value that stands for itself. -/
structure Unquoted (value : Text) : Prop where
  double : ¬ Quoted '"' value
  single : ¬ Quoted '\x27' value

/-- The characters of a name are between `0` and `z`. -/
theorem toNat_of_isNameChar {c : Char} (h : isNameChar c = true) :
    48 ≤ c.toNat ∧ c.toNat ≤ 122 := by
  have hrange : ∀ {low high : Char}, low ≤ c ∧ c ≤ high →
      low.toNat ≤ c.toNat ∧ c.toNat ≤ high.toNat := fun h =>
    ⟨UInt32.le_iff_toNat_le.mp h.1, UInt32.le_iff_toNat_le.mp h.2⟩
  have hupper : 'A'.toNat = 65 ∧ 'Z'.toNat = 90 := ⟨rfl, rfl⟩
  have hlower : 'a'.toNat = 97 ∧ 'z'.toNat = 122 := ⟨rfl, rfl⟩
  have hdigit : '0'.toNat = 48 ∧ '9'.toNat = 57 := ⟨rfl, rfl⟩
  rw [isNameChar, decide_eq_true_eq] at h
  rcases h with h | h | h | rfl
  · have hc := hrange h
    omega
  · have hc := hrange h
    omega
  · have hc := hrange h
    omega
  · decide

/-- No character of a name is white space, so that `strip` stops at the name. -/
theorem isSpace_of_isNameChar {c : Char} (h : isNameChar c = true) : isSpace c = false := by
  have hbounds := toNat_of_isNameChar h
  simp only [isSpace, decide_eq_false_iff_not, List.mem_cons, List.not_mem_nil, or_false]
  omega

section Entry

variable {name value : Text} (hname : AcceptedName name)

include hname

theorem AcceptedName.exists_cons : ∃ c cs, name = c :: cs ∧ isNameChar c = true := by
  obtain ⟨c, cs, rfl⟩ := List.exists_cons_of_ne_nil hname.nonempty
  exact ⟨c, cs, rfl, hname.chars c List.mem_cons_self⟩

/-- A character that cannot be in a name is not in one. -/
theorem AcceptedName.notMem {c : Char} (hc : isNameChar c = false) : c ∉ name := by
  intro h
  rw [hname.chars c h] at hc
  cases hc

/-- The name ends at the sign. -/
theorem takeWhile_entryLine : (entryLine name value).takeWhile isNameChar = name := by
  rw [entryLine, List.takeWhile_append_of_pos hname.chars, List.takeWhile_cons_of_neg (by decide),
    List.append_nil]

theorem dropWhile_entryLine : (entryLine name value).dropWhile isNameChar = '=' :: value := by
  rw [entryLine, List.dropWhile_append_of_pos hname.chars, List.dropWhile_cons_of_neg (by decide)]

/-- The line of a name starts with a character of the name. -/
theorem lstrip_entryLine : lstrip (entryLine name value) = entryLine name value := by
  obtain ⟨c, cs, rfl, hc⟩ := hname.exists_cons
  exact List.dropWhile_cons_of_neg (by simp [isSpace_of_isNameChar hc])

/-- The line is not skipped as empty. -/
theorem strip_entryLine_ne_nil : strip (entryLine name value) ≠ [] := by
  obtain ⟨c, cs, rfl, hc⟩ := hname.exists_cons
  rw [strip, lstrip_entryLine hname, Ne, List.rdropWhile_eq_nil_iff]
  intro hspace
  have hc' := hspace c List.mem_cons_self
  rw [isSpace_of_isNameChar hc] at hc'
  cases hc'

/-- The line is not skipped as a comment. -/
theorem head?_entryLine_ne : (entryLine name value).head? ≠ some '#' := by
  obtain ⟨c, cs, rfl, hc⟩ := hname.exists_cons
  intro hhead
  obtain rfl : c = '#' := Option.some.inj hhead
  exact absurd hc (by decide)

/-- No such line is an `export` command: the name would have to have a blank in it. -/
theorem not_export_entryLine : ¬ "export ".toList <+: entryLine name value := by
  rintro ⟨rest, hrest⟩
  have hdrop : ("export ".toList ++ rest).dropWhile isNameChar = ' ' :: rest := rfl
  rw [hrest, dropWhile_entryLine hname] at hdrop
  cases hdrop

/-- The pattern finds the name and the value, and the value may have further signs in it. -/
theorem matchEntry_entryLine (hvalue : '\n' ∉ value) :
    matchEntry (entryLine name value) = some (name, value) := by
  have hstart : name.head?.any (fun c => c.isDigit = false) = true := by
    obtain ⟨c, cs, rfl, -⟩ := hname.exists_cons
    exact decide_eq_true (hname.start c rfl)
  rw [matchEntry, dropWhile_entryLine hname, takeWhile_entryLine hname]
  exact if_pos ⟨hstart, hvalue⟩

/-- Only the newline at the end is taken off. -/
theorem rdropWhile_entryLine (hvalue : '\n' ∉ value) :
    (entryLine name value ++ ['\n']).rdropWhile (· = '\n') = entryLine name value := by
  have hmem : '\n' ∉ entryLine name value := by
    rw [entryLine, List.mem_append, List.mem_cons]
    rintro (h | h | h)
    · exact hname.notMem (by decide) h
    · cases h
    · exact hvalue h
  rw [List.rdropWhile_concat_pos _ _ _ (by simp), List.rdropWhile_eq_self_iff]
  intro hne hlast
  exact hmem (of_decide_eq_true hlast ▸ List.getLast_mem hne)

/-- The line of an unquoted value is parsed to the name and the value, whatever the codec
for escapes does. -/
theorem parse_entryLine {ε : Type} (unicodeEscape : Text → Except ε Text)
    (hvalue : '\n' ∉ value) (hunquoted : Unquoted value) :
    parse unicodeEscape [entryLine name value ++ ['\n']] = .ok [(name, value)] := by
  have hline : parseLine unicodeEscape (entryLine name value ++ ['\n']) =
      .ok (some (name, value)) := by
    have hcontent : ¬ (strip (entryLine name value) = [] ∨
        (lstrip (entryLine name value)).head? = some '#') := by
      rw [lstrip_entryLine hname, not_or]
      exact ⟨strip_entryLine_ne_nil hname, head?_entryLine_ne hname⟩
    rw [parseLine, rdropWhile_entryLine hname hvalue]
    simp only [if_neg hcontent, if_neg (not_export_entryLine hname),
      matchEntry_entryLine hname hvalue, if_neg hname.notSops, if_neg hunquoted.double,
      if_neg hunquoted.single]
    rfl
  rw [parse, hline]
  rfl

end Entry

end Secrets
