/-
# What a POSIX shell does with texts and variables

Field splitting at one delimiter that is not white space, what `read` assigns,
the lines of a text and command substitution, and the variables of a shell with
their export attribute.
-/
import Mathlib.Data.List.DropRight
import Mathlib.Logic.Function.Basic

namespace PosixShell

/-! ## Field splitting -/

section Fields

variable {α : Type} [DecidableEq α] (sep : α)

/-- The fields of a text.  A delimiter ends a field, and what comes after the last
delimiter is a field if it is not empty. -/
def fields : List α → List (List α)
  | [] => []
  | c :: cs =>
      if c = sep then [] :: fields cs
      else match fields cs with
        | [] => [[c]]
        | f :: fs => (c :: f) :: fs

/-- The text up to the first delimiter. -/
def firstField (cs : List α) : List α := cs.takeWhile (· ≠ sep)

/-- The text after the first delimiter. -/
def afterField (cs : List α) : List α := (cs.dropWhile (· ≠ sep)).tail

/-- The text after the first `n` fields and the delimiters that end them. -/
def afterFields : ℕ → List α → List α
  | 0, cs => cs
  | n + 1, cs => afterFields n (afterField sep cs)

/-- The values that `read -r` assigns to `n + 1` variables.  Variables without a field
become empty; if there are more fields than variables, the last variable gets the rest of
the line with its delimiters. -/
def readValues (n : ℕ) (line : List α) : List (List α) :=
  if (fields sep line).length ≤ n + 1 then
    fields sep line ++ List.replicate (n + 1 - (fields sep line).length) []
  else (fields sep line).take n ++ [afterFields sep n line]

/-- A text that is one field with the delimiter that ends it. -/
def Delimited (cs : List α) : Prop := ∃ f, sep ∉ f ∧ cs = f ++ [sep]

/-- The value that the last variable gets if the text is left for it. -/
def lastValue (cs : List α) : List α :=
  if (fields sep cs).length ≤ 1 then firstField sep cs else cs

variable {sep} {f cs : List α}

/-- A text without the delimiter is its own first field. -/
theorem firstField_of_notMem (hf : sep ∉ f) : firstField sep f = f :=
  List.takeWhile_eq_self_iff.mpr fun _ hc => decide_eq_true (ne_of_mem_of_not_mem hc hf)

theorem afterField_of_notMem (hf : sep ∉ f) : afterField sep f = [] := by
  have hdrop : f.dropWhile (· ≠ sep) = [] :=
    List.dropWhile_eq_nil_iff.mpr fun _ hc => decide_eq_true (ne_of_mem_of_not_mem hc hf)
  rw [afterField, hdrop, List.tail_nil]

/-- The first field ends at the delimiter. -/
theorem firstField_append (hf : sep ∉ f) : firstField sep (f ++ sep :: cs) = f := by
  rw [firstField, List.takeWhile_append_of_pos fun _ hc =>
    decide_eq_true (ne_of_mem_of_not_mem hc hf)]
  simp

theorem afterField_append (hf : sep ∉ f) : afterField sep (f ++ sep :: cs) = cs := by
  rw [afterField, List.dropWhile_append_of_pos fun _ hc =>
    decide_eq_true (ne_of_mem_of_not_mem hc hf)]
  simp

/-- The first field has no delimiter in it. -/
theorem notMem_firstField : sep ∉ firstField sep cs := by
  intro h
  have hne := List.mem_takeWhile_imp h
  simp at hne

/-- A text with a delimiter is its first field, a delimiter and the rest. -/
theorem firstField_append_afterField (h : sep ∈ cs) :
    firstField sep cs ++ sep :: afterField sep cs = cs := by
  obtain ⟨f, rest, rfl, hf⟩ := List.eq_append_cons_of_mem h
  rw [firstField_append hf, afterField_append hf]

/-- A field with its delimiter is the first of the fields. -/
theorem fields_append (hf : sep ∉ f) : fields sep (f ++ sep :: cs) = f :: fields sep cs := by
  induction f with
  | nil => simp [fields]
  | cons c f ih =>
      obtain ⟨hc, hf⟩ := not_or.mp (List.mem_cons.not.mp hf)
      rw [List.cons_append, fields, if_neg (Ne.symm hc), ih hf]

/-- A text without the delimiter is one field, unless it is empty. -/
theorem fields_of_notMem (hf : sep ∉ f) (hne : f ≠ []) : fields sep f = [f] := by
  induction f with
  | nil => exact absurd rfl hne
  | cons c f ih =>
      obtain ⟨hc, hf⟩ := not_or.mp (List.mem_cons.not.mp hf)
      rw [fields, if_neg (Ne.symm hc)]
      cases f with
      | nil => rfl
      | cons d f => rw [ih hf (List.cons_ne_nil _ _)]

/-- The fields of a text with the delimiter, one after the other. -/
theorem fields_of_mem (h : sep ∈ cs) :
    fields sep cs = firstField sep cs :: fields sep (afterField sep cs) := by
  conv_lhs => rw [← firstField_append_afterField h]
  exact fields_append notMem_firstField

@[simp] theorem fields_eq_nil_iff : fields sep cs = [] ↔ cs = [] := by
  cases cs with
  | nil => simp [fields]
  | cons c cs =>
      rw [fields]
      split
      · simp
      · split <;> simp

/-- A text with the delimiter is one field exactly if nothing follows the delimiter. -/
theorem length_fields_le_one_iff (h : sep ∈ cs) :
    (fields sep cs).length ≤ 1 ↔ afterField sep cs = [] := by
  have hrest : (fields sep (afterField sep cs)).length = 0 ↔ afterField sep cs = [] :=
    List.length_eq_zero_iff.trans fields_eq_nil_iff
  rw [fields_of_mem h, List.length_cons, ← hrest]
  omega

/-- The first variable gets the first field, and the other ones are read from what follows. -/
theorem readValues_succ (n : ℕ) (line : List α) :
    readValues sep (n + 1) line =
      firstField sep line :: readValues sep n (afterField sep line) := by
  by_cases hmem : sep ∈ line
  · simp only [readValues, fields_of_mem hmem, List.length_cons, Nat.add_le_add_iff_right,
      Nat.add_sub_add_right, List.take_succ_cons, afterFields]
    split <;> rfl
  · rw [firstField_of_notMem hmem, afterField_of_notMem hmem]
    cases line with
    | nil => simp [readValues, fields, List.replicate_succ]
    | cons c cs =>
        rw [readValues, fields_of_notMem hmem (List.cons_ne_nil _ _)]
        simp [readValues, fields]

/-- The last variable gets what is left for it. -/
theorem readValues_zero (line : List α) : readValues sep 0 line = [lastValue sep line] := by
  rw [readValues, lastValue]
  by_cases hmem : sep ∈ line
  · split
    · next hlength =>
        have hrest := (length_fields_le_one_iff hmem).mp hlength
        rw [fields_of_mem hmem, hrest]
        rfl
    · rfl
  · rw [firstField_of_notMem hmem]
    cases line with
    | nil => rfl
    | cons c cs => simp [fields_of_notMem hmem (List.cons_ne_nil _ _)]

/-- The last variable gets the text as it is, except for a text that is one field with its
delimiter: the delimiter of that one is lost. -/
theorem lastValue_eq_self_iff : lastValue sep cs = cs ↔ ¬ Delimited sep cs := by
  by_cases hmem : sep ∈ cs
  · have hne : firstField sep cs ≠ cs := fun h => notMem_firstField (h.symm ▸ hmem)
    have hdelimited : Delimited sep cs ↔ (fields sep cs).length ≤ 1 := by
      rw [length_fields_le_one_iff hmem]
      constructor
      · rintro ⟨f, hf, rfl⟩
        exact afterField_append hf
      · intro hrest
        refine ⟨firstField sep cs, notMem_firstField, ?_⟩
        rw [← hrest, firstField_append_afterField hmem]
    rw [lastValue, hdelimited]
    split
    · next h => exact iff_of_false hne (not_not.mpr h)
    · next h => exact iff_of_true rfl h
  · have hnot : ¬ Delimited sep cs := by
      rintro ⟨f, -, rfl⟩
      exact hmem (List.mem_append_right _ (List.mem_singleton_self _))
    rw [lastValue, firstField_of_notMem hmem, ite_self]
    exact iff_of_true rfl hnot

end Fields

/-! ## Lines -/

section Lines

variable {α : Type} [DecidableEq α] (newline : α)

/-- What command substitution makes of an output. -/
def substitute (output : List α) : List α := output.rdropWhile (· = newline)

/-- The text of a here-document with one line that expands to `text`. -/
def hereDocument (text : List α) : List α := text ++ [newline]

/-- The lines that a `read` in the condition of a loop reads with success. -/
def readableLines (input : List α) : List (List α) := (input.splitOn newline).dropLast

/-- What is left for the `read` that ends the loop. -/
def lastLine (input : List α) : List α := (input.splitOn newline).getLastD []

variable {newline}

/-- A newline at the end starts an empty line. -/
theorem splitOn_concat (text : List α) :
    (text ++ [newline]).splitOn newline = text.splitOn newline ++ [[]] := by
  rw [List.splitOn_eq_splitOnP, List.splitOn_eq_splitOnP,
    List.splitOnP_append_cons text [] (by simp), List.splitOnP_nil]

/-- The loop reads every line of a here-document, the last one included. -/
@[simp] theorem readableLines_hereDocument (text : List α) :
    readableLines newline (hereDocument newline text) = text.splitOn newline := by
  rw [readableLines, hereDocument, splitOn_concat, List.dropLast_concat]

/-- Command substitution removes nothing but empty lines at the end. -/
theorem splitOn_substitute (output : List α) :
    ∃ n, output.splitOn newline =
      (substitute newline output).splitOn newline ++ List.replicate n [] := by
  induction output using List.reverseRecOn with
  | nil => exact ⟨0, by simp [substitute]⟩
  | append_singleton output c ih =>
      by_cases hc : c = newline
      · obtain ⟨n, hn⟩ := ih
        refine ⟨n + 1, ?_⟩
        have hdrop : substitute newline (output ++ [c]) = substitute newline output :=
          List.rdropWhile_concat_pos _ _ _ (by simpa using hc)
        rw [hdrop, hc, splitOn_concat, hn, List.append_assoc, List.replicate_succ']
      · refine ⟨0, ?_⟩
        rw [substitute, List.rdropWhile_concat_neg _ _ _ (by simpa using hc), List.replicate_zero,
          List.append_nil]

/-- No line has a newline in it. -/
theorem notMem_of_mem_splitOn {text line : List α} (h : line ∈ text.splitOn newline) :
    newline ∉ line := by
  rw [List.splitOn_eq_splitOnP] at h
  induction text generalizing line with
  | nil =>
      rw [List.splitOnP_nil, List.mem_singleton] at h
      exact h ▸ List.not_mem_nil
  | cons c text ih =>
      obtain ⟨first, rest, hsplit⟩ :=
        List.exists_cons_of_ne_nil (List.splitOnP_ne_nil (· == newline) text)
      rw [List.splitOnP_cons_eq_if_modifyHead, hsplit] at h
      rw [hsplit] at ih
      split at h
      · rcases List.mem_cons.mp h with rfl | h
        · exact List.not_mem_nil
        · exact ih h
      · next hc =>
          rcases List.mem_cons.mp h with rfl | h
          · simp only [List.mem_cons, not_or]
            exact ⟨fun heq => hc (by simp [heq]), ih List.mem_cons_self⟩
          · exact ih (List.mem_cons_of_mem _ h)

end Lines

/-! ## Variables -/

section Variables

variable {ν α : Type} [DecidableEq ν]

/-- The value of a variable and its export attribute. -/
structure Variable (α : Type) where
  value : List α
  exported : Bool

/-- The variables that are set. -/
abbrev Variables (ν α : Type) := ν → Option (Variable α)

namespace Variables

/-- The value of `$name`. -/
def expand (vars : Variables ν α) (name : ν) : List α := ((vars name).map (·.value)).getD []

/-- Whether a variable is set and exported. -/
def isExported (vars : Variables ν α) (name : ν) : Bool := (vars name).any (·.exported)

/-- `name=value`: the export attribute stays as it is. -/
def assign (vars : Variables ν α) (name : ν) (value : List α) : Variables ν α :=
  Function.update vars name (some ⟨value, vars.isExported name⟩)

/-- `export name=value`. -/
def exportAs (vars : Variables ν α) (name : ν) (value : List α) : Variables ν α :=
  Function.update vars name (some ⟨value, true⟩)

/-- `unset name`. -/
def unset (vars : Variables ν α) (name : ν) : Variables ν α := Function.update vars name none

/-- The environment that a command gets: the exported variables. -/
def environment (vars : Variables ν α) (name : ν) : Option (List α) :=
  (vars name).bind fun v => if v.exported then some v.value else none

/-- `IFS=sep read -r name names… <<< line`. -/
def read [DecidableEq α] (vars : Variables ν α) (sep : α) (name : ν) (names : List ν)
    (line : List α) : Variables ν α :=
  ((name :: names).zip (readValues sep names.length line)).foldl
    (fun vars (name, value) => vars.assign name value) vars

variable {vars : Variables ν α} {name other : ν} {value : List α}

/-- An assigned variable keeps its export attribute. -/
@[simp] theorem assign_self : vars.assign name value name = some ⟨value, vars.isExported name⟩ :=
  Function.update_self ..

@[simp] theorem assign_of_ne (h : name ≠ other) : vars.assign other value name = vars name :=
  Function.update_of_ne h ..

/-- An exported variable has the value and the export attribute. -/
@[simp] theorem exportAs_self : vars.exportAs name value name = some ⟨value, true⟩ :=
  Function.update_self ..

@[simp] theorem exportAs_of_ne (h : name ≠ other) : vars.exportAs other value name = vars name :=
  Function.update_of_ne h ..

@[simp] theorem unset_self : vars.unset name name = none := Function.update_self ..

@[simp] theorem unset_of_ne (h : name ≠ other) : vars.unset other name = vars name :=
  Function.update_of_ne h ..

@[simp] theorem expand_assign_self : (vars.assign name value).expand name = value := by
  rw [expand, assign_self]
  rfl

/-- An assignment does not change what the other variables expand to. -/
@[simp] theorem expand_assign_of_ne (h : name ≠ other) :
    (vars.assign other value).expand name = vars.expand name := by
  rw [expand, assign_of_ne h, expand]

/-- An assignment exports nothing. -/
@[simp] theorem isExported_assign :
    (vars.assign other value).isExported name = vars.isExported name := by
  by_cases h : name = other
  · subst h
    simp [isExported]
  · simp [isExported, h]

omit [DecidableEq ν] in
/-- What is not exported is not in the environment. -/
theorem environment_eq_none (h : vars.isExported name = false) : vars.environment name = none := by
  rw [isExported] at h
  rw [environment]
  cases hname : vars name with
  | none => rfl
  | some v =>
      rw [hname, Option.any_some] at h
      simp [h]

@[simp] theorem isSome_assign_self : (vars.assign name value name).isSome := by
  rw [assign_self]
  rfl

/-- An assignment unsets nothing. -/
@[simp] theorem isSome_assign (h : (vars name).isSome) :
    (vars.assign other value name).isSome := by
  by_cases heq : name = other
  · subst heq
    exact isSome_assign_self
  · rw [assign_of_ne heq]
    exact h

/-- `read` with two variables. -/
theorem read_pair [DecidableEq α] (sep : α) (line : List α) :
    vars.read sep name [other] line =
      (vars.assign name (firstField sep line)).assign other
        (lastValue sep (afterField sep line)) := by
  rw [read, List.length_singleton, readValues_succ, readValues_zero]
  rfl

end Variables

end Variables

end PosixShell
