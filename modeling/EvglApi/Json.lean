/-
# JSON texts of flat objects

The compact text of an object whose members are strings and integers, as `serde_json`
writes it: members in their order, no white space, and in strings the escapes of the
control characters, the quotation mark and the reverse solidus.

`Delimited` says that the texts of a kind can be told apart whatever comes after them.
The texts of strings, integers and members are delimited, so that the bytes of an object
determine its members (`toVec_injective`).
-/
import EvglApi.Numerals

open Numerals

namespace Json

/-! ## Texts -/

def quotationMark : Char := Char.ofNat 0x22
def reverseSolidus : Char := Char.ofNat 0x5C
def beginObject : Char := Char.ofNat 0x7B
def endObject : Char := Char.ofNat 0x7D
def nameSeparator : Char := ':'
def valueSeparator : Char := ','

/-- What comes after the reverse solidus in the escape of a character; `none` if it is
not escaped. -/
def escapeCode (n : ℕ) : Option (List Char) :=
  if n = 0x22 then some [quotationMark]
  else if n = 0x5C then some [reverseSolidus]
  else if n = 0x08 then some ['b']
  else if n = 0x09 then some ['t']
  else if n = 0x0A then some ['n']
  else if n = 0x0C then some ['f']
  else if n = 0x0D then some ['r']
  else if n < 0x20 then some ['u', '0', '0', (n / 16).digitChar, (n % 16).digitChar]
  else none

/-- The text of a character within a string. -/
def escape (c : Char) : List Char :=
  match escapeCode c.toNat with
  | some code => reverseSolidus :: code
  | none => [c]

/-- The text of a string. -/
def quote (cs : List Char) : List Char :=
  quotationMark :: (cs.flatMap escape ++ [quotationMark])

/-- The text of an integer. -/
def integerText : ℤ → List Char
  | .ofNat n => Nat.toDigits 10 n
  | .negSucc n => '-' :: Nat.toDigits 10 (n + 1)

/-- The value of a member. -/
inductive Scalar
  | string (s : String)
  | integer (n : ℤ)
  deriving DecidableEq

def Scalar.text : Scalar → List Char
  | .string s => quote s.toList
  | .integer n => integerText n

/-- The text of a member. -/
def memberText (m : String × Scalar) : List Char :=
  quote m.1.toList ++ nameSeparator :: m.2.text

/-- The text of the members of an object and of its end. -/
def membersText : List (String × Scalar) → List Char
  | [] => [endObject]
  | [m] => memberText m ++ [endObject]
  | m :: ms => memberText m ++ valueSeparator :: membersText ms

/-- The text of an object. -/
def objectText (ms : List (String × Scalar)) : List Char := beginObject :: membersText ms

/-- The bytes of a text in UTF-8. -/
def utf8 (text : List Char) : List UInt8 := (String.ofList text).toByteArray.data.toList

/-- The bytes of an object (`serde_json::to_vec`). -/
def toVec (ms : List (String × Scalar)) : List UInt8 := utf8 (objectText ms)

/-! ## Delimited texts -/

/-- Of two texts with anything after them that `follows` a text, equality tells the values
and the rests. -/
def Delimited {α : Type} (follows : List Char → Prop) (text : α → List Char) : Prop :=
  ∀ a a' r r', follows r → follows r' → text a ++ r = text a' ++ r' → a = a' ∧ r = r'

/-- The numbers of the characters that are escaped. -/
def escaped : List ℕ := 0x22 :: 0x5C :: List.range 0x20

theorem mem_escaped {n : ℕ} {code : List Char} (h : escapeCode n = some code) : n ∈ escaped := by
  unfold escapeCode at h
  unfold escaped
  rw [List.mem_cons, List.mem_cons, List.mem_range]
  split_ifs at h
  all_goals omega

/-- No code begins another one. -/
theorem escapeCode_starts {m n : ℕ} {code code' : List Char} (hm : escapeCode m = some code)
    (hn : escapeCode n = some code') (h : code <+: code') : m = n := by
  have hall : ∀ m ∈ escaped, ∀ n ∈ escaped,
      (escapeCode m).getD [] <+: (escapeCode n).getD [] → m = n := by
    decide +kernel
  refine hall m (mem_escaped hm) n (mem_escaped hn) ?_
  rw [hm, hn]
  exact h

theorem escapeCode_ne_none {c : Char} (h : c = quotationMark ∨ c = reverseSolidus) :
    escapeCode c.toNat ≠ none := by
  rcases h with rfl | rfl
  · decide
  · decide

/-- The characters of a string can be told apart. -/
theorem delimited_escape : Delimited (fun _ => True) escape := by
  intro c c' r r' _ _ h
  unfold escape at h
  cases hc : escapeCode c.toNat with
  | none =>
      cases hc' : escapeCode c'.toNat with
      | none =>
          rw [hc, hc'] at h
          exact List.cons.inj h
      | some code' =>
          rw [hc, hc'] at h
          -- the letter that stands for itself is not the backslash of an escape
          exact absurd hc (escapeCode_ne_none (Or.inr (List.cons.inj h).1))
  | some code =>
      cases hc' : escapeCode c'.toNat with
      | none =>
          rw [hc, hc'] at h
          exact absurd hc' (escapeCode_ne_none (Or.inr (List.cons.inj h).1.symm))
      | some code' =>
          rw [hc, hc'] at h
          -- two escapes: no code begins another one
          have htail : code ++ r = code' ++ r' := (List.cons.inj h).2
          have hsame : c = c' := by
            refine Char.toNat_inj.mp ?_
            rcases List.append_eq_append_iff.mp htail with ⟨m, rfl, -⟩ | ⟨m, rfl, -⟩
            · exact escapeCode_starts hc hc' (List.prefix_append _ _)
            · exact (escapeCode_starts hc' hc (List.prefix_append _ _)).symm
          subst hsame
          rw [hc] at hc'
          obtain rfl := Option.some.inj hc'
          exact ⟨rfl, List.append_cancel_left htail⟩

/-- The text of a character does not begin with a quotation mark. -/
theorem quotationMark_ne_head {c : Char} {r r' : List Char} :
    quotationMark :: r ≠ escape c ++ r' := by
  intro h
  unfold escape at h
  cases hc : escapeCode c.toNat with
  | none =>
      rw [hc] at h
      exact escapeCode_ne_none (Or.inl (List.cons.inj h).1.symm) hc
  | some code =>
      rw [hc] at h
      exact absurd (List.cons.inj h).1 (by decide)

/-- Strings are delimited by their quotation marks. -/
theorem delimited_quote : Delimited (fun _ => True) quote := by
  intro cs cs' r r' _ _ h
  have hbody : cs.flatMap escape ++ quotationMark :: r =
      cs'.flatMap escape ++ quotationMark :: r' := by
    have htail := (List.cons.inj h).2
    change (cs.flatMap escape ++ [quotationMark]) ++ r =
      (cs'.flatMap escape ++ [quotationMark]) ++ r' at htail
    rwa [List.append_assoc, List.append_assoc] at htail
  clear h
  induction cs generalizing cs' with
  | nil =>
      cases cs' with
      | nil => exact ⟨rfl, (List.cons.inj hbody).2⟩
      | cons c' cs' =>
          rw [List.flatMap_cons, List.append_assoc] at hbody
          exact absurd hbody quotationMark_ne_head
  | cons c cs ih =>
      rw [List.flatMap_cons, List.append_assoc] at hbody
      cases cs' with
      | nil => exact absurd hbody.symm quotationMark_ne_head
      | cons c' cs' =>
          rw [List.flatMap_cons, List.append_assoc] at hbody
          obtain ⟨rfl, hrest⟩ := delimited_escape c c' _ _ trivial trivial hbody
          obtain ⟨rfl, hr⟩ := ih cs' hrest
          exact ⟨rfl, hr⟩

/-- A character of the text of an integer. -/
def isNumeral (c : Char) : Bool := c = '-' || c.isDigit

/-- The text does not go on with a character of an integer. -/
def NoNumeral (r : List Char) : Prop := ∀ c ∈ r.head?, isNumeral c = false

theorem isDigit_of_mem_toDigits {n : ℕ} {c : Char} (h : c ∈ Nat.toDigits 10 n) :
    c.isDigit = true := by
  obtain ⟨d, hd, rfl⟩ := exists_of_mem_toDigits (by decide) h
  have hall : ∀ d' : Fin 10, d'.val.digitChar.isDigit = true := by decide
  exact hall ⟨d, hd⟩

theorem isNumeral_of_mem {n : ℤ} {c : Char} (h : c ∈ integerText n) : isNumeral c = true := by
  cases n with
  | ofNat n => exact Bool.or_eq_true_iff.mpr (Or.inr (isDigit_of_mem_toDigits h))
  | negSucc n =>
      rcases List.mem_cons.mp h with rfl | h
      · rfl
      · exact Bool.or_eq_true_iff.mpr (Or.inr (isDigit_of_mem_toDigits h))

theorem minus_notMem_toDigits (n : ℕ) : '-' ∉ Nat.toDigits 10 n := fun h =>
  absurd (isDigit_of_mem_toDigits h) (by decide)

/-- An integer is determined by its text. -/
theorem integerText_injective : Function.Injective integerText := by
  have hdigits : Function.Injective (Nat.toDigits 10) := toDigits_injective (by decide) (by decide)
  intro m n h
  cases m with
  | ofNat m =>
      cases n with
      | ofNat n => exact congrArg Int.ofNat (hdigits h)
      | negSucc n =>
          change Nat.toDigits 10 m = '-' :: _ at h
          exact absurd (h ▸ List.mem_cons_self) (minus_notMem_toDigits m)
  | negSucc m =>
      cases n with
      | ofNat n =>
          change '-' :: _ = Nat.toDigits 10 n at h
          exact absurd (h ▸ List.mem_cons_self) (minus_notMem_toDigits n)
      | negSucc n => exact congrArg Int.negSucc (Nat.succ.inj (hdigits (List.cons.inj h).2))

/-- The numerals at the beginning of a text. -/
theorem takeWhile_integerText {n : ℤ} {r : List Char} (hr : NoNumeral r) :
    (integerText n ++ r).takeWhile isNumeral = integerText n := by
  rw [List.takeWhile_append_of_pos fun c hc => isNumeral_of_mem hc]
  cases r with
  | nil => rw [List.takeWhile_nil, List.append_nil]
  | cons c r =>
      have hc : ¬ isNumeral c = true := Bool.eq_false_iff.mp (hr c rfl)
      rw [List.takeWhile_cons_of_neg hc, List.append_nil]

/-- Integers are delimited by what is no numeral. -/
theorem delimited_integer : Delimited NoNumeral integerText := by
  intro m n r r' hr hr' h
  have htext : integerText m = integerText n := by
    rw [← takeWhile_integerText hr, h, takeWhile_integerText hr']
  obtain rfl := integerText_injective htext
  exact ⟨rfl, List.append_cancel_left h⟩

/-- The text of an integer begins with a numeral. -/
theorem exists_head_integerText (n : ℤ) : ∃ c cs, integerText n = c :: cs ∧ isNumeral c = true := by
  have hne : integerText n ≠ [] := by
    cases n with
    | ofNat n => exact List.ne_nil_of_length_pos Nat.length_toDigits_pos
    | negSucc n => exact List.cons_ne_nil _ _
  obtain ⟨c, cs, htext⟩ := List.exists_cons_of_ne_nil hne
  exact ⟨c, cs, htext, isNumeral_of_mem (htext ▸ List.mem_cons_self)⟩

theorem quote_ne_integerText {cs : List Char} {n : ℤ} {r r' : List Char} :
    quote cs ++ r ≠ integerText n ++ r' := by
  intro h
  obtain ⟨c, ds, htext, hc⟩ := exists_head_integerText n
  rw [htext] at h
  obtain rfl : quotationMark = c := (List.cons.inj h).1
  exact absurd hc (by decide)

/-- Values are delimited by what is no numeral. -/
theorem delimited_scalar : Delimited NoNumeral Scalar.text := by
  intro v v' r r' hr hr' h
  cases v with
  | string s =>
      cases v' with
      | string s' =>
          obtain ⟨hs, hrest⟩ := delimited_quote _ _ r r' trivial trivial h
          exact ⟨congrArg Scalar.string (String.toList_inj.mp hs), hrest⟩
      | integer n => exact absurd h quote_ne_integerText
  | integer n =>
      cases v' with
      | string s' => exact absurd h.symm quote_ne_integerText
      | integer n' =>
          obtain ⟨rfl, hrest⟩ := delimited_integer n n' r r' hr hr' h
          exact ⟨rfl, hrest⟩

/-- Members are delimited by what is no numeral. -/
theorem delimited_member : Delimited NoNumeral memberText := by
  rintro ⟨name, v⟩ ⟨name', v'⟩ r r' hr hr' h
  unfold memberText at h
  rw [List.append_assoc, List.append_assoc] at h
  obtain ⟨hname, hvalue⟩ := delimited_quote _ _ _ _ trivial trivial h
  obtain ⟨rfl, hrest⟩ := delimited_scalar v v' r r' hr hr' (List.cons.inj hvalue).2
  obtain rfl := String.toList_inj.mp hname
  exact ⟨rfl, hrest⟩

/-! ## Objects -/

theorem noNumeral_cons {c : Char} {r : List Char} (h : isNumeral c = false) :
    NoNumeral (c :: r) := by
  intro c' hc'
  obtain rfl := Option.some.inj hc'
  exact h

/-- The text of the members, taken apart. -/
theorem membersText_cons (m : String × Scalar) (ms : List (String × Scalar)) :
    ∃ c r, membersText (m :: ms) = memberText m ++ c :: r ∧ isNumeral c = false ∧
      ((ms = [] ∧ c = endObject ∧ r = []) ∨
        (ms ≠ [] ∧ c = valueSeparator ∧ r = membersText ms)) := by
  cases ms with
  | nil => exact ⟨endObject, [], rfl, by decide, Or.inl ⟨rfl, rfl, rfl⟩⟩
  | cons m' ms => exact ⟨valueSeparator, _, rfl, by decide, Or.inr ⟨List.cons_ne_nil _ _, rfl, rfl⟩⟩

theorem endObject_ne_memberText {m : String × Scalar} {r : List Char} :
    [endObject] ≠ memberText m ++ r := by
  intro h
  exact absurd (List.cons.inj h).1 (by decide)

/-- The members are determined by their text. -/
theorem membersText_injective : Function.Injective membersText := by
  intro ms
  induction ms with
  | nil =>
      intro ms' h
      cases ms' with
      | nil => rfl
      | cons m' ms' =>
          obtain ⟨c, r, htext, -⟩ := membersText_cons m' ms'
          rw [htext] at h
          exact absurd h endObject_ne_memberText
  | cons m ms ih =>
      intro ms' h
      obtain ⟨c, r, htext, hc, hcases⟩ := membersText_cons m ms
      cases ms' with
      | nil =>
          rw [htext] at h
          exact absurd h.symm endObject_ne_memberText
      | cons m' ms' =>
          obtain ⟨c', r', htext', hc', hcases'⟩ := membersText_cons m' ms'
          rw [htext, htext'] at h
          obtain ⟨rfl, hrest⟩ :=
            delimited_member m m' _ _ (noNumeral_cons hc) (noNumeral_cons hc') h
          obtain ⟨rfl, rfl⟩ := List.cons.inj hrest
          -- after the first member there is a brace or a comma, in both texts the same
          rcases hcases with ⟨rfl, rfl, rfl⟩ | ⟨-, rfl, rfl⟩
          · rcases hcases' with ⟨rfl, -, -⟩ | ⟨-, hend, -⟩
            · rfl
            · exact absurd hend (by decide)
          · rcases hcases' with ⟨-, hend, -⟩ | ⟨-, -, hrest⟩
            · exact absurd hend (by decide)
            · rw [ih hrest]

theorem utf8_injective : Function.Injective utf8 := by
  intro text text' h
  have hbytes := ByteArray.ext (Array.toList_inj.mp h)
  exact String.ofList_injective (String.toByteArray_inj.mp hbytes)

/-- The members of an object are determined by its bytes. -/
theorem toVec_injective : Function.Injective toVec := fun _ _ h =>
  membersText_injective (List.cons.inj (utf8_injective h)).2

example : String.ofList (objectText [("id", .string (String.ofList ['a', quotationMark])),
    ("n", .integer (-7))]) = String.ofList (beginObject :: quote ['i', 'd'] ++ nameSeparator ::
      quotationMark :: 'a' :: reverseSolidus :: quotationMark :: quotationMark :: valueSeparator ::
        quote ['n'] ++ nameSeparator :: '-' :: '7' :: [endObject]) := by decide

end Json
