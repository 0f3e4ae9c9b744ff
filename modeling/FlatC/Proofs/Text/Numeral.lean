import FlatC.Text.Numeral
import FlatC.Token.Class

/-!
# Numbers that are written

A natural number is written in digits, and read from its digits it is the
number it was (`Numeral.ofDigits?_text`). An integer may have a sign in front,
and is read with it (`Numeral.ofSigned?_toString`). Either way its text is no
name.
-/

namespace FlatC.Numeral

variable {n : Nat} {k : Int}

/-! ## Digits -/

/-- The numbers of the digits, as characters. -/
theorem toNat_of_isDigit {c : Char} (h : c.isDigit = true) :
    0x30 ≤ c.toNat ∧ c.toNat ≤ 0x39 := by
  simp only [Char.isDigit, Bool.and_eq_true, decide_eq_true_eq] at h
  exact ⟨UInt32.le_iff_toNat_le.mp h.1, UInt32.le_iff_toNat_le.mp h.2⟩

/-- The characters of a number are digits. -/
theorem isDigit_of_mem_text {n : Nat} {c : Char} (h : c ∈ (text n).toList) :
    c.isDigit = true := by
  rw [text, String.toList_ofList] at h
  exact Nat.isDigit_of_mem_toDigits (by decide) (by decide) h

/-- A run of digits is not empty, and has nothing else in it. -/
theorem isDigits_iff {cs : List Char} : isDigits cs = true
    ↔ cs ≠ [] ∧ ∀ c ∈ cs, c.isDigit = true := by
  rw [isDigits, Bool.and_eq_true, Bool.not_eq_true',
    List.isEmpty_eq_false_iff, List.all_eq_true]

/-- The text of a number is a run of digits. -/
theorem isDigits_text (n : Nat) : isDigits (text n).toList = true := by
  refine isDigits_iff.mpr ⟨?_, fun c hc => isDigit_of_mem_text hc⟩
  rw [text, String.toList_ofList]
  exact Nat.toDigits_ne_nil

/-- A number below 2⁶⁴ has at most 20 digits, so it is never too long for a
token. -/
theorem length_text_le {n : Nat} (h : n ≤ maxWord64) :
    (text n).length ≤ 20 := by
  rw [text, String.length_ofList]
  refine (Nat.length_toDigits_le_iff (by decide) (by decide)).mpr ?_
  exact Nat.lt_of_le_of_lt h (by decide)

/-- A digit begins no name. -/
theorem isAlpha_of_isDigit {c : Char} (h : c.isDigit = true) :
    (c.isAlpha || c == '_') = false := by
  have hall : ∀ m < 0x3A, 0x30 ≤ m →
      ((Char.ofNat m).isAlpha || Char.ofNat m == '_') = false := by
    decide +kernel
  obtain ⟨hle, hge⟩ := toNat_of_isDigit h
  rw [← Char.ofNat_toNat c]
  exact hall _ (by omega) hle

/-- A number is no name, as it begins with a digit. -/
theorem isName_of_isNumber {s : String} (h : Token.isNumber s = true) :
    Token.isName s = false := by
  unfold Token.isNumber at h
  unfold Token.isName
  split
  · rfl
  · next c cs hcs =>
    rw [hcs] at h
    exact isAlpha_of_isDigit h

/-- A run of digits is a number. -/
theorem isNumber_of_isDigits {s : String} (h : isDigits s.toList = true) :
    Token.isNumber s = true := by
  obtain ⟨hne, hall⟩ := isDigits_iff.mp h
  obtain ⟨c, cs, hcs⟩ := List.exists_cons_of_ne_nil hne
  rw [Token.isNumber, hcs]
  exact hall c (hcs ▸ List.mem_cons_self)

/-- Digits are no name, so no value of a macro is looked up again. -/
theorem isName_of_isDigits {s : String} (h : isDigits s.toList = true) :
    Token.isName s = false :=
  isName_of_isNumber (isNumber_of_isDigits h)

/-- The text of a number is no name. -/
theorem isName_text (n : Nat) : Token.isName (text n) = false :=
  isName_of_isDigits (isDigits_text n)

/-- The value of some digits is what they are read as by the library. -/
theorem value_map_digitValue (cs : List Char) :
    value 10 (cs.map digitValue) = Nat.ofDigitChars 10 cs 0 := by
  rw [value, List.foldl_map, Nat.ofDigitChars]
  simp only [digitValue, Nat.mul_comm]

/-- **What is read as a number** are digits, one of them at least, and the
number is the one that the library reads. -/
theorem ofDigits?_eq_some_iff {cs : List Char} : ofDigits? cs = some n
    ↔ cs ≠ [] ∧ (∀ c ∈ cs, c.isDigit = true)
      ∧ Nat.ofDigitChars 10 cs 0 = n := by
  rw [ofDigits?, Option.ite_none_right_eq_some, isDigits_iff,
    value_map_digitValue, Option.some_inj, and_assoc]

/-- **A number is read from its text**, however large it is. -/
theorem ofDigits?_text (n : Nat) : ofDigits? (text n).toList = some n := by
  rw [ofDigits?, if_pos (isDigits_text n), value_map_digitValue, text,
    String.toList_ofList, Nat.ofDigitChars_ten_toDigits]

/-! ## Signs -/

/-- The decimal text of an integer is the usual one, with a sign in front of
what is negative. -/
theorem signedText_eq_toString (k : Int) : signedText k = toString k := by
  cases k <;> rfl

/-- The text of a negative number begins with its sign. -/
theorem toList_toString_negSucc (n : Nat) :
    (toString (Int.negSucc n)).toList = '-' :: (text (n + 1)).toList := by
  rw [← signedText_eq_toString, signedText, String.toList_append]
  rfl

/-- The text of an integer is no name: neither a digit nor the sign begins
one. -/
theorem isName_toString (k : Int) : Token.isName (toString k) = false := by
  cases k with
  | ofNat n => exact isName_text n
  | negSucc n =>
    rw [Token.isName, toList_toString_negSucc]
    rfl

/-- The integer that a text of digits writes, with or without a sign in front.
A `+` in front is not read. -/
def ofSigned? (cs : List Char) : Option Int :=
  if cs.head? = some '-' then (ofDigits? cs.tail).map fun n => -n
  else (ofDigits? cs).map Int.ofNat

/-- **An integer is read from its text**, so integers with one text are one. -/
theorem ofSigned?_toString (k : Int) :
    ofSigned? (toString k).toList = some k := by
  cases k with
  | ofNat n =>
    have hhead : (text n).toList.head? ≠ some '-' := fun h =>
      Bool.false_ne_true (isDigit_of_mem_text (List.mem_of_head? h))
    show ofSigned? (text n).toList = _
    rw [ofSigned?, if_neg hhead, ofDigits?_text]
    rfl
  | negSucc n =>
    rw [toList_toString_negSucc, ofSigned?, List.head?_cons, if_pos rfl,
      List.tail_cons, ofDigits?_text]
    rfl

/-- **What is read from digits is the number whose text they are.** A negative
one has a sign in its text and is not read so. -/
theorem eq_of_ofDigits?_toString (h : ofDigits? (toString k).toList = some n) :
    k = n := by
  cases k with
  | ofNat m =>
    exact congrArg _ (Option.some.inj ((ofDigits?_text m).symm.trans h))
  | negSucc m =>
    rw [toList_toString_negSucc] at h
    cases h

end FlatC.Numeral
