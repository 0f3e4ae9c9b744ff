import Mathlib.Data.Nat.Digits.Lemmas
import FlatC.Workspace.Basic
import FlatC.Proofs.Text.Numeral

/-!
# Definitions made one after another

A definition is taken in or it is not, and that hangs on its name and its
value alone (`Macros.fst_define`), not on what has been defined before. So of
many definitions made one after another, what a name stands for is told by
the last one of this name that was taken in (`Macros.find?_defineAll`).

What is stored for it are digits, and nothing else is ever stored. For a
hexadecimal value they are the decimal form of its number, which is what a
literal in the source comes to as well. The two are written alike because
both stop at the largest 64-bit word: an accumulator that stays there once it
is there holds the smaller of that word and the exact number, so the number
can be told without the accumulator, from all digits at once
(`Hex.decimalText_eq`).
-/

namespace FlatC

/-! ## Hexadecimal numbers -/

namespace Numeral

/-- **The positional value** of some digits, the least significant first, is
the one the library has. The digits are read from the most significant on, and
the proof goes along as each of them is taken in. -/
theorem value_eq_ofDigits (base : Nat) (digits : List Nat) :
    value base digits = Nat.ofDigits base digits.reverse := by
  rw [Nat.ofDigits_eq_foldr, List.foldr_reverse, value]
  simp only [Nat.cast_id, Nat.add_comm, Nat.mul_comm]

end Numeral

namespace Hex

variable {cs behind : List Char}

/-- **The hexadecimal digits**, the smallest one first. What a digit stands
for is its place in this list. -/
def digits : List Char :=
  ['0', '1', '2', '3', '4', '5', '6', '7', '8', '9', 'a', 'b', 'c', 'd', 'e',
    'f']

/-- A hexadecimal digit, with a small letter or a capital one. -/
def Digit (c : Char) : Prop := c.toLower ∈ digits

instance : DecidablePred Digit :=
  fun c => inferInstanceAs (Decidable (c.toLower ∈ digits))

/-- What a hexadecimal digit stands for, in whichever case it is written. -/
def digitValue (c : Char) : Nat := digits.idxOf c.toLower

/-- **The number a text begins with**, exactly, in hexadecimal digits; it is 0
if the text begins with none. There is no bound on it, so it tells whether the
number that was read has been cut short. -/
def leading (cs : List Char) : Nat :=
  Nat.ofDigits 16 ((cs.takeWhile fun c => Digit c).map digitValue).reverse

/-- **Digits are read by the alphabet**: the three ranges of characters that
the reading has are the digits in the list, with the values of their places. -/
theorem hexValue?_eq (c : Char) : Numeral.hexValue? c
    = if Digit c then some (digitValue c) else none := by
  have hsmall : ∀ n < 0x67, Numeral.hexValue? (Char.ofNat n)
      = if Digit (Char.ofNat n) then some (digitValue (Char.ofNat n))
        else none := by
    decide +kernel
  by_cases hc : c.toNat < 0x67
  · have := hsmall c.toNat hc
    rwa [Char.ofNat_toNat] at this
  · -- past `f` there are neither digits nor capital letters
    have hle : ∀ d : Char, d.toNat < 0x67 → ¬ c ≤ d := fun d hd hcd =>
      hc (Nat.lt_of_le_of_lt (UInt32.le_iff_toNat_le.mp hcd) hd)
    have hlower : c.toLower = c := dif_neg fun h => hle 'Z' (by decide) h.2
    have hall : (digits.all fun d => d.toNat < 0x67) = true := by decide
    have hnot : ¬ Digit c := fun hdigit =>
      hc (of_decide_eq_true (List.all_eq_true.mp hall c (hlower ▸ hdigit)))
    rw [if_neg hnot, Numeral.hexValue?,
      if_neg (fun h => hle '9' (by decide) h.2),
      if_neg (fun h => hle 'f' (by decide) h.2),
      if_neg (fun h => hle 'F' (by decide) h.2)]

/-- What the reading takes for a digit is one. -/
theorem isDigit_iff {c : Char} : isDigit c = true ↔ Digit c := by
  rw [isDigit, hexValue?_eq]
  split
  · next h => exact iff_of_true rfl h
  · next h => exact iff_of_false Bool.false_ne_true h

/-- The digits that are read are those that the text begins with, up to the
first character that is none. -/
theorem hexRun_eq (cs : List Char) : Numeral.hexRun cs
    = (cs.takeWhile fun c => Digit c).map digitValue := by
  induction cs with
  | nil => rfl
  | cons c cs ih =>
    rw [Numeral.hexRun, hexValue?_eq]
    by_cases hc : Digit c
    · simp [hc, ih]
    · simp [hc]

/-- **A number is written as it is**, up to the largest 64-bit word, and as
that word beyond. The digits that would lead over it are read all the same, so
the length of a literal does not matter. -/
theorem decimalText_eq (cs : List Char) :
    decimalText cs = Numeral.text (min Numeral.maxWord64 (leading cs)) := by
  rw [decimalText, Numeral.capped_eq_min _ _ _ (by decide),
    Numeral.value_eq_ofDigits, hexRun_eq, leading]

/-- What has a mark begins with a zero and an `x`, in either case. -/
theorem afterMark?_eq_some_iff : afterMark? cs = some behind
    ↔ cs = '0' :: 'x' :: behind ∨ cs = '0' :: 'X' :: behind := by
  constructor
  · unfold afterMark?
    split
    · rintro ⟨⟩
      exact .inl rfl
    · rintro ⟨⟩
      exact .inr rfl
    · rintro ⟨⟩
  · rintro (rfl | rfl) <;> rfl

/-- **The decimal form of a literal** is that of the number behind its mark,
whatever follows the number. With no digit behind the mark the number is 0. -/
theorem toDecimal?_of_afterMark? {text : String}
    (h : afterMark? text.toList = some behind) : toDecimal? text
      = some (Numeral.text (min Numeral.maxWord64 (leading behind))) := by
  rw [toDecimal?, h, Option.map_some, decimalText_eq]

/-- Digits behind a mark and nothing else: this is what a value is tested for,
and is more than a literal in the source needs. -/
theorem all_isDigit_iff : (!behind.isEmpty && behind.all isDigit) = true
    ↔ behind ≠ [] ∧ ∀ c ∈ behind, Digit c := by
  rw [Bool.and_eq_true, Bool.not_eq_true', List.isEmpty_eq_false_iff,
    List.all_eq_true]
  exact and_congr_right fun _ => forall₂_congr fun _ _ => isDigit_iff

/-- The mark has a letter, so no text is both decimal digits and a hexadecimal
literal. -/
theorem isDigits_of_afterMark? (h : afterMark? cs = some behind) :
    Numeral.isDigits cs = false := by
  rcases afterMark?_eq_some_iff.mp h with rfl | rfl <;> rfl

end Hex

/-! ## Tables -/

/-- An entry of a table in which a name has been bound is the new one, or was
there before. -/
theorem Bindings.mem_entries_insert {α : Type} {b : Bindings α} {name : String}
    {value : α} {e : String × α} (h : e ∈ (b.insert name value).entries) :
    e = (name, value) ∨ e ∈ b.entries := by
  obtain ⟨entries⟩ := b
  change e ∈ insertEntry name value entries at h
  change _ ∨ e ∈ entries
  induction entries with
  | nil => exact .inl (List.mem_singleton.mp h)
  | cons entry rest ih =>
    obtain ⟨n, v⟩ := entry
    rw [insertEntry] at h
    split at h
    · next hn =>
      rcases List.mem_cons.mp h with h | h
      · exact .inl (hn ▸ h)
      · exact .inr (List.mem_cons_of_mem _ h)
    · rcases List.mem_cons.mp h with h | h
      · exact .inr (h ▸ List.mem_cons_self)
      · exact (ih h).imp_right (List.mem_cons_of_mem _)

/-- **The last of its kind** in a list, told by places: it is of that kind,
and nothing behind it is. To search from the end is a search in the reversed
list. -/
theorem find?_reverse_eq_some_iff {α : Type} {p : α → Bool} {xs : List α}
    {x : α} : xs.reverse.find? p = some x
      ↔ ∃ i : Nat, xs[i]? = some x ∧ p x = true
        ∧ ∀ (j : Nat) (y : α), i < j → xs[j]? = some y → p y = false := by
  rw [List.find?_eq_some_iff_append]
  constructor
  · rintro ⟨hx, as, bs, hxs, has⟩
    have hxs : xs = bs.reverse ++ x :: as.reverse := by
      rw [← List.reverse_reverse xs, hxs]
      simp
    refine ⟨bs.length, by simp [hxs], hx, fun j y hj hy => ?_⟩
    obtain ⟨k, rfl⟩ := Nat.exists_eq_add_of_lt hj
    rw [hxs, List.getElem?_append_right (by simp; omega),
      List.length_reverse, Nat.add_assoc, Nat.add_sub_cancel_left,
      List.getElem?_cons_succ] at hy
    have hmem : y ∈ as := List.mem_reverse.mp (List.mem_of_getElem? hy)
    exact (Bool.not_eq_true' _).mp (has y hmem)
  · rintro ⟨i, hi, hx, hlast⟩
    obtain ⟨hlt, rfl⟩ := List.getElem?_eq_some_iff.mp hi
    refine ⟨hx, (xs.drop (i + 1)).reverse, (xs.take i).reverse, ?_,
      fun y hy => ?_⟩
    · have hxs : xs = xs.take i ++ xs[i] :: xs.drop (i + 1) := by
        rw [List.getElem_cons_drop, List.take_append_drop]
      refine (congrArg List.reverse hxs).trans ?_
      simp
    · obtain ⟨k, hk⟩ := List.mem_iff_getElem?.mp (List.mem_reverse.mp hy)
      rw [List.getElem?_drop] at hk
      rw [hlast (i + 1 + k) y (by omega) hk]
      rfl

/-! ## Definitions -/

namespace Macros

variable {m : Macros} {name value text : String}
variable {defs : List (String × String)}

/-- **What is stored for a value**: digits are stored as they are written, and
a hexadecimal literal without a suffix as the decimal form of its number.
Nothing is stored for any other value, such as a sum, a name or a number with
a suffix. -/
inductive Replaces (value : String) : String → Prop
  /-- The value is in decimal. -/
  | decimal (hne : value ≠ "") (hall : ∀ c ∈ value.toList, c.isDigit = true) :
      Replaces value value
  /-- The value is in hexadecimal, behind one of the two marks. -/
  | hexadecimal {behind : List Char}
      (hmark : value.toList = '0' :: 'x' :: behind
        ∨ value.toList = '0' :: 'X' :: behind)
      (hne : behind ≠ []) (hall : ∀ c ∈ behind, Hex.Digit c) :
      Replaces value
        (Numeral.text (min Numeral.maxWord64 (Hex.leading behind)))

/-- A text is made of digits if it has one and nothing else. -/
theorem isDigits_toList_iff : Numeral.isDigits value.toList = true
    ↔ value ≠ "" ∧ ∀ c ∈ value.toList, c.isDigit = true := by
  rw [Numeral.isDigits_iff, ne_eq, String.toList_eq_nil_iff]

/-- **What replaces a hexadecimal value** is the decimal form it has as a
literal, if there are digits behind its mark and nothing else. A suffix, which
a literal in the source may have, is thus refused in a value. -/
theorem replacement?_of_afterMark? {behind : List Char}
    (h : Hex.afterMark? value.toList = some behind) : replacement? value
      = if (!behind.isEmpty && behind.all Hex.isDigit) = true then
          Hex.toDecimal? value
        else none := by
  have hletter := Hex.isDigits_of_afterMark? h
  rw [replacement?, hletter, if_neg Bool.false_ne_true, h, Hex.toDecimal?, h]
  rfl

/-- **What replaces another value** is the value, if it is made of digits.
Zeros in front are kept, as nothing is calculated here. -/
theorem replacement?_of_afterMark?_eq_none
    (h : Hex.afterMark? value.toList = none) : replacement? value
      = if Numeral.isDigits value.toList = true then some value else none := by
  rw [replacement?, h]

/-- **What replaces a value** is what is stored for it. The two kinds of
values do not overlap, so the order in which they are tried does not matter. -/
theorem replacement?_eq_some_iff :
    replacement? value = some text ↔ Replaces value text := by
  cases hmark : Hex.afterMark? value.toList with
  | none =>
    rw [replacement?_of_afterMark?_eq_none hmark,
      Option.ite_none_right_eq_some, isDigits_toList_iff, Option.some_inj]
    constructor
    · rintro ⟨⟨hne, hall⟩, rfl⟩
      exact .decimal hne hall
    · intro h
      cases h with
      | decimal hne hall => exact ⟨⟨hne, hall⟩, rfl⟩
      | hexadecimal hmark' =>
        rw [Hex.afterMark?_eq_some_iff.mpr hmark'] at hmark
        cases hmark
  | some behind =>
    rw [replacement?_of_afterMark? hmark, Option.ite_none_right_eq_some,
      Hex.all_isDigit_iff, Hex.toDecimal?_of_afterMark? hmark, Option.some_inj]
    constructor
    · rintro ⟨⟨hne, hall⟩, rfl⟩
      exact .hexadecimal (Hex.afterMark?_eq_some_iff.mp hmark) hne hall
    · intro h
      cases h with
      | decimal hne hall =>
        have hletter := Hex.isDigits_of_afterMark? hmark
        rw [isDigits_toList_iff.mpr ⟨hne, hall⟩] at hletter
        cases hletter
      | hexadecimal hmark' hne hall =>
        rw [Hex.afterMark?_eq_some_iff.mpr hmark'] at hmark
        cases hmark
        exact ⟨⟨hne, hall⟩, rfl⟩

/-- **What is stored are digits**, one of them at least. So a value is a token
of its own wherever it is put, and is never read as a name again. -/
theorem Replaces.digits (h : Replaces value text) :
    text ≠ "" ∧ ∀ c ∈ text.toList, c.isDigit = true := by
  cases h with
  | decimal hne hall => exact ⟨hne, hall⟩
  | hexadecimal => exact isDigits_toList_iff.mp (Numeral.isDigits_text _)

/-- Whether a definition is taken in, whatever has been defined before: it has
a name, and something is stored for its value. -/
def Accepted (d : String × String) : Bool :=
  !d.1.isEmpty && (replacement? d.2).isSome

/-- **One definition**: it changes nothing, or what is stored for its value is
bound to its name. The answer tells which of the two. -/
theorem define_cases (m : Macros) (d : String × String) :
    Accepted d = false ∧ m.define d.1 d.2 = (false, m)
      ∨ ∃ text, Accepted d = true ∧ replacement? d.2 = some text
        ∧ m.define d.1 d.2 = (true, ⟨m.bindings.insert d.1 text⟩) := by
  rw [define, Accepted]
  cases d.1.isEmpty with
  | true => exact .inl ⟨rfl, rfl⟩
  | false =>
    cases replacement? d.2 with
    | none => exact .inl ⟨rfl, rfl⟩
    | some text => exact .inr ⟨text, rfl, rfl, rfl⟩

/-- The answer to a definition is whether it is taken in. -/
theorem fst_define (m : Macros) (d : String × String) :
    (m.define d.1 d.2).1 = Accepted d := by
  rcases define_cases m d with ⟨hd, h⟩ | ⟨text, hd, -, h⟩
  · rw [h, hd]
  · rw [h, hd]

/-- A definition is taken in if it has a name, and a value that something is
stored for. -/
theorem accepted_iff : Accepted (name, value) = true
    ↔ name ≠ "" ∧ (replacement? value).isSome = true := by
  rw [Accepted, Bool.and_eq_true, Bool.not_eq_true',
    String.isEmpty_eq_false_iff]

/-- **What names stand for after a definition.** It is the same as before but
for the name that is defined, if the definition is taken in. One that is not
leaves an earlier one of the name as it is. -/
theorem find?_define (m : Macros) (d : String × String) (name : String) :
    (m.define d.1 d.2).2.find? name
      = if (d.1 == name && Accepted d) = true then replacement? d.2
        else m.find? name := by
  rcases define_cases m d with ⟨hd, h⟩ | ⟨text, hd, htext, h⟩
  · rw [h, hd, Bool.and_false, if_neg Bool.false_ne_true]
  · rw [h, hd, Bool.and_true, htext, find?, Bindings.find?_insert]
    exact if_congr (by rw [beq_iff_eq, eq_comm]) rfl rfl

/-- **Definitions made one after another**: which of them are taken in, and
the macros there are then. Later ones go on after one that is refused. -/
def defineAll (m : Macros) : List (String × String) → List Bool × Macros
  | [] => ([], m)
  | (name, value) :: defs =>
    let (taken, m) := m.define name value
    let (answers, m) := m.defineAll defs
    (taken :: answers, m)

/-- Whether a definition is taken in does not hang on those before it. -/
theorem fst_defineAll (m : Macros) (defs : List (String × String)) :
    (m.defineAll defs).1 = defs.map Accepted := by
  induction defs generalizing m with
  | nil => rfl
  | cons d defs ih =>
    rw [List.map_cons, ← fst_define m d, ← ih]
    rfl

/-- Definitions are made one batch after another. -/
theorem snd_defineAll_append (m : Macros)
    (before defs : List (String × String)) :
    (m.defineAll (before ++ defs)).2
      = ((m.defineAll before).2.defineAll defs).2 := by
  induction before generalizing m with
  | nil => rfl
  | cons d before ih => exact ih _

/-- **What a name stands for** is what is stored for the last definition of
this name that was taken in. The induction takes definitions off the end, as
the last one is what decides. -/
theorem find?_defineAll (m : Macros) (defs : List (String × String))
    (name : String) : (m.defineAll defs).2.find? name
      = match defs.reverse.find? fun d => d.1 == name && Accepted d with
        | some d => replacement? d.2
        | none => m.find? name := by
  induction defs generalizing m with
  | nil => rfl
  | cons d defs ih =>
    -- a later definition of the name counts if there is one, else this one
    show ((m.define d.1 d.2).2.defineAll defs).2.find? name = _
    rw [ih, List.reverse_cons, List.find?_append, find?_define]
    cases defs.reverse.find? fun d => d.1 == name && Accepted d with
    | some d' => rfl
    | none =>
      rw [Option.none_or, List.find?_singleton]
      dsimp only
      split <;> rfl

/-- **A name that stands for something** has a last definition that was taken
in, and stands for what is stored for its value. -/
theorem find?_defineAll_eq_some_iff :
    (empty.defineAll defs).2.find? name = some text
      ↔ ∃ (i : Nat) (value : String), defs[i]? = some (name, value)
        ∧ Accepted (name, value) = true ∧ Replaces value text
        ∧ ∀ (j : Nat) (other : String), i < j →
          defs[j]? = some (name, other) → Accepted (name, other) = false := by
  rw [find?_defineAll]
  constructor
  · intro h
    split at h
    · next d hlast =>
      obtain ⟨i, hi, hd, hlater⟩ := find?_reverse_eq_some_iff.mp hlast
      obtain ⟨n, value⟩ := d
      rw [Bool.and_eq_true, beq_iff_eq] at hd
      obtain ⟨rfl, haccepted⟩ := hd
      refine ⟨i, value, hi, haccepted, replacement?_eq_some_iff.mp h,
        fun j other hj hother => ?_⟩
      have := hlater j _ hj hother
      rwa [beq_self_eq_true, Bool.true_and] at this
    · cases h
  · rintro ⟨i, value, hi, haccepted, hreplaces, hlater⟩
    have hlast : (defs.reverse.find? fun d => d.1 == name && Accepted d)
        = some (name, value) := by
      refine find?_reverse_eq_some_iff.mpr ⟨i, hi, ?_, fun j d hj hd => ?_⟩
      · rw [beq_self_eq_true, Bool.true_and, haccepted]
      · obtain ⟨n, other⟩ := d
        by_cases hn : n = name
        · subst hn
          rw [hlater j other hj hd, Bool.and_false]
        · rw [beq_eq_false_iff_ne.mpr hn, Bool.false_and]
    rw [hlast]
    exact replacement?_eq_some_iff.mpr hreplaces

/-- **A name that stands for nothing** has no definition that was taken in; it
may well have some that were not. -/
theorem find?_defineAll_eq_none_iff :
    (empty.defineAll defs).2.find? name = none
      ↔ ∀ (i : Nat) (value : String), defs[i]? = some (name, value) →
        Accepted (name, value) = false := by
  rw [find?_defineAll]
  constructor
  · intro h i value hi
    split at h
    · next d hlast =>
      have hd := List.find?_some hlast
      rw [Bool.and_eq_true, Accepted, Bool.and_eq_true, h] at hd
      cases hd.2.2
    · next hnone =>
      have hd := List.find?_eq_none.mp hnone (name, value)
        (List.mem_reverse.mpr (List.mem_of_getElem? hi))
      rwa [beq_self_eq_true, Bool.true_and, Bool.not_eq_true] at hd
  · intro h
    have hnone : (defs.reverse.find? fun d => d.1 == name && Accepted d)
        = none := by
      refine List.find?_eq_none.mpr fun d hd => ?_
      obtain ⟨i, hi⟩ := List.mem_iff_getElem?.mp (List.mem_reverse.mp hd)
      obtain ⟨n, value⟩ := d
      rw [Bool.and_eq_true, beq_iff_eq]
      rintro ⟨rfl, haccepted⟩
      rw [h i value hi] at haccepted
      cases haccepted
    rw [hnone, find?_empty]

/-- **Each name stands for digits**, one of them at least. This is all that
those who look a name up need to know of the values. -/
def Digital (m : Macros) : Prop :=
  ∀ e ∈ m.bindings.entries, e.2 ≠ "" ∧ ∀ c ∈ e.2.toList, c.isDigit = true

/-- With no macros there is no name to ask about. -/
theorem digital_empty : Digital .empty := fun _ he => by cases he

/-- A definition keeps it so that names stand for digits, taken in or not. -/
theorem Digital.define (hm : m.Digital) (d : String × String) :
    (m.define d.1 d.2).2.Digital := by
  rcases define_cases m d with ⟨-, h⟩ | ⟨text, -, htext, h⟩
  · rw [h]
    exact hm
  · rw [h]
    intro e he
    rcases Bindings.mem_entries_insert he with rfl | he
    · exact (replacement?_eq_some_iff.mp htext).digits
    · exact hm e he

/-- Names stand for digits, whatever is defined. -/
theorem Digital.defineAll (hm : m.Digital) (defs : List (String × String)) :
    (m.defineAll defs).2.Digital := by
  induction defs generalizing m with
  | nil => exact hm
  | cons d defs ih => exact ih (hm.define d)

end Macros

/-! ## What definitions leave -/

/-- **A hexadecimal literal**, a mark with some text behind it, told as the
value of a macro and as it stands in the source. The two routes read it by
themselves, and where both take it they agree. -/
structure Hex.Kept (text : String) (behind : List Char) : Prop where
  /-- Its decimal form is that of the number behind the mark, in all its
  digits, or of the largest 64-bit word if that is smaller. -/
  decimal : Hex.toDecimal? text = some
    (Numeral.text (min Numeral.maxWord64 (Hex.leading behind)))
  /-- As the value of a macro that has a name, it is taken in exactly if there
  are hexadecimal digits behind the mark, and nothing else. -/
  taken_iff : ∀ (m : Macros) (name : String), (m.define name text).1 = true
    ↔ name ≠ "" ∧ behind ≠ [] ∧ ∀ c ∈ behind, Hex.Digit c
  /-- What is stored then is its decimal form. -/
  stored : ∀ (m : Macros) (name : String), (m.define name text).1 = true →
    (m.define name text).2.find? name = Hex.toDecimal? text
  /-- So the name of the macro becomes the token that the literal does. -/
  spelled : ∀ (w : Workspace) (name : String),
    (w.macros.define name text).1 = true → w.macros.find? text = none →
    ({ w with macros := (w.macros.define name text).2 } : Workspace).spelling
      name = w.spelling text

/-- A hexadecimal literal is told so on both routes, whatever is behind its
mark and however long it is. -/
theorem Hex.kept {text : String} {behind : List Char}
    (h : Hex.afterMark? text.toList = some behind) : Hex.Kept text behind := by
  have hdecimal := Hex.toDecimal?_of_afterMark? h
  have hreplacement := Macros.replacement?_of_afterMark? h
  have htaken : ∀ (m : Macros) (name : String),
      (m.define name text).1 = true
        ↔ name ≠ "" ∧ behind ≠ [] ∧ ∀ c ∈ behind, Hex.Digit c := by
    intro m name
    rw [Macros.fst_define m (name, text), Macros.accepted_iff, hreplacement,
      hdecimal, ← Hex.all_isDigit_iff]
    split
    · next hall => exact and_congr_right fun _ => iff_of_true rfl hall
    · next hall =>
      exact and_congr_right fun _ => iff_of_false Bool.false_ne_true hall
  have hstored : ∀ (m : Macros) (name : String),
      (m.define name text).1 = true →
      (m.define name text).2.find? name = Hex.toDecimal? text := by
    intro m name hdefined
    have hall := Hex.all_isDigit_iff.mpr ((htaken m name).mp hdefined).2
    rw [Macros.fst_define m (name, text)] at hdefined
    rw [Macros.find?_define m (name, text), hdefined, beq_self_eq_true,
      Bool.and_true, if_pos rfl, hreplacement, if_pos hall]
  refine ⟨hdecimal, htaken, hstored, fun w name hdefined hnone => ?_⟩
  rw [Workspace.spelling, Workspace.spelling, hstored w.macros name hdefined,
    hnone, hdecimal]
  rfl

namespace Macros

/-- **Definitions made one after another**, told by the answers that were
given and the macros there are in the end. Each answer is that of its own
definition, and what a name stands for is told by the last one that counts. -/
structure Recorded (defs : List (String × String)) (r : List Bool × Macros) :
    Prop where
  /-- There is an answer for each definition. -/
  length_eq : r.1.length = defs.length
  /-- It is taken in exactly if it has a name and something is stored for its
  value. -/
  taken_iff : ∀ (i : Nat) (name value : String),
    defs[i]? = some (name, value) →
    (r.1[i]? = some true ↔ name ≠ "" ∧ ∃ text, Replaces value text)
  /-- A definition that is not taken in changes nothing. -/
  skipped : ∀ i : Nat, r.1[i]? = some false →
    (empty.defineAll (defs.take (i + 1))).2 = (empty.defineAll (defs.take i)).2
  /-- What a name stands for is what is stored for the value of a definition
  of exactly this name that was taken in, and no later one of them was. -/
  found_iff : ∀ name text : String, r.2.find? name = some text
    ↔ ∃ (i : Nat) (value : String), defs[i]? = some (name, value)
      ∧ r.1[i]? = some true ∧ Replaces value text
      ∧ ∀ (j : Nat) (other : String), i < j →
        defs[j]? = some (name, other) → r.1[j]? = some false
  /-- A name that stands for nothing has no definition that was taken in. -/
  unfound_iff : ∀ name : String, r.2.find? name = none
    ↔ ∀ (i : Nat) (value : String), defs[i]? = some (name, value) →
      r.1[i]? = some false
  /-- All that is stored are digits, one of them at least. -/
  digital : ∀ e ∈ r.2.bindings.entries,
    e.2 ≠ "" ∧ ∀ c ∈ e.2.toList, c.isDigit = true

/-- **The last definition counts**, of those that are taken in, and a
hexadecimal value is stored as the literal in the source is spelled. The text
behind the mark may be of any length: beyond the largest 64-bit word both
routes write that word. -/
theorem recorded_defineAll (defs : List (String × String)) :
    Recorded defs (empty.defineAll defs)
      ∧ ∀ behind : List Char,
        Hex.Kept (String.ofList ('0' :: 'x' :: behind)) behind
          ∧ Hex.Kept (String.ofList ('0' :: 'X' :: behind)) behind := by
  -- the answer to a definition is the same at every turn
  have hanswer : ∀ {i : Nat} {d : String × String} (b : Bool),
      defs[i]? = some d →
      ((empty.defineAll defs).1[i]? = some b ↔ Accepted d = b) := by
    intro i d b hd
    rw [fst_defineAll, List.getElem?_map, hd, Option.map_some, Option.some_inj]
  refine ⟨⟨?_, ?_, ?_, ?_, ?_, digital_empty.defineAll defs⟩, fun behind =>
    ⟨Hex.kept ?_, Hex.kept ?_⟩⟩
  · rw [fst_defineAll, List.length_map]
  · intro i name value hd
    rw [hanswer true hd, accepted_iff, Option.isSome_iff_exists]
    simp only [replacement?_eq_some_iff]
  · intro i hi
    rw [fst_defineAll, List.getElem?_map, Option.map_eq_some_iff] at hi
    obtain ⟨d, hd, hskipped⟩ := hi
    rw [List.take_add_one, hd, snd_defineAll_append]
    exact define_of_fst_eq_false ((fst_define _ d).trans hskipped)
  · intro name text
    rw [find?_defineAll_eq_some_iff]
    constructor
    · rintro ⟨i, value, hd, htaken, hreplaces, hlater⟩
      exact ⟨i, value, hd, (hanswer true hd).mpr htaken, hreplaces,
        fun j other hj hother =>
          (hanswer false hother).mpr (hlater j other hj hother)⟩
    · rintro ⟨i, value, hd, htaken, hreplaces, hlater⟩
      exact ⟨i, value, hd, (hanswer true hd).mp htaken, hreplaces,
        fun j other hj hother =>
          (hanswer false hother).mp (hlater j other hj hother)⟩
  · intro name
    rw [find?_defineAll_eq_none_iff]
    exact ⟨fun h i value hd => (hanswer false hd).mpr (h i value hd),
      fun h i value hd => (hanswer false hd).mp (h i value hd)⟩
  · rw [String.toList_ofList]
    rfl
  · rw [String.toList_ofList]
    rfl

end Macros

end FlatC
