import FlatC.Bindings
import FlatC.Text.Numeral

/-!
# Macros and hexadecimal literals

Only numeric macros matter to what follows, so a definition is kept when
its value is a decimal or hexadecimal literal and left out otherwise. A
decimal value is kept as written. A hexadecimal one is kept in decimal, as
is every hexadecimal literal of the source, so that a number reads the
same whichever way it came in; past the largest 64-bit word both stay at
that word.

A literal in the source may carry a suffix, as `0x10UL` does: its value is
that of the digits right after the mark, and 0 if there are none. A macro
value may not.
-/

namespace FlatC

namespace Hex

/-- What follows the mark `0x` or `0X` of a hexadecimal literal. There need
not be a digit behind it. -/
def afterMark? : List Char → Option (List Char)
  | '0' :: 'x' :: digits => some digits
  | '0' :: 'X' :: digits => some digits
  | _ => none

/-- The decimal text of a hexadecimal number, at most the largest 64-bit word.
Only the digits that the text begins with count. -/
def decimalText (digits : List Char) : String :=
  Numeral.text (Numeral.capped 16 Numeral.maxWord64 (Numeral.hexRun digits))

/-- **The decimal form of a hexadecimal literal**, and nothing for a text that
is none. The mark alone decides, so `0x` itself becomes `0`. -/
def toDecimal? (text : String) : Option String :=
  (afterMark? text.toList).map decimalText

/-- A text without a mark is no hexadecimal literal, and is put into the chain
as it is. -/
theorem toDecimal?_eq_none {text : String}
    (hx : ¬ ['0', 'x'] <+: text.toList)
    (hX : ¬ ['0', 'X'] <+: text.toList) : toDecimal? text = none := by
  rw [toDecimal?, Option.map_eq_none_iff]
  unfold afterMark?
  split
  · next digits h => exact absurd ⟨digits, h.symm⟩ hx
  · next digits h => exact absurd ⟨digits, h.symm⟩ hX
  · rfl

/-- Whether a character is a hexadecimal digit. -/
def isDigit (c : Char) : Bool := (Numeral.hexValue? c).isSome

end Hex

/-- **The macros**: each name with the number it stands for. A name that
stands for no number is not kept at all. -/
structure Macros where
  bindings : Bindings String := {}
  deriving Repr

namespace Macros

/-- No macros. -/
def empty : Macros := {}

/-- **The number a value stands for**, if it is a numeric literal. One with a
sign or a suffix is none. -/
def replacement? (value : String) : Option String :=
  let cs := value.toList
  if Numeral.isDigits cs then some value
  else
    match Hex.afterMark? cs with
    | some digits =>
      if !digits.isEmpty && digits.all Hex.isDigit then
        some (Hex.decimalText digits)
      else none
    | none => none

/-- **A definition taken in**, and whether it was. The name may not be
empty and the value has to be a number; a later definition of a name
replaces the earlier one. -/
def define (m : Macros) (name value : String) : Bool × Macros :=
  if name.isEmpty then (false, m)
  else
    match replacement? value with
    | some text => (true, ⟨m.bindings.insert name text⟩)
    | none => (false, m)

/-- **What a name stands for**, by the last definition of it that was taken
in. -/
def find? (m : Macros) (name : String) : Option String :=
  m.bindings.find? name

/-- How many names stand for something. -/
def size (m : Macros) : Nat := m.bindings.size

@[simp] theorem find?_empty (name : String) : empty.find? name = none := rfl

/-- A definition that is not taken in changes nothing, so the name keeps what
it stood for before. -/
theorem define_of_fst_eq_false {m : Macros} {name value : String}
    (h : (m.define name value).1 = false) : (m.define name value).2 = m := by
  by_cases hn : name.isEmpty = true
  · simp [define, hn]
  · cases hr : replacement? value with
    | none => simp [define, hn, hr]
    | some text => simp [define, hn, hr] at h

end Macros

end FlatC
