/-!
# Numerals

Three readings of digits occur in C source. A **literal** such as `0x1F`
is read exactly and then capped at the largest 64-bit word; an **array
bound** is read from the digits a text starts with; an **operand** of
folded arithmetic must be digits throughout. All three are the positional
value of a list of digits, so that value is defined once, next to the
capped value a running 64-bit accumulator computes, and
`capped_eq_min` says that capping at every step is capping at the end.

Numbers are written back in decimal, with `-` in front of a negative one.
-/

namespace FlatC.Numeral

/-- The largest number a 32-bit word holds, written so that it is computed at
once. -/
def maxWord32 : Nat := 0xFFFFFFFF

/-- The largest number a 64-bit word holds, at which hexadecimal literals and
array bounds stop. -/
def maxWord64 : Nat := 0xFFFFFFFFFFFFFFFF

/-- **Positional value** of a list of digits, the most significant first. A
digit may be any number; that it is below the base is not asked. -/
def value (base : Nat) (digits : List Nat) : Nat :=
  digits.foldl (fun acc d => acc * base + d) 0

/-- **Capped value**: the positional value read by an accumulator that stays
at `cap` once it would pass it. -/
def capped (base cap : Nat) (digits : List Nat) : Nat :=
  digits.foldl (fun acc d => min cap (acc * base + d)) 0

@[simp] theorem value_nil (base : Nat) : value base [] = 0 := rfl

@[simp] theorem capped_nil (base cap : Nat) : capped base cap [] = 0 := rfl

/-- Capping before a step is lost in the cap after it: once at the cap, an
accumulator stays there as the base is positive. -/
theorem min_mul_add (base cap acc d : Nat) (h : 0 < base) :
    min cap (min cap acc * base + d) = min cap (acc * base + d) := by
  rcases Nat.le_total acc cap with hle | hle
  · rw [Nat.min_eq_right hle]
  · rw [Nat.min_eq_left hle]
    have h₁ : cap ≤ cap * base := Nat.le_mul_of_pos_right cap h
    have h₂ : cap * base ≤ acc * base := Nat.mul_le_mul_right base hle
    rw [Nat.min_eq_left (by omega), Nat.min_eq_left (by omega)]

/-- **Capping at every step is capping at the end.** So an accumulator that
saturates computes the number that is written, as far as it fits. -/
theorem capped_eq_min (base cap : Nat) (digits : List Nat) (h : 0 < base) :
    capped base cap digits = min cap (value base digits) := by
  have key : ∀ (l : List Nat) (acc : Nat),
      l.foldl (fun acc d => min cap (acc * base + d)) (min cap acc)
        = min cap (l.foldl (fun acc d => acc * base + d) acc) := by
    intro l
    induction l with
    | nil => intro acc; rfl
    | cons d l ih =>
      intro acc
      simp only [List.foldl_cons]
      rw [min_mul_add base cap acc d h, ih]
  have h₀ := key digits 0
  rw [Nat.min_zero] at h₀
  exact h₀

/-- The digit a decimal character stands for; asked for only of characters
that are digits. -/
def digitValue (c : Char) : Nat := c.toNat - '0'.toNat

/-- The digit a hexadecimal character stands for, in either case of letters. -/
def hexValue? (c : Char) : Option Nat :=
  if '0' ≤ c ∧ c ≤ '9' then some (c.toNat - '0'.toNat)
  else if 'a' ≤ c ∧ c ≤ 'f' then some (c.toNat - 'a'.toNat + 10)
  else if 'A' ≤ c ∧ c ≤ 'F' then some (c.toNat - 'A'.toNat + 10)
  else none

/-- The hexadecimal digits a text starts with. A suffix such as `UL` ends
them. -/
def hexRun : List Char → List Nat
  | [] => []
  | c :: cs =>
    match hexValue? c with
    | some d => d :: hexRun cs
    | none => []

/-- The decimal digits a text starts with, none if it starts with something
else. -/
def digitRun (cs : List Char) : List Nat :=
  (cs.takeWhile Char.isDigit).map digitValue

/-- Whether a text is a non-empty run of decimal digits, with no sign, blank
or separator. -/
def isDigits (cs : List Char) : Bool := !cs.isEmpty && cs.all Char.isDigit

/-- **The number a text of decimal digits writes**, however long; nothing
for a text that is empty or holds anything else. -/
def ofDigits? (cs : List Char) : Option Nat :=
  if isDigits cs then some (value 10 (cs.map digitValue)) else none

/-- The decimal text of a natural number, without leading zeros. -/
def text (n : Nat) : String := String.ofList (Nat.toDigits 10 n)

/-- The decimal text of an integer, with a `-` in front of a negative one, as
part of the same text. -/
def signedText : Int → String
  | .ofNat n => text n
  | .negSucc n => "-" ++ text (n + 1)

end FlatC.Numeral
