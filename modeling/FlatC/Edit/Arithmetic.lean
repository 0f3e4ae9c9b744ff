import FlatC.Edit.Basic
import FlatC.Text.Numeral
import FlatC.Token.Class

/-!
# Folding arithmetic

Arithmetic on numbers is carried out where it can be told from the
neighbouring tokens alone that nothing binds tighter:

* `A op B` between one of `[ , ( = < >` on the left and one of
  `] , ) ; = < >` on the right becomes its value, for `+`, `-`, `*` and
  `/`;
* a factor 1 is dropped: `* 1` and `/ 1` unless a `.` follows, where the
  1 begins a fraction; and `1 *` unless one of `/ % .` stands before it,
  to which the 1 belongs.

Operands are digits only and below 2⁶³, results have to lie between -2⁶³
and 2⁶³ – 1, division rounds toward zero, and a division by zero is left
as it is.

One sweep goes over the cells from left to right; sweeps follow one
another until one changes nothing. Each change takes two tokens away,
which is why that comes to an end.
-/

namespace FlatC

namespace Arithmetic

/-- What may stand directly left of an operation that is carried out. Behind
any of these, what is left cannot belong to the first operand. -/
def leftEdges : List Char := ['[', ',', '(', '=', '<', '>']

/-- What may stand directly right of an operation that is carried out. None of
these binds as tightly as the operation does. -/
def rightEdges : List Char := [']', ',', ')', ';', '=', '<', '>']

/-- The bound an operand has to stay below, 2⁶³, written in hexadecimal so
that it computes at once. -/
def bound : Nat := 0x8000000000000000

/-- The operand a text writes, digit by digit. A number in hexadecimal, with a
point or with a suffix is none. -/
def operand? (text : String) : Option Nat :=
  match Numeral.ofDigits? text.toList with
  | some n => if n < bound then some n else none
  | none => none

/-- Whether a number is in the range of results, that of a signed word of 64
bits. -/
def inRange (n : Int) : Bool := -(bound : Int) ≤ n && n < (bound : Int)

/-- **The value of an operation** on two operands. A result out of range is
none, and the operation is left as it is. -/
def value? (op : String) (a b : Nat) : Option Int :=
  let result : Option Int :=
    if op = "+" then some ((a : Int) + b)
    else if op = "-" then some ((a : Int) - b)
    else if op = "*" then some ((a : Int) * b)
    else if op = "/" then
      if b = 0 then none else some (Int.tdiv a b)
    else none
  match result with
  | some n => if inRange n then some n else none
  | none => none

/-- **Whether a factor 1 comes next** that can be dropped, after a token with
the given text. Of what may stand before a `1 *` only `/`, `%` and `.` are
looked for, not a `-` that belongs to the 1. -/
def unitNext (before : String) (rest : List Cell) : Bool :=
  match rest with
  | a :: b :: after =>
    if (a.text == "*" || a.text == "/") && b.text == "1" then
      -- in `1 . 5` the 1 is part of a fraction
      match after with
      | [] => true
      | c :: _ => c.text != "."
    else if a.text == "1" && b.text == "*" then
      before != "/" && before != "%" && before != "."
    else false
  | _ => false

/-- **The result of the operation that comes next**, if it can be carried
out, after a token with the given text: the cell of the first operand with
the value for its text. -/
def nextResult? (before : String) (rest : List Cell) : Option Cell :=
  match rest with
  | a :: op :: b :: right :: _ =>
    if Token.startsWithAny leftEdges before
        && Token.startsWithAny rightEdges right.text then
      match operand? a.text, operand? b.text with
      | some m, some n =>
        (value? op.text m n).map fun v => a.withText (Numeral.signedText v)
      | _, _ => none
    else none
  | _ => none

/-- An operation that is carried out has its three tokens and one more, the
right edge. -/
theorem length_of_nextResult? {before : String} {rest : List Cell} {c : Cell}
    (h : nextResult? before rest = some c) : 4 ≤ rest.length := by
  unfold nextResult? at h
  split at h
  · simp only [List.length_cons]
    omega
  · cases h

/-- What comes after a token, without a factor 1 that could be dropped. One
factor is dropped at most; a second one is left to the next sweep. -/
def dropUnit (before : String) (rest : List Cell) (pool : SlotPool) :
    Edit :=
  if unitNext before rest then
    ⟨rest.drop 2, pool.giveAll (rest.take 2), 1⟩
  else .unchanged rest pool

/-- A factor is two tokens. -/
theorem length_dropUnit (before : String) (rest : List Cell)
    (pool : SlotPool) :
    (dropUnit before rest pool).cells.length
      + 2 * (dropUnit before rest pool).count = rest.length := by
  unfold dropUnit
  split
  · next h =>
    unfold unitNext at h
    split at h
    · simp only [List.drop_succ_cons, List.drop_zero, List.length_cons]
    · cases h
  · rfl

/-- **One sweep**: a factor 1 dropped and an operation carried out after each
token in turn. After an operation the sweep goes on behind its result, so the
result becomes an operand in the next sweep only. -/
def sweep (cells : List Cell) (pool : SlotPool) : Edit :=
  match cells with
  | [] => .unchanged [] pool
  | c :: rest =>
    let r := dropUnit c.text rest pool
    match nextResult? c.text r.cells with
    | some result =>
      ((sweep (r.cells.drop 3)
        (r.pool.giveAll ((r.cells.drop 1).take 2))).prepend
          [c, result]).plus (r.count + 1)
    | none => ((sweep r.cells r.pool).cons c).plus r.count
termination_by cells.length
decreasing_by
  · have h := length_dropUnit c.text rest pool
    rw [List.length_drop, List.length_cons]
    omega
  · have h := length_dropUnit c.text rest pool
    rw [List.length_cons]
    omega

/-- **Each change of a sweep takes two tokens away.** So a sweep that changes
anything leaves fewer cells to the next one. -/
theorem length_sweep (cells : List Cell) (pool : SlotPool) :
    (sweep cells pool).cells.length + 2 * (sweep cells pool).count
      = cells.length := by
  fun_induction sweep cells pool with
  | case1 pool => rfl
  | case2 pool c rest r result h ih =>
    have hr : r.cells.length + 2 * r.count = rest.length :=
      length_dropUnit c.text rest pool
    have hl := length_of_nextResult? h
    rw [List.length_drop] at ih
    simp only [Edit.cells_plus, Edit.count_plus, Edit.cells_prepend,
      Edit.count_prepend, List.length_append, List.length_cons,
      List.length_nil]
    omega
  | case3 pool c rest r h ih =>
    have hr : r.cells.length + 2 * r.count = rest.length :=
      length_dropUnit c.text rest pool
    simp only [Edit.cells_plus, Edit.count_plus, Edit.cells_cons,
      Edit.count_cons, List.length_cons]
    omega

end Arithmetic

/-- **Arithmetic folded**: sweeps until one changes nothing. The count is
the number of factors dropped and operations carried out. -/
def foldArithmetic (cells : List Cell) (pool : SlotPool) : Edit :=
  let r := Arithmetic.sweep cells pool
  if _h : r.count = 0 then r
  else (foldArithmetic r.cells r.pool).plus r.count
termination_by cells.length
decreasing_by
  have hr := Arithmetic.length_sweep cells pool
  have hn : (Arithmetic.sweep cells pool).count ≠ 0 := _h
  omega

end FlatC
