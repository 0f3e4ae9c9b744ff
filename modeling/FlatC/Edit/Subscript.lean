import FlatC.Pattern.Basic
import FlatC.Edit.Basic

/-!
# Subscripts

`* ( p + N )` is written `p [ N ]` where the `*` begins an operand and so
is no multiplication: directly after a token that starts with one of
`; { } ( = < >`. The four tokens of the subscript take the places of the
first four tokens of the sum.
-/

namespace FlatC

namespace Subscript

/-- What a `*` that begins an operand stands after. Behind a name or a number
it would be a multiplication. -/
def contexts : List Char := [';', '{', '}', '(', '=', '<', '>']

/-- The shape of a sum that is dereferenced, a variable first and a number
second. -/
def shape : Pattern := .compile "* ( %var% + %num% )"

theorem pieces_shape :
    shape.pieces
      = [.literal "*", .literal "(", .var, .literal "+", .num,
          .literal ")"] := by
  decide +kernel

/-- **The subscript that comes next**, after a token with the given text: its
four cells, those that fall away, and what follows. What follows is not looked
at. -/
def next? (before : String) (rest : List Cell) :
    Option (List Cell × List Cell × List Cell) :=
  match rest with
  | star :: paren :: var :: plus :: num :: close :: more =>
    if Token.startsWithAny contexts before && shape.opens rest then
      some ([star.withText var.text, paren.withText "[",
        var.withText num.text, plus.withText "]"], [num, close], more)
    else none
  | _ => none

/-- What follows a subscript is shorter than what the subscript was found in:
six tokens were looked at. -/
theorem length_of_next? {before : String}
    {rest written dropped more : List Cell}
    (h : next? before rest = some (written, dropped, more)) :
    more.length + 6 = rest.length := by
  unfold next? at h
  split at h
  · split at h
    · cases h
      rfl
    · cases h
  · cases h

end Subscript

/-- **Subscripts written.** The count is the number of sums replaced. The pass
goes on behind what was written, which stands in the slots of the first four
tokens. -/
def writeSubscripts (cells : List Cell) (pool : SlotPool) : Edit :=
  match cells with
  | [] => .unchanged [] pool
  | c :: rest =>
    match _h : Subscript.next? c.text rest with
    | some (written, dropped, more) =>
      ((writeSubscripts more (pool.giveAll dropped)).prepend
        (c :: written)).plus 1
    | none => (writeSubscripts rest pool).cons c
termination_by cells.length
decreasing_by
  · have h := Subscript.length_of_next? _h
    rw [List.length_cons]
    omega
  · exact Nat.lt_succ_self _

end FlatC
