import FlatC.Pattern.Basic
import FlatC.Edit.Basic

/-!
# Inlining constants

After `const T NAME = NUM ;` each `NAME` is written as `NUM`, whatever
scope it stands in. Declarations are taken in order, and each acts on what
comes after its `;`. So the first declaration of a name is the one that
counts: in a second one the name has already become a number, and what has
a number for a name declares nothing.
-/

namespace FlatC

namespace Constant

/-- The shape of a constant's declaration, the type being one word. -/
def shape : Pattern := .compile "const %type% %var% = %num% ;"

theorem pieces_shape :
    shape.pieces
      = [.literal "const", .type, .var, .literal "=", .num,
          .literal ";"] := by
  decide +kernel

/-- **The declaration at a cell**, if there is one, carried out on what comes
after the cell, with the number of tokens changed. The declaration itself
stays. -/
def apply (c : Cell) (rest : List Cell) : List Cell × Nat :=
  match rest with
  | type :: name :: eq :: num :: stop :: after =>
    if shape.opens (c :: rest) then
      (type :: name :: eq :: num :: stop
          :: Cell.rename name.text num.text after,
        Cell.occurrences name.text after)
    else (rest, 0)
  | _ => (rest, 0)

/-- A declaration changes no number of tokens, so the pass can go on with all
that comes after the cell. -/
@[simp] theorem length_apply (c : Cell) (rest : List Cell) :
    (apply c rest).1.length = rest.length := by
  unfold apply
  split
  · split
    · simp
    · rfl
  · rfl

end Constant

/-- **Constants inlined.** The count is the number of names replaced. No cell
is dropped or put in, so the pool is passed through. -/
def inlineConstants (cells : List Cell) (pool : SlotPool) : Edit :=
  match cells with
  | [] => .unchanged [] pool
  | c :: rest =>
    let after := Constant.apply c rest
    ((inlineConstants after.1 pool).cons c).plus after.2
termination_by cells.length
decreasing_by
  rw [Constant.length_apply, List.length_cons]
  exact Nat.lt_succ_self _

end FlatC
