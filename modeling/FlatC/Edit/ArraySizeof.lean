import FlatC.Pattern.Basic
import FlatC.Edit.Basic
import FlatC.Text.Numeral
import FlatC.TypeSizes

/-!
# Evaluating `sizeof` of arrays

After `T NAME [ NUM ] ;`, with the size of `T` known, each
`sizeof ( NAME )` is that size times the number of elements – up to the
end of the block the declaration stands in, which is the first `}` that
closes more than was opened since. The number of elements is written by
the digits `NUM` starts with, so `10UL` is ten. A size past the largest
64-bit word is none, and nothing is replaced then.

Declarations act in order, and one that comes later meets only what the
earlier ones have left.

How many blocks are open behind a declaration is counted from 0 up, and the
count ends with the `}` that would bring it below. It goes up by one at a
token, so it stays below the number of tokens.
-/

namespace FlatC

namespace ArraySizeof

/-- The shape of an array's declaration. An array with an initializer, or of
pointers, has another shape and is none. -/
def shape : Pattern := .compile "%type% %var% [ %num% ] ;"

/-- The shape of the size of a variable, whether it is one of an array or not. -/
def useShape : Pattern := .compile "sizeof ( %var% )"

theorem pieces_shape :
    shape.pieces
      = [.type, .var, .literal "[", .num, .literal "]", .literal ";"] := by
  decide +kernel

theorem pieces_useShape :
    useShape.pieces
      = [.literal "sizeof", .literal "(", .var, .literal ")"] := by
  decide +kernel

/-- How many elements the text of an array bound asks for, as far as a 64-bit
word can count. A number past that counts as the largest word. -/
def elements (bound : String) : Nat :=
  Numeral.capped 10 Numeral.maxWord64 (Numeral.digitRun bound.toList)

/-- **The array that some cells start with the declaration of**, by name, and
its size in bytes. There is none where the size of the type is not known, or
the size of the array is too large for a word. -/
def declared? (sizes : TypeSizes) (cells : List Cell) :
    Option (String × Nat) :=
  match cells with
  | type :: name :: _ :: bound :: _ =>
    let size := sizes.sizeOf type.text
    let total := size * elements bound.text
    if shape.opens cells && size != 0 && total ≤ Numeral.maxWord64 then
      some (name.text, total)
    else none
  | _ => none

/-- Whether some cells start with the size of a variable of this name. What
the name stands for at that place is not asked. -/
def isUse (name : String) (cells : List Cell) : Bool :=
  match cells with
  | _ :: _ :: var :: _ => useShape.opens cells && var.text == name
  | _ => false

/-- **The uses of one array's size replaced** up to the end of the block,
given how many blocks have been opened since its declaration. A later
declaration of the same name does not end this. -/
def replaceUses (name total : String) (depth : Nat) (cells : List Cell)
    (pool : SlotPool) : Edit :=
  match cells with
  | [] => .unchanged [] pool
  | c :: rest =>
    if Token.startsWithAny ['{'] c.text then
      (replaceUses name total (depth + 1) rest pool).cons c
    else if Token.startsWithAny ['}'] c.text then
      match depth with
      | 0 => .unchanged (c :: rest) pool
      | depth + 1 => (replaceUses name total depth rest pool).cons c
    else if isUse name (c :: rest) then
      ((replaceUses name total depth (rest.drop 3)
        (pool.giveAll (rest.take 3))).cons (c.withText total)).plus 1
    else (replaceUses name total depth rest pool).cons c
termination_by cells.length
decreasing_by
  · exact Nat.lt_succ_self _
  · exact Nat.lt_succ_self _
  · rw [List.length_drop, List.length_cons]
    omega
  · exact Nat.lt_succ_self _

/-- Replacing uses makes cells no more, which is why the pass ends that
carries out one declaration after another. -/
theorem length_replaceUses_le (name total : String) (depth : Nat)
    (cells : List Cell) (pool : SlotPool) :
    (replaceUses name total depth cells pool).cells.length
      ≤ cells.length := by
  fun_induction replaceUses name total depth cells pool with
  | case1 depth pool => exact Nat.le_refl _
  | case2 depth pool c rest _ ih => exact Nat.succ_le_succ ih
  | case3 pool c rest => exact Nat.le_refl _
  | case4 pool c rest _ _ depth ih => exact Nat.succ_le_succ ih
  | case5 depth pool c rest _ _ _ ih =>
    rw [List.length_drop] at ih
    simp only [Edit.cells_plus, Edit.cells_cons, List.length_cons]
    omega
  | case6 depth pool c rest _ _ _ ih => exact Nat.succ_le_succ ih

/-- **The declaration at a cell**, if there is one, carried out on what comes
after the cell. The four tokens up to the `]` hold no use and are passed over. -/
def apply (sizes : TypeSizes) (c : Cell) (rest : List Cell)
    (pool : SlotPool) : Edit :=
  match declared? sizes (c :: rest) with
  | some (name, total) =>
    (replaceUses name (Numeral.text total) 0 (rest.drop 4) pool).prepend
      (rest.take 4)
  | none => .unchanged rest pool

/-- A declaration makes cells no more, whether it is carried out or not. -/
theorem length_apply_le (sizes : TypeSizes) (c : Cell) (rest : List Cell)
    (pool : SlotPool) :
    (apply sizes c rest pool).cells.length ≤ rest.length := by
  unfold apply
  split
  · next name total _ =>
    have h := length_replaceUses_le name (Numeral.text total) 0
      (rest.drop 4) pool
    rw [List.length_drop] at h
    rw [Edit.cells_prepend, List.length_append, List.length_take]
    omega
  · exact Nat.le_refl _

end ArraySizeof

/-- **`sizeof` of arrays evaluated.** The count is the number of `sizeof`
replaced. Each declaration is looked for in what the earlier ones have left. -/
def evalArraySizeof (sizes : TypeSizes) (cells : List Cell)
    (pool : SlotPool) : Edit :=
  match cells with
  | [] => .unchanged [] pool
  | c :: rest =>
    let r := ArraySizeof.apply sizes c rest pool
    ((evalArraySizeof sizes r.cells r.pool).cons c).plus r.count
termination_by cells.length
decreasing_by
  exact Nat.lt_succ_of_le (ArraySizeof.length_apply_le sizes c rest pool)

end FlatC
