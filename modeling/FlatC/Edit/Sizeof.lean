import FlatC.Pattern.Basic
import FlatC.Edit.Basic
import FlatC.Target
import FlatC.Text.Numeral

/-!
# Evaluating `sizeof` of types

`sizeof ( T * )` is the size of a pointer, whatever `T` is, and
`sizeof ( T )` is the size of `T` where that is known. The sizes known are
those of the builtin types on the target, and a stand-in for each class
and structure that is named anywhere: nobody lays out its members, but it
does have a size.

The number goes where the word `sizeof` was.
-/

namespace FlatC

/-! ## The sizes in force -/

namespace TypeSizes

/-- The size recorded for every class, whatever its members are. -/
def ofClass : Nat := 11

/-- The size recorded for every structure, another one, so that the two can be
told apart in what comes out. -/
def ofStruct : Nat := 13

/-- The shape that names a class, in a definition or anywhere else. -/
def classShape : Pattern := .compile "class %var%"

/-- The shape that names a structure, in a definition or anywhere else. -/
def structShape : Pattern := .compile "struct %var%"

/-- Its words, as they were compiled. -/
theorem pieces_classShape :
    classShape.pieces = [.literal "class", .var] := by
  decide +kernel

/-- Its words, as they were compiled. -/
theorem pieces_structShape :
    structShape.pieces = [.literal "struct", .var] := by
  decide +kernel

/-- The class or structure that some cells start with the name of, and the
size recorded for it. A name that is used for both has the size of what it was
used for last. -/
def named? (cells : List Cell) : Option (String × Nat) :=
  match cells with
  | _ :: name :: _ =>
    if classShape.opens cells then some (name.text, ofClass)
    else if structShape.opens cells then some (name.text, ofStruct)
    else none
  | _ => none

/-- **The sizes of the classes and structures some cells name** added, and how
often one is named. One that is named twice is recorded twice and counted
twice. -/
def addNamed (sizes : TypeSizes) : List Cell → TypeSizes × Nat
  | [] => (sizes, 0)
  | c :: rest =>
    match named? (c :: rest) with
    | some (name, size) =>
      let (sizes, n) := addNamed (sizes.insert name size) rest
      (sizes, n + 1)
    | none => addNamed sizes rest

/-- **The sizes in force for some cells** on a target, and how often a class
or structure is named. All the cells are read before any `sizeof` is
evaluated, so it does not matter where a class is defined. -/
def inForce (target : Target) (cells : List Cell) : TypeSizes × Nat :=
  addNamed target.typeSizes cells

end TypeSizes

/-! ## Their evaluation -/

namespace Sizeof

/-- The shape of the size of a pointer type. The type is any type name,
whether its size is known or not. -/
def pointerShape : Pattern := .compile "sizeof ( %type% * )"

/-- The shape of the size of a type. -/
def plainShape : Pattern := .compile "sizeof ( %type% )"

theorem pieces_pointerShape :
    pointerShape.pieces
      = [.literal "sizeof", .literal "(", .type, .literal "*",
          .literal ")"] := by
  decide +kernel

theorem pieces_plainShape :
    plainShape.pieces
      = [.literal "sizeof", .literal "(", .type, .literal ")"] := by
  decide +kernel

/-- **The number that some cells start with the `sizeof` of**, and how many
tokens that takes after the word itself. A size of 0 is one that is not known. -/
def value? (sizes : TypeSizes) (pointer : Nat) (cells : List Cell) :
    Option (Nat × Nat) :=
  match cells with
  | _ :: _ :: type :: _ =>
    if pointerShape.opens cells then some (pointer, 4)
    else if plainShape.opens cells && sizes.sizeOf type.text != 0 then
      some (sizes.sizeOf type.text, 3)
    else none
  | _ => none

end Sizeof

/-- **`sizeof` of types evaluated.** The count is the number of `sizeof`
replaced. What is left out goes back to the pool, and the number stands in the
slot of the word. -/
def evalSizeof (sizes : TypeSizes) (pointer : Nat) (cells : List Cell)
    (pool : SlotPool) : Edit :=
  match cells with
  | [] => .unchanged [] pool
  | c :: rest =>
    match Sizeof.value? sizes pointer (c :: rest) with
    | some (value, n) =>
      ((evalSizeof sizes pointer (rest.drop n)
        (pool.giveAll (rest.take n))).cons
          (c.withText (Numeral.text value))).plus 1
    | none => (evalSizeof sizes pointer rest pool).cons c
termination_by cells.length
decreasing_by
  · rw [List.length_drop, List.length_cons]
    omega
  · exact Nat.lt_succ_self _

end FlatC
