import FlatC.Edit.Basic

/-!
# Dropping `unsigned`

What follows treats `unsigned int` and `int` alike, so the word `unsigned`
is dropped wherever something comes after it. At the very end of the chain
it qualifies nothing and is kept.
-/

namespace FlatC

/-- **`unsigned` dropped** in front of other tokens. The count is the number
of tokens dropped. Of several in a row all are dropped, but for one at the
very end. -/
def dropUnsigned : Pass
  | [], pool => .unchanged [] pool
  | [c], pool => .unchanged [c] pool
  | c :: d :: rest, pool =>
    if c.text == "unsigned" then
      (dropUnsigned (d :: rest) (pool.give c.slot)).plus 1
    else (dropUnsigned (d :: rest) pool).cons c

/-- **The count is what the cells have become fewer by**, as nothing is put
in. -/
theorem length_dropUnsigned (cells : List Cell) (pool : SlotPool) :
    (dropUnsigned cells pool).cells.length + (dropUnsigned cells pool).count
      = cells.length := by
  fun_induction dropUnsigned cells pool with
  | case1 pool => rfl
  | case2 c pool => rfl
  | case3 c d rest pool h ih =>
    simp only [Edit.cells_plus, Edit.count_plus, List.length_cons]
      at ih ⊢
    omega
  | case4 c d rest pool h ih =>
    simp only [Edit.cells_cons, Edit.count_cons, List.length_cons]
      at ih ⊢
    omega

end FlatC
