import FlatC.Edit.Basic

/-!
# Fusing operators

Every symbol of the source is a token of its own, so an operator of two
characters is two tokens. Fusion joins the pairs that belong together,
from left to right: a token is joined with the next if the two are a pair,
and what comes of it is not joined again. The access labels of a class,
such as `public :`, are joined in the same way. Then `->`, whether fused
or there from the start, is written `.`, so that the two forms of member
access read the same.
-/

namespace FlatC

namespace Fusion

/-- **The pairs that are joined.** What a pair is joined to is itself no part
of a pair, so it does not matter that the pass never looks at it again. -/
def pairs : List (String × String) :=
  [("<", "<"), (">", ">"), ("&", "&"), ("|", "|"), ("+", "="), ("-", "="),
    ("*", "="), ("/", "="), ("&", "="), ("|", "="), ("=", "="), ("!", "="),
    ("<", "="), (">", "="), (":", ":"), ("-", ">"), ("private", ":"),
    ("protected", ":"), ("public", ":")]

/-- The text two texts are joined to, if they are a pair: the one followed by
the other. -/
def joined? (a b : String) : Option String :=
  if pairs.contains (a, b) then some (a ++ b) else none

/-- **Pairs joined from left to right.** The joined token stays where its
first part was, with the first part's line and file. -/
def join : Pass
  | [], pool => .unchanged [] pool
  | [c], pool => .unchanged [c] pool
  | c :: d :: rest, pool =>
    match joined? c.text d.text with
    | some text => ((join rest (pool.give d.slot)).cons (c.withText text)).plus 1
    | none => (join (d :: rest) pool).cons c

/-- Member access through a pointer written as plain member access, wherever
an `->` has come from. -/
def dotted (cells : List Cell) : List Cell := Cell.rename "->" "." cells

end Fusion

/-- **Operators fused.** The count is the number of pairs joined; what is
written for `->` is not counted. -/
def fuseOperators : Pass := fun cells pool =>
  let r := Fusion.join cells pool
  { r with cells := Fusion.dotted r.cells }

namespace Fusion

/-- What two texts are joined to is one after the other, so no byte of a
source is lost by it. -/
theorem eq_append_of_joined? {a b text : String}
    (h : joined? a b = some text) : text = a ++ b := by
  unfold joined? at h
  split at h
  · exact (Option.some.inj h).symm
  · cases h

/-- **The count is what the cells have become fewer by**, since each pair
gives one slot back. -/
theorem length_join (cells : List Cell) (pool : SlotPool) :
    (join cells pool).cells.length + (join cells pool).count
      = cells.length := by
  fun_induction join cells pool with
  | case1 pool => rfl
  | case2 c pool => rfl
  | case3 c d rest pool text h ih =>
    simp only [Edit.cells_plus, Edit.cells_cons, Edit.count_plus,
      Edit.count_cons, List.length_cons]
    omega
  | case4 c d rest pool h ih =>
    simp only [Edit.cells_cons, Edit.count_cons, List.length_cons]
      at ih ⊢
    omega

end Fusion

end FlatC
