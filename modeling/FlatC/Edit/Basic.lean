import FlatC.Chain.Cells

/-!
# Editing a chain

A **pass** goes over the cells of a chain, or of its part from some slot
on, and what comes of it is an **edit**: the cells that are left, the pool
of slots as it stands afterwards and a count of the changes made. A pass
takes slots for the cells it puts in and gives back the slots of those it
leaves out, in the order in which it meets them.

Passes are plain recursions on cells. The few ways to build an edit are
here: nothing changed, a cell put in front, a change counted. So are the
two operations on all cells at once that passes share, counting the tokens
with a text and giving them another.
-/

namespace FlatC

/-- **What comes of a pass.** The cells and the pool are laid down together,
and so the slots in the two have to be those of before and new ones, each of
them once. -/
structure Edit where
  cells : List Cell
  pool : SlotPool
  count : Nat
  deriving DecidableEq, Repr

/-- **A pass**: what becomes of some cells, given the slots at hand. It knows
neither where the cells stand in a chain nor what is before them. -/
abbrev Pass := List Cell → SlotPool → Edit

namespace Edit

/-- Nothing changed: how a pass ends at the end of the cells, and where it
finds nothing to do. -/
def unchanged (cells : List Cell) (pool : SlotPool) : Edit :=
  ⟨cells, pool, 0⟩

/-- A cell left in front, once what is behind it has been edited. -/
def cons (c : Cell) (r : Edit) : Edit := { r with cells := c :: r.cells }

/-- Some cells left in front, once what is behind them has been edited. -/
def prepend (cs : List Cell) (r : Edit) : Edit :=
  { r with cells := cs ++ r.cells }

/-- Changes counted that were made before, nothing else being changed by it. -/
def plus (n : Nat) (r : Edit) : Edit := { r with count := n + r.count }

@[simp] theorem cells_unchanged (cells : List Cell) (pool : SlotPool) :
    (unchanged cells pool).cells = cells := rfl

@[simp] theorem pool_unchanged (cells : List Cell) (pool : SlotPool) :
    (unchanged cells pool).pool = pool := rfl

@[simp] theorem count_unchanged (cells : List Cell) (pool : SlotPool) :
    (unchanged cells pool).count = 0 := rfl

@[simp] theorem cells_cons (c : Cell) (r : Edit) :
    (r.cons c).cells = c :: r.cells := rfl

@[simp] theorem pool_cons (c : Cell) (r : Edit) :
    (r.cons c).pool = r.pool := rfl

@[simp] theorem count_cons (c : Cell) (r : Edit) :
    (r.cons c).count = r.count := rfl

@[simp] theorem cells_prepend (cs : List Cell) (r : Edit) :
    (r.prepend cs).cells = cs ++ r.cells := rfl

@[simp] theorem pool_prepend (cs : List Cell) (r : Edit) :
    (r.prepend cs).pool = r.pool := rfl

@[simp] theorem count_prepend (cs : List Cell) (r : Edit) :
    (r.prepend cs).count = r.count := rfl

@[simp] theorem cells_plus (n : Nat) (r : Edit) :
    (r.plus n).cells = r.cells := rfl

@[simp] theorem pool_plus (n : Nat) (r : Edit) :
    (r.plus n).pool = r.pool := rfl

@[simp] theorem count_plus (n : Nat) (r : Edit) :
    (r.plus n).count = n + r.count := rfl

theorem cons_prepend (c : Cell) (xs : List Cell) (r : Edit) :
    (r.prepend xs).cons c = r.prepend (c :: xs) := rfl

/-- Cells put in front one after another are put in front at once. -/
theorem prepend_prepend (xs ys : List Cell) (r : Edit) :
    (r.prepend ys).prepend xs = r.prepend (xs ++ ys) := by
  rw [prepend, prepend, prepend, List.append_assoc]

/-- To count and to leave in front are done in either order. -/
theorem prepend_plus (xs : List Cell) (n : Nat) (r : Edit) :
    (r.plus n).prepend xs = (r.prepend xs).plus n := rfl

/-- Changes counted at two moments are counted together. -/
theorem plus_plus (m n : Nat) (r : Edit) :
    (r.plus n).plus m = r.plus (m + n) := by
  rw [plus, plus, plus, Nat.add_assoc]

theorem plus_zero (r : Edit) : r.plus 0 = r := by
  rw [plus, Nat.zero_add]

end Edit

/-! ## Texts of cells -/

namespace Cell

/-- How many cells have a text. This is what a pass counts that replaces a
name wherever it stands. -/
def occurrences (text : String) (cells : List Cell) : Nat :=
  cells.countP fun c => c.text == text

/-- **Each cell with one text given another.** A cell keeps its slot and its
place in the source, whatever its text becomes. -/
def rename (old new : String) (cells : List Cell) : List Cell :=
  cells.map fun c => if c.text == old then c.withText new else c

@[simp] theorem length_rename (old new : String) (cells : List Cell) :
    (rename old new cells).length = cells.length := by
  rw [rename, List.length_map]

@[simp] theorem rename_nil (old new : String) : rename old new [] = [] := rfl

/-- Giving a text away changes the count of no third text. For the text `;`
this keeps the statements of a chain as many as they are. -/
theorem occurrences_rename {old new text : String} (cells : List Cell)
    (hold : old ≠ text) (hnew : new ≠ text) :
    occurrences text (rename old new cells) = occurrences text cells := by
  rw [occurrences, rename, List.countP_map]
  refine List.countP_congr fun c _ => ?_
  show ((if c.text == old then c.withText new else c).text == text) = true
    ↔ (c.text == text) = true
  by_cases h : c.text = old
  · simp [h, hold, hnew]
  · simp [h]

end Cell

/-! ## Passes over a chain -/

namespace TokenChain

/-- **The whole chain edited**, with its count. Slots beside the chain stay as
they are. -/
def edit (c : TokenChain) (pass : Pass) : Nat × TokenChain :=
  let r := pass c.cells c.pool
  (r.count, c.relay r.cells r.pool)

/-- **The chain edited from a slot on**, with its count. What stands
before the slot is left alone, and from a slot that is not on the chain
nothing is changed. -/
def editFrom (c : TokenChain) (start : Option TokenId) (pass : Pass) :
    Nat × TokenChain :=
  let cells := c.cells
  let before := cells.takeWhile fun cell => some cell.slot != start
  match cells.dropWhile fun cell => some cell.slot != start with
  | [] => (0, c)
  | cell :: rest =>
    let r := pass (cell :: rest) c.pool
    (r.count, c.relay (before ++ r.cells) r.pool)

end TokenChain

end FlatC
