import Mathlib.Data.List.Count
import FlatC.Proofs.Chain.Row

/-!
# The stock of slots

A pass that edits a row takes slots from the pool and gives slots back, and
it must lose none on the way and hand none out twice. Counting says both at
once. The **stock** of a row has each slot as often as it is at hand: as
the slot of a cell, as a free one in the pool, or as one the pool has not
opened yet. A row has **exchanged** slots for another if the stock is the
same and no slot was closed again.

Cells kept, dropped, put in and renamed each have their law here, and a
pass is put together from them. What an unchanged stock is good for is
seen where a row is laid down as a chain.
-/

namespace FlatC

open Cell (slots)

/-- How often a slot is at hand in a pool: as a free one, or as one that is
not opened yet. Counting makes both into one notion, and twice is told apart
from once. -/
def SlotPool.stock (p : SlotPool) (id : TokenId) : Nat :=
  p.free.count id + if p.size ≤ id.index then 1 else 0

/-- Slots of cells are counted cell by cell. -/
theorem Cell.count_slots_cons (c : Cell) (cells : List Cell) (id : TokenId) :
    (slots (c :: cells)).count id
      = [c.slot].count id + (slots cells).count id := by
  show ([c.slot] ++ slots cells).count id = _
  rw [List.count_append]

/-- Slots of cells are counted part by part. -/
theorem Cell.count_slots_append (xs ys : List Cell) (id : TokenId) :
    (slots (xs ++ ys)).count id
      = (slots xs).count id + (slots ys).count id := by
  rw [slots, List.map_append, List.count_append]

namespace SlotPool

/-- A slot taken back is one more in stock. -/
theorem stock_give (p : SlotPool) (a id : TokenId) :
    (p.give a).stock id = [a].count id + p.stock id := by
  rw [stock, stock, ← Nat.add_assoc, ← List.count_append]
  rfl

/-- The slots of some cells taken back are as many more in stock. -/
theorem stock_giveAll (p : SlotPool) (cells : List Cell) (id : TokenId) :
    (p.giveAll cells).stock id = (slots cells).count id + p.stock id := by
  induction cells generalizing p with
  | nil => exact (Nat.zero_add _).symm
  | cons c cells ih =>
    rw [giveAll_cons, ih, stock_give, Cell.count_slots_cons]
    omega

@[simp] theorem size_giveAll (p : SlotPool) (cells : List Cell) :
    (p.giveAll cells).size = p.size := by
  induction cells generalizing p with
  | nil => rfl
  | cons c cells ih => rw [giveAll_cons, ih, size_give]

/-- **The slot handed out is one less in stock**, and each of the others is in
stock as often as before. -/
theorem stock_take (p : SlotPool) (id : TokenId) :
    [p.take.1].count id + p.take.2.stock id = p.stock id := by
  obtain ⟨free, size⟩ := p
  cases free with
  | nil =>
    show [TokenId.mk size].count id + (0 + if size + 1 ≤ id.index then 1 else 0)
      = 0 + if size ≤ id.index then 1 else 0
    rw [List.count_singleton]
    by_cases h : TokenId.mk size = id
    · subst h
      simp
    · have hne : id.index ≠ size := fun he => h (TokenId.eq_iff.mpr he.symm)
      rw [beq_eq_false_iff_ne.mpr h, if_neg Bool.false_ne_true]
      have : size + 1 ≤ id.index ↔ size ≤ id.index := by omega
      simp only [this]
      omega
  | cons a free => exact (stock_give ⟨free, size⟩ a id).symm

theorem size_le_take (p : SlotPool) : p.size ≤ p.take.2.size := by
  obtain ⟨free, size⟩ := p
  cases free with
  | nil => exact Nat.le_succ size
  | cons a free => exact Nat.le_refl size

/-- What copies are put in is no longer in stock. -/
theorem stock_copy (p : SlotPool) (ts : List Token) (id : TokenId) :
    (slots (p.copy ts).1).count id + (p.copy ts).2.stock id
      = p.stock id := by
  induction ts generalizing p with
  | nil => exact Nat.zero_add _
  | cons t ts ih =>
    rw [TokenChain.copy_cons, Cell.count_slots_cons, Nat.add_assoc,
      ih p.take.2, stock_take]

theorem size_le_copy (p : SlotPool) (ts : List Token) :
    p.size ≤ (p.copy ts).2.size := by
  induction ts generalizing p with
  | nil => exact Nat.le_refl _
  | cons t ts ih => exact Nat.le_trans p.size_le_take (ih p.take.2)

end SlotPool

namespace Row

variable {r s t : Row} {xs ys : List Cell} {p q : SlotPool} {c d : Cell}

/-- How often a slot is at hand in a row, in a cell or in the pool. -/
def stock (r : Row) (id : TokenId) : Nat :=
  (slots r.cells).count id + r.pool.stock id

theorem stock_append (xs ys : List Cell) (p : SlotPool) (id : TokenId) :
    (⟨xs ++ ys, p⟩ : Row).stock id
      = (slots xs).count id + (⟨ys, p⟩ : Row).stock id := by
  rw [stock, stock, Cell.count_slots_append, Nat.add_assoc]

/-- **What it is for a row to have exchanged slots for another**: the stock is
the same, and no slot was closed. All that a pass may do to slots is this. -/
structure Exchanged (r s : Row) : Prop where
  size_le : r.pool.size ≤ s.pool.size
  stock : ∀ id, s.stock id = r.stock id

namespace Exchanged

theorem refl (r : Row) : Exchanged r r :=
  ⟨Nat.le_refl _, fun _ => rfl⟩

/-- One exchange after another is an exchange. -/
theorem trans (h : Exchanged r s) (k : Exchanged s t) : Exchanged r t :=
  ⟨Nat.le_trans h.size_le k.size_le, fun id => (k.stock id).trans (h.stock id)⟩

/-- Cells in the same slots, in whatever order. -/
theorem of_perm (h : (slots xs).Perm (slots ys)) :
    Exchanged ⟨xs, p⟩ ⟨ys, p⟩ :=
  ⟨Nat.le_refl _, fun id => by rw [Row.stock, Row.stock, h.count_eq]⟩

/-- Other tokens in the same slots. -/
theorem of_slots (h : slots xs = slots ys) : Exchanged ⟨xs, p⟩ ⟨ys, p⟩ :=
  of_perm (h ▸ List.Perm.refl _)

/-- **Cells kept in front**, with whatever tokens. So an edit of a part of the
cells is one of all. -/
theorem append (h : Exchanged ⟨xs, p⟩ ⟨ys, q⟩) (before before' : List Cell)
    (hslots : slots before = slots before') :
    Exchanged ⟨before ++ xs, p⟩ ⟨before' ++ ys, q⟩ := by
  refine ⟨h.size_le, fun id => ?_⟩
  rw [stock_append, stock_append, h.stock, hslots]

/-- **A cell kept in front**, with whatever token. -/
theorem cons (h : Exchanged ⟨xs, p⟩ ⟨ys, q⟩) (hslot : c.slot = d.slot) :
    Exchanged ⟨c :: xs, p⟩ ⟨d :: ys, q⟩ :=
  h.append [c] [d] (congrArg (· :: []) hslot)

/-- **Cells dropped in front**, their slots given back. -/
theorem dropped (before xs : List Cell) (p : SlotPool) :
    Exchanged ⟨before ++ xs, p⟩ ⟨xs, p.giveAll before⟩ := by
  refine ⟨Nat.le_of_eq (p.size_giveAll before).symm, fun id => ?_⟩
  rw [stock_append, Row.stock, Row.stock, SlotPool.stock_giveAll]
  show (slots xs).count id + ((slots before).count id + p.stock id)
    = (slots before).count id + ((slots xs).count id + p.stock id)
  omega

/-- So many cells dropped in front. -/
theorem taken (n : Nat) (xs : List Cell) (p : SlotPool) :
    Exchanged ⟨xs, p⟩ ⟨xs.drop n, p.giveAll (xs.take n)⟩ := by
  have h := dropped (xs.take n) (xs.drop n) p
  rwa [List.take_append_drop] at h

/-- **Copies put in front**, in slots handed out for them. -/
theorem copied (ts : List Token) (xs : List Cell) (p : SlotPool) :
    Exchanged ⟨xs, p⟩ ⟨(p.copy ts).1 ++ xs, (p.copy ts).2⟩ := by
  refine ⟨p.size_le_copy ts, fun id => ?_⟩
  have hcopy := p.stock_copy ts id
  rw [stock_append, Row.stock, Row.stock]
  show (slots (p.copy ts).1).count id
      + ((slots xs).count id + (p.copy ts).2.stock id)
    = (slots xs).count id + p.stock id
  omega

/-- A new cell put in front, in the slot that is next. -/
theorem taking (t : Token) (xs : List Cell) (p : SlotPool) :
    Exchanged ⟨xs, p⟩ ⟨⟨p.take.1, t⟩ :: xs, p.take.2⟩ :=
  copied [t] xs p

end Exchanged

end Row

end FlatC
