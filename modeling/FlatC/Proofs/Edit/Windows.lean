import Mathlib.Data.List.Infix
import FlatC.Edit.Basic

/-!
# All windows replaced at once

Some passes look for short runs of tokens and write others in their place. A
**replacement** says which: what is written for a run, given the cell in front
of it. Where one applies in some cells there is a **window**. That all windows
are replaced at once is told without going over the cells (`Replaced`): the
cells fall into segments, those that are kept and those that are replaced; the
latter are just the windows that were there at the beginning; no two of them
overlap; and none is there at the end.

A pass goes from left to right, and what it does is told by `Scanned`: at each
place, a window that begins there is replaced, and a cell with which none
begins is kept. It might miss windows that way, since it goes on behind one
that it has replaced. It misses none if each window begins with a text that
comes nowhere else in it (`Replacement.Marked`), for then no window begins
within another one.
-/

namespace FlatC

/-- **What is written for some cells**, given the cell in front of them. A
relation, so that it can be told without a pass. -/
abbrev Replacement := Option Cell → List Cell → List Cell → Prop

/-- **A place in some cells where a replacement applies**, with what is
written for it. -/
structure Window (W : Replacement) (cells : List Cell) where
  before : List Cell
  window : List Cell
  after : List Cell
  written : List Cell
  eq : cells = before ++ window ++ after
  applies : W before.getLast? window written

/-- **A part of what is gone over**: a cell that is kept, or a window and what
is written for it. -/
inductive Segment where
  | kept (c : Cell)
  | replaced (window written : List Cell)

namespace Segment

/-- The cells that were there. -/
def old : Segment → List Cell
  | kept c => [c]
  | replaced window _ => window

/-- The cells that are there now. -/
def new : Segment → List Cell
  | kept c => [c]
  | replaced _ written => written

/-- Whether a segment is replaced. -/
def isReplaced : Segment → Bool
  | kept _ => false
  | replaced _ _ => true

end Segment

/-- **All windows of some cells replaced at once**, and counted. Nothing in
this says in which order it is done. -/
structure Replaced (W : Replacement) (cells : List Cell) (count : Nat)
    (cells' : List Cell) : Prop where
  /-- Two windows are the same or do not overlap. -/
  disjoint : ∀ v w : Window W cells, v = w
    ∨ v.before.length + v.window.length ≤ w.before.length
    ∨ w.before.length + w.window.length ≤ v.before.length
  /-- The cells fall into segments, as many of them replaced as are counted,
  and these are the windows, all of them and nothing else. -/
  segments : ∃ segments : List Segment,
    segments.flatMap Segment.old = cells
      ∧ segments.flatMap Segment.new = cells'
      ∧ segments.countP Segment.isReplaced = count
      ∧ (∀ w : Window W cells, ∃ l r,
        segments = l ++ .replaced w.window w.written :: r
          ∧ l.flatMap Segment.old = w.before)
      ∧ ∀ l x y r, segments = l ++ .replaced x y :: r →
        W (l.flatMap Segment.old).getLast? x y
  /-- No window is left, and none has come about. -/
  settled : Window W cells' → False

/-! ## Windows that do not overlap -/

/-- **A replacement whose windows are told by a mark**: each begins with it,
and it comes nowhere else in one. What is written is a matter of what is
there. -/
structure Replacement.Marked (W : Replacement) (mark : String) : Prop where
  begins : ∀ {before window written}, W before window written →
    ∃ c rest, window = c :: rest ∧ c.text = mark ∧ ∀ d ∈ rest, d.text ≠ mark
  unique : ∀ {before x y x' y' after after'}, W before x y → W before x' y' →
    x ++ after = x' ++ after' → x = x' ∧ y = y'

section Marked

variable {W : Replacement} {mark : String} {cells : List Cell}

/-- Cells without the mark in front of others: what comes before a mark has
all of them. -/
theorem exists_append_of_mark {rest after xs more : List Cell} {d : Cell}
    (hrest : ∀ e ∈ rest, e.text ≠ mark) (hd : d.text = mark)
    (h : rest ++ after = xs ++ d :: more) :
    ∃ t, xs = rest ++ t ∧ after = t ++ d :: more := by
  induction rest generalizing xs with
  | nil => exact ⟨xs, rfl, h⟩
  | cons e rest ih =>
    rw [List.forall_mem_cons] at hrest
    rcases xs with _ | ⟨e', xs⟩
    · obtain ⟨rfl, -⟩ := List.cons.inj h
      exact absurd hd hrest.1
    · obtain ⟨rfl, htail⟩ := List.cons.inj h
      obtain ⟨t, rfl, ht⟩ := ih hrest.2 htail
      exact ⟨t, rfl, ht⟩

/-- Windows that begin at the same place are the same. -/
theorem Replacement.Marked.eq_of_length (hW : W.Marked mark)
    {v w : Window W cells} (h : v.before.length = w.before.length) :
    v = w := by
  obtain ⟨before, x, after, y, hv, hx⟩ := v
  obtain ⟨before', x', after', y', hw, hx'⟩ := w
  have heq := hv.symm.trans hw
  rw [List.append_assoc, List.append_assoc] at heq
  obtain ⟨rfl, hrest⟩ := List.append_inj heq h
  obtain ⟨rfl, rfl⟩ := hW.unique hx hx' hrest
  obtain rfl := List.append_cancel_left hrest
  rfl

/-- **No window begins within another one**, as its mark would be a second one
there. -/
theorem Replacement.Marked.le_of_lt (hW : W.Marked mark)
    {v w : Window W cells} (h : v.before.length < w.before.length) :
    v.before.length + v.window.length ≤ w.before.length := by
  obtain ⟨before, x, after, y, hv, hx⟩ := v
  obtain ⟨before', x', after', y', hw, hx'⟩ := w
  dsimp only at h ⊢
  obtain ⟨c, rest, rfl, -, hrest⟩ := hW.begins hx
  obtain ⟨d, rest', rfl, hd, -⟩ := hW.begins hx'
  have heq := hv.symm.trans hw
  rw [List.append_assoc, List.append_assoc] at heq
  rcases List.append_eq_append_iff.mp heq with ⟨t, rfl, ht⟩ | ⟨t, rfl, -⟩
  · rcases t with _ | ⟨e, t⟩
    · simp at h
    · obtain ⟨rfl, htail⟩ := List.cons.inj ht
      obtain ⟨u, rfl, -⟩ := exists_append_of_mark hrest hd htail
      simp only [List.length_append, List.length_cons]
      omega
  · rw [List.length_append] at h
    omega

/-- Two windows are the same or do not overlap. -/
theorem Replacement.Marked.disjoint (hW : W.Marked mark)
    (v w : Window W cells) : v = w
      ∨ v.before.length + v.window.length ≤ w.before.length
      ∨ w.before.length + w.window.length ≤ v.before.length := by
  rcases Nat.lt_trichotomy v.before.length w.before.length with h | h | h
  · exact .inr (.inl (hW.le_of_lt h))
  · exact .inl (hW.eq_of_length h)
  · exact .inr (.inr (hW.le_of_lt h))

end Marked

/-! ## Going from left to right -/

/-- **Cells gone over from left to right**, behind a cell if there is one. It
says what is done at each place, and not yet that nothing is missed. -/
inductive Scanned (W : Replacement) : Option Cell → List Cell →
    List Segment → Prop
  | nil (before : Option Cell) : Scanned W before [] []
  | kept {before : Option Cell} {c : Cell} {rest : List Cell}
    {segments : List Segment} :
    (∀ x y after, c :: rest = x ++ after → ¬ W before x y) →
    Scanned W (some c) rest segments →
    Scanned W before (c :: rest) (.kept c :: segments)
  | replaced {before : Option Cell} {x y after : List Cell}
    {segments : List Segment} :
    W before x y → Scanned W (x.getLast?.or before) after segments →
    Scanned W before (x ++ after) (.replaced x y :: segments)

namespace Scanned

variable {W : Replacement} {mark : String} {before : Option Cell}
variable {cells xs x y ys : List Cell} {segments l r : List Segment}

/-- The segments are what was gone over. -/
theorem flatMap_old (h : Scanned W before cells segments) :
    segments.flatMap Segment.old = cells := by
  induction h with
  | nil before => rfl
  | kept _ _ ih => rw [List.flatMap_cons, ih]; rfl
  | replaced _ _ ih => rw [List.flatMap_cons, ih]; rfl

/-- What is in front of what comes behind two stretches of cells. -/
theorem getLast?_append_or (xs ys : List Cell) (before : Option Cell) :
    (xs ++ ys).getLast?.or before
      = ys.getLast?.or (xs.getLast?.or before) := by
  rw [List.getLast?_append, Option.or_assoc]

/-- **What is replaced is a window**, with what stands in front of it in the
cells as they were. -/
theorem applies (h : Scanned W before cells segments)
    (hsegments : segments = l ++ .replaced x y :: r) :
    W ((l.flatMap Segment.old).getLast?.or before) x y := by
  induction h generalizing l with
  | nil before => simp at hsegments
  | @kept before c rest segments hnone hrest ih =>
    rcases l with _ | ⟨s, l⟩
    · cases hsegments
    · obtain ⟨rfl, rfl⟩ := List.cons.inj hsegments
      have := ih rfl
      rw [List.flatMap_cons, getLast?_append_or]
      exact this
  | @replaced before x' y' after segments happlies hrest ih =>
    rcases l with _ | ⟨s, l⟩
    · cases hsegments
      exact happlies
    · obtain ⟨rfl, rfl⟩ := List.cons.inj hsegments
      have := ih rfl
      rw [List.flatMap_cons, getLast?_append_or]
      exact this

/-- **No window is missed**, as none begins within another one. A window is
met at its first cell or lies in what has been replaced, and then the mark at
its beginning would be in there. -/
theorem exists_replaced (h : Scanned W before cells segments)
    (hW : W.Marked mark) (hcells : cells = xs ++ x ++ ys)
    (happlies : W (xs.getLast?.or before) x y) :
    ∃ l r, segments = l ++ .replaced x y :: r
      ∧ l.flatMap Segment.old = xs := by
  obtain ⟨d, rest', rfl, hd, -⟩ := hW.begins happlies
  induction h generalizing xs with
  | nil before => simp at hcells
  | @kept before c rest segments hnone hrest ih =>
    rcases xs with _ | ⟨c', xs⟩
    · exact absurd happlies (hnone _ _ _ hcells)
    · rw [List.append_assoc, List.cons_append] at hcells
      obtain ⟨rfl, htail⟩ := List.cons.inj hcells
      have hor := getLast?_append_or [c] xs before
      rw [List.singleton_append] at hor
      obtain ⟨l, r, rfl, hl⟩ :=
        ih (htail.trans (List.append_assoc _ _ _).symm) (hor ▸ happlies)
      exact ⟨.kept c :: l, r, rfl, by rw [List.flatMap_cons, hl]; rfl⟩
  | @replaced before x' y' after segments happlies' hrest ih =>
    rcases xs with _ | ⟨c, xs⟩
    · obtain ⟨rfl, rfl⟩ := hW.unique happlies' happlies hcells
      exact ⟨[], segments, rfl, rfl⟩
    · obtain ⟨c', rest, rfl, -, hmark⟩ := hW.begins happlies'
      rw [List.append_assoc] at hcells
      obtain ⟨rfl, htail⟩ := List.cons.inj hcells
      obtain ⟨t, rfl, ht⟩ := exists_append_of_mark hmark hd htail
      have hor := getLast?_append_or (c' :: rest) t before
      rw [List.cons_append] at hor
      have hafter : after = t ++ (d :: rest') ++ ys := by simp [ht]
      obtain ⟨l, r, rfl, hl⟩ := ih hafter (hor ▸ happlies)
      exact ⟨.replaced (c' :: rest) y' :: l, r, rfl,
        by rw [List.flatMap_cons, hl]; rfl⟩

end Scanned

/-! ## Edits that go from left to right -/

/-- **What comes of going over some cells from left to right** and replacing
the windows, as an edit. -/
def Replacement.Makes (W : Replacement) (before : Option Cell)
    (cells : List Cell) (r : Edit) : Prop :=
  ∃ segments, Scanned W before cells segments
    ∧ segments.flatMap Segment.new = r.cells
    ∧ segments.countP Segment.isReplaced = r.count

namespace Replacement.Makes

variable {W : Replacement} {mark : String} {before : Option Cell} {c : Cell}
variable {cells rest x y after : List Cell} {r : Edit}

theorem nil (before : Option Cell) (pool : SlotPool) :
    W.Makes before [] (.unchanged [] pool) :=
  ⟨[], .nil before, rfl, rfl⟩

/-- A cell kept in front. -/
theorem cons (hnone : ∀ x y after, c :: rest = x ++ after → ¬ W before x y)
    (h : W.Makes (some c) rest r) : W.Makes before (c :: rest) (r.cons c) := by
  obtain ⟨segments, hscanned, hnew, hcount⟩ := h
  refine ⟨.kept c :: segments, .kept hnone hscanned, ?_, ?_⟩
  · rw [List.flatMap_cons, hnew]
    rfl
  · rw [List.countP_cons_of_neg Bool.false_ne_true, hcount, Edit.count_cons]

/-- A window replaced in front. -/
theorem replaced (happlies : W before x y)
    (h : W.Makes (x.getLast?.or before) after r) :
    W.Makes before (x ++ after) ((r.prepend y).plus 1) := by
  obtain ⟨segments, hscanned, hnew, hcount⟩ := h
  refine ⟨.replaced x y :: segments, .replaced happlies hscanned, ?_, ?_⟩
  · rw [List.flatMap_cons, hnew]
    rfl
  · rw [List.countP_cons_of_pos rfl, hcount, Edit.count_plus,
      Edit.count_prepend, Nat.add_comm]

/-- **Going from left to right replaces all windows at once**, if none has
come about. -/
theorem replaced_at_once (h : W.Makes none cells r) (hW : W.Marked mark)
    (hsettled : Window W r.cells → False) :
    Replaced W cells r.count r.cells := by
  obtain ⟨segments, hscanned, hnew, hcount⟩ := h
  refine ⟨hW.disjoint, ?_, hsettled⟩
  refine ⟨segments, hscanned.flatMap_old, hnew, hcount, fun w => ?_,
    fun l x y r hl => ?_⟩
  · have happlies := w.applies
    rw [← Option.or_none (o := w.before.getLast?)] at happlies
    exact hscanned.exists_replaced hW w.eq happlies
  · have happlies := hscanned.applies hl
    rwa [Option.or_none] at happlies

end Replacement.Makes

end FlatC
