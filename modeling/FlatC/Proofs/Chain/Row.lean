import FlatC.Proofs.Chain.Copying

/-!
# Chains and rows

Eight operations edit a chain, and what each of them is for can be said of
a list alone. A **row** is that list: the cells in order, and the pool
their slots come from. `Row.act` says what each operation does to it –
append, put behind, drop behind, drop in front, replace a text, splice
copies, empty – in functions on lists that touch nothing else, and what it
answers. No link, no tail and no counter occurs there.

`act_row` says that a tidy chain given slots of its own does just that:
the row of the chain after an operation is what the operation makes of the
row before, with the same answer, and the chain is tidy again.
-/

namespace FlatC

/-! ## Lists of cells around a slot -/

namespace Cell

/-- The cells after a slot, none if it is not among them. -/
def behind (id : TokenId) : List Cell → List Cell
  | [] => []
  | c :: rest => if c.slot = id then rest else behind id rest

/-- The cells from a slot on, none if it is not among them. -/
def fromSlot (id : TokenId) : List Cell → List Cell
  | [] => []
  | c :: rest => if c.slot = id then c :: rest else fromSlot id rest

/-- The cells up to a slot and with it, all of them if it is not among them. -/
def upTo (id : TokenId) : List Cell → List Cell
  | [] => []
  | c :: rest => if c.slot = id then [c] else c :: upTo id rest

/-- **The cells after a slot changed**, those up to it left alone. If the slot
is not among them, nothing is changed. -/
def mapBehind (id : TokenId) (f : List Cell → List Cell) :
    List Cell → List Cell
  | [] => []
  | c :: rest =>
    if c.slot = id then c :: f rest else c :: mapBehind id f rest

/-- The text in one slot replaced. Slots come once, so this is one cell at
most. -/
def retext (id : TokenId) (text : String) (cells : List Cell) :
    List Cell :=
  cells.map fun c => if c.slot = id then c.withText text else c

/-- **The tokens a copy reads**, so many at most: from the source on, and over
and over once the reader is past the destination. -/
def copied (dest src : TokenId) (n : Nat) (cells : List Cell) :
    List Token :=
  let read := fromSlot src cells
  if dest ∈ slots read then cycle n ((upTo dest read).map Cell.token)
  else (read.map Cell.token).take n

variable {before rest : List Cell} {cell : Cell}

theorem notMem_cons {b : Cell} (h : cell.slot ∉ slots (b :: before)) :
    b.slot ≠ cell.slot ∧ cell.slot ∉ slots before := by
  rw [slots, List.map_cons, List.mem_cons, not_or] at h
  exact ⟨Ne.symm h.1, h.2⟩

/-- What stands behind a cell is after its slot, provided that the slot does
not come before. -/
theorem behind_append (h : cell.slot ∉ slots before) :
    behind cell.slot (before ++ cell :: rest) = rest := by
  induction before with
  | nil => exact if_pos rfl
  | cons b before ih =>
    obtain ⟨hb, hbefore⟩ := notMem_cons h
    rw [List.cons_append, behind, if_neg hb, ih hbefore]

/-- A cell and what stands behind it are from its slot on. -/
theorem fromSlot_append (h : cell.slot ∉ slots before) :
    fromSlot cell.slot (before ++ cell :: rest) = cell :: rest := by
  induction before with
  | nil => exact if_pos rfl
  | cons b before ih =>
    obtain ⟨hb, hbefore⟩ := notMem_cons h
    rw [List.cons_append, fromSlot, if_neg hb, ih hbefore]

/-- What stands before a cell, and the cell, are up to its slot. -/
theorem upTo_append (h : cell.slot ∉ slots before) :
    upTo cell.slot (before ++ cell :: rest) = before ++ [cell] := by
  induction before with
  | nil => exact if_pos rfl
  | cons b before ih =>
    obtain ⟨hb, hbefore⟩ := notMem_cons h
    rw [List.cons_append, upTo, if_neg hb, ih hbefore,
      List.cons_append]

/-- What stands behind a cell is what is changed after its slot. -/
theorem mapBehind_append (h : cell.slot ∉ slots before)
    (f : List Cell → List Cell) :
    mapBehind cell.slot f (before ++ cell :: rest)
      = before ++ cell :: f rest := by
  induction before with
  | nil => exact if_pos rfl
  | cons b before ih =>
    obtain ⟨hb, hbefore⟩ := notMem_cons h
    rw [List.cons_append, mapBehind, if_neg hb, ih hbefore,
      List.cons_append]

/-- A slot of none of the cells is the place of no text. -/
theorem retext_of_notMem {id : TokenId} {cells : List Cell}
    (h : id ∉ slots cells) (text : String) :
    retext id text cells = cells := by
  induction cells with
  | nil => rfl
  | cons c cells ih =>
    rw [slots, List.map_cons, List.mem_cons, not_or] at h
    rw [retext, List.map_cons, if_neg (Ne.symm h.1)]
    exact congrArg (c :: ·) (ih h.2)

/-- The text in a cell's slot is the cell's. -/
theorem retext_append (hb : cell.slot ∉ slots before)
    (hr : cell.slot ∉ slots rest) (text : String) :
    retext cell.slot text (before ++ cell :: rest)
      = before ++ cell.withText text :: rest := by
  have hb := retext_of_notMem hb text
  have hr := retext_of_notMem hr text
  rw [retext] at hb hr
  rw [retext, List.map_append, List.map_cons, hb, hr, if_pos rfl]

end Cell

/-! ## Operations -/

/-- **An operation on a chain**, with what it is given. A slot may be any,
free or never opened ones included. -/
inductive ChainOp where
  | pushBack (t : Token)
  | insertAfter (id : TokenId) (t : Token)
  | removeNext (id : TokenId)
  | removeNextN (id : TokenId) (n : Nat)
  | removeHead
  | setText (id : TokenId) (text : String)
  | copyAfter (dest src : TokenId) (n : Nat)
  | clear
  deriving DecidableEq, Repr

/-- **What an operation answers.** An operation that changes something in a
fixed way answers nothing. -/
inductive Answer where
  | slot (id : Option TokenId)
  | whether (b : Bool)
  | count (n : Nat)
  | nothing
  deriving DecidableEq, Repr

namespace ChainOp

/-- The slots an operation is given, the one it copies from among them. -/
def slots : ChainOp → List TokenId
  | insertAfter id _ | removeNext id | removeNextN id _ | setText id _ => [id]
  | copyAfter dest src _ => [dest, src]
  | pushBack _ | removeHead | clear => []

/-- The slot an operation works at, if it is given one: for a copy, the
destination. -/
def place? : ChainOp → Option TokenId
  | insertAfter id _ | removeNext id | removeNextN id _ | setText id _ => id
  | copyAfter dest _ _ => dest
  | pushBack _ | removeHead | clear => none

/-- **Operations carried out one after another**, with their answers, as a
chain would carry them out. -/
def run {σ : Type} (act : σ → ChainOp → Answer × σ) (s : σ) :
    List ChainOp → List Answer × σ
  | [] => ([], s)
  | op :: ops =>
    let (a, s) := act s op
    let (as, s) := run act s ops
    (a :: as, s)

end ChainOp

/-- **An operation carried out on a chain**, that is along its links. -/
def TokenChain.act (c : TokenChain) : ChainOp → Answer × TokenChain
  | .pushBack t => let (id, c) := c.pushBack t; (.slot id, c)
  | .insertAfter id t => let (new, c) := c.insertAfter id t; (.slot new, c)
  | .removeNext id => let (b, c) := c.removeNext id; (.whether b, c)
  | .removeNextN id n => let (k, c) := c.removeNextN id n; (.count k, c)
  | .removeHead => let (b, c) := c.removeHead; (.whether b, c)
  | .setText id text => (.nothing, c.setText id text)
  | .copyAfter dest src n =>
    let (last, c) := c.copyAfter dest src n; (.slot last, c)
  | .clear => (.nothing, .empty)

/-- **A row**: cells in order, and the pool their slots come from. It is what
a chain would be if it were a list. -/
structure Row where
  cells : List Cell
  pool : SlotPool
  deriving DecidableEq, Repr

namespace Row

/-- The row without cells, no slot being opened. -/
def empty : Row := ⟨[], ⟨[], 0⟩⟩

/-- **An operation carried out on a row**, told by lists alone: nothing in
this knows of links. -/
def act (r : Row) : ChainOp → Answer × Row
  | .pushBack t =>
    let (new, pool) := r.pool.take
    (.slot new, ⟨r.cells ++ [⟨new, t⟩], pool⟩)
  | .insertAfter id t =>
    let (new, pool) := r.pool.take
    (.slot new, ⟨Cell.mapBehind id (⟨new, t⟩ :: ·) r.cells, pool⟩)
  | .removeNext id =>
    let gone := (Cell.behind id r.cells).take 1
    (.whether !gone.isEmpty,
      ⟨Cell.mapBehind id (·.drop 1) r.cells, r.pool.giveAll gone⟩)
  | .removeNextN id n =>
    let gone := (Cell.behind id r.cells).take n
    (.count gone.length,
      ⟨Cell.mapBehind id (·.drop n) r.cells, r.pool.giveAll gone⟩)
  | .removeHead =>
    (.whether !r.cells.isEmpty,
      ⟨r.cells.drop 1, r.pool.giveAll (r.cells.take 1)⟩)
  | .setText id text => (.nothing, ⟨Cell.retext id text r.cells, r.pool⟩)
  | .copyAfter dest src n =>
    let (copies, pool) := r.pool.copy (Cell.copied dest src n r.cells)
    (.slot (copies.getLast?.map Cell.slot),
      ⟨Cell.mapBehind dest (copies ++ ·) r.cells, pool⟩)
  | .clear => (.nothing, empty)

end Row

namespace TokenChain

open Cell (entry slots)

variable {c c' : TokenChain} {cells left before rest : List Cell}
variable {cell : Cell} {op : ChainOp}

/-- The row of a chain. -/
def row (c : TokenChain) : Row := ⟨c.cells, c.pool⟩

theorem Laid.row_eq (h : c.Laid cells) : c.row = ⟨cells, c.pool⟩ := by
  rw [row, h.cells_eq]

/-- **What it is for a chain to follow a row**: it is tidy, and what it
answered and became is what the row did. -/
structure Follows (r : Answer × TokenChain) (s : Answer × Row) : Prop where
  tidy : r.2.Tidy
  answer : r.1 = s.1
  row : r.2.row = s.2

/-- A chain that lays down the cells of a row and has their number for its
length follows it. -/
theorem Laid.follows {a : Answer} {p : SlotPool} (h : c.Laid cells)
    (hlen : c.len = cells.length) (hpool : c.pool = p) :
    Follows (a, c) (a, ⟨cells, p⟩) :=
  ⟨h.tidy_iff.mpr hlen, rfl, h.row_eq.trans (hpool ▸ rfl)⟩

/-! ## A tidy chain follows its row -/

/-- A slot of a tidy chain, between what comes before and after it. The
operations on rows look for the slot, and those on chains are told of the
place; here the two meet. -/
theorem Tidy.split (h : c.Tidy) {id : TokenId} (hid : id ∈ c.ids) :
    ∃ before cell rest, cell.slot = id
      ∧ c.Laid (before ++ cell :: rest)
      ∧ c.row = ⟨before ++ cell :: rest, c.pool⟩
      ∧ c.len = (before ++ cell :: rest).length
      ∧ cell.slot ∉ slots before ∧ cell.slot ∉ slots rest := by
  rw [h.laid.ids_eq] at hid
  obtain ⟨cell, hcell, hslot⟩ := List.mem_map.mp hid
  obtain ⟨before, rest, hsplit⟩ := List.append_of_mem hcell
  have hlaid := hsplit ▸ h.laid
  exact ⟨before, cell, rest, hslot, hlaid, hlaid.row_eq,
    hsplit ▸ h.len_eq, Cell.notMem_of_nodup hlaid.nodup⟩

namespace Tidy

variable (h : c.Tidy)
include h

theorem follows_pushBack (t : Token) :
    Follows (c.act (.pushBack t)) (c.row.act (.pushBack t)) := by
  show Follows (.slot (c.pushBack t).1, (c.pushBack t).2) _
  rw [fst_pushBack]
  refine (h.laid.pushBack t).follows ?_ (pool_pushBack c t)
  rw [len_pushBack, h.len_eq, List.length_append]
  rfl

/-- A token put after a slot of the chain is put after the cell there. -/
theorem follows_insertAfter {id : TokenId} (hid : id ∈ c.ids) (t : Token) :
    Follows (c.act (.insertAfter id t)) (c.row.act (.insertAfter id t)) := by
  obtain ⟨before, cell, rest, rfl, hlaid, hrow, hlen, hb, -⟩ := h.split hid
  show Follows (.slot (c.insertAfter cell.slot t).1,
    (c.insertAfter cell.slot t).2) (.slot c.pool.take.1,
      ⟨Cell.mapBehind cell.slot (⟨c.pool.take.1, t⟩ :: ·) c.cells,
        c.pool.take.2⟩)
  have hcells : c.cells = before ++ cell :: rest := congrArg Row.cells hrow
  rw [fst_insertAfter, hcells, Cell.mapBehind_append hb]
  refine (hlaid.insertAfter_mem t).follows ?_ (pool_insertAfter c _ t)
  rw [len_insertAfter, hlen]
  simp only [List.length_append, List.length_cons]
  omega

/-- What is dropped behind a slot is dropped behind the cell there. -/
theorem follows_removeNextN {id : TokenId} (hid : id ∈ c.ids) (n : Nat) :
    Follows (c.act (.removeNextN id n)) (c.row.act (.removeNextN id n)) := by
  obtain ⟨before, cell, rest, rfl, hlaid, hrow, hlen, hb, -⟩ := h.split hid
  obtain ⟨hcount, hleft, hpool⟩ := hlaid.removeNextN_mem n
  have hlost := (hlaid.removeNextN cell.slot n).2
  show Follows (.count (c.removeNextN cell.slot n).1,
    (c.removeNextN cell.slot n).2) _
  rw [hcount, ← List.length_take, hrow, Row.act, Cell.behind_append hb,
    Cell.mapBehind_append hb]
  refine hleft.follows ?_ hpool
  simp only [List.length_append, List.length_cons, List.length_drop]
    at hlen ⊢
  omega

/-- Removing what comes behind a slot drops the cell there, and answers
whether there was one. The slot of the cell goes back to the pool on both
sides. -/
theorem follows_removeNext {id : TokenId} (hid : id ∈ c.ids) :
    Follows (c.act (.removeNext id)) (c.row.act (.removeNext id)) := by
  obtain ⟨before, cell, rest, rfl, hlaid, hrow, hlen, hb, -⟩ := h.split hid
  have hanswer := hlaid.fst_removeNext_mem
  show Follows (.whether (c.removeNext cell.slot).1,
    (c.removeNext cell.slot).2) _
  rw [hanswer, hrow, Row.act, Cell.behind_append hb,
    Cell.mapBehind_append hb]
  cases rest with
  | nil =>
    rw [removeNext_of_next?_eq_none hlaid.next?_mem]
    exact hlaid.follows hlen rfl
  | cons gone rest =>
    have hnext : c.next? cell.slot = some gone.slot := hlaid.next?_mem
    have hlost := hlaid.len_removeNext hnext
    refine hlaid.removeNext_mem.follows ?_
      (hlaid.accounted.removeNext hlaid.linked hnext).2.2.2
    simp only [List.length_append, List.length_cons] at hlen ⊢
    show _ = before.length + (rest.length + 1)
    omega

/-- Removing the head drops the first cell. An empty chain has none, and
answers so. -/
theorem follows_removeHead :
    Follows (c.act .removeHead) (c.row.act .removeHead) := by
  have hlaid := h.laid
  have hlen := h.len_eq
  show Follows (.whether (c.removeHead).1, (c.removeHead).2) _
  rw [row, Row.act]
  cases hcells : c.cells with
  | nil =>
    rw [hcells] at hlaid hlen
    rw [hlaid.removeHead_nil]
    exact hlaid.follows hlen rfl
  | cons gone rest =>
    rw [hcells] at hlaid hlen
    have hlost := hlaid.len_removeHead
    have hlive := hlaid.isSome_node? (List.mem_cons_self (a := gone.slot))
    rw [show (c.removeHead).1 = true by rw [removeHead_of_head hlaid.head]]
    refine hlaid.removeHead_cons.follows ?_
      (hlaid.accounted.removeHead hlaid.head hlive).2.2.2
    rw [List.length_cons] at hlen
    show _ = rest.length
    omega

/-- The text in a slot is that of the cell there. -/
theorem follows_setText {id : TokenId} (hid : id ∈ c.ids) (s : String) :
    Follows (c.act (.setText id s)) (c.row.act (.setText id s)) := by
  obtain ⟨before, cell, rest, rfl, hlaid, hrow, hlen, hb, hr⟩ := h.split hid
  show Follows (.nothing, c.setText cell.slot s) _
  rw [hrow, Row.act, Cell.retext_append hb hr]
  refine (hlaid.setText_mem s).follows ?_ ?_
  · rw [List.length_append, List.length_cons] at hlen ⊢
    exact hlen
  · show SlotPool.mk _ _ = SlotPool.mk _ _
    exact congrArg _ (size_nodes_modifyNode c _ _)

/-- Copies put in behind a slot are what a row splices there. How they came to
be is of no matter here, so this serves for putting in one token and for
copying several. -/
theorem follows_copies {id : TokenId} {r : Option TokenId × TokenChain}
    {ts : List Token} (hcells : c.cells = before ++ cell :: rest)
    (hid : cell.slot = id) (hb : cell.slot ∉ slots before)
    (hr : c.Copies r ts (before ++ [cell]) rest) :
    Follows (.slot r.1, r.2)
      (.slot ((c.pool.copy ts).1.getLast?.map Cell.slot),
        ⟨Cell.mapBehind id ((c.pool.copy ts).1 ++ ·) c.cells,
          (c.pool.copy ts).2⟩) := by
  subst hid
  have hlaid : r.2.Laid
      (before ++ cell :: ((c.pool.copy ts).1 ++ rest)) := by
    simpa using hr.laid
  have hlen := h.len_eq
  rw [hcells] at hlen
  rw [hr.answer, hcells, Cell.mapBehind_append hb]
  refine hlaid.follows ?_ hr.pool
  rw [hr.len, hlen]
  simp only [List.length_append, List.length_cons, SlotPool.length_copy]
  omega

/-- What a copy reads along the links is what the row reads, before the
destination or behind it. -/
theorem follows_copyAfter {dest src : TokenId} (hdest : dest ∈ c.ids)
    (hsrc : src ∈ c.ids) (n : Nat) :
    Follows (c.act (.copyAfter dest src n))
      (c.row.act (.copyAfter dest src n)) := by
  obtain ⟨before, d, rest, rfl, hlaid, hrow, -, hb, hr⟩ := h.split hdest
  have hcells : c.cells = before ++ d :: rest := congrArg Row.cells hrow
  refine h.follows_copies hcells rfl hb ?_
  show c.Copies (c.copyAfter d.slot src n)
    (Cell.copied d.slot src n c.cells) _ _
  rw [h.laid.ids_eq, hcells, List.append_cons, slots, List.map_append,
    List.mem_append] at hsrc
  rcases hsrc with hsrc | hsrc
  · -- the source comes at or before the destination
    obtain ⟨s, hs, rfl⟩ := List.mem_map.mp hsrc
    obtain ⟨front, tl, hsplit⟩ := List.append_of_mem hs
    obtain ⟨init, last, htl⟩ : ∃ init last, s :: tl = init ++ [last] :=
      ⟨_, _, (List.dropLast_concat_getLast (List.cons_ne_nil s tl)).symm⟩
    rw [htl, ← List.append_assoc] at hsplit
    obtain ⟨rfl, hlast⟩ := List.append_inj' hsplit rfl
    obtain rfl : d = last := List.singleton_inj.mp hlast
    have hall : (front ++ init) ++ d :: rest = front ++ s :: (tl ++ rest) := by
      rw [← List.cons_append, htl]
      simp
    have hstretch : s :: (tl ++ rest) = init ++ d :: rest := by
      rw [← List.cons_append, htl]
      simp
    have hfront := Cell.notMem_of_nodup (hall ▸ hlaid.nodup)
    have hinit : d.slot ∉ slots init := fun hd =>
      hb (by rw [slots, List.map_append]; exact List.mem_append_right _ hd)
    have hread : Cell.copied d.slot s.slot n c.cells
        = cycle n ((init ++ [d]).map Cell.token) := by
      rw [hcells, hall, Cell.copied, Cell.fromSlot_append hfront.1, hstretch,
        if_pos (by simp), Cell.upTo_append hinit]
    rw [hread, List.append_assoc]
    refine Laid.copyAfter_of_stretch (List.append_assoc .. ▸ hlaid) ?_ n
    rw [← htl]
    rfl
  · -- the source comes behind the destination
    obtain ⟨s, hs, rfl⟩ := List.mem_map.mp hsrc
    obtain ⟨mid, read, rfl⟩ := List.append_of_mem hs
    have hall : before ++ d :: (mid ++ s :: read)
        = (before ++ d :: mid) ++ s :: read := by simp
    have hmid := Cell.notMem_of_nodup (hall ▸ hlaid.nodup)
    have hdest : d.slot ∉ slots (s :: read) := fun hd =>
      hr (by rw [slots, List.map_append]; exact List.mem_append_right _ hd)
    have hread : Cell.copied d.slot s.slot n c.cells
        = ((s :: read).map Cell.token).take n := by
      rw [hcells, hall, Cell.copied, Cell.fromSlot_append hmid.1,
        if_neg hdest]
    rw [hread]
    exact hlaid.copyAfter_of_behind rfl n

omit h in
theorem follows_clear : Follows (c.act .clear) (c.row.act .clear) :=
  ⟨tidy_empty, rfl, rfl⟩

/-- **A tidy chain given slots of its own does what its row does**, and is
tidy again. -/
theorem act_row (hop : ∀ id ∈ op.slots, id ∈ c.ids) :
    Follows (c.act op) (c.row.act op) := by
  cases op with
  | pushBack t => exact h.follows_pushBack t
  | insertAfter id t =>
    exact h.follows_insertAfter (hop id List.mem_cons_self) t
  | removeNext id => exact h.follows_removeNext (hop id List.mem_cons_self)
  | removeNextN id n =>
    exact h.follows_removeNextN (hop id List.mem_cons_self) n
  | removeHead => exact h.follows_removeHead
  | setText id s => exact h.follows_setText (hop id List.mem_cons_self) s
  | copyAfter dest src n =>
    exact h.follows_copyAfter (hop dest List.mem_cons_self)
      (hop src (List.mem_cons_of_mem _ List.mem_cons_self)) n
  | clear => exact follows_clear

end Tidy

end TokenChain

end FlatC
