import FlatC.Proofs.Chain.Slots

/-!
# A chain that lays down a list of cells

A chain is an array of slots that lead to one another, and what it is
*for* is a list of cells. `c.Laid cells` says that the one is the other:
from the head on the links of `c` spell out `cells` and end, no slot comes
twice, the tail is the last slot, the free slots are accounted for and the
length is the number of live slots.

## Slots beside the chain

Nothing keeps an operation from being given a slot that is free, and
`insertAfter` then makes a token that nothing on the chain leads to. Such
slots stay live beside the chain and lead to one another, and the free
slots do not tell them from those of the chain. So `Laid` does not ask
that every live slot be on the chain. What it asks instead is of the links
alone (`Linked`): each leads to a live slot, no two lead to the same slot,
and none leads to the head. This is kept by every operation, whatever slot
it is given, and it is enough to hold the two apart: a slot beside the
chain leads to no slot of the chain (`Laid.apart`).

Where every live slot *is* on the chain, the chain is **tidy**
(`Tidy`), and its length is the number of its cells (`Laid.tidy_iff`).
-/

namespace FlatC

/-- **The slot by which some cells are entered**: that of the first one,
or `after` if there is none. -/
def Cell.entry : List Cell → Option TokenId → Option TokenId
  | [], after => after
  | cell :: _, _ => some cell.slot

/-- The slots of some cells. -/
abbrev Cell.slots (cells : List Cell) : List TokenId :=
  cells.map Cell.slot

/-- Some cells are entered at their first one, or at those behind them if
there is none. -/
theorem Cell.entry_append (xs ys : List Cell) (after : Option TokenId) :
    Cell.entry (xs ++ ys) after = Cell.entry xs (Cell.entry ys after) := by
  cases xs <;> rfl

/-- A cell whose slot comes once is apart from those around it, so an edit at
its slot meets no other. -/
theorem Cell.notMem_of_nodup {before rest : List Cell} {cell : Cell}
    (h : (Cell.slots (before ++ cell :: rest)).Nodup) :
    cell.slot ∉ Cell.slots before ∧ cell.slot ∉ Cell.slots rest := by
  rw [Cell.slots, List.map_append, List.map_cons, List.nodup_middle,
    List.nodup_cons, List.mem_append, not_or] at h
  exact h.1

namespace TokenChain

open Cell (entry slots)

variable {c c' : TokenChain} {cells xs ys : List Cell}
variable {after : Option TokenId} {id a b : TokenId}

/-! ## Cells spelled out by links -/

/-- **Some cells spelled out**: each is in its slot and leads to the one after
it, and the last one leads to `after`. A part of a chain can be spelled out by
itself in this way. -/
def Spelled (c : TokenChain) : List Cell → Option TokenId → Prop
  | [], _ => True
  | cell :: rest, after =>
    c.node? cell.slot = some ⟨cell.token, entry rest after⟩
      ∧ c.Spelled rest after

/-- Cells are spelled out in two parts, the first of which leads to the
second. -/
theorem spelled_append :
    c.Spelled (xs ++ ys) after
      ↔ c.Spelled xs (entry ys after) ∧ c.Spelled ys after := by
  induction xs with
  | nil => exact (and_iff_right trivial).symm
  | cons x xs ih =>
    rw [List.cons_append, Spelled, Spelled, ih, Cell.entry_append,
      and_assoc]

/-- What is spelled out is read off its slots only: a chain that holds the
same there spells it out as well. -/
theorem Spelled.congr (h : c.Spelled cells after)
    (hnode : ∀ id ∈ slots cells, c'.node? id = c.node? id) :
    c'.Spelled cells after := by
  induction cells with
  | nil => trivial
  | cons cell rest ih =>
    refine ⟨(hnode _ List.mem_cons_self).trans h.1, ih h.2 fun id hid => ?_⟩
    exact hnode id (List.mem_cons_of_mem _ hid)

/-- **A slot that is spelled out holds a token.** -/
theorem Spelled.isSome_node? (h : c.Spelled cells after)
    (hid : id ∈ slots cells) : (c.node? id).isSome = true := by
  induction cells with
  | nil => cases hid
  | cons cell rest ih =>
    rcases List.mem_cons.mp hid with rfl | hid
    · rw [h.1]
      rfl
    · exact ih h.2 hid

/-- **A walk passes the slots spelled out**, as many as it has steps for. -/
theorem Spelled.walk_take (h : c.Spelled cells none) (n : Nat) :
    c.walk n (entry cells none) = (slots cells).take n := by
  induction cells generalizing n with
  | nil => rw [entry, walk_none, slots, List.map_nil, List.take_nil]
  | cons cell rest ih =>
    cases n with
    | zero => rfl
    | succ n =>
      rw [entry, walk_succ_some, next?_of_node? h.1, ih h.2]
      rfl

/-- With a step for each of them it passes them all. -/
theorem Spelled.walk (h : c.Spelled cells none) {n : Nat}
    (hn : cells.length ≤ n) : c.walk n (entry cells none) = slots cells := by
  rw [h.walk_take, List.take_of_length_le (by rwa [slots, List.length_map])]

/-- The texts in the slots are those of the cells. -/
theorem Spelled.map_text (h : c.Spelled cells after) :
    (slots cells).map c.text = cells.map Cell.text := by
  induction cells with
  | nil => rfl
  | cons cell rest ih =>
    have htext : c.text cell.slot = cell.text := by
      rw [text, get?_of_node? h.1]
      rfl
    exact congrArg₂ List.cons htext (ih h.2)

/-- **The cells spelled out are those found in the slots.** -/
theorem Spelled.cellsAt (h : c.Spelled cells after) :
    c.cellsAt (slots cells) = cells := by
  unfold TokenChain.cellsAt
  induction cells with
  | nil => rfl
  | cons cell rest ih =>
    rw [slots, List.map_cons, List.filterMap_cons, get?_of_node? h.1]
    exact congrArg (cell :: ·) (ih h.2)

/-- What a slot that is spelled out leads to is one of those behind the first.
So nothing leads back to the first. -/
theorem Spelled.mem_rest {cell : Cell} {rest : List Cell}
    (h : c.Spelled (cell :: rest) none) (ha : a ∈ slots (cell :: rest))
    (hab : c.next? a = some b) : b ∈ slots rest := by
  induction rest generalizing cell with
  | nil =>
    rw [List.mem_singleton.mp ha, next?_of_node? h.1] at hab
    cases hab
  | cons d rest ih =>
    rcases List.mem_cons.mp ha with rfl | ha
    · rw [next?_of_node? h.1] at hab
      injection hab with hab
      exact hab ▸ List.mem_cons_self
    · exact List.mem_cons_of_mem _ (ih h.2 ha)

/-- **No two slots that are spelled out lead to the same**, since no slot
comes twice. -/
theorem Spelled.inj {a' : TokenId} (h : c.Spelled cells none)
    (hnodup : (slots cells).Nodup) (ha : a ∈ slots cells)
    (ha' : a' ∈ slots cells) (hab : c.next? a = some b)
    (hab' : c.next? a' = some b) : a = a' := by
  -- the slot after the first is led to by the first only
  have first : ∀ {cell : Cell} {rest : List Cell} {a : TokenId},
      c.Spelled (cell :: rest) none → (slots (cell :: rest)).Nodup →
      c.next? cell.slot = some b → a ∈ slots rest →
      c.next? a ≠ some b := by
    intro cell rest a hs hn hcell ha hb
    rw [next?_of_node? hs.1] at hcell
    cases rest with
    | nil => cases hcell
    | cons d rest =>
      injection hcell with hcell
      have hmem := hs.2.mem_rest ha hb
      rw [← hcell] at hmem
      exact (List.nodup_cons.mp (List.nodup_cons.mp hn).2).1 hmem
  induction cells with
  | nil => cases ha
  | cons cell rest ih =>
    rcases List.mem_cons.mp ha with rfl | ha
    · rcases List.mem_cons.mp ha' with rfl | ha'
      · rfl
      · exact absurd hab' (first h hnodup hab ha')
    · rcases List.mem_cons.mp ha' with rfl | ha'
      · exact absurd hab (first h hnodup hab' ha)
      · exact ih h.2 (List.nodup_cons.mp hnodup).2 ha ha'

/-! ## The links -/

/-- **The links of a chain in order**: each leads to a live slot, no two lead
to the same, and none leads to the head. This is said of all slots, those
beside the chain too, and it is what keeps these from leading into it. -/
structure Linked (c : TokenChain) : Prop where
  live : ∀ {a b}, c.next? a = some b → (c.node? b).isSome = true
  inj : ∀ {a a' b}, c.next? a = some b → c.next? a' = some b → a = a'
  ne_head : ∀ {a b}, c.next? a = some b → c.head ≠ some b

/-- **A chain that lays down some cells.** This is the invariant that every
operation keeps, whatever slots it is given. That the length counts live slots
holds beside the chain as well as on it. -/
structure Laid (c : TokenChain) (cells : List Cell) : Prop where
  /-- From the head on the links spell out the cells, and end. -/
  spelled : c.Spelled cells none
  head : c.head = entry cells none
  tail : c.tail = cells.getLast?.map Cell.slot
  /-- No slot comes twice. -/
  nodup : (slots cells).Nodup
  accounted : c.Accounted
  linked : c.Linked
  len : c.len = c.liveSlots.length

/-- **A tidy chain**: one without live slots beside it. Only operations given
slots that are not on the chain leave a chain untidy. -/
structure Tidy (c : TokenChain) : Prop where
  laid : c.Laid c.cells
  whole : ∀ id, (c.node? id).isSome = true → id ∈ slots c.cells

namespace Laid

variable (h : c.Laid cells)
include h

/-- There are no more cells than live slots. -/
theorem length_le_len : cells.length ≤ c.len := by
  rw [h.len, ← List.length_map Cell.slot]
  exact (h.nodup.subperm fun id hid =>
    mem_liveSlots.mpr (h.spelled.isSome_node? hid)).length_le

/-- There are no more cells than slots were ever opened, so a walk of as many
steps passes them all. -/
theorem length_le_size : cells.length ≤ c.nodes.size := by
  have hlive : c.liveSlots.length ≤ c.nodes.size := by
    have := List.length_filter_le (fun id => (c.node? id).isSome)
      ((List.range c.nodes.size).map TokenId.mk)
    rwa [List.length_map, List.length_range] at this
  exact Nat.le_trans h.length_le_len (h.len ▸ hlive)

/-- **The slots of a chain are those of the cells it lays down**, in the same
order. -/
theorem ids_eq : c.ids = slots cells := by
  rw [ids, h.head, h.spelled.walk h.length_le_size]

/-- **A chain lays down its own cells and no others**, so it is enough to show
that it lays some down. -/
theorem cells_eq : c.cells = cells := by
  rw [TokenChain.cells, h.ids_eq, h.spelled.cellsAt]

/-- The cells from a place on are spelled out. -/
theorem spelled_drop (s : Nat) : c.Spelled (cells.drop s) none := by
  have hs := h.spelled
  rw [← List.take_append_drop s cells, spelled_append] at hs
  exact hs.2

/-- A live slot is one of the chain, or beside it. -/
theorem isSome_node? (hid : id ∈ slots cells) :
    (c.node? id).isSome = true :=
  h.spelled.isSome_node? hid

/-- The token in a slot of the chain. -/
theorem get?_of_mem {cell : Cell} (hcell : cell ∈ cells) :
    c.get? cell.slot = some cell.token := by
  obtain ⟨before, rest, rfl⟩ := List.append_of_mem hcell
  exact get?_of_node? (spelled_append.mp h.spelled).2.1

/-- The slot handed out next is none of the chain, and a new token overwrites
none. -/
theorem take_notMem : c.pool.take.1 ∉ slots cells := by
  intro hid
  have := h.isSome_node? hid
  rw [h.accounted.node?_take] at this
  cases this

/-- **A slot beside the chain leads to no slot of the chain**: each of these
is led to already, or is the head. -/
theorem apart (hab : c.next? a = some b) (hb : b ∈ slots cells) :
    a ∈ slots cells := by
  obtain ⟨cell, hcell, rfl⟩ := List.mem_map.mp hb
  obtain ⟨before, rest, rfl⟩ := List.append_of_mem hcell
  obtain rfl | ⟨before, last, rfl⟩ := List.eq_nil_or_concat before
  · exact absurd h.head (h.linked.ne_head hab)
  · -- the slot before leads to the same slot, and only one can
    have hs := h.spelled
    rw [List.concat_eq_append, List.append_assoc, spelled_append] at hs
    have hlast : c.next? last.slot = some cell.slot :=
      next?_of_node? hs.2.1
    rw [h.linked.inj hab hlast]
    simp [slots]

/-- Every live slot is on the chain exactly if there are no more live
slots than cells. -/
theorem whole_iff :
    (∀ id, (c.node? id).isSome = true → id ∈ slots cells)
      ↔ c.len = cells.length := by
  have hsub : List.Subperm (slots cells) c.liveSlots :=
    h.nodup.subperm fun id hid => mem_liveSlots.mpr (h.isSome_node? hid)
  constructor
  · intro hwhole
    rw [h.len, ← List.length_map Cell.slot]
    exact length_liveSlots h.nodup fun id =>
      ⟨fun hid => h.isSome_node? hid, hwhole id⟩
  · intro hlen id hid
    have hlength : c.liveSlots.length = (slots cells).length := by
      rw [← h.len, hlen, slots, List.length_map]
    have hle := Nat.le_of_eq hlength
    exact (hsub.perm_of_length_le hle).mem_iff.mpr (mem_liveSlots.mpr hid)

/-- **A chain is tidy exactly if its length is the number of its cells.** So
untidiness shows in the length. -/
theorem tidy_iff : c.Tidy ↔ c.len = cells.length := by
  rw [← h.whole_iff]
  have hc := h.cells_eq
  constructor
  · intro ht
    exact hc ▸ ht.whole
  · intro hw
    exact ⟨hc.symm ▸ h, hc.symm ▸ hw⟩

end Laid

/-- The length of a tidy chain. -/
theorem Tidy.len_eq (h : c.Tidy) : c.len = c.cells.length :=
  h.laid.tidy_iff.mp h

/-- The empty chain lays down no cells. It has no slots, so there is nothing
to account for. -/
theorem laid_empty : empty.Laid [] where
  spelled := trivial
  head := rfl
  tail := rfl
  nodup := List.nodup_nil
  accounted :=
    { nodup := List.nodup_nil
      mem_iff := fun id => by
        constructor
        · intro h
          cases h
        · intro h
          exact absurd h.1 (Nat.not_lt_zero _) }
  linked :=
    { live := fun h => nomatch h
      inj := fun h => nomatch h
      ne_head := fun h => nomatch h }
  len := rfl

theorem tidy_empty : empty.Tidy := laid_empty.tidy_iff.mpr rfl

end TokenChain

end FlatC
