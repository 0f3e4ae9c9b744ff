import FlatC.Proofs.Chain.Row

/-!
# Runs of operations

What one operation does to a chain carries over to every run from the
empty chain, by induction on the run.

Where each operation is given slots that are on the chain when its turn
comes (`OnChain`), the chain **mirrors** a list of cells (`Mirrors`) that
is told apart from it: the row run by the same operations. Its answers are
those of the row, and no live slot is anywhere else.

Where an operation may be given any slot, one that is free, one that was
never opened, one that stands beside the chain, there is no row to follow
for the slots beside. The chain is **safe** all the same (`Safe`): it ends,
it loses no slot and frees none twice, and what an operation does at a slot
beside the chain leaves the cells of the chain as they are.
-/

namespace FlatC

namespace TokenChain

open Cell (entry slots)

variable {c : TokenChain} {cells left : List Cell}
variable {op : ChainOp} {ops : List ChainOp} {id : TokenId} {s : String}

/-! ## Runs on the chain -/

/-- **Operations given slots of the chain**: each is given slots that are on
the chain when its turn comes. Which slots these are depends on the operations
before. -/
def OnChain (c : TokenChain) : List ChainOp → Prop
  | [] => True
  | op :: ops =>
    (∀ id ∈ op.slots, id ∈ c.ids) ∧ OnChain (c.act op).2 ops

instance decidableOnChain (c : TokenChain) (ops : List ChainOp) :
    Decidable (c.OnChain ops) :=
  match ops with
  | [] => inferInstanceAs (Decidable True)
  | op :: ops =>
    have := decidableOnChain (c.act op).2 ops
    inferInstanceAs (Decidable (_ ∧ _))

/-- The operations up to one of them are given slots of the chain if all are. -/
theorem OnChain.take (h : c.OnChain ops) (n : Nat) :
    c.OnChain (ops.take n) := by
  induction ops generalizing c n with
  | nil => rwa [List.take_nil]
  | cons op ops ih =>
    obtain _ | n := n
    · trivial
    · exact ⟨h.1, ih h.2 n⟩

/-- **What it is for a chain to mirror a list of cells**: it can be read off
the chain, and no slot is lost or held twice. -/
structure Mirrors (c : TokenChain) (cells : List Cell) : Prop where
  /-- Read from the head, the chain is the list. -/
  reads : c.cells = cells
  head : c.head = cells.head?.map Cell.slot
  tail : c.tail = cells.getLast?.map Cell.slot
  len : c.len = cells.length
  /-- No slot comes twice. -/
  once : (slots cells).Nodup
  /-- The live slots are those of the list. -/
  live : ∀ id, (c.node? id).isSome = true ↔ id ∈ slots cells
  free_once : c.free.Nodup
  /-- The free slots are the opened ones that hold nothing. -/
  free_dead : ∀ id, id ∈ c.free ↔
    id.index < c.nodes.size ∧ c.node? id = none

/-- A tidy chain mirrors its own cells. -/
theorem Tidy.mirrors (h : c.Tidy) : c.Mirrors c.cells where
  reads := rfl
  head := by
    rw [h.laid.head]
    cases c.cells <;> rfl
  tail := h.laid.tail
  len := h.len_eq
  once := h.laid.nodup
  live := fun id => ⟨h.whole id, h.laid.isSome_node?⟩
  free_once := h.laid.accounted.nodup
  free_dead := h.laid.accounted.mem_iff

/-- **A run on a tidy chain is the run on its row**, and leaves the chain
tidy. -/
theorem Tidy.run_row (h : c.Tidy) (hops : c.OnChain ops) :
    Tidy (ChainOp.run act c ops).2
      ∧ (ChainOp.run act c ops).1 = (ChainOp.run Row.act c.row ops).1
      ∧ (ChainOp.run act c ops).2.row
        = (ChainOp.run Row.act c.row ops).2 := by
  induction ops generalizing c with
  | nil => exact ⟨h, rfl, rfl⟩
  | cons op ops ih =>
    obtain ⟨htidy, hanswer, hrow⟩ := h.act_row hops.1
    obtain ⟨ht, ha, hr⟩ := ih htidy hops.2
    rw [hrow] at ha hr
    exact ⟨ht, congrArg₂ List.cons hanswer ha, hr⟩

/-- **The chain does what lists do.** After each operation of a run from the
empty chain, every one of them given slots that were on the chain, the answers
so far are those of the row, and the chain mirrors the cells of the row and
has its pool. -/
theorem run_onChain (hops : empty.OnChain ops) (n : Nat) :
    (ChainOp.run act empty (ops.take n)).1
        = (ChainOp.run Row.act Row.empty (ops.take n)).1
      ∧ (ChainOp.run act empty (ops.take n)).2.pool
        = (ChainOp.run Row.act Row.empty (ops.take n)).2.pool
      ∧ (ChainOp.run act empty (ops.take n)).2.Mirrors
        (ChainOp.run Row.act Row.empty (ops.take n)).2.cells := by
  obtain ⟨ht, ha, hr⟩ := tidy_empty.run_row (hops.take n)
  have hcells : (ChainOp.run act empty (ops.take n)).2.cells
      = (ChainOp.run Row.act Row.empty (ops.take n)).2.cells :=
    congrArg Row.cells hr
  exact ⟨ha, congrArg Row.pool hr, hcells ▸ ht.mirrors⟩

/-- A slot dropped at the end is handed out again, and a copy reads its own
first token in turn. -/
theorem mirrors_after_reuse :
    let t : String → Token := fun s => ⟨s, 1, .first⟩
    let ops : List ChainOp :=
      [.pushBack (t "a"), .pushBack (t "b"), .removeNext ⟨0⟩,
        .insertAfter ⟨0⟩ (t "c"), .copyAfter ⟨1⟩ ⟨0⟩ 3, .setText ⟨1⟩ "d",
        .removeNextN ⟨2⟩ 1, .removeHead]
    empty.OnChain ops
      ∧ (ChainOp.run act empty ops).2.Mirrors
        [⟨⟨1⟩, t "d"⟩, ⟨⟨2⟩, t "a"⟩, ⟨⟨4⟩, t "a"⟩] := by
  intro t ops
  have hops : empty.OnChain ops := by decide
  exact ⟨hops, (run_onChain hops 8).2.2⟩

/-! ## Runs at any slots -/

/-- Whatever slots it is given, an operation leaves a chain that lays down
some cells. -/
theorem Laid.act (h : c.Laid cells) (op : ChainOp) :
    ∃ left, (c.act op).2.Laid left := by
  cases op with
  | pushBack t => exact ⟨_, h.pushBack t⟩
  | insertAfter id t => exact h.insertAfter id t
  | removeNext id => exact h.removeNext id
  | removeNextN id n => exact (h.removeNextN id n).1
  | removeHead =>
    cases cells with
    | nil =>
      refine ⟨[], ?_⟩
      show (c.removeHead).2.Laid []
      rwa [h.removeHead_nil]
    | cons gone rest => exact ⟨rest, h.removeHead_cons⟩
  | setText id s =>
    by_cases hid : id ∈ slots cells
    · obtain ⟨cell, hcell, rfl⟩ := List.mem_map.mp hid
      obtain ⟨before, rest, rfl⟩ := List.append_of_mem hcell
      exact ⟨_, h.setText_mem s⟩
    · exact ⟨_, h.setText_notMem hid s⟩
  | copyAfter dest src n => exact h.copyAfter dest src n
  | clear => exact ⟨[], laid_empty⟩

/-- **A run leaves a chain that lays down its cells**, whatever slots its
operations are given. -/
theorem Laid.run (h : c.Laid cells) (ops : List ChainOp) :
    (ChainOp.run TokenChain.act c ops).2.Laid
      (ChainOp.run TokenChain.act c ops).2.cells := by
  induction ops generalizing c cells with
  | nil => exact h.cells_eq.symm ▸ h
  | cons op ops ih =>
    obtain ⟨left, hleft⟩ := h.act op
    exact ih hleft

/-- **The tokens of a chain can be any**, so what holds of all chains holds of
all lists of tokens. -/
theorem exists_run_tokens (ts : List Token) :
    ∃ ops, (ChainOp.run act empty ops).2.tokens = ts := by
  suffices ∀ {c : TokenChain} {cells : List Cell}, c.Laid cells →
      (ChainOp.run act c (ts.map .pushBack)).2.tokens
        = cells.map Cell.token ++ ts from
    ⟨_, this laid_empty⟩
  induction ts with
  | nil =>
    intro c cells h
    rw [List.append_nil, List.map_nil, ChainOp.run, tokens, h.cells_eq]
  | cons t ts ih =>
    intro c cells h
    have := ih (h.pushBack t)
    rw [List.map_append, List.append_assoc] at this
    exact this

/-- **An operation beside the chain** leaves its cells alone, whatever it does
there. -/
theorem Laid.act_notMem (h : c.Laid cells) (hop : op.place? = some id)
    (hid : id ∉ slots cells) : (c.act op).2.Laid cells := by
  cases op with
  | pushBack t | removeHead | clear => cases hop
  | insertAfter j t =>
    injection hop with hop
    exact h.insertAfter_notMem (hop ▸ hid) t
  | removeNext j =>
    injection hop with hop
    exact h.removeNext_notMem (hop ▸ hid)
  | removeNextN j n =>
    injection hop with hop
    exact h.removeNextN_notMem (hop ▸ hid) n
  | setText j s =>
    injection hop with hop
    exact h.setText_notMem (hop ▸ hid) s
  | copyAfter dest src n =>
    injection hop with hop
    exact h.copyAfter_notMem (hop ▸ hid) src n

/-- **A safe chain.** Following its links from the head comes to no free slot,
comes to an end, and comes to the tail there. -/
structure Safe (c : TokenChain) : Prop where
  /-- A walk from the head comes to an end: it is the same however far one
  is ready to go. -/
  ends : ∀ n, c.nodes.size ≤ n → c.walk n c.head = c.ids
  once : c.ids.Nodup
  live : ∀ id ∈ c.ids, (c.node? id).isSome = true
  tail : c.tail = c.ids.getLast?
  tail_none : c.tail = none ↔ c.head = none
  free_once : c.free.Nodup
  /-- The free slots are the opened ones that hold nothing. -/
  free_dead : ∀ id, id ∈ c.free ↔
    id.index < c.nodes.size ∧ c.node? id = none
  len : c.len = c.liveSlots.length
  /-- Where there is a slot to free, the length is there to be lowered. -/
  len_pos : ∀ id, (c.node? id).isSome = true → 0 < c.len
  len_removeNext : ∀ id, (c.removeNext id).1 = true →
    (c.removeNext id).2.len + 1 = c.len
  len_removeNextN : ∀ id n,
    (c.removeNextN id n).2.len + (c.removeNextN id n).1 = c.len
  len_removeHead : (c.removeHead).1 = true →
    (c.removeHead).2.len + 1 = c.len
  /-- No slot beside the chain leads into it. -/
  apart : ∀ a b, c.next? a = some b → b ∈ c.ids → a ∈ c.ids
  /-- An operation beside the chain leaves its cells alone. -/
  beside : ∀ op id, ChainOp.place? op = some id → id ∉ c.ids →
    (c.act op).2.cells = c.cells

/-- A chain that lays down some cells is safe. Along the chain this is what
being laid down says, and what stands beside it is accounted for by the slots
and the links. -/
theorem Laid.safe (h : c.Laid cells) : c.Safe := by
  have hids := h.ids_eq
  constructor
  · intro n hn
    rw [hids, h.head, h.spelled.walk (Nat.le_trans h.length_le_size hn)]
  · exact hids ▸ h.nodup
  · exact fun id hid => h.isSome_node? (hids ▸ hid)
  · rw [h.tail, hids, slots, List.getLast?_map]
  · rw [h.tail, h.head]
    cases cells <;> simp [entry]
  · exact h.accounted.nodup
  · exact h.accounted.mem_iff
  · exact h.len
  · exact fun id hid => h.len_pos hid
  · intro id hremoved
    cases hv : c.next? id with
    | none =>
      rw [removeNext_of_next?_eq_none hv] at hremoved
      cases hremoved
    | some v => exact h.len_removeNext hv
  · exact fun id n => (h.removeNextN id n).2
  · intro hremoved
    cases cells with
    | nil =>
      rw [h.removeHead_nil] at hremoved
      cases hremoved
    | cons gone rest => exact h.len_removeHead
  · intro a b hab hb
    exact hids ▸ h.apart hab (hids ▸ hb)
  · intro op id hop hid
    rw [(h.act_notMem hop (hids ▸ hid)).cells_eq, h.cells_eq]

/-- **No operation does harm, whatever slots it is given**: after any run
from the empty chain the chain is safe. -/
theorem safe_run (ops : List ChainOp) :
    (ChainOp.run act empty ops).2.Safe :=
  (laid_empty.run ops).safe

/-- A token put behind a free slot may be given that very slot. It then
leads to itself, beside a chain that is still empty. -/
example :
    let t : Token := ⟨"a", 1, .first⟩
    let c := (ChainOp.run act empty
      [.pushBack t, .removeHead, .insertAfter ⟨0⟩ t]).2
    c.next? ⟨0⟩ = some ⟨0⟩ ∧ c.cells = [] ∧ c.len = 1 := by
  decide

end TokenChain

end FlatC
