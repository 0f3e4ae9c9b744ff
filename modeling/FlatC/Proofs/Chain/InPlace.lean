import FlatC.Proofs.Chain.Cyclic
import FlatC.Proofs.Chain.Relay

/-!
# Edits in place as rows laid down

Each operation on a chain writes a few links, and laying down a row writes
all of them. Given a slot of the chain, both come to the same: the chain that
an operation leaves is the one to which the edited row is laid down, with the
slots that were freed given back in that order, and the new ones taken from
the same pool.

All of these are told of one place, behind the cells `before`, and are
instances of `Laid.eq_relay`: what is laid down, the pool and the length are
known of each operation, and it leaves the slots beside the chain alone. So
any number of edits, carried out one after another, can be read as one row
that is laid down at the end (`Laid.relay_relay`).
-/

namespace FlatC

namespace TokenChain

open Cell (entry slots)

variable {c : TokenChain} {before rest : List Cell} {cell gone : Cell}

/-- A slot beside some cells is none of theirs, so that an edit at one of them
does not reach it. -/
theorem Beside.ne {cells : List Cell} {id : TokenId}
    (h : c.Beside cells id) (hcell : cell ∈ cells) : id ≠ cell.slot :=
  fun he => h.2 (he ▸ List.mem_map_of_mem hcell)

namespace Laid

/-! ## Cells that are dropped -/

/-- **Dropping the head** is laying down the cells behind it, its slot given
back. The slot becomes the next one to be taken. -/
theorem removeHead_eq_relay (h : c.Laid (gone :: rest)) :
    c.removeHead.2 = c.relay rest (c.pool.give gone.slot) := by
  have hhead : c.head = some gone.slot := h.head
  have hlive := h.isSome_node? (List.mem_cons_self (a := gone.slot))
  have hexchanged := Row.Exchanged.dropped [gone] rest c.pool
  -- the slots beside the chain are others than the head's, the only one that
  -- is written
  refine h.eq_relay hexchanged h.removeHead_cons
    (h.accounted.removeHead hhead hlive).2.2.2 ?_ fun id hid => ?_
  · have := h.len_removeHead
    rw [List.length_cons]
    omega
  · rw [node?_removeHead hhead, if_neg (hid.ne List.mem_cons_self)]

/-- **Dropping what follows a slot** is laying down the other cells, the freed
slot given back. That the slot is one of the chain is all that is asked. -/
theorem removeNext_eq_relay (h : c.Laid (before ++ cell :: gone :: rest)) :
    (c.removeNext cell.slot).2
      = c.relay (before ++ cell :: rest) (c.pool.give gone.slot) := by
  have hnext : c.next? cell.slot = some gone.slot := h.next?_mem
  have hexchanged := (Row.Exchanged.dropped [gone] rest c.pool).append
    (before ++ [cell]) _ rfl
  rw [List.append_assoc, List.append_assoc] at hexchanged
  refine h.eq_relay hexchanged h.removeNext_mem
    (h.accounted.removeNext h.linked hnext).2.2.2 ?_ fun id hid => ?_
  · have := h.len_removeNext hnext
    simp only [List.length_append, List.length_cons]
    omega
  · rw [node?_removeNext hnext, if_neg (hid.ne (by simp)),
      if_neg (hid.ne (by simp))]

/-- The cells behind one are dropped, so many of them or as many as there are,
and their slots are given back in that order. -/
theorem exchanged_behind (before rest : List Cell) (cell : Cell)
    (p : SlotPool) (n : Nat) :
    Row.Exchanged ⟨before ++ cell :: rest, p⟩
      ⟨before ++ cell :: rest.drop n, p.giveAll (rest.take n)⟩ := by
  have h := (Row.Exchanged.taken n rest p).append (before ++ [cell]) _ rfl
  rwa [List.append_assoc, List.append_assoc] at h

/-- **Dropping several of those that follow a slot** is laying down what is
left, the freed slots given back one after another. The operation goes on for
as long as something follows, so `n` may be more than there is. -/
theorem removeNextN_eq_relay (h : c.Laid (before ++ cell :: rest)) (n : Nat) :
    (c.removeNextN cell.slot n).2
      = c.relay (before ++ cell :: rest.drop n)
        (c.pool.giveAll (rest.take n)) := by
  induction n generalizing c rest with
  | zero => exact h.relay_self.symm
  | succ n ih =>
    cases rest with
    | nil =>
      rw [removeNextN_succ, removeNext_of_next?_eq_none h.next?_mem]
      exact h.relay_self.symm
    | cons d rest =>
      -- one token is dropped, and then the others from the chain that leaves;
      -- the two rows laid down are one
      have hone : Row.Exchanged ⟨before ++ cell :: d :: rest, c.pool⟩
          ⟨before ++ cell :: rest, c.pool.give d.slot⟩ :=
        exchanged_behind before (d :: rest) cell c.pool 1
      have hpool : (c.relay (before ++ cell :: rest)
          (c.pool.give d.slot)).pool = c.pool.give d.slot :=
        pool_relay hone.size_le _
      have htrue : (c.removeNext cell.slot).1 = true := h.fst_removeNext_mem
      rw [removeNextN_succ, if_pos htrue]
      dsimp only
      rw [ih h.removeNext_mem, h.removeNext_eq_relay, hpool]
      exact h.relay_relay hone (exchanged_behind before rest cell _ n)

/-! ## Cells that are changed and put in -/

/-- A cell is given another text. -/
theorem exchanged_withText (before rest : List Cell) (cell : Cell)
    (s : String) (p : SlotPool) :
    Row.Exchanged ⟨before ++ cell :: rest, p⟩
      ⟨before ++ cell.withText s :: rest, p⟩ :=
  .of_slots (by simp [slots])

/-- **Another text in a slot** is laying down the cells with that text. No
link and no slot is touched. -/
theorem setText_eq_relay (h : c.Laid (before ++ cell :: rest)) (s : String) :
    c.setText cell.slot s
      = c.relay (before ++ cell.withText s :: rest) c.pool := by
  refine h.eq_relay (exchanged_withText before rest cell s c.pool)
    (h.setText_mem s) ?_ ?_ fun id hid => ?_
  · exact congrArg (SlotPool.mk _) (size_nodes_modifyNode c _ _)
  · simp only [List.length_append, List.length_cons]
    rfl
  · rw [node?_setText, if_neg (hid.ne (by simp))]

/-- Copies are put in behind a cell, in slots taken one after another from the
pool. -/
theorem exchanged_copied (before rest : List Cell) (cell : Cell)
    (ts : List Token) (p : SlotPool) :
    Row.Exchanged ⟨before ++ cell :: rest, p⟩
      ⟨before ++ cell :: ((p.copy ts).1 ++ rest), (p.copy ts).2⟩ := by
  have h := (Row.Exchanged.copied ts rest p).append (before ++ [cell]) _ rfl
  rwa [List.append_assoc, List.append_assoc] at h

/-- **Copying what stands from a slot up to another** is laying down the
copies behind that: the cells from the one to the other, over and over. -/
theorem copyAfter_eq_relay {init : List Cell} {src : TokenId}
    (h : c.Laid (before ++ (init ++ cell :: rest)))
    (hsrc : entry (init ++ [cell]) none = some src) (n : Nat) :
    let ts := cycle n ((init ++ [cell]).map Cell.token)
    (c.copyAfter cell.slot src n).2
      = c.relay (before ++ (init ++ cell :: ((c.pool.copy ts).1 ++ rest)))
        (c.pool.copy ts).2 := by
  intro ts
  obtain ⟨-, hlaid, hpool, hlen⟩ : c.Copies _ ts _ _ :=
    h.copyAfter_of_stretch hsrc n
  have hexchanged := exchanged_copied (before ++ init) rest cell ts c.pool
  rw [List.append_assoc, List.append_assoc] at hexchanged
  rw [List.append_assoc, List.append_assoc, List.singleton_append] at hlaid
  -- new slots are taken from the free ones and no slot beside the chain is
  -- free, so only the tail of the stretch and the new slots are written
  refine h.eq_relay hexchanged hlaid hpool ?_ fun id hid => ?_
  · simp only [List.length_append, List.length_cons, SlotPool.length_copy]
    omega
  · exact h.accounted.node?_copyAfter hid.1 (hid.ne (by simp)) src n

/-- **A token put after a slot** is laying down a new cell behind it. The slot
is one that has been given back, if there is any, and may have been held under
another token before. -/
theorem insertAfter_eq_relay (h : c.Laid (before ++ cell :: rest))
    (t : Token) :
    (c.insertAfter cell.slot t).2
      = c.relay (before ++ cell :: ⟨c.pool.take.1, t⟩ :: rest)
        c.pool.take.2 := by
  refine h.eq_relay (exchanged_copied before rest cell [t] c.pool)
    (h.insertAfter_mem t) (pool_insertAfter c _ t) ?_ fun id hid => ?_
  · rw [len_insertAfter]
    simp only [List.length_append, List.length_cons]
    omega
  -- a slot that is taken holds nothing before, and one beside the chain does
  · have hnew : id ≠ c.pool.take.1 := by
      rintro rfl
      have hnone := h.accounted.node?_take
      rw [← Option.not_isSome_iff_eq_none] at hnone
      exact hnone hid.1
    rw [h.accounted.node?_insertAfter, if_neg hnew, if_neg (hid.ne (by simp))]

end Laid

end TokenChain

end FlatC
