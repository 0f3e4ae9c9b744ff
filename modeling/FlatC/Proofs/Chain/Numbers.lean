import FlatC.Proofs.Chain.Runs
import FlatC.Text.Numeral

/-!
# How far the numbers of slots go

Slots are numbered by natural numbers, so there is always one more to open.
Laid out in memory a number of a slot is a word of 32 bits, and a chain that
had opened more slots than that can tell apart would hand out one that is in
use. Everything that is said of chains holds of such a layout as long as this
does not come about, and for that it is enough to count the tokens that are
put in: a slot is opened only for a token, so their numbers stay below the
number of tokens ever put in (`TokenChain.index_lt_of_run`). A run that puts in
no more than `2 ^ 32` tokens, wherever it puts them and whatever it drops
meanwhile, needs no number beyond a word.

The same is said of the files in a table by `FileTable.size_registerAll_le`,
of the lines of a source by `Workspace.linesCounted`, and of the blocks that
are open behind an array's declaration by `ArraySizeof.le_of_foldl_deepen`.
-/

namespace FlatC

/-- **How many tokens an operation may put in.** A copy puts in fewer where
it comes to the end of the chain. -/
def ChainOp.puts : ChainOp → Nat
  | .pushBack _ | .insertAfter _ _ => 1
  | .copyAfter _ _ n => n
  | .removeNext _ | .removeNextN _ _ | .removeHead | .setText _ _ | .clear => 0

/-- **How many tokens a run may put in**, operation by operation. What it drops
meanwhile is not taken off. -/
def ChainOp.putsAll : List ChainOp → Nat
  | [] => 0
  | op :: ops => op.puts + putsAll ops

/-- One more slot at most is opened for a token. -/
theorem SlotPool.size_take_le (p : SlotPool) : p.take.2.size ≤ p.size + 1 := by
  rcases p with ⟨_ | ⟨id, free⟩, size⟩
  · exact Nat.le_refl _
  · exact Nat.le_succ _

namespace TokenChain

variable {ops : List ChainOp} {id : TokenId}

/-! ## One operation -/

/-- Freeing a slot closes none. -/
theorem size_release (c : TokenChain) (id : TokenId) :
    (c.release id).pool.size = c.pool.size := by
  unfold release
  split
  · exact Array.size_setIfInBounds
  · rfl

/-- A removal opens no slot. -/
theorem size_removeNext (c : TokenChain) (id : TokenId) :
    (c.removeNext id).2.pool.size = c.pool.size := by
  cases h : c.next? id with
  | none => rw [removeNext_of_next?_eq_none h]
  | some v => rw [removeNext_of_next? h, size_release, pool_leadPast]

/-- Several removals open no slot. -/
theorem size_removeNextN (c : TokenChain) (id : TokenId) (n : Nat) :
    (c.removeNextN id n).2.pool.size = c.pool.size := by
  induction n generalizing c with
  | zero => rfl
  | succ n ih =>
    rw [removeNextN_succ]
    split
    · exact (ih _).trans (size_removeNext c id)
    · exact size_removeNext c id

/-- Dropping the head opens no slot. -/
theorem size_removeHead (c : TokenChain) :
    c.removeHead.2.pool.size = c.pool.size := by
  unfold removeHead
  split
  · rfl
  · exact size_release _ _

/-- **A copy opens a slot for each token at most.** It opens none as long as
there are free ones. -/
theorem size_copyAfter_le (c : TokenChain) (dest src : TokenId) (n : Nat) :
    (c.copyAfter dest src n).2.pool.size ≤ c.pool.size + n := by
  induction n generalizing c dest src with
  | zero => exact Nat.le_refl _
  | succ n ih =>
    cases ht : c.get? src with
    | none =>
      rw [copyAfter_of_get?_eq_none ht]
      exact Nat.le_add_right _ _
    | some t =>
      have hone : (c.insertAfter dest t).2.pool.size ≤ c.pool.size + 1 := by
        rw [pool_insertAfter]
        exact c.pool.size_take_le
      rw [copyAfter_succ ht]
      cases (c.insertAfter dest t).2.next? src with
      | none => exact Nat.le_trans hone (by omega)
      | some next =>
        exact Nat.le_trans (ih _ _ next) (by omega)

/-- **An operation opens no more slots than it may put tokens in**, whatever
slots it is given. -/
theorem size_act_le (c : TokenChain) (op : ChainOp) :
    (c.act op).2.pool.size ≤ c.pool.size + op.puts := by
  cases op with
  | pushBack t =>
    show (c.pushBack t).2.pool.size ≤ _
    rw [pool_pushBack]
    exact c.pool.size_take_le
  | insertAfter id t =>
    show (c.insertAfter id t).2.pool.size ≤ _
    rw [pool_insertAfter]
    exact c.pool.size_take_le
  | removeNext id => exact Nat.le_of_eq (size_removeNext c id)
  | removeNextN id n => exact Nat.le_of_eq (size_removeNextN c id n)
  | removeHead => exact Nat.le_of_eq (size_removeHead c)
  | setText id s => exact Nat.le_of_eq (size_nodes_modifyNode c id _)
  | copyAfter dest src n => exact size_copyAfter_le c dest src n
  | clear => exact Nat.zero_le _

/-! ## Runs -/

/-- A run opens no more slots than its operations may put tokens in. -/
theorem size_run_le (c : TokenChain) (ops : List ChainOp) :
    (ChainOp.run act c ops).2.pool.size
      ≤ c.pool.size + ChainOp.putsAll ops := by
  induction ops generalizing c with
  | nil => exact Nat.le_refl _
  | cons op ops ih =>
    have hone := size_act_le c op
    have hothers := ih (c.act op).2
    rw [ChainOp.putsAll]
    show (ChainOp.run act (c.act op).2 ops).2.pool.size ≤ _
    omega

/-- **A slot is numbered below the number of tokens put in**, after any run
from the empty chain. -/
theorem index_lt_of_run
    (h : ((ChainOp.run act empty ops).2.node? id).isSome = true) :
    id.index < ChainOp.putsAll ops := by
  obtain ⟨n, hn⟩ := Option.isSome_iff_exists.mp h
  have hsize := size_run_le empty ops
  rw [show empty.pool.size = 0 from rfl, Nat.zero_add] at hsize
  exact Nat.lt_of_lt_of_le (index_lt_of_node? hn) hsize

/-- **A word of 32 bits holds the number of every slot** as long as no more
tokens are put in than such words can tell apart. -/
theorem index_le_maxWord32
    (hops : ChainOp.putsAll ops ≤ Numeral.maxWord32 + 1)
    (h : ((ChainOp.run act empty ops).2.node? id).isSome = true) :
    id.index ≤ Numeral.maxWord32 :=
  Nat.le_of_lt_succ (Nat.lt_of_lt_of_le (index_lt_of_run h) hops)

end TokenChain

end FlatC
