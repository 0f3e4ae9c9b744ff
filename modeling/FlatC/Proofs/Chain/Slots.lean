import Mathlib.Data.List.Nodup
import Mathlib.Data.List.Perm.Subperm
import FlatC.Chain.Cells

/-!
# What an operation does to the slots

Every edit of a chain is put together from three steps: a slot is taken
(`alloc`), a slot is freed (`release`), the node in a slot is changed
(`modifyNode`). This module says what each does to every slot at once, so
that nothing later has to look into the array.

Two facts about the slots hold from then on. The free list is
**accounted for** when it holds the slots that hold nothing, each once;
that is what makes a slot that is handed out a slot that held nothing.
The **live slots** are those that hold a token, and how many there are
changes by one with each slot taken or freed.
-/

namespace FlatC

/-- A slot is its number. -/
theorem TokenId.eq_iff {a b : TokenId} : a = b ↔ a.index = b.index := by
  cases a
  cases b
  simp

namespace TokenChain

variable {c c' : TokenChain} {id j : TokenId} {n : Node}

/-! ## Reading through the steps -/

/-- A slot that holds something has been opened. -/
theorem index_lt_of_node? (h : c.node? id = some n) :
    id.index < c.nodes.size := by
  refine Decidable.byContradiction fun hlt => ?_
  rw [node?, Array.getElem?_eq_none (Nat.le_of_not_lt hlt)] at h
  cases h

theorem next?_eq_some_iff {b : TokenId} :
    c.next? id = some b ↔ ∃ t, c.node? id = some ⟨t, some b⟩ := by
  rw [next?, Option.bind_eq_some_iff]
  constructor
  · rintro ⟨⟨t, next⟩, hn, hb⟩
    exact ⟨t, hn.trans (congrArg (fun o => some (Node.mk t o)) hb)⟩
  · rintro ⟨t, hn⟩
    exact ⟨_, hn, rfl⟩

theorem next?_of_node? (h : c.node? id = some n) : c.next? id = n.next := by
  rw [next?, h]
  rfl

theorem get?_of_node? (h : c.node? id = some n) :
    c.get? id = some n.token := by
  rw [get?, h]
  rfl

/-- **A changed node**: the slots other than its own hold what they held, and
its own holds something only if it did. -/
theorem node?_modifyNode (c : TokenChain) (id j : TokenId)
    (f : Node → Node) :
    (c.modifyNode id f).node? j
      = if j = id then (c.node? j).map f else c.node? j := by
  unfold node? modifyNode
  rw [Array.getElem?_modify]
  by_cases h : j = id
  · subst h
    rw [if_pos rfl, if_pos rfl]
    cases c.nodes[j.index]? with
    | none => rfl
    | some o => rfl
  · rw [if_neg h, if_neg (fun hi => h (TokenId.eq_iff.mpr hi.symm))]

/-- The slots after one was led elsewhere. -/
theorem node?_setNext (c : TokenChain) (id j : TokenId)
    (next : Option TokenId) :
    (c.setNext id next).node? j
      = if j = id then (c.node? j).map fun n => ⟨n.token, next⟩
        else c.node? j :=
  node?_modifyNode c id j _

/-- The slots after one was given another text. -/
theorem node?_setText (c : TokenChain) (id j : TokenId) (text : String) :
    (c.setText id text).node? j
      = if j = id then
          (c.node? j).map fun n => ⟨n.token.withText text, n.next⟩
        else c.node? j :=
  node?_modifyNode c id j _

/-- A changed node is still one: a slot holds nothing before and after, or
something. -/
theorem isSome_node?_modifyNode (c : TokenChain) (id j : TokenId)
    (f : Node → Node) :
    ((c.modifyNode id f).node? j).isSome = (c.node? j).isSome := by
  rw [node?_modifyNode]
  split
  · exact Option.isSome_map
  · rfl

@[simp] theorem size_nodes_modifyNode (c : TokenChain) (id : TokenId)
    (f : Node → Node) : (c.modifyNode id f).nodes.size = c.nodes.size := by
  rw [modifyNode, Array.size_modify]

/-- **A freed slot** holds nothing, and the others hold what they held. A slot
that was free already makes no difference. -/
theorem node?_release (c : TokenChain) (id j : TokenId) :
    (c.release id).node? j = if j = id then none else c.node? j := by
  unfold release
  by_cases hs : (c.node? id).isSome = true
  · rw [if_pos hs]
    unfold node?
    rw [Array.getElem?_setIfInBounds]
    by_cases h : j = id
    · rw [if_pos h, if_pos (TokenId.eq_iff.mp h).symm]
      split <;> rfl
    · rw [if_neg h, if_neg (fun hi => h (TokenId.eq_iff.mpr hi.symm))]
  · rw [if_neg hs]
    split
    · next h =>
      rw [h]
      exact Option.not_isSome_iff_eq_none.mp hs
    · rfl

/-! ## The free slots -/

/-- **The free slots are accounted for**: they are the opened slots that hold
nothing, each of them once. So a slot is never handed out while it holds a
token. -/
structure Accounted (c : TokenChain) : Prop where
  nodup : c.free.Nodup
  mem_iff : ∀ id, id ∈ c.free ↔ id.index < c.nodes.size ∧ c.node? id = none

/-- **The slot handed out next** held nothing, whether it was freed or is new. -/
theorem Accounted.node?_take (h : c.Accounted) :
    c.node? c.pool.take.1 = none := by
  unfold pool SlotPool.take
  split
  · next id free hfree =>
    have hfree : c.free = id :: free := hfree
    exact ((h.mem_iff id).mp (hfree ▸ List.mem_cons_self)).2
  · exact congrArg Option.join (Array.getElem?_eq_none (Nat.le_refl _))

/-- The slot that is taken is the one the pool hands out. -/
@[simp] theorem fst_alloc (c : TokenChain) (n : Node) :
    (c.alloc n).1 = c.pool.take.1 := by
  unfold alloc pool SlotPool.take
  cases c.free <;> rfl

@[simp] theorem pool_alloc (c : TokenChain) (n : Node) :
    (c.alloc n).2.pool = c.pool.take.2 := by
  unfold alloc pool SlotPool.take
  cases c.free with
  | nil => simp
  | cons id free => simp

@[simp] theorem head_alloc (c : TokenChain) (n : Node) :
    (c.alloc n).2.head = c.head := by
  unfold alloc
  cases c.free <;> rfl

@[simp] theorem tail_alloc (c : TokenChain) (n : Node) :
    (c.alloc n).2.tail = c.tail := by
  unfold alloc
  cases c.free <;> rfl

@[simp] theorem len_alloc (c : TokenChain) (n : Node) :
    (c.alloc n).2.len = c.len := by
  unfold alloc
  cases c.free <;> rfl

/-- **A slot taken** holds its node, and the others hold what they
held. -/
theorem Accounted.node?_alloc (h : c.Accounted) (n : Node) (j : TokenId) :
    (c.alloc n).2.node? j
      = if j = c.pool.take.1 then some n else c.node? j := by
  have hmem := h.mem_iff
  unfold alloc pool SlotPool.take node?
  cases hfree : c.free with
  | nil =>
    show (c.nodes.push (some n))[j.index]?.join = _
    rw [Array.getElem?_push]
    by_cases hj : j = ⟨c.nodes.size⟩
    · rw [if_pos hj, if_pos (congrArg TokenId.index hj)]
      rfl
    · rw [if_neg hj, if_neg (fun hi => hj (TokenId.eq_iff.mpr hi))]
  | cons id free =>
    show (c.nodes.setIfInBounds id.index (some n))[j.index]?.join = _
    rw [Array.getElem?_setIfInBounds]
    by_cases hj : j = id
    · have hlt := ((hmem id).mp (hfree ▸ List.mem_cons_self)).1
      rw [if_pos hj, if_pos (congrArg TokenId.index hj.symm), if_pos hlt]
      rfl
    · rw [if_neg hj, if_neg (fun hi => hj (TokenId.eq_iff.mpr hi.symm))]

/-- A chain with the same slots and the same free ones is accounted for as
well; what the slots hold does not matter. -/
theorem Accounted.congr (h : c.Accounted) (hfree : c'.free = c.free)
    (hsize : c'.nodes.size = c.nodes.size)
    (hnode : ∀ id, (c'.node? id).isSome = (c.node? id).isSome) :
    c'.Accounted where
  nodup := hfree ▸ h.nodup
  mem_iff id := by
    rw [hfree, h.mem_iff, hsize, ← Option.not_isSome_iff_eq_none,
      ← Option.not_isSome_iff_eq_none, hnode]

/-- Changing a node keeps the free slots accounted for. -/
theorem Accounted.modifyNode (h : c.Accounted) (id : TokenId)
    (f : Node → Node) : (c.modifyNode id f).Accounted :=
  h.congr rfl (size_nodes_modifyNode c id f)
    fun j => isSome_node?_modifyNode c id j f

/-- Taking a slot keeps the free slots accounted for. If one is free then the
last one freed is taken, and else a slot is opened at the end. -/
theorem Accounted.alloc (h : c.Accounted) (n : Node) :
    (c.alloc n).2.Accounted := by
  have hnode := h.node?_alloc n
  have hpool := pool_alloc c n
  unfold pool SlotPool.take at hnode hpool
  cases hfree : c.free with
  | nil =>
    rw [hfree] at hnode hpool
    injection hpool with hfree' hsize
    constructor
    · rw [hfree']
      exact List.nodup_nil
    · intro id
      rw [hfree', hsize, hnode]
      constructor
      · intro hid
        cases hid
      · rintro ⟨hlt, hnone⟩
        by_cases hid : id = ⟨c.nodes.size⟩
        · rw [if_pos hid] at hnone
          cases hnone
        · rw [if_neg hid] at hnone
          have hne := fun he => hid (TokenId.eq_iff.mpr he)
          have := (h.mem_iff id).mpr
            ⟨Nat.lt_of_le_of_ne (Nat.le_of_lt_succ hlt) hne, hnone⟩
          rwa [hfree] at this
  | cons top free =>
    rw [hfree] at hnode hpool
    injection hpool with hfree' hsize
    have hnodup := h.nodup
    rw [hfree, List.nodup_cons] at hnodup
    constructor
    · rw [hfree']
      exact hnodup.2
    · intro id
      have hmem := h.mem_iff id
      rw [hfree, List.mem_cons] at hmem
      rw [hfree', hsize, hnode]
      by_cases hid : id = top
      · rw [if_pos hid, hid]
        exact ⟨fun ht => absurd ht hnodup.1, fun ht => nomatch ht.2⟩
      · rw [if_neg hid, ← hmem]
        exact ⟨Or.inr, fun ht => ht.resolve_left hid⟩

/-- Freeing a slot keeps the free slots accounted for, also where it was free
already. -/
theorem Accounted.release (h : c.Accounted) (id : TokenId) :
    (c.release id).Accounted := by
  have hnode := node?_release c id
  by_cases hs : (c.node? id).isSome = true
  · obtain ⟨n, hn⟩ := Option.isSome_iff_exists.mp hs
    have hfree : (c.release id).free = id :: c.free := by
      rw [TokenChain.release, if_pos hs]
    have hsize : (c.release id).nodes.size = c.nodes.size := by
      rw [TokenChain.release, if_pos hs, Array.size_setIfInBounds]
    constructor
    · rw [hfree, List.nodup_cons]
      refine ⟨fun hid => ?_, h.nodup⟩
      have := ((h.mem_iff id).mp hid).2
      rw [hn] at this
      cases this
    · intro j
      rw [hfree, hsize, hnode, List.mem_cons, h.mem_iff]
      by_cases hj : j = id
      · rw [if_pos hj, hj]
        exact ⟨fun _ => ⟨index_lt_of_node? hn, rfl⟩, fun _ => Or.inl rfl⟩
      · rw [if_neg hj]
        exact ⟨fun ht => ht.resolve_left hj, Or.inr⟩
  · rwa [release_of_node?_eq_none (Option.not_isSome_iff_eq_none.mp hs)]

/-! ## The live slots -/

/-- **The slots that hold a token**, on the chain or beside it. There are as
many of them as the length says. -/
def liveSlots (c : TokenChain) : List TokenId :=
  ((List.range c.nodes.size).map TokenId.mk).filter
    fun id => (c.node? id).isSome

@[simp] theorem mem_liveSlots :
    id ∈ c.liveSlots ↔ (c.node? id).isSome = true := by
  rw [liveSlots, List.mem_filter]
  refine and_iff_right_of_imp fun h => ?_
  obtain ⟨n, hn⟩ := Option.isSome_iff_exists.mp h
  exact List.mem_map.mpr
    ⟨id.index, List.mem_range.mpr (index_lt_of_node? hn), rfl⟩

theorem nodup_liveSlots (c : TokenChain) : c.liveSlots.Nodup := by
  refine List.Nodup.filter _ (List.Nodup.map ?_ List.nodup_range)
  intro a b h
  injection h

/-- The live slots in any order, each once, are as many. -/
theorem length_liveSlots {ids : List TokenId} (hnodup : ids.Nodup)
    (hmem : ∀ id, id ∈ ids ↔ (c.node? id).isSome = true) :
    c.liveSlots.length = ids.length := by
  refine List.Perm.length_eq ((List.perm_ext_iff_of_nodup
    (nodup_liveSlots c) hnodup).mpr fun id => ?_)
  rw [mem_liveSlots, hmem]

/-- Chains with something in the same slots have as many live ones. -/
theorem length_liveSlots_congr
    (hnode : ∀ id, (c'.node? id).isSome = (c.node? id).isSome) :
    c'.liveSlots.length = c.liveSlots.length :=
  length_liveSlots (nodup_liveSlots c) fun id => by
    rw [mem_liveSlots, hnode]

/-- Taking a slot makes one live slot more. -/
theorem Accounted.length_liveSlots_alloc (h : c.Accounted) (n : Node) :
    (c.alloc n).2.liveSlots.length = c.liveSlots.length + 1 := by
  have hnodup : (c.pool.take.1 :: c.liveSlots).Nodup := by
    refine List.nodup_cons.mpr ⟨fun hid => ?_, nodup_liveSlots c⟩
    rw [mem_liveSlots, h.node?_take] at hid
    cases hid
  refine length_liveSlots hnodup fun id => ?_
  rw [List.mem_cons, mem_liveSlots, h.node?_alloc]
  split
  · next hid => simp [hid]
  · next hid => simp [hid]

/-- **Freeing a live slot leaves one live slot less.** -/
theorem length_liveSlots_release (h : (c.node? id).isSome = true) :
    (c.release id).liveSlots.length + 1 = c.liveSlots.length := by
  have hnodup : (id :: (c.release id).liveSlots).Nodup := by
    refine List.nodup_cons.mpr ⟨fun hid => ?_, nodup_liveSlots _⟩
    rw [mem_liveSlots, node?_release, if_pos rfl] at hid
    cases hid
  refine (length_liveSlots hnodup fun j => ?_).symm
  rw [List.mem_cons, mem_liveSlots, node?_release]
  by_cases hj : j = id
  · rw [hj]
    exact ⟨fun _ => h, fun _ => Or.inl rfl⟩
  · rw [if_neg hj]
    exact or_iff_right hj

end TokenChain

end FlatC
