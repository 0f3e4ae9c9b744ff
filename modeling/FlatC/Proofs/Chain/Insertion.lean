import FlatC.Proofs.Chain.Laid

/-!
# Putting tokens in

`insertAfter` takes a slot, has it lead to where the given slot led, and
has the given slot lead to it. On a slot of the chain that puts a cell
behind another (`Laid.insertAfter_mem`). On any other slot it changes no
cell of the chain (`Laid.insertAfter_notMem`): the new token stands beside
the chain, behind a slot that stands there as well, or alone, or, if the
slot that is taken is the very slot that was given, behind itself.

Putting a token at the end is putting it after the tail
(`Laid.pushBack_eq`), so there is nothing else to be shown for it than the
case of a chain without a tail.
-/

namespace FlatC.TokenChain

open Cell (entry slots)

variable {c : TokenChain} {cells before rest : List Cell} {cell : Cell}
variable {id j : TokenId}

/-! ## What becomes of the slots -/

/-- The slot a token is put in is the one the pool hands out, whatever slot it
is put behind. -/
@[simp] theorem fst_insertAfter (c : TokenChain) (id : TokenId)
    (t : Token) : (c.insertAfter id t).1 = c.pool.take.1 :=
  fst_alloc c _

@[simp] theorem head_insertAfter (c : TokenChain) (id : TokenId)
    (t : Token) : (c.insertAfter id t).2.head = c.head :=
  head_alloc c _

@[simp] theorem len_insertAfter (c : TokenChain) (id : TokenId)
    (t : Token) : (c.insertAfter id t).2.len = c.len + 1 :=
  congrArg (· + 1) (len_alloc c _)

/-- The new slot is the last one if the given one was. -/
theorem tail_insertAfter (c : TokenChain) (id : TokenId) (t : Token) :
    (c.insertAfter id t).2.tail
      = if c.tail = some id then some c.pool.take.1 else c.tail := by
  show (if (c.alloc _).2.tail = some id then some (c.alloc _).1
    else (c.alloc _).2.tail) = _
  rw [tail_alloc, fst_alloc]

/-- One slot is taken from the pool, and none is given back. -/
@[simp] theorem pool_insertAfter (c : TokenChain) (id : TokenId)
    (t : Token) : (c.insertAfter id t).2.pool = c.pool.take.2 := by
  rw [← pool_alloc c ⟨t, c.next? id⟩]
  show SlotPool.mk _ _ = SlotPool.mk _ _
  exact congrArg _ (size_nodes_modifyNode _ id _)

/-- **The slots after an insertion**, where a slot that held nothing was
taken. That slot may be the given one, and then it leads to itself. -/
theorem Accounted.node?_insertAfter (h : c.Accounted) (id j : TokenId)
    (t : Token) :
    (c.insertAfter id t).2.node? j
      = if j = c.pool.take.1 then
          some ⟨t, if j = id then some j else c.next? id⟩
        else if j = id then
          (c.node? j).map fun n => ⟨n.token, some c.pool.take.1⟩
        else c.node? j := by
  show ((c.alloc ⟨t, c.next? id⟩).2.setNext id
    (some (c.alloc ⟨t, c.next? id⟩).1)).node? j = _
  rw [node?_setNext, h.node?_alloc, fst_alloc]
  by_cases hnew : j = c.pool.take.1
  · rw [if_pos hnew, if_pos hnew]
    split
    · rw [hnew]
      rfl
    · rfl
  · rw [if_neg hnew, if_neg hnew]

theorem Accounted.isSome_node?_insertAfter (h : c.Accounted)
    (id j : TokenId) (t : Token) :
    ((c.insertAfter id t).2.node? j).isSome = true
      ↔ j = c.pool.take.1 ∨ (c.node? j).isSome = true := by
  rw [h.node?_insertAfter]
  split
  · next hnew => simp [hnew]
  · next hnew => split <;> simp [hnew]

/-- Where a slot leads after an insertion. -/
theorem Accounted.next?_insertAfter (h : c.Accounted) (id j : TokenId)
    (t : Token) :
    (c.insertAfter id t).2.next? j
      = if j = c.pool.take.1 then
          if j = id then some j else c.next? id
        else if j = id ∧ (c.node? j).isSome = true then
          some c.pool.take.1
        else c.next? j := by
  rw [next?, h.node?_insertAfter]
  split
  · rfl
  · by_cases hid : j = id
    · rw [if_pos hid, next?]
      cases c.node? j <;> simp [hid]
    · rw [if_neg hid, if_neg (fun hj => hid hj.1), next?]

/-! ## What is kept, whatever the slot -/

/-- An insertion keeps the free slots accounted for. -/
theorem Accounted.insertAfter (h : c.Accounted) (id : TokenId)
    (t : Token) : (c.insertAfter id t).2.Accounted :=
  ((h.alloc ⟨t, c.next? id⟩).modifyNode id _).congr rfl rfl fun _ => rfl

/-- An insertion makes one more live slot, on the chain or beside it. -/
theorem Accounted.length_liveSlots_insertAfter (h : c.Accounted)
    (id : TokenId) (t : Token) :
    (c.insertAfter id t).2.liveSlots.length = c.liveSlots.length + 1 := by
  rw [← h.length_liveSlots_alloc ⟨t, c.next? id⟩]
  exact length_liveSlots_congr fun j => isSome_node?_modifyNode _ id j _

/-- A slot that holds nothing is led to by none, so it can be taken without a
link going astray. -/
theorem Linked.next?_ne_of_node?_eq_none (h : c.Linked) {a b : TokenId}
    (hb : c.node? b = none) : c.next? a ≠ some b := by
  intro hab
  have := h.live hab
  rw [hb] at this
  cases this

/-- **Where the links lead after an insertion**: from the given slot to
the new one, from the new one to where the given slot led, and from any
other to where it led. -/
theorem Accounted.next?_insertAfter_cases (h : c.Accounted)
    {a b : TokenId} {t : Token}
    (hab : (c.insertAfter id t).2.next? a = some b) :
    (a = id ∧ b = c.pool.take.1)
      ∨ (a = c.pool.take.1 ∧ c.next? id = some b)
      ∨ (a ≠ c.pool.take.1 ∧ a ≠ id ∧ c.next? a = some b) := by
  rw [h.next?_insertAfter] at hab
  by_cases hnew : a = c.pool.take.1
  · rw [if_pos hnew] at hab
    by_cases hid : a = id
    · rw [if_pos hid] at hab
      exact Or.inl ⟨hid, (Option.some.inj hab).symm.trans hnew⟩
    · rw [if_neg hid] at hab
      exact Or.inr (Or.inl ⟨hnew, hab⟩)
  · rw [if_neg hnew] at hab
    by_cases hid : a = id
    · by_cases hs : (c.node? a).isSome = true
      · rw [if_pos ⟨hid, hs⟩] at hab
        exact Or.inl ⟨hid, (Option.some.inj hab).symm⟩
      · rw [if_neg (fun hh => hs hh.2), next?_of_node?_eq_none
          (Option.not_isSome_iff_eq_none.mp hs)] at hab
        cases hab
    · rw [if_neg (fun hh => hid hh.1)] at hab
      exact Or.inr (Or.inr ⟨hnew, hid, hab⟩)

/-- **An insertion leaves the links in order.** No slot led to the one
that is taken, for it held nothing, and now the given slot does. -/
theorem Linked.insertAfter (h : c.Linked) (ha : c.Accounted)
    (hhead : ∀ b, c.head = some b → (c.node? b).isSome = true)
    (id : TokenId) (t : Token) : (c.insertAfter id t).2.Linked := by
  have hnew := ha.node?_take
  have hfresh := fun {a} => h.next?_ne_of_node?_eq_none (a := a) hnew
  constructor
  · intro a b hab
    rw [ha.isSome_node?_insertAfter]
    obtain ⟨-, hb⟩ | ⟨-, hb⟩ | ⟨-, -, hb⟩ := ha.next?_insertAfter_cases hab
    · exact Or.inl hb
    · exact Or.inr (h.live hb)
    · exact Or.inr (h.live hb)
  · intro a a' b hab hab'
    obtain ⟨ha1, hb⟩ | ⟨ha1, hb⟩ | ⟨-, hne, hb⟩ :=
      ha.next?_insertAfter_cases hab
    · obtain ⟨ha2, -⟩ | ⟨-, hb'⟩ | ⟨-, -, hb'⟩ :=
        ha.next?_insertAfter_cases hab'
      · exact ha1.trans ha2.symm
      · exact absurd (hb ▸ hb') hfresh
      · exact absurd (hb ▸ hb') hfresh
    · obtain ⟨-, hb'⟩ | ⟨ha2, -⟩ | ⟨-, hne', hb'⟩ :=
        ha.next?_insertAfter_cases hab'
      · exact absurd (hb' ▸ hb) hfresh
      · exact ha1.trans ha2.symm
      · exact absurd (h.inj hb' hb) hne'
    · obtain ⟨-, hb'⟩ | ⟨-, hb'⟩ | ⟨-, -, hb'⟩ :=
        ha.next?_insertAfter_cases hab'
      · exact absurd (hb' ▸ hb) hfresh
      · exact absurd (h.inj hb hb') hne
      · exact h.inj hb hb'
  · intro a b hab
    rw [head_insertAfter]
    obtain ⟨-, rfl⟩ | ⟨-, hb⟩ | ⟨-, -, hb⟩ := ha.next?_insertAfter_cases hab
    · intro hh
      have := hhead _ hh
      rw [hnew] at this
      cases this
    · exact h.ne_head hb
    · exact h.ne_head hb

/-- A slot that is taken for a node which leads nowhere, and made the head,
leaves the links in order. Nothing leads to it, as nothing leads to a slot
that holds nothing. -/
theorem Linked.of_first {d : TokenChain} {new : TokenId} {t : Token}
    (h : c.Linked) (hfree : c.node? new = none) (hhead : d.head = some new)
    (hnode : ∀ j, d.node? j = if j = new then some ⟨t, none⟩ else c.node? j) :
    d.Linked := by
  have hnext : ∀ j, d.next? j = c.next? j := by
    intro j
    rw [next?, hnode]
    split
    · next hj =>
      rw [hj, next?_of_node?_eq_none hfree]
      rfl
    · rfl
  constructor
  · intro a b hab
    rw [hnext] at hab
    rw [hnode]
    split
    · rfl
    · exact h.live hab
  · intro a a' b hab hab'
    rw [hnext] at hab hab'
    exact h.inj hab hab'
  · intro a b hab hb
    rw [hnext] at hab
    obtain rfl := Option.some.inj (hhead.symm.trans hb)
    exact h.next?_ne_of_node?_eq_none hfree hab

/-! ## What becomes of the cells -/

namespace Laid

/-- The slot of the head is live, if there is one. -/
theorem isSome_node?_head (h : c.Laid cells) {b : TokenId}
    (hb : c.head = some b) : (c.node? b).isSome = true := by
  refine h.isSome_node? ?_
  rw [h.head] at hb
  cases cells with
  | nil => cases hb
  | cons d rest =>
    injection hb with hb
    exact hb ▸ List.mem_cons_self

/-- The slot of the tail is on the chain, so putting a token behind it is
putting it at the end. -/
theorem mem_of_tail (h : c.Laid cells) {b : TokenId}
    (hb : c.tail = some b) : b ∈ slots cells := by
  rw [h.tail, Option.map_eq_some_iff] at hb
  obtain ⟨last, hlast, rfl⟩ := hb
  exact List.mem_map_of_mem (List.mem_of_getLast? hlast)

/-- **A token put after a slot of the chain** is a cell behind the one in that
slot, with all other cells where they were. -/
theorem insertAfter_mem (h : c.Laid (before ++ cell :: rest))
    (t : Token) :
    (c.insertAfter cell.slot t).2.Laid
      (before ++ cell :: ⟨c.pool.take.1, t⟩ :: rest) := by
  obtain ⟨hbefore, hrest⟩ := Cell.notMem_of_nodup h.nodup
  have hfresh : ∀ id ∈ slots (before ++ cell :: rest),
      id ≠ c.pool.take.1 := fun id hid =>
    ne_of_mem_of_not_mem hid h.take_notMem
  simp only [slots, List.map_append, List.map_cons] at hfresh
  have hcell : cell.slot ≠ c.pool.take.1 := hfresh _ (by simp)
  have hspelled := spelled_append.mp h.spelled
  have hnode := h.accounted.node?_insertAfter cell.slot
  constructor
  · refine spelled_append.mpr ⟨hspelled.1.congr fun id hid => ?_, ?_, ?_,
      hspelled.2.2.congr fun id hid => ?_⟩
    · rw [hnode, if_neg (hfresh id (List.mem_append_left _ hid)),
        if_neg (ne_of_mem_of_not_mem hid hbefore)]
    · rw [hnode, if_neg hcell, if_pos rfl, hspelled.2.1]
      rfl
    · rw [hnode, if_pos rfl, if_neg hcell.symm,
        next?_of_node? hspelled.2.1]
    · rw [hnode, if_neg (hfresh id (List.mem_append_right _
          (List.mem_cons_of_mem _ hid))),
        if_neg (ne_of_mem_of_not_mem hid hrest)]
  · rw [head_insertAfter, h.head, Cell.entry_append, Cell.entry_append]
    rfl
  · -- the new slot is the tail exactly if nothing came after the cell
    rw [tail_insertAfter, h.tail]
    obtain rfl | ⟨rest, last, rfl⟩ := List.eq_nil_or_concat rest
    · simp
    · have hne : last.slot ≠ cell.slot := by
        intro he
        exact hrest (by simp [slots, ← he])
      simp [List.getLast?_cons, hne]
  · have hperm : List.Perm
        (slots (before ++ cell :: ⟨c.pool.take.1, t⟩ :: rest))
        (c.pool.take.1 :: slots (before ++ cell :: rest)) := by
      simp only [slots, List.map_append, List.map_cons]
      exact (List.Perm.append_left _ (List.Perm.swap _ _ _)).trans
        List.perm_middle
    exact hperm.nodup_iff.mpr (List.nodup_cons.mpr ⟨h.take_notMem, h.nodup⟩)
  · exact h.accounted.insertAfter _ t
  · exact h.linked.insertAfter h.accounted
      (fun b hb => h.isSome_node?_head hb) _ t
  · rw [len_insertAfter, h.accounted.length_liveSlots_insertAfter, h.len]

/-- **A token put after a slot beside the chain, or after one that holds
nothing**, leaves the cells of the chain alone. The token is in a slot of its
own, to which nothing on the chain leads. -/
theorem insertAfter_notMem (h : c.Laid cells) (hid : id ∉ slots cells)
    (t : Token) : (c.insertAfter id t).2.Laid cells where
  spelled := by
    refine h.spelled.congr fun j hj => ?_
    rw [h.accounted.node?_insertAfter,
      if_neg (ne_of_mem_of_not_mem hj h.take_notMem),
      if_neg (ne_of_mem_of_not_mem hj hid)]
  head := (head_insertAfter c id t).trans h.head
  tail := by
    rw [tail_insertAfter, if_neg (fun ht => hid (h.mem_of_tail ht)), h.tail]
  nodup := h.nodup
  accounted := h.accounted.insertAfter id t
  linked := h.linked.insertAfter h.accounted
    (fun b hb => h.isSome_node?_head hb) id t
  len := by
    rw [len_insertAfter, h.accounted.length_liveSlots_insertAfter, h.len]

/-! ## At the end -/

/-- The last slot leads nowhere. -/
theorem next?_of_tail (h : c.Laid cells) {b : TokenId}
    (hb : c.tail = some b) : c.next? b = none := by
  obtain rfl | ⟨before, last, rfl⟩ := List.eq_nil_or_concat cells
  · have := h.tail
    rw [hb] at this
    cases this
  · have hlast := h.tail
    rw [hb, List.concat_eq_append, List.getLast?_concat] at hlast
    have hs := h.spelled
    rw [List.concat_eq_append, spelled_append] at hs
    rw [Option.some.inj hlast, next?_of_node? hs.2.1]
    rfl

/-- **A token put at the end is put after the tail.** -/
theorem pushBack_eq (h : c.Laid cells) {b : TokenId} (hb : c.tail = some b)
    (t : Token) : c.pushBack t = c.insertAfter b t := by
  simp only [TokenChain.pushBack, TokenChain.insertAfter,
    h.next?_of_tail hb]
  have htail := (tail_alloc c ⟨t, none⟩).trans hb
  generalize c.alloc ⟨t, none⟩ = r at htail ⊢
  obtain ⟨new, d⟩ := r
  have hset : (d.setNext b (some new)).tail = some b := htail
  simp only [show d.tail = some b from htail, if_pos hset]

/-- **A first token**, put into a chain without any. Head and tail are both
new then, and nothing leads to its slot. -/
theorem pushBack_nil (h : c.Laid []) (t : Token) :
    (c.pushBack t).2.Laid [⟨c.pool.take.1, t⟩] := by
  have hnew := h.accounted.node?_take
  have hpush : c.pushBack t
      = ((c.alloc ⟨t, none⟩).1,
        { (c.alloc ⟨t, none⟩).2 with
          head := some (c.alloc ⟨t, none⟩).1
          tail := some (c.alloc ⟨t, none⟩).1
          len := (c.alloc ⟨t, none⟩).2.len + 1 }) := by
    unfold TokenChain.pushBack
    have htail := (tail_alloc c ⟨t, none⟩).trans h.tail
    simp only [htail, List.getLast?_nil, Option.map_none]
  have hnode : ∀ j, (c.pushBack t).2.node? j
      = if j = c.pool.take.1 then some ⟨t, none⟩ else c.node? j := by
    intro j
    rw [hpush]
    exact h.accounted.node?_alloc _ j
  have hhead : (c.pushBack t).2.head = some c.pool.take.1 := by
    rw [hpush, ← fst_alloc c ⟨t, none⟩]
  constructor
  · refine ⟨?_, trivial⟩
    rw [hnode, if_pos rfl]
    rfl
  · exact hhead
  · rw [hpush, ← fst_alloc c ⟨t, none⟩]
    rfl
  · exact List.nodup_singleton _
  · rw [hpush]
    exact (h.accounted.alloc ⟨t, none⟩).congr rfl rfl fun _ => rfl
  · exact h.linked.of_first hnew hhead hnode
  · rw [hpush]
    show (c.alloc _).2.len + 1 = (c.alloc ⟨t, none⟩).2.liveSlots.length
    rw [len_alloc, h.accounted.length_liveSlots_alloc, h.len]

/-- **A token put at the end** is a cell behind the others, whether there were
others or not. -/
theorem pushBack (h : c.Laid cells) (t : Token) :
    (c.pushBack t).2.Laid (cells ++ [⟨c.pool.take.1, t⟩]) := by
  obtain rfl | ⟨before, last, rfl⟩ := List.eq_nil_or_concat cells
  · exact h.pushBack_nil t
  · rw [List.concat_eq_append] at h ⊢
    have htail : c.tail = some last.slot := by
      rw [h.tail, List.getLast?_concat]
      rfl
    rw [h.pushBack_eq htail, List.append_assoc]
    exact h.insertAfter_mem t

end Laid

/-- The slot a token put at the end goes to. -/
@[simp] theorem fst_pushBack (c : TokenChain) (t : Token) :
    (c.pushBack t).1 = c.pool.take.1 :=
  fst_alloc c _

@[simp] theorem len_pushBack (c : TokenChain) (t : Token) :
    (c.pushBack t).2.len = c.len + 1 := by
  rw [← len_alloc c ⟨t, none⟩]
  unfold TokenChain.pushBack
  cases hc : (c.alloc ⟨t, none⟩).2.tail with
  | none => simp only [hc]
  | some last =>
    simp only [hc]
    rfl

@[simp] theorem pool_pushBack (c : TokenChain) (t : Token) :
    (c.pushBack t).2.pool = c.pool.take.2 := by
  rw [← pool_alloc c ⟨t, none⟩]
  unfold TokenChain.pushBack
  cases hc : (c.alloc ⟨t, none⟩).2.tail with
  | none =>
    simp only [hc]
    rfl
  | some last =>
    simp only [hc]
    show SlotPool.mk _ _ = SlotPool.mk _ _
    exact congrArg _ (size_nodes_modifyNode _ last _)

end FlatC.TokenChain
