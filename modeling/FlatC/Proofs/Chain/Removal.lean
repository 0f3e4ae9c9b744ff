import FlatC.Proofs.Chain.Insertion

/-!
# Taking tokens out and changing them

`removeNext` has the given slot lead past the one it leads to, and frees
that one; `removeHead` frees the first slot. Either way the freed slot was
led to by one slot or was the head, and afterwards no link leads to it: so
it can be handed out again without becoming part of anything it is not put
into.

Given a slot of the chain, `removeNext` drops the cell behind it, or none
if it is the last; given any other it drops no cell of the chain. The same
is shown of `setText`, which changes no link at all.
-/

namespace FlatC.TokenChain

open Cell (entry slots)

variable {c : TokenChain} {cells before rest : List Cell}
variable {cell gone : Cell} {id j v : TokenId}

/-! ## What becomes of the slots -/

/-- A chain in which one slot leads past another, which is still live. -/
def leadPast (c : TokenChain) (id v : TokenId) : TokenChain :=
  { c.setNext id (c.next? v) with
    tail := if c.tail = some v then some id else c.tail }

/-- Only the link of the one slot is changed. -/
theorem node?_leadPast (c : TokenChain) (id v j : TokenId) :
    (c.leadPast id v).node? j
      = if j = id then (c.node? j).map fun n => ⟨n.token, c.next? v⟩
        else c.node? j :=
  node?_setNext c id j (c.next? v)

theorem isSome_node?_leadPast (c : TokenChain) (id v j : TokenId) :
    ((c.leadPast id v).node? j).isSome = (c.node? j).isSome :=
  isSome_node?_modifyNode c id j _

@[simp] theorem pool_leadPast (c : TokenChain) (id v : TokenId) :
    (c.leadPast id v).pool = c.pool := by
  show SlotPool.mk _ _ = SlotPool.mk _ _
  exact congrArg _ (size_nodes_modifyNode c id _)

/-- A removal leads the given slot past the next one and frees that. Both
steps are told separately, and put together from these. -/
theorem removeNext_of_next? (h : c.next? id = some v) :
    c.removeNext id = (true, (c.leadPast id v).release v) := by
  unfold removeNext
  rw [h]
  rfl

/-- Where nothing follows, nothing is removed. -/
theorem removeNext_of_next?_eq_none (h : c.next? id = none) :
    c.removeNext id = (false, c) := by
  unfold removeNext
  rw [h]

/-- Several removals are one, if there is something to remove, and then
the others. -/
theorem removeNextN_succ (c : TokenChain) (id : TokenId) (n : Nat) :
    c.removeNextN id (n + 1)
      = if (c.removeNext id).1 = true then
          (((c.removeNext id).2.removeNextN id n).1 + 1,
            ((c.removeNext id).2.removeNextN id n).2)
        else (0, (c.removeNext id).2) := by
  rw [removeNextN]
  split
  · next d hd => rw [hd, if_neg Bool.false_ne_true]
  · next d hd => rw [hd, if_pos rfl]

@[simp] theorem head_release (c : TokenChain) (id : TokenId) :
    (c.release id).head = c.head := by
  unfold release
  split <;> rfl

@[simp] theorem tail_release (c : TokenChain) (id : TokenId) :
    (c.release id).tail = c.tail := by
  unfold release
  split <;> rfl

theorem len_release (h : (c.node? id).isSome = true) :
    (c.release id).len = c.len - 1 := by
  rw [release, if_pos h]

/-- A live slot that is freed is given back to the pool. -/
theorem pool_release (h : (c.node? id).isSome = true) :
    (c.release id).pool = c.pool.give id := by
  rw [release, if_pos h]
  show SlotPool.mk _ _ = SlotPool.mk _ _
  exact congrArg _ Array.size_setIfInBounds

/-- **The slots after a removal.** -/
theorem node?_removeNext (h : c.next? id = some v) (j : TokenId) :
    (c.removeNext id).2.node? j
      = if j = v then none
        else if j = id then
          (c.node? j).map fun n => ⟨n.token, c.next? v⟩
        else c.node? j := by
  rw [removeNext_of_next? h, node?_release, node?_leadPast]

/-- **Where the links lead after a removal**: from the given slot to where
the freed one led, and from any other to where it led. -/
theorem next?_removeNext_cases (h : c.next? id = some v) {a b : TokenId}
    (hab : (c.removeNext id).2.next? a = some b) :
    a ≠ v ∧ ((a = id ∧ c.next? v = some b)
      ∨ (a ≠ id ∧ c.next? a = some b)) := by
  rw [next?, node?_removeNext h] at hab
  by_cases hv : a = v
  · rw [if_pos hv] at hab
    cases hab
  · rw [if_neg hv] at hab
    refine ⟨hv, ?_⟩
    by_cases hid : a = id
    · rw [if_pos hid, Option.bind_map] at hab
      obtain ⟨n, -, hb⟩ := Option.bind_eq_some_iff.mp hab
      exact Or.inl ⟨hid, hb⟩
    · rw [if_neg hid] at hab
      exact Or.inr ⟨hid, hab⟩

/-- A chain that begins with what its first slot leads to, while that slot is
still live. -/
def behindHead (c : TokenChain) (first : TokenId) : TokenChain :=
  { c with
    head := c.next? first
    tail := if (c.next? first).isNone then none else c.tail }

/-- Dropping the head begins the chain behind it and frees it. -/
theorem removeHead_of_head (h : c.head = some v) :
    c.removeHead = (true, (c.behindHead v).release v) := by
  unfold removeHead
  rw [h]
  rfl

/-- The slots after the head was dropped: its own holds nothing, and the
others hold what they held. -/
theorem node?_removeHead (h : c.head = some v) (j : TokenId) :
    (c.removeHead).2.node? j = if j = v then none else c.node? j := by
  rw [removeHead_of_head h, node?_release]
  rfl

/-- Where the links lead after the head was dropped: where they led, and none
of them is the head's. -/
theorem next?_removeHead_cases (h : c.head = some v) {a b : TokenId}
    (hab : (c.removeHead).2.next? a = some b) :
    a ≠ v ∧ c.next? a = some b := by
  rw [next?, node?_removeHead h] at hab
  split at hab
  · cases hab
  · next hne => exact ⟨hne, hab⟩

/-- Another text changes no link. -/
@[simp] theorem next?_setText (c : TokenChain) (id j : TokenId)
    (s : String) : (c.setText id s).next? j = c.next? j := by
  rw [next?, node?_setText, next?]
  split
  · rw [Option.bind_map]
    rfl
  · rfl

/-! ## What is kept, whatever the slot -/

/-- **A removal leaves the links in order.** The freed slot was led to by
the given one alone, which now leads past it. -/
theorem Linked.removeNext (h : c.Linked) (hv : c.next? id = some v) :
    (c.removeNext id).2.Linked := by
  have hlive : ∀ b, b ≠ v → (c.node? b).isSome = true →
      ((c.removeNext id).2.node? b).isSome = true := by
    intro b hb hs
    rw [node?_removeNext hv, if_neg hb]
    split
    · rw [Option.isSome_map]
      exact hs
    · exact hs
  constructor
  · intro a b hab
    obtain ⟨hav, ⟨rfl, hb⟩ | ⟨hne, hb⟩⟩ := next?_removeNext_cases hv hab
    · exact hlive b (fun he => hav (h.inj hv (he ▸ hb))) (h.live hb)
    · exact hlive b (fun he => hne (h.inj (he ▸ hb) hv)) (h.live hb)
  · intro a a' b hab hab'
    obtain ⟨hav, ⟨rfl, hb⟩ | ⟨-, hb⟩⟩ := next?_removeNext_cases hv hab
    · obtain ⟨hav', ⟨rfl, -⟩ | ⟨-, hb'⟩⟩ := next?_removeNext_cases hv hab'
      · rfl
      · exact absurd (h.inj hb' hb) hav'
    · obtain ⟨-, ⟨rfl, hb'⟩ | ⟨-, hb'⟩⟩ := next?_removeNext_cases hv hab'
      · exact absurd (h.inj hb hb') hav
      · exact h.inj hb hb'
  · intro a b hab
    have hhead : (c.removeNext id).2.head = c.head := by
      rw [removeNext_of_next? hv, head_release]
      rfl
    rw [hhead]
    obtain ⟨-, ⟨-, hb⟩ | ⟨-, hb⟩⟩ := next?_removeNext_cases hv hab
    · exact h.ne_head hb
    · exact h.ne_head hb

/-- What a removal does to the bookkeeping: one live slot less, and the
freed slot given back. -/
theorem Accounted.removeNext (h : c.Accounted) (hl : c.Linked)
    (hv : c.next? id = some v) :
    (c.removeNext id).2.Accounted
      ∧ (c.removeNext id).2.liveSlots.length + 1 = c.liveSlots.length
      ∧ (c.removeNext id).2.len = c.len - 1
      ∧ (c.removeNext id).2.pool = c.pool.give v := by
  rw [removeNext_of_next? hv]
  have hlive := (isSome_node?_leadPast c id v v).trans (hl.live hv)
  have hpool := pool_leadPast c id v
  injection hpool with hfree hsize
  refine ⟨(h.congr hfree hsize (isSome_node?_leadPast c id v)).release v,
    ?_, len_release hlive, ?_⟩
  · rw [length_liveSlots_release hlive]
    exact length_liveSlots_congr (isSome_node?_leadPast c id v)
  · rw [pool_release hlive, pool_leadPast]

/-- **Dropping the head leaves the links in order**: what it led to is the
head, and nothing else led there. -/
theorem Linked.removeHead (h : c.Linked) (hv : c.head = some v) :
    (c.removeHead).2.Linked := by
  constructor
  · intro a b hab
    obtain ⟨-, hb⟩ := next?_removeHead_cases hv hab
    rw [node?_removeHead hv, if_neg]
    · exact h.live hb
    · rintro rfl
      exact h.ne_head hb hv
  · intro a a' b hab hab'
    exact h.inj (next?_removeHead_cases hv hab).2
      (next?_removeHead_cases hv hab').2
  · intro a b hab hb
    rw [removeHead_of_head hv, head_release] at hb
    obtain ⟨hne, hab⟩ := next?_removeHead_cases hv hab
    exact hne (h.inj hab hb)

/-- The same for the head. -/
theorem Accounted.removeHead (h : c.Accounted) (hv : c.head = some v)
    (hlive : (c.node? v).isSome = true) :
    (c.removeHead).2.Accounted
      ∧ (c.removeHead).2.liveSlots.length + 1 = c.liveSlots.length
      ∧ (c.removeHead).2.len = c.len - 1
      ∧ (c.removeHead).2.pool = c.pool.give v := by
  rw [removeHead_of_head hv]
  have hbehind : (c.behindHead v).Accounted := h.congr rfl rfl fun _ => rfl
  refine ⟨hbehind.release v, ?_, ?_, ?_⟩
  · exact length_liveSlots_release (c := c.behindHead v) hlive
  · exact len_release (c := c.behindHead v) hlive
  · exact pool_release (c := c.behindHead v) hlive

/-! ## What becomes of the cells -/

namespace Laid

/-- A chain with a live slot has a length one can be taken off. Lengths are
natural numbers, so this has to be known. -/
theorem len_pos (h : c.Laid cells) (hid : (c.node? id).isSome = true) :
    0 < c.len := by
  rw [h.len]
  exact List.length_pos_of_mem (mem_liveSlots.mpr hid)

/-- **A removal takes one off the length**, and never from 0. -/
theorem len_removeNext (h : c.Laid cells) (hv : c.next? id = some v) :
    (c.removeNext id).2.len + 1 = c.len := by
  have hpos := h.len_pos (h.linked.live hv)
  have hlen := (h.accounted.removeNext h.linked hv).2.2.1
  omega

/-- What is left of a chain after a removal is laid down if its cells are
spelled out by what is left. All else that is asked of a chain is kept by any
removal. -/
theorem removeNext_of_spelled (h : c.Laid cells) {left : List Cell}
    (hv : c.next? id = some v)
    (hspelled : (c.removeNext id).2.Spelled left none)
    (hhead : entry left none = entry cells none)
    (htail : left.getLast?.map Cell.slot
      = if c.tail = some v then some id else c.tail)
    (hsub : left.Sublist cells) : (c.removeNext id).2.Laid left where
  spelled := hspelled
  head := by
    rw [removeNext_of_next? hv, head_release, hhead]
    exact h.head
  tail := by
    rw [removeNext_of_next? hv, tail_release, htail]
    rfl
  nodup := h.nodup.sublist (hsub.map Cell.slot)
  accounted := (h.accounted.removeNext h.linked hv).1
  linked := h.linked.removeNext hv
  len := by
    have hlen := h.len_removeNext hv
    have hlive := (h.accounted.removeNext h.linked hv).2.1
    have := h.len
    omega

/-- Where a slot of the chain leads that has a cell behind it. -/
theorem next?_mem (h : c.Laid (before ++ cell :: rest)) :
    c.next? cell.slot = entry rest none :=
  next?_of_node? (spelled_append.mp h.spelled).2.1

/-- **The cell behind a slot of the chain dropped**, the others staying where
they are. -/
theorem removeNext_mem (h : c.Laid (before ++ cell :: gone :: rest)) :
    (c.removeNext cell.slot).2.Laid (before ++ cell :: rest) := by
  have hv : c.next? cell.slot = some gone.slot := h.next?_mem
  obtain ⟨hbefore, hrest⟩ := Cell.notMem_of_nodup h.nodup
  have hsplit : before ++ cell :: gone :: rest
      = (before ++ [cell]) ++ gone :: rest := by simp
  obtain ⟨hbefore', hrest'⟩ := Cell.notMem_of_nodup (hsplit ▸ h.nodup)
  simp only [slots, List.map_append, List.map_cons, List.mem_append,
    List.mem_cons, not_or] at hrest hbefore'
  have hspelled := spelled_append.mp h.spelled
  have hnode := node?_removeNext hv
  refine h.removeNext_of_spelled hv (spelled_append.mpr
    ⟨hspelled.1.congr fun id hid => ?_, ?_,
      hspelled.2.2.2.congr fun id hid => ?_⟩) ?_ ?_ ?_
  · rw [hnode, if_neg (ne_of_mem_of_not_mem hid hbefore'.1),
      if_neg (ne_of_mem_of_not_mem hid hbefore)]
  · rw [hnode, if_neg hrest.1, if_pos rfl, hspelled.2.1,
      next?_of_node? hspelled.2.2.1]
    rfl
  · rw [hnode, if_neg (ne_of_mem_of_not_mem hid hrest'),
      if_neg (ne_of_mem_of_not_mem hid hrest.2)]
  · rw [Cell.entry_append, Cell.entry_append]
    rfl
  · -- the dropped cell was the last one exactly if nothing came after it
    rw [h.tail]
    obtain rfl | ⟨rest, last, rfl⟩ := List.eq_nil_or_concat rest
    · simp
    · have hne : last.slot ≠ gone.slot := by
        intro he
        exact hrest' (by simp [slots, ← he])
      simp [List.getLast?_cons, hne]
  · exact List.Sublist.append_left
      (List.Sublist.cons_cons _ (List.sublist_cons_self _ _)) _

/-- **A removal beside the chain** leaves the cells of the chain alone, since
no slot there leads into it. -/
theorem removeNext_notMem (h : c.Laid cells) (hid : id ∉ slots cells) :
    (c.removeNext id).2.Laid cells := by
  cases hv : c.next? id with
  | none => rwa [removeNext_of_next?_eq_none hv]
  | some v =>
    have hv' : v ∉ slots cells := fun hmem => hid (h.apart hv hmem)
    refine h.removeNext_of_spelled hv (h.spelled.congr fun j hj => ?_) rfl ?_
      (List.Sublist.refl _)
    · rw [node?_removeNext hv, if_neg (ne_of_mem_of_not_mem hj hv'),
        if_neg (ne_of_mem_of_not_mem hj hid)]
    · rw [if_neg (fun ht => hv' (h.mem_of_tail ht)), h.tail]

/-- What a removal behind a cell answers: whether there was one behind
it. -/
theorem fst_removeNext_mem (h : c.Laid (before ++ cell :: rest)) :
    (c.removeNext cell.slot).1 = !rest.isEmpty := by
  have hnext := h.next?_mem
  cases rest with
  | nil => rw [removeNext_of_next?_eq_none hnext]; rfl
  | cons d rest => rw [removeNext_of_next? hnext]; rfl

/-- Whatever slot it is given, a removal leaves a chain that lays down some
cells. -/
theorem removeNext (h : c.Laid cells) (id : TokenId) :
    ∃ left, (c.removeNext id).2.Laid left := by
  by_cases hid : id ∈ slots cells
  · obtain ⟨cell, hcell, rfl⟩ := List.mem_map.mp hid
    obtain ⟨before, rest, rfl⟩ := List.append_of_mem hcell
    cases rest with
    | nil =>
      rw [removeNext_of_next?_eq_none h.next?_mem]
      exact ⟨_, h⟩
    | cons gone rest => exact ⟨_, h.removeNext_mem⟩
  · exact ⟨_, h.removeNext_notMem hid⟩

/-- **Several cells behind a slot of the chain dropped**, as many of them
as there are. -/
theorem removeNextN_mem (h : c.Laid (before ++ cell :: rest)) (n : Nat) :
    (c.removeNextN cell.slot n).1 = min n rest.length
      ∧ (c.removeNextN cell.slot n).2.Laid (before ++ cell :: rest.drop n)
      ∧ (c.removeNextN cell.slot n).2.pool
        = c.pool.giveAll (rest.take n) := by
  induction n generalizing c rest with
  | zero => exact ⟨(Nat.zero_min _).symm, h, rfl⟩
  | succ n ih =>
    cases rest with
    | nil =>
      rw [removeNextN_succ, removeNext_of_next?_eq_none h.next?_mem]
      exact ⟨rfl, h, rfl⟩
    | cons d rest =>
      have hnext : c.next? cell.slot = some d.slot := h.next?_mem
      obtain ⟨hcount, hlaid, hpool⟩ := ih h.removeNext_mem
      have hd := (h.accounted.removeNext h.linked hnext).2.2.2
      have htrue : (c.removeNext cell.slot).1 = true :=
        h.fst_removeNext_mem
      rw [removeNextN_succ, if_pos htrue]
      refine ⟨?_, hlaid, ?_⟩
      · rw [hcount, List.length_cons, Nat.succ_min_succ]
      · rw [hpool, hd]
        rfl

/-- **Several removals beside the chain** leave its cells alone. -/
theorem removeNextN_notMem (h : c.Laid cells) (hid : id ∉ slots cells)
    (n : Nat) : (c.removeNextN id n).2.Laid cells := by
  induction n generalizing c with
  | zero => exact h
  | succ n ih =>
    have hr := h.removeNext_notMem hid
    rw [removeNextN_succ]
    split
    · exact ih hr
    · exact hr

/-- **Several removals take as much off the length** as they answer, whatever
slot they are given. So the length stays right even beside the chain. -/
theorem removeNextN (h : c.Laid cells) (id : TokenId) (n : Nat) :
    (∃ left, (c.removeNextN id n).2.Laid left)
      ∧ (c.removeNextN id n).2.len + (c.removeNextN id n).1 = c.len := by
  induction n generalizing c cells with
  | zero => exact ⟨⟨_, h⟩, rfl⟩
  | succ n ih =>
    obtain ⟨left, hleft⟩ := h.removeNext id
    obtain ⟨hlaid, hlen⟩ := ih hleft
    rw [removeNextN_succ]
    cases hv : c.next? id with
    | none =>
      rw [removeNext_of_next?_eq_none hv, if_neg Bool.false_ne_true]
      exact ⟨⟨_, h⟩, rfl⟩
    | some v =>
      have hone := h.len_removeNext hv
      rw [if_pos (by rw [removeNext_of_next? hv])]
      refine ⟨hlaid, ?_⟩
      dsimp only
      omega

/-- **The first cell dropped.** What it led to is the head, and there is no
tail any more if it was the only one. -/
theorem removeHead_cons (h : c.Laid (gone :: rest)) :
    (c.removeHead).2.Laid rest := by
  have hhead : c.head = some gone.slot := h.head
  have hnext : c.next? gone.slot = entry rest none :=
    next?_of_node? h.spelled.1
  have hlive := h.isSome_node? (List.mem_cons_self (a := gone.slot))
  have hgone := (List.nodup_cons.mp h.nodup).1
  constructor
  · refine h.spelled.2.congr fun id hid => ?_
    rw [node?_removeHead hhead, if_neg (ne_of_mem_of_not_mem hid hgone)]
  · rw [removeHead_of_head hhead, head_release, ← hnext]
    rfl
  · rw [removeHead_of_head hhead, tail_release]
    show (if (c.next? gone.slot).isNone then none else c.tail) = _
    rw [hnext, h.tail]
    cases rest with
    | nil => rfl
    | cons d rest => simp [entry, List.getLast?_cons]
  · exact (List.nodup_cons.mp h.nodup).2
  · exact (h.accounted.removeHead hhead hlive).1
  · exact h.linked.removeHead hhead
  · have hk := h.accounted.removeHead hhead hlive
    have hpos := h.len_pos hlive
    have := h.len
    omega

/-- **A removal takes one off the length**, and never from 0. -/
theorem len_removeHead (h : c.Laid (gone :: rest)) :
    (c.removeHead).2.len + 1 = c.len := by
  have hlive := h.isSome_node? (List.mem_cons_self (a := gone.slot))
  have hk := h.accounted.removeHead h.head hlive
  have hpos := h.len_pos hlive
  omega

/-- Without a token there is none to drop. -/
theorem removeHead_nil (h : c.Laid []) : c.removeHead = (false, c) := by
  unfold TokenChain.removeHead
  rw [h.head]
  rfl

/-! ## Another text -/

/-- What another text in a slot leaves as it was: everything but the cells,
which are given with the text in place. -/
theorem setText_of_spelled (h : c.Laid cells) {s : String}
    {left : List Cell} (hspelled : (c.setText id s).Spelled left none)
    (hslots : slots left = slots cells) : (c.setText id s).Laid left := by
  have hentry : ∀ xs : List Cell, entry xs none = (slots xs).head? := by
    intro xs
    cases xs <;> rfl
  have hlast : ∀ xs : List Cell,
      xs.getLast?.map Cell.slot = (slots xs).getLast? := by
    intro xs
    rw [slots, List.getLast?_map]
  constructor
  · exact hspelled
  · rw [hentry, hslots, ← hentry]
    exact h.head
  · rw [hlast, hslots, ← hlast]
    exact h.tail
  · exact hslots ▸ h.nodup
  · exact h.accounted.modifyNode id _
  · constructor
    · intro a b hab
      rw [next?_setText] at hab
      exact (isSome_node?_modifyNode c id b _).trans (h.linked.live hab)
    · intro a a' b hab hab'
      rw [next?_setText] at hab hab'
      exact h.linked.inj hab hab'
    · intro a b hab
      rw [next?_setText] at hab
      exact h.linked.ne_head hab
  · refine h.len.trans (length_liveSlots_congr fun j => ?_).symm
    exact isSome_node?_modifyNode c id j _

/-- **Another text in a slot of the chain.** -/
theorem setText_mem (h : c.Laid (before ++ cell :: rest)) (s : String) :
    (c.setText cell.slot s).Laid (before ++ cell.withText s :: rest) := by
  obtain ⟨hbefore, hrest⟩ := Cell.notMem_of_nodup h.nodup
  have hspelled := spelled_append.mp h.spelled
  have hnode := fun j => node?_setText c cell.slot j s
  refine h.setText_of_spelled (spelled_append.mpr
    ⟨hspelled.1.congr fun id hid => ?_, ?_,
      hspelled.2.2.congr fun id hid => ?_⟩) ?_
  · rw [hnode, if_neg (ne_of_mem_of_not_mem hid hbefore)]
  · rw [Cell.slot_withText, hnode, if_pos rfl, hspelled.2.1]
    rfl
  · rw [hnode, if_neg (ne_of_mem_of_not_mem hid hrest)]
  · simp [slots]

/-- **Another text beside the chain** leaves its cells alone. -/
theorem setText_notMem (h : c.Laid cells) (hid : id ∉ slots cells)
    (s : String) : (c.setText id s).Laid cells := by
  refine h.setText_of_spelled (h.spelled.congr fun j hj => ?_) rfl
  rw [node?_setText, if_neg (ne_of_mem_of_not_mem hj hid)]

end Laid

end FlatC.TokenChain
