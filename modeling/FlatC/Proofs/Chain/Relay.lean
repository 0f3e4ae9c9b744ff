import FlatC.Proofs.Chain.Stock

/-!
# A row laid down in place of a chain

`relay` empties the slots of the old chain, opens what the pool has opened
and links the new cells in order. Two things have to be seen. What is
written to the array is what was asked for: the cells are spelled out, and
every slot that is neither an old one nor a new one holds what it held.
And the slots that stand beside the chain, of which the row knows nothing,
are still beside it afterwards. That is where the stock comes in: a slot
beside the chain is not in stock (`Laid.stock_eq`), so no exchange can have
handed it out.

A chain that lays down a row and has nothing else changed is the one that
`relay` gives (`Laid.eq_relay`). So of several rows laid down one after
another the last one counts (`Laid.relay_relay`), and laying down the row a
chain has changes nothing at all (`Laid.relay_self`).
-/

namespace FlatC

namespace TokenChain

open Cell (entry slots)

variable {c c' : TokenChain} {cells left next : List Cell}
variable {p q : SlotPool}
variable {nodes : Array (Option Node)} {id : TokenId}

/-! ## What is written to the array -/

/-- What a slot of an array holds. The links are written into a bare array,
before it is a chain again. -/
def held (nodes : Array (Option Node)) (id : TokenId) : Option Node :=
  nodes[id.index]?.join

/-- A slot that is emptied holds nothing, and the others hold what they held. -/
theorem held_emptied (nodes : Array (Option Node)) (a id : TokenId) :
    held (nodes.setIfInBounds a.index none) id
      = if id = a then none else held nodes id := by
  rw [held, Array.getElem?_setIfInBounds]
  by_cases h : id = a
  · rw [if_pos h, if_pos (TokenId.eq_iff.mp h).symm]
    split <;> rfl
  · rw [if_neg h, if_neg (fun hi => h (TokenId.eq_iff.mpr hi.symm)), held]

/-- A slot that is filled holds the node, and the others hold what they held. -/
theorem held_filled {a : TokenId} (ha : a.index < nodes.size) (n : Node)
    (id : TokenId) :
    held (nodes.setIfInBounds a.index (some n)) id
      = if id = a then some n else held nodes id := by
  rw [held, Array.getElem?_setIfInBounds]
  by_cases h : id = a
  · rw [if_pos h, if_pos (TokenId.eq_iff.mp h).symm, if_pos ha]
    rfl
  · rw [if_neg h, if_neg (fun hi => h (TokenId.eq_iff.mpr hi.symm)), held]

/-- After several slots have been emptied, these hold nothing. -/
theorem held_cleared (nodes : Array (Option Node)) (ids : List TokenId)
    (id : TokenId) :
    held (ids.foldl (fun nodes id => nodes.setIfInBounds id.index none)
        nodes) id
      = if id ∈ ids then none else held nodes id := by
  induction ids generalizing nodes with
  | nil => exact (if_neg List.not_mem_nil).symm
  | cons a ids ih =>
    rw [List.foldl_cons, ih, held_emptied]
    by_cases ha : id = a
    · rw [if_pos ha, if_pos (List.mem_cons.mpr (Or.inl ha)), ite_self]
    · rw [if_neg ha]
      simp only [List.mem_cons, ha, false_or]

/-- Emptying slots closes none. -/
theorem size_cleared (nodes : Array (Option Node)) (ids : List TokenId) :
    (ids.foldl (fun nodes id => nodes.setIfInBounds id.index none)
      nodes).size = nodes.size := by
  induction ids generalizing nodes with
  | nil => rfl
  | cons a ids ih => rw [List.foldl_cons, ih, Array.size_setIfInBounds]

/-- A slot that is added holds nothing, as it did before. -/
theorem held_opened (nodes : Array (Option Node)) (n : Nat) (id : TokenId) :
    held (nodes ++ Array.replicate n none) id = held nodes id := by
  rw [held, held, Array.getElem?_append]
  split
  · rfl
  · next h =>
    rw [Array.getElem?_eq_none (Nat.le_of_not_lt h),
      Array.getElem?_replicate]
    split <;> rfl

@[simp] theorem size_link (nodes : Array (Option Node))
    (cells : List Cell) : (link nodes cells).size = nodes.size := by
  induction cells generalizing nodes with
  | nil => rfl
  | cons cell rest ih => rw [link, ih, Array.size_setIfInBounds]

/-- A slot of none of the cells that are linked is left alone. -/
theorem held_link_of_notMem (hid : id ∉ slots cells)
    (hbound : ∀ id ∈ slots cells, id.index < nodes.size) :
    held (link nodes cells) id = held nodes id := by
  induction cells generalizing nodes with
  | nil => rfl
  | cons cell rest ih =>
    rw [slots, List.map_cons, List.mem_cons, not_or] at hid
    rw [link, ih hid.2 fun j hj => ?_,
      held_filled (hbound _ List.mem_cons_self), if_neg hid.1]
    rw [Array.size_setIfInBounds]
    exact hbound j (List.mem_cons_of_mem _ hj)

/-- **Cells that are linked are spelled out**, provided that no slot comes
twice and all are open. -/
theorem spelled_link (hc : c.nodes = link nodes cells)
    (hnodup : (slots cells).Nodup)
    (hbound : ∀ id ∈ slots cells, id.index < nodes.size) :
    c.Spelled cells none := by
  induction cells generalizing nodes with
  | nil => trivial
  | cons cell rest ih =>
    obtain ⟨hslot, hnodup⟩ := List.nodup_cons.mp hnodup
    have hrest : ∀ id ∈ slots rest,
        id.index < (nodes.setIfInBounds cell.slot.index
          (some ⟨cell.token, rest.head?.map Cell.slot⟩)).size := by
      intro id hid
      rw [Array.size_setIfInBounds]
      exact hbound id (List.mem_cons_of_mem _ hid)
    refine ⟨?_, ih hc hnodup hrest⟩
    show held c.nodes cell.slot = _
    rw [hc, link, held_link_of_notMem hslot hrest,
      held_filled (hbound _ List.mem_cons_self), if_pos rfl]
    cases rest <;> rfl

/-! ## What is laid down -/

/-- As many slots are open afterwards as in the array or the pool, whichever
has more. -/
theorem size_relay (c : TokenChain) (left : List Cell) (p : SlotPool) :
    (c.relay left p).nodes.size = max c.nodes.size p.size := by
  show (link _ left).size = _
  rw [size_link, Array.size_append, Array.size_replicate, size_cleared]
  omega

/-- The array a row is linked into. -/
theorem nodes_relay (c : TokenChain) (left : List Cell) (p : SlotPool) :
    ∃ nodes, (c.relay left p).nodes = link nodes left
      ∧ nodes.size = max c.nodes.size p.size
      ∧ ∀ id, held nodes id = if id ∈ c.ids then none else c.node? id := by
  refine ⟨_, rfl, ?_, fun id => ?_⟩
  · rw [← size_relay c left p]
    exact (size_link _ left).symm
  · rw [held_opened, held_cleared]
    rfl

variable (hbound : ∀ id ∈ slots left, id.index < p.size)

include hbound in
/-- **The cells that are laid down are spelled out.** -/
theorem spelled_relay (c : TokenChain) (hnodup : (slots left).Nodup) :
    (c.relay left p).Spelled left none := by
  obtain ⟨nodes, hnodes, hsize, -⟩ := nodes_relay c left p
  refine spelled_link hnodes hnodup fun id hid => ?_
  exact Nat.lt_of_lt_of_le (hbound id hid) (hsize ▸ Nat.le_max_right _ _)

include hbound in
/-- **A slot of none of them** holds what it held, if it was none of the old
chain, and nothing if it was. -/
theorem node?_relay_of_notMem (c : TokenChain) (hid : id ∉ slots left) :
    (c.relay left p).node? id
      = if id ∈ c.ids then none else c.node? id := by
  obtain ⟨nodes, hnodes, hsize, hheld⟩ := nodes_relay c left p
  rw [← hheld, ← held_link_of_notMem hid fun j hj =>
    Nat.lt_of_lt_of_le (hbound j hj) (hsize ▸ Nat.le_max_right _ _),
    ← hnodes]
  rfl

/-! ## Slots beside the chain -/

/-- A slot **beside** some cells holds a token and is none of theirs. It stays
as it is when other cells are laid down. -/
def Beside (c : TokenChain) (cells : List Cell) (id : TokenId) : Prop :=
  (c.node? id).isSome = true ∧ id ∉ slots cells

instance (c : TokenChain) (cells : List Cell) (id : TokenId) :
    Decidable (c.Beside cells id) :=
  inferInstanceAs (Decidable (_ ∧ _))

/-- A slot that holds something is not at hand in the pool. -/
theorem Accounted.stock_pool_eq_zero (h : c.Accounted)
    (hlive : (c.node? id).isSome = true) : c.pool.stock id = 0 := by
  obtain ⟨n, hn⟩ := Option.isSome_iff_exists.mp hlive
  have hfree : id ∉ c.free := fun hid => by
    rw [((h.mem_iff id).mp hid).2] at hn
    cases hn
  show c.free.count id + (if c.nodes.size ≤ id.index then 1 else 0) = 0
  rw [List.count_eq_zero.mpr hfree,
    if_neg (Nat.not_le_of_lt (index_lt_of_node? hn))]

/-- One that holds nothing is at hand there once, as a free one or as one that
is not opened yet. -/
theorem Accounted.stock_pool_eq_one (h : c.Accounted)
    (hnone : c.node? id = none) : c.pool.stock id = 1 := by
  have hfree := h.mem_iff id
  show c.free.count id + (if c.nodes.size ≤ id.index then 1 else 0) = 1
  rw [h.nodup.count]
  by_cases hlt : id.index < c.nodes.size
  · rw [if_pos (hfree.mpr ⟨hlt, hnone⟩), if_neg (Nat.not_le_of_lt hlt)]
  · rw [if_neg (fun hf => hlt (hfree.mp hf).1),
      if_pos (Nat.le_of_not_lt hlt)]

/-- **Every slot is in stock once**, save those beside the chain, which are
not in stock. This is what an exchange keeps, and from which all that follows
is derived. -/
theorem Laid.stock_eq (h : c.Laid cells) (id : TokenId) :
    (⟨cells, c.pool⟩ : Row).stock id
      = if c.Beside cells id then 0 else 1 := by
  show (slots cells).count id + c.pool.stock id = _
  rw [h.nodup.count]
  by_cases hid : id ∈ slots cells
  · rw [if_pos hid, h.accounted.stock_pool_eq_zero (h.isSome_node? hid),
      if_neg (fun hb => hb.2 hid)]
  · rw [if_neg hid]
    cases hn : c.node? id with
    | some n =>
      have hlive : (c.node? id).isSome = true := by rw [hn]; rfl
      rw [h.accounted.stock_pool_eq_zero hlive, if_pos ⟨hlive, hid⟩]
    | none =>
      have hb : ¬ c.Beside cells id := fun hb => by
        rw [Beside, hn] at hb
        cases hb.1
      rw [h.accounted.stock_pool_eq_one hn, if_neg hb]

/-! ## Exchanged rows laid down -/

section Exchange

variable (h : c.Laid cells) (he : Row.Exchanged ⟨cells, c.pool⟩ ⟨left, p⟩)
include h he

/-- The stock of a row that was exchanged for that of a chain. -/
theorem Laid.stock_exchanged (id : TokenId) :
    (slots left).count id
        + (p.free.count id + if p.size ≤ id.index then 1 else 0)
      = if c.Beside cells id then 0 else 1 :=
  (he.stock id).trans (h.stock_eq id)

/-- No slot is in stock twice. -/
theorem Laid.stock_exchanged_le (id : TokenId) :
    (slots left).count id
      + (p.free.count id + if p.size ≤ id.index then 1 else 0) ≤ 1 := by
  rw [h.stock_exchanged he]
  split
  · exact Nat.zero_le 1
  · exact Nat.le_refl 1

/-- The cells of an exchanged row are in different slots. -/
theorem Laid.nodup_exchanged : (slots left).Nodup :=
  List.nodup_iff_count_le_one.mpr fun id =>
    Nat.le_trans (Nat.le_add_right _ _) (h.stock_exchanged_le he id)

/-- The slots of an exchanged row are open. -/
theorem Laid.bound_exchanged :
    ∀ id ∈ slots left, id.index < p.size := by
  intro id hid
  have hpos := List.count_pos_iff.mpr hid
  have hle := h.stock_exchanged_le he id
  refine Nat.lt_of_not_le fun hsize => ?_
  rw [if_pos hsize] at hle
  omega

/-- **No slot beside the chain is handed out**, as it is not in stock. -/
theorem Laid.notMem_exchanged (hid : c.Beside cells id) :
    id ∉ slots left := by
  intro hmem
  have hpos := List.count_pos_iff.mpr hmem
  have := h.stock_exchanged he id
  rw [if_pos hid] at this
  omega

/-- **A slot beside the chain holds what it held.** -/
theorem Laid.node?_relay_beside (hid : c.Beside cells id) :
    (c.relay left p).node? id = c.node? id := by
  rw [node?_relay_of_notMem (h.bound_exchanged he) c
    (h.notMem_exchanged he hid), h.ids_eq, if_neg hid.2]

/-- **The live slots afterwards** are those of the cells laid down, and
those that stand beside. -/
theorem Laid.isSome_node?_relay (id : TokenId) :
    ((c.relay left p).node? id).isSome = true
      ↔ id ∈ slots left ∨ c.Beside cells id := by
  constructor
  · intro hlive
    by_cases hid : id ∈ slots left
    · exact Or.inl hid
    · rw [node?_relay_of_notMem (h.bound_exchanged he) c hid,
        h.ids_eq] at hlive
      split at hlive
      · cases hlive
      · next hcells => exact Or.inr ⟨hlive, hcells⟩
  · rintro (hid | hid)
    · exact (spelled_relay (h.bound_exchanged he) c
        (h.nodup_exchanged he)).isSome_node? hid
    · rw [h.node?_relay_beside he hid]
      exact hid.1

/-- A slot that leads on is one of the cells laid down, or stands beside
and leads where it led. -/
theorem Laid.next?_relay_cases {a b : TokenId}
    (hab : (c.relay left p).next? a = some b) :
    a ∈ slots left ∧ b ∈ slots left
      ∨ c.Beside cells a ∧ c.next? a = some b ∧ c.Beside cells b := by
  obtain ⟨t, ht⟩ := next?_eq_some_iff.mp hab
  rcases (h.isSome_node?_relay he a).mp (by rw [ht]; rfl) with ha | ha
  · refine Or.inl ⟨ha, ?_⟩
    have hs := spelled_relay (h.bound_exchanged he) c (h.nodup_exchanged he)
    cases left with
    | nil => cases ha
    | cons cell rest => exact List.mem_cons_of_mem _ (hs.mem_rest ha hab)
  · have hb : c.next? a = some b := by
      rw [next?_eq_some_iff, ← h.node?_relay_beside he ha]
      exact ⟨t, ht⟩
    refine Or.inr ⟨ha, hb, h.linked.live hb, fun hmem => ?_⟩
    exact ha.2 (h.apart hb hmem)

/-- The free slots are accounted for afterwards. It is a matter of counting:
each slot is once on the chain, beside it or in the pool, before and after, as
exchanging moves it from one to the other. -/
theorem Laid.accounted_relay : (c.relay left p).Accounted where
  nodup := List.nodup_iff_count_le_one.mpr fun id => by
    have := h.stock_exchanged_le he id
    show p.free.count id ≤ 1
    omega
  mem_iff id := by
    have hstock := h.stock_exchanged he id
    have hlive := h.isSome_node?_relay he id
    have hsize : max c.nodes.size p.size = p.size :=
      Nat.max_eq_right he.size_le
    rw [size_relay, hsize, ← Option.not_isSome_iff_eq_none, hlive]
    show id ∈ p.free ↔ _
    rw [← List.count_pos_iff]
    constructor
    · intro hpos
      have hle := h.stock_exchanged_le he id
      refine ⟨Nat.lt_of_not_le fun hsize => ?_, ?_⟩
      · rw [if_pos hsize] at hle
        omega
      · rintro (hid | hid)
        · have := List.count_pos_iff.mpr hid
          omega
        · rw [if_pos hid] at hstock
          omega
    · rintro ⟨hsize, hnot⟩
      obtain ⟨hid, hbeside⟩ := not_or.mp hnot
      rw [List.count_eq_zero.mpr hid, if_neg (Nat.not_le_of_lt hsize),
        if_neg hbeside] at hstock
      omega

/-- The links are in order afterwards, on the chain and beside it. A link on
the chain leads along the cells, and one beside it is as it was; the two never
meet, as no slot beside the chain is on it. -/
theorem Laid.linked_relay : (c.relay left p).Linked where
  live := by
    intro a b hab
    rcases h.next?_relay_cases he hab with ⟨-, hb⟩ | ⟨-, -, hb⟩
    · exact (h.isSome_node?_relay he b).mpr (Or.inl hb)
    · exact (h.isSome_node?_relay he b).mpr (Or.inr hb)
  inj := by
    intro a a' b hab hab'
    rcases h.next?_relay_cases he hab with ⟨ha, hb⟩ | ⟨-, ha, hb⟩
    · rcases h.next?_relay_cases he hab' with ⟨ha', -⟩ | ⟨-, -, hb'⟩
      · exact (spelled_relay (h.bound_exchanged he) c
          (h.nodup_exchanged he)).inj (h.nodup_exchanged he) ha ha' hab hab'
      · exact absurd hb (h.notMem_exchanged he hb')
    · rcases h.next?_relay_cases he hab' with ⟨-, hb'⟩ | ⟨-, ha', -⟩
      · exact absurd hb' (h.notMem_exchanged he hb)
      · exact h.linked.inj ha ha'
  ne_head := by
    intro a b hab hhead
    have hs := spelled_relay (h.bound_exchanged he) c (h.nodup_exchanged he)
    have hn := h.nodup_exchanged he
    rw [head_relay] at hhead
    cases left with
    | nil => cases hhead
    | cons cell rest =>
      injection hhead with hhead
      rcases h.next?_relay_cases he hab with ⟨ha, -⟩ | ⟨-, -, hb⟩
      · have hmem := hs.mem_rest ha hab
        rw [← hhead] at hmem
        exact (List.nodup_cons.mp hn).1 hmem
      · exact h.notMem_exchanged he hb (hhead ▸ List.mem_cons_self)

/-- The slots beside the chain are as many as before, so the slots in use have
changed by as many as there are cells more or less. -/
theorem Laid.len_relay :
    (c.relay left p).liveSlots.length = c.len - cells.length + left.length := by
  let beside := c.liveSlots.filter fun id => c.Beside cells id
  have hmem : ∀ id, id ∈ beside ↔ c.Beside cells id := fun id => by
    rw [List.mem_filter, mem_liveSlots, decide_eq_true_eq]
    exact and_iff_right_of_imp And.left
  have hnodup : beside.Nodup := (nodup_liveSlots c).filter _
  have hbefore : c.liveSlots.length = (slots cells ++ beside).length := by
    refine length_liveSlots (List.Nodup.append h.nodup hnodup ?_) fun id => ?_
    · exact fun id hid hb => ((hmem id).mp hb).2 hid
    · rw [List.mem_append, hmem]
      by_cases hid : id ∈ slots cells
      · exact iff_of_true (Or.inl hid) (h.isSome_node? hid)
      · exact ⟨fun hb => (hb.resolve_left hid).1, fun hl => Or.inr ⟨hl, hid⟩⟩
  have hafter : (c.relay left p).liveSlots.length
      = (slots left ++ beside).length := by
    refine length_liveSlots (List.Nodup.append (h.nodup_exchanged he)
      hnodup ?_) fun id => ?_
    · exact fun id hid hb => h.notMem_exchanged he ((hmem id).mp hb) hid
    · rw [List.mem_append, hmem, h.isSome_node?_relay he]
  rw [h.len, hbefore, hafter, List.length_append, List.length_append, slots,
    slots, List.length_map, List.length_map]
  omega

/-- **An exchanged row laid down is a chain that lays it down.** With this a
pass need only be shown to exchange slots; what its chain is like follows. -/
theorem Laid.relay : (c.relay left p).Laid left where
  spelled := spelled_relay (h.bound_exchanged he) c (h.nodup_exchanged he)
  head := by
    rw [head_relay]
    cases left <;> rfl
  tail := tail_relay c left p
  nodup := h.nodup_exchanged he
  accounted := h.accounted_relay he
  linked := h.linked_relay he
  len := by
    show c.len - c.ids.length + left.length = _
    rw [h.len_relay he, h.ids_eq, slots, List.length_map]

/-- **A tidy chain is tidy afterwards**, since nothing beside it has come
about. -/
theorem Laid.tidy_relay (ht : c.Tidy) : (c.relay left p).Tidy := by
  refine (h.relay he).tidy_iff.mpr ?_
  show c.len - c.ids.length + left.length = left.length
  rw [h.ids_eq, h.tidy_iff.mp ht, slots, List.length_map, Nat.sub_self,
    Nat.zero_add]

end Exchange

/-! ## Which chain is laid down -/

/-- An array is what it holds in its slots, and how many it has. -/
theorem nodes_ext {nodes nodes' : Array (Option Node)}
    (hsize : nodes.size = nodes'.size)
    (hheld : ∀ id, held nodes id = held nodes' id) : nodes = nodes' := by
  refine Array.ext hsize fun i hi hi' => ?_
  have := hheld ⟨i⟩
  rwa [held, held, Array.getElem?_eq_getElem hi, Array.getElem?_eq_getElem hi']
    at this

/-- Two chains that spell out the same cells hold the same in their slots. -/
theorem Spelled.node?_eq {d : TokenChain} {after : Option TokenId}
    (h : c.Spelled cells after) (k : d.Spelled cells after)
    (hid : id ∈ slots cells) : c.node? id = d.node? id := by
  obtain ⟨cell, hcell, rfl⟩ := List.mem_map.mp hid
  obtain ⟨before, rest, rfl⟩ := List.append_of_mem hcell
  rw [(spelled_append.mp h).2.1, (spelled_append.mp k).2.1]

/-- The pool that a row is laid down with is the pool of the chain. -/
theorem pool_relay (hsize : c.nodes.size ≤ p.size) (left : List Cell) :
    (c.relay left p).pool = p := by
  show SlotPool.mk p.free (c.relay left p).nodes.size = p
  rw [size_relay, Nat.max_eq_right hsize]

/-- What a row that is laid down does to the length of a chain. -/
theorem Laid.len_relay_add (h : c.Laid cells) (left : List Cell)
    (p : SlotPool) :
    (c.relay left p).len + cells.length = c.len + left.length := by
  have hle := h.length_le_len
  show c.len - c.ids.length + left.length + cells.length = _
  rw [h.ids_eq, slots, List.length_map]
  omega

section Same

variable (h : c.Laid cells) (he : Row.Exchanged ⟨cells, c.pool⟩ ⟨left, p⟩)
include h he

/-- A slot beside the old chain is beside the new one. -/
theorem Laid.beside_relay (hid : c.Beside cells id) :
    (c.relay left p).Beside left id :=
  ⟨(h.isSome_node?_relay he id).mpr (Or.inr hid), h.notMem_exchanged he hid⟩

/-- **A chain that lays down a row and has nothing else changed** is the one
that the row is laid down to. So what an operation does can be told without
looking at the array. -/
theorem Laid.eq_relay (h' : c'.Laid left) (hpool : c'.pool = p)
    (hlen : c'.len + cells.length = c.len + left.length)
    (hbeside : ∀ id, c.Beside cells id → c'.node? id = c.node? id) :
    c' = c.relay left p := by
  have hlaid := h.relay he
  have hpool' : (c.relay left p).pool = p := pool_relay he.size_le left
  have hlen' := h.len_relay_add left p
  -- a slot of none of the cells is live in both chains or in neither
  have hlive : ∀ id, c'.Beside left id ↔ (c.relay left p).Beside left id := by
    intro id
    have hstock := h'.stock_eq id
    rw [hpool, ← hpool', hlaid.stock_eq id] at hstock
    by_cases hb : c'.Beside left id
    · simpa [hb] using hstock
    · simpa [hb] using hstock
  have hnodes : c'.nodes = (c.relay left p).nodes := by
    refine nodes_ext ?_ fun id => ?_
    · exact congrArg SlotPool.size (hpool.trans hpool'.symm)
    · show c'.node? id = (c.relay left p).node? id
      by_cases hid : id ∈ slots left
      · exact h'.spelled.node?_eq hlaid.spelled hid
      · by_cases hb : c.Beside cells id
        · rw [hbeside id hb, h.node?_relay_beside he hb]
        · have hnone : ((c.relay left p).node? id).isSome ≠ true := fun hs =>
            ((h.isSome_node?_relay he id).mp hs).elim hid hb
          have hnone' : (c'.node? id).isSome ≠ true := fun hs =>
            hnone ((hlive id).mp ⟨hs, hid⟩).1
          rw [Option.not_isSome_iff_eq_none.mp hnone,
            Option.not_isSome_iff_eq_none.mp hnone']
  have hhead := h'.head.trans hlaid.head.symm
  have htail := h'.tail.trans hlaid.tail.symm
  have hfree : c'.free = (c.relay left p).free := congrArg SlotPool.free hpool
  have hlength : c'.len = (c.relay left p).len := by omega
  generalize c.relay left p = d at *
  cases c'
  cases d
  simp only at hnodes hlength hhead htail hfree
  rw [hnodes, hlength, hhead, htail, hfree]

/-- **One row after another laid down** is the last one laid down: nothing of
the first is left, not even in the slots it gave back. -/
theorem Laid.relay_relay (hq : Row.Exchanged ⟨left, p⟩ ⟨next, q⟩) :
    (c.relay left p).relay next q = c.relay next q := by
  have hlaid := h.relay he
  have hpool : (c.relay left p).pool = p := pool_relay he.size_le left
  have hq' : Row.Exchanged ⟨left, (c.relay left p).pool⟩ ⟨next, q⟩ :=
    hpool.symm ▸ hq
  refine h.eq_relay (he.trans hq) (hlaid.relay hq')
    (pool_relay hq'.size_le next) ?_ fun id hid => ?_
  · have := h.len_relay_add left p
    have := hlaid.len_relay_add next q
    omega
  · rw [hlaid.node?_relay_beside hq' (h.beside_relay he hid),
      h.node?_relay_beside he hid]

end Same

/-- **Laying down the row a chain has changes nothing.** -/
theorem Laid.relay_self (h : c.Laid cells) : c.relay cells c.pool = c :=
  (h.eq_relay (Row.Exchanged.refl _) h rfl rfl fun _ _ => rfl).symm

end TokenChain

end FlatC
