import FlatC.Proofs.Chain.Runs
import FlatC.Proofs.Edit.Expanded
import FlatC.Proofs.Edit.Fused
import FlatC.Proofs.Edit.Fusion
import FlatC.Proofs.Edit.Windows

/-!
# Fusing is greedy

From wherever fusing begins, the cells fall into segments from left to right
(`Fusion.Greedy`): two that are a pair are joined, in the place of the first
of them, and a cell is kept only if it is no pair with the one behind it. So
nothing is lost, as the texts say the same one after the other, and nothing
is missed.

Nothing comes about either. A joined text is part of no pair, and neither is
the `.` that `->` is written as. What has been fused is therefore left alone
when it is fused again (`Fusion.fuseOperators_again`), and so is the chain it
lies on.
-/

namespace FlatC

namespace Fusion

variable {a b : String} {c : Cell} {cells xs ys : List Cell}
variable {pool : SlotPool}

/-- Two texts are not joined exactly if they are no pair. -/
theorem unjoined_iff : Unjoined a b ↔ (a, b) ∉ pairs := by
  refine ⟨fun h hmem => ?_, unjoined_of_notMem⟩
  have hjoined : joined? a b = some (a ++ b) :=
    joined?_eq_some_iff.mpr ⟨hmem, rfl⟩
  rw [h] at hjoined
  cases hjoined

/-! ## From left to right -/

/-- **Cells joined greedily**: a pair whenever there is one, and a cell by
itself only where there is none. From left to right there is one way to do
this. -/
inductive Greedy : List Segment → Prop
  | nil : Greedy []
  | joined {c d : Cell} {segments : List Segment} :
    (c.text, d.text) ∈ pairs → Greedy segments →
    Greedy (.replaced [c, d] [c.withText (c.text ++ d.text)] :: segments)
  | kept {c : Cell} {segments : List Segment} :
    (∀ d ∈ (segments.flatMap Segment.old).head?,
      (c.text, d.text) ∉ pairs) →
    Greedy segments → Greedy (.kept c :: segments)

/-- **Joining is greedy**: the cells fall into such segments, and the pairs
are those that are counted. -/
theorem exists_greedy (cells : List Cell) (pool : SlotPool) :
    ∃ segments, Greedy segments ∧ segments.flatMap Segment.old = cells
      ∧ segments.flatMap Segment.new = (join cells pool).cells
      ∧ segments.countP Segment.isReplaced = (join cells pool).count := by
  fun_induction join cells pool with
  | case1 pool => exact ⟨[], .nil, rfl, rfl, rfl⟩
  | case2 c pool => exact ⟨[.kept c], .kept (by simp) .nil, rfl, rfl, rfl⟩
  | case3 c d rest pool text hjoined ih =>
    obtain ⟨segments, hgreedy, hold, hnew, hcount⟩ := ih
    obtain ⟨hmem, rfl⟩ := joined?_eq_some_iff.mp hjoined
    refine ⟨_, .joined hmem hgreedy, ?_, ?_, ?_⟩
    · rw [List.flatMap_cons, hold]
      rfl
    · rw [List.flatMap_cons, hnew]
      rfl
    · rw [List.countP_cons_of_pos rfl, hcount, Edit.count_plus,
        Edit.count_cons, Nat.add_comm]
  | case4 c d rest pool hjoined ih =>
    obtain ⟨segments, hgreedy, hold, hnew, hcount⟩ := ih
    refine ⟨_, .kept (c := c) ?_ hgreedy, ?_, ?_, ?_⟩
    · rw [hold]
      intro e he
      obtain rfl := Option.some.inj he
      exact unjoined_iff.mp hjoined
    · rw [List.flatMap_cons, hold]
      rfl
    · rw [List.flatMap_cons, hnew]
      rfl
    · rw [List.countP_cons_of_neg Bool.false_ne_true, hcount]
      rfl

/-- **Joining loses nothing**: the texts say the same one after the other. -/
theorem join_texts_join (cells : List Cell) (pool : SlotPool) :
    String.join ((join cells pool).cells.map Cell.text)
      = String.join (cells.map Cell.text) := by
  fun_induction join cells pool with
  | case1 pool => rfl
  | case2 c pool => rfl
  | case3 c d rest pool text hjoined ih =>
    obtain ⟨-, rfl⟩ := joined?_eq_some_iff.mp hjoined
    simp [ih, String.append_assoc]
  | case4 c d rest pool hjoined ih => simpa using ih

/-! ## Once more -/

/-- Cells without a pair are left alone, and no slot changes hands. -/
theorem join_eq_unchanged (h : (cells.map Cell.text).IsChain Unjoined)
    (pool : SlotPool) : join cells pool = .unchanged cells pool := by
  induction cells with
  | nil => rfl
  | cons c rest ih =>
    cases rest with
    | nil => rfl
    | cons d rest =>
      rw [List.map_cons, List.map_cons, List.isChain_cons_cons] at h
      rw [join, show joined? c.text d.text = none from h.1]
      dsimp only
      rw [ih h.2]
      rfl

/-- **What has been fused is left alone.** -/
theorem fuseOperators_again (cells : List Cell) (p q : SlotPool) :
    fuseOperators (fuseOperators cells p).cells q
      = .unchanged (fuseOperators cells p).cells q := by
  have hjoin := join_eq_unchanged (isChain_fuseOperators cells p) q
  have hdotted : dotted (fuseOperators cells p).cells
      = (fuseOperators cells p).cells :=
    Cell.rename_eq_self fun c hc htext =>
      absurd htext (ne_of_mem_fuseOperators hc)
  rw [fuseOperators, hjoin, Edit.cells_unchanged, hdotted]
  rfl

/-- The first cell stays in its slot, so a second fusing finds the first one's
cells where those began. -/
theorem head?_fuseOperators (cells : List Cell) (pool : SlotPool) :
    (fuseOperators cells pool).cells.head?.map Cell.slot
      = cells.head?.map Cell.slot := by
  have hslots := Cell.slots_rename "->" "." (join cells pool).cells
  have hhead := congrArg List.head? hslots
  rw [Cell.slots, Cell.slots, List.head?_map, List.head?_map] at hhead
  refine hhead.trans ?_
  fun_cases join cells pool <;> rfl

/-! ## What comes of it -/

/-- **Some cells fused**, with a count. That nothing is missed and nothing is
lost are both part of it. -/
structure Fused (cells : List Cell) (count : Nat) (left : List Cell) :
    Prop where
  /-- They fall into segments, greedily. A pair becomes one cell where its
  first part was; then `->` is written as `.`; and the pairs are counted. -/
  greedy : ∃ segments, Greedy segments
    ∧ segments.flatMap Segment.old = cells
    ∧ dotted (segments.flatMap Segment.new) = left
    ∧ segments.countP Segment.isReplaced = count
  /-- There are fewer of them, by the count. -/
  length : left.length + count = cells.length
  /-- Their texts say the same one after the other, but for `.`. -/
  texts : ∃ ts, String.join ts = String.join (cells.map Cell.text)
    ∧ left.map Cell.text = ts.map dot
  /-- No two that are left next to each other are a pair, -/
  unpaired : (left.map Cell.text).IsChain fun a b => (a, b) ∉ pairs
  /-- and none is `->`. -/
  ne_arrow : ∀ c ∈ left, c.text ≠ "->"

/-- **Fusing is greedy and complete.** -/
theorem fused_fuseOperators (cells : List Cell) (pool : SlotPool) :
    Fused cells (fuseOperators cells pool).count
      (fuseOperators cells pool).cells := by
  obtain ⟨segments, hgreedy, hold, hnew, hcount⟩ := exists_greedy cells pool
  refine ⟨⟨segments, hgreedy, hold, congrArg dotted hnew, hcount⟩, ?_,
    ⟨_, join_texts_join cells pool, texts_dotted _⟩, ?_,
    fun c hc => ne_of_mem_fuseOperators hc⟩
  · have hlength := length_join cells pool
    rwa [← Cell.length_rename "->" "."] at hlength
  · exact (isChain_fuseOperators cells pool).imp
      fun _ _ h => unjoined_iff.mp h

end Fusion

/-! ## Chains -/

namespace TokenChain

open Fusion (Fused)

variable {c : TokenChain} {cell : Cell} {before rest : List Cell}
variable {pass : Pass}

/-- **A chain edited from one of its slots on**: what stands before it stays,
and behind it stands what the pass makes of the rest. -/
theorem Laid.editFrom_slot (h : c.Laid (before ++ cell :: rest))
    (hpass : pass.Sound) :
    let r := pass (cell :: rest) c.pool
    c.editFrom (some cell.slot) pass
        = (r.count, c.relay (before ++ r.cells) r.pool)
      ∧ (c.relay (before ++ r.cells) r.pool).Laid (before ++ r.cells)
      ∧ (c.relay (before ++ r.cells) r.pool).len + (cell :: rest).length
        = c.len + r.cells.length := by
  intro r
  have hlaid := h.relay ((hpass.exchanged (cell :: rest) c.pool).append
    before before rfl)
  have hnot : ∀ b ∈ before, (some b.slot != some cell.slot) = true := by
    intro b hb
    have hnodup := h.nodup
    rw [Cell.slots, List.map_append, List.nodup_append] at hnodup
    have hne := hnodup.2.2 b.slot (List.mem_map_of_mem hb) cell.slot
      (List.mem_map_of_mem List.mem_cons_self)
    simpa using hne
  refine ⟨?_, hlaid, ?_⟩
  · rw [editFrom, h.cells_eq, List.takeWhile_append_of_pos hnot,
      List.dropWhile_append_of_pos hnot]
    simp [r]
  · have hle := h.length_le_len
    show c.len - c.ids.length + (before ++ r.cells).length + _ = _
    rw [h.ids_eq, Cell.slots, List.length_map]
    simp only [List.length_append] at hle ⊢
    omega

/-- **A chain whose operators were fused** from a slot on, and a count. The
slot stays on the chain. -/
structure FusedFrom (c : TokenChain) (start : TokenId) (count : Nat)
    (c' : TokenChain) : Prop where
  /-- What stands before the slot stays, and the cells from there on are
  fused. -/
  fused : ∃ before cells left, c.cells = before ++ cells
    ∧ cells.head?.map Cell.slot = some start
    ∧ c'.cells = before ++ left ∧ Fused cells count left
  /-- The chain is shorter by the count. -/
  len : c'.len + count = c.len
  /-- Fusing once more from there fuses nothing and changes nothing. -/
  again : c'.editFrom (some start) fuseOperators = (0, c')

/-- **Fusing the operators of a chain is greedy and complete**, from
whatever slot of it fusing begins. -/
theorem Laid.fusedFrom (h : c.Laid c.cells) {start : TokenId}
    (hstart : start ∈ c.ids) :
    c.FusedFrom start (c.editFrom (some start) fuseOperators).1
      (c.editFrom (some start) fuseOperators).2 := by
  rw [h.ids_eq] at hstart
  obtain ⟨cell, hcell, rfl⟩ := List.mem_map.mp hstart
  obtain ⟨before, rest, hcells⟩ := List.append_of_mem hcell
  rw [hcells] at h
  obtain ⟨hedit, hlaid, hlen⟩ := h.editFrom_slot sound_fuseOperators
  have hfused := Fusion.fused_fuseOperators (cell :: rest) c.pool
  have hlength := hfused.length
  rw [hedit]
  refine ⟨⟨before, cell :: rest, _, hcells, rfl, hlaid.cells_eq, hfused⟩, ?_,
    ?_⟩
  · dsimp only
    omega
  · have hhead := Fusion.head?_fuseOperators (cell :: rest) c.pool
    obtain ⟨first, hfirst, hslot⟩ := Option.map_eq_some_iff.mp hhead
    obtain ⟨more, hleft⟩ := List.head?_eq_some_iff.mp hfirst
    have hagain := Fusion.fuseOperators_again (cell :: rest) c.pool
    generalize c.relay _ _ = d at hlaid ⊢
    rw [hleft] at hlaid hagain
    rw [← hslot, (hlaid.editFrom_slot sound_fuseOperators).1, hagain]
    exact Prod.ext rfl hlaid.relay_self

/-- Operators that overlap, an arrow and a scope, fused from the second token
on. -/
theorem fusedFrom_of_texts :
    let texts := ["<", "<", "<", "=", "=", "-", ">", "->", ":", ":", ":",
      "public", ":", "x"]
    let c := (ChainOp.run TokenChain.act .empty
      (texts.map fun s => .pushBack ⟨s, 1, .first⟩)).2
    let r := c.editFrom (some ⟨1⟩) fuseOperators
    ⟨1⟩ ∈ c.ids
      ∧ c.tokens.map Token.text = texts
      ∧ r.2.tokens.map Token.text
        = ["<", "<<", "==", ".", ".", "::", ":", "public:", "x"]
      ∧ c.FusedFrom ⟨1⟩ r.1 r.2 := by
  intro texts c r
  have hstart : ⟨1⟩ ∈ c.ids := by decide +kernel
  refine ⟨hstart, by decide +kernel, by decide +kernel, ?_⟩
  have hlaid : c.Laid c.cells := laid_empty.run _
  exact hlaid.fusedFrom hstart

end TokenChain

end FlatC
