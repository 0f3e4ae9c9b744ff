import FlatC.Edit.Fusion
import FlatC.Proofs.Edit.Basic

/-!
# Fusion is sound

Joining two tokens frees the slot of the second, and writing `->` as `.`
touches no slot.
-/

namespace FlatC

open Cell (slots)

namespace Fusion

/-- A pair that is joined gives one slot back. -/
theorem exchanged_join (cells : List Cell) (pool : SlotPool) :
    Row.Exchanged ⟨cells, pool⟩ (join cells pool).row := by
  fun_induction join cells pool with
  | case1 pool => exact Row.Exchanged.refl _
  | case2 c pool => exact Row.Exchanged.refl _
  | case3 c d rest pool text _ ih =>
    exact ((Row.Exchanged.dropped [d] rest pool).trans ih).cons rfl
  | case4 c d rest pool _ ih => exact ih.cons rfl

/-- Which pairs are joined is read off the texts, from left to right on both
sides. -/
theorem alike_join {xs ys : List Cell} (p q : SlotPool)
    (h : Cell.Alike xs ys) : (join xs p).Alike (join ys q) := by
  fun_induction join xs p generalizing ys q with
  | case1 p =>
    obtain rfl := h.eq_nil
    exact .unchanged h p q
  | case2 c p =>
    obtain ⟨c', ys, rfl, hc, hys⟩ := h.exists_cons
    obtain rfl := hys.eq_nil
    exact .unchanged h p q
  | case3 c d rest p text hjoined ih =>
    obtain ⟨c', ys, rfl, hc, hys⟩ := h.exists_cons
    obtain ⟨d', ys, rfl, hd, hrest⟩ := hys.exists_cons
    rw [Cell.text_eq hc, Cell.text_eq hd] at hjoined
    rw [join, hjoined]
    exact ((ih _ hrest).cons (Cell.token_withText_eq hc text)).plus rfl
  | case4 c d rest p hjoined ih =>
    obtain ⟨c', ys, rfl, hc, hys⟩ := h.exists_cons
    obtain ⟨d', ys, rfl, hd, hrest⟩ := hys.exists_cons
    rw [Cell.text_eq hc, Cell.text_eq hd] at hjoined
    rw [join, hjoined]
    exact (ih _ hys).cons hc

end Fusion

/-- Fusing operators is a sound pass. -/
theorem sound_fuseOperators : Pass.Sound fuseOperators where
  exchanged := fun cells pool =>
    (Fusion.exchanged_join cells pool).trans
      (.of_slots (Cell.slots_rename _ _ _).symm)
  alike := fun p q h => by
    have hjoin := Fusion.alike_join p q h
    exact ⟨hjoin.cells.rename _ _, hjoin.count⟩

end FlatC
