import FlatC.Edit.Constant
import FlatC.Proofs.Edit.Unsigned

/-!
# Inlining constants

A declaration writes texts over texts, so every cell stays in its slot and
the pool is never asked. What is written are numbers, so `unsigned` does
not come back.
-/

namespace FlatC

open Cell (slots)

namespace Constant

variable {xs ys : List Cell} {c d : Cell}

/-- A declaration that is carried out touches no slot. -/
theorem slots_apply (c : Cell) (rest : List Cell) :
    slots (apply c rest).1 = slots rest := by
  unfold apply
  split
  · split
    · simp only [slots, List.map_cons]
      rw [← slots, ← slots, Cell.slots_rename]
    · rfl
  · rfl

/-- What a declaration does is read off the texts. -/
theorem alike_apply (hc : c.token = d.token) (h : Cell.Alike xs ys) :
    Cell.Alike (apply c xs).1 (apply d ys).1
      ∧ (apply c xs).2 = (apply d ys).2 := by
  have hopens := (h.cons hc).opens
  rcases h.forall₂ with
    _ | ⟨h₁, _ | ⟨h₂, _ | ⟨h₃, _ | ⟨h₄, _ | ⟨h₅, _⟩⟩⟩⟩⟩
  · exact ⟨h, rfl⟩
  · exact ⟨h, rfl⟩
  · exact ⟨h, rfl⟩
  · exact ⟨h, rfl⟩
  · exact ⟨h, rfl⟩
  · have hafter := h.drop 5
    rw [apply, apply, hopens, Cell.text_eq h₂, Cell.text_eq h₄]
    split
    · exact ⟨.cons h₁ (.cons h₂ (.cons h₃ (.cons h₄ (.cons h₅
        (hafter.rename _ _))))), hafter.occurrences _⟩
    · exact ⟨h, rfl⟩

end Constant

/-- Inlining constants is a sound pass: it only writes over texts. -/
theorem sound_inlineConstants : Pass.Sound inlineConstants where
  exchanged := fun cells pool => by
    fun_induction inlineConstants cells pool with
    | case1 => exact Row.Exchanged.refl _
    | case2 c rest after ih =>
      have hslots := Constant.slots_apply c rest
      exact ((Row.Exchanged.of_slots hslots.symm).trans ih).cons rfl
  alike := fun {xs ys} p q h => by
    fun_induction inlineConstants xs p generalizing ys q with
    | case1 =>
      obtain rfl := h.eq_nil
      rw [inlineConstants]
      exact .unchanged h p q
    | case2 c rest after =>
      rename_i ih
      obtain ⟨d, ys, rfl, hc, hys⟩ := h.exists_cons
      obtain ⟨hafter, hcount⟩ := Constant.alike_apply hc hys
      rw [inlineConstants]
      exact ((ih _ hafter).cons hc).plus hcount

/-! ## No `unsigned` comes back -/

/-- What is written for a name is a number, so no `unsigned` comes in front of
another token. -/
theorem Constant.unsigned_settled_apply (c : Cell) {rest : List Cell}
    (h : Cell.Everywhere Unsigned.Settled rest) :
    Cell.Everywhere Unsigned.Settled (apply c rest).1 := by
  unfold apply
  split
  · next type name eq num stop after =>
    split
    · next hopens =>
      simp only [Pattern.opens, pieces_shape, Pattern.fits_cons_cons,
        Piece.accepts_num, Bool.and_eq_true] at hopens
      have hnum := Unsigned.ne_of_isNumber hopens.2.2.2.2.1
      have hafter : Cell.Everywhere Unsigned.Settled
          (Cell.rename name.text num.text after) :=
        Unsigned.everywhere_rename hnum (h.drop 5)
      refine Unsigned.everywhere_append [type, name, eq, num, stop]
        h (fun hnil => ?_) hafter
      rw [hnil]
      rfl
    · exact h
  · exact h

/-- Inlining constants leaves no `unsigned` in front of another token if there
was none. -/
theorem unsigned_settled_inlineConstants {cells : List Cell}
    (pool : SlotPool) (h : Cell.Everywhere Unsigned.Settled cells) :
    Cell.Everywhere Unsigned.Settled (inlineConstants cells pool).cells := by
  fun_induction inlineConstants cells pool with
  | case1 => trivial
  | case2 c rest after ih =>
    refine ⟨fun hc => ?_, ih (Constant.unsigned_settled_apply c h.2)⟩
    obtain rfl := h.1 hc
    rw [show after.1 = [] from rfl, inlineConstants]
    rfl

end FlatC
