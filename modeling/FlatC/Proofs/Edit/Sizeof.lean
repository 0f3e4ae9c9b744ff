import FlatC.Edit.Sizeof
import FlatC.Proofs.Edit.Unsigned

/-!
# Evaluating `sizeof` of types

The word becomes the number, and the slots of what is dropped behind it go
back to the pool. The sizes in force depend on the tokens alone as well.
-/

namespace FlatC

variable {xs ys : List Cell}

namespace TypeSizes

/-- What is named is read off the texts. -/
theorem named?_of_alike (h : Cell.Alike xs ys) : named? xs = named? ys := by
  have hopens := h.opens
  rcases h.forall₂ with _ | ⟨h₁, _ | ⟨h₂, _⟩⟩
  · rfl
  · rfl
  · rw [named?, named?, hopens, hopens, Cell.text_eq h₂]

/-- **The sizes in force depend on the tokens alone.** -/
theorem addNamed_of_alike (sizes : TypeSizes) (h : Cell.Alike xs ys) :
    addNamed sizes xs = addNamed sizes ys := by
  induction xs generalizing ys sizes with
  | nil =>
    obtain rfl := h.eq_nil
    rfl
  | cons c xs ih =>
    obtain ⟨d, ys, rfl, hc, hys⟩ := h.exists_cons
    rw [addNamed, addNamed, named?_of_alike h]
    split
    · rw [ih _ hys]
    · rw [ih _ hys]

end TypeSizes

namespace Sizeof

variable {sizes : TypeSizes} {pointer : Nat}

/-- The value of a `sizeof` is read off the texts. -/
theorem value?_of_alike (h : Cell.Alike xs ys) :
    value? sizes pointer xs = value? sizes pointer ys := by
  have hopens := h.opens
  rcases h.forall₂ with _ | ⟨h₁, _ | ⟨h₂, _ | ⟨h₃, _⟩⟩⟩
  · rfl
  · rfl
  · rfl
  · rw [value?, value?, hopens, hopens, Cell.text_eq h₃]

end Sizeof

/-- Evaluating `sizeof` is a sound pass: cells are dropped, and a text is
written over. -/
theorem sound_evalSizeof (sizes : TypeSizes) (pointer : Nat) :
    Pass.Sound (evalSizeof sizes pointer) where
  exchanged := fun cells pool => by
    fun_induction evalSizeof sizes pointer cells pool with
    | case1 pool => exact Row.Exchanged.refl _
    | case2 pool c rest value n _ ih =>
      exact ((Row.Exchanged.taken n rest pool).trans ih).cons rfl
    | case3 pool c rest _ ih => exact ih.cons rfl
  alike := fun {xs ys} p q h => by
    fun_induction evalSizeof sizes pointer xs p generalizing ys q with
    | case1 p =>
      obtain rfl := h.eq_nil
      rw [evalSizeof]
      exact .unchanged h p q
    | case2 p c rest value n hvalue ih =>
      obtain ⟨d, ys, rfl, hc, hys⟩ := h.exists_cons
      rw [Sizeof.value?_of_alike h] at hvalue
      rw [evalSizeof, hvalue]
      exact ((ih _ (hys.drop n)).cons (Cell.token_withText_eq hc _)).plus rfl
    | case3 p c rest hvalue ih =>
      obtain ⟨d, ys, rfl, hc, hys⟩ := h.exists_cons
      rw [Sizeof.value?_of_alike h] at hvalue
      rw [evalSizeof, hvalue]
      exact (ih _ hys).cons hc

/-- What is written for a `sizeof` is a number, so no `unsigned` comes in
front of another token. -/
theorem unsigned_settled_evalSizeof (sizes : TypeSizes) (pointer : Nat)
    {cells : List Cell} (pool : SlotPool)
    (h : Cell.Everywhere Unsigned.Settled cells) :
    Cell.Everywhere Unsigned.Settled
      (evalSizeof sizes pointer cells pool).cells := by
  fun_induction evalSizeof sizes pointer cells pool with
  | case1 pool => trivial
  | case2 pool c rest value n _ ih =>
    exact ⟨Unsigned.settled_of_ne (Unsigned.text_ne value) _, ih (h.2.drop n)⟩
  | case3 pool c rest _ ih =>
    refine ⟨fun hc => ?_, ih h.2⟩
    obtain rfl := h.1 hc
    rw [evalSizeof]
    rfl

end FlatC
