import FlatC.Edit.Typedef
import FlatC.Proofs.Edit.Basic

/-!
# Expanding typedef names is sound

A statement is looked through without any slot of its own being touched;
what changes slots is the writing out behind it, which takes a slot for
each name that becomes two words. The laws follow the three recursions:
over the cells behind (`writeOut`), over the statement (`lookThrough`) and
over the statements (`expandTypedefs`).
-/

namespace FlatC

open Cell (slots)

namespace Typedef

variable {xs ys own own' after after' : List Cell} {c d : Cell}

/-! ## Slots -/

/-- A name that is written out takes one slot. -/
theorem exchanged_writeOut (name first second : String)
    (cells : List Cell) (pool : SlotPool) :
    Row.Exchanged ⟨cells, pool⟩
      (writeOut name first second cells pool).row := by
  induction cells generalizing pool with
  | nil => exact Row.Exchanged.refl _
  | cons c rest ih =>
    rw [writeOut]
    split
    · have htake := Row.Exchanged.taking (c.token.withText second) rest pool
      exact (htake.trans ((ih pool.take.2).cons rfl)).cons rfl
    · exact (ih pool).cons rfl

/-- The word of a typedef stays in its slot. -/
theorem slot_apply (c : Cell) (more after : List Cell) (pool : SlotPool) :
    (apply c more after pool).1.slot = c.slot := by
  unfold apply
  split
  · split
    · dsimp only
      split <;> rfl
    · rfl
  · split <;> rfl
  · rfl

/-- A typedef that is carried out only takes slots. -/
theorem exchanged_apply (c : Cell) (more after : List Cell)
    (pool : SlotPool) :
    Row.Exchanged ⟨after, pool⟩ (apply c more after pool).2.row := by
  unfold apply
  split
  · split
    · exact .of_slots (Cell.slots_rename _ _ _).symm
    · exact Row.Exchanged.refl _
  · split
    · exact exchanged_writeOut _ _ _ _ _
    · exact Row.Exchanged.refl _
  · exact Row.Exchanged.refl _

/-- A statement that is looked through stays in its slots. -/
theorem slots_lookThrough (own after : List Cell) (pool : SlotPool) :
    slots (lookThrough own after pool).own = slots own := by
  induction own generalizing after pool with
  | nil => rfl
  | cons c more ih =>
    exact congrArg₂ List.cons (slot_apply c more after pool) (ih _ _)

/-- Looking a statement through only takes slots. -/
theorem exchanged_lookThrough (own after : List Cell) (pool : SlotPool) :
    Row.Exchanged ⟨after, pool⟩ (lookThrough own after pool).after.row := by
  induction own generalizing after pool with
  | nil => exact Row.Exchanged.refl _
  | cons c more ih => exact (exchanged_apply c more after pool).trans (ih _ _)

/-- A statement is cut off from what follows it. -/
theorem eq_append_of_cut? {cells : List Cell}
    (h : cut? cells = some (own, after)) : cells = own ++ after := by
  induction cells generalizing own with
  | nil => cases h
  | cons c cells ih =>
    rw [cut?] at h
    split at h
    · cases h
      rfl
    · obtain ⟨⟨own', after'⟩, hcut, heq⟩ := Option.map_eq_some_iff.mp h
      cases heq
      rw [List.cons_append, ← ih hcut]

/-! ## Tokens -/

/-- What is written out is read off the texts, cell by cell; the slots that
are taken for it may differ. -/
theorem alike_writeOut (name first second : String) (p q : SlotPool)
    (h : Cell.Alike xs ys) :
    (writeOut name first second xs p).Alike
      (writeOut name first second ys q) := by
  induction xs generalizing ys p q with
  | nil =>
    obtain rfl := h.eq_nil
    exact .unchanged h p q
  | cons c xs ih =>
    obtain ⟨d, ys, rfl, hc, hys⟩ := h.exists_cons
    rw [writeOut, writeOut, Cell.text_eq hc]
    split
    · refine ((ih _ _ hys).prepend ?_).plus rfl
      exact .cons (Cell.token_withText_eq hc first)
        (.cons (Cell.token_withText_eq hc second) (.refl []))
    · exact (ih p q hys).cons hc

/-- What a typedef does is read off the texts, both to its own first cell and
to the cells behind it. -/
theorem alike_apply (p q : SlotPool) (hc : c.token = d.token)
    (hmore : Cell.Alike own own') (hafter : Cell.Alike after after') :
    (apply c own after p).1.token = (apply d own' after' q).1.token
      ∧ (apply c own after p).2.Alike (apply d own' after' q).2 := by
  have hopens := (hmore.cons hc).opens
  have htext := Cell.text_eq hc
  rcases hmore.forall₂ with _ | ⟨h₁, _ | ⟨h₂, _ | ⟨h₃, _ | ⟨h₄, _ | _⟩⟩⟩⟩
  · exact ⟨hc, .unchanged hafter p q⟩
  · exact ⟨hc, .unchanged hafter p q⟩
  · exact ⟨hc, .unchanged hafter p q⟩
  · have hactual := Cell.text_eq h₁
    have hname := Cell.text_eq h₂
    rw [apply, apply, hopens, hactual, hname, htext]
    split
    · refine ⟨?_, hafter.rename _ _, ?_⟩
      · show (ite _ _ c).token = (ite _ _ d).token
        split
        · exact Cell.token_withText_eq hc _
        · exact hc
      · exact (hafter.cons hc).occurrences _
    · exact ⟨hc, .unchanged hafter p q⟩
  · rw [apply, apply, hopens, Cell.text_eq h₁, Cell.text_eq h₂,
      Cell.text_eq h₃]
    split
    · exact ⟨hc, alike_writeOut _ _ _ p q hafter⟩
    · exact ⟨hc, .unchanged hafter p q⟩
  · exact ⟨hc, .unchanged hafter p q⟩

/-- What a statement does to the cells behind it is read off the texts. -/
theorem alike_lookThrough (p q : SlotPool) (hown : Cell.Alike own own')
    (hafter : Cell.Alike after after') :
    Cell.Alike (lookThrough own after p).own (lookThrough own' after' q).own
      ∧ (lookThrough own after p).after.Alike
        (lookThrough own' after' q).after := by
  induction own generalizing own' after after' p q with
  | nil =>
    obtain rfl := hown.eq_nil
    exact ⟨.refl _, .unchanged hafter p q⟩
  | cons c more ih =>
    obtain ⟨d, more', rfl, hc, hmore⟩ := hown.exists_cons
    obtain ⟨hcell, hr⟩ := alike_apply p q hc hmore hafter
    obtain ⟨ho, ha⟩ := ih (apply c more after p).2.pool
      (apply d more' after' q).2.pool hmore hr.cells
    exact ⟨.cons hcell ho, ha.plus hr.count⟩

/-- Two typedefs cut off, alike. -/
def SameCut (x y : List Cell × List Cell) : Prop :=
  Cell.Alike x.1 y.1 ∧ Cell.Alike x.2 y.2

/-- Where a statement ends is read off the texts: at the first `;`. -/
theorem rel_cut? (h : Cell.Alike xs ys) :
    Option.Rel SameCut (cut? xs) (cut? ys) := by
  induction xs generalizing ys with
  | nil =>
    obtain rfl := h.eq_nil
    exact .none
  | cons c xs ih =>
    obtain ⟨d, ys, rfl, hc, hys⟩ := h.exists_cons
    rw [cut?, cut?, Cell.text_eq hc]
    split
    · exact .some ⟨.cons hc (.refl []), hys⟩
    · have hrest := ih hys
      generalize cut? xs = x at hrest ⊢
      generalize cut? ys = y at hrest ⊢
      cases hrest with
      | none => exact .none
      | some hrest => exact .some ⟨.cons hc hrest.1, hrest.2⟩

end Typedef

section Equations

variable {cells own after : List Cell} {pool : SlotPool}

theorem expandTypedefs_of_cut?_eq_none (h : Typedef.cut? cells = none) :
    expandTypedefs cells pool = .unchanged cells pool := by
  rw [expandTypedefs]
  split
  · rfl
  · next hcut =>
    rw [h] at hcut
    cases hcut

theorem expandTypedefs_of_cut? (h : Typedef.cut? cells = some (own, after)) :
    expandTypedefs cells pool
      = ((expandTypedefs (Typedef.lookThrough own after pool).after.cells
          (Typedef.lookThrough own after pool).after.pool).prepend
            (Typedef.lookThrough own after pool).own).plus
              (Typedef.lookThrough own after pool).after.count := by
  rw [expandTypedefs]
  split
  · next hcut =>
    rw [h] at hcut
    cases hcut
  · next hcut =>
    rw [h] at hcut
    cases hcut
    rfl

end Equations

/-- Expanding typedef names is a sound pass, statement by statement. -/
theorem sound_expandTypedefs : Pass.Sound expandTypedefs where
  exchanged := fun cells pool => by
    fun_induction expandTypedefs cells pool with
    | case1 cells pool _ => exact Row.Exchanged.refl _
    | case2 cells pool own after hcut o ih =>
      rw [Typedef.eq_append_of_cut? hcut]
      exact ((Typedef.exchanged_lookThrough own after pool).trans ih).append
        _ _ (Typedef.slots_lookThrough own after pool).symm
  alike := fun {xs ys} p q h => by
    fun_induction expandTypedefs xs p generalizing ys q with
    | case1 xs p hcut =>
      have hrel := Typedef.rel_cut? h
      rw [hcut] at hrel
      rw [expandTypedefs_of_cut?_eq_none (eq_none_of_rel hrel)]
      exact .unchanged h p q
    | case2 xs p own after hcut o =>
      rename_i ih
      have hrel := Typedef.rel_cut? h
      rw [hcut] at hrel
      obtain ⟨⟨own', after'⟩, hy, ho, ha⟩ := exists_of_rel_some hrel
      have hlook := Typedef.alike_lookThrough p q ho ha
      rw [expandTypedefs_of_cut? hy]
      exact ((ih _ hlook.2.cells).prepend hlook.1).plus hlook.2.count

end FlatC
