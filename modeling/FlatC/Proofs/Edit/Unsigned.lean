import FlatC.Edit.Unsigned
import FlatC.Text.Numeral
import FlatC.Proofs.Edit.Basic
import FlatC.Proofs.Edit.Everywhere

/-!
# Dropping `unsigned`

The pass is sound, and it leaves `unsigned` nowhere but at the very end.
Where that is so there is nothing for it to do.
-/

namespace FlatC

/-- Dropping `unsigned` is a sound pass: cells are dropped by what they say,
and no text is changed. The last cell is kept whatever it says. -/
theorem sound_dropUnsigned : Pass.Sound dropUnsigned where
  exchanged := fun cells pool => by
    fun_induction dropUnsigned cells pool with
    | case1 pool => exact Row.Exchanged.refl _
    | case2 c pool => exact Row.Exchanged.refl _
    | case3 c d rest pool _ ih =>
      exact (Row.Exchanged.dropped [c] (d :: rest) pool).trans ih
    | case4 c d rest pool _ ih => exact ih.cons rfl
  alike := fun {xs ys} p q h => by
    fun_induction dropUnsigned xs p generalizing ys q with
    | case1 p =>
      obtain rfl := h.eq_nil
      exact .unchanged h p q
    | case2 c p =>
      obtain ⟨c', ys, rfl, hc, hys⟩ := h.exists_cons
      obtain rfl := hys.eq_nil
      exact .unchanged h p q
    | case3 c d rest p htext ih =>
      obtain ⟨c', ys, rfl, hc, hys⟩ := h.exists_cons
      obtain ⟨d', ys, rfl, hd, hrest⟩ := hys.exists_cons
      rw [Cell.text_eq hc] at htext
      rw [dropUnsigned, if_pos htext]
      exact (ih _ hys).plus rfl
    | case4 c d rest p htext ih =>
      obtain ⟨c', ys, rfl, hc, hys⟩ := h.exists_cons
      obtain ⟨d', ys, rfl, hd, hrest⟩ := hys.exists_cons
      rw [Cell.text_eq hc] at htext
      rw [dropUnsigned, if_neg htext]
      exact (ih _ hys).cons hc

/-! ## Where there is nothing to drop -/

namespace Unsigned

variable {cells : List Cell} {text : String}

/-- A word that is not `unsigned`, or has nothing after it. Every pass that
follows has to keep this everywhere. -/
def Settled (text : String) (rest : List Cell) : Prop :=
  text = "unsigned" → rest = []

theorem settled_of_ne (h : text ≠ "unsigned") (rest : List Cell) :
    Settled text rest :=
  fun he => absurd he h

/-- A word with something after it is not `unsigned`. -/
theorem Settled.ne {rest : List Cell} (h : Settled text rest)
    (hrest : rest ≠ []) : text ≠ "unsigned" :=
  fun he => hrest (h he)

theorem ne_of_isNumber (h : Token.isNumber text = true) :
    text ≠ "unsigned" := by
  rintro rfl
  revert h
  decide +kernel

/-- A numeral is made of digits, with a sign at most. -/
theorem mem_signedText {n : Int} {c : Char}
    (h : c ∈ (Numeral.signedText n).toList) : c.isDigit = true ∨ c = '-' := by
  cases n with
  | ofNat n =>
    rw [Numeral.signedText, Numeral.text, String.toList_ofList] at h
    exact Or.inl (Nat.isDigit_of_mem_toDigits (by decide) (by decide) h)
  | negSucc n =>
    rw [Numeral.signedText, String.toList_append] at h
    rcases List.mem_append.mp h with h | h
    · exact Or.inr (List.mem_singleton.mp h)
    · rw [Numeral.text, String.toList_ofList] at h
      exact Or.inl (Nat.isDigit_of_mem_toDigits (by decide) (by decide) h)

theorem signedText_ne (n : Int) : Numeral.signedText n ≠ "unsigned" := by
  intro he
  have hu : 'u' ∈ (Numeral.signedText n).toList := by
    rw [he]
    decide +kernel
  revert hu
  intro hu
  rcases mem_signedText hu with h | h
  · revert h
    decide
  · revert h
    decide

theorem text_ne (n : Nat) : Numeral.text n ≠ "unsigned" :=
  signedText_ne (.ofNat n)

/-- **Cells in front are kept** when what comes after them changes, but not
to nothing. -/
theorem everywhere_append (xs : List Cell) {ys zs : List Cell}
    (h : Cell.Everywhere Settled (xs ++ ys)) (hnil : ys = [] → zs = [])
    (hzs : Cell.Everywhere Settled zs) :
    Cell.Everywhere Settled (xs ++ zs) := by
  induction xs with
  | nil => exact hzs
  | cons x xs ih =>
    refine ⟨fun hx => ?_, ih h.2⟩
    obtain ⟨hxs, hys⟩ := List.append_eq_nil_iff.mp (h.1 hx)
    rw [hxs, hnil hys]
    rfl

/-- Other words written over some keep `unsigned` out, if the new one is
another word. -/
theorem everywhere_rename {old new : String} (hnew : new ≠ "unsigned")
    (h : Cell.Everywhere Settled cells) :
    Cell.Everywhere Settled (Cell.rename old new cells) := by
  induction cells with
  | nil => trivial
  | cons c rest ih =>
    refine ⟨?_, ih h.2⟩
    intro hc
    dsimp only at hc
    by_cases hold : c.text = old
    · rw [if_pos (beq_iff_eq.mpr hold)] at hc
      exact absurd hc hnew
    · rw [if_neg (fun he => hold (eq_of_beq he))] at hc
      rw [h.1 hc]
      rfl

end Unsigned

/-- **`unsigned` is nowhere but at the end** when it has been dropped. -/
theorem unsigned_settled_dropUnsigned (cells : List Cell)
    (pool : SlotPool) :
    Cell.Everywhere Unsigned.Settled (dropUnsigned cells pool).cells := by
  fun_induction dropUnsigned cells pool with
  | case1 pool => trivial
  | case2 c pool => exact ⟨fun _ => rfl, trivial⟩
  | case3 c d rest pool _ ih => exact ih
  | case4 c d rest pool htext ih =>
    exact ⟨Unsigned.settled_of_ne (fun he => htext (beq_iff_eq.mpr he)) _, ih⟩

/-- **Nothing is dropped** where `unsigned` is nowhere but at the end, and no
slot changes hands. -/
theorem dropUnsigned_eq_unchanged {cells : List Cell}
    (h : Cell.Everywhere Unsigned.Settled cells) (pool : SlotPool) :
    dropUnsigned cells pool = .unchanged cells pool := by
  fun_induction dropUnsigned cells pool with
  | case1 pool => rfl
  | case2 c pool => rfl
  | case3 c d rest pool htext ih =>
    exact absurd (eq_of_beq htext) (h.1.ne (List.cons_ne_nil d rest))
  | case4 c d rest pool _ ih =>
    rw [ih h.2]
    rfl

end FlatC
