import FlatC.Proofs.Chain.Runs
import FlatC.Proofs.Edit.Sizeof
import FlatC.Proofs.Edit.Subscript
import FlatC.Proofs.Edit.Windows
import FlatC.Proofs.Text.Numeral

/-!
# Sizes and subscripts replaced at once

Evaluating `sizeof` and writing subscripts both replace short windows and
leave all else alone. What their windows are is said here without reference
to the passes (`Sizeof.Evaluates`, `Subscript.Writes`), and each pass is
shown to replace all of them at once.

A window of `sizeof` comes about nowhere, since what is written is a number
and a window has no number in it. A window of a subscript depends on the cell
in front as well, and that may be the last one of another window; but it is
a `)` then, or the `]` that is written there, and neither is a context.
-/

namespace FlatC

variable {before : Option Cell} {b c : Cell}
variable {cells rest x y x' y' xs ys w after : List Cell} {pool : SlotPool}

/-! ## `sizeof` -/

namespace Sizeof

variable {sizes : TypeSizes} {pointer value n : Nat}

/-- **What a `sizeof` is replaced by**: the size of a pointer, or that of a
type of known size. What stands in front does not matter to it. -/
inductive Evaluates (sizes : TypeSizes) (pointer : Nat) : Replacement
  | pointer {before : Option Cell} {word paren type star close : Cell} :
    word.text = "sizeof" → paren.text = "(" →
    Token.isTypeName type.text = true → star.text = "*" → close.text = ")" →
    Evaluates sizes pointer before [word, paren, type, star, close]
      [word.withText (Numeral.text pointer)]
  | type {before : Option Cell} {word paren type close : Cell} :
    word.text = "sizeof" → paren.text = "(" →
    Token.isTypeName type.text = true → close.text = ")" →
    sizes.sizeOf type.text ≠ 0 →
    Evaluates sizes pointer before [word, paren, type, close]
      [word.withText (Numeral.text (sizes.sizeOf type.text))]

/-- What the pass evaluates is a window, of one of the two shapes: with a star
behind the type, or without one and of a known size. -/
theorem evaluates_of_value?
    (h : value? sizes pointer (c :: rest) = some (value, n))
    (before : Option Cell) :
    Evaluates sizes pointer before (c :: rest.take n)
      [c.withText (Numeral.text value)] := by
  unfold value? at h
  split at h
  · next word paren type more hcells =>
    obtain ⟨rfl, rfl⟩ := List.cons.inj hcells
    split_ifs at h with hpointer hplain
    · obtain ⟨rfl, rfl⟩ := Prod.mk.inj (Option.some.inj h)
      have hle := Pattern.length_le_of_fits hpointer
      rw [pieces_pointerShape] at hle
      rcases more with _ | ⟨star, _ | ⟨close, more⟩⟩
      · simp at hle
      · simp at hle
      simp only [Pattern.opens, pieces_pointerShape, Pattern.fits_cons_cons,
        Piece.accepts_type, Piece.accepts_literal, Bool.and_eq_true,
        beq_iff_eq] at hpointer
      obtain ⟨hword, hparen, htype, hstar, hclose, -⟩ := hpointer
      exact .pointer hword.symm hparen.symm htype hstar.symm hclose.symm
    · obtain ⟨rfl, rfl⟩ := Prod.mk.inj (Option.some.inj h)
      rw [Bool.and_eq_true, bne_iff_ne] at hplain
      obtain ⟨hopens, hsize⟩ := hplain
      have hle := Pattern.length_le_of_fits hopens
      rw [pieces_plainShape] at hle
      rcases more with _ | ⟨close, more⟩
      · simp at hle
      simp only [Pattern.opens, pieces_plainShape, Pattern.fits_cons_cons,
        Piece.accepts_type, Piece.accepts_literal, Bool.and_eq_true,
        beq_iff_eq] at hopens
      obtain ⟨hword, hparen, htype, hclose, -⟩ := hopens
      exact .type hword.symm hparen.symm htype hclose.symm hsize
  · cases h

/-- **A window is what the pass evaluates**, whatever comes behind. So the
pass misses none where it looks. -/
theorem Evaluates.value?_eq (h : Evaluates sizes pointer before x y)
    (after : List Cell) :
    ∃ c rest value, x = c :: rest ∧ y = [c.withText (Numeral.text value)]
      ∧ value? sizes pointer (x ++ after) = some (value, rest.length) := by
  cases h with
  | @pointer _ word paren type star close hword hparen htype hstar hclose =>
    refine ⟨word, _, _, rfl, rfl, ?_⟩
    have hopens : pointerShape.opens
        (word :: paren :: type :: star :: close :: after) = true := by
      simp [Pattern.opens, pieces_pointerShape, hword, hparen, htype, hstar,
        hclose]
    simp only [List.cons_append, List.nil_append, value?, hopens]
    rfl
  | @type _ word paren type close hword hparen htype hclose hsize =>
    refine ⟨word, _, _, rfl, rfl, ?_⟩
    have hpointer : pointerShape.opens
        (word :: paren :: type :: close :: after) = false := by
      simp [Pattern.opens, pieces_pointerShape, hclose]
    have hplain : plainShape.opens
        (word :: paren :: type :: close :: after) = true := by
      simp [Pattern.opens, pieces_plainShape, hword, hparen, htype, hclose]
    simp only [List.cons_append, List.nil_append, value?, hpointer, hplain]
    simp [hsize]

/-- A window has no number in it, and no part of one is written by the pass,
which writes numbers. So writing makes no new window with what is around it. -/
theorem Evaluates.isNumber_eq_false (h : Evaluates sizes pointer before x y) :
    ∀ c ∈ x, Token.isNumber c.text = false := by
  have hfixed : ∀ s ∈ ["sizeof", "(", "*", ")"],
      Token.isNumber s = false := by
    decide +kernel
  have htypeName : ∀ {s}, Token.isTypeName s = true →
      Token.isNumber s = false := fun hs => by
    refine Bool.eq_false_iff.mpr fun hnumber => ?_
    have := Token.isName_of_isTypeName hs
    rw [Numeral.isName_of_isNumber hnumber] at this
    cases this
  cases h with
  | pointer hword hparen htype hstar hclose =>
    simp [hword, hparen, hstar, hclose, htypeName htype, hfixed]
  | type hword hparen htype hclose hsize =>
    simp [hword, hparen, hclose, htypeName htype, hfixed]

/-- **Windows of `sizeof` are told by the word**, which no window has but at
its beginning. -/
theorem marked_evaluates :
    (Evaluates sizes pointer).Marked "sizeof" where
  begins := fun {before x y} h => by
    have htypeName : ∀ {s}, Token.isTypeName s = true → s ≠ "sizeof" := by
      rintro s hs rfl
      exact absurd hs (by decide +kernel)
    cases h with
    | pointer hword hparen htype hstar hclose =>
      refine ⟨_, _, rfl, hword, ?_⟩
      simp [hparen, hstar, hclose, htypeName htype]
    | type hword hparen htype hclose hsize =>
      refine ⟨_, _, rfl, hword, ?_⟩
      simp [hparen, hclose, htypeName htype]
  unique := fun {before x y x' y' after after'} h h' heq => by
    obtain ⟨c, rest, value, rfl, rfl, hvalue⟩ := h.value?_eq after
    obtain ⟨c', rest', value', rfl, rfl, hvalue'⟩ := h'.value?_eq after'
    rw [heq, hvalue'] at hvalue
    obtain ⟨rfl, hlength⟩ := Prod.mk.inj (Option.some.inj hvalue)
    obtain ⟨rfl, hrest⟩ := List.cons.inj heq
    obtain ⟨rfl, -⟩ := List.append_inj hrest hlength.symm
    exact ⟨rfl, rfl⟩

/-- **The pass goes over the windows** from left to right, and passes a cell
only if none begins there. -/
theorem makes_evalSizeof (sizes : TypeSizes) (pointer : Nat)
    (before : Option Cell) (cells : List Cell) (pool : SlotPool) :
    (Evaluates sizes pointer).Makes before cells
      (evalSizeof sizes pointer cells pool) := by
  fun_induction evalSizeof sizes pointer cells pool generalizing before with
  | case1 pool => exact .nil before pool
  | case2 pool c rest value n hvalue ih =>
    have hsplit : c :: rest = (c :: rest.take n) ++ rest.drop n := by
      rw [List.cons_append, List.take_append_drop]
    rw [hsplit]
    exact .replaced (evaluates_of_value? hvalue before) (ih _)
  | case3 pool c rest hvalue ih =>
    refine .cons (fun x y after hx happlies => ?_) (ih _)
    obtain ⟨_, _, _, -, -, hsome⟩ := happlies.value?_eq after
    rw [← hx, hvalue] at hsome
    cases hsome

/-- **Cells without a number that are left in front** were there before. -/
theorem prefix_of_prefix_evalSizeof (hw : ∀ c ∈ w, ¬ Token.isNumber c.text)
    (h : w <+: (evalSizeof sizes pointer cells pool).cells) : w <+: cells := by
  fun_induction evalSizeof sizes pointer cells pool generalizing w with
  | case1 pool => exact h
  | case2 pool c rest value n _ ih =>
    rcases List.prefix_cons_iff.mp h with rfl | ⟨t, rfl, -⟩
    · exact List.nil_prefix
    · have hnumber : Token.isNumber (Numeral.text value) = true :=
        Numeral.isNumber_of_isDigits (Numeral.isDigits_text value)
      exact absurd hnumber (hw (c.withText _) List.mem_cons_self)
  | case3 pool c rest _ ih =>
    rcases List.prefix_cons_iff.mp h with rfl | ⟨t, rfl, ht⟩
    · exact List.nil_prefix
    · have hrest := ih (fun d hd => hw d (List.mem_cons_of_mem _ hd)) ht
      exact List.cons_prefix_cons.mpr ⟨rfl, hrest⟩

/-- **No `sizeof` is left**, and none comes about: what is left in front of a
number was there before. -/
theorem not_evaluates_evalSizeof
    (h : (evalSizeof sizes pointer cells pool).cells = xs ++ (x ++ ys)) :
    ¬ Evaluates sizes pointer before x y := by
  intro happlies
  fun_induction evalSizeof sizes pointer cells pool generalizing xs with
  | case1 pool =>
    obtain ⟨c, rest, _, rfl, -⟩ := happlies.value?_eq ys
    simp at h
  | case2 pool c rest value n _ ih =>
    rcases xs with _ | ⟨d, xs⟩
    · obtain ⟨d, tail, _, rfl, -⟩ := happlies.value?_eq ys
      obtain ⟨rfl, -⟩ := List.cons.inj h
      have hnumber : Token.isNumber (Numeral.text value) = true :=
        Numeral.isNumber_of_isDigits (Numeral.isDigits_text value)
      have hnone := happlies.isNumber_eq_false _ List.mem_cons_self
      exact absurd (hnumber.symm.trans hnone) Bool.noConfusion
    · exact ih (List.cons.inj h).2
  | case3 pool c rest hvalue ih =>
    rcases xs with _ | ⟨d, xs⟩
    · obtain ⟨d, tail, _, rfl, -⟩ := happlies.value?_eq ys
      obtain ⟨rfl, htail⟩ := List.cons.inj h
      have hnone := happlies.isNumber_eq_false
      obtain ⟨after, hafter⟩ := prefix_of_prefix_evalSizeof (w := tail)
        (fun e he => by simp [hnone e (List.mem_cons_of_mem _ he)])
        ⟨ys, htail.symm⟩
      obtain ⟨_, _, _, -, -, hsome⟩ := happlies.value?_eq after
      rw [List.cons_append, hafter, hvalue] at hsome
      cases hsome
    · exact ih (List.cons.inj h).2

end Sizeof

/-! ## Subscripts -/

namespace Subscript

variable {written dropped more : List Cell}

/-- **What a subscript is written for**: a sum of a name and a number that is
dereferenced, in one of the contexts. The cell in front is part of the
condition and stays. -/
inductive Writes : Replacement
  | subscript {context star paren var plus num close : Cell} :
    Token.startsWithAny contexts context.text = true →
    star.text = "*" → paren.text = "(" → Token.isName var.text = true →
    plus.text = "+" → Token.isNumber num.text = true → close.text = ")" →
    Writes (some context) [star, paren, var, plus, num, close]
      [star.withText var.text, paren.withText "[", var.withText num.text,
        plus.withText "]"]

/-- What the pass writes is written for a window of six cells, the last of
which is a `)`. The pass goes on behind that. -/
theorem writes_of_next?
    (h : next? b.text rest = some (written, dropped, more)) :
    ∃ x d, rest = x ++ more ∧ x.getLast? = some d ∧ d.text = ")"
      ∧ Writes (some b) x written := by
  unfold next? at h
  split at h
  · next star paren var plus num close more =>
    split_ifs at h with hnext
    obtain ⟨rfl, -, rfl⟩ := by simpa using h
    simp only [Bool.and_eq_true, Pattern.opens, pieces_shape,
      Pattern.fits_cons_cons, Piece.accepts_var, Piece.accepts_num,
      Piece.accepts_literal, beq_iff_eq] at hnext
    obtain ⟨hcontext, hstar, hparen, hvar, hplus, hnum, hclose, -⟩ := hnext
    exact ⟨[star, paren, var, plus, num, close], close, rfl, rfl, hclose.symm,
      .subscript hcontext hstar.symm hparen.symm hvar hplus.symm hnum
        hclose.symm⟩
  · cases h

/-- **What is written for a window is what the pass writes**, whatever comes
behind. -/
theorem Writes.next?_eq (h : Writes before x y) (after : List Cell) :
    ∃ b dropped, before = some b
      ∧ next? b.text (x ++ after) = some (y, dropped, after) := by
  obtain @⟨context, star, paren, var, plus, num, close, hcontext, hstar,
    hparen, hvar, hplus, hnum, hclose⟩ := h
  have hopens : shape.opens
      (star :: paren :: var :: plus :: num :: close :: after) = true := by
    simp [Pattern.opens, pieces_shape, hstar, hparen, hvar, hplus, hnum,
      hclose]
  refine ⟨context, [num, close], rfl, ?_⟩
  simp only [List.cons_append, List.nil_append, next?, hcontext, hopens]
  rfl

/-- **Windows of subscripts are told by the `*`**, which no window has but at
its beginning. -/
theorem marked_writes : Writes.Marked "*" where
  begins := fun {before x y} h => by
    obtain ⟨-, hstar, hparen, hvar, hplus, hnum, hclose⟩ := h
    have hname := Token.ne_of_isName hvar
      (by decide +kernel : Token.isName "*" = false)
    refine ⟨_, _, rfl, hstar, ?_⟩
    have hnumber : ∀ {s}, Token.isNumber s = true → s ≠ "*" := by
      rintro s hs rfl
      exact absurd hs (by decide +kernel)
    simp [hparen, hname, hplus, hnumber hnum, hclose]
  unique := fun {before x y x' y' after after'} h h' heq => by
    obtain ⟨b, _, rfl, hnext⟩ := h.next?_eq after
    obtain ⟨b', _, hb, hnext'⟩ := h'.next?_eq after'
    obtain rfl := Option.some.inj hb
    rw [heq, hnext'] at hnext
    obtain ⟨rfl, -, rfl⟩ := by simpa using hnext
    exact ⟨List.append_cancel_right heq, rfl⟩

/-- **The pass goes over the windows** from left to right, where none begins
behind what comes before. -/
theorem makes_writeSubscripts (before : Option Cell) (cells : List Cell)
    (pool : SlotPool) (hbefore : ∀ b, before = some b → Settled b.text cells) :
    Writes.Makes before cells (writeSubscripts cells pool) := by
  have hnone : ∀ {c rest before},
      (∀ b, before = some b → Settled b.text (c :: rest)) →
      ∀ x y after, c :: rest = x ++ after → ¬ Writes before x y := by
    intro c rest before hbefore x y after hx happlies
    obtain ⟨b, _, rfl, hnext⟩ := happlies.next?_eq after
    rw [← hx, hbefore b rfl] at hnext
    cases hnext
  fun_induction writeSubscripts cells pool generalizing before with
  | case1 pool => exact .nil before pool
  | case2 pool c rest written dropped more hnext ih =>
    obtain ⟨x, d, rfl, hlast, hd, happlies⟩ := writes_of_next? hnext
    refine .cons (hnone hbefore) (.replaced happlies (ih _ ?_))
    rw [hlast]
    intro b hb
    obtain rfl := Option.some.inj hb
    exact settled_of_context (by rw [hd]; decide +kernel) more
  | case3 pool c rest hnext ih =>
    refine .cons (hnone hbefore) (ih _ fun b hb => ?_)
    obtain rfl := Option.some.inj hb
    exact hnext

/-- **No subscript is left to write**, and none comes about: what is written
at the end of one is no context of another. -/
theorem not_writes_writeSubscripts
    (h : (writeSubscripts cells pool).cells = xs ++ (x ++ ys)) :
    ¬ Writes xs.getLast? x y := by
  intro happlies
  obtain ⟨b, _, hb, hnext⟩ := happlies.next?_eq ys
  obtain ⟨xs, rfl⟩ := List.getLast?_eq_some_iff.mp hb
  have hsettled := subscript_settled_writeSubscripts cells pool
  rw [h, List.append_assoc] at hsettled
  have hnone : next? b.text (x ++ ys) = none := hsettled.here
  rw [hnext] at hnone
  cases hnone

end Subscript

/-! ## Chains -/

namespace TokenChain

variable {c : TokenChain}

/-- **Evaluating the `sizeof` of a chain and writing its subscripts replace
all windows at once.** No account is given of an order, for there is none that
matters. -/
theorem Laid.replaces_windows (h : c.Laid c.cells) (sizes : TypeSizes)
    (pointer : Nat) :
    Replaced (Sizeof.Evaluates sizes pointer) c.cells
        (c.edit (evalSizeof sizes pointer)).1
        (c.edit (evalSizeof sizes pointer)).2.cells
      ∧ Replaced Subscript.Writes c.cells (c.edit writeSubscripts).1
        (c.edit writeSubscripts).2.cells := by
  constructor
  · rw [(h.edit (sound_evalSizeof sizes pointer)).cells_eq]
    refine (Sizeof.makes_evalSizeof sizes pointer none c.cells
      c.pool).replaced_at_once Sizeof.marked_evaluates fun w => ?_
    exact Sizeof.not_evaluates_evalSizeof
      (w.eq.trans (List.append_assoc _ _ _)) w.applies
  · rw [(h.edit sound_writeSubscripts).cells_eq]
    refine (Subscript.makes_writeSubscripts none c.cells c.pool
      (fun b hb => nomatch hb)).replaced_at_once
      Subscript.marked_writes fun w => ?_
    exact Subscript.not_writes_writeSubscripts
      (w.eq.trans (List.append_assoc _ _ _)) w.applies

/-- A `sizeof` of a type without a size, and one within another; a sum right
behind another one, where the `*` multiplies. -/
theorem replaces_windows_of_texts :
    let texts := ["x", "=", "sizeof", "(", "T", "*", ")", "+", "sizeof", "(",
      "T", ")", ";", "sizeof", "(", "sizeof", "(", "int", ")", ")", ";", "*",
      "(", "p", "+", "1", ")", "*", "(", "q", "+", "2", ")", ";"]
    let sizes := TypeSizes.empty.insert "int" 4
    let c := (ChainOp.run TokenChain.act .empty
      (texts.map fun s => .pushBack ⟨s, 1, .first⟩)).2
    c.tokens.map Token.text = texts
      ∧ (c.edit (evalSizeof sizes 8)).2.tokens.map Token.text
        = ["x", "=", "8", "+", "sizeof", "(", "T", ")", ";", "sizeof", "(",
          "4", ")", ";", "*", "(", "p", "+", "1", ")", "*", "(", "q", "+",
          "2", ")", ";"]
      ∧ (c.edit writeSubscripts).1 = 1
      ∧ Replaced (Sizeof.Evaluates sizes 8) c.cells
          (c.edit (evalSizeof sizes 8)).1 (c.edit (evalSizeof sizes 8)).2.cells
      ∧ Replaced Subscript.Writes c.cells (c.edit writeSubscripts).1
          (c.edit writeSubscripts).2.cells := by
  intro texts sizes c
  refine ⟨by decide +kernel, by decide +kernel, by decide +kernel, ?_⟩
  have hlaid : c.Laid c.cells := laid_empty.run _
  exact hlaid.replaces_windows sizes 8

end TokenChain

end FlatC
