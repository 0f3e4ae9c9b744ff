import FlatC.Edit.Subscript
import FlatC.Proofs.Edit.Arithmetic

/-!
# Writing subscripts

The subscript takes four of the six slots of the sum, and the pool gets the
other two.

Afterwards no subscript is left to write. One could only come about where a
`*` and a `(` stand before cells that were changed; but what is written
behind a `(` starts with a name and a `[`, and the sum that is wanted there
has a `+`. Nor is arithmetic unsettled: of the cells written all but the
number are inert, and the `]` in place of a `)` lets no more be folded
behind it.
-/

namespace FlatC

open Cell (slots)

namespace Subscript

variable {xs ys written dropped more : List Cell} {before : String}

/-- **What a subscript is written in place of**: of its six slots four are
kept. -/
theorem exchanged_of_next?
    (h : next? before xs = some (written, dropped, more)) (pool : SlotPool) :
    Row.Exchanged ⟨xs, pool⟩ ⟨written ++ more, pool.giveAll dropped⟩ := by
  unfold next? at h
  split at h
  · next star paren var plus num close more =>
    split at h
    · cases h
      exact (Row.Exchanged.dropped [num, close] more pool).append
        [star, paren, var, plus] _ rfl
    · cases h
  · cases h

/-- The cells of a subscript and those after it, alike. -/
def SameNext (x y : List Cell × List Cell × List Cell) : Prop :=
  Cell.Alike x.1 y.1 ∧ Cell.Alike x.2.2 y.2.2

/-- Whether a subscript comes next is read off the texts, that of the cell in
front among them. -/
theorem rel_next? (before : String) (h : Cell.Alike xs ys) :
    Option.Rel SameNext (next? before xs) (next? before ys) := by
  have hopens := h.opens
  rcases h.forall₂ with
    _ | ⟨h₁, _ | ⟨h₂, _ | ⟨h₃, _ | ⟨h₄, _ | ⟨h₅, _ | ⟨h₆, _⟩⟩⟩⟩⟩⟩
  · exact .none
  · exact .none
  · exact .none
  · exact .none
  · exact .none
  · exact .none
  · rw [next?, next?, hopens, Cell.text_eq h₃, Cell.text_eq h₅]
    split
    · refine .some ⟨?_, h.drop 6⟩
      exact .cons (Cell.token_withText_eq h₁ _)
        (.cons (Cell.token_withText_eq h₂ _)
          (.cons (Cell.token_withText_eq h₃ _)
            (.cons (Cell.token_withText_eq h₄ _) (.refl []))))
    · exact .none

end Subscript

section Equations

variable {c : Cell} {rest written dropped more : List Cell}
variable {pool : SlotPool}

/-- Where no subscript comes next a cell is passed. -/
theorem writeSubscripts_of_next?_eq_none
    (h : Subscript.next? c.text rest = none) :
    writeSubscripts (c :: rest) pool = (writeSubscripts rest pool).cons c := by
  rw [writeSubscripts]
  split
  · next hnext =>
    rw [h] at hnext
    cases hnext
  · rfl

/-- A subscript that comes next is written, and the pass goes on behind it. -/
theorem writeSubscripts_of_next?
    (h : Subscript.next? c.text rest = some (written, dropped, more)) :
    writeSubscripts (c :: rest) pool
      = ((writeSubscripts more (pool.giveAll dropped)).prepend
          (c :: written)).plus 1 := by
  rw [writeSubscripts]
  split
  · next hnext =>
    rw [h] at hnext
    cases hnext
    rfl
  · next hnext =>
    rw [h] at hnext
    cases hnext

end Equations

/-- Writing subscripts is a sound pass: four texts are written over, and two
cells are dropped. -/
theorem sound_writeSubscripts : Pass.Sound writeSubscripts where
  exchanged := fun cells pool => by
    fun_induction writeSubscripts cells pool with
    | case1 pool => exact Row.Exchanged.refl _
    | case2 pool c rest written dropped more hnext ih =>
      have hdone := Subscript.exchanged_of_next? hnext pool
      exact (hdone.trans (ih.append _ _ rfl)).cons rfl
    | case3 pool c rest _ ih => exact ih.cons rfl
  alike := fun {xs ys} p q h => by
    fun_induction writeSubscripts xs p generalizing ys q with
    | case1 p =>
      obtain rfl := h.eq_nil
      rw [writeSubscripts]
      exact .unchanged h p q
    | case2 p c rest written dropped more hnext ih =>
      obtain ⟨d, ys, rfl, hc, hys⟩ := h.exists_cons
      have hrel := Subscript.rel_next? d.text hys
      rw [← Cell.text_eq hc, hnext, Cell.text_eq hc] at hrel
      obtain ⟨⟨written', dropped', more'⟩, hy, hw, hm⟩ :=
        exists_of_rel_some hrel
      rw [writeSubscripts_of_next? hy]
      exact ((ih _ hm).prepend (hw.cons hc)).plus rfl
    | case3 p c rest hnext ih =>
      obtain ⟨d, ys, rfl, hc, hys⟩ := h.exists_cons
      have hrel := Subscript.rel_next? d.text hys
      rw [← Cell.text_eq hc, hnext, Cell.text_eq hc] at hrel
      rw [writeSubscripts_of_next?_eq_none (eq_none_of_rel hrel)]
      exact (ih _ hys).cons hc

/-! ## Where there is nothing to write -/

namespace Subscript

variable {xs ys rest written dropped more : List Cell} {before : String}
variable {c : Cell}

/-- No subscript comes next behind a text. -/
def Settled (before : String) (rest : List Cell) : Prop :=
  next? before rest = none

/-- **What a subscript is written in place of**, and that it is one. All that
the other lemmas need of a subscript is said here, so the pattern is opened
once. -/
theorem cells_of_next?
    (h : next? before rest = some (written, dropped, more)) :
    Token.startsWithAny contexts before = true
      ∧ ∃ star paren var plus num close,
        rest = star :: paren :: var :: plus :: num :: close :: more
          ∧ written = [star.withText var.text, paren.withText "[",
            var.withText num.text, plus.withText "]"]
          ∧ dropped = [num, close]
          ∧ close.text = ")"
          ∧ Token.isName var.text = true
          ∧ Token.isNumber num.text = true := by
  unfold next? at h
  split at h
  · next star paren var plus num close more =>
    split at h
    · next hnext =>
      cases h
      rw [Bool.and_eq_true] at hnext
      have hopens := hnext.2
      simp only [Pattern.opens, pieces_shape, Pattern.fits_cons_cons,
        Piece.accepts_var, Piece.accepts_num, Piece.accepts_literal,
        Bool.and_eq_true, beq_iff_eq] at hopens
      exact ⟨hnext.1, star, paren, var, plus, num, close, rfl, rfl, rfl,
        hopens.2.2.2.2.2.1.symm, hopens.2.2.1, hopens.2.2.2.2.1⟩
    · cases h
  · cases h

/-- **A subscript comes next** in one of its contexts where the shape of the
sum does, and nowhere else. -/
theorem settled_iff :
    Settled before rest
      ↔ (Token.startsWithAny contexts before && shape.opens rest) = false := by
  by_cases hopens : shape.opens rest = true
  · have hle := Pattern.length_le_of_fits hopens
    rw [pieces_shape] at hle
    rcases rest with _ | ⟨star, _ | ⟨paren, _ | ⟨var, _ | ⟨plus, _ | ⟨num,
      _ | ⟨close, more⟩⟩⟩⟩⟩⟩
    · simp at hle
    · simp at hle
    · simp at hle
    · simp at hle
    · simp at hle
    · simp at hle
    rw [Settled, next?]
    split
    · next h => simp [h]
    · next h => simp [h]
  · rw [Bool.eq_false_iff.mpr hopens, Bool.and_false, Settled]
    refine iff_of_true ?_ rfl
    unfold next?
    split
    · rw [Bool.eq_false_iff.mpr hopens, Bool.and_false]
      rfl
    · rfl

theorem settled_of_context (h : Token.startsWithAny contexts before = false)
    (rest : List Cell) : Settled before rest := by
  rw [settled_iff, h, Bool.false_and]

/-- A sum that is dereferenced begins with a `*`. -/
theorem settled_of_ne_star (h : c.text ≠ "*") (before : String)
    (rest : List Cell) : Settled before (c :: rest) := by
  rw [settled_iff, Pattern.opens, pieces_shape, Pattern.fits_cons_cons,
    Piece.accepts_literal, beq_eq_false_iff_ne.mpr (Ne.symm h),
    Bool.false_and, Bool.and_false]

/-- The second text of the sum is a `(`. -/
theorem settled_of_ne_paren {d : Cell} (h : d.text ≠ "(") (before : String)
    (c : Cell) (rest : List Cell) : Settled before (c :: d :: rest) := by
  rw [settled_iff, Pattern.opens, pieces_shape, Pattern.fits_cons_cons,
    Pattern.fits_cons_cons, Piece.accepts_literal "(",
    beq_eq_false_iff_ne.mpr (Ne.symm h), Bool.false_and, Bool.and_false,
    Bool.and_false]

/-- **Subscripts are settled up to an edit** that begins at none of the
texts of the sum. -/
theorem Settled.of_agree {stops : List Char}
    (hstops : shape.pieces.all (Piece.avoids ([',', '=', ';'] ++ stops)) = true)
    (h : Cell.Agree stops xs ys) (hx : Settled before xs) :
    Settled before ys := by
  rw [settled_iff, Pattern.opens] at hx ⊢
  rwa [← h.fits hstops]

end Subscript

section Write

variable {c : Cell} {rest : List Cell} {pool : SlotPool}

/-- **Writing subscripts agrees with the cells** up to the first context of
one. -/
theorem agree_writeSubscripts (cells : List Cell) (pool : SlotPool) :
    Cell.Agree Subscript.contexts cells (writeSubscripts cells pool).cells := by
  fun_induction writeSubscripts cells pool with
  | case1 pool => trivial
  | case2 pool c rest written dropped more hnext ih =>
    exact Or.inl ⟨rfl, Or.inl (Subscript.cells_of_next? hnext).1⟩
  | case3 pool c rest _ ih => exact Or.inl ⟨rfl, Or.inr ih⟩

/-- The first cell stays. -/
theorem cells_writeSubscripts_cons (c : Cell) (rest : List Cell)
    (pool : SlotPool) :
    ∃ tail, (writeSubscripts (c :: rest) pool).cells = c :: tail := by
  cases h : Subscript.next? c.text rest with
  | none => exact ⟨_, by rw [writeSubscripts_of_next?_eq_none h]; rfl⟩
  | some r => exact ⟨_, by rw [writeSubscripts_of_next? h]; rfl⟩

/-- **No sum comes about** where subscripts are written: behind a `(` that was
there, what is written has no `+`. -/
theorem Subscript.opens_of_opens_writeSubscripts
    (h : shape.opens (writeSubscripts rest pool).cells = true) :
    shape.opens rest = true := by
  rw [Pattern.opens, pieces_shape] at h ⊢
  rcases rest with _ | ⟨star, rest⟩
  · rwa [writeSubscripts] at h
  -- a `*` is no context, so what comes next is what came next
  obtain ⟨_, hstar⟩ := cells_writeSubscripts_cons star rest pool
  have htext : star.text = "*" := by
    rw [hstar, Pattern.fits_cons_cons, Bool.and_eq_true] at h
    exact (eq_of_beq h.1).symm
  have hsettled : Settled star.text rest :=
    settled_of_context (by rw [htext]; decide +kernel) rest
  rw [writeSubscripts_of_next?_eq_none hsettled, Edit.cells_cons,
    Pattern.fits_cons_cons, Bool.and_eq_true] at h
  rw [Pattern.fits_cons_cons, h.1, Bool.true_and]
  replace h := h.2
  rcases rest with _ | ⟨paren, rest⟩
  · rwa [writeSubscripts] at h
  cases hnext : next? paren.text rest with
  | none =>
    rw [writeSubscripts_of_next?_eq_none hnext, Edit.cells_cons,
      Pattern.fits_cons_cons] at h
    rw [Pattern.fits_cons_cons]
    rwa [(agree_writeSubscripts rest pool).fits (by decide +kernel)]
  | some r =>
    -- a subscript behind the `(` has a `[` where the sum has its `+`
    obtain ⟨written, dropped, more⟩ := r
    obtain ⟨-, _, _, _, _, _, _, -, rfl, -⟩ := cells_of_next? hnext
    rw [writeSubscripts_of_next? hnext] at h
    simp only [Edit.cells_plus, Edit.cells_prepend, List.cons_append,
      Pattern.fits_cons_cons, Piece.accepts_literal, Cell.text_withText,
      Bool.and_eq_true] at h
    exact absurd h.2.2.1 (by decide)

/-- **Subscripts are settled** when they have been written. None of the four
texts written is a context or a star, so no sum comes to be behind them that
was not looked at. -/
theorem subscript_settled_writeSubscripts (cells : List Cell)
    (pool : SlotPool) :
    Cell.Everywhere Subscript.Settled (writeSubscripts cells pool).cells := by
  fun_induction writeSubscripts cells pool with
  | case1 pool => trivial
  | case2 pool c rest written dropped more hnext ih =>
    obtain ⟨-, star, paren, var, plus, num, close, -, rfl, -, -, hvar, hnum⟩ :=
      Subscript.cells_of_next? hnext
    have hcontext : ∀ d ∈ [star.withText var.text, paren.withText "[",
        var.withText num.text, plus.withText "]"],
        Token.startsWithAny Subscript.contexts d.text = false := by
      intro d hd
      simp only [List.mem_cons, List.not_mem_nil, or_false] at hd
      rcases hd with rfl | rfl | rfl | rfl
      · exact Token.startsWithAny_of_isName hvar (by decide)
      · exact (by decide +kernel :
          Token.startsWithAny Subscript.contexts "[" = false)
      · exact Token.startsWithAny_of_isNumber hnum (by decide)
      · exact (by decide +kernel :
          Token.startsWithAny Subscript.contexts "]" = false)
    have hstar : (star.withText var.text).text ≠ "*" :=
      Token.ne_of_isName hvar (by decide +kernel)
    exact ⟨Subscript.settled_of_ne_star hstar _ _, ih.prepend fun d hd rest =>
      Subscript.settled_of_context (hcontext d hd) rest⟩
  | case3 pool c rest hnext ih =>
    refine ⟨?_, ih⟩
    rw [Subscript.settled_iff]
    have hsettled := Subscript.settled_iff.mp hnext
    refine Bool.eq_false_iff.mpr fun hopens => ?_
    rw [Bool.and_eq_true] at hopens
    rw [hopens.1, Subscript.opens_of_opens_writeSubscripts hopens.2]
      at hsettled
    cases hsettled

/-- Settled subscripts are not written again. -/
theorem writeSubscripts_eq_unchanged {cells : List Cell}
    (h : Cell.Everywhere Subscript.Settled cells) (pool : SlotPool) :
    writeSubscripts cells pool = .unchanged cells pool := by
  induction cells generalizing pool with
  | nil => rw [writeSubscripts]
  | cons c rest ih =>
    rw [writeSubscripts_of_next?_eq_none h.1, ih h.2]
    rfl

/-! ## What stays settled -/

/-- What is written for a sum is no `unsigned`: two brackets, a number, and a
name that was not one before. -/
theorem unsigned_settled_writeSubscripts {cells : List Cell}
    (pool : SlotPool) (h : Cell.Everywhere Unsigned.Settled cells) :
    Cell.Everywhere Unsigned.Settled (writeSubscripts cells pool).cells := by
  fun_induction writeSubscripts cells pool with
  | case1 pool => trivial
  | case2 pool c rest written dropped more hnext ih =>
    obtain ⟨-, star, paren, var, plus, num, close, rfl, rfl, -, -, hvar,
      hnum⟩ := Subscript.cells_of_next? hnext
    have hc : c.text ≠ "unsigned" := h.1.ne (List.cons_ne_nil _ _)
    have hv : var.text ≠ "unsigned" :=
      (h.2.drop 2).1.ne (List.cons_ne_nil _ _)
    have hopen : "[" ≠ "unsigned" := by decide
    have hshut : "]" ≠ "unsigned" := by decide
    exact ⟨Unsigned.settled_of_ne hc _, Unsigned.settled_of_ne hv _,
      Unsigned.settled_of_ne hopen _,
      Unsigned.settled_of_ne (Unsigned.ne_of_isNumber hnum) _,
      Unsigned.settled_of_ne hshut _, ih (h.2.drop 6)⟩
  | case3 pool c rest _ ih =>
    exact Unsigned.everywhere_append [c] h
      (fun hnil => by rw [hnil, writeSubscripts]; rfl) (ih h.2)

/-- What is written for a sum leaves no arithmetic to be folded: all but the
number is inert. -/
theorem arithmetic_settled_writeSubscripts {cells : List Cell}
    (pool : SlotPool) (h : Cell.Everywhere Arithmetic.Settled cells) :
    Cell.Everywhere Arithmetic.Settled (writeSubscripts cells pool).cells := by
  fun_induction writeSubscripts cells pool with
  | case1 pool => trivial
  | case2 pool c rest written dropped more hnext ih =>
    obtain ⟨-, star, paren, var, plus, num, close, rfl, rfl, rfl, hclose, hvar,
      hnum⟩ := Subscript.cells_of_next? hnext
    have hmore := (agree_writeSubscripts more (pool.giveAll [num, close]))
    have hlast : Arithmetic.Settled "]" (writeSubscripts more
        (pool.giveAll [num, close])).cells := by
      have hbefore : Arithmetic.Settled close.text more := (h.2.drop 5).1
      rw [hclose] at hbefore
      exact (hbefore.of_before (by decide) (by decide +kernel)).of_agree
        (by decide) hmore
    have hname : Arithmetic.Inert (star.withText var.text).text :=
      Arithmetic.inert_of_isName hvar
    have hbracket : ∀ s ∈ ["[", "]"], ∀ d : Cell,
        Arithmetic.Inert (d.withText s).text := fun s hs d =>
      Arithmetic.inert_of_startsWithAny
        (by revert s; decide +kernel :
          Token.startsWithAny ['[', ']'] s = true) (by decide)
    have hopen := hbracket "[" (by decide)
    have hshut := hbracket "]" (by decide)
    exact ⟨Arithmetic.settled_of_inert hname _ _,
      Arithmetic.settled_of_inert (hopen _) _ _,
      Arithmetic.settled_of_inert_second (hshut _) _ _ _,
      Arithmetic.settled_of_inert (hshut _) _ _, hlast, ih (h.2.drop 6)⟩
  | case3 pool c rest _ ih =>
    have hagree := agree_writeSubscripts rest pool
    exact ⟨h.1.of_agree (by decide) hagree, ih h.2⟩

end Write

end FlatC
