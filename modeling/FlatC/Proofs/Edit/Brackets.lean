import FlatC.Proofs.Edit.Nesting
import FlatC.Proofs.Edit.Splitting
import FlatC.Proofs.Edit.Typedef
import FlatC.Edit.ArraySizeof
import FlatC.Edit.Constant
import FlatC.Edit.Fusion
import FlatC.Edit.Sizeof
import FlatC.Workspace.Simplifying

/-!
# Passes leave brackets nested as they are

Each pass is followed along its recursion, and at each step it is seen that
the cells it drops, writes or puts in hold no brackets, or that they are a
pair of parentheses with nothing nested in it. Mostly the pattern a pass
looks for says so: names and numbers are no brackets, and what it has
between two parentheses is a name.
-/

namespace FlatC

open Cell (NestAlike)
open Delimiter (ofText?)

variable {xs ys rest : List Cell} {c d : Cell}

/-- **One text written over another** everywhere, neither a bracket. Inlining
and expanding come to this. -/
theorem Cell.nestAlike_rename {old new : String} (hold : ofText? old = none)
    (hnew : ofText? new = none) (cells : List Cell) :
    NestAlike cells (Cell.rename old new cells) := by
  induction cells with
  | nil => exact .refl []
  | cons c rest ih =>
    rw [Cell.rename, List.map_cons]
    by_cases h : c.text = old
    · rw [if_pos (beq_iff_eq.mpr h)]
      exact ih.replace (h ▸ hold) hnew
    · rw [if_neg fun he => h (eq_of_beq he)]
      exact ih.cons c

/-! ## Fusing and expanding -/

/-- Neither part of an operator is a bracket, nor is the operator. -/
theorem Fusion.ofText?_of_joined? {a b text : String}
    (h : joined? a b = some text) :
    ofText? a = none ∧ ofText? b = none ∧ ofText? text = none := by
  have hpairs : ∀ p ∈ pairs, ofText? p.1 = none ∧ ofText? p.2 = none
      ∧ ofText? (p.1 ++ p.2) = none := by decide
  rw [eq_append_of_joined? h]
  unfold joined? at h
  split at h
  · next hmem => exact hpairs (a, b) (List.contains_iff_mem.mp hmem)
  · cases h

/-- Joining pairs leaves brackets nested as they are. -/
theorem Fusion.nestAlike_join (cells : List Cell) (pool : SlotPool) :
    NestAlike cells (join cells pool).cells := by
  fun_induction join cells pool with
  | case1 pool => exact .refl []
  | case2 c pool => exact .refl [c]
  | case3 c d rest pool text hjoined ih =>
    obtain ⟨hc, hd, htext⟩ := ofText?_of_joined? hjoined
    exact (ih.drop hd).replace hc htext
  | case4 c d rest pool _ ih => exact ih.cons c

/-- Fusing operators leaves brackets nested as they are. -/
theorem nestAlike_fuseOperators (cells : List Cell) (pool : SlotPool) :
    NestAlike cells (fuseOperators cells pool).cells :=
  (Fusion.nestAlike_join cells pool).trans
    (Cell.nestAlike_rename (by decide) (by decide +kernel) _)

namespace Typedef

/-- A type name is no bracket. -/
theorem ofText?_of_isTypeName {text : String}
    (h : Token.isTypeName text = true) : ofText? text = none :=
  Delimiter.ofText?_of_isName (Token.isName_of_isTypeName h)

/-- Writing a name out as two puts no bracket in. -/
theorem nestAlike_writeOut {name first second : String}
    (hname : ofText? name = none) (hfirst : ofText? first = none)
    (hsecond : ofText? second = none) (cells : List Cell) (pool : SlotPool) :
    NestAlike cells (writeOut name first second cells pool).cells := by
  induction cells generalizing pool with
  | nil => exact .refl []
  | cons c rest ih =>
    rw [writeOut]
    split
    · next h =>
      let added : Cell := ⟨pool.take.1, c.token.withText second⟩
      have hmore := (ih pool.take.2).insert (d := added) hsecond
      exact hmore.withText (eq_of_beq h ▸ hname) hfirst
    · exact (ih pool).cons c

/-- The word `typedef` may become a type name; neither is a bracket. Behind
the statement, a name that is no bracket becomes one or two others. -/
theorem nestAlike_apply (c : Cell) (more after : List Cell)
    (pool : SlotPool) :
    (∀ {xs ys}, NestAlike xs ys →
        NestAlike (c :: xs) ((apply c more after pool).1 :: ys))
      ∧ NestAlike after (apply c more after pool).2.cells := by
  unfold apply
  split
  · next actual name _ =>
    split
    · next h =>
      simp only [Pattern.opens, pieces_short, Pattern.fits_cons_cons,
        Piece.accepts_type, Bool.and_eq_true] at h
      have hactual := ofText?_of_isTypeName h.2.1
      have hname := ofText?_of_isTypeName h.2.2.1
      refine ⟨fun hxs => ?_, Cell.nestAlike_rename hname hactual after⟩
      dsimp only
      split
      · next htext => exact hxs.replace (eq_of_beq htext ▸ hname) hactual
      · exact hxs.cons c
    · exact ⟨fun hxs => hxs.cons c, .refl after⟩
  · next first second name _ =>
    split
    · next h =>
      simp only [Pattern.opens, pieces_long, Pattern.fits_cons_cons,
        Piece.accepts_type, Bool.and_eq_true] at h
      exact ⟨fun hxs => hxs.cons c,
        nestAlike_writeOut (ofText?_of_isTypeName h.2.2.2.1)
          (ofText?_of_isTypeName h.2.1) (ofText?_of_isTypeName h.2.2.1) _ _⟩
    · exact ⟨fun hxs => hxs.cons c, .refl after⟩
  · exact ⟨fun hxs => hxs.cons c, .refl after⟩

/-- Looking a statement through leaves brackets nested as they are, in it and
behind it. -/
theorem nestAlike_lookThrough (own after : List Cell) (pool : SlotPool) :
    NestAlike (own ++ after) ((lookThrough own after pool).own
      ++ (lookThrough own after pool).after.cells) := by
  induction own generalizing after pool with
  | nil => exact .refl after
  | cons c more ih =>
    obtain ⟨hc, hafter⟩ := nestAlike_apply c more after pool
    exact hc ((hafter.append more).trans (ih _ _))

end Typedef

/-- Expanding typedef names leaves brackets nested as they are. -/
theorem nestAlike_expandTypedefs (cells : List Cell) (pool : SlotPool) :
    NestAlike cells (expandTypedefs cells pool).cells := by
  fun_induction expandTypedefs cells pool with
  | case1 cells pool _ => exact .refl cells
  | case2 cells pool own after hcut o ih =>
    rw [Typedef.eq_append_of_cut? hcut]
    exact (Typedef.nestAlike_lookThrough own after pool).trans
      (ih.append o.own)

/-! ## Dropping and inlining -/

/-- Dropping `unsigned` leaves brackets nested as they are. -/
theorem nestAlike_dropUnsigned (cells : List Cell) (pool : SlotPool) :
    NestAlike cells (dropUnsigned cells pool).cells := by
  fun_induction dropUnsigned cells pool with
  | case1 pool => exact .refl []
  | case2 c pool => exact .refl [c]
  | case3 c d rest pool h ih =>
    refine ih.drop ?_
    rw [eq_of_beq h]
    decide
  | case4 c d rest pool _ ih => exact ih.cons c

theorem Constant.nestAlike_apply (c : Cell) (rest : List Cell) :
    NestAlike rest (apply c rest).1 := by
  unfold apply
  split
  · next type name eq num stop after =>
    split
    · next h =>
      simp only [Pattern.opens, pieces_shape, Pattern.fits_cons_cons,
        Piece.accepts_var, Piece.accepts_num, Bool.and_eq_true] at h
      exact (Cell.nestAlike_rename (Delimiter.ofText?_of_isName h.2.2.1)
        (Delimiter.ofText?_of_isNumber h.2.2.2.2.1) after).append
          [type, name, eq, num, stop]
    · exact .refl _
  · exact .refl rest

/-- Inlining constants leaves brackets nested as they are. -/
theorem nestAlike_inlineConstants (cells : List Cell) (pool : SlotPool) :
    NestAlike cells (inlineConstants cells pool).cells := by
  fun_induction inlineConstants cells pool with
  | case1 => exact .refl []
  | case2 c rest after ih =>
    exact ((Constant.nestAlike_apply c rest).trans ih).cons c

/-! ## Sizes -/

/-- **A `sizeof` with its operand dropped**: the word and what stands between
the parentheses are no brackets. A pair with nothing nested in it may go. -/
theorem Cell.nestAlike_sizeof {word number paren close : Cell}
    (operand : List Cell) (hword : word.text = "sizeof")
    (hparen : paren.text = "(") (hclose : close.text = ")")
    (hoperand : ∀ x ∈ operand, ofText? x.text = none)
    (hnumber : ofText? number.text = none)
    (h : NestAlike rest ys) :
    NestAlike (word :: paren :: operand ++ close :: rest) (number :: ys) := by
  have hpair : NestAlike (paren :: operand ++ close :: rest) rest :=
    .dropPair (hparen ▸ Delimiter.ofText?_openingRound)
      (hclose ▸ Delimiter.ofText?_closingRound) (by decide) hoperand rest
  refine NestAlike.replace ?_ hnumber (hpair.trans h)
  rw [hword]
  decide

/-- A `sizeof` of a type, with its number written for it. Its round brackets
go together, with a type and perhaps a star between them, so the nesting
around them is the same. -/
theorem Sizeof.nestAlike_of_value? {sizes : TypeSizes} {pointer value n : Nat}
    (h : value? sizes pointer (c :: rest) = some (value, n))
    (hys : NestAlike (rest.drop n) ys) :
    NestAlike (c :: rest) (c.withText (Numeral.text value) :: ys) := by
  unfold value? at h
  split at h
  · next word paren type more heq =>
    obtain ⟨rfl, rfl⟩ := List.cons.inj heq
    split at h
    · next hopens =>
      cases h
      obtain _ | ⟨star, _ | ⟨close, more⟩⟩ := more
      · simp [Pattern.opens, pieces_pointerShape] at hopens
      · simp [Pattern.opens, pieces_pointerShape] at hopens
      simp only [Pattern.opens, pieces_pointerShape, Pattern.fits_cons_cons,
        Piece.accepts_literal, Piece.accepts_type, Bool.and_eq_true,
        beq_iff_eq] at hopens
      obtain ⟨hword, hparen, htype, hstar, hclose, -⟩ := hopens
      refine Cell.nestAlike_sizeof [type, star] hword.symm
        hparen.symm hclose.symm ?_ (Delimiter.ofText?_text _) hys
      intro x hx
      rcases List.mem_cons.mp hx with rfl | hx
      · exact Typedef.ofText?_of_isTypeName htype
      · rw [List.mem_singleton.mp hx, ← hstar]
        decide
    · split at h
      · next hopens =>
        cases h
        rw [Bool.and_eq_true] at hopens
        replace hopens := hopens.1
        obtain _ | ⟨close, more⟩ := more
        · simp [Pattern.opens, pieces_plainShape] at hopens
        simp only [Pattern.opens, pieces_plainShape, Pattern.fits_cons_cons,
          Piece.accepts_literal, Piece.accepts_type, Bool.and_eq_true,
          beq_iff_eq] at hopens
        obtain ⟨hword, hparen, htype, hclose, -⟩ := hopens
        refine Cell.nestAlike_sizeof [type] hword.symm
          hparen.symm hclose.symm ?_ (Delimiter.ofText?_text _) hys
        intro x hx
        rw [List.mem_singleton.mp hx]
        exact Typedef.ofText?_of_isTypeName htype
      · cases h
  · cases h

/-- Evaluating `sizeof` of types leaves brackets nested as they are. -/
theorem nestAlike_evalSizeof (sizes : TypeSizes) (pointer : Nat)
    (cells : List Cell) (pool : SlotPool) :
    NestAlike cells (evalSizeof sizes pointer cells pool).cells := by
  fun_induction evalSizeof sizes pointer cells pool with
  | case1 pool => exact .refl []
  | case2 pool c rest value n hvalue ih =>
    exact Sizeof.nestAlike_of_value? hvalue ih
  | case3 pool c rest _ ih => exact ih.cons c

namespace ArraySizeof

/-- A `sizeof` of an array, with its number written for it. As for a type, its
two brackets go together. -/
theorem nestAlike_of_isUse {name : String} {number : Cell}
    (h : isUse name (c :: rest) = true) (hnumber : ofText? number.text = none)
    (hys : NestAlike (rest.drop 3) ys) :
    NestAlike (c :: rest) (number :: ys) := by
  unfold isUse at h
  split at h
  · next word paren var more heq =>
    obtain ⟨rfl, rfl⟩ := List.cons.inj heq
    have hopens := (Bool.and_eq_true_iff.mp h).1
    obtain _ | ⟨close, more⟩ := more
    · simp [Pattern.opens, pieces_useShape] at hopens
    simp only [Pattern.opens, pieces_useShape, Pattern.fits_cons_cons,
      Piece.accepts_literal, Piece.accepts_var, Bool.and_eq_true,
      beq_iff_eq] at hopens
    obtain ⟨hword, hparen, hvar, hclose, -⟩ := hopens
    refine Cell.nestAlike_sizeof [var] hword.symm hparen.symm
      hclose.symm ?_ hnumber hys
    intro x hx
    rw [List.mem_singleton.mp hx]
    exact Delimiter.ofText?_of_isName hvar
  · cases h

theorem nestAlike_replaceUses (name : String) (total depth : Nat)
    (cells : List Cell) (pool : SlotPool) :
    NestAlike cells
      (replaceUses name (Numeral.text total) depth cells pool).cells := by
  fun_induction replaceUses name (Numeral.text total) depth cells pool with
  | case1 depth pool => exact .refl []
  | case2 depth pool c rest _ ih => exact ih.cons c
  | case3 pool c rest => exact .refl _
  | case4 pool c rest _ _ depth ih => exact ih.cons c
  | case5 depth pool c rest _ _ huse ih =>
    exact nestAlike_of_isUse huse (Delimiter.ofText?_text total) ih
  | case6 depth pool c rest _ _ _ ih => exact ih.cons c

theorem nestAlike_apply (sizes : TypeSizes) (c : Cell) (rest : List Cell)
    (pool : SlotPool) : NestAlike rest (apply sizes c rest pool).cells := by
  unfold apply
  split
  · next name total _ =>
    have h := (nestAlike_replaceUses name total 0 (rest.drop 4) pool).append
      (rest.take 4)
    rwa [List.take_append_drop] at h
  · exact .refl rest

end ArraySizeof

/-- Evaluating `sizeof` of arrays leaves brackets nested as they are. -/
theorem nestAlike_evalArraySizeof (sizes : TypeSizes) (cells : List Cell)
    (pool : SlotPool) :
    NestAlike cells (evalArraySizeof sizes cells pool).cells := by
  fun_induction evalArraySizeof sizes cells pool with
  | case1 pool => exact .refl []
  | case2 pool c rest r ih =>
    exact ((ArraySizeof.nestAlike_apply sizes c rest pool).trans ih).cons c

/-! ## Arithmetic -/

namespace Arithmetic

/-- A factor 1 is a sign and a digit, neither a bracket, whichever of the two
is in front. -/
theorem nestAlike_dropUnit (before : String) (rest : List Cell)
    (pool : SlotPool) : NestAlike rest (dropUnit before rest pool).cells := by
  have hone : ofText? "1" = none := by decide
  have hstar : ofText? "*" = none := by decide
  have hslash : ofText? "/" = none := by decide
  unfold dropUnit
  split
  · next h =>
    obtain _ | ⟨a, _ | ⟨b, after⟩⟩ := rest
    · cases h
    · cases h
    rw [unitNext_cons_cons] at h
    have htexts : ofText? a.text = none ∧ ofText? b.text = none := by
      split at h
      · next hsign =>
        simp only [Bool.and_eq_true, Bool.or_eq_true, beq_iff_eq] at hsign
        obtain ⟨ha | ha, hb⟩ := hsign
        · exact ⟨ha ▸ hstar, hb ▸ hone⟩
        · exact ⟨ha ▸ hslash, hb ▸ hone⟩
      · split at h
        · next hunit =>
          simp only [Bool.and_eq_true, beq_iff_eq] at hunit
          exact ⟨hunit.1 ▸ hone, hunit.2 ▸ hstar⟩
        · cases h
    exact ((NestAlike.refl after).drop htexts.2).drop htexts.1
  · exact .refl rest

/-- An operand is digits. -/
theorem ofText?_of_operand? {text : String} {n : Nat}
    (h : operand? text = some n) : ofText? text = none := by
  refine Delimiter.ofText?_of_isNumber ?_
  unfold operand? Numeral.ofDigits? Numeral.isDigits at h
  unfold Token.isNumber
  split
  · next hnil =>
    rw [hnil] at h
    cases h
  · next c cs hlist =>
    rw [hlist] at h
    by_contra hc
    rw [List.all_cons, Bool.eq_false_iff.mpr hc] at h
    cases h

/-- What is carried out is one of four signs, and none of them is a bracket. -/
theorem ofText?_of_value? {op : String} {a b : Nat} {v : Int}
    (h : value? op a b = some v) : ofText? op = none := by
  by_cases hplus : op = "+"
  · rw [hplus]
    decide
  by_cases hminus : op = "-"
  · rw [hminus]
    decide
  by_cases hstar : op = "*"
  · rw [hstar]
    decide
  by_cases hslash : op = "/"
  · rw [hslash]
    decide
  rw [value?, if_neg hplus, if_neg hminus, if_neg hstar, if_neg hslash] at h
  cases h

/-- An operation is two operands and a sign, and its result is a number, so no
bracket is put in or taken out. -/
theorem nestAlike_of_nextResult? {before : String} {result : Cell}
    (h : nextResult? before rest = some result)
    (hys : NestAlike (rest.drop 3) ys) : NestAlike rest (result :: ys) := by
  unfold nextResult? at h
  split at h
  · next a op b right more =>
    split at h
    · split at h
      · next m n hm hn =>
        obtain ⟨v, hv, rfl⟩ := Option.map_eq_some_iff.mp h
        exact ((hys.drop (ofText?_of_operand? hn)).drop
          (ofText?_of_value? hv)).replace (ofText?_of_operand? hm)
            (Delimiter.ofText?_signedText v)
      · cases h
    · cases h
  · cases h

theorem nestAlike_sweep (cells : List Cell) (pool : SlotPool) :
    NestAlike cells (sweep cells pool).cells := by
  fun_induction sweep cells pool with
  | case1 pool => exact .refl []
  | case2 pool c rest r result hresult ih =>
    exact ((nestAlike_dropUnit c.text rest pool).trans
      (nestAlike_of_nextResult? hresult ih)).cons c
  | case3 pool c rest r _ ih =>
    exact ((nestAlike_dropUnit c.text rest pool).trans ih).cons c

end Arithmetic

/-- Folding arithmetic leaves brackets nested as they are. -/
theorem nestAlike_foldArithmetic (cells : List Cell) (pool : SlotPool) :
    NestAlike cells (foldArithmetic cells pool).cells := by
  fun_induction foldArithmetic cells pool with
  | case1 cells pool r _ => exact Arithmetic.nestAlike_sweep cells pool
  | case2 cells pool r _ ih =>
    exact (Arithmetic.nestAlike_sweep cells pool).trans ih

/-! ## Subscripts -/

namespace Subscript

/-- What is added in a sum that is dereferenced is no bracket, so its
parentheses are a pair with nothing nested in it. -/
theorem texts_of_next? {before : String} {written dropped more : List Cell}
    (h : next? before rest = some (written, dropped, more)) :
    ∃ star paren var plus num close,
      rest = star :: paren :: var :: plus :: num :: close :: more
        ∧ written = [star.withText var.text, paren.withText "[",
          var.withText num.text, plus.withText "]"]
        ∧ ofText? star.text = none ∧ paren.text = "("
        ∧ (∀ x ∈ [var, plus, num], ofText? x.text = none)
        ∧ close.text = ")" := by
  have hshape : (Token.startsWithAny contexts before && shape.opens rest)
      = true := by
    by_contra hne
    rw [settled_iff.mpr (Bool.eq_false_iff.mpr hne)] at h
    cases h
  obtain ⟨-, star, paren, var, plus, num, close, rfl, rfl, -, hclose, hvar,
    hnum⟩ := cells_of_next? h
  simp only [Pattern.opens, pieces_shape, Pattern.fits_cons_cons,
    Piece.accepts_literal, Bool.and_eq_true, beq_iff_eq] at hshape
  obtain ⟨-, hstar, hparen, -, hplus, -⟩ := hshape
  refine ⟨star, paren, var, plus, num, close, rfl, rfl, ?_, hparen.symm, ?_,
    hclose⟩
  · rw [← hstar]
    decide
  · simp only [List.forall_mem_cons, List.not_mem_nil, false_imp_iff,
      implies_true, and_true]
    refine ⟨Delimiter.ofText?_of_isName hvar, ?_,
      Delimiter.ofText?_of_isNumber hnum⟩
    rw [← hplus]
    decide

/-- **A pair of parentheses turned into square brackets**: the sum and what
is written for it are both a pair with no bracket in it. -/
theorem nestAlike_of_next? {before : String}
    {written dropped more : List Cell}
    (h : next? before rest = some (written, dropped, more)) :
    NestAlike rest (written ++ more) := by
  obtain ⟨star, paren, var, plus, num, close, rfl, rfl, hstar, hparen, hsum,
    hclose⟩ := texts_of_next? h
  have hround : NestAlike (paren :: [var, plus, num] ++ close :: more) more :=
    .dropPair (hparen ▸ Delimiter.ofText?_openingRound)
      (hclose ▸ Delimiter.ofText?_closingRound) (by decide) hsum more
  have hsquare : NestAlike (paren.withText "[" :: [var.withText num.text]
      ++ plus.withText "]" :: more) more := by
    refine .dropPair (p := paren.withText "[") (q := plus.withText "]")
      Delimiter.ofText?_openingSquare Delimiter.ofText?_closingSquare
      (by decide) ?_ more
    intro x hx
    rw [List.mem_singleton.mp hx]
    exact hsum num (by simp)
  exact (hround.trans hsquare.symm).replace hstar (hsum var (by simp))

end Subscript

/-- Writing subscripts leaves brackets nested as they are, though not of the
same kind. -/
theorem nestAlike_writeSubscripts (cells : List Cell) (pool : SlotPool) :
    NestAlike cells (writeSubscripts cells pool).cells := by
  fun_induction writeSubscripts cells pool with
  | case1 pool => exact .refl []
  | case2 pool c rest written dropped more hnext ih =>
    exact ((Subscript.nestAlike_of_next? hnext).trans
      (ih.append written)).cons c
  | case3 pool c rest _ ih => exact ih.cons c

/-! ## Declarations -/

namespace Declaration

variable {lead type after : List Cell} {sep name : Cell} {shape : Shape}

/-- The name that a declaration declares comes right behind its type, or
behind a `*`. -/
theorem pieces_drop_type (h : shape ∈ shapes) :
    (∃ ps, shape.pattern.pieces.drop shape.type = .var :: ps)
      ∨ ∃ ps, shape.pattern.pieces.drop shape.type
        = .literal "*" :: .var :: ps := by
  have hcases : (shape.pattern.pieces.drop shape.type).take 1 = [.var]
      ∨ (shape.pattern.pieces.drop shape.type).take 2
        = [.literal "*", .var] := by
    revert shape
    decide
  rcases hcases with hvar | hstar
  · exact Or.inl ⟨_, by rw [← List.take_append_drop 1 (List.drop ..), hvar]; rfl⟩
  · exact Or.inr ⟨_, by rw [← List.take_append_drop 2 (List.drop ..), hstar]; rfl⟩

/-- **The name declared is no bracket**, and so the copy of it puts none in.
Without a star the shape has a name there, and with one the name is behind the
star. -/
theorem ofText?_name (h : shapeOf? (lead ++ sep :: after) = some shape)
    (hlen : lead.length = shape.before)
    (hname : nameCell? (lead.drop shape.type) = some name) :
    ofText? name.text = none := by
  have hstar : ofText? "*" = none := by decide
  obtain ⟨hmem, hopens⟩ := mem_shapes_of_shapeOf? h
  have hlt := (type_lt_before hmem).2
  have hpieces := length_pieces hmem
  rw [Pattern.opens, ← List.take_append_drop shape.type lead,
    List.append_assoc,
    ← List.take_append_drop shape.type shape.pattern.pieces,
    Cell.fits_append_append (by simp only [List.length_take]; omega),
    Bool.and_eq_true] at hopens
  replace hopens := hopens.2
  generalize lead.drop shape.type = declared at hname hopens
  obtain _ | ⟨c, declared⟩ := declared
  · cases hname
  rcases pieces_drop_type hmem with ⟨ps, hps⟩ | ⟨ps, hps⟩
  · rw [hps, List.cons_append, Pattern.fits_cons_cons, Piece.accepts_var,
      Bool.and_eq_true] at hopens
    obtain _ | ⟨d, declared⟩ := declared
    · cases hname
      exact Delimiter.ofText?_of_isName hopens.1
    · have hne : c.text ≠ "*" := Token.ne_of_isName hopens.1 (by decide)
      rw [nameCell?, if_neg (by simpa using hne)] at hname
      cases hname
      exact Delimiter.ofText?_of_isName hopens.1
  · obtain _ | ⟨d, declared⟩ := declared
    · rw [hps, List.cons_append, Pattern.fits_cons_cons,
        Piece.accepts_literal, Bool.and_eq_true] at hopens
      cases hname
      exact eq_of_beq hopens.1 ▸ hstar
    · rw [hps, List.cons_append, List.cons_append, Pattern.fits_cons_cons,
        Pattern.fits_cons_cons, Piece.accepts_literal, Piece.accepts_var,
        Bool.and_eq_true, Bool.and_eq_true] at hopens
      rw [nameCell?, if_pos (by simpa using (eq_of_beq hopens.1).symm)]
        at hname
      cases hname
      exact Delimiter.ofText?_of_isName hopens.2.1

theorem ofText?_of_separator {text : String} (h : text = "," ∨ text = "=") :
    ofText? text = none := by
  rcases h with rfl | rfl <;> decide

theorem ofText?_semicolon : ofText? ";" = none := by decide

/-- **A comma split** is a `;` for a `,`, and names put in. -/
theorem nestAlike_comma (htype : ∀ x ∈ type, ofText? x.text = none)
    (hsep : ofText? sep.text = none) (after : List Cell) (pool : SlotPool) :
    NestAlike (sep :: after) (sep.withText ";"
      :: ((pool.copy (type.map Cell.token)).1 ++ after)) := by
  have htypes : NestAlike after
      ((pool.copy (type.map Cell.token)).1 ++ after) :=
    .insertAll (forall_mem_copy (Q := fun t => ofText? t = none) htype pool)
      (.refl after)
  exact htypes.withText hsep ofText?_semicolon

/-- An initializer that is split off keeps its brackets, and only names and
signs are put in. -/
theorem nestAlike_atEquals? {eq : Cell} {pool : SlotPool} {s : Split}
    (htype : ∀ x ∈ type, ofText? x.text = none)
    (hname : ofText? name.text = none) (heq : ofText? eq.text = none)
    (h : atEquals? lead type name eq after pool = some s) :
    NestAlike (lead ++ eq :: after) (s.written ++ s.left) := by
  have hleft : NestAlike after s.left := by
    obtain ⟨init, stop, more, hcut, hs⟩ := cells_of_atEquals? h
    rw [eq_append_of_cutInitializer? hcut]
    rcases hs with ⟨hstop, rfl⟩ | ⟨-, rfl⟩
    · exact (nestAlike_comma htype (ofText?_of_separator (Or.inl hstop))
        more _).append init
    · exact .refl _
  obtain ⟨n, e, hwritten, hn, he⟩ := written_of_atEquals? h
  rw [hwritten, List.append_assoc]
  have hright : NestAlike after (n :: e :: s.left) :=
    (hleft.insert (he ▸ heq)).insert (hn ▸ hname)
  exact (hright.withText heq ofText?_semicolon).append lead

theorem nestAlike_of_next? {before : String} {pool : SlotPool} {s : Split}
    (h : next? before xs pool = some s) :
    NestAlike xs (s.written ++ s.left) := by
  obtain ⟨-, shape, lead, sep, after, name, hshape, rfl, hlen, hname, hs⟩ :=
    cells_of_next? h
  obtain ⟨-, hsep, htype⟩ := lead_of_shapeOf? hshape hlen
  have htype : ∀ x ∈ lead.take shape.type, ofText? x.text = none :=
    fun x hx => Delimiter.ofText?_of_isName (htype x hx)
  have hsep := ofText?_of_separator hsep
  rcases hs with ⟨-, rfl⟩ | ⟨-, hs⟩
  · exact (nestAlike_comma htype hsep after pool).append lead
  · exact nestAlike_atEquals? htype (ofText?_name hshape hlen hname) hsep hs

end Declaration

/-- Splitting declarations leaves brackets nested as they are. -/
theorem nestAlike_splitDeclarations (cells : List Cell) (pool : SlotPool) :
    NestAlike cells (splitDeclarations cells pool).cells := by
  fun_induction splitDeclarations cells pool with
  | case1 pool => exact .refl []
  | case2 pool c rest s hnext ih =>
    exact ((Declaration.nestAlike_of_next? hnext).trans
      (ih.append s.written)).cons c
  | case3 pool c rest _ ih => exact ih.cons c

/-! ## All of them -/

/-- **Simplifying leaves brackets nested as they are**, each of its passes
doing so. -/
theorem nestAlike_simplifyCells (target : Target) (cells : List Cell)
    (pool : SlotPool) :
    NestAlike cells (simplifyCells target cells pool).cells :=
  (nestAlike_dropUnsigned cells pool).trans <|
  (nestAlike_inlineConstants _ _).trans <|
  (nestAlike_evalSizeof _ _ _ _).trans <|
  (nestAlike_evalArraySizeof _ _ _).trans <|
  (nestAlike_foldArithmetic _ _).trans <|
  (nestAlike_writeSubscripts _ _).trans <|
  nestAlike_splitDeclarations _ _

end FlatC
