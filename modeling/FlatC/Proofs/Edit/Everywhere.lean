import FlatC.Edit.Basic
import FlatC.Pattern.Basic

/-!
# What holds everywhere in some cells

A pass that goes from left to right looks, at each cell, at the text of the
cell and at the cells after it. That it finds nothing to do anywhere is a
statement `P text rest` for each place (`Cell.Everywhere`).

Such a statement survives an edit further on if it cannot see it. The edits
that matter here begin at a cell whose text starts with one of a few
characters, the **stops**; or they write `;` for a `,` or a `=`. So two
lists of cells are compared up to the first place where one of these
happens (`Cell.Agree`), and what `P` says of one it has to say of the
other.
-/

namespace FlatC

/-! ## Texts by their first character -/

namespace Token

/-- Whether a text starts with a character of some kind. -/
def leads (p : Char → Bool) (text : String) : Bool :=
  match text.toList with
  | [] => false
  | c :: _ => p c

variable {p q : Char → Bool} {text : String} {chars : List Char}

/-- **A text does not start in two ways that exclude each other.** -/
theorem leads_eq_false (h : leads p text = true)
    (hpq : ∀ c, p c = true → q c = false) : leads q text = false := by
  unfold leads at h ⊢
  split
  · rfl
  · next c _ hlist =>
    rw [hlist] at h
    exact hpq c h

/-- What starts with one of some characters is no name if none of them
begins one. -/
theorem isName_eq_false (h : startsWithAny chars text = true)
    (hchars : chars.all (fun c => !(c.isAlpha || c == '_')) = true) :
    isName text = false := by
  refine leads_eq_false (q := fun c => c.isAlpha || c == '_') h fun c hc => ?_
  have := List.all_eq_true.mp hchars c (List.contains_iff_mem.mp hc)
  exact Bool.not_eq_true' _ ▸ this

/-- A name is no text that is none. -/
theorem ne_of_isName {s : String} (h : isName text = true)
    (hs : isName s = false) : text ≠ s := by
  rintro rfl
  rw [h] at hs
  cases hs

/-- A name starts with none of some characters if none of them begins a name. -/
theorem startsWithAny_of_isName (h : isName text = true)
    (hchars : chars.all (fun c => !(c.isAlpha || c == '_')) = true) :
    startsWithAny chars text = false := by
  refine Bool.eq_false_iff.mpr fun hs => ?_
  rw [isName_eq_false hs hchars] at h
  cases h

/-- A number starts with none of some characters if none of them is a digit. -/
theorem startsWithAny_of_isNumber (h : isNumber text = true)
    (hchars : chars.all (fun c => !c.isDigit) = true) :
    startsWithAny chars text = false := by
  refine leads_eq_false (q := fun c => chars.contains c) h fun c hc => ?_
  refine Bool.eq_false_iff.mpr fun hmem => ?_
  have := List.all_eq_true.mp hchars c (List.contains_iff_mem.mp hmem)
  rw [hc] at this
  cases this

/-- Starting with a character of two lists is starting with one of either. -/
theorem startsWithAny_append (first more : List Char) (text : String) :
    startsWithAny (first ++ more) text
      = (startsWithAny first text || startsWithAny more text) := by
  unfold startsWithAny
  split
  · rfl
  · exact List.contains_append

theorem startsWithAny_append_left (h : startsWithAny chars text = true)
    (more : List Char) : startsWithAny (chars ++ more) text = true := by
  rw [startsWithAny_append, h, Bool.true_or]

theorem startsWithAny_append_right (h : startsWithAny chars text = true)
    (more : List Char) : startsWithAny (more ++ chars) text = true := by
  rw [startsWithAny_append, h, Bool.or_true]

/-- What starts with none of some characters starts with none of fewer. -/
theorem startsWithAny_of_subset {more : List Char}
    (h : startsWithAny more text = false) (hsub : chars ⊆ more) :
    startsWithAny chars text = false := by
  unfold startsWithAny at h ⊢
  split
  · rfl
  · next c _ hlist =>
    rw [hlist] at h
    refine Bool.eq_false_iff.mpr fun hmem => ?_
    have := List.contains_iff_mem.mpr (hsub (List.contains_iff_mem.mp hmem))
    exact absurd (h.symm.trans this) Bool.false_ne_true

/-- A text that starts with one of some characters and one that starts with
none of them differ. -/
theorem ne_of_startsWithAny {s : String} (h : startsWithAny chars text = true)
    (hs : startsWithAny chars s = false) : text ≠ s := by
  rintro rfl
  rw [h] at hs
  cases hs

end Token

/-- Whether a piece accepts no text that starts with one of some characters,
which can be computed. -/
def Piece.avoids (chars : List Char) : Piece → Bool
  | literal s => !Token.startsWithAny chars s
  | type | var => chars.all fun c => !(c.isAlpha || c == '_')
  | num => chars.all fun c => !c.isDigit

/-- A piece that avoids some characters accepts no text that starts with one,
whatever kind of piece it is. -/
theorem Piece.accepts_eq_false {chars : List Char} {piece : Piece}
    (h : piece.avoids chars = true) {text : String}
    (htext : Token.startsWithAny chars text = true) :
    piece.accepts text = false := by
  cases piece with
  | literal s =>
    rw [Piece.avoids, Bool.not_eq_true'] at h
    exact beq_eq_false_iff_ne.mpr (Token.ne_of_startsWithAny htext h).symm
  | type =>
    rw [Piece.accepts_type, Token.isTypeName, Token.isName_eq_false htext h]
    rfl
  | var => exact Token.isName_eq_false htext h
  | num =>
    refine Bool.eq_false_iff.mpr fun hn => ?_
    rw [Token.startsWithAny_of_isNumber hn h] at htext
    cases htext

namespace Cell

variable {P : String → List Cell → Prop} {xs ys : List Cell} {c d : Cell}
variable {stops : List Char}

/-! ## Everywhere -/

/-- **What holds of each cell's text and the cells after it.** That a pass has
nothing to do is of this form, for each pass. -/
def Everywhere (P : String → List Cell → Prop) : List Cell → Prop
  | [] => True
  | c :: rest => P c.text rest ∧ Everywhere P rest

/-- What holds everywhere holds in the second part, where nothing more comes
after. -/
theorem Everywhere.right (h : Everywhere P (xs ++ ys)) : Everywhere P ys := by
  induction xs with
  | nil => exact h
  | cons c xs ih => exact ih h.2

theorem Everywhere.drop (h : Everywhere P xs) (n : Nat) :
    Everywhere P (xs.drop n) := by
  rw [← List.take_append_drop n xs] at h
  exact h.right

/-- What holds at a cell in the middle. -/
theorem Everywhere.here (h : Everywhere P (xs ++ c :: ys)) : P c.text ys :=
  h.right.1

/-- What holds at a cell that something comes after. -/
theorem Everywhere.exists_of_mem (h : Everywhere P (xs ++ d :: ys))
    (hc : c ∈ xs) : ∃ rest, rest ≠ [] ∧ P c.text rest := by
  obtain ⟨before, after, rfl⟩ := List.append_of_mem hc
  rw [List.append_assoc] at h
  exact ⟨after ++ d :: ys, by simp, h.here⟩

/-- A statement that holds whatever comes after some cells. -/
theorem Everywhere.prepend (h : Everywhere P ys)
    (hxs : ∀ c ∈ xs, ∀ rest, P c.text rest) : Everywhere P (xs ++ ys) := by
  induction xs with
  | nil => exact h
  | cons c xs ih =>
    exact ⟨hxs c List.mem_cons_self _,
      ih fun d hd => hxs d (List.mem_cons_of_mem _ hd)⟩

/-! ## Agreement up to an edit -/

/-- A `,` or a `=` for which `;` is written, as splitting a declaration does. -/
def Ended (before after : String) : Prop :=
  (before = "," ∨ before = "=") ∧ after = ";"

/-- **Cells that agree up to the first edit**: up to a text that starts with a
stop, or up to a `;` that was a `,` or a `=`. Behind that they may differ in
any way. -/
def Agree (stops : List Char) : List Cell → List Cell → Prop
  | [], [] => True
  | c :: xs, d :: ys =>
    c.text = d.text
        ∧ (Token.startsWithAny stops c.text = true ∨ Agree stops xs ys)
      ∨ Ended c.text d.text
  | _, _ => False

/-- The same cells in front. -/
theorem Agree.append (h : Agree stops xs ys) (before : List Cell) :
    Agree stops (before ++ xs) (before ++ ys) := by
  induction before with
  | nil => exact h
  | cons c before ih => exact Or.inl ⟨rfl, Or.inr ih⟩

/-- Cells agree where the first is a separator ended. -/
theorem Agree.ended (h : Ended c.text d.text) (xs ys : List Cell) :
    Agree stops (c :: xs) (d :: ys) :=
  Or.inr h

/-- Cells that agree are none only together. -/
theorem Agree.eq_nil_iff (h : Agree stops xs ys) : xs = [] ↔ ys = [] := by
  cases xs <;> cases ys <;> simp_all [Agree]

/-- **A `;` written for a separator** disturbs nothing before it. -/
theorem Everywhere.ended
    (hP : ∀ {b : String} {xs ys : List Cell},
      Agree stops xs ys → P b xs → P b ys)
    (h : Everywhere P (xs ++ c :: ys)) (hend : Ended c.text d.text)
    {left : List Cell} (hleft : Everywhere P (d :: left)) :
    Everywhere P (xs ++ d :: left) := by
  induction xs with
  | nil => exact hleft
  | cons x xs ih =>
    exact ⟨hP ((Agree.ended hend ys left).append xs) h.1, ih h.2⟩

/-! ## Patterns -/

/-- **Patterns see no edit** if none of their pieces accepts a text at which
one begins. -/
theorem Agree.fits {ps : List Piece} (h : Agree stops xs ys)
    (hps : ps.all (Piece.avoids ([',', '=', ';'] ++ stops)) = true) :
    Pattern.fits Cell.text ps xs = Pattern.fits Cell.text ps ys := by
  induction ps generalizing xs ys with
  | nil => rw [Pattern.fits_nil, Pattern.fits_nil]
  | cons piece ps ih =>
    rw [List.all_cons, Bool.and_eq_true] at hps
    cases xs with
    | nil => rw [h.eq_nil_iff.mp rfl]
    | cons c xs =>
      cases ys with
      | nil => exact h.elim
      | cons d ys =>
        have hrejects : ∀ {text : String},
            Token.startsWithAny ([',', '=', ';'] ++ stops) text = true →
              piece.accepts text = false :=
          fun ht => Piece.accepts_eq_false hps.1 ht
        rw [Pattern.fits_cons_cons, Pattern.fits_cons_cons]
        rcases h with ⟨htext, hstop | hrest⟩ | ⟨hc, hd⟩
        · rw [← htext, hrejects (Token.startsWithAny_append_right hstop _)]
          rfl
        · rw [htext, ih hrest hps.2]
        · have hcs : Token.startsWithAny ([',', '=', ';'] ++ stops) c.text
              = true := by
            refine Token.startsWithAny_append_left ?_ stops
            rcases hc with hc | hc <;> rw [hc] <;> decide +kernel
          have hds : Token.startsWithAny ([',', '=', ';'] ++ stops) d.text
              = true := by
            refine Token.startsWithAny_append_left ?_ stops
            rw [hd]
            decide +kernel
          rw [hrejects hcs, hrejects hds]
          rfl

/-- Pieces held against more cells than they need see only the first ones. -/
theorem fits_append {ps : List Piece} (hlen : ps.length ≤ xs.length)
    (ys : List Cell) :
    Pattern.fits Cell.text ps (xs ++ ys) = Pattern.fits Cell.text ps xs := by
  induction ps generalizing xs with
  | nil => rw [Pattern.fits_nil, Pattern.fits_nil]
  | cons piece ps ih =>
    cases xs with
    | nil => cases hlen
    | cons c xs =>
      rw [List.cons_append, Pattern.fits_cons_cons, Pattern.fits_cons_cons,
        ih (Nat.le_of_succ_le_succ hlen)]

/-- Pieces held against cells in two stretches. -/
theorem fits_append_append {ps qs : List Piece} (hlen : ps.length = xs.length)
    (ys : List Cell) :
    Pattern.fits Cell.text (ps ++ qs) (xs ++ ys)
      = (Pattern.fits Cell.text ps xs && Pattern.fits Cell.text qs ys) := by
  induction ps generalizing xs with
  | nil =>
    rw [List.eq_nil_of_length_eq_zero hlen.symm, Pattern.fits_nil,
      Bool.true_and]
    rfl
  | cons piece ps ih =>
    cases xs with
    | nil => cases hlen
    | cons c xs =>
      rw [List.cons_append, List.cons_append, Pattern.fits_cons_cons,
        Pattern.fits_cons_cons, ih (Nat.succ.inj hlen), Bool.and_assoc]

/-- **What the pieces of a pattern accept** is so of the cells that fit, as
far as there are pieces. -/
theorem forall_of_fits {ps : List Piece} {Q : String → Prop}
    (h : Pattern.fits Cell.text ps (xs ++ ys) = true)
    (hlen : xs.length ≤ ps.length)
    (hQ : ∀ piece ∈ ps.take xs.length, ∀ text, piece.accepts text = true →
      Q text) : ∀ c ∈ xs, Q c.text := by
  induction xs generalizing ps with
  | nil =>
    intro c hc
    cases hc
  | cons c xs ih =>
    cases ps with
    | nil => cases hlen
    | cons piece ps =>
      rw [List.cons_append, Pattern.fits_cons_cons, Bool.and_eq_true] at h
      intro d hd
      rcases List.mem_cons.mp hd with rfl | hd
      · exact hQ piece List.mem_cons_self _ h.1
      · exact ih h.2 (Nat.le_of_succ_le_succ hlen)
          (fun p hp => hQ p (List.mem_cons_of_mem _ hp)) d hd

end Cell

end FlatC
