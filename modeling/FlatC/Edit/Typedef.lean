import FlatC.Pattern.Basic
import FlatC.Edit.Basic

/-!
# Expanding typedef names

Two shapes of typedef give a name a meaning that is written out from then
on, whatever scope it stands in:

* after `typedef T1 T2 ;` each `T2` becomes `T1`;
* after `typedef T1 T2 T3 ;` each `T3` becomes `T1 T2`, the second token
  being new, at the place of the first.

The typedef itself stays. Its names are left as they are, but the word
`typedef` is not exempt in the short form: `typedef int typedef ;` turns
the first word into `int`.

Both shapes end in the first `;` after their beginning, so a typedef never
crosses the end of a statement, and at most the last five tokens of a
statement can be one. The chain is therefore taken **statement by
statement**: each is looked through for typedefs, which change only what
comes after the statement, and then the rest, as changed, is taken in
turn. The rest may have become longer, but it holds as many `;` as before,
since neither a name nor what it stands for is one; so this ends.
-/

namespace FlatC

namespace Typedef

/-- The shape that names one type, the second type name being the new one. -/
def short : Pattern := .compile "typedef %type% %type% ;"

/-- The shape that names a type of two words, the third type name being the
new one. -/
def long : Pattern := .compile "typedef %type% %type% %type% ;"

theorem pieces_short :
    short.pieces = [.literal "typedef", .type, .type, .literal ";"] := by
  decide +kernel

theorem pieces_long :
    long.pieces
      = [.literal "typedef", .type, .type, .type, .literal ";"] := by
  decide +kernel

/-- **A name written out as two**: the first in its place, the second in a new
cell behind it. The new cell is not looked at again, also where the second
word is the name. -/
def writeOut (name first second : String) : Pass
  | [], pool => .unchanged [] pool
  | c :: rest, pool =>
    if c.text == name then
      let (id, pool) := pool.take
      let added : Cell := ⟨id, c.token.withText second⟩
      ((writeOut name first second rest pool).prepend
        [c.withText first, added]).plus 1
    else (writeOut name first second rest pool).cons c

/-- A statement looked through: its own cells, and what becomes of the cells
after it. These are edited before the next statement is cut off. -/
structure Outcome where
  own : List Cell
  after : Edit

/-- **The typedef that a part of a statement is**, if it is one, carried out
on the word `typedef` and on what comes after the statement. The shapes are
told apart by how many cells are left of the statement. -/
def apply (c : Cell) (more after : List Cell) (pool : SlotPool) :
    Cell × Edit :=
  match more with
  | [actual, name, _] =>
    if short.opens (c :: more) then
      -- the word itself is renamed as well when it is the name
      let renamed := Cell.rename name.text actual.text
      let n := Cell.occurrences name.text (c :: after)
      (if c.text == name.text then c.withText actual.text else c,
        ⟨renamed after, pool, n⟩)
    else (c, .unchanged after pool)
  | [first, second, name, _] =>
    if long.opens (c :: more) then
      (c, writeOut name.text first.text second.text after pool)
    else (c, .unchanged after pool)
  | _ => (c, .unchanged after pool)

/-- A statement looked through from left to right for the typedefs it ends in.
At most one of its parts is a typedef of each shape. -/
def lookThrough : List Cell → List Cell → SlotPool → Outcome
  | [], after, pool => ⟨[], .unchanged after pool⟩
  | c :: more, after, pool =>
    let (c, r) := apply c more after pool
    let o := lookThrough more r.cells r.pool
    ⟨c :: o.own, o.after.plus r.count⟩

/-- The first statement of some cells, with its `;`, and the cells after it;
nothing if no statement ends. What comes after the last `;` holds no typedef. -/
def cut? : List Cell → Option (List Cell × List Cell)
  | [] => none
  | c :: rest =>
    if c.text == ";" then some ([c], rest)
    else (cut? rest).map fun (own, after) => (c :: own, after)

/-- How many statements end in some cells, which is what the pass goes down
by. -/
def ends (cells : List Cell) : Nat := Cell.occurrences ";" cells

/-! ## Statements do not become more -/

/-- A type name ends no statement, so neither a name nor what it stands for is
`;`. -/
theorem ne_semicolon_of_isTypeName {text : String}
    (h : Token.isTypeName text = true) : text ≠ ";" := by
  rintro rfl
  revert h
  decide +kernel

/-- Writing a name out changes no `;` and puts none in. -/
theorem ends_writeOut {name first second : String} (cells : List Cell)
    (pool : SlotPool) (hn : name ≠ ";") (hf : first ≠ ";")
    (hs : second ≠ ";") :
    ends (writeOut name first second cells pool).cells = ends cells := by
  induction cells generalizing pool with
  | nil => rfl
  | cons c cells ih =>
    rw [writeOut]
    by_cases h : c.text = name
    · have hc : c.text ≠ ";" := h ▸ hn
      simp only [h, beq_self_eq_true, if_true, Edit.cells_plus,
        Edit.cells_prepend]
      rw [ends, Cell.occurrences, List.countP_append]
      have hi := ih pool.take.2
      rw [ends, Cell.occurrences] at hi
      rw [hi]
      simp [ends, Cell.occurrences, hf, hs, hc]
    · have hi := ih pool
      rw [ends, Cell.occurrences] at hi
      simp [ends, Cell.occurrences, h, List.countP_cons, hi]

/-- A typedef carried out leaves as many statements after it. -/
theorem ends_apply (c : Cell) (more after : List Cell) (pool : SlotPool) :
    ends (apply c more after pool).2.cells = ends after := by
  unfold apply
  split
  · next actual name _ =>
    split
    · next h =>
      simp only [Pattern.opens, pieces_short, Pattern.fits_cons_cons,
        Piece.accepts_type, Bool.and_eq_true] at h
      exact Cell.occurrences_rename after
        (ne_semicolon_of_isTypeName h.2.2.1)
        (ne_semicolon_of_isTypeName h.2.1)
    · rfl
  · next first second name _ =>
    split
    · next h =>
      simp only [Pattern.opens, pieces_long, Pattern.fits_cons_cons,
        Piece.accepts_type, Bool.and_eq_true] at h
      exact ends_writeOut after pool
        (ne_semicolon_of_isTypeName h.2.2.2.1)
        (ne_semicolon_of_isTypeName h.2.1)
        (ne_semicolon_of_isTypeName h.2.2.1)
    · rfl
  · rfl

/-- **Looking through a statement leaves as many statements after it.** -/
theorem ends_lookThrough (own after : List Cell) (pool : SlotPool) :
    ends (lookThrough own after pool).after.cells = ends after := by
  induction own generalizing after pool with
  | nil => rfl
  | cons c more ih =>
    rw [lookThrough]
    simp only [Edit.cells_plus]
    rw [ih, ends_apply]

/-- After a statement has been cut off, one less ends, and the pass comes to
its end. -/
theorem ends_of_cut? {cells own after : List Cell}
    (h : cut? cells = some (own, after)) : ends cells = ends after + 1 := by
  induction cells generalizing own after with
  | nil => cases h
  | cons c cells ih =>
    rw [cut?] at h
    by_cases hc : c.text = ";"
    · simp only [hc, beq_self_eq_true, if_true, Option.some.injEq,
        Prod.mk.injEq] at h
      obtain ⟨-, rfl⟩ := h
      simp [ends, Cell.occurrences, hc]
    · simp only [beq_iff_eq, hc, if_false] at h
      obtain ⟨⟨own', after'⟩, hcut, heq⟩ := Option.map_eq_some_iff.mp h
      have := ih hcut
      simp only [Prod.mk.injEq] at heq
      obtain ⟨-, rfl⟩ := heq
      rw [← this]
      simp [ends, Cell.occurrences, hc]

end Typedef

/-- **Typedef names expanded.** The count is the number of names written out,
the word `typedef` included where it was the name. -/
def expandTypedefs (cells : List Cell) (pool : SlotPool) : Edit :=
  match _h : Typedef.cut? cells with
  | none => .unchanged cells pool
  | some (own, after) =>
    let o := Typedef.lookThrough own after pool
    ((expandTypedefs o.after.cells o.after.pool).prepend o.own).plus
      o.after.count
termination_by Typedef.ends cells
decreasing_by
  rw [Typedef.ends_lookThrough, Typedef.ends_of_cut? _h]
  exact Nat.lt_succ_self _

end FlatC
