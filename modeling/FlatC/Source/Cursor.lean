/-!
# Reading source bytes

A source is kept in a buffer, which has room for as many bytes as positions
of 32 bits can tell apart, less a cache line for the zeros behind them. Of a
longer source the end is left out (`Buffer.held`), and what is said here of
a source is said of what the buffer holds.

C source is read forward, a byte at a time or a stretch at a time. A
cursor splits the bytes at the place it has reached: those passed, the
nearest first, and those still ahead.

Every move is a number of single steps, and a step at the end of the
source stays there. So a cursor cannot leave its source, and no step loses
a byte of it. Lines are not the cursor's business: whoever moves it counts
the line feeds.

How far a stretch reaches is measured on the bytes ahead, before moving:
`lineLength` up to the next line feed, `blockLength` through the next
`*/`.
-/

namespace FlatC

/-! ## What a buffer holds -/

/-- The bytes that are read into a cache at once. So many zeros stand behind a
source in its buffer. -/
def cacheLine : Nat := 64

namespace Buffer

/-- The longest source a buffer holds, so that all positions in the padded
buffer are numbers of 32 bits. -/
def capacity : Nat := UInt32.size - 1 - cacheLine

/-- **What a buffer holds of a source**: all of it, unless it is too long.
Where it is cut does not depend on what stands there, so a token can be cut in
two. -/
def held (bytes : List UInt8) : List UInt8 := bytes.take capacity

/-- A source within the limit is held as it is. -/
theorem held_of_le {bytes : List UInt8} (h : bytes.length ≤ capacity) :
    held bytes = bytes :=
  List.take_of_length_le h

theorem length_held_le (bytes : List UInt8) :
    (held bytes).length ≤ capacity :=
  List.length_take_le _ _

end Buffer

/-! ## Measures -/

/-- The byte that ends a line, and the only one that does. -/
def lineFeed : UInt8 := 0x0A

/-- How many bytes there are before the next line feed, or to the end where
none comes. -/
def lineLength : List UInt8 → Nat
  | [] => 0
  | b :: bytes => if b = lineFeed then 0 else lineLength bytes + 1

/-- How many bytes there are through the first `*/`; all of them if there is
none. It is asked of the bytes behind a `/*`, so a `/*/` closes nothing. -/
def blockLength : List UInt8 → Nat
  | [] => 0
  | [_] => 1
  | a :: b :: bytes =>
    if a = 0x2A ∧ b = 0x2F then 2 else blockLength (b :: bytes) + 1

/-- A line is no longer than the bytes it is cut from. -/
theorem lineLength_le (bytes : List UInt8) :
    lineLength bytes ≤ bytes.length := by
  induction bytes with
  | nil => exact Nat.le_refl 0
  | cons b bytes ih =>
    unfold lineLength
    split
    · exact Nat.zero_le _
    · exact Nat.succ_le_succ ih

/-- No byte of a line ends it, so what is cut off as a line ends one line at
most. -/
theorem lineFeed_notMem_take (bytes : List UInt8) :
    lineFeed ∉ bytes.take (lineLength bytes) := by
  induction bytes with
  | nil => simp
  | cons b bytes ih =>
    unfold lineLength
    split
    · simp
    · next h =>
      rw [List.take_succ_cons, List.mem_cons, not_or]
      exact ⟨fun hb => h hb.symm, ih⟩

/-! ## Cursors -/

/-- **A place in some source bytes.** Both sides of it together are the
source, whatever has been done with the cursor. -/
structure Cursor where
  /-- The bytes passed, the nearest first. -/
  passed : List UInt8
  /-- The bytes ahead. -/
  rest : List UInt8
  deriving DecidableEq, Repr

namespace Cursor

/-- The cursor at the start of a source. -/
def ofBytes (bytes : List UInt8) : Cursor := ⟨[], bytes⟩

/-- How many bytes have been passed, which is the position in the buffer. -/
def pos (c : Cursor) : Nat := c.passed.length

/-- Whether no bytes are ahead. The byte 0 is no end of a source. -/
def isAtEnd (c : Cursor) : Bool := c.rest.isEmpty

/-- **The byte ahead**; at the end, 0, which a source can hold too. -/
def current (c : Cursor) : UInt8 := c.rest.headD 0

/-- **One step**; none at the end. All moves are made of this one. -/
def advance (c : Cursor) : Cursor :=
  match c.rest with
  | [] => c
  | b :: rest => ⟨b :: c.passed, rest⟩

/-- **As many steps as are asked for** and there are bytes. -/
def skip (c : Cursor) : Nat → Cursor
  | 0 => c
  | n + 1 =>
    match c.rest with
    | [] => c
    | _ :: _ => c.advance.skip n

/-- The byte ahead taken, unless the source has ended, in which case the
cursor stays. -/
def bump (c : Cursor) : Option UInt8 × Cursor := (c.rest.head?, c.advance)

/-- The bytes from an earlier position up to the cursor; none from a
position it has not reached. -/
def sliceFrom (c : Cursor) (start : Nat) : List UInt8 :=
  (c.passed.take (c.pos - start)).reverse

/-- The cursor moved to the end of its line, in front of the line feed, which
is left to be counted. -/
def skipLine (c : Cursor) : Cursor := c.skip (lineLength c.rest)

/-- **The cursor moved past a block comment** it stands inside of, and the
line feeds in what it passed. -/
def skipBlock (c : Cursor) : Nat × Cursor :=
  let n := blockLength c.rest
  ((c.rest.take n).count lineFeed, c.skip n)

/-! ## Small laws -/

@[simp] theorem pos_ofBytes (bytes : List UInt8) : (ofBytes bytes).pos = 0 :=
  rfl

@[simp] theorem rest_ofBytes (bytes : List UInt8) :
    (ofBytes bytes).rest = bytes := rfl

@[simp] theorem skip_zero (c : Cursor) : c.skip 0 = c := rfl

/-- At the end a step stays. -/
theorem advance_of_rest_eq_nil {c : Cursor} (h : c.rest = []) :
    c.advance = c := by
  simp [advance, h]

/-- A step is one step, also at the end, where both sides stay. -/
theorem skip_succ (c : Cursor) (n : Nat) :
    c.skip (n + 1) = c.advance.skip n := by
  rw [skip]
  split
  · next h =>
    rw [advance_of_rest_eq_nil h]
    cases n with
    | zero => rfl
    | succ n => rw [skip, h]
  · rfl

/-- **A step takes one byte off what is ahead.** -/
@[simp] theorem rest_advance (c : Cursor) : c.advance.rest = c.rest.tail := by
  unfold advance
  split
  · next h => rw [h]; rfl
  · next h => rw [h]; rfl

@[simp] theorem rest_skip (c : Cursor) (n : Nat) :
    (c.skip n).rest = c.rest.drop n := by
  induction n generalizing c with
  | zero => rfl
  | succ n ih =>
    rw [skip_succ, ih, rest_advance, List.drop_tail]

/-- **A step loses no byte of the source.** -/
@[simp] theorem reverse_passed_append_rest_advance (c : Cursor) :
    c.advance.passed.reverse ++ c.advance.rest
      = c.passed.reverse ++ c.rest := by
  unfold advance
  split
  · rfl
  · next h => rw [h, List.reverse_cons, List.append_assoc]; rfl

@[simp] theorem reverse_passed_append_rest_skip (c : Cursor) (n : Nat) :
    (c.skip n).passed.reverse ++ (c.skip n).rest
      = c.passed.reverse ++ c.rest := by
  induction n generalizing c with
  | zero => rfl
  | succ n ih => rw [skip_succ, ih, reverse_passed_append_rest_advance]

end Cursor

end FlatC
