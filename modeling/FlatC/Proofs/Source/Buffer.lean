import FlatC.Proofs.Source.Searching

/-!
# Sources in memory

A source is kept in memory with a zero byte behind it and more of them, until
what it takes is a multiple of a cache line. Positions in it are 32 bits wide,
and none of the operations that move one checks whether it gets anywhere. That
nothing is ever read behind the buffer and no position passes over 32 bits
comes from one fact that every operation keeps (`BufferCursor.At`): the
position is not behind the end of the source, and there is one more byte than
the source has.

Reading a source by positions in it, with no buffer and no search, is what
both a buffer and a `Cursor` come to (`Buffer.readsAs`): they show the same
after every operation. A zero byte of the source is one like any other, and
only the position tells it from the one behind the end.
-/

namespace FlatC

/-! ## What is asked for and what is seen -/

/-- **What is asked of a cursor**: to go on by a byte, without and with the
byte as an answer, to give the bytes from some position up to here, and to
skip to the end of a line or of a comment. -/
inductive CursorOp where
  | advance
  | bump
  | sliceFrom (start : UInt32)
  | skipLine
  | skipBlock
  deriving DecidableEq, Repr

/-- What comes of it, besides the new position. Going on and skipping a line
have nothing to tell. -/
inductive CursorAnswer where
  | moved
  | byte (b : Option UInt8)
  | bytes (bytes : List UInt8)
  | lines (count : Nat)
  deriving DecidableEq, Repr

/-- What can be seen of a cursor at any time, without moving it. The position
is a number here, however wide it is in the reader. -/
structure CursorView where
  pos : Nat
  current : UInt8
  isAtEnd : Bool
  deriving DecidableEq, Repr

/-! ## Reading by position -/

namespace Scalar

/-- The first line feed at or after a position, or else the end. It looks at
one position after the other, and knows nothing of a search. -/
def lineEnd (source : List UInt8) (pos : Nat) : Nat :=
  ((List.range source.length).find? fun i =>
    pos ≤ i ∧ source[i]? = some lineFeed).getD source.length

/-- Just behind the first `*/` at or after a position, or else the end. The
two bytes of it may be the first two that are looked at. -/
def blockEnd (source : List UInt8) (pos : Nat) : Nat :=
  (((List.range source.length).find? fun i =>
    pos ≤ i ∧ ClosesAt source i).map (· + 2)).getD source.length

/-- **What a position of a source shows**: behind the last byte, 0. That byte
alone does not tell the end, as a source may have zeros in it. -/
def view (source : List UInt8) (pos : Nat) : CursorView :=
  ⟨pos, source[pos]?.getD 0, pos = source.length⟩

/-- **One operation** at a position of a source, and the position it leads to.
No operation leads behind the end, and a stretch that would begin behind the
position is empty. -/
def act (source : List UInt8) (pos : Nat) : CursorOp → CursorAnswer × Nat
  | .advance => (.moved, min (pos + 1) source.length)
  | .bump => (.byte source[pos]?, min (pos + 1) source.length)
  | .sliceFrom start => (.bytes ((source.take pos).drop start.toNat), pos)
  | .skipLine => (.moved, lineEnd source pos)
  | .skipBlock =>
    let stop := blockEnd source pos
    (.lines (((source.take stop).drop pos).count lineFeed), stop)

/-- **What is seen from a position on**: at first and after each operation,
with the answer to it. Readers with the same trace cannot be told apart. -/
def trace (source : List UInt8) (answer : CursorAnswer) (pos : Nat) :
    List CursorOp → List (CursorAnswer × CursorView)
  | [] => [(answer, view source pos)]
  | op :: ops =>
    let (next, pos') := act source pos op
    (answer, view source pos) :: trace source next pos' ops

end Scalar

/-! ## Readers -/

/-- **A reader**: how what it is at is looked at and changed. Where it would
have to read out of bounds, or to count past 32 bits, there is nothing. So
that a reader gives something is a statement, and is proved as one. -/
structure ByteReader (σ : Type) where
  view? : σ → Option CursorView
  act? : σ → CursorOp → Option (CursorAnswer × σ)

namespace ByteReader

variable {σ : Type} {source : List UInt8}

/-- What a reader shows, at first and after each operation; nothing at all, if
one of them gives nothing. -/
def trace? (r : ByteReader σ) (answer : CursorAnswer) (s : σ) :
    List CursorOp → Option (List (CursorAnswer × CursorView))
  | [] => do
    let view ← r.view? s
    return [(answer, view)]
  | op :: ops => do
    let view ← r.view? s
    let (next, s') ← r.act? s op
    let seen ← r.trace? next s' ops
    return (answer, view) :: seen

/-- **A reader keeps to a source**: whenever it is at a position, it shows
what is there, and each operation leads it where it should. What it is to be
at a position is for each reader to say. -/
structure KeepsTo (r : ByteReader σ) (source : List UInt8)
    (At : σ → Nat → Prop) : Prop where
  view : ∀ {s pos}, At s pos → r.view? s = some (Scalar.view source pos)
  act : ∀ {s pos}, At s pos → ∀ op, ∃ s',
    r.act? s op = some ((Scalar.act source pos op).1, s')
      ∧ At s' (Scalar.act source pos op).2

/-- **Readers that keep to a source** show what is in it, whatever is asked of
them. The induction is on the operations, and that a reader is at its position
is all it carries along. -/
theorem KeepsTo.trace?_eq {r : ByteReader σ} {At : σ → Nat → Prop}
    (h : r.KeepsTo source At) {s : σ} {pos : Nat} (hs : At s pos)
    (answer : CursorAnswer) (ops : List CursorOp) :
    r.trace? answer s ops = some (Scalar.trace source answer pos ops) := by
  induction ops generalizing s pos answer with
  | nil =>
    rw [trace?, h.view hs]
    rfl
  | cons op ops ih =>
    obtain ⟨s', hact, hs'⟩ := h.act hs op
    rw [trace?, h.view hs, Option.bind_eq_bind, Option.bind_some, hact,
      Option.bind_eq_bind, Option.bind_some]
    simp only [ih hs']
    rfl

end ByteReader

/-! ## The buffer -/

/-- **A source in memory**: its bytes with zeros behind them, and how many of
them there are without the zeros. -/
structure Buffer where
  bytes : List UInt8
  length : UInt32

/-- A place in a buffer. -/
structure BufferCursor where
  bytes : List UInt8
  pos : UInt32
  length : UInt32

/-- **Positions added**, if the sum is one. Where 32 bits would not hold it
there is no sum. -/
def add? (a b : UInt32) : Option UInt32 :=
  if a.toNat + b.toNat < UInt32.size then some (a + b) else none

/-- **A stretch of some bytes**, if they have it. Bounds out of order are
refused, like a bound behind the last byte. -/
def slice? (bytes : List UInt8) (start stop : Nat) : Option (List UInt8) :=
  if start ≤ stop ∧ stop ≤ bytes.length then
    some ((bytes.take stop).drop start)
  else
    none

namespace Buffer

/-- **A source put into memory**, or as much of it as a buffer holds. At least
one zero comes behind, as the multiple is taken of one byte more than there
are. -/
def ofSource (source : List UInt8) : Buffer :=
  let length := min source.length capacity
  let padded := (length + 1 + (cacheLine - 1)) / cacheLine * cacheLine
  ⟨(source.take length).rightpad padded 0, UInt32.ofNat length⟩

/-- The cursor at the first byte, if there is room for the zero behind the
last one. -/
def cursor? (buffer : Buffer) : Option BufferCursor :=
  if buffer.length.toNat < buffer.bytes.length then
    some ⟨buffer.bytes, 0, buffer.length⟩
  else
    none

end Buffer

namespace BufferCursor

/-- The end is told by the position, not by a zero. -/
def isAtEnd (c : BufferCursor) : Bool := c.length ≤ c.pos

/-- The byte at the position, which behind the last one is a zero. It is read
without a look at the length. -/
def current? (c : BufferCursor) : Option UInt8 := c.bytes[c.pos.toNat]?

/-- The cursor goes on by a byte, unless it is at the end. -/
def advance? (c : BufferCursor) : Option BufferCursor :=
  if c.pos < c.length then do
    let pos ← add? c.pos 1
    return { c with pos }
  else
    some c

/-- The cursor goes on by a byte and gives it, unless it is at the end. -/
def bump? (c : BufferCursor) : Option (Option UInt8 × BufferCursor) :=
  if c.isAtEnd then
    some (none, c)
  else do
    let b ← c.current?
    let pos ← add? c.pos 1
    return (some b, { c with pos })

/-- The bytes from a position up to the cursor, both taken to be no further
than the end of the source. -/
def sliceFrom? (c : BufferCursor) (start : UInt32) : Option (List UInt8) :=
  let stop := (min c.pos c.length).toNat
  slice? c.bytes (min start.toNat stop) stop

/-- The bytes of the source that are ahead. -/
def rest? (c : BufferCursor) : Option (List UInt8) :=
  slice? c.bytes c.pos.toNat c.length.toNat

/-- The cursor goes to the line feed that a search finds, or else to the end. -/
def skipLine? (search : ByteSearch) (c : BufferCursor) :
    Option BufferCursor := do
  let rest ← c.rest?
  match search.byte? lineFeed rest with
  | some offset =>
    let pos ← add? c.pos (UInt32.ofNat offset)
    return { c with pos }
  | none => return { c with pos := c.length }

/-- The cursor goes behind the `*/` that a search finds, or else to the end,
and the line feeds on the way are counted by how many places of them are
found. -/
def skipBlock? (search : ByteSearch) (c : BufferCursor) :
    Option (UInt32 × BufferCursor) := do
  let rest ← c.rest?
  let consumed := search.blockLength rest
  let body ← slice? rest 0 consumed
  let lines := UInt32.ofNat (search.places lineFeed body).length
  let pos ← add? c.pos (UInt32.ofNat consumed)
  return (lines, { c with pos })

/-- **Reading a buffer**, with some searches. Where a sum is no position or a
byte is out of bounds, there is nothing. -/
def reader (search : ByteSearch) : ByteReader BufferCursor where
  view? c := do
    let current ← c.current?
    return ⟨c.pos.toNat, current, c.isAtEnd⟩
  act? c
    | .advance => do
      let next ← c.advance?
      return (.moved, next)
    | .bump => do
      let (b, next) ← c.bump?
      return (.byte b, next)
    | .sliceFrom start => do
      let bytes ← c.sliceFrom? start
      return (.bytes bytes, c)
    | .skipLine => do
      let next ← c.skipLine? search
      return (.moved, next)
    | .skipBlock => do
      let (lines, next) ← c.skipBlock? search
      return (.lines lines.toNat, next)

end BufferCursor

namespace Cursor

/-- **Reading with a cursor**, in which a source is the bytes that have been
passed and those that are ahead. It never has nothing to show. -/
def reader : ByteReader Cursor where
  view? c := some ⟨c.pos, c.current, c.isAtEnd⟩
  act? c
    | .advance => some (.moved, c.advance)
    | .bump => some (.byte c.bump.1, c.bump.2)
    | .sliceFrom start => some (.bytes (c.sliceFrom start.toNat), c)
    | .skipLine => some (.moved, c.skipLine)
    | .skipBlock => some (.lines c.skipBlock.1, c.skipBlock.2)

end Cursor

/-! ## Positions in a source -/

namespace Scalar

variable {source : List UInt8} {pos : Nat}

/-- As many bytes on as there are ahead is still within the source, so no
position comes to be behind it. -/
theorem add_le (hpos : pos ≤ source.length) {n : Nat}
    (hn : n ≤ (source.drop pos).length) : pos + n ≤ source.length := by
  rw [List.length_drop] at hn
  omega

/-- A stretch may as well begin at its end as anywhere behind it. -/
theorem drop_min_take (source : List UInt8) (start pos : Nat) :
    (source.take pos).drop (min start pos)
      = (source.take pos).drop start := by
  rcases Nat.le_total start pos with hle | hle
  · rw [Nat.min_eq_left hle]
  · have hlength := List.length_take_le pos source
    rw [Nat.min_eq_right hle, List.drop_eq_nil_of_le hlength,
      List.drop_eq_nil_of_le (Nat.le_trans hlength hle)]

/-- The end of a line is as far on as the line is long. This ties the
positions to the measures of what is ahead. -/
theorem lineEnd_eq (hpos : pos ≤ source.length) :
    lineEnd source pos = pos + lineLength (source.drop pos) := by
  have hfirst := isFirst_find?_range (n := source.length)
    (p := fun i => pos ≤ i ∧ source[i]? = some lineFeed)
    fun i h => ⟨i, (List.getElem?_eq_some_iff.mp h.2).1, h⟩
  obtain ⟨rest, hrest, hbehind⟩ := hfirst.behind
  simp only [← List.getElem?_drop] at hbehind
  rw [lineEnd, hrest, hbehind.lineLength_eq, List.length_drop]
  cases rest with
  | none => exact (Nat.add_sub_cancel' hpos).symm
  | some i => rfl

/-- The end of a comment is as far on as the comment is long. -/
theorem blockEnd_eq (hpos : pos ≤ source.length) :
    blockEnd source pos = pos + blockLength (source.drop pos) := by
  have hfirst := isFirst_find?_range (n := source.length)
    (p := fun i => pos ≤ i ∧ ClosesAt source i)
    fun i h => ⟨i, h.2.lt_length, h⟩
  obtain ⟨rest, hrest, hbehind⟩ := hfirst.behind
  have hbehind := hbehind.congr (q := ClosesAt (source.drop pos)) fun i => by
    rw [ClosesAt, ClosesAt, List.getElem?_drop, List.getElem?_drop,
      Nat.add_assoc]
  rw [blockEnd, hrest, hbehind.blockLength_eq, List.length_drop]
  cases rest with
  | none => exact (Nat.add_sub_cancel' hpos).symm
  | some i => exact Nat.add_assoc pos i 2

/-- **No operation leads back**, nor out of the source, one case for each
operation. -/
theorem act_pos (hpos : pos ≤ source.length) (op : CursorOp) :
    pos ≤ (act source pos op).2 ∧ (act source pos op).2 ≤ source.length := by
  cases op with
  | advance => exact ⟨by simp only [act]; omega, Nat.min_le_right _ _⟩
  | bump => exact ⟨by simp only [act]; omega, Nat.min_le_right _ _⟩
  | sliceFrom start => exact ⟨Nat.le_refl pos, hpos⟩
  | skipLine =>
    show _ ≤ lineEnd source pos ∧ lineEnd source pos ≤ _
    rw [lineEnd_eq hpos]
    exact ⟨Nat.le_add_right pos _, add_le hpos (lineLength_le _)⟩
  | skipBlock =>
    show _ ≤ blockEnd source pos ∧ blockEnd source pos ≤ _
    rw [blockEnd_eq hpos]
    exact ⟨Nat.le_add_right pos _, add_le hpos (blockLength_le _)⟩

/-- **Whatever is seen** is the view of a position in the source, and of none
before the one it is seen from. The induction is on the operations, with the
position left open. -/
theorem mem_trace (hpos : pos ≤ source.length) (answer : CursorAnswer)
    (ops : List CursorOp) :
    ∀ seen ∈ trace source answer pos ops, pos ≤ seen.2.pos
      ∧ seen.2.pos ≤ source.length ∧ seen.2 = view source seen.2.pos := by
  induction ops generalizing pos answer with
  | nil =>
    rintro seen hseen
    obtain rfl := List.mem_singleton.mp hseen
    exact ⟨Nat.le_refl pos, hpos, rfl⟩
  | cons op ops ih =>
    obtain ⟨hle, hnext⟩ := act_pos hpos op
    rintro seen hseen
    rcases List.mem_cons.mp hseen with rfl | hseen
    · exact ⟨Nat.le_refl pos, hpos, rfl⟩
    · obtain ⟨hfrom, hseen⟩ := ih hnext _ seen hseen
      exact ⟨Nat.le_trans hle hfrom, hseen⟩

/-- The positions that are seen never go down. -/
theorem pairwise_trace (hpos : pos ≤ source.length) (answer : CursorAnswer)
    (ops : List CursorOp) :
    (trace source answer pos ops).Pairwise fun a b => a.2.pos ≤ b.2.pos := by
  induction ops generalizing pos answer with
  | nil => exact List.pairwise_singleton _ _
  | cons op ops ih =>
    obtain ⟨hle, hnext⟩ := act_pos hpos op
    refine List.pairwise_cons.mpr ⟨fun seen hseen => ?_, ih hnext _⟩
    exact Nat.le_trans hle (mem_trace hnext _ ops seen hseen).1

end Scalar

/-! ## The buffer keeps to its source -/

/-- A sum that 32 bits hold is a position. -/
theorem add?_eq_some {a : UInt32} {n : Nat} (h : a.toNat + n < UInt32.size) :
    ∃ sum, add? a (UInt32.ofNat n) = some sum ∧ sum.toNat = a.toNat + n := by
  have hn : (UInt32.ofNat n).toNat = n :=
    UInt32.toNat_ofNat_of_lt' (Nat.lt_of_le_of_lt (Nat.le_add_left n _) h)
  refine ⟨a + UInt32.ofNat n, if_pos (by rwa [hn]), ?_⟩
  rw [UInt32.toNat_add, hn, Nat.mod_eq_of_lt h]

namespace BufferCursor

variable {source : List UInt8} {c : BufferCursor} {pos : Nat}
variable {search : ByteSearch}

/-- **A cursor at a position of a source**: the buffer begins with the source
and a zero byte, and the position is not behind the end. -/
structure At (source : List UInt8) (c : BufferCursor) (pos : Nat) : Prop where
  begins : source ++ [0] <+: c.bytes
  length_eq : c.length.toNat = source.length
  pos_eq : c.pos.toNat = pos
  le : pos ≤ source.length

namespace At

/-- The byte at the position is that of the source, or the zero behind it. -/
theorem current?_eq (h : c.At source pos) :
    c.current? = some (source[pos]?.getD 0) := by
  obtain ⟨padding, hbytes⟩ := h.begins
  rw [current?, h.pos_eq, ← hbytes, List.append_assoc]
  rcases Nat.lt_or_eq_of_le h.le with hlt | rfl
  · rw [List.getElem?_append_left hlt, List.getElem?_eq_getElem hlt]
    rfl
  · rw [List.getElem?_append_right (Nat.le_refl _), Nat.sub_self,
      List.getElem?_eq_none (Nat.le_refl _)]
    rfl

/-- A cursor is at the end just if its position is. -/
theorem isAtEnd_eq (h : c.At source pos) :
    c.isAtEnd = decide (pos = source.length) := by
  rw [isAtEnd, decide_eq_decide, UInt32.le_iff_toNat_le, h.length_eq, h.pos_eq]
  exact ⟨fun hle => Nat.le_antisymm h.le hle, fun heq => Nat.le_of_eq heq.symm⟩

/-- **Within the source a stretch of the buffer is one of the source**, as the
zeros come behind. -/
theorem slice?_eq (h : c.At source pos) {start stop : Nat}
    (hstart : start ≤ stop) (hstop : stop ≤ source.length) :
    slice? c.bytes start stop = some ((source.take stop).drop start) := by
  obtain ⟨padding, hbytes⟩ := h.begins
  have hlength : source.length ≤ c.bytes.length := by
    rw [← hbytes, List.append_assoc, List.length_append]
    exact Nat.le_add_right _ _
  rw [slice?, if_pos ⟨hstart, Nat.le_trans hstop hlength⟩, ← hbytes,
    List.append_assoc, List.take_append_of_le_length hstop]

/-- What is ahead of a cursor is what is left of the source. -/
theorem rest?_eq (h : c.At source pos) :
    c.rest? = some (source.drop pos) := by
  rw [rest?, h.pos_eq, h.length_eq, h.slice?_eq h.le (Nat.le_refl _),
    List.take_length]

/-- **A position within the source** is reached, and nothing else changes. The
length of the source is 32 bits wide, so the sum is. -/
theorem add (h : c.At source pos) {n : Nat} (hn : pos + n ≤ source.length) :
    ∃ next, add? c.pos (UInt32.ofNat n) = some next
      ∧ At source { c with pos := next } (pos + n) := by
  have hlt := h.length_eq ▸ c.length.toNat_lt_size
  obtain ⟨next, hadd, hnext⟩ := add?_eq_some (a := c.pos) (n := n)
    (h.pos_eq.symm ▸ Nat.lt_of_le_of_lt hn hlt)
  exact ⟨next, hadd, h.begins, h.length_eq, h.pos_eq ▸ hnext, hn⟩

/-- Going on leads to the next position, and at the end nowhere. -/
theorem advance (h : c.At source pos) :
    ∃ next, c.advance? = some next
      ∧ At source next (min (pos + 1) source.length) := by
  have hiff : c.pos < c.length ↔ pos < source.length := by
    rw [UInt32.lt_iff_toNat_lt, h.pos_eq, h.length_eq]
  by_cases hlt : pos < source.length
  · obtain ⟨next, hadd, hnext⟩ := h.add (n := 1) hlt
    rw [advance?, if_pos (hiff.mpr hlt), Nat.min_eq_left hlt]
    exact ⟨_, congrArg (Option.bind · _) hadd, hnext⟩
  · obtain rfl := Nat.le_antisymm h.le (Nat.le_of_not_lt hlt)
    rw [advance?, if_neg (mt hiff.mp hlt),
      Nat.min_eq_right (Nat.le_succ _)]
    exact ⟨c, rfl, h⟩

/-- Going on with the byte gives the byte of the source, and at the end none. -/
theorem bump (h : c.At source pos) :
    ∃ next, c.bump? = some (source[pos]?, next)
      ∧ At source next (min (pos + 1) source.length) := by
  rw [bump?, h.isAtEnd_eq, h.current?_eq]
  rcases Nat.lt_or_eq_of_le h.le with hlt | rfl
  · obtain ⟨next, hadd, hnext⟩ := h.add (n := 1) hlt
    rw [if_neg (by simpa using Nat.ne_of_lt hlt), Nat.min_eq_left hlt,
      List.getElem?_eq_getElem hlt]
    exact ⟨_, congrArg (Option.bind · _) hadd, hnext⟩
  · rw [if_pos (by simp), Nat.min_eq_right (Nat.le_succ _),
      List.getElem?_eq_none (Nat.le_refl _)]
    exact ⟨c, rfl, h⟩

/-- The bytes from a position up to here are those of the source, whichever
position is given. -/
theorem sliceFrom (h : c.At source pos) (start : UInt32) :
    c.sliceFrom? start
      = some ((source.take pos).drop start.toNat) := by
  have hstop : (min c.pos c.length).toNat = pos := by
    rw [UInt32.toNat_min, h.pos_eq, h.length_eq, Nat.min_eq_left h.le]
  rw [sliceFrom?, hstop, h.slice?_eq (Nat.min_le_right _ _) h.le,
    Scalar.drop_min_take]

/-- Skipping a line leads to its end, if the search finds the first line feed.
The line feed itself is not skipped. -/
theorem skipLine (h : c.At source pos) (hsearch : search.Reliable) :
    ∃ next, c.skipLine? search = some next
      ∧ At source next (Scalar.lineEnd source pos) := by
  have hline := (hsearch.byte lineFeed (source.drop pos)).lineLength_eq
  have hend := Scalar.add_le h.le (lineLength_le (source.drop pos))
  rw [skipLine?, h.rest?_eq, Scalar.lineEnd_eq h.le, Option.bind_eq_bind,
    Option.bind_some]
  cases hfound : search.byte? lineFeed (source.drop pos) with
  | none =>
    rw [hline, hfound, Option.getD_none, List.length_drop,
      Nat.add_sub_cancel' h.le]
    exact ⟨_, rfl, h.begins, h.length_eq, h.length_eq, Nat.le_refl _⟩
  | some offset =>
    rw [hfound, Option.getD_some] at hline
    rw [hline] at hend ⊢
    obtain ⟨next, hadd, hnext⟩ := h.add hend
    exact ⟨_, congrArg (Option.bind · _) hadd, hnext⟩

/-- Skipping a comment leads behind it, and counts the line feeds in it. Their
number is no more than the source is long, so 32 bits hold it. -/
theorem skipBlock (h : c.At source pos) (hsearch : search.Reliable) :
    ∃ lines next, c.skipBlock? search = some (lines, next)
      ∧ lines.toNat = ((source.take (Scalar.blockEnd source pos)).drop
        pos).count lineFeed
      ∧ At source next (Scalar.blockEnd source pos) := by
  have hstop := Scalar.blockEnd_eq h.le
  have hconsumed := hsearch.blockLength_eq (source.drop pos)
  have hle := blockLength_le (source.drop pos)
  generalize blockLength (source.drop pos) = n at hstop hconsumed hle
  have hend := Scalar.add_le h.le hle
  have hbody : slice? (source.drop pos) 0 n
      = some ((source.drop pos).take n) := if_pos ⟨Nat.zero_le n, hle⟩
  obtain ⟨next, hadd, hnext⟩ := h.add hend
  refine ⟨UInt32.ofNat
    (search.places lineFeed ((source.drop pos).take n)).length,
    { c with pos := next }, ?_, ?_, hstop ▸ hnext⟩
  · simp only [skipBlock?, h.rest?_eq, hconsumed, hbody, hadd,
      Option.bind_eq_bind, Option.bind_some, Option.pure_def]
  · rw [hsearch.length_places, hstop, ← List.take_drop]
    refine UInt32.toNat_ofNat_of_lt'
      (Nat.lt_of_le_of_lt ?_ c.length.toNat_lt_size)
    rw [h.length_eq]
    calc ((source.drop pos).take n).count lineFeed
        ≤ ((source.drop pos).take n).length := List.count_le_length
      _ ≤ n := List.length_take_le _ _
      _ ≤ pos + n := Nat.le_add_left n pos
      _ ≤ source.length := hend

end At

/-- **A buffer keeps to its source**, if the searches can be relied on. There
is one case for each operation, which is the lemma of its name. -/
theorem keepsTo (hsearch : search.Reliable) :
    (reader search).KeepsTo source (At source) where
  view h := by
    simp only [reader, h.current?_eq, h.pos_eq, h.isAtEnd_eq]
    rfl
  act h op := by
    cases op with
    | advance =>
      obtain ⟨next, hnext, hat⟩ := h.advance
      exact ⟨next, congrArg (Option.bind · _) hnext, hat⟩
    | bump =>
      obtain ⟨next, hnext, hat⟩ := h.bump
      exact ⟨next, congrArg (Option.bind · _) hnext, hat⟩
    | sliceFrom start =>
      exact ⟨_, congrArg (Option.bind · _) (h.sliceFrom start), h⟩
    | skipLine =>
      obtain ⟨next, hnext, hat⟩ := h.skipLine hsearch
      exact ⟨next, congrArg (Option.bind · _) hnext, hat⟩
    | skipBlock =>
      obtain ⟨lines, next, hnext, hlines, hat⟩ := h.skipBlock hsearch
      refine ⟨next, ?_, hat⟩
      refine (congrArg (Option.bind · _) hnext).trans ?_
      show some (CursorAnswer.lines lines.toNat, next) = _
      rw [hlines]
      rfl

end BufferCursor

/-- **A source that a buffer holds** is the beginning of it, and at least one
zero comes behind. -/
theorem Buffer.at_cursor? {source : List UInt8}
    (h : source.length ≤ Buffer.capacity) :
    ∃ c, (ofSource source).cursor? = some c ∧ c.At source 0 := by
  have hlength : (UInt32.ofNat source.length).toNat = source.length :=
    UInt32.toNat_ofNat_of_lt' (Nat.lt_of_le_of_lt h (by decide))
  have hroom : source.length
      < (source.length + 1 + (cacheLine - 1)) / cacheLine * cacheLine := by
    rw [cacheLine]
    omega
  simp only [ofSource, Nat.min_eq_left h, List.take_length]
  generalize (source.length + 1 + (cacheLine - 1)) / cacheLine * cacheLine
    = padded at hroom
  obtain ⟨n, rfl⟩ := Nat.exists_eq_add_of_lt hroom
  have hpadded : source.rightpad (source.length + n + 1) 0
      = source ++ 0 :: List.replicate n 0 := by
    rw [List.rightpad, Nat.add_assoc, Nat.add_sub_cancel_left,
      List.replicate_succ]
  rw [hpadded, cursor?, if_pos (by simp [hlength])]
  exact ⟨_, rfl, ⟨List.replicate n 0, by simp⟩, hlength, rfl, Nat.zero_le _⟩

namespace Cursor

variable {source : List UInt8} {c : Cursor} {pos : Nat}

/-- **A cursor at a position of a source**: what has been passed, in reverse,
and what is ahead make up the source. -/
structure At (source : List UInt8) (c : Cursor) (pos : Nat) : Prop where
  split : c.passed.reverse ++ c.rest = source
  pos_eq : c.pos = pos

namespace At

/-- What is ahead of a cursor is what is left of the source. -/
theorem rest_eq (h : c.At source pos) : c.rest = source.drop pos := by
  rw [← h.split, List.drop_left' (List.length_reverse.trans h.pos_eq)]

/-- What a cursor has passed is what the source has in front of its position. -/
theorem passed_eq (h : c.At source pos) :
    c.passed = (source.take pos).reverse := by
  rw [← h.split, List.take_left' (List.length_reverse.trans h.pos_eq),
    List.reverse_reverse]

/-- A cursor is not behind the end of its source. -/
theorem le (h : c.At source pos) : pos ≤ source.length := by
  rw [← h.split, ← h.pos_eq, List.length_append, List.length_reverse]
  exact Nat.le_add_right _ _

/-- To skip as many bytes as there are ahead, or fewer, leads as many
positions on. -/
theorem skip (h : c.At source pos) {n : Nat} (hn : n ≤ c.rest.length) :
    (c.skip n).At source (pos + n) where
  split := by rw [reverse_passed_append_rest_skip, h.split]
  pos_eq := by
    have hsame := congrArg List.length (reverse_passed_append_rest_skip c n)
    simp only [List.length_append, List.length_reverse, rest_skip,
      List.length_drop] at hsame
    have hpos := h.pos_eq
    rw [Cursor.pos] at hpos ⊢
    omega

/-- Going on leads to the next position, and at the end nowhere. -/
theorem advance (h : c.At source pos) :
    c.advance.At source (min (pos + 1) source.length) := by
  rcases Nat.lt_or_eq_of_le h.le with hlt | rfl
  · have hrest : 1 ≤ c.rest.length := by
      rw [h.rest_eq, List.length_drop]
      omega
    rw [Nat.min_eq_left hlt, ← skip_zero c.advance, ← skip_succ]
    exact h.skip hrest
  · rw [Nat.min_eq_right (Nat.le_succ _), advance_of_rest_eq_nil]
    · exact h
    · rw [h.rest_eq, List.drop_length]

/-- The bytes from a position up to here are those of the source. -/
theorem sliceFrom (h : c.At source pos) (start : Nat) :
    c.sliceFrom start = (source.take pos).drop start := by
  rw [Cursor.sliceFrom, h.pos_eq, h.passed_eq, List.take_reverse,
    List.reverse_reverse, List.length_take_of_le h.le, Nat.sub_sub_eq_min,
    Nat.min_comm, Scalar.drop_min_take]

end At

/-- **A cursor keeps to its source**, operation by operation, with what has
been passed and what is ahead to go by. -/
theorem keepsTo : reader.KeepsTo source (At source) where
  view {c pos} h := by
    have hcurrent : c.current = source[pos]?.getD 0 := by
      rw [current, h.rest_eq, List.headD_eq_head?_getD, List.head?_drop]
    have hatEnd : c.isAtEnd = decide (pos = source.length) := by
      rw [Bool.eq_iff_iff, isAtEnd, h.rest_eq, List.isEmpty_iff,
        List.drop_eq_nil_iff, decide_eq_true_eq]
      exact ⟨Nat.le_antisymm h.le, fun heq => Nat.le_of_eq heq.symm⟩
    simp only [reader, Scalar.view, hcurrent, hatEnd, h.pos_eq]
  act {c pos} h op := by
    cases op with
    | advance => exact ⟨_, rfl, h.advance⟩
    | bump =>
      refine ⟨_, ?_, h.advance⟩
      show some (CursorAnswer.byte c.rest.head?, c.advance) = _
      rw [h.rest_eq, List.head?_drop]
      rfl
    | sliceFrom start =>
      refine ⟨c, ?_, h⟩
      show some (CursorAnswer.bytes _, c) = _
      rw [h.sliceFrom]
      rfl
    | skipLine =>
      refine ⟨_, rfl, ?_⟩
      show c.skipLine.At source (Scalar.lineEnd source pos)
      rw [Scalar.lineEnd_eq h.le, ← h.rest_eq]
      exact h.skip (lineLength_le _)
    | skipBlock =>
      refine ⟨c.skipBlock.2, ?_, ?_⟩
      · show some (CursorAnswer.lines c.skipBlock.1, c.skipBlock.2)
          = some (.lines (((source.take (Scalar.blockEnd source pos)).drop
            pos).count lineFeed), c.skipBlock.2)
        rw [Scalar.blockEnd_eq h.le, ← List.take_drop, ← h.rest_eq]
        rfl
      · show c.skipBlock.2.At source (Scalar.blockEnd source pos)
        rw [Scalar.blockEnd_eq h.le, ← h.rest_eq]
        exact h.skip (blockLength_le _)

end Cursor

/-! ## What a source is read as -/

/-- **A source read by some operations**: what is seen of it at first and
after each, in memory and with a cursor, and where this is in the source. -/
structure ReadsAs (search : ByteSearch) (source : List UInt8)
    (ops : List CursorOp) (trace : List (CursorAnswer × CursorView)) :
    Prop where
  /-- In memory nothing is read out of bounds, and this is seen. -/
  buffer : ((Buffer.ofSource source).cursor?.bind fun c =>
    (BufferCursor.reader search).trace? .moved c ops) = some trace
  /-- A cursor in the bytes shows the same. -/
  cursor : Cursor.reader.trace? .moved (Cursor.ofBytes source) ops
    = some trace
  /-- No position is before an earlier one. -/
  forward : trace.Pairwise fun a b => a.2.pos ≤ b.2.pos
  within : ∀ seen ∈ trace, seen.2.pos ≤ source.length
  current : ∀ seen ∈ trace, seen.2.current = source[seen.2.pos]?.getD 0
  isAtEnd : ∀ seen ∈ trace,
    seen.2.isAtEnd = true ↔ seen.2.pos = source.length

/-- **A source that a buffer holds is read by position**, whatever operations
read it, if the searches find what is first. In particular nothing is read out
of bounds and no position passes over 32 bits, as the answers would then be
missing. -/
theorem Buffer.readsAs (source : List UInt8) (ops : List CursorOp)
    {search : ByteSearch} (hlength : source.length ≤ capacity)
    (hsearch : search.Reliable) :
    ReadsAs search source ops (Scalar.trace source .moved 0 ops) := by
  have hseen := Scalar.mem_trace (Nat.zero_le source.length) .moved ops
  obtain ⟨c, hcursor, hat⟩ := at_cursor? hlength
  refine ⟨?_, ?_, Scalar.pairwise_trace (Nat.zero_le _) _ _,
    fun seen h => (hseen seen h).2.1, fun seen h => ?_, fun seen h => ?_⟩
  · rw [hcursor]
    exact (BufferCursor.keepsTo hsearch).trace?_eq hat .moved ops
  · exact Cursor.keepsTo.trace?_eq ⟨rfl, rfl⟩ .moved ops
  · exact congrArg CursorView.current (hseen seen h).2.2
  · rw [(hseen seen h).2.2]
    exact decide_eq_true_iff

/-- A zero byte is not the end, and a comment that closes with the source is
skipped to the end of it. -/
theorem Buffer.readsAs_closing_at_end :
    [0x61, 0x0A, 0x00, 0x0A, 0x2A, 0x2F].length ≤ capacity
      ∧ ByteSearch.scan.Reliable
      ∧ ReadsAs .scan [0x61, 0x0A, 0x00, 0x0A, 0x2A, 0x2F]
        [.skipLine, .bump, .skipBlock, .bump, .sliceFrom 4, .sliceFrom 9]
        [(.moved, ⟨0, 0x61, false⟩),
          (.moved, ⟨1, 0x0A, false⟩),
          (.byte (some 0x0A), ⟨2, 0x00, false⟩),
          (.lines 1, ⟨6, 0x00, true⟩),
          (.byte none, ⟨6, 0x00, true⟩),
          (.bytes [0x2A, 0x2F], ⟨6, 0x00, true⟩),
          (.bytes [], ⟨6, 0x00, true⟩)] :=
  ⟨by decide, ByteSearch.scan_reliable,
    readsAs _ _ (by decide) ByteSearch.scan_reliable⟩

end FlatC
