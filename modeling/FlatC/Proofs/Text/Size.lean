import Mathlib.Algebra.Group.Nat.Defs
import FlatC.Proofs.Text.Numeral
import FlatC.Text.Utf8

/-!
# How long texts are

The length of a text is that of its UTF-8, in bytes. A number below 2⁶⁴ has at
most 20 of them. What is read from bytes need not be as long as these are:
each broken part is written as a character of three bytes, and has at least
one. So a text is at most three times as long as the bytes it is read from
(`Utf8.utf8ByteSize_decode_le`), and no longer than they are if nothing in it
was broken (`Utf8.utf8ByteSize_decode_le_of_notMem`).

A character that is read has no more bytes than were read for it, as the bits
that so many bytes hold are those of no longer character.
-/

namespace FlatC

/-- How long some characters are, in bytes. -/
def charsSize (cs : List Char) : Nat := (String.ofList cs).utf8ByteSize

/-- No characters are no bytes. -/
@[simp] theorem charsSize_nil : charsSize [] = 0 := rfl

/-- One more character adds its bytes. -/
@[simp] theorem charsSize_cons (c : Char) (cs : List Char) :
    charsSize (c :: cs) = c.utf8Size + charsSize cs := by
  rw [charsSize, String.ofList_cons, String.utf8ByteSize_append,
    String.utf8ByteSize_singleton]
  rfl

/-- The characters of a text are as long as it is. -/
theorem charsSize_toList (text : String) :
    charsSize text.toList = text.utf8ByteSize := by
  rw [charsSize, String.ofList_toList]

/-- Equal characters are so many times as long as one. -/
theorem charsSize_replicate (n : Nat) (c : Char) :
    charsSize (List.replicate n c) = n * c.utf8Size := by
  induction n with
  | zero => rw [List.replicate_zero, charsSize_nil, Nat.zero_mul]
  | succ n ih =>
    rw [List.replicate_succ, charsSize_cons, ih, Nat.succ_mul, Nat.add_comm]

/-! ## Characters -/

namespace Utf8

variable {c : Char} {bits n : Nat} {b : UInt8} {p : Partial}

/-- **A character whose number has few bits has few bytes**: in several bytes
there are five bits for each of them and one more, and in a single byte there
are more than these. -/
theorem utf8Size_le (hn : 0 < n) (hle : n ≤ 4)
    (h : c.toNat < 2 ^ (5 * n + 1)) : c.utf8Size ≤ n := by
  have hsize : c.utf8Size
      = if c.toNat ≤ 0x7F then 1 else if c.toNat ≤ 0x7FF then 2
        else if c.toNat ≤ 0xFFFF then 3 else 4 := by
    unfold Char.utf8Size
    simp only [UInt32.le_iff_toNat_le]
    rfl
  rw [hsize]
  obtain rfl | rfl | rfl | rfl : n = 1 ∨ n = 2 ∨ n = 3 ∨ n = 4 := by omega
  all_goals
    simp only [Nat.reduceMul, Nat.reduceAdd, Nat.reducePow] at h
    split
    · omega
    split
    · omega
    split <;> omega

/-- A number that is none of a character stands for the first one, which is no
larger. -/
theorem toNat_ofNat_le (k : Nat) : (Char.ofNat k).toNat ≤ k := by
  by_cases h : k.isValidChar
  · have hvalid : Char.ofNat k = Char.ofNatAux k h := dif_pos h
    rw [hvalid]
    exact Nat.le_refl k
  · have hzero : Char.ofNat k = ⟨0, .inl (by decide)⟩ := dif_neg h
    rw [hzero]
    exact Nat.zero_le k

/-- A number of few bits makes a character of few bytes, one of a character or
not. -/
theorem utf8Size_ofNat_le (hn : 0 < n) (hle : n ≤ 4)
    (h : bits < 2 ^ (5 * n + 1)) : (Char.ofNat bits).utf8Size ≤ n :=
  utf8Size_le hn hle (Nat.lt_of_le_of_lt (toNat_ofNat_le bits) h)

/-! ## Unfinished characters -/

/-- **An unfinished character of `n` bytes**: those that have been read hold
no more bits than they can. -/
structure Partial.Of (p : Partial) (n : Nat) : Prop where
  owed_pos : 0 < p.owed
  owed_lt : p.owed < n
  le_four : n ≤ 4
  high : p.high.toNat ≤ 0xBF
  bits : p.bits < 2 ^ (5 * n + 1 - 6 * p.owed)

/-- The first byte of a character holds six bits less one for each byte that
is owed, as the others tell how many are. -/
theorem Partial.of_first {owed : Nat} {low high : UInt8} (hpos : 0 < owed)
    (hlt : owed < 4) (hhigh : high.toNat ≤ 0xBF) (h : bits < 2 ^ (6 - owed)) :
    Of ⟨bits, owed, low, high⟩ (owed + 1) where
  owed_pos := hpos
  owed_lt := Nat.lt_succ_self owed
  le_four := hlt
  high := hhigh
  bits := by
    have hexp : 5 * (owed + 1) + 1 - 6 * owed = 6 - owed := by omega
    rw [hexp]
    exact h

/-- A byte that opens a character is its first. The three kinds of such bytes
are told apart by their ranges. -/
theorem of_lead (h : lead b = .opens p) : p.Of (p.owed + 1) := by
  have hlt : ∀ {c : UInt8}, b < c → b.toNat < c.toNat :=
    UInt8.lt_iff_toNat_lt.mp
  have hfirst : ∀ {k m : Nat} {c : UInt8}, b < c → c.toNat - m ≤ k → 0 < k →
      b.toNat - m < k := by
    intro k m c hb hk hpos
    have := hlt hb
    omega
  unfold lead at h
  split at h
  · cases h
  split at h
  · cases h
  split at h
  · next hb =>
    obtain rfl := Lead.opens.inj h
    exact Partial.of_first (by decide) (by decide) (by decide)
      (hfirst hb (by decide) (by decide))
  split at h
  · cases h
    exact Partial.of_first (by decide) (by decide) (by decide) (by decide)
  split at h
  · cases h
    exact Partial.of_first (by decide) (by decide) (by decide) (by decide)
  split at h
  · next hb =>
    obtain rfl := Lead.opens.inj h
    exact Partial.of_first (by decide) (by decide) (by decide)
      (hfirst hb (by decide) (by decide))
  split at h
  · cases h
    exact Partial.of_first (by decide) (by decide) (by decide) (by decide)
  split at h
  · next hb =>
    obtain rfl := Lead.opens.inj h
    exact Partial.of_first (by decide) (by decide) (by decide)
      (hfirst hb (by decide) (by decide))
  split at h
  · cases h
    exact Partial.of_first (by decide) (by decide) (by decide) (by decide)
  · cases h

namespace Partial.Of

/-- The bits of an unfinished character and a byte that is owed, which holds
six of them, are no more than the bytes can hold. -/
theorem bits_lt (h : p.Of n) (hb : b ≤ p.high) :
    p.bits * 64 + (b.toNat - 0x80) < 2 ^ (5 * n + 1 - 6 * (p.owed - 1)) := by
  obtain ⟨hpos, hlt, hle, hhigh, hbits⟩ := h
  have hsix := Nat.le_trans (UInt8.le_iff_toNat_le.mp hb) hhigh
  have hexp : 5 * n + 1 - 6 * (p.owed - 1) = 5 * n + 1 - 6 * p.owed + 6 := by
    omega
  rw [hexp, Nat.pow_add]
  omega

/-- A byte that is owed is read, and the character is as long as before, with
one byte less owed. -/
theorem next (h : p.Of n) (hb : b ≤ p.high) (howed : ¬ p.owed ≤ 1) :
    Of ⟨p.bits * 64 + (b.toNat - 0x80), p.owed - 1, 0x80, 0xBF⟩ n where
  owed_pos := show 0 < p.owed - 1 by omega
  owed_lt := show p.owed - 1 < n from by
    have := h.owed_lt
    omega
  le_four := h.le_four
  high := Nat.le_refl 0xBF
  bits := h.bits_lt hb

/-- The last byte that is owed finishes a character that is no longer than the
bytes it was read from. -/
theorem last (h : p.Of n) (hb : b ≤ p.high) (howed : p.owed ≤ 1) :
    (Char.ofNat (p.bits * 64 + (b.toNat - 0x80))).utf8Size ≤ n := by
  have hbits := h.bits_lt hb
  rw [Nat.sub_eq_zero_of_le howed] at hbits
  exact utf8Size_ofNat_le (Nat.lt_of_le_of_lt (Nat.zero_le _) h.owed_lt)
    h.le_four hbits

end Partial.Of

/-! ## Texts -/

/-- How many bytes a character is read from at least. What is written for
broken bytes may come from a single one, though it has three. -/
def leastRead (c : Char) : Nat := if c = replacement then 1 else c.utf8Size

/-- How many bytes some characters are read from at least. -/
def leastBytes : List Char → Nat
  | [] => 0
  | c :: cs => leastRead c + leastBytes cs

/-- One more character is read from so many more bytes. -/
@[simp] theorem leastBytes_cons (c : Char) (cs : List Char) :
    leastBytes (c :: cs) = leastRead c + leastBytes cs := rfl

/-- A character has no fewer bytes than it may be read from. -/
theorem leastRead_le (c : Char) : leastRead c ≤ c.utf8Size := by
  unfold leastRead
  split
  · exact c.utf8Size_pos
  · exact Nat.le_refl _

/-- A character has at most three times as many bytes as it is read from. -/
theorem utf8Size_le_leastRead (c : Char) : c.utf8Size ≤ 3 * leastRead c := by
  unfold leastRead
  split
  · next h =>
    rw [h]
    decide
  · omega

/-- Some characters have at most three times as many bytes as they are read
from. -/
theorem charsSize_le (cs : List Char) : charsSize cs ≤ 3 * leastBytes cs := by
  induction cs with
  | nil => exact Nat.zero_le _
  | cons c cs ih =>
    have hc := utf8Size_le_leastRead c
    rw [charsSize_cons, leastBytes_cons]
    omega

/-- Where nothing was broken, they have just as many. -/
theorem charsSize_of_notMem {cs : List Char} (h : replacement ∉ cs) :
    charsSize cs = leastBytes cs := by
  induction cs with
  | nil => rfl
  | cons c cs ih =>
    rw [List.mem_cons, not_or] at h
    rw [charsSize_cons, ih h.2, leastBytes_cons, leastRead,
      if_neg (Ne.symm h.1)]

/-- A byte that is a character by itself is enough for it. -/
theorem leastRead_of_lead {c : Char} (h : lead b = .single c) :
    leastRead c ≤ 1 := by
  refine Nat.le_trans (leastRead_le c) ?_
  unfold lead at h
  split at h
  · next hb =>
    obtain rfl := Lead.single.inj h
    have hlt : b.toNat < 0x80 := UInt8.lt_iff_toNat_lt.mp hb
    refine Nat.le_of_eq (Char.utf8Size_eq_one_iff.mpr ?_)
    rw [UInt32.le_iff_toNat_le]
    exact Nat.le_trans (toNat_ofNat_le b.toNat) (Nat.le_of_lt_succ hlt)
  · repeat' split at h
    all_goals cases h

/-- **What is read of some bytes** is read from no more than these. Between
characters and inside of one is proved in one induction; inside, the bytes
that the unfinished one has had count too. -/
theorem leastBytes_decodeFrom_le (bytes : List UInt8) :
    leastBytes (decodeFrom none bytes) ≤ bytes.length
      ∧ ∀ p n, Partial.Of p n →
        leastBytes (decodeFrom (some p) bytes) ≤ n - p.owed + bytes.length := by
  have hbroken : leastRead replacement = 1 := rfl
  induction bytes with
  | nil =>
    refine ⟨Nat.le_refl 0, fun p n h => ?_⟩
    have := h.owed_lt
    rw [decodeFrom, leastBytes_cons, hbroken]
    show 1 + 0 ≤ n - p.owed + 0
    omega
  | cons b bytes ih =>
    obtain ⟨hnone, hsome⟩ := ih
    rw [List.length_cons]
    constructor
    · rw [decodeFrom]
      split
      · next c hlead =>
        have := leastRead_of_lead hlead
        rw [leastBytes_cons]
        omega
      · next p hlead =>
        have := hsome p _ (of_lead hlead)
        omega
      · rw [leastBytes_cons]
        omega
    · intro p n h
      have hlt := h.owed_lt
      have hpos := h.owed_pos
      rw [decodeFrom]
      split
      -- the byte is owed, and may be the last one
      · next hrange =>
        rw [Bool.and_eq_true, decide_eq_true_eq, decide_eq_true_eq] at hrange
        dsimp only
        split
        · next howed =>
          have := Nat.le_trans (leastRead_le _) (h.last hrange.2 howed)
          rw [leastBytes_cons]
          omega
        · next howed =>
          have := hsome _ n (h.next hrange.2 howed)
          dsimp only at this
          omega
      · split
        · next c hlead =>
          have := leastRead_of_lead hlead
          rw [leastBytes_cons, leastBytes_cons]
          omega
        · next q hlead =>
          have := hsome q _ (of_lead hlead)
          rw [leastBytes_cons]
          omega
        · rw [leastBytes_cons, leastBytes_cons]
          omega

/-- **A text is at most three times as long as the bytes it is read from.**
The bound is met by bytes that are all broken by themselves. -/
theorem utf8ByteSize_decode_le (bytes : List UInt8) :
    (decode bytes).utf8ByteSize ≤ 3 * bytes.length :=
  Nat.le_trans (charsSize_le _)
    (Nat.mul_le_mul_left 3 (leastBytes_decodeFrom_le bytes).1)

/-- **A text in which nothing was broken is no longer than its bytes.** That
nothing was is seen from the text: the sign for what was broken is not in it. -/
theorem utf8ByteSize_decode_le_of_notMem {bytes : List UInt8}
    (h : replacement ∉ (decode bytes).toList) :
    (decode bytes).utf8ByteSize ≤ bytes.length := by
  rw [decode, String.toList_ofList] at h
  exact Nat.le_trans (Nat.le_of_eq (charsSize_of_notMem h))
    (leastBytes_decodeFrom_le bytes).1

end Utf8

/-! ## Numbers -/

namespace Numeral

/-- Each digit is one byte. -/
theorem charsSize_le_length {cs : List Char}
    (h : ∀ c ∈ cs, c.isDigit = true) : charsSize cs ≤ cs.length := by
  induction cs with
  | nil => exact Nat.le_refl 0
  | cons c cs ih =>
    obtain ⟨-, hle⟩ := toNat_of_isDigit (h c List.mem_cons_self)
    have hone : c.utf8Size ≤ 1 := Utf8.utf8Size_le (by decide) (by decide)
      (Nat.lt_of_le_of_lt hle (by decide))
    have hcs := ih fun d hd => h d (List.mem_cons_of_mem c hd)
    rw [charsSize_cons, List.length_cons]
    omega

/-- **A number below 2⁶⁴ has at most 20 bytes.** -/
theorem utf8ByteSize_text_le {n : Nat} (h : n ≤ maxWord64) :
    (text n).utf8ByteSize ≤ 20 :=
  Nat.le_trans (charsSize_toList (text n) ▸ charsSize_le_length
    fun _ hc => isDigit_of_mem_text hc) (length_text_le h)

end Numeral

end FlatC
