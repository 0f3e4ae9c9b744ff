import FlatC.Text.Utf8

/-!
# Reading what was written

A text written as UTF-8 is read back as it was, character by character
(`decode_encode`). The reader is stricter than it need be for that – it
keeps out overlong forms and surrogates by narrowing the range of the second
byte – and a character as it is written never runs into these bounds, since
its number would then be smaller, or a surrogate.
-/

namespace FlatC

/-- What holds of all bytes holds of a byte. With this a statement about bytes
is one about the numbers below 256, which can be tried out. -/
theorem forall_byte {P : UInt8 → Prop} (h : ∀ n < 256, P (UInt8.ofNat n))
    (b : UInt8) : P b := by
  have := h b.toNat b.toNat_lt
  rwa [UInt8.ofNat_toNat] at this

namespace Utf8

variable {c : Char} {bytes : List UInt8} {p : Partial} {n : Nat}

/-- **The bytes of a text**, character by character. -/
def encode (text : String) : List UInt8 :=
  text.toList.flatMap String.utf8EncodeChar

/-- These are the bytes the text is stored as, by the library. -/
theorem toList_toUTF8 (text : String) :
    text.toUTF8.data.toList = encode text := by
  have htext : text.toUTF8 = text.toList.utf8Encode := by
    rw [← String.toByteArray_ofList, String.ofList_toList]
    rfl
  rw [htext, List.utf8Encode, List.data_toByteArray]
  rfl

/-- The bytes of a text made of characters are those of the characters. -/
theorem encode_ofList (cs : List Char) :
    encode (String.ofList cs) = cs.flatMap String.utf8EncodeChar := by
  rw [encode, String.toList_ofList]

/-! ## ASCII -/

/-- A character of ASCII is one byte, its number. -/
theorem encodeChar_ascii (h : c.toNat < 0x80) :
    String.utf8EncodeChar c = [UInt8.ofNat c.toNat] := by
  have hc : c.val.toNat ≤ 127 := Nat.le_of_lt_succ h
  exact if_pos hc

/-- What holds of all ASCII characters holds of one, and can be tried out. -/
theorem forall_ascii {P : Char → Prop} (h : ∀ n < 0x80, P (Char.ofNat n))
    (hc : c.toNat < 0x80) : P c := by
  have := h c.toNat hc
  rwa [Char.ofNat_toNat] at this

/-- **The bytes of a character outside ASCII** are outside ASCII, so none of
them is taken for a quote, a blank or a letter. -/
theorem le_of_mem_encodeChar (h : 0x80 ≤ c.toNat) {b : UInt8}
    (hb : b ∈ String.utf8EncodeChar c) : 0x80 ≤ b := by
  have hhigh : ∀ n, 128 ≤ n → n < 256 → 0x80 ≤ UInt8.ofNat n := by
    intro n hn hlt
    have hnat : (UInt8.ofNat n).toNat = n := by
      rw [UInt8.toNat_ofNat']
      omega
    rw [UInt8.le_iff_toNat_le, hnat]
    exact hn
  have hval : ¬ c.val.toNat ≤ 127 := Nat.not_le.mpr h
  unfold String.utf8EncodeChar at hb
  extract_lets v at hb
  rw [if_neg hval] at hb
  split at hb
  · simp only [List.mem_cons, List.not_mem_nil, or_false] at hb
    rcases hb with rfl | rfl <;> exact hhigh _ (by omega) (by omega)
  split at hb
  · simp only [List.mem_cons, List.not_mem_nil, or_false] at hb
    rcases hb with rfl | rfl | rfl <;> exact hhigh _ (by omega) (by omega)
  · simp only [List.mem_cons, List.not_mem_nil, or_false] at hb
    rcases hb with rfl | rfl | rfl | rfl <;>
      exact hhigh _ (by omega) (by omega)

/-! ## Lead bytes -/

/-- What begins a character of two bytes. -/
theorem lead_two (h : 2 ≤ n) (h' : n < 32) :
    lead (UInt8.ofNat (n + 192)) = .opens ⟨n, 1, 0x80, 0xBF⟩ := by
  have hall : ∀ n < 32, 2 ≤ n →
      lead (UInt8.ofNat (n + 192)) = .opens ⟨n, 1, 0x80, 0xBF⟩ := by
    decide +kernel
  exact hall n h' h

/-- What begins a character of three bytes, and in which bounds the second one
has to be. -/
theorem lead_three (h : n < 16) :
    lead (UInt8.ofNat (n + 224))
      = .opens ⟨n, 2, if n = 0 then 0xA0 else 0x80,
        if n = 13 then 0x9F else 0xBF⟩ := by
  revert n
  decide +kernel

/-- What begins a character of four bytes, and in which bounds the second one
has to be. -/
theorem lead_four (h : n < 5) :
    lead (UInt8.ofNat (n + 240))
      = .opens ⟨n, 3, if n = 0 then 0x90 else 0x80,
        if n = 4 then 0x8F else 0xBF⟩ := by
  revert n
  decide +kernel

/-- A byte that opens a character is taken in, and the rest is read from
inside of it. -/
theorem decodeFrom_opens {b : UInt8} (h : lead b = .opens p)
    (bytes : List UInt8) :
    decodeFrom none (b :: bytes) = decodeFrom (some p) bytes := by
  rw [decodeFrom, h]

/-! ## The bytes after them -/

section Owed

variable {low high : UInt8} (hlow : low.toNat ≤ n + 128)
variable (hhigh : n + 128 ≤ high.toNat)
include hlow hhigh

/-- A byte that carries on a character, with the six bits it has, if its
bounds allow for it. -/
theorem inRange : (decide (low ≤ UInt8.ofNat (n + 128))
      && decide (UInt8.ofNat (n + 128) ≤ high)) = true
    ∧ (UInt8.ofNat (n + 128)).toNat - 0x80 = n := by
  have hn : (UInt8.ofNat (n + 128)).toNat = n + 128 := by
    rw [UInt8.toNat_ofNat']
    have := high.toNat_lt
    omega
  rw [Bool.and_eq_true, decide_eq_true_iff, decide_eq_true_iff,
    UInt8.le_iff_toNat_le, UInt8.le_iff_toNat_le, hn]
  exact ⟨⟨hlow, hhigh⟩, Nat.add_sub_cancel n 128⟩

/-- The last byte that is owed finishes the character, and what comes behind
is read by itself. -/
theorem decodeFrom_last (bits : Nat) (bytes : List UInt8) :
    decodeFrom (some ⟨bits, 1, low, high⟩) (UInt8.ofNat (n + 128) :: bytes)
      = Char.ofNat (bits * 64 + n) :: decodeFrom none bytes := by
  obtain ⟨hrange, hn⟩ := inRange hlow hhigh
  rw [decodeFrom, if_pos hrange, hn, if_pos (Nat.le_refl 1)]

/-- A byte that is owed, with more of them owed after it, adds six bits. -/
theorem decodeFrom_owed (bits owed : Nat) (bytes : List UInt8) :
    decodeFrom (some ⟨bits, owed + 2, low, high⟩)
        (UInt8.ofNat (n + 128) :: bytes)
      = decodeFrom (some ⟨bits * 64 + n, owed + 1, 0x80, 0xBF⟩) bytes := by
  obtain ⟨hrange, hn⟩ := inRange hlow hhigh
  rw [decodeFrom, if_pos hrange, hn, if_neg (by dsimp only; omega)]
  rfl

end Owed

/-! ## Characters -/

/-- Two bytes for a character are read as this character. -/
theorem decodeFrom_two (h : 0x7F < n) (h' : n ≤ 0x7FF)
    (bytes : List UInt8) :
    decodeFrom none (UInt8.ofNat (n / 64 % 32 + 192)
        :: UInt8.ofNat (n % 64 + 128) :: bytes)
      = Char.ofNat n :: decodeFrom none bytes := by
  have hbits : n / 64 % 32 * 64 + n % 64 = n := by omega
  rw [decodeFrom_opens (lead_two (by omega) (by omega)),
    decodeFrom_last (show 0x80 ≤ _ by omega) (show _ ≤ 0xBF by omega), hbits]

/-- Three bytes for a character. The second is not lower than it may be, as
the character would then have fewer bytes, nor higher, as it would then be a
surrogate. -/
theorem decodeFrom_three (h : 0x7FF < n) (h' : n ≤ 0xFFFF)
    (hvalid : n < 0xD800 ∨ 0xDFFF < n) (bytes : List UInt8) :
    decodeFrom none (UInt8.ofNat (n / 4096 % 16 + 224)
        :: UInt8.ofNat (n / 64 % 64 + 128) :: UInt8.ofNat (n % 64 + 128)
        :: bytes)
      = Char.ofNat n :: decodeFrom none bytes := by
  have hbits : (n / 4096 % 16 * 64 + n / 64 % 64) * 64 + n % 64 = n := by omega
  have hlow : (if n / 4096 % 16 = 0 then (0xA0 : UInt8) else 0x80).toNat
      ≤ n / 64 % 64 + 128 := by
    split
    · show 0xA0 ≤ _
      omega
    · show 0x80 ≤ _
      omega
  have hhigh : n / 64 % 64 + 128
      ≤ (if n / 4096 % 16 = 13 then (0x9F : UInt8) else 0xBF).toNat := by
    split
    · show _ ≤ 0x9F
      omega
    · show _ ≤ 0xBF
      omega
  rw [decodeFrom_opens (lead_three (by omega)),
    decodeFrom_owed hlow hhigh _ 0,
    decodeFrom_last (show 0x80 ≤ _ by omega) (show _ ≤ 0xBF by omega), hbits]

/-- Four bytes for a character. The second is in its bounds, as the
character would else have fewer bytes or be past the last one. -/
theorem decodeFrom_four (h : 0xFFFF < n) (h' : n < 0x110000)
    (bytes : List UInt8) :
    decodeFrom none (UInt8.ofNat (n / 262144 % 8 + 240)
        :: UInt8.ofNat (n / 4096 % 64 + 128)
        :: UInt8.ofNat (n / 64 % 64 + 128) :: UInt8.ofNat (n % 64 + 128)
        :: bytes)
      = Char.ofNat n :: decodeFrom none bytes := by
  have hbits : ((n / 262144 % 8 * 64 + n / 4096 % 64) * 64 + n / 64 % 64) * 64
      + n % 64 = n := by
    omega
  have hlow : (if n / 262144 % 8 = 0 then (0x90 : UInt8) else 0x80).toNat
      ≤ n / 4096 % 64 + 128 := by
    split
    · show 0x90 ≤ _
      omega
    · show 0x80 ≤ _
      omega
  have hhigh : n / 4096 % 64 + 128
      ≤ (if n / 262144 % 8 = 4 then (0x8F : UInt8) else 0xBF).toNat := by
    split
    · show _ ≤ 0x8F
      omega
    · show _ ≤ 0xBF
      omega
  rw [decodeFrom_opens (lead_four (by omega)),
    decodeFrom_owed hlow hhigh _ 1,
    decodeFrom_owed (show 0x80 ≤ _ by omega) (show _ ≤ 0xBF by omega) _ 0,
    decodeFrom_last (show 0x80 ≤ _ by omega) (show _ ≤ 0xBF by omega), hbits]

/-- **A character is read back** from the bytes it is written as, whatever
comes behind. One case for each number of bytes. -/
theorem decodeFrom_encodeChar (c : Char) (bytes : List UInt8) :
    decodeFrom none (String.utf8EncodeChar c ++ bytes)
      = c :: decodeFrom none bytes := by
  have hvalid : c.toNat < 0xD800 ∨ 0xDFFF < c.toNat ∧ c.toNat < 0x110000 :=
    c.valid
  have hc : Char.ofNat c.toNat = c := Char.ofNat_toNat c
  unfold String.utf8EncodeChar
  rw [show c.val.toNat = c.toNat from rfl]
  extract_lets v
  split
  · next h =>
    have hn : (UInt8.ofNat c.toNat).toNat = c.toNat := by
      rw [UInt8.toNat_ofNat']
      omega
    rw [List.cons_append, decodeFrom_ascii, hn, hc]
    · rfl
    · rw [UInt8.lt_iff_toNat_lt, hn]
      show _ < 0x80
      omega
  split
  · exact (decodeFrom_two (by omega) (by omega) bytes).trans (by rw [hc])
  split
  · exact (decodeFrom_three (by omega) (by omega) (by omega) bytes).trans
      (by rw [hc])
  · exact (decodeFrom_four (by omega) (by omega) bytes).trans (by rw [hc])

/-- **A text is read back** from its bytes, so nothing in it is broken. -/
theorem decode_encode (text : String) : decode (encode text) = text := by
  have hchars : ∀ cs : List Char,
      decodeFrom none (cs.flatMap String.utf8EncodeChar) = cs := by
    intro cs
    induction cs with
    | nil => rfl
    | cons c cs ih => rw [List.flatMap_cons, decodeFrom_encodeChar, ih]
  rw [decode, encode, hchars, String.ofList_toList]

/-- Texts with the same bytes are the same. -/
theorem encode_injective : Function.Injective encode :=
  Function.LeftInverse.injective decode_encode

end Utf8

end FlatC
