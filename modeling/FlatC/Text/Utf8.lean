/-!
# Reading UTF-8 that may be broken

C source is bytes; what ends up in a token is text. `decode` reads bytes
as UTF-8 and never fails: each **maximal part** of the input that starts
like a character but cannot be completed to one, and each byte that
starts no character at all, is written as one replacement character.

The reader is a machine over bytes. Between characters nothing is owed;
inside one it holds the bits read so far, how many bytes are still owed,
and the range the next one has to lie in. That range is narrower after
the lead bytes `E0`, `ED`, `F0` and `F4`, which is what keeps overlong
forms, surrogates and numbers past the last code point out.
-/

namespace FlatC.Utf8

/-- The character a broken part is written as, of three bytes itself. -/
def replacement : Char := Char.ofNat 0xFFFD

/-- **An unfinished character**: the bits read so far, the bytes still owed,
and the range of the next one. Only for the second byte of a character is the
range narrower than that of all bytes that go on with one. -/
structure Partial where
  bits : Nat
  owed : Nat
  low : UInt8
  high : UInt8
  deriving DecidableEq, Repr

/-- What a byte met between characters means. It is decided without looking
ahead. -/
inductive Lead where
  /-- A character by itself. -/
  | single (c : Char)
  /-- The first byte of a longer one. -/
  | opens (rest : Partial)
  /-- A byte no character starts with. -/
  | broken
  deriving DecidableEq, Repr

/-- The meaning of a byte met between characters. Bytes that only go on with a
character start none, and neither do `0xC0`, `0xC1` and those from `0xF5`
up. -/
def lead (b : UInt8) : Lead :=
  if b < 0x80 then .single (Char.ofNat b.toNat)
  else if b < 0xC2 then .broken
  else if b < 0xE0 then .opens ⟨b.toNat - 0xC0, 1, 0x80, 0xBF⟩
  else if b == 0xE0 then .opens ⟨0, 2, 0xA0, 0xBF⟩
  else if b == 0xED then .opens ⟨0xD, 2, 0x80, 0x9F⟩
  else if b < 0xF0 then .opens ⟨b.toNat - 0xE0, 2, 0x80, 0xBF⟩
  else if b == 0xF0 then .opens ⟨0, 3, 0x90, 0xBF⟩
  else if b < 0xF4 then .opens ⟨b.toNat - 0xF0, 3, 0x80, 0xBF⟩
  else if b == 0xF4 then .opens ⟨4, 3, 0x80, 0x8F⟩
  else .broken

/-- The characters of some bytes, read from inside an unfinished character or
from between two. A byte out of range ends the unfinished part and is read
again as a first byte, so it can start a character of its own. -/
def decodeFrom : Option Partial → List UInt8 → List Char
  | none, [] => []
  | some _, [] => [replacement]
  | none, b :: bytes =>
    match lead b with
    | .single c => c :: decodeFrom none bytes
    | .opens p => decodeFrom (some p) bytes
    | .broken => replacement :: decodeFrom none bytes
  | some p, b :: bytes =>
    if p.low ≤ b && b ≤ p.high then
      let bits := p.bits * 64 + (b.toNat - 0x80)
      if p.owed ≤ 1 then Char.ofNat bits :: decodeFrom none bytes
      else decodeFrom (some ⟨bits, p.owed - 1, 0x80, 0xBF⟩) bytes
    else
      -- the byte is not the one owed, so it is met between characters
      match lead b with
      | .single c => replacement :: c :: decodeFrom none bytes
      | .opens q => replacement :: decodeFrom (some q) bytes
      | .broken => replacement :: replacement :: decodeFrom none bytes

/-- **The text of some bytes.** Nothing is ever refused, and bytes that are
UTF-8 are read as what they are. -/
def decode (bytes : List UInt8) : String :=
  String.ofList (decodeFrom none bytes)

@[simp] theorem decodeFrom_nil : decodeFrom none [] = [] := rfl

/-- An ASCII byte is read as the character of its number. This is all that is
needed of the reader where a source is plain C. -/
theorem decodeFrom_ascii {b : UInt8} (bytes : List UInt8) (h : b < 0x80) :
    decodeFrom none (b :: bytes)
      = Char.ofNat b.toNat :: decodeFrom none bytes := by
  simp [decodeFrom, lead, h]

end FlatC.Utf8
