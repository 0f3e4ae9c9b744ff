import FlatC.Proofs.Source.Spacing
import FlatC.Proofs.Text.Numeral

/-!
# Plain sources

A source is **plain** if it has no `#` and no quote. Whatever else it has –
bytes outside ASCII, words that go on beyond what is kept, hexadecimal
literals, comments – it is cut into words, symbols and comments, and what a
word or a symbol is spelled as is a lexeme again, as it stands
(`Lexeme.lexical_of_plain`). A word loses what is not ASCII, is cut to its
length and is made decimal, and to what is left of it all this would do
nothing.
-/

namespace FlatC

open Utf8 (decode)

variable {b : UInt8} {bytes : List UInt8}

/-- **The bytes of a plain source**: no `#` and no quote among them. So no
directive and no literal begins anywhere in it. -/
def Plain (bytes : List UInt8) : Prop :=
  ∀ b ∈ bytes, b ≠ Lexeme.hash ∧ b ≠ Lexeme.singleQuote
    ∧ b ≠ Lexeme.doubleQuote

instance (bytes : List UInt8) : Decidable (Plain bytes) :=
  inferInstanceAs (Decidable (∀ b ∈ bytes, b ≠ Lexeme.hash
    ∧ b ≠ Lexeme.singleQuote ∧ b ≠ Lexeme.doubleQuote))

/-- What is held of a plain source is plain. -/
theorem Plain.held (h : Plain bytes) : Plain (Buffer.held bytes) :=
  fun b hb => h b (List.mem_of_mem_take hb)

/-- What is left of a plain source is plain. -/
theorem Plain.drop (h : Plain bytes) (n : Nat) : Plain (bytes.drop n) :=
  fun b hb => h b (List.mem_of_mem_drop hb)

namespace Utf8

/-- Bytes of ASCII are read one by one, each as the character with its number. -/
theorem decode_ascii (h : ∀ b ∈ bytes, b < 0x80) :
    decode bytes
      = String.ofList (bytes.map fun b => Char.ofNat b.toNat) := by
  refine congrArg String.ofList ?_
  induction bytes with
  | nil => rfl
  | cons b bytes ih =>
    rw [decodeFrom_ascii bytes (h b List.mem_cons_self),
      ih fun a ha => h a (List.mem_cons_of_mem b ha)]
    rfl

end Utf8

namespace Numeral

/-- **A number is a lexeme** as it is written, unless it is enormous: with 20
digits at most it fits into a word. -/
theorem lexical_text {n : Nat} (h : n ≤ maxWord64) : Lexical (text n) := by
  have hmark : ∀ {c : Char}, c.isDigit = false → c ∉ (text n).toList :=
    fun hc hmem => Bool.eq_false_iff.mp hc (isDigit_of_mem_text hmem)
  refine .word ?_ ?_ ?_ ?_ ?_ ?_
  · exact fun hnil => Nat.toDigits_ne_nil (String.ofList_eq_empty_iff.mp hnil)
  · exact Nat.le_trans (length_text_le h) (by decide)
  · rw [List.all_eq_true]
    intro c hc
    have hall : ∀ m < 0x3A, 0x30 ≤ m →
        Lexeme.isWordChar (Char.ofNat m) = true := by
      decide +kernel
    obtain ⟨hle, hge⟩ := toNat_of_isDigit (isDigit_of_mem_text hc)
    rw [← Char.ofNat_toNat c]
    exact hall _ (by omega) hle
  · exact fun hp => hmark (c := '#') (by decide) (hp.subset (by simp))
  · exact fun hp => hmark (c := 'x') (by decide) (hp.subset (by simp))
  · exact fun hp => hmark (c := 'X') (by decide) (hp.subset (by simp))

end Numeral

/-- What a literal is respelled as is a lexeme, since it is a number below
2⁶⁴. -/
theorem Hex.lexical_of_toDecimal? {text decimal : String}
    (h : Hex.toDecimal? text = some decimal) : Lexical decimal := by
  obtain ⟨digits, -, rfl⟩ := Option.map_eq_some_iff.mp h
  refine Numeral.lexical_text ?_
  rw [Numeral.capped_eq_min _ _ _ (by decide)]
  exact Nat.min_le_left _ _

/-- What a literal is respelled as is no name, so no macro and no typedef is
looked up for it. -/
theorem Hex.isName_of_toDecimal? {text decimal : String}
    (h : Hex.toDecimal? text = some decimal) :
    Token.isName decimal = false := by
  obtain ⟨digits, -, rfl⟩ := Option.map_eq_some_iff.mp h
  exact Numeral.isName_text _

/-- A text that is no hexadecimal literal has no mark; the mark alone makes it
one. -/
theorem Hex.of_toDecimal?_eq_none {text : String}
    (h : Hex.toDecimal? text = none) :
    ¬ ['0', 'x'] <+: text.toList ∧ ¬ ['0', 'X'] <+: text.toList := by
  have hnone := Option.map_eq_none_iff.mp h
  constructor
  all_goals
    rintro ⟨digits, hdigits⟩
    rw [← hdigits] at hnone
    cases hnone

namespace Lexeme

/-- The characters of the bytes that may stand in a word are those that may
stand in a lexeme. -/
theorem of_isWordByte (h : isWordByte b = true) :
    b < 0x80 ∧ isWordChar (Char.ofNat b.toNat) = true
      ∧ (b ≠ hash → Char.ofNat b.toNat ≠ '#') := by
  revert h
  refine forall_byte (P := fun b => isWordByte b = true →
    b < 0x80 ∧ isWordChar (Char.ofNat b.toNat) = true
      ∧ (b ≠ hash → Char.ofNat b.toNat ≠ '#')) ?_ b
  decide +kernel

/-- The characters of the bytes of symbols are symbols. -/
theorem of_isSymbol (h : isSymbol b = true) :
    b < 0x80 ∧ Char.ofNat b.toNat ∈ symbols := by
  revert h
  refine forall_byte (P := fun b => isSymbol b = true →
    b < 0x80 ∧ Char.ofNat b.toNat ∈ symbols) ?_ b
  decide +kernel

/-- **A word is spelled as a lexeme**, respelled or as it stands. What is
respelled becomes a number, and what is not has no mark. -/
theorem lexical_spelled_word {ws : List UInt8} (hne : ws ≠ [])
    (hlen : ws.length ≤ maxLength)
    (h : ∀ b ∈ ws, isWordByte b = true ∧ b ≠ hash) :
    Lexical ((Hex.toDecimal? (decode ws)).getD (decode ws)) := by
  cases hhex : Hex.toDecimal? (decode ws) with
  | some decimal => exact Hex.lexical_of_toDecimal? hhex
  | none =>
    have htext := Utf8.decode_ascii fun b hb => (of_isWordByte (h b hb).1).1
    obtain ⟨hx, hX⟩ := Hex.of_toDecimal?_eq_none hhex
    refine .word ?_ ?_ ?_ ?_ hx hX <;> rw [Option.getD_none, htext]
    · simpa using hne
    · simpa using hlen
    · rw [String.toList_ofList, List.all_map, List.all_eq_true]
      exact fun b hb => (of_isWordByte (h b hb).1).2.1
    · rw [String.toList_ofList]
      intro hp
      obtain ⟨b, hb, hchar⟩ := List.mem_map.mp (hp.subset List.mem_cons_self)
      exact (of_isWordByte (h b hb).1).2.2 (h b hb).2 hchar

/-- **What a plain source is cut into**: words that are spelled as lexemes
again, symbols, and comments. The other kinds of lexemes begin with a byte
that a plain source does not have. -/
theorem cases_of_plain (h : Plain bytes) {l : Located}
    (hl : l ∈ lexemes bytes) :
    (∃ text, l.lexeme = .word text
        ∧ Lexical ((Hex.toDecimal? text).getD text))
      ∨ (∃ c ∈ symbols, l.lexeme = .symbol (String.ofList [c]))
      ∨ ∃ text, l.lexeme = .comment text := by
  have hplain := h.drop l.start
  have hstands := standsAt_of_mem_lexemes hl
  generalize l.lexeme = lexeme at hstands ⊢
  generalize bytes.drop l.start = ahead at hstands hplain
  cases hstands with
  | @word b rest hbegins =>
    refine .inl ⟨_, rfl, lexical_spelled_word ?_ ?_ fun a ha => ?_⟩
    · rw [List.filter_cons_of_pos (Bool.and_eq_true_iff.mp hbegins).1,
        maxLength, List.take_succ_cons]
      exact List.cons_ne_nil _ _
    · exact List.length_take_le _ _
    · obtain ⟨hmem, hword⟩ := List.mem_filter.mp (List.mem_of_mem_take ha)
      refine ⟨hword, (hplain a ?_).1⟩
      rcases List.mem_cons.mp hmem with rfl | hmem
      · exact List.mem_cons_self
      · exact List.mem_cons_of_mem b
          ((List.takeWhile_prefix _).subset hmem)
  | symbol rest hsymbol =>
    obtain ⟨hascii, hmem⟩ := of_isSymbol hsymbol
    refine .inr (.inl ⟨_, hmem, congrArg Lexeme.symbol ?_⟩)
    exact Utf8.decode_ascii fun a ha => List.mem_singleton.mp ha ▸ hascii
  | character => exact absurd rfl (hplain _ List.mem_cons_self).2.1
  | string => exact absurd rfl (hplain _ List.mem_cons_self).2.2
  | directive => exact absurd rfl (hplain _ List.mem_cons_self).1
  | comment => exact .inr (.inr ⟨_, rfl⟩)

/-- **What is spelled in a plain source is a lexeme again**, so writing the
texts down and reading them gives the same texts. -/
theorem lexical_of_plain (h : Plain bytes) {l : Located}
    (hl : l ∈ lexemes bytes) {text : String}
    (htext : l.lexeme.spelled? = some text) : Lexical text := by
  rcases cases_of_plain h hl with ⟨raw, hraw, hlexical⟩ | ⟨c, hc, hraw⟩
    | ⟨raw, hraw⟩
  · rw [hraw] at htext
    exact Option.some.inj htext ▸ hlexical
  · have hlexical := Lexical.symbol hc
    rw [hraw, spelled?, token?, Option.map_some,
      hlexical.toDecimal?_eq_none.2] at htext
    exact Option.some.inj htext ▸ hlexical
  · rw [hraw] at htext
    cases htext

/-- **What is spelled as a name is that word.** A number is not, nor is a
symbol, so a name in the output was a word in the source, as it stands. -/
theorem eq_word_of_isName (h : Plain bytes) {l : Located}
    (hl : l ∈ lexemes bytes) {text : String}
    (htext : l.lexeme.spelled? = some text)
    (hname : Token.isName text = true) : l.lexeme = .word text := by
  rcases cases_of_plain h hl with ⟨raw, hraw, -⟩ | ⟨c, hc, hraw⟩
    | ⟨raw, hraw⟩
  · rw [hraw, spelled?, token?, Option.map_some] at htext
    cases hhex : Hex.toDecimal? raw with
    | none =>
      rw [hhex] at htext
      rw [hraw, ← Option.some.inj htext]
      rfl
    | some decimal =>
      rw [hhex] at htext
      obtain rfl : decimal = text := Option.some.inj htext
      rw [Hex.isName_of_toDecimal? hhex] at hname
      cases hname
  · have hall : symbols.all (fun c => !Token.isName (String.ofList [c]))
        = true := by
      decide
    have hsymbol := List.all_eq_true.mp hall c hc
    rw [hraw, spelled?, token?, Option.map_some,
      (Lexical.symbol hc).toDecimal?_eq_none.2] at htext
    obtain rfl : String.ofList [c] = text := Option.some.inj htext
    rw [hname] at hsymbol
    cases hsymbol
  · rw [hraw] at htext
    cases htext

end Lexeme

end FlatC
