import FlatC.Macros
import FlatC.Proofs.Source.Lexemes
import FlatC.Proofs.Text.Utf8

/-!
# Lexemes spaced out

Texts that are lexemes as they stand, written one after another with blanks
between them, are cut apart at the blanks and nowhere else
(`Spaced.lexemesFrom`). Nothing that comes before a text matters to how it is
cut, and of what comes after it only that it is a blank or nothing. A
literal may hold what would end a word, begin a comment or be a directive;
it is passed over whole.

Quotes and backslashes are looked for in bytes, and a text is characters.
That makes no difference: the bytes of a character outside ASCII are outside
ASCII, so none of them is taken for a quote.
-/

namespace FlatC

open Utf8 (encode decode decode_encode)

/-! ## Texts that are lexemes -/

/-- **A character that may stand in a word**: printable ASCII, but no quote
and no symbol. A `#` is one, though no word begins with it. -/
def Lexeme.isWordChar (c : Char) : Bool :=
  0x21 ≤ c.toNat && c.toNat ≤ 0x7E && !symbols.contains c && c != '\''
    && c != '\x22'

/-- **The body of a string literal that is closed behind it**, given whether
a backslash escapes what it begins with: it has no quote that is not
escaped, and no backslash at its end that would escape one. -/
def Lexeme.closed : Bool → List Char → Bool
  | escaped, [] => !escaped
  | true, _ :: cs => closed false cs
  | false, c :: cs => c != '\x22' && closed (c == '\\') cs

/-- **A text that is a lexeme as it stands** and becomes a token as it stands.
So it is not too long, not a number that would be respelled, and a literal is
closed. -/
inductive Lexical : String → Prop
  | word {text : String} : text ≠ "" → text.length ≤ Lexeme.maxLength →
    text.toList.all Lexeme.isWordChar = true →
    ¬ ['#'] <+: text.toList → ¬ ['0', 'x'] <+: text.toList →
    ¬ ['0', 'X'] <+: text.toList → Lexical text
  | symbol {c : Char} : c ∈ Lexeme.symbols → Lexical (String.ofList [c])
  | string {body : List Char} : Lexeme.closed false body = true →
    (encode (String.ofList ('\x22' :: body))).length ≤ Lexeme.maxLength →
    Lexical (String.ofList ('\x22' :: body ++ ['\x22']))
  | character {c : Char} : c.toNat < 0x80 → c ≠ '\\' →
    Lexical (String.ofList ['\'', c, '\''])
  | escape {c : Char} : c.toNat < 0x80 →
    Lexical (String.ofList ['\'', '\\', c, '\''])

/-- Whether a byte is an ASCII blank, the line feed included. -/
def isGap (b : UInt8) : Bool := (0x09 ≤ b && b ≤ 0x0D) || b == 0x20

/-- **The bytes of texts spaced out**: each is followed by blanks, of which
there are some between one text and the next. There are none in front of the
first text, and behind the last one there may be none. -/
inductive Spaced : List String → List UInt8 → Prop
  | nil : Spaced [] []
  | cons {text : String} {gap : List UInt8} {texts : List String}
    {bytes : List UInt8} : gap.all isGap = true →
    (texts ≠ [] → gap ≠ []) → Spaced texts bytes →
    Spaced (text :: texts) (encode text ++ gap ++ bytes)

/-- Texts with blanks behind each, the last one included, are spaced out. -/
theorem spaced_of_gaps {spaced : List (String × List UInt8)}
    (h : spaced.all (fun p => !p.2.isEmpty && p.2.all isGap) = true) :
    Spaced (spaced.map Prod.fst)
      (spaced.flatMap fun p => encode p.1 ++ p.2) := by
  induction spaced with
  | nil => exact .nil
  | cons p spaced ih =>
    rw [List.all_cons, Bool.and_eq_true, Bool.and_eq_true] at h
    exact .cons h.1.2 (fun _ => by simpa using h.1.1) (ih h.2)

/-- The text of the token a lexeme becomes, as far as it becomes one by
itself. A directive and a comment become none by themselves, whatever else
they lead to. -/
def Lexeme.token? : Lexeme → Option String
  | word text => some text
  | symbol text => some text
  | character text => some text
  | string text => some text
  | directive _ => none
  | comment _ => none

/-- The text of that token where no macro is defined: hexadecimal literals are
made decimal. -/
def Lexeme.spelled? (lexeme : Lexeme) : Option String :=
  lexeme.token?.map fun text => (Hex.toDecimal? text).getD text

namespace Lexeme

variable {glued : Bool} {start : Nat} {b : UInt8} {c : Char}
variable {bytes more : List UInt8}

/-! ## Blanks -/

/-- **What a blank is not**, tried out for each of the 256 bytes. -/
theorem of_isGap (h : isGap b = true) :
    isWordByte b = false ∧ isHigh b = false ∧ isSymbol b = false ∧ b ≠ hash
      ∧ b ≠ slash ∧ b ≠ asterisk ∧ b ≠ singleQuote ∧ b ≠ doubleQuote := by
  revert h
  refine forall_byte (P := fun b => isGap b = true → isWordByte b = false
    ∧ isHigh b = false ∧ isSymbol b = false ∧ b ≠ hash ∧ b ≠ slash
    ∧ b ≠ asterisk ∧ b ≠ singleQuote ∧ b ≠ doubleQuote) ?_ b
  decide +kernel

/-- At a blank nothing is cut off, and behind it no word stands in front any
more. -/
theorem lexemesFrom_blank (h : isGap b = true) (glued : Bool) (start : Nat)
    (more : List UInt8) :
    lexemesFrom glued start (b :: more)
      = lexemesFrom false (start + 1) more := by
  obtain ⟨hword, -, hsymbol, hhash, -, -, hsingle, hdouble⟩ := of_isGap h
  have hbegins : beginsWord b = false := by
    rw [beginsWord, hword]
    rfl
  rw [lexemesFrom_cut hbegins]
  by_cases hfeed : b = lineFeed
  · subst hfeed
    rw [(Cuts.newline more).first_eq]
    rfl
  · rw [(Cuts.nothing more hhash hfeed hsingle hdouble hsymbol).first_eq]
    rfl

/-- Blanks are passed over, any number of them. Whether a word stands directly
in front afterwards is left open, as it matters to comments only. -/
theorem lexemesFrom_gap {gap : List UInt8} (h : gap.all isGap = true)
    (glued : Bool) (start : Nat) (more : List UInt8) :
    ∃ g, lexemesFrom glued start (gap ++ more)
      = lexemesFrom g (start + gap.length) more := by
  induction gap generalizing glued start with
  | nil => exact ⟨glued, rfl⟩
  | cons b gap ih =>
    rw [List.all_cons, Bool.and_eq_true] at h
    obtain ⟨g, hg⟩ := ih h.2 false (start + 1)
    refine ⟨g, ?_⟩
    rw [List.cons_append, lexemesFrom_blank h.1, hg,
      List.length_cons, Nat.add_assoc, Nat.add_comm 1]

/-! ## One lexeme -/

/-- Bytes behind a lexeme that is not run into: none, or a blank first. This
is what is asked of what comes behind a text. -/
def Apart (more : List UInt8) : Prop := ∀ b ∈ more.head?, isGap b = true

/-- A lexeme without its blanks is cut off whole, wherever it stands and
whatever comes behind, if that is apart. -/
def CutWhole (bytes : List UInt8) (lexeme : Lexeme) : Prop :=
  ∀ glued start more, Apart more →
    ∃ g, lexemesFrom glued start (bytes ++ more)
      = ⟨start, lexeme⟩ :: lexemesFrom g (start + bytes.length) more

/-- **A word is cut off whole** if what comes behind does not go on with it.
No byte of it is dropped, and none is beyond what is kept. -/
theorem lexemesFrom_whole_word (bytes : List UInt8)
    (hbegins : beginsWord b = true)
    (hword : ∀ a ∈ b :: bytes, isWordByte a = true)
    (hlen : (b :: bytes).length ≤ maxLength)
    (hmore : ∀ a ∈ more.head?, isWordByte a = false ∧ isHigh a = false)
    (glued : Bool) (start : Nat) :
    lexemesFrom glued start (b :: bytes ++ more)
      = ⟨start, .word (decode (b :: bytes))⟩
        :: lexemesFrom true (start + (b :: bytes).length) more := by
  have hrest : more.takeWhile (fun b => isWordByte b || isHigh b) = [] := by
    cases more with
    | nil => rfl
    | cons a more =>
      obtain ⟨ha, hhigh⟩ := hmore a rfl
      rw [List.takeWhile_cons_of_neg]
      simp [ha, hhigh]
  have hrun : wordRun (bytes ++ more) = bytes := by
    rw [wordRun, List.takeWhile_append_of_pos, hrest, List.append_nil]
    intro a ha
    rw [hword a (List.mem_cons_of_mem b ha)]
    rfl
  have htext : wordText (b :: bytes) = decode (b :: bytes) := by
    rw [wordText, List.filter_eq_self.mpr hword, List.take_of_length_le hlen]
  rw [List.cons_append, lexemesFrom_word hbegins, hrun, htext,
    List.drop_left, List.length_cons, Nat.add_assoc, Nat.add_comm 1]

/-- **A symbol is cut off by itself** unless it begins a comment, which only a
slash can with a slash or a star behind it. -/
theorem lexemesFrom_symbol (h : isSymbol b = true)
    (hmore : b = slash → ∀ a ∈ more.head?, a ≠ slash ∧ a ≠ asterisk)
    (glued : Bool) (start : Nat) :
    lexemesFrom glued start (b :: more)
      = ⟨start, .symbol (decode [b])⟩
        :: lexemesFrom false (start + 1) more := by
  have hbegins : beginsWord b = false := by
    simp [beginsWord, isWordByte, h]
  rw [lexemesFrom_cut hbegins]
  by_cases hslash : b = slash
  · subst hslash
    rw [(Cuts.division more (fun h => (hmore rfl _ h).1 rfl)
      (fun h => (hmore rfl _ h).2 rfl)).first_eq]
    rfl
  · rw [(Cuts.symbol _ h hslash).first_eq]
    rfl

/-- **The bytes of a word** are cut off whole, as a blank does not go on with
it. -/
theorem cutWhole_word (bytes : List UInt8) (hbegins : beginsWord b = true)
    (hword : ∀ a ∈ b :: bytes, isWordByte a = true)
    (hlen : (b :: bytes).length ≤ maxLength) :
    CutWhole (b :: bytes) (.word (decode (b :: bytes))) := by
  intro glued start more hmore
  refine ⟨true, lexemesFrom_whole_word bytes hbegins hword hlen ?_ _ _⟩
  exact fun a ha => ⟨(of_isGap (hmore a ha)).1, (of_isGap (hmore a ha)).2.1⟩

/-- **What is cut at once** is cut off whole if the cut is as long, whatever
comes behind. The literals and the symbols are all of this kind. -/
theorem cutWhole_of_first {lexeme : Lexeme} (hbegins : beginsWord b = false)
    (h : ∀ glued more, Apart more →
      (first glued b (bytes ++ more)).lexeme? = some lexeme
        ∧ (first glued b (bytes ++ more)).length = bytes.length) :
    CutWhole (b :: bytes) lexeme := by
  intro glued start more hmore
  obtain ⟨hlexeme, hlength⟩ := h glued more hmore
  refine ⟨false, ?_⟩
  rw [List.cons_append, lexemesFrom_cut hbegins, hlexeme, hlength,
    List.drop_left, List.length_cons, Nat.add_assoc, Nat.add_comm 1]
  rfl

/-- **The byte of a symbol.** A slash with a blank behind it begins no
comment. -/
theorem cutWhole_symbol (h : isSymbol b = true) :
    CutWhole [b] (.symbol (decode [b])) := by
  intro glued start more hmore
  refine ⟨false, lexemesFrom_symbol h (fun _ a ha => ?_) _ _⟩
  obtain ⟨-, -, -, -, hslash, hasterisk, -⟩ := of_isGap (hmore a ha)
  exact ⟨hslash, hasterisk⟩

/-- **The bytes of a character literal**, as many as are looked at, are cut
off whole. -/
theorem cutWhole_character (bytes : List UInt8)
    (h : ∀ more, characterLength (bytes ++ more) = bytes.length) :
    CutWhole (singleQuote :: bytes)
      (.character (decode (singleQuote :: bytes))) := by
  refine cutWhole_of_first (by decide) fun glued more _ => ?_
  rw [(Cuts.character _).first_eq, h, List.take_left]
  exact ⟨rfl, rfl⟩

/-- **The bytes of a string literal**, if the first quote that is not escaped
is the one behind the body, are cut off whole, and the closing quote that is
put behind is the one that was there. -/
theorem cutWhole_string
    (h : ∀ more, bodyLength false (bytes ++ doubleQuote :: more)
      = bytes.length)
    (hlen : (doubleQuote :: bytes).length ≤ maxLength) :
    CutWhole (doubleQuote :: bytes ++ [doubleQuote])
      (.string (decode (doubleQuote :: bytes ++ [doubleQuote]))) := by
  refine cutWhole_of_first (by decide) fun glued more _ => ?_
  rw [(Cuts.string _).first_eq]
  have hrest : bytes ++ [doubleQuote] ++ more
      = bytes ++ doubleQuote :: more := by
    rw [List.append_assoc]
    rfl
  rw [show (bytes.append [doubleQuote]) ++ more = _ from hrest, h more,
    List.take_left, stringText, List.take_of_length_le hlen]
  refine ⟨rfl, ?_⟩
  show _ = (bytes ++ [doubleQuote]).length
  rw [List.length_append]
  rfl

/-! ## Characters and bytes -/

/-- **A character that may stand in a word is a byte that may**, and but for
`#` one that may begin it. -/
theorem isWordByte_of_isWordChar (h : isWordChar c = true) :
    c.toNat < 0x80 ∧ isWordByte (UInt8.ofNat c.toNat) = true
      ∧ (c ≠ '#' → beginsWord (UInt8.ofNat c.toNat) = true) := by
  have hle : c.toNat ≤ 0x7E := by
    simp only [isWordChar, Bool.and_eq_true, decide_eq_true_eq] at h
    omega
  have hall : ∀ n < 0x7F, isWordChar (Char.ofNat n) = true →
      isWordByte (UInt8.ofNat n) = true
        ∧ (Char.ofNat n ≠ '#' → beginsWord (UInt8.ofNat n) = true) := by
    decide +kernel
  have hc := hall c.toNat (by omega)
  rw [Char.ofNat_toNat] at hc
  exact ⟨by omega, hc h⟩

/-- A symbol is the byte of one. -/
theorem isSymbol_of_mem_symbols (h : c ∈ symbols) :
    c.toNat < 0x80 ∧ isSymbol (UInt8.ofNat c.toNat) = true := by
  have hall : symbols.all (fun c => decide (c.toNat < 0x80)
      && isSymbol (UInt8.ofNat c.toNat)) = true := by
    decide
  simpa using List.all_eq_true.mp hall c h

/-- A character other than the backslash escapes nothing, so its literal has
one more byte, which closes it. -/
theorem characterLength_of_ne (hascii : c.toNat < 0x80) (hne : c ≠ '\\')
    (more : List UInt8) :
    characterLength (UInt8.ofNat c.toNat :: more) = 2 := by
  have hall : ∀ n < 0x80, Char.ofNat n ≠ '\\' →
      UInt8.ofNat n ≠ backslash := by
    decide +kernel
  have hbyte := hall c.toNat hascii (by rwa [Char.ofNat_toNat])
  rw [characterLength, if_neg (by simpa using hbyte)]

/-- Bytes outside ASCII end no literal, and escape nothing. They also end what
was escaped in front of them. -/
theorem bodyLength_of_isHigh (h : ∀ b ∈ bytes, isHigh b = true)
    (hne : bytes ≠ []) (escaped : Bool) (more : List UInt8) :
    bodyLength escaped (bytes ++ more)
      = bodyLength false more + bytes.length := by
  induction bytes generalizing escaped with
  | nil => exact absurd rfl hne
  | cons b bytes ih =>
    have hb := h b List.mem_cons_self
    have hquote : (b == doubleQuote) = false :=
      beq_eq_false_iff_ne.mpr (ne_of_isHigh hb (by decide))
    have hbackslash : (b == backslash) = false :=
      beq_eq_false_iff_ne.mpr (ne_of_isHigh hb (by decide))
    rw [List.cons_append, bodyLength, hquote, hbackslash, Bool.and_false,
      if_neg Bool.false_ne_true, List.length_cons]
    cases bytes with
    | nil => rfl
    | cons a bytes =>
      rw [ih (fun a ha => h a (List.mem_cons_of_mem b ha))
        (List.cons_ne_nil a bytes)]
      rfl

/-- **One character of a body**, in bytes: it is passed over whole, and
escapes what comes behind just if it is a backslash that is not escaped. -/
theorem bodyLength_encodeChar (escaped : Bool) (c : Char)
    (h : (!escaped && c == '\x22') = false) (more : List UInt8) :
    bodyLength escaped (String.utf8EncodeChar c ++ more)
      = bodyLength (!escaped && c == '\\') more
        + (String.utf8EncodeChar c).length := by
  by_cases hascii : c.toNat < 0x80
  · have hall : ∀ n < 0x80,
        (UInt8.ofNat n == doubleQuote) = (Char.ofNat n == '\x22')
          ∧ (UInt8.ofNat n == backslash) = (Char.ofNat n == '\\') := by
      decide +kernel
    obtain ⟨hquote, hbackslash⟩ := hall c.toNat hascii
    rw [Char.ofNat_toNat] at hquote hbackslash
    rw [Utf8.encodeChar_ascii hascii, List.cons_append, bodyLength, hquote,
      hbackslash, h, if_neg Bool.false_ne_true]
    rfl
  · have hne : ∀ a : Char, a.toNat < 0x80 → (c == a) = false := by
      intro a ha
      refine beq_eq_false_iff_ne.mpr ?_
      rintro rfl
      exact hascii ha
    rw [hne '\\' (by decide), Bool.and_false]
    refine bodyLength_of_isHigh (fun b hb => decide_eq_true
      (Utf8.le_of_mem_encodeChar (Nat.le_of_not_lt hascii) hb)) ?_ escaped
      more
    intro hnil
    have := String.length_utf8EncodeChar c
    rw [hnil] at this
    exact absurd this.symm (Nat.ne_of_gt (Char.utf8Size_pos c))

/-- **A closed body** is passed over up to the quote behind it. The induction
is on its characters, and each is one step of `closed`. -/
theorem bodyLength_closed {escaped : Bool} {body : List Char}
    (h : closed escaped body = true) (more : List UInt8) :
    bodyLength escaped
        (body.flatMap String.utf8EncodeChar ++ doubleQuote :: more)
      = (body.flatMap String.utf8EncodeChar).length := by
  induction body generalizing escaped with
  | nil =>
    rw [closed, Bool.not_eq_true'] at h
    subst h
    rfl
  | cons c body ih =>
    rw [List.flatMap_cons, List.append_assoc, List.length_append]
    cases escaped with
    | true =>
      rw [bodyLength_encodeChar true c rfl, Bool.not_true, Bool.false_and,
        ih h, Nat.add_comm]
    | false =>
      rw [closed, Bool.and_eq_true, bne_iff_ne] at h
      have hquote : (c == '\x22') = false := beq_eq_false_iff_ne.mpr h.1
      rw [bodyLength_encodeChar false c hquote, Bool.not_false, Bool.true_and,
        ih h.2, Nat.add_comm]

end Lexeme

/-! ## Texts -/

open Lexeme (CutWhole)

variable {text : String} {texts : List String} {bytes : List UInt8}

/-- Characters of ASCII are a byte each. -/
theorem encode_ascii {cs : List Char} (h : ∀ c ∈ cs, c.toNat < 0x80) :
    encode (String.ofList cs) = cs.map fun c => UInt8.ofNat c.toNat := by
  rw [Utf8.encode_ofList]
  induction cs with
  | nil => rfl
  | cons c cs ih =>
    rw [List.flatMap_cons, Utf8.encodeChar_ascii (h c List.mem_cons_self),
      ih fun d hd => h d (List.mem_cons_of_mem c hd)]
    rfl

/-- A word, as a text, is cut off whole. Its characters are of ASCII, so they
are the bytes of a word one by one. -/
theorem cutWhole_encode_word {c : Char} {cs : List Char}
    (hword : ∀ d ∈ c :: cs, Lexeme.isWordChar d = true) (hhash : c ≠ '#')
    (hlen : (c :: cs).length ≤ Lexeme.maxLength) :
    CutWhole (encode (String.ofList (c :: cs)))
      (.word (String.ofList (c :: cs))) := by
  have hbytes : encode (String.ofList (c :: cs))
      = (c :: cs).map fun d => UInt8.ofNat d.toNat :=
    encode_ascii fun d hd => (Lexeme.isWordByte_of_isWordChar (hword d hd)).1
  have hbegins :=
    (Lexeme.isWordByte_of_isWordChar (hword c List.mem_cons_self)).2.2 hhash
  have hcut := Lexeme.cutWhole_word (cs.map fun d => UInt8.ofNat d.toNat)
    hbegins ?_ ?_
  · rw [← List.map_cons (f := fun d : Char => UInt8.ofNat d.toNat), ← hbytes,
      decode_encode] at hcut
    exact hcut
  · rw [← List.map_cons (f := fun d : Char => UInt8.ofNat d.toNat)]
    intro a ha
    obtain ⟨d, hd, rfl⟩ := List.mem_map.mp ha
    exact (Lexeme.isWordByte_of_isWordChar (hword d hd)).2.1
  · rwa [← List.map_cons (f := fun d : Char => UInt8.ofNat d.toNat),
      List.length_map]

/-- A string literal, as a text, is cut off whole, if it is not too long in
bytes. -/
theorem cutWhole_encode_string {body : List Char}
    (hclosed : Lexeme.closed false body = true)
    (hlen : (encode (String.ofList ('\x22' :: body))).length
      ≤ Lexeme.maxLength) :
    CutWhole (encode (String.ofList ('\x22' :: body ++ ['\x22'])))
      (.string (String.ofList ('\x22' :: body ++ ['\x22']))) := by
  have hopen : encode (String.ofList ('\x22' :: body))
      = Lexeme.doubleQuote :: body.flatMap String.utf8EncodeChar := by
    rw [Utf8.encode_ofList]
    rfl
  have hbytes : encode (String.ofList ('\x22' :: body ++ ['\x22']))
      = Lexeme.doubleQuote :: body.flatMap String.utf8EncodeChar
        ++ [Lexeme.doubleQuote] := by
    rw [Utf8.encode_ofList, List.flatMap_append, ← Utf8.encode_ofList, hopen]
    rfl
  have hcut := Lexeme.cutWhole_string (Lexeme.bodyLength_closed hclosed)
    (hopen ▸ hlen)
  rwa [← hbytes, decode_encode] at hcut

/-- A character literal, as a text, is cut off whole, if it is of ASCII and
its length does not hang on what comes behind. -/
theorem cutWhole_encode_character {cs : List Char}
    (h : ∀ c ∈ cs, c.toNat < 0x80)
    (hlen : ∀ more, Lexeme.characterLength
      (cs.map (fun c => UInt8.ofNat c.toNat) ++ more) = cs.length) :
    CutWhole (encode (String.ofList ('\'' :: cs)))
      (.character (String.ofList ('\'' :: cs))) := by
  have hbytes : encode (String.ofList ('\'' :: cs))
      = Lexeme.singleQuote :: cs.map fun c => UInt8.ofNat c.toNat := by
    refine encode_ascii fun c hc => ?_
    rcases List.mem_cons.mp hc with rfl | hc
    · decide
    · exact h c hc
  have hcut := Lexeme.cutWhole_character
    (cs.map fun c => UInt8.ofNat c.toNat) fun more => by
      rw [hlen more, List.length_map]
  rwa [← hbytes, decode_encode] at hcut

/-- **A text that is a lexeme is cut off whole**, as a lexeme that becomes
this text. One case for each kind of text, which is the lemma of that kind. -/
theorem Lexical.cutWhole (h : Lexical text) :
    ∃ lexeme : Lexeme, lexeme.token? = some text
      ∧ CutWhole (encode text) lexeme := by
  cases h with
  | word hne hlen hword hhash _ _ =>
    rw [← String.length_toList] at hlen
    cases hcs : text.toList with
    | nil => exact absurd (String.toList_eq_nil_iff.mp hcs) hne
    | cons c cs =>
      rw [hcs] at hlen hword hhash
      have hc : c ≠ '#' := by
        rintro rfl
        exact hhash ⟨cs, rfl⟩
      have htext : text = String.ofList (c :: cs) := by
        rw [← hcs, String.ofList_toList]
      rw [htext]
      exact ⟨_, rfl, cutWhole_encode_word (List.all_eq_true.mp hword) hc hlen⟩
  | @symbol c hc =>
    obtain ⟨hascii, hsymbol⟩ := Lexeme.isSymbol_of_mem_symbols hc
    have hbytes : encode (String.ofList [c]) = [UInt8.ofNat c.toNat] :=
      encode_ascii fun d hd => List.mem_singleton.mp hd ▸ hascii
    have hcut := Lexeme.cutWhole_symbol hsymbol
    rw [← hbytes, decode_encode] at hcut
    exact ⟨_, rfl, hcut⟩
  | string hclosed hlen => exact ⟨_, rfl, cutWhole_encode_string hclosed hlen⟩
  | @character c hascii hne =>
    refine ⟨_, rfl, cutWhole_encode_character ?_ fun more => ?_⟩
    · intro d hd
      simp only [List.mem_cons, List.not_mem_nil, or_false] at hd
      rcases hd with rfl | rfl
      · exact hascii
      · decide
    · exact Lexeme.characterLength_of_ne hascii hne _
  | @escape c hascii =>
    refine ⟨_, rfl, cutWhole_encode_character ?_ fun more => rfl⟩
    intro d hd
    simp only [List.mem_cons, List.not_mem_nil, or_false] at hd
    rcases hd with rfl | rfl | rfl
    · decide
    · exact hascii
    · decide

/-- A text that begins with something else than a zero is not respelled, nor
is it empty. -/
theorem toDecimal?_ofList {c : Char} (hc : c ≠ '0') (cs : List Char) :
    String.ofList (c :: cs) ≠ ""
      ∧ Hex.toDecimal? (String.ofList (c :: cs)) = none := by
  have hmark : ∀ mark, ¬ ['0', mark] <+: (String.ofList (c :: cs)).toList := by
    intro mark h
    rw [String.toList_ofList, List.cons_prefix_cons] at h
    exact hc h.1.symm
  refine ⟨fun hnil => ?_, Hex.toDecimal?_eq_none (hmark 'x') (hmark 'X')⟩
  exact List.cons_ne_nil c cs (String.ofList_eq_empty_iff.mp hnil)

/-- **A text that is a lexeme is no literal that is respelled**, so it becomes
a token as it stands. -/
theorem Lexical.toDecimal?_eq_none (h : Lexical text) :
    text ≠ "" ∧ Hex.toDecimal? text = none := by
  cases h with
  | word hne _ _ _ hx hX => exact ⟨hne, Hex.toDecimal?_eq_none hx hX⟩
  | @symbol c hc =>
    refine toDecimal?_ofList ?_ []
    rintro rfl
    revert hc
    decide
  | string => exact toDecimal?_ofList (by decide) _
  | character => exact toDecimal?_ofList (by decide) _
  | escape => exact toDecimal?_ofList (by decide) _

/-- **Texts that are lexemes, spaced out, are cut apart into these lexemes**,
in order and with nothing between them. The induction is on how they are
spaced, with the place and what is in front left open. -/
theorem Spaced.lexemesFrom (h : Spaced texts bytes)
    (htexts : ∀ text ∈ texts, Lexical text) (glued : Bool) (start : Nat) :
    (lexemesFrom glued start bytes).map (fun l => l.lexeme.token?)
      = texts.map some := by
  induction h generalizing glued start with
  | nil => simp
  | @cons text gap texts bytes hgap hne hspaced ih =>
    obtain ⟨lexeme, htoken, hcut⟩ :=
      (htexts text List.mem_cons_self).cutWhole
    have hapart : Lexeme.Apart (gap ++ bytes) := by
      cases gap with
      | cons b gap =>
        intro a ha
        cases ha
        exact List.all_eq_true.mp hgap _ List.mem_cons_self
      | nil =>
        cases hspaced with
        | nil =>
          intro a ha
          cases ha
        | cons => exact absurd rfl (hne (List.cons_ne_nil _ _))
    obtain ⟨g, hg⟩ := hcut glued start (gap ++ bytes) hapart
    obtain ⟨g', hg'⟩ := Lexeme.lexemesFrom_gap hgap g
      (start + (encode text).length) bytes
    rw [List.append_assoc, hg, hg', List.map_cons, List.map_cons,
      ih fun t ht => htexts t (List.mem_cons_of_mem text ht)]
    exact congrArg (· :: texts.map some) htoken

end FlatC
