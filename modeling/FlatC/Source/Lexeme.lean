import FlatC.Source.Cursor
import FlatC.Text.Utf8

/-!
# Lexemes

Source bytes are cut into **lexemes**:

* a **word**: identifiers, keywords and numbers, whatever is neither
  blank, control character, quote nor symbol. Words are gathered a byte at
  a time. Bytes from `80` up are dropped wherever a word could stand,
  without ending it, and at most `maxLength` bytes of a word are kept;
* a **symbol**, always of one character; longer operators are put together
  later;
* a **character** literal, of which only the length is looked at: the
  quote and two bytes, or three if the first of them is a backslash;
* a **string** literal, up to the first quote without a backslash in front
  of it. With its opening quote it is cut to `maxLength` bytes, and it
  gets a closing quote even if the source has none;
* a **directive**, which is the rest of the line after a `#` that no word
  goes on through;
* a line **comment**. It matters, as it may say what is deleted, unless a
  word stands directly in front of it.

Blanks, control characters and block comments are passed over.

All but the words are cut at once: `Lexeme.first` looks at a byte that no
word goes on with and at those after it and gives the lexeme there, if
any, how many of the bytes *after the first* it takes, and how many lines
it ends. These are counted as each kind of lexeme has them: a directive
and a line comment end their line, the other kinds end as many as they
hold line feeds.
-/

namespace FlatC

/-- **One piece of source**, with its text. Words are gathered by whoever
reads the source; all the other kinds are cut off at one byte. -/
inductive Lexeme where
  | word (text : String)
  | symbol (text : String)
  | character (text : String)
  | string (text : String)
  | directive (line : String)
  | comment (text : String)
  deriving DecidableEq, Repr

namespace Lexeme

/-- How many bytes of a word, or of a string before its closing quote, are
kept. Bytes beyond that are read and dropped. -/
def maxLength : Nat := 990

/-! ## Kinds of bytes -/

/-- The characters that stand for themselves, each as a token of its own. -/
def symbols : List Char :=
  ['+', '-', '*', '/', '%', '&', '|', '^', '?', '!', '=', '<', '>', '[', ']',
    '(', ')', '{', '}', ';', ':', ',', '.']

/-- The `#` of a directive. -/
def hash : UInt8 := 0x23

/-- The quote of a character literal. -/
def singleQuote : UInt8 := 0x27

/-- The quote of a string literal. -/
def doubleQuote : UInt8 := 0x22

/-- The backslash. -/
def backslash : UInt8 := 0x5C

/-- The slash. -/
def slash : UInt8 := 0x2F

/-- The asterisk. -/
def asterisk : UInt8 := 0x2A

/-- Whether a byte is outside ASCII. Such bytes are kept only in literals,
comments and directives. -/
def isHigh (b : UInt8) : Bool := 0x80 ≤ b

/-- Whether a byte is a symbol. -/
def isSymbol (b : UInt8) : Bool := symbols.any fun c => c.toNat == b.toNat

/-- Whether a byte can stand in a word: any that is printed, but for symbols,
quotes and the blank. A `#` is one of these. -/
def isWordByte (b : UInt8) : Bool :=
  0x21 ≤ b && b ≤ 0x7E && !isSymbol b && b != singleQuote && b != doubleQuote

/-! ## One lexeme -/

/-- A line without the carriage return in front of its line feed, so that both
ways of ending a line read alike. -/
def dropReturn (line : List UInt8) : List UInt8 :=
  if line.getLast? = some 0x0D then line.dropLast else line

/-- How many bytes a character literal has behind its quote. That the last of
them is a quote is not asked. -/
def characterLength (rest : List UInt8) : Nat :=
  if rest.head? = some backslash then 3 else 2

/-- How many bytes a string literal has between its quotes, given whether the
byte in front is a backslash that escapes. A backslash that was escaped
escapes nothing. -/
def bodyLength : Bool → List UInt8 → Nat
  | _, [] => 0
  | escaped, b :: bytes =>
    if !escaped && b == doubleQuote then 0
    else bodyLength (!escaped && b == backslash) bytes + 1

/-- The text of a string literal with this body, closed whether or not the
source closes it. -/
def stringText (body : List UInt8) : String :=
  Utf8.decode ((doubleQuote :: body).take maxLength ++ [doubleQuote])

/-- **What is cut off at a byte**: the lexeme there, if one is; how many of
the bytes after the first belong to it; and how many lines it ends. The length
can be more than there are bytes. -/
structure Cut where
  lexeme? : Option Lexeme
  length : Nat
  lines : Nat
  deriving DecidableEq, Repr

/-- **The cut at a byte** that no word goes on with, given whether a word
stands directly in front of it. A byte at which nothing else begins is a
symbol or is passed over. -/
def first (glued : Bool) (b : UInt8) (rest : List UInt8) : Cut :=
  if b = hash then
    -- the line feed goes with the directive
    let n := lineLength rest
    ⟨some (.directive (Utf8.decode (dropReturn (rest.take n)))), n + 1, 1⟩
  else if b = lineFeed then ⟨none, 0, 1⟩
  else if b = slash then
    match rest with
    | [] => ⟨some (.symbol "/"), 0, 0⟩
    | c :: more =>
      if c = slash then
        -- the line feed goes with the comment
        let n := lineLength more
        let text := Utf8.decode (more.take n)
        ⟨if glued then none else some (.comment text), n + 2, 1⟩
      else if c = asterisk then
        let n := blockLength more
        ⟨none, n + 1, (more.take n).count lineFeed⟩
      else ⟨some (.symbol "/"), 0, 0⟩
  else if b = singleQuote then
    let n := characterLength rest
    ⟨some (.character (Utf8.decode (singleQuote :: rest.take n))), n,
      (rest.take n).count lineFeed⟩
  else if b = doubleQuote then
    -- the body, and the quote that ends it
    let n := bodyLength false rest
    ⟨some (.string (stringText (rest.take n))), n + 1,
      (rest.take (n + 1)).count lineFeed⟩
  else if isSymbol b then ⟨some (.symbol (Utf8.decode [b])), 0, 0⟩
  else ⟨none, 0, 0⟩

end Lexeme

end FlatC
