import FlatC.Chain.Basic
import FlatC.Chain.Cells
import FlatC.Text.Blank
import FlatC.Token.Class

/-!
# Patterns

A pattern is written as words with blanks between them and stands for
consecutive tokens, one for each word:

* `%type%` – a name that begins no statement;
* `%var%` – any name;
* `%num%` – a token that starts with a digit;
* any other word – a token with just that text.

So `const %type% %var% = %num% ;` is the shape of a constant's
declaration. A pattern holds at a place when the tokens from there on are
at least as many as its words and each word accepts its token. The pattern
without words holds at every place there is.
-/

namespace FlatC

/-- **A piece of a pattern**: what it takes one token for. A piece looks at
the text alone, never at the token's place. -/
inductive Piece where
  /-- Just this text. -/
  | literal (text : String)
  /-- A type name. -/
  | type
  /-- A name. -/
  | var
  /-- A number. -/
  | num
  deriving DecidableEq, Repr

namespace Piece

/-- The piece a word stands for. Only these three words are special; any other
with percent signs is a text. -/
def ofWord (word : String) : Piece :=
  if word = "%type%" then .type
  else if word = "%var%" then .var
  else if word = "%num%" then .num
  else .literal word

/-- **Whether a piece accepts a text.** By `var` it accepts a keyword too,
since a keyword begins like a name. -/
def accepts : Piece → String → Bool
  | literal s, text => s == text
  | type, text => Token.isTypeName text
  | var, text => Token.isName text
  | num, text => Token.isNumber text

@[simp] theorem accepts_literal (s text : String) :
    (literal s).accepts text = (s == text) := rfl

@[simp] theorem accepts_type (text : String) :
    type.accepts text = Token.isTypeName text := rfl

@[simp] theorem accepts_var (text : String) :
    var.accepts text = Token.isName text := rfl

@[simp] theorem accepts_num (text : String) :
    num.accepts text = Token.isNumber text := rfl

end Piece

/-- **A pattern**: its pieces, in order. The text that it was compiled from is
not kept. -/
structure Pattern where
  pieces : List Piece
  deriving DecidableEq, Repr

namespace Pattern

/-- The pattern a text writes, cut at blanks of any kind and number. -/
def compile (text : String) : Pattern :=
  ⟨(Text.words Text.isBlank text.toList).map fun w =>
    Piece.ofWord (String.ofList w)⟩

/-- **The pieces held against places in order**, each with its text. Where the
places are cells of a list or slots of a chain makes no difference to it. -/
def fits {α : Type} (text : α → String) : List Piece → List α → Bool
  | [], _ => true
  | _ :: _, [] => false
  | p :: ps, a :: as => p.accepts (text a) && fits text ps as

/-- **Whether some cells start with tokens of this shape.** What comes behind
these tokens does not matter. -/
def opens (p : Pattern) (cells : List Cell) : Bool :=
  fits Cell.text p.pieces cells

/-- **Whether the pattern holds at a slot of the chain**; at no slot, no
pattern holds. As many slots are looked up as the pattern has pieces. -/
def matchesAt (p : Pattern) (c : TokenChain) (start : Option TokenId) :
    Bool :=
  start.isSome && fits c.text p.pieces (c.walk p.pieces.length start)

@[simp] theorem fits_nil {α : Type} (text : α → String) (as : List α) :
    fits text [] as = true := by
  cases as <;> rfl

@[simp] theorem fits_cons_nil {α : Type} (text : α → String) (p : Piece)
    (ps : List Piece) : fits text (p :: ps) [] = false := rfl

@[simp] theorem fits_cons_cons {α : Type} (text : α → String) (p : Piece)
    (ps : List Piece) (a : α) (as : List α) :
    fits text (p :: ps) (a :: as)
      = (p.accepts (text a) && fits text ps as) := rfl

/-- Whether pieces fit is a matter of the texts alone, so a pattern can be
tried on texts as well as on cells. -/
theorem fits_map {α : Type} (text : α → String) (ps : List Piece)
    (as : List α) : fits id ps (as.map text) = fits text ps as := by
  induction ps generalizing as with
  | nil => rw [fits_nil, fits_nil]
  | cons p ps ih =>
    cases as with
    | nil => rfl
    | cons a as =>
      rw [List.map_cons, fits_cons_cons, fits_cons_cons, ih]
      rfl

/-- A pattern holds nowhere but where there are enough places. So what stands
at each of its pieces can be named. -/
theorem length_le_of_fits {α : Type} {text : α → String} {ps : List Piece}
    {as : List α} (h : fits text ps as = true) : ps.length ≤ as.length := by
  induction ps generalizing as with
  | nil => exact Nat.zero_le _
  | cons p ps ih =>
    cases as with
    | nil => cases h
    | cons a as =>
      rw [fits_cons_cons, Bool.and_eq_true] at h
      exact Nat.succ_le_succ (ih h.2)

@[simp] theorem matchesAt_none (p : Pattern) (c : TokenChain) :
    p.matchesAt c none = false := rfl

end Pattern

end FlatC
