import FlatC.Edit.Basic
import FlatC.Proofs.Edit.Everywhere
import FlatC.Proofs.Edit.Unsigned

/-!
# Brackets and how they nest

A stream is read as a word of brackets, every other token being left out,
and that word nests or it does not. Passes change it in two ways only: a
pair of parentheses with no bracket in between is dropped, as in
`sizeof ( int )`, or it becomes a pair of square brackets, as in
`* ( p + 1 )`. Whatever else they drop, write or copy is no bracket.

Nesting is a property of the whole word, and an edit happens somewhere in
the middle of it. So what is compared is not whether two words nest but
what they *do*: a reader keeps the brackets that are open, and the two
words leave the same ones open, whatever was open before (`Delimiter.read`).
That is kept when other brackets are put around, and of the two pairs above
it is plain to see. Words that do the same nest alike, since a word nests
exactly if a reader that begins with nothing open ends with nothing open
(`Delimiter.nested_iff`).

The curly brackets are not touched at all: they are the same cells in the
same order.
-/

namespace FlatC

/-! ## Words of brackets -/

/-- The three kinds of brackets. -/
inductive Delimiter.Kind where
  | round
  | square
  | curly
  deriving DecidableEq, Repr

/-- **A bracket**, of one of the three kinds. An angle bracket is none. -/
inductive Delimiter where
  | opening (kind : Delimiter.Kind)
  | closing (kind : Delimiter.Kind)
  deriving DecidableEq, Repr

namespace Delimiter

/-- **A properly nested word**: nothing, or a nested word in a pair of
brackets of one kind with a nested word behind it. This is the notion that is
meant; reading is how it is computed. -/
inductive Nested : List Delimiter → Prop
  | nil : Nested []
  | around (kind : Kind) {u v : List Delimiter} : Nested u → Nested v →
    Nested (opening kind :: u ++ closing kind :: v)

/-- **What a word leaves open**, the innermost first, given what is open
before it; nothing if it closes what is not open. A bracket closes only one of
its own kind. -/
def read : List Kind → List Delimiter → Option (List Kind)
  | left, [] => some left
  | left, opening kind :: w => read (kind :: left) w
  | [], closing _ :: _ => none
  | inner :: left, closing kind :: w =>
    if inner = kind then read left w else none

@[simp] theorem read_nil (left : List Kind) : read left [] = some left := by
  cases left <;> rfl

@[simp] theorem read_opening (left : List Kind) (kind : Kind)
    (w : List Delimiter) :
    read left (opening kind :: w) = read (kind :: left) w := by
  cases left <;> rfl

@[simp] theorem read_closing_self (left : List Kind) (kind : Kind)
    (w : List Delimiter) :
    read (kind :: left) (closing kind :: w) = read left w :=
  if_pos rfl

/-- One word behind another is read from what the first leaves open. -/
theorem read_append (left : List Kind) (u v : List Delimiter) :
    read left (u ++ v) = (read left u).bind fun left => read left v := by
  induction u generalizing left with
  | nil => simp
  | cons b u ih =>
    cases b with
    | opening kind => simp [ih]
    | closing kind =>
      cases left with
      | nil => rfl
      | cons inner left =>
        rw [List.cons_append, read, read]
        split
        · exact ih left
        · rfl

/-- A nested word leaves open what was open, whatever that was. -/
theorem Nested.read {u : List Delimiter} (h : Nested u) (left : List Kind) :
    read left u = some left := by
  induction h generalizing left with
  | nil => exact read_nil left
  | around kind hu hv ihu ihv =>
    rw [read_append, read_opening, ihu, Option.bind_some, read_closing_self,
      ihv]

/-- A word that closes what is open, the innermost first, and is nested in
between. -/
def Closes : List Kind → List Delimiter → Prop
  | [], w => Nested w
  | kind :: left, w =>
    ∃ u v, w = u ++ closing kind :: v ∧ Nested u ∧ Closes left v

theorem Closes.around {left : List Kind} {u v : List Delimiter} (kind : Kind)
    (hu : Nested u) (hv : Closes left v) :
    Closes left (opening kind :: u ++ closing kind :: v) := by
  cases left with
  | nil => exact Nested.around kind hu hv
  | cons outer left =>
    obtain ⟨u', v', rfl, hu', hv'⟩ := hv
    exact ⟨opening kind :: u ++ closing kind :: u', v', by simp,
      Nested.around kind hu hu', hv'⟩

/-- What leaves nothing open closes what was open, by induction on the word
and with anything open before it. -/
theorem closes_of_read {left : List Kind} {w : List Delimiter}
    (h : read left w = some []) : Closes left w := by
  induction w generalizing left with
  | nil =>
    rw [read_nil] at h
    obtain rfl := Option.some.inj h
    exact .nil
  | cons b w ih =>
    cases b with
    | opening kind =>
      rw [read_opening] at h
      obtain ⟨u, v, rfl, hu, hv⟩ := ih h
      exact hv.around kind hu
    | closing kind =>
      cases left with
      | nil => cases h
      | cons inner left =>
        rw [read] at h
        split at h
        · next heq =>
          subst heq
          exact ⟨[], w, rfl, .nil, ih h⟩
        · cases h

/-- **A word nests exactly if it leaves nothing open** where nothing was. So
nesting can be decided. -/
theorem nested_iff {w : List Delimiter} : Nested w ↔ read [] w = some [] :=
  ⟨fun h => h.read [], closes_of_read⟩

instance (w : List Delimiter) : Decidable (Nested w) :=
  decidable_of_iff _ nested_iff.symm

/-! ## The brackets of a stream -/

/-- The bracket a text is, if it is one. Texts of more than one character are
none. -/
def ofText? (text : String) : Option Delimiter :=
  if text = "(" then some (opening .round)
  else if text = ")" then some (closing .round)
  else if text = "[" then some (opening .square)
  else if text = "]" then some (closing .square)
  else if text = "\x7b" then some (opening .curly)
  else if text = "\x7d" then some (closing .curly)
  else none

theorem ofText?_openingRound : ofText? "(" = some (opening .round) := by
  decide

theorem ofText?_closingRound : ofText? ")" = some (closing .round) := by
  decide

theorem ofText?_openingSquare : ofText? "[" = some (opening .square) := by
  decide

theorem ofText?_closingSquare : ofText? "]" = some (closing .square) := by
  decide

/-- What brackets begin with. -/
def marks : List Char := ['(', ')', '[', ']', '{', '}']

/-- **No bracket** is a text that begins with none. -/
theorem ofText?_eq_none {text : String}
    (h : Token.startsWithAny marks text = false) : ofText? text = none := by
  have hne : ∀ s : String, Token.startsWithAny marks s = true → text ≠ s := by
    rintro s hs rfl
    rw [h] at hs
    cases hs
  rw [ofText?, if_neg (hne "(" (by decide)),
    if_neg (hne ")" (by decide)), if_neg (hne "[" (by decide +kernel)),
    if_neg (hne "]" (by decide)),
    if_neg (hne "\x7b" (by decide)),
    if_neg (hne "\x7d" (by decide))]

/-- A name is no bracket. -/
theorem ofText?_of_isName {text : String} (h : Token.isName text = true) :
    ofText? text = none :=
  ofText?_eq_none (Token.startsWithAny_of_isName h (by decide))

/-- A number is no bracket. -/
theorem ofText?_of_isNumber {text : String} (h : Token.isNumber text = true) :
    ofText? text = none :=
  ofText?_eq_none (Token.startsWithAny_of_isNumber h (by decide))

/-- A number that is written begins with a digit or a sign. -/
theorem ofText?_signedText (n : Int) :
    ofText? (Numeral.signedText n) = none := by
  have hmarks : marks.all (fun c => !(c.isDigit || c == '-')) = true := by
    decide
  refine ofText?_eq_none ?_
  unfold Token.startsWithAny
  split
  · rfl
  · next c cs hlist =>
    have hmem : c ∈ (Numeral.signedText n).toList := hlist ▸ List.mem_cons_self
    refine Bool.eq_false_iff.mpr fun hmark => ?_
    have hc := List.all_eq_true.mp hmarks c (List.contains_iff_mem.mp hmark)
    simp only [Bool.not_eq_true', Bool.or_eq_false_iff,
      beq_eq_false_iff_ne] at hc
    rcases Unsigned.mem_signedText hmem with hdigit | hminus
    · rw [hc.1] at hdigit
      cases hdigit
    · exact hc.2 hminus

theorem ofText?_text (n : Nat) : ofText? (Numeral.text n) = none :=
  ofText?_signedText (.ofNat n)

end Delimiter

namespace Cell

open Delimiter (ofText? read)

variable {xs ys zs : List Cell} {c d : Cell}

/-- **The brackets of some cells**, in order. -/
def brackets (cells : List Cell) : List Delimiter :=
  cells.filterMap fun c => ofText? c.text

/-- **The cells that hold a curly bracket**, in order. -/
def braces (cells : List Cell) : List Cell :=
  cells.filter fun c => c.text == "\x7b" || c.text == "\x7d"

/-- **The same brackets, as far as nesting goes**: the curly ones are in the
same cells, and what is left open is the same, whatever was open before. That
is kept when cells are put around. -/
structure NestAlike (xs ys : List Cell) : Prop where
  braces : braces ys = braces xs
  read : ∀ left, read left (brackets ys) = read left (brackets xs)

/-- What is no curly bracket is not kept among them. -/
theorem braces_cons_of_ne (hopen : ofText? c.text ≠ some (.opening .curly))
    (hclose : ofText? c.text ≠ some (.closing .curly)) (xs : List Cell) :
    Cell.braces (c :: xs) = Cell.braces xs := by
  have hleft : c.text ≠ "\x7b" := by
    intro he
    rw [he] at hopen
    exact hopen (by decide)
  have hright : c.text ≠ "\x7d" := by
    intro he
    rw [he] at hclose
    exact hclose (by decide)
  simp [Cell.braces, hleft, hright]

theorem braces_cons_of_none (h : ofText? c.text = none) (xs : List Cell) :
    Cell.braces (c :: xs) = Cell.braces xs :=
  braces_cons_of_ne (by simp [h]) (by simp [h]) xs

theorem brackets_cons_of_none (h : ofText? c.text = none) (xs : List Cell) :
    brackets (c :: xs) = brackets xs :=
  List.filterMap_cons_none h

theorem brackets_cons_of_some {b : Delimiter} (h : ofText? c.text = some b)
    (xs : List Cell) : brackets (c :: xs) = b :: brackets xs :=
  List.filterMap_cons_some h

/-- Brackets are read off cells part by part. -/
theorem brackets_append (xs ys : List Cell) :
    brackets (xs ++ ys) = brackets xs ++ brackets ys :=
  List.filterMap_append

theorem braces_append (xs ys : List Cell) :
    Cell.braces (xs ++ ys) = Cell.braces xs ++ Cell.braces ys :=
  List.filter_append ..

namespace NestAlike

theorem refl (xs : List Cell) : NestAlike xs xs := ⟨rfl, fun _ => rfl⟩

theorem symm (h : NestAlike xs ys) : NestAlike ys xs :=
  ⟨h.braces.symm, fun left => (h.read left).symm⟩

/-- One edit after another. -/
theorem trans (h : NestAlike xs ys) (h' : NestAlike ys zs) :
    NestAlike xs zs :=
  ⟨h'.braces.trans h.braces, fun left => (h'.read left).trans (h.read left)⟩

/-- **Other cells in front**, whatever they leave open. -/
theorem append (h : NestAlike xs ys) (before : List Cell) :
    NestAlike (before ++ xs) (before ++ ys) where
  braces := by rw [braces_append, braces_append, h.braces]
  read := fun left => by
    rw [brackets_append, brackets_append, Delimiter.read_append,
      Delimiter.read_append, funext h.read]

theorem cons (h : NestAlike xs ys) (c : Cell) :
    NestAlike (c :: xs) (c :: ys) :=
  h.append [c]

/-- **A cell dropped** that holds no bracket. -/
theorem drop (hc : ofText? c.text = none) (h : NestAlike xs ys) :
    NestAlike (c :: xs) ys where
  braces := h.braces.trans (braces_cons_of_none hc xs).symm
  read := fun left => by rw [h.read, brackets_cons_of_none hc]

/-- **A cell put in** that holds no bracket. -/
theorem insert (hd : ofText? d.text = none) (h : NestAlike xs ys) :
    NestAlike xs (d :: ys) :=
  (h.symm.drop hd).symm

/-- **A cell in place of another**, neither of which holds a bracket. -/
theorem replace (hc : ofText? c.text = none) (hd : ofText? d.text = none)
    (h : NestAlike xs ys) : NestAlike (c :: xs) (d :: ys) :=
  (h.insert hd).drop hc

/-- Another text written into a cell. -/
theorem withText {text : String} (hc : ofText? c.text = none)
    (htext : ofText? text = none) (h : NestAlike xs ys) :
    NestAlike (c :: xs) (c.withText text :: ys) :=
  h.replace (d := c.withText text) hc htext

/-- Cells put in that hold no brackets. -/
theorem insertAll (hys : ∀ y ∈ ys, ofText? y.text = none)
    (h : NestAlike xs zs) : NestAlike xs (ys ++ zs) := by
  induction ys with
  | nil => exact h
  | cons y ys ih =>
    exact (ih fun z hz => hys z (List.mem_cons_of_mem _ hz)).insert
      (hys y List.mem_cons_self)

/-- Cells that nest alike nest both or neither. -/
theorem nested_iff (h : NestAlike xs ys) :
    Delimiter.Nested (brackets ys) ↔ Delimiter.Nested (brackets xs) := by
  rw [Delimiter.nested_iff, Delimiter.nested_iff, h.read]

/-- **A pair of brackets dropped** that are not curly, with cells between them
that hold no brackets: what is open behind it is what was open before. -/
theorem dropPair {p q : Cell} {kind : Delimiter.Kind}
    (hp : ofText? p.text = some (.opening kind))
    (hq : ofText? q.text = some (.closing kind)) (hkind : kind ≠ .curly)
    (hxs : ∀ x ∈ xs, ofText? x.text = none) (rest : List Cell) :
    NestAlike (p :: xs ++ q :: rest) rest := by
  have hinner : NestAlike (p :: xs ++ q :: rest) (p :: q :: rest) :=
    ((insertAll hxs (.refl (q :: rest))).symm).cons p
  refine hinner.trans ⟨?_, fun left => ?_⟩
  · rw [braces_cons_of_ne (by simp [hp, hkind]) (by simp [hp]),
      braces_cons_of_ne (by simp [hq]) (by simp [hq, hkind])]
  · rw [brackets_cons_of_some hp, brackets_cons_of_some hq,
      Delimiter.read_opening, Delimiter.read_closing_self]

end NestAlike

end Cell

end FlatC
