import FlatC.Source.Lexeme

/-!
# The lexemes of a source

What a scan comes to in a source can be told without one: a word is a whole
stretch of bytes, everything else is one cut, and each **stands** at the
place of its first byte. `lexemes` says so, of the bytes alone. It knows
nothing of a word that is still being gathered, nor of a line that is being
counted.

Neither does a lexeme say what line it is on. The line of a place is one
more than the line feeds before it (`lineAt`), and that is a matter of the
source. What a cut counts is just that: the line feeds among its bytes,
unless the source ends with it (`Lexeme.Cuts.lines`).
-/

namespace FlatC

/-- **The line of a place** in a source, the first line being 1. It is told by
the bytes alone, with no scan. -/
def lineAt (bytes : List UInt8) (n : Nat) : Nat :=
  (bytes.take n).count lineFeed + 1

/-- Behind a line there is nothing, or a line feed and more. -/
theorem drop_lineLength (bytes : List UInt8) :
    bytes.drop (lineLength bytes) = []
      ∨ ∃ more, bytes.drop (lineLength bytes) = lineFeed :: more := by
  induction bytes with
  | nil => exact Or.inl rfl
  | cons b bytes ih =>
    unfold lineLength
    split
    · next h => exact Or.inr ⟨bytes, h ▸ rfl⟩
    · exact ih

/-- **A line with its line feed**, if anything comes after it, has one line
feed. At the end of the source there need not be one, and this is where the
count of a scan and that of the bytes differ. -/
theorem count_take_lineLength {bytes : List UInt8}
    (h : bytes.drop (lineLength bytes + 1) ≠ []) :
    (bytes.take (lineLength bytes + 1)).count lineFeed = 1 := by
  have hline := List.count_eq_zero.mpr (lineFeed_notMem_take bytes)
  rcases drop_lineLength bytes with hnil | ⟨more, hmore⟩
  · exact absurd (by rw [← List.drop_drop, hnil]; rfl) h
  · rw [List.take_add, List.count_append, hline, hmore]
    rfl

namespace Lexeme

variable {b : UInt8} {rest : List UInt8} {glued : Bool}

/-! ## Cuts -/

/-- **What a cut can be**, kind by kind. The definition of `first` asks one
question after the other; here each kind says by itself what it is and where
it begins. -/
inductive Cuts (glued : Bool) : UInt8 → List UInt8 → Cut → Prop
  | directive (rest : List UInt8) :
    Cuts glued hash rest
      ⟨some (.directive
          (Utf8.decode (dropReturn (rest.take (lineLength rest))))),
        lineLength rest + 1, 1⟩
  | newline (rest : List UInt8) : Cuts glued lineFeed rest ⟨none, 0, 1⟩
  | comment (more : List UInt8) :
    Cuts glued slash (slash :: more)
      ⟨if glued then none
        else some (.comment (Utf8.decode (more.take (lineLength more)))),
        lineLength more + 2, 1⟩
  | block (more : List UInt8) :
    Cuts glued slash (asterisk :: more)
      ⟨none, blockLength more + 1,
        (more.take (blockLength more)).count lineFeed⟩
  | division (rest : List UInt8) :
    rest.head? ≠ some slash → rest.head? ≠ some asterisk →
    Cuts glued slash rest ⟨some (.symbol "/"), 0, 0⟩
  | character (rest : List UInt8) :
    Cuts glued singleQuote rest
      ⟨some (.character
          (Utf8.decode (singleQuote :: rest.take (characterLength rest)))),
        characterLength rest,
        (rest.take (characterLength rest)).count lineFeed⟩
  | string (rest : List UInt8) :
    Cuts glued doubleQuote rest
      ⟨some (.string (stringText (rest.take (bodyLength false rest)))),
        bodyLength false rest + 1,
        (rest.take (bodyLength false rest + 1)).count lineFeed⟩
  | symbol {b : UInt8} (rest : List UInt8) : isSymbol b = true → b ≠ slash →
    Cuts glued b rest ⟨some (.symbol (Utf8.decode [b])), 0, 0⟩
  | nothing {b : UInt8} (rest : List UInt8) : b ≠ hash → b ≠ lineFeed →
    b ≠ singleQuote → b ≠ doubleQuote → isSymbol b = false →
    Cuts glued b rest ⟨none, 0, 0⟩

/-- **Each cut is one of these**, with the questions taken in their order. At
a slash the byte behind it is asked for too, which may not be there. -/
theorem cuts_first (glued : Bool) (b : UInt8) (rest : List UInt8) :
    Cuts glued b rest (first glued b rest) := by
  unfold first
  split
  · next h => exact h ▸ .directive rest
  split
  · next h => exact h ▸ .newline rest
  split
  · next h =>
    subst h
    split
    · exact .division [] (by simp) (by simp)
    · next c more =>
      split
      · next h =>
        subst h
        exact .comment more
      split
      · next h => exact h ▸ .block more
      · next hslash hasterisk =>
        exact .division _ (by simpa using hslash) (by simpa using hasterisk)
  split
  · next h =>
    subst h
    exact .character rest
  split
  · next h => exact h ▸ .string rest
  split
  · next hslash _ _ h => exact .symbol rest h hslash
  · next hhash hfeed _ hsingle hdouble h =>
    exact .nothing rest hhash hfeed hsingle hdouble (Bool.eq_false_iff.mpr h)

/-- What is no symbol differs from one that is. With this the bytes that begin
something else are told from symbols by evaluation. -/
theorem ne_of_isSymbol {a : UInt8} (h : isSymbol b = true)
    (ha : isSymbol a = false) : b ≠ a := by
  rintro rfl
  rw [h] at ha
  cases ha

/-- **There is only one cut at a byte**: the kinds do not overlap, so their
order in `first` does not matter. -/
theorem Cuts.first_eq {cut : Cut} (hcut : Cuts glued b rest cut) :
    first glued b rest = cut := by
  unfold first
  cases hcut with
  | directive | newline | comment | block | character | string => rfl
  | division _ hslash hasterisk =>
    cases rest with
    | nil => rfl
    | cons c more =>
      have hslash : c ≠ slash := by simpa using hslash
      have hasterisk : c ≠ asterisk := by simpa using hasterisk
      dsimp only
      rw [if_neg hslash, if_neg hasterisk]
      rfl
  | symbol _ h hslash =>
    rw [if_neg (ne_of_isSymbol h (by decide)),
      if_neg (ne_of_isSymbol h (by decide)), if_neg hslash,
      if_neg (ne_of_isSymbol h (by decide)),
      if_neg (ne_of_isSymbol h (by decide)), if_pos h]
  | nothing _ hhash hfeed hsingle hdouble h =>
    have hslash : b ≠ slash := (ne_of_isSymbol (by decide) h).symm
    rw [if_neg hhash, if_neg hfeed, if_neg hslash, if_neg hsingle,
      if_neg hdouble, if_neg (Bool.eq_false_iff.mp h)]

/-- **The lines a cut ends are the line feeds in it**, if anything comes after
it. Each kind has its own way of counting, and only a directive and a line
comment count a line feed that need not be there. -/
theorem Cuts.lines {cut : Cut} (hcut : Cuts glued b rest cut)
    (h : rest.drop cut.length ≠ []) :
    cut.lines = (b :: rest.take cut.length).count lineFeed := by
  have hhash : hash ≠ lineFeed := by decide
  have hslash : slash ≠ lineFeed := by decide
  have hasterisk : asterisk ≠ lineFeed := by decide
  have hsingle : singleQuote ≠ lineFeed := by decide
  have hdouble : doubleQuote ≠ lineFeed := by decide
  cases hcut with
  | directive =>
    rw [List.count_cons_of_ne hhash, count_take_lineLength h]
  | newline => rfl
  | comment more =>
    rw [List.take_succ_cons, List.count_cons_of_ne hslash,
      List.count_cons_of_ne hslash, count_take_lineLength h]
  | block more =>
    rw [List.take_succ_cons, List.count_cons_of_ne hslash,
      List.count_cons_of_ne hasterisk]
  | division => rw [List.count_cons_of_ne hslash]; rfl
  | character => rw [List.count_cons_of_ne hsingle]
  | string => rw [List.count_cons_of_ne hdouble]
  | symbol _ hsymbol =>
    rw [List.count_cons_of_ne (ne_of_isSymbol hsymbol (by decide))]
    rfl
  | nothing _ _ hne => rw [List.count_cons_of_ne hne]; rfl

/-- A cut ends no more lines than it has bytes, whether or not anything comes
after it. So the line of a place is bounded by the length of the source. -/
theorem Cuts.lines_le {cut : Cut} (hcut : Cuts glued b rest cut) :
    cut.lines ≤ (rest.take cut.length).length + 1 := by
  cases hcut with
  | directive => exact Nat.le_add_left 1 _
  | newline => exact Nat.le_add_left 1 _
  | comment => exact Nat.le_add_left 1 _
  | block more =>
    rw [List.take_succ_cons, List.length_cons]
    exact Nat.le_trans List.count_le_length (by omega)
  | division => exact Nat.zero_le _
  | character => exact Nat.le_trans List.count_le_length (Nat.le_succ _)
  | string => exact Nat.le_trans List.count_le_length (Nat.le_succ _)
  | symbol => exact Nat.zero_le _
  | nothing => exact Nat.zero_le _

/-- What a byte outside ASCII is not. -/
theorem ne_of_isHigh {a : UInt8} (h : isHigh b = true)
    (ha : isHigh a = false) : b ≠ a := by
  rintro rfl
  rw [h] at ha
  cases ha

/-- A byte outside ASCII is no symbol. -/
theorem isSymbol_of_isHigh (h : isHigh b = true) : isSymbol b = false := by
  have hlow : symbols.all (fun c => decide (c.toNat < 0x80)) = true := by
    decide
  have hhigh : 0x80 ≤ b.toNat := UInt8.le_iff_toNat_le.mp (of_decide_eq_true h)
  refine Bool.eq_false_iff.mpr fun hs => ?_
  obtain ⟨c, hc, hb⟩ := List.any_eq_true.mp hs
  have := of_decide_eq_true (List.all_eq_true.mp hlow c hc)
  have := eq_of_beq hb
  omega

/-- At a byte outside ASCII nothing is cut off, and it is passed over alone. -/
theorem first_of_isHigh (h : isHigh b = true) (glued : Bool)
    (rest : List UInt8) : first glued b rest = ⟨none, 0, 0⟩ :=
  Cuts.first_eq (.nothing rest (ne_of_isHigh h (by decide))
    (ne_of_isHigh h (by decide)) (ne_of_isHigh h (by decide))
    (ne_of_isHigh h (by decide)) (isSymbol_of_isHigh h))

/-- A byte outside ASCII does not stand in a word. Inside one it is dropped,
and the word goes on behind it. -/
theorem isWordByte_of_isHigh (h : isHigh b = true) :
    isWordByte b = false := by
  have hhigh : 0x80 ≤ b.toNat := UInt8.le_iff_toNat_le.mp (of_decide_eq_true h)
  have hlast : ¬ b ≤ 0x7E := by
    rw [UInt8.le_iff_toNat_le]
    show ¬ b.toNat ≤ 0x7E
    omega
  simp [isWordByte, hlast]

/-! ## Words -/

/-- The bytes after the first that belong to a word: those that can stand in
one, and those dropped from it. A `#` is among the former, though no word
begins with one. -/
def wordRun (rest : List UInt8) : List UInt8 :=
  rest.takeWhile fun b => isWordByte b || isHigh b

/-- A word's run is what the bytes begin with. -/
theorem wordRun_append_drop (rest : List UInt8) :
    wordRun rest ++ rest.drop (wordRun rest).length = rest :=
  (List.prefix_iff_eq_append.mp (List.takeWhile_prefix _))

/-- A word's run has no other bytes than these. -/
theorem of_mem_wordRun (h : b ∈ wordRun rest) :
    (isWordByte b || isHigh b) = true :=
  List.all_eq_true.mp List.all_takeWhile b h

/-- **A word's run ends** at a byte that neither goes on with it nor is
dropped from it. -/
theorem wordRun_stops {c : UInt8} {more : List UInt8}
    (h : rest.drop (wordRun rest).length = c :: more) :
    isWordByte c = false ∧ isHigh c = false := by
  induction rest with
  | nil => simp at h
  | cons b rest ih =>
    rw [wordRun, List.takeWhile_cons] at h
    split at h
    · exact ih h
    · next hb =>
      obtain ⟨rfl, -⟩ := List.cons.inj h
      simpa using hb

/-- The bytes a word is spelled with: the first `maxLength` word bytes of its
stretch. The others of the stretch are passed over with it, so they do not
begin a word of their own. -/
def wordText (stretch : List UInt8) : String :=
  Utf8.decode ((stretch.filter isWordByte).take maxLength)

/-- Whether a word begins at a byte. -/
def beginsWord (b : UInt8) : Bool := isWordByte b && b != hash

/-- **What a lexeme begins with**: what stands at its place. For a word this
is all of it, and for the others the bytes that tell what it is. -/
inductive StandsAt : Lexeme → List UInt8 → Prop
  | word {b : UInt8} (rest : List UInt8) : beginsWord b = true →
    StandsAt (.word (wordText (b :: wordRun rest))) (b :: rest)
  | symbol {b : UInt8} (rest : List UInt8) : isSymbol b = true →
    StandsAt (.symbol (Utf8.decode [b])) (b :: rest)
  | character {text : String} (rest : List UInt8) :
    StandsAt (.character text) (singleQuote :: rest)
  | string {text : String} (rest : List UInt8) :
    StandsAt (.string text) (doubleQuote :: rest)
  | directive {line : String} (rest : List UInt8) :
    StandsAt (.directive line) (hash :: rest)
  | comment {text : String} (rest : List UInt8) :
    StandsAt (.comment text) (slash :: slash :: rest)

/-- **What is cut off at a byte stands there**, kind by kind; some kinds cut
off nothing. -/
theorem Cuts.standsAt {cut : Cut} {lexeme : Lexeme}
    (hcut : Cuts glued b rest cut) (h : cut.lexeme? = some lexeme) :
    lexeme.StandsAt (b :: rest) := by
  cases hcut with
  | directive => cases h; exact .directive rest
  | newline => cases h
  | comment more =>
    dsimp only at h
    split at h
    · cases h
    · cases h; exact .comment more
  | block => cases h
  | division => cases h; exact .symbol (b := slash) rest (by decide)
  | character => cases h; exact .character rest
  | string => cases h; exact .string rest
  | symbol _ hsymbol => cases h; exact .symbol rest hsymbol
  | nothing => cases h

end Lexeme

/-! ## All lexemes -/

open Lexeme (beginsWord wordRun wordText first)

/-- **A lexeme and its place**, the number of bytes before it. -/
structure Located where
  start : Nat
  lexeme : Lexeme
  deriving DecidableEq, Repr

/-- **The lexemes from a place on**, given whether a word stands directly in
front of it. A comment directly behind a word makes no lexeme, and is passed
over all the same. -/
def lexemesFrom (glued : Bool) (start : Nat) (bytes : List UInt8) :
    List Located :=
  match bytes with
  | [] => []
  | b :: rest =>
    if beginsWord b then
      let run := wordRun rest
      ⟨start, .word (wordText (b :: run))⟩
        :: lexemesFrom true (start + 1 + run.length) (rest.drop run.length)
    else
      let cut := first glued b rest
      (cut.lexeme?.map (Located.mk start)).toList
        ++ lexemesFrom false (start + 1 + cut.length) (rest.drop cut.length)
termination_by bytes.length
decreasing_by
  all_goals
    simp only [List.length_drop, List.length_cons]
    omega

/-- **The lexemes of a source**, in order, each with its place. -/
def lexemes (bytes : List UInt8) : List Located := lexemesFrom false 0 bytes

section Equations

variable {glued : Bool} {start : Nat} {b : UInt8} {rest : List UInt8}

/-- Where the source is over there are no more lexemes. -/
@[simp] theorem lexemesFrom_nil (glued : Bool) (start : Nat) :
    lexemesFrom glued start [] = [] := by
  rw [lexemesFrom]

/-- Where a word begins, it is the first lexeme, and the others come behind
its run. -/
theorem lexemesFrom_word (h : beginsWord b = true) (glued : Bool)
    (start : Nat) (rest : List UInt8) :
    lexemesFrom glued start (b :: rest)
      = ⟨start, .word (wordText (b :: wordRun rest))⟩
        :: lexemesFrom true (start + 1 + (wordRun rest).length)
          (rest.drop (wordRun rest).length) := by
  rw [lexemesFrom, if_pos h]

/-- Anywhere else the first lexeme is what is cut off, if anything is, and the
others come behind the cut. -/
theorem lexemesFrom_cut (h : beginsWord b = false) (glued : Bool)
    (start : Nat) (rest : List UInt8) :
    lexemesFrom glued start (b :: rest)
      = ((first glued b rest).lexeme?.map (Located.mk start)).toList
        ++ lexemesFrom false (start + 1 + (first glued b rest).length)
          (rest.drop (first glued b rest).length) := by
  rw [lexemesFrom, if_neg (Bool.eq_false_iff.mp h)]

/-- The bytes at a place behind a cut are the same, counted from the cut or
from in front of it. -/
theorem drop_of_le {place n : Nat} (b : UInt8) (rest : List UInt8)
    (h : start + 1 + n ≤ place) :
    (rest.drop n).drop (place - (start + 1 + n))
      = (b :: rest).drop (place - start) := by
  have hplace : n + (place - (start + 1 + n)) + 1 = place - start := by omega
  rw [List.drop_drop, ← hplace, List.drop_succ_cons]

/-- **What holds of words and of what is cut off** holds of each lexeme, with
the bytes from its place on. The induction is on how many bytes there are, as
a step may pass over any number of them. -/
theorem of_mem_lexemesFrom {P : Lexeme → List UInt8 → Prop}
    (hword : ∀ (b : UInt8) (rest : List UInt8), beginsWord b = true →
      P (.word (wordText (b :: wordRun rest))) (b :: rest))
    (hcut : ∀ (glued : Bool) (b : UInt8) (rest : List UInt8)
      (lexeme : Lexeme), (first glued b rest).lexeme? = some lexeme →
      P lexeme (b :: rest))
    {bytes : List UInt8} {l : Located}
    (h : l ∈ lexemesFrom glued start bytes) :
    start ≤ l.start ∧ P l.lexeme (bytes.drop (l.start - start)) := by
  fun_induction lexemesFrom glued start bytes with
  | case1 => cases h
  | case2 glued start b rest hbegins run ih =>
    rcases List.mem_cons.mp h with rfl | h
    · exact ⟨Nat.le_refl start, by
        rw [Nat.sub_self]
        exact hword b rest hbegins⟩
    · obtain ⟨hle, hP⟩ := ih h
      exact ⟨by omega, drop_of_le b rest hle ▸ hP⟩
  | case3 glued start b rest hbegins cut ih =>
    rcases List.mem_append.mp h with h | h
    · obtain ⟨lexeme, hlexeme, rfl⟩ :=
        Option.map_eq_some_iff.mp (Option.mem_toList.mp h)
      exact ⟨Nat.le_refl start, by
        rw [Nat.sub_self]
        exact hcut glued b rest lexeme hlexeme⟩
    · obtain ⟨hle, hP⟩ := ih h
      exact ⟨by omega, drop_of_le b rest hle ▸ hP⟩

/-- **Each lexeme stands at its place**, counted from where the bytes begin. -/
theorem standsAt_of_mem_lexemesFrom {bytes : List UInt8} {l : Located}
    (h : l ∈ lexemesFrom glued start bytes) :
    start ≤ l.start ∧ l.lexeme.StandsAt (bytes.drop (l.start - start)) :=
  of_mem_lexemesFrom (fun _ rest hword => .word rest hword)
    (fun glued b rest _ h => (Lexeme.cuts_first glued b rest).standsAt h) h

end Equations

/-- Each lexeme of a source stands at its place in the source. -/
theorem standsAt_of_mem_lexemes {bytes : List UInt8} {l : Located}
    (h : l ∈ lexemes bytes) : l.lexeme.StandsAt (bytes.drop l.start) :=
  (standsAt_of_mem_lexemesFrom h).2

end FlatC
