/-!
# Blanks and words

Two sets of blank characters are in play. Patterns and the gap in front
of a defined name use the **Unicode** property White_Space; the words of a
directive or a comment are separated by the **ASCII** blanks alone, among
which the vertical tab is *not* counted. Both sets split a text into its
words in the same way, so `words` takes the set as an argument.
-/

namespace FlatC.Text

/-- **White_Space of Unicode**: the property's code points, in order. The
vertical tab is among them. -/
def isBlank (c : Char) : Bool :=
  let n := c.toNat
  (0x09 ≤ n && n ≤ 0x0D) || n == 0x20 || n == 0x85 || n == 0xA0
    || n == 0x1680 || (0x2000 ≤ n && n ≤ 0x200A) || n == 0x2028 || n == 0x2029
    || n == 0x202F || n == 0x205F || n == 0x3000

/-- **ASCII blanks**: space, tab, line feed, form feed and carriage return,
but not the vertical tab. -/
def isAsciiBlank (c : Char) : Bool :=
  let n := c.toNat
  n == 0x20 || n == 0x09 || n == 0x0A || n == 0x0C || n == 0x0D

/-- Every ASCII blank is a blank. -/
theorem isBlank_of_isAsciiBlank {c : Char} (h : isAsciiBlank c = true) :
    isBlank c = true := by
  simp only [isAsciiBlank, Bool.or_eq_true, beq_iff_eq] at h
  simp only [isBlank, Bool.or_eq_true, Bool.and_eq_true, beq_iff_eq,
    decide_eq_true_eq]
  omega

/-- A text cut at its blanks: the word it starts with, which is empty when it
starts with a blank, and the words after that. With the first word apart, a
character in front of it can be put to it. -/
def splitWords (blank : Char → Bool) : List Char → List Char × List (List Char)
  | [] => ([], [])
  | c :: cs =>
    let (word, more) := splitWords blank cs
    if blank c then ([], if word.isEmpty then more else word :: more)
    else (c :: word, more)

/-- **The words of a text**: its maximal runs of non-blank characters. Blanks
at both ends and in a row make no words. -/
def words (blank : Char → Bool) (cs : List Char) : List (List Char) :=
  let (word, more) := splitWords blank cs
  if word.isEmpty then more else word :: more

@[simp] theorem words_nil (blank : Char → Bool) : words blank [] = [] := rfl

/-- No word is empty, so a word can always become a token. -/
theorem ne_nil_of_mem_words {blank : Char → Bool} {cs w : List Char}
    (h : w ∈ words blank cs) : w ≠ [] := by
  have key : ∀ l : List Char, ∀ v ∈ (splitWords blank l).2, v ≠ [] := by
    intro l
    induction l with
    | nil => intro v hv; simp [splitWords] at hv
    | cons c l ih =>
      intro v hv
      by_cases hc : blank c = true
      · by_cases hw : (splitWords blank l).1 = []
        · simp [splitWords, hc, hw] at hv
          exact ih v hv
        · simp [splitWords, hc, hw] at hv
          rcases hv with rfl | hv
          · exact hw
          · exact ih v hv
      · simp [splitWords, hc] at hv
        exact ih v hv
  by_cases hw : (splitWords blank cs).1 = []
  · simp [words, hw] at h
    exact key cs w h
  · simp [words, hw] at h
    rcases h with rfl | h
    · exact hw
    · exact key cs w h

end FlatC.Text
