import FlatC.Text.Blank

/-!
# Words and the blanks between them

What the words of a text are can be said without cutting it: the text is those
words, in order, with stretches of blanks around them (`Separated`). No word
is empty or holds a blank, and between two of them there is a blank. Every
text is separated by blanks in exactly one way (`words_eq_iff`).
-/

namespace FlatC.Text

variable {blank : Char → Bool} {cs gap word rest : List Char}
variable {ws : List (List Char)}

/-- **Words with blanks around them**: the text is a stretch of blanks, a
word, and the other words with the blanks around those. Behind a word comes a
blank or nothing, so no word is cut in two. -/
inductive Separated (blank : Char → Bool) :
    List (List Char) → List Char → Prop
  | nil {gap : List Char} (hgap : ∀ c ∈ gap, blank c = true) :
    Separated blank [] gap
  | cons {gap word rest : List Char} {ws : List (List Char)}
    (hgap : ∀ c ∈ gap, blank c = true) (hne : word ≠ [])
    (hword : ∀ c ∈ word, blank c = false)
    (hrest : ∀ c ∈ rest.head?, blank c = true)
    (hws : Separated blank ws rest) :
    Separated blank (word :: ws) (gap ++ word ++ rest)

/-- One more blank in front makes no difference to the words. -/
theorem Separated.blank_cons {c : Char} (hc : blank c = true)
    (h : Separated blank ws cs) : Separated blank ws (c :: cs) := by
  cases h with
  | nil hgap => exact .nil (List.forall_mem_cons.mpr ⟨hc, hgap⟩)
  | cons hgap hne hword hrest hws =>
    exact .cons (List.forall_mem_cons.mpr ⟨hc, hgap⟩) hne hword hrest hws

/-- A text that begins with a blank starts with an empty word. -/
theorem splitWords_of_blank {c : Char} (hc : blank c = true)
    (cs : List Char) : splitWords blank (c :: cs) = ([], words blank cs) := by
  rw [splitWords, hc]
  rfl

/-- Anything else at the front belongs to the word that the text starts with. -/
theorem splitWords_of_not_blank {c : Char} (hc : blank c = false)
    (cs : List Char) : splitWords blank (c :: cs)
      = (c :: (splitWords blank cs).1, (splitWords blank cs).2) := by
  rw [splitWords, hc]
  rfl

/-- The words of a text, by the word it starts with, which does not count if
it is empty. -/
theorem words_eq_ite (blank : Char → Bool) (cs : List Char) :
    words blank cs = if (splitWords blank cs).1 = [] then
        (splitWords blank cs).2
      else (splitWords blank cs).1 :: (splitWords blank cs).2 := by
  simp only [words, List.isEmpty_iff]

/-- A blank in front makes no difference to the words. -/
theorem words_blank_cons {c : Char} (hc : blank c = true) (cs : List Char) :
    words blank (c :: cs) = words blank cs := by
  rw [words_eq_ite, splitWords_of_blank hc, if_pos rfl]

/-- Any number of blanks in front makes no difference to the words. -/
theorem words_gap_append (hgap : ∀ c ∈ gap, blank c = true)
    (cs : List Char) : words blank (gap ++ cs) = words blank cs := by
  induction gap with
  | nil => rfl
  | cons c gap ih =>
    obtain ⟨hc, hgap⟩ := List.forall_mem_cons.mp hgap
    rw [List.cons_append, words_blank_cons hc, ih hgap]

/-- **A word is cut off whole**, where a blank comes after it or nothing does,
and the words of the rest come behind. -/
theorem splitWords_append (hword : ∀ c ∈ word, blank c = false)
    (hrest : ∀ c ∈ rest.head?, blank c = true) :
    splitWords blank (word ++ rest) = (word, words blank rest) := by
  induction word with
  | nil =>
    cases rest with
    | nil => rfl
    | cons c rest =>
      have hc := hrest c rfl
      rw [List.nil_append, splitWords_of_blank hc, words_blank_cons hc]
  | cons c word ih =>
    obtain ⟨hc, hword⟩ := List.forall_mem_cons.mp hword
    rw [List.cons_append, splitWords_of_not_blank hc, ih hword]

/-- **Words with blanks around them are the words of the text**, so a text is
separated in one way only. -/
theorem Separated.words_eq (h : Separated blank ws cs) :
    words blank cs = ws := by
  induction h with
  | nil hgap => simpa using words_gap_append hgap []
  | @cons gap word rest ws hgap hne hword hrest hws ih =>
    rw [List.append_assoc, words_gap_append hgap,
      words_eq_ite, splitWords_append hword hrest, ih,
      if_neg hne]

/-- A text is the word it starts with, blanks and all that is cut off behind
it. Nothing is lost or moved but the blanks. -/
theorem exists_append_of_splitWords (blank : Char → Bool) (cs : List Char) :
    ∃ rest, cs = (splitWords blank cs).1 ++ rest
      ∧ (∀ c ∈ (splitWords blank cs).1, blank c = false)
      ∧ (∀ c ∈ rest.head?, blank c = true)
      ∧ Separated blank (splitWords blank cs).2 rest := by
  induction cs with
  | nil => exact ⟨[], rfl, nofun, nofun, .nil nofun⟩
  | cons c cs ih =>
    obtain ⟨rest, hcs, hword, hrest, hws⟩ := ih
    cases hc : blank c with
    | true =>
      rw [splitWords_of_blank hc]
      refine ⟨c :: cs, rfl, nofun, ?_, ?_⟩
      · rintro _ ⟨⟩
        exact hc
      · rw [words_eq_ite]
        split
        · next hnil =>
          rw [hnil, List.nil_append] at hcs
          rw [← hcs] at hws
          exact hws.blank_cons hc
        · next hne =>
          have hgap : ∀ d ∈ [c], blank d = true := by simpa using hc
          have := Separated.cons hgap hne hword hrest hws
          rwa [List.append_assoc, ← hcs] at this
    | false =>
      rw [splitWords_of_not_blank hc]
      exact ⟨rest, congrArg (c :: ·) hcs,
        List.forall_mem_cons.mpr ⟨hc, hword⟩, hrest, hws⟩

/-- **Every text is its words with blanks around them**, whatever counts as a
blank. -/
theorem separated_words (blank : Char → Bool) (cs : List Char) :
    Separated blank (words blank cs) cs := by
  obtain ⟨rest, hcs, hword, hrest, hws⟩ :=
    exists_append_of_splitWords blank cs
  rw [words_eq_ite]
  split
  · next hnil =>
    rw [hnil, List.nil_append] at hcs
    exact hcs ▸ hws
  · next hne =>
    have hgap : ∀ d ∈ ([] : List Char), blank d = true := nofun
    have := Separated.cons hgap hne hword hrest hws
    rwa [List.nil_append, ← hcs] at this

/-- **The words of a text** are those it is separated into by blanks. This
tells the words without the recursion that finds them. -/
theorem words_eq_iff : words blank cs = ws ↔ Separated blank ws cs :=
  ⟨fun h => h ▸ separated_words blank cs, Separated.words_eq⟩

end FlatC.Text
