import FlatC.Proofs.Source.Lexemes

/-!
# What a cut looks at

To cut something off, the bytes ahead are looked at: for the line feed that
ends a directive, for the `*/` that ends a comment, for the quote that ends
a literal, for the byte behind a slash. Where a cut ends, looking ahead has
ended too. So the bytes behind a cut make no difference to it, and what is
cut off in front of them is cut off as well where the source ends there
(`Lexeme.first_append`).

The converse fails: a comment that the source ends in goes on if there is
more.
-/

namespace FlatC

variable {near far : List UInt8}

/-! ## Measures -/

/-- A line that ends is as long whatever comes behind its line feed. -/
theorem lineLength_append (h : lineLength (near ++ far) < near.length) :
    lineLength near = lineLength (near ++ far) := by
  induction near with
  | nil => cases h
  | cons b near ih =>
    rw [List.cons_append, lineLength] at h ⊢
    rw [lineLength]
    split at h
    · next hb => rw [if_pos hb, if_pos hb]
    · next hb =>
      rw [if_neg hb, if_neg hb, ih (Nat.lt_of_succ_lt_succ h)]

/-- There is something through the end of a comment where anything is. -/
theorem blockLength_pos (b : UInt8) (bytes : List UInt8) :
    0 < blockLength (b :: bytes) := by
  cases bytes with
  | nil => exact Nat.one_pos
  | cons c bytes =>
    rw [blockLength]
    split
    · exact Nat.two_pos
    · exact Nat.succ_pos _

/-- A comment that is closed is as long whatever comes behind. The two bytes
that close it are both in front of what comes behind. -/
theorem blockLength_append (h : blockLength (near ++ far) ≤ near.length) :
    blockLength near = blockLength (near ++ far) := by
  induction near with
  | nil => exact (Nat.le_zero.mp h).symm
  | cons a near ih =>
    cases near with
    | nil =>
      refine Nat.le_antisymm (blockLength_pos a far) ?_
      exact h
    | cons b near =>
      rw [List.cons_append, List.cons_append, blockLength] at h ⊢
      rw [blockLength]
      split at h
      · next hend => rw [if_pos hend, if_pos hend]
      · next hend =>
        rw [if_neg hend, if_neg hend, ih (Nat.le_of_succ_le_succ h)]
        rfl

namespace Lexeme

variable {glued : Bool} {b : UInt8}

/-- A string literal that is closed has the same body whatever comes behind
its quote. -/
theorem bodyLength_append {escaped : Bool}
    (h : bodyLength escaped (near ++ far) < near.length) :
    bodyLength escaped near = bodyLength escaped (near ++ far) := by
  induction near generalizing escaped with
  | nil => cases h
  | cons b near ih =>
    rw [List.cons_append, bodyLength] at h ⊢
    rw [bodyLength]
    split at h
    · next hb => rw [if_pos hb, if_pos hb]
    · next hb =>
      rw [if_neg hb, if_neg hb, ih (Nat.lt_of_succ_lt_succ h)]

/-- A character literal has something behind its quote, and its length is told
by the first byte of that. -/
theorem characterLength_append
    (h : characterLength (near ++ far) ≤ near.length) :
    characterLength near = characterLength (near ++ far) := by
  cases near with
  | nil =>
    unfold characterLength at h
    split at h <;> cases h
  | cons a near => rfl

/-! ## Cuts -/

/-- **A cut does not look behind its end.** Each kind is looked at by itself,
most of them by the measure that finds their end. A slash that divides has
none: with nothing behind it, it divides as well. -/
theorem Cuts.of_append {cut : Cut} (h : Cuts glued b (near ++ far) cut)
    (hle : cut.length ≤ near.length) : Cuts glued b near cut := by
  generalize hrest : near ++ far = rest at h
  cases h with
  | directive =>
    subst hrest
    have hline := lineLength_append hle
    rw [← hline, List.take_append_of_le_length (lineLength_le near)]
    exact .directive near
  | newline => exact .newline near
  | comment more =>
    cases near with
    | nil => cases hle
    | cons c near =>
      rw [List.cons_append] at hrest
      obtain ⟨rfl, rfl⟩ := List.cons.inj hrest
      have hline := lineLength_append (Nat.le_of_succ_le_succ hle)
      rw [← hline, List.take_append_of_le_length (lineLength_le near)]
      exact .comment near
  | block more =>
    cases near with
    | nil => cases hle
    | cons c near =>
      rw [List.cons_append] at hrest
      obtain ⟨rfl, rfl⟩ := List.cons.inj hrest
      have hblock := blockLength_append (Nat.le_of_succ_le_succ hle)
      rw [List.take_append_of_le_length (Nat.le_of_succ_le_succ hle),
        ← hblock]
      exact .block near
  | division _ hslash hasterisk =>
    subst hrest
    cases near with
    -- nothing is behind the slash, so neither of the two that it is not is
    | nil => exact .division [] (by simp) (by simp)
    | cons c near => exact .division _ hslash hasterisk
  | character =>
    subst hrest
    have hcharacter := characterLength_append hle
    rw [List.take_append_of_le_length hle, ← hcharacter]
    exact .character near
  | string =>
    subst hrest
    have hbody := bodyLength_append hle
    rw [List.take_append_of_le_length hle,
      List.take_append_of_le_length (Nat.le_of_succ_le hle), ← hbody]
    exact .string near
  | symbol _ hsymbol hslash => exact .symbol near hsymbol hslash
  | nothing _ hhash hfeed hsingle hdouble hsymbol =>
    exact .nothing near hhash hfeed hsingle hdouble hsymbol

/-- **What is cut off in front of some bytes** is cut off without them, if the
cut ends there. -/
theorem first_append
    (h : (first glued b (near ++ far)).length ≤ near.length) :
    first glued b near = first glued b (near ++ far) :=
  ((cuts_first glued b (near ++ far)).of_append h).first_eq

end Lexeme

end FlatC
