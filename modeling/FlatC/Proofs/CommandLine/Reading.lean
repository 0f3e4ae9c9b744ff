import FlatC.CommandLine.Options
import FlatC.Proofs.Text.Numeral

/-!
# Command lines

The words behind a command are read one after another, and each adds to one
part of what is asked for: an option for a size to that size, `--lines` to the
listing, a word that is no option to the path. So what is asked for can be
told part by part, from the words that have to do with this part and no others
(`Options.snd_parseOn`): the path is the first word that is no option, and a
size is the one that the last of its options gives, of those that give one at
all. An option that gives none leaves in force what an earlier one gave.

It follows that words of different kinds may change places. What is asked for
stays the same as long as the words that are no options keep their order, and
so do the options for each size (`Options.understood`).
-/

namespace FlatC

/-- The word for a command. -/
def Command.word : Command → String
  | lex => "lex"
  | simplify => "simplify"

/-- Each command is asked for by its word. -/
theorem Command.ofWord?_word (command : Command) :
    Command.ofWord? command.word = some command := by
  cases command <;> rfl

/-- Whether a text begins with another, which it may also be. -/
def Text.Begins (lead text : String) : Prop := lead.toList <+: text.toList

instance (lead text : String) : Decidable (Text.Begins lead text) :=
  inferInstanceAs (Decidable (lead.toList <+: text.toList))

theorem Text.begins_iff {lead text : String} :
    Begins lead text ↔ ∃ rest, text = lead ++ rest := by
  constructor
  · rintro ⟨rest, hrest⟩
    refine ⟨String.ofList rest, ?_⟩
    rw [← String.toList_inj, String.toList_append, String.toList_ofList, hrest]
  · rintro ⟨rest, rfl⟩
    exact ⟨rest.toList, String.toList_append.symm⟩

/-- Something stands behind a lead, be it the empty text, exactly where the
text begins with it. -/
theorem Text.isSome_behind?_iff {lead text : String} :
    (Text.behind? lead.toList text.toList).isSome = true
      ↔ Begins lead text := by
  rw [Option.isSome_iff_exists]
  exact exists_congr fun _ => behind?_eq_some_iff.trans eq_comm

namespace Options

open Text (Begins)

variable {host : Target}
variable {s : State} {text value word : String} {words : List String}
variable {which other : SizeOption} {n : Nat} {cs : List Char}

/-! ## Sizes -/

/-- **A text that writes a size**, a positive number that fits in 32 bits: in
decimal digits, with or without a plus sign in front. Leading zeros are
allowed. -/
structure Writes (text : String) (n : Nat) : Prop where
  digits : ∃ cs : List Char, (text.toList = cs ∨ text.toList = '+' :: cs)
    ∧ cs ≠ [] ∧ (∀ c ∈ cs, c.isDigit = true) ∧ Nat.ofDigitChars 10 cs 0 = n
  pos : 0 < n
  le : n ≤ Numeral.maxWord32

/-- The size that digits without a sign write. -/
def unsigned? (cs : List Char) : Option Nat :=
  (Numeral.ofDigits? cs).filter fun n => 0 < n && n ≤ Numeral.maxWord32

/-- It is the number that the digits write, if that is a size. -/
theorem unsigned?_eq_some_iff : unsigned? cs = some n
    ↔ (cs ≠ [] ∧ (∀ c ∈ cs, c.isDigit = true) ∧ Nat.ofDigitChars 10 cs 0 = n)
      ∧ 0 < n ∧ n ≤ Numeral.maxWord32 := by
  rw [unsigned?, Option.filter_eq_some_iff, Numeral.ofDigits?_eq_some_iff,
    Bool.and_eq_true, decide_eq_true_iff, decide_eq_true_iff]

/-- A plus sign in front does not matter. -/
theorem size?_of_plus (h : value.toList = '+' :: cs) :
    size? value = unsigned? cs := by
  simp only [size?, h, unsigned?]
  cases Numeral.ofDigits? cs <;> rfl

/-- Without a plus sign the whole text has to be digits. -/
theorem size?_of_ne_plus (h : ∀ cs, value.toList ≠ '+' :: cs) :
    size? value = unsigned? value.toList := by
  rw [size?, unsigned?]
  split
  · next m hm =>
    split at hm
    · next hcs => exact absurd hcs (h _)
    · rw [hm]
      rfl
  · next hm =>
    split at hm
    · next hcs => exact absurd hcs (h _)
    · rw [hm]
      rfl

/-- **A size is read from the texts that write it**, and from no others. So
what an option gives can be told without the reader. -/
theorem size?_eq_some_iff : size? value = some n ↔ Writes value n := by
  constructor
  · intro h
    by_cases hplus : ∃ cs, value.toList = '+' :: cs
    · obtain ⟨cs, hcs⟩ := hplus
      rw [size?_of_plus hcs] at h
      obtain ⟨hdigits, hpos, hle⟩ := unsigned?_eq_some_iff.mp h
      exact ⟨⟨cs, .inr hcs, hdigits⟩, hpos, hle⟩
    · rw [size?_of_ne_plus fun cs hcs => hplus ⟨cs, hcs⟩] at h
      obtain ⟨hdigits, hpos, hle⟩ := unsigned?_eq_some_iff.mp h
      exact ⟨⟨_, .inl rfl, hdigits⟩, hpos, hle⟩
  · rintro ⟨⟨cs, hcs, hdigits⟩, hpos, hle⟩
    have hread := unsigned?_eq_some_iff.mpr ⟨hdigits, hpos, hle⟩
    rcases hcs with rfl | hcs
    · -- a plus sign is no digit, so there is none in front
      rw [size?_of_ne_plus, hread]
      intro cs hcs
      rw [hcs] at hdigits
      exact absurd (hdigits.2.1 '+' List.mem_cons_self) (by decide)
    · rw [size?_of_plus hcs, hread]

/-- A word is an option for a size if it is the lead of that size with
something behind it. -/
theorem sizeValue?_eq_some_iff :
    sizeValue? which text = some value ↔ text = which.lead ++ value := by
  rw [sizeValue?, Option.map_eq_some_iff]
  constructor
  · rintro ⟨rest, hrest, rfl⟩
    rw [← String.toList_inj, Text.behind?_eq_some_iff.mp hrest,
      String.toList_append, String.toList_ofList]
  · rintro rfl
    refine ⟨value.toList, ?_, String.ofList_toList⟩
    rw [String.toList_append, Text.behind?_eq_some_iff]

theorem sizeValue?_eq_none_iff :
    sizeValue? which text = none ↔ ¬ Begins which.lead text := by
  rw [sizeValue?, Option.map_eq_none_iff, ← Text.isSome_behind?_iff,
    Option.not_isSome_iff_eq_none]

/-- **The size that a word gives**, if it is an option for this size. An
option with a value that is no size gives none, like any other word. -/
def given? (which : SizeOption) (word : String) : Option Nat :=
  (sizeValue? which word).bind size?

theorem given?_eq_some_iff : given? which word = some n
    ↔ ∃ value, word = which.lead ++ value ∧ Writes value n := by
  simp only [given?, Option.bind_eq_some_iff, sizeValue?_eq_some_iff,
    size?_eq_some_iff]

/-! ## Words -/

/-- **An option for a size** is an option for no other, as no two of the leads
begin alike. -/
theorem sizeValue?_lead (which other : SizeOption) (value : String) :
    sizeValue? other (which.lead ++ value)
      = if other = which then some value else none := by
  split
  · next h => exact sizeValue?_eq_some_iff.mpr (h ▸ rfl)
  · next h =>
    rw [sizeValue?, String.toList_append]
    cases which <;> cases other <;> first | rfl | exact absurd rfl h

theorem sizeValue?_lines (which : SizeOption) :
    sizeValue? which "--lines" = none := by
  cases which <;> rfl

theorem begins_lead (which : SizeOption) (value : String) :
    Begins "--" (which.lead ++ value) := by
  rw [SizeOption.lead, String.append_assoc, String.append_assoc]
  exact Text.begins_iff.mpr ⟨_, rfl⟩

/-- A word that is no option gives no size. -/
theorem sizeValue?_of_not_begins (h : ¬ Begins "--" text)
    (which : SizeOption) : sizeValue? which text = none := by
  cases hvalue : sizeValue? which text with
  | none => rfl
  | some value =>
    rw [sizeValue?_eq_some_iff] at hvalue
    exact absurd (hvalue ▸ begins_lead which value) h

theorem lead_append_ne (which : SizeOption) (value : String) :
    which.lead ++ value ≠ "--lines" := by
  intro h
  have hvalue := sizeValue?_lead which which value
  rw [h, sizeValue?_lines, if_pos rfl] at hvalue
  cases hvalue

theorem ofText_lead (which : SizeOption) (value : String) :
    Word.ofText (which.lead ++ value) = .size which value := by
  rw [Word.ofText, if_neg (lead_append_ne which value), sizeValue?_lead,
    sizeValue?_lead, sizeValue?_lead]
  cases which <;> rfl

/-- **What a word is**, told by how it begins. The four cases exclude each
other. -/
theorem ofText_cases (text : String) :
    (text = "--lines" ∧ Word.ofText text = .lines)
      ∨ (∃ which value, text = which.lead ++ value
        ∧ Word.ofText text = .size which value)
      ∨ (Begins "--" text ∧ text ≠ "--lines"
        ∧ (∀ which, sizeValue? which text = none)
        ∧ Word.ofText text = .unknown)
      ∨ (¬ Begins "--" text ∧ Word.ofText text = .argument) := by
  by_cases hlines : text = "--lines"
  · exact .inl ⟨hlines, if_pos hlines⟩
  by_cases hsize : ∃ (which : SizeOption) (value : String),
      text = which.lead ++ value
  · obtain ⟨which, value, rfl⟩ := hsize
    exact .inr (.inl ⟨which, value, rfl, ofText_lead which value⟩)
  have hnone : ∀ which, sizeValue? which text = none := fun which =>
    Option.eq_none_iff_forall_ne_some.mpr fun value hvalue =>
      hsize ⟨which, value, sizeValue?_eq_some_iff.mp hvalue⟩
  have hof : Word.ofText text = if (Text.behind? "--".toList
      text.toList).isSome then .unknown else .argument := by
    rw [Word.ofText, if_neg hlines, hnone, hnone, hnone]
  rw [hof]
  by_cases hdashes : Begins "--" text
  · rw [if_pos (Text.isSome_behind?_iff.mpr hdashes)]
    exact .inr (.inr (.inl ⟨hdashes, hlines, hnone, rfl⟩))
  · rw [if_neg (mt Text.isSome_behind?_iff.mp hdashes)]
    exact .inr (.inr (.inr ⟨hdashes, rfl⟩))

theorem given?_lead (which other : SizeOption) (value : String) :
    given? other (which.lead ++ value)
      = if other = which then size? value else none := by
  rw [given?, sizeValue?_lead]
  split <;> rfl

theorem given?_eq_none (h : sizeValue? which text = none) :
    given? which text = none := by
  rw [given?, h, Option.bind_none]

/-- **A word read**: it changes the one part of what has been read that it has
to do with, or leaves no more than a warning. What follows is told part by
part from this. -/
theorem step_cases (s : State) (text : String) :
    (text = "--lines" ∧ (∀ which, given? which text = none)
        ∧ s.step text = { s with byPlace := true })
      ∨ (∃ which n, Begins "--" text ∧ text ≠ "--lines"
        ∧ (∀ other, given? other text
          = if other = which then some n else none)
        ∧ s.step text = { s with target := which.set n s.target })
      ∨ (¬ Begins "--" text ∧ s.path = none
        ∧ (∀ which, given? which text = none)
        ∧ s.step text = { s with path := some text })
      ∨ ((Begins "--" text ∨ s.path ≠ none) ∧ text ≠ "--lines"
        ∧ (∀ which, given? which text = none)
        ∧ ∃ w, s.step text = { s with warnings := w :: s.warnings }) := by
  rw [State.step]
  rcases ofText_cases text with ⟨rfl, hof⟩ | ⟨which, value, rfl, hof⟩
    | ⟨hdashes, hlines, hnone, hof⟩ | ⟨hdashes, hof⟩
  · rw [hof]
    exact .inl ⟨rfl, fun which => given?_eq_none (sizeValue?_lines which), rfl⟩
  · have hdashes := begins_lead which value
    have hlines := lead_append_ne which value
    have hgiven := fun other => given?_lead which other value
    rw [hof]
    dsimp only
    cases hsize : size? value with
    | some n =>
      rw [hsize] at hgiven
      exact .inr (.inl ⟨which, n, hdashes, hlines, hgiven, rfl⟩)
    | none =>
      rw [hsize] at hgiven
      exact .inr (.inr (.inr ⟨.inl hdashes, hlines,
        fun other => (hgiven other).trans (ite_self _), _, rfl⟩))
  · rw [hof]
    exact .inr (.inr (.inr ⟨.inl hdashes, hlines,
      fun which => given?_eq_none (hnone which), _, rfl⟩))
  · have hnone : ∀ which, given? which text = none := fun which =>
      given?_eq_none (sizeValue?_of_not_begins hdashes which)
    have hlines : text ≠ "--lines" := by
      rintro rfl
      exact hdashes (by decide)
    rw [hof]
    cases hpath : s.path with
    | none => exact .inr (.inr (.inl ⟨hdashes, rfl, hnone, rfl⟩))
    | some path =>
      exact .inr (.inr (.inr ⟨.inr nofun, hlines, hnone, _, rfl⟩))

/-! ## Parts of what is asked for -/

/-- A word is the path if it is no option and there is none yet. -/
theorem path_step (s : State) (text : String) : (s.step text).path
    = s.path.or (if Begins "--" text then none else some text) := by
  rcases step_cases s text with ⟨rfl, -, h⟩ | ⟨which, n, hdashes, -, -, h⟩
    | ⟨hdashes, hpath, -, h⟩ | ⟨hdashes, -, -, w, h⟩
  · rw [h, if_pos (by decide), Option.or_none]
  · rw [h, if_pos hdashes, Option.or_none]
  · rw [h, if_neg hdashes, hpath, Option.none_or]
  · rw [h]
    rcases hdashes with hdashes | hpath
    · rw [if_pos hdashes, Option.or_none]
    · obtain ⟨path, hpath⟩ := Option.ne_none_iff_exists'.mp hpath
      rw [hpath, Option.some_or]

/-- Only one word has to do with the listing. -/
theorem byPlace_step (s : State) (text : String) :
    (s.step text).byPlace = (s.byPlace || "--lines" == text) := by
  have hkept : text ≠ "--lines" →
      (s.byPlace || "--lines" == text) = s.byPlace := fun h => by
    rw [beq_eq_false_iff_ne.mpr h.symm, Bool.or_false]
  rcases step_cases s text with ⟨rfl, -, h⟩ | ⟨which, n, -, hlines, -, h⟩
    | ⟨hdashes, -, -, h⟩ | ⟨-, hlines, -, w, h⟩
  · rw [h, beq_self_eq_true, Bool.or_true]
  · rw [h, hkept hlines]
  · rw [h, hkept fun hlines => hdashes (hlines ▸ by decide)]
  · rw [h, hkept hlines]

/-- A word changes a size only if it gives it. -/
theorem get_step (which : SizeOption) (s : State) (text : String) :
    which.get (s.step text).target
      = (given? which text).getD (which.get s.target) := by
  rcases step_cases s text with ⟨-, hnone, h⟩ | ⟨other, n, -, -, hgiven, h⟩
    | ⟨-, -, hnone, h⟩ | ⟨-, -, hnone, w, h⟩
  · rw [h, hnone, Option.getD_none]
  · rw [h, hgiven]
    split
    · next heq => rw [heq, SizeOption.get_set, Option.getD_some]
    · next hne => rw [SizeOption.get_set_of_ne hne, Option.getD_none]
  · rw [h, hnone, Option.getD_none]
  · rw [h, hnone, Option.getD_none]

/-- **A target whose sizes are given**, of those that can be given, and are
the host's otherwise. -/
def sized (host : Target) (size : SizeOption → Nat) : Target :=
  { host with
    pointer := size .pointer
    int := size .int
    long := size .long }

/-- No word changes a size that cannot be given. -/
theorem target_step (h : s.target = sized host fun which => which.get s.target)
    (text : String) : (s.step text).target
      = sized host fun which => which.get (s.step text).target := by
  rcases step_cases s text with ⟨-, -, hs⟩ | ⟨other, n, -, -, -, hs⟩
    | ⟨-, -, -, hs⟩ | ⟨-, -, -, w, hs⟩
  · rw [hs]
    exact h
  · rw [hs]
    dsimp only
    rw [h]
    cases other <;> rfl
  · rw [hs]
    exact h
  · rw [hs]
    exact h

/-- **The path** is the first word that is no option, wherever the options
stand. -/
theorem path_foldl (s : State) (words : List String) :
    (words.foldl State.step s).path
      = s.path.or (words.find? fun word => ¬ Begins "--" word) := by
  induction words generalizing s with
  | nil => rw [List.foldl_nil, List.find?_nil, Option.or_none]
  | cons word words ih =>
    rw [List.foldl_cons, ih, path_step, Option.or_assoc, List.find?_cons]
    by_cases h : Begins "--" word <;> simp [h]

/-- One word among all of them asks for the listing by place. -/
theorem byPlace_foldl (s : State) (words : List String) :
    (words.foldl State.step s).byPlace
      = (s.byPlace || words.contains "--lines") := by
  induction words generalizing s with
  | nil => simp
  | cons word words ih =>
    rw [List.foldl_cons, ih, byPlace_step, List.contains_cons, Bool.or_assoc]

/-- **A size** is the one that was given last, and what it was before if none
was. -/
theorem get_foldl (which : SizeOption) (s : State) (words : List String) :
    which.get (words.foldl State.step s).target
      = ((words.filterMap (given? which)).getLast?).getD
        (which.get s.target) := by
  induction words generalizing s with
  | nil => rfl
  | cons word words ih =>
    rw [List.foldl_cons, ih, get_step]
    cases h : given? which word with
    | none => rw [List.filterMap_cons_none h, Option.getD_none]
    | some n =>
      rw [List.filterMap_cons_some h, List.getLast?_cons, Option.getD_some,
        Option.getD_some]

/-- All sizes but those that can be given stay the host's. -/
theorem target_foldl (h : s.target = sized host fun which => which.get s.target)
    (words : List String) : (words.foldl State.step s).target
      = sized host fun which => which.get (words.foldl State.step s).target := by
  induction words generalizing s with
  | nil => exact h
  | cons word words ih => exact ih (target_step h word)

/-- **The size that is asked for**: the one that was given last, and the
host's if none was. -/
def chosen (host : Target) (words : List String) (which : SizeOption) : Nat :=
  ((words.filterMap (given? which)).getLast?).getD (which.get host)

/-- **What is asked for, part by part.** Each part is told by the words alone,
with no account of the order in which words of different kinds come. -/
theorem snd_parseOn (host : Target) (command : Command) (words : List String) :
    (parseOn host (command.word :: words)).2
      = match words.find? fun word => ¬ Begins "--" word with
        | none => .error .missingPath
        | some path =>
          .ok ⟨command, path, sized host (chosen host words),
            words.contains "--lines"⟩ := by
  let s : State := { target := host }
  have hpath := path_foldl s words
  have hstart : s.target = sized host fun which => which.get s.target := rfl
  have htarget := target_foldl hstart words
  rw [parseOn, Command.ofWord?_word]
  dsimp only
  rw [hpath, Option.none_or]
  cases words.find? fun word => ¬ Begins "--" word with
  | none => rfl
  | some path =>
    dsimp only
    rw [htarget, byPlace_foldl, Bool.false_or]
    simp only [get_foldl]
    rfl

/-! ## Words in another order -/

/-- **The size that the last option gives** of those that give one. An option
behind it may be there, but gives none. -/
def Gives (which : SizeOption) (words : List String) (n : Nat) : Prop :=
  ∃ before value after, words = before ++ (which.lead ++ value) :: after
    ∧ Writes value n
    ∧ ∀ later m, which.lead ++ later ∈ after → ¬ Writes later m

theorem given?_eq_none_iff : given? which word = none
    ↔ ∀ value n, word = which.lead ++ value → ¬ Writes value n := by
  rw [Option.eq_none_iff_forall_ne_some]
  simp only [ne_eq, given?_eq_some_iff, not_exists, not_and]
  exact forall_comm

theorem forall_given?_eq_none_iff :
    (∀ word ∈ words, given? which word = none)
      ↔ ∀ value n, which.lead ++ value ∈ words → ¬ Writes value n := by
  simp only [given?_eq_none_iff]
  exact ⟨fun h value n hmem => h _ hmem value n rfl,
    fun h word hmem value n hword => h value n (hword ▸ hmem)⟩

/-- The last size that is given is the one that `Gives` tells: an argument
with this size, and none behind it that gives any. -/
theorem getLast?_given?_eq_some_iff :
    (words.filterMap (given? which)).getLast? = some n
      ↔ Gives which words n := by
  rw [List.getLast?_filterMap, List.findSome?_eq_some_iff]
  constructor
  · rintro ⟨after, word, before, hwords, hword, hafter⟩
    obtain ⟨value, rfl, hvalue⟩ := given?_eq_some_iff.mp hword
    refine ⟨before.reverse, value, after.reverse, ?_, hvalue,
      forall_given?_eq_none_iff.mp fun word hmem =>
        hafter word (List.mem_reverse.mp hmem)⟩
    rw [← List.reverse_reverse words, hwords]
    simp
  · rintro ⟨before, value, after, rfl, hvalue, hafter⟩
    refine ⟨after.reverse, which.lead ++ value, before.reverse, by simp,
      given?_eq_some_iff.mpr ⟨value, rfl, hvalue⟩, fun word hmem => ?_⟩
    exact forall_given?_eq_none_iff.mpr hafter word (List.mem_reverse.mp hmem)

theorem getLast?_given?_eq_none_iff :
    (words.filterMap (given? which)).getLast? = none
      ↔ ∀ value n, which.lead ++ value ∈ words → ¬ Writes value n := by
  rw [List.getLast?_eq_none_iff, List.filterMap_eq_nil_iff,
    forall_given?_eq_none_iff]

/-- **Words in another order.** Those that are no options keep theirs, and so
do the options for each size. Options for different sizes, and all others, may
change places. -/
structure Reordered (words others : List String) : Prop where
  perm : others.Perm words
  arguments : (others.filter fun word => ¬ Begins "--" word)
    = words.filter fun word => ¬ Begins "--" word
  sizes : ∀ which : SizeOption,
    (others.filter fun word => Begins which.lead word)
      = words.filter fun word => Begins which.lead word

/-- **Only options for a size** have to do with it, so the order of the others
does not matter. -/
theorem filterMap_given?_filter (which : SizeOption) (words : List String) :
    (words.filter fun word => Begins which.lead word).filterMap (given? which)
      = words.filterMap (given? which) := by
  rw [List.filterMap_filter]
  refine congrArg (fun f => words.filterMap f) (funext fun word => ?_)
  split
  · rfl
  · next h =>
    rw [decide_eq_true_iff, ← sizeValue?_eq_none_iff] at h
    exact (given?_eq_none h).symm

/-- What is asked for stays the same when words are reordered in this way. -/
theorem snd_parseOn_of_reordered {others : List String} (host : Target)
    (command : Command) (h : Reordered words others) :
    (parseOn host (command.word :: others)).2
      = (parseOn host (command.word :: words)).2 := by
  have hpath : (others.find? fun word => ¬ Begins "--" word)
      = words.find? fun word => ¬ Begins "--" word := by
    rw [← List.head?_filter, h.arguments, List.head?_filter]
  have hsize : chosen host others = chosen host words := by
    funext which
    rw [chosen, ← filterMap_given?_filter, h.sizes, filterMap_given?_filter,
      chosen]
  have hlines : others.contains "--lines" = words.contains "--lines" := by
    rw [Bool.eq_iff_iff, List.contains_iff_mem, List.contains_iff_mem,
      h.perm.mem_iff]
  rw [snd_parseOn, snd_parseOn, hpath, hsize, hlines]

/-- **What a command line asks for**, told by the words behind the command:
the path, the listing, and each size by the option that gives it. -/
structure Asks (host : Target) (command : Command) (words : List String)
    (o : Options) : Prop where
  command_eq : o.command = command
  /-- The path is the first word that is no option. -/
  path : ∃ before after, words = before ++ o.path :: after
    ∧ ¬ Begins "--" o.path ∧ ∀ word ∈ before, Begins "--" word
  /-- Tokens are listed by place exactly if there is a word that says so. -/
  byPlace_iff : o.byPlace = true ↔ "--lines" ∈ words
  /-- A size is the one that the last of its options gives, of those that give
  one, and the host's if none of them does. -/
  size_iff : ∀ (which : SizeOption) (n : Nat), which.get o.target = n
    ↔ Gives which words n ∨ n = which.get host
      ∧ ∀ value m, which.lead ++ value ∈ words → ¬ Writes value m
  /-- No size is 0. -/
  pos : ∀ which : SizeOption, 0 < which.get o.target
  /-- The sizes that cannot be given are the host's. -/
  target_eq : o.target = { host with
    pointer := o.target.pointer, int := o.target.int, long := o.target.long }

/-- **A command line that begins with a command**, read on some host. It is
told when it asks for something, for what, and that other orders ask for the
same. -/
structure Understood (host : Target) (command : Command)
    (words : List String) : Prop where
  /-- It asks for something exactly if there is a word that is no option. -/
  ok_iff : (∃ o, (parseOn host (command.word :: words)).2 = .ok o)
    ↔ ∃ word ∈ words, ¬ Begins "--" word
  /-- If there is none, the path is missed. -/
  error_iff : (parseOn host (command.word :: words)).2 = .error .missingPath
    ↔ ∀ word ∈ words, Begins "--" word
  asks : ∀ o, (parseOn host (command.word :: words)).2 = .ok o →
    Asks host command words o
  /-- Words of different kinds may change places. -/
  reordered : ∀ others, Reordered words others →
    (parseOn host (command.word :: others)).2
      = (parseOn host (command.word :: words)).2

/-- **The sizes that are chosen**, told by the options for them: the one that
the last of these gives, or the host's if none gives any. -/
theorem chosen_eq_iff : chosen host words which = n
    ↔ Gives which words n ∨ n = which.get host
      ∧ ∀ value m, which.lead ++ value ∈ words → ¬ Writes value m := by
  rw [← getLast?_given?_eq_some_iff, ← getLast?_given?_eq_none_iff, chosen]
  cases (words.filterMap (given? which)).getLast? with
  | some m => simp
  | none => simp [eq_comm]

/-- A size that is chosen is positive, as it was given or is the host's. -/
theorem chosen_pos (hhost : host.Positive) (words : List String)
    (which : SizeOption) : 0 < chosen host words which := by
  rcases chosen_eq_iff.mp (rfl : chosen host words which = _) with h | ⟨h, -⟩
  · obtain ⟨_, _, _, _, hvalue, _⟩ := h
    exact hvalue.pos
  · rw [h]
    exact which.get_pos hhost

theorem get_sized (host : Target) (size : SizeOption → Nat)
    (which : SizeOption) : which.get (sized host size) = size which := by
  cases which <;> rfl

/-- **A first word that is no option** makes a command line ask for something,
and its path is that word. -/
theorem asks_of_find? {path : String} (hhost : host.Positive)
    (command : Command)
    (h : (words.find? fun word => ¬ Begins "--" word) = some path) :
    Asks host command words ⟨command, path, sized host (chosen host words),
      words.contains "--lines"⟩ where
  command_eq := rfl
  path := by
    obtain ⟨hpath, before, after, hwords, hbefore⟩ :=
      List.find?_eq_some_iff_append.mp h
    exact ⟨before, after, hwords, by simpa using hpath, by simpa using hbefore⟩
  byPlace_iff := List.contains_iff_mem
  size_iff := fun which n => by rw [get_sized, chosen_eq_iff]
  pos := fun which => by
    rw [get_sized]
    exact chosen_pos hhost words which
  target_eq := rfl

/-- **Command lines are understood**, whatever the words and their order, on
every host whose sizes are positive. -/
theorem understood (hhost : host.Positive) (command : Command)
    (words : List String) : Understood host command words := by
  have hparse := snd_parseOn host command words
  have hreordered : ∀ others, Reordered words others →
      (parseOn host (command.word :: others)).2
        = (parseOn host (command.word :: words)).2 :=
    fun _ => snd_parseOn_of_reordered host command
  cases hfind : words.find? fun word => ¬ Begins "--" word with
  | none =>
    have hall : ∀ word ∈ words, Begins "--" word := by
      simpa using List.find?_eq_none.mp hfind
    rw [hfind] at hparse
    refine ⟨?_, ?_, ?_, hreordered⟩
    · rw [hparse]
      exact iff_of_false nofun
        fun ⟨word, hmem, hword⟩ => hword (hall word hmem)
    · rw [hparse]
      exact iff_of_true rfl hall
    · rw [hparse]
      exact nofun
  | some path =>
    have hasks := asks_of_find? hhost command hfind
    obtain ⟨before, after, hwords, hpath, -⟩ := hasks.path
    have hmem : path ∈ words := by
      rw [hwords]
      exact List.mem_append_right _ List.mem_cons_self
    rw [hfind] at hparse
    refine ⟨?_, ?_, ?_, hreordered⟩
    · rw [hparse]
      exact iff_of_true ⟨_, rfl⟩ ⟨path, hmem, hpath⟩
    · rw [hparse]
      exact iff_of_false nofun fun hall => hpath (hall path hmem)
    · rw [hparse]
      rintro _ ⟨⟩
      exact hasks

/-- On the host that is taken where none is named, a command line that gives
one size twice, and not the others. -/
theorem understood_on_host :
    Target.host.Positive ∧ Understood .host .simplify
      ["--int-size=2", "a.c", "--int-size=+4", "--long-size=0", "--lines"] :=
  ⟨Target.host_positive, understood Target.host_positive _ _⟩

/-- A size that is none leaves the one before it in force, and a second path
is passed over. -/
example : (parse ["lex", "--int-size=2", "a.c", "--lines", "--int-size=0",
    "b.c"]).2
    = .ok ⟨.lex, "a.c", { Target.host with int := 2 }, true⟩ :=
  rfl

end Options

end FlatC
