/-!
# What a text begins with

Directives and options are told apart by the text they begin with, and
what matters about them is what stands behind it. `behind?` asks for both
at once: it is the rest of a text that begins as it should, and nothing
for one that does not.
-/

namespace FlatC.Text

/-- **What stands behind a lead** in a text that begins with it. Nothing and
the empty rest are different answers. -/
def behind? : List Char → List Char → Option (List Char)
  | [], cs => some cs
  | _ :: _, [] => none
  | p :: ps, c :: cs => if p = c then behind? ps cs else none

/-- The empty lead stands in front of every text. -/
@[simp] theorem behind?_nil (cs : List Char) : behind? [] cs = some cs := rfl

/-- **A text begins with a lead exactly when something stands behind
it.** -/
theorem behind?_eq_some_iff {ps cs after : List Char} :
    behind? ps cs = some after ↔ cs = ps ++ after := by
  induction ps generalizing cs with
  | nil => simp [behind?]
  | cons p ps ih =>
    cases cs with
    | nil => simp [behind?]
    | cons c cs =>
      by_cases h : p = c
      · simp [behind?, h, ih]
      · simp [behind?, h, Ne.symm h]

end FlatC.Text
