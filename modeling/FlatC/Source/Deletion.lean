import FlatC.Text.Blank

/-!
# Deletion comments

Old code sometimes says in a comment who frees what, as in
`// fred is deleted by the caller`. Such a comment names what is deleted
with its first word, and says so with the word `deleted` somewhere after
it. Only whole words count, and words are separated by ASCII blanks.
-/

namespace FlatC.Comment

/-- **What a line comment declares deleted**: its first word, if a later word
is `deleted`. The word has to stand by itself; `deleted.` is another one. -/
def deleted? (comment : String) : Option String :=
  match Text.words Text.isAsciiBlank comment.toList with
  | [] => none
  | first :: more =>
    if more.contains "deleted".toList then some (String.ofList first)
    else none

/-- What a comment declares deleted is never the empty text, so it always
becomes a token. -/
theorem ne_empty_of_deleted?_eq_some {comment name : String}
    (h : deleted? comment = some name) : name ≠ "" := by
  unfold deleted? at h
  split at h
  · cases h
  · next first more hw =>
    split at h
    · cases h
      have hf : first ≠ [] :=
        Text.ne_nil_of_mem_words (hw ▸ List.mem_cons_self ..)
      intro he
      exact hf (String.ofList_eq_empty_iff.mp he)
    · cases h

end FlatC.Comment
