/-!
# Tokens

A token is a text and the place it came from: the file, by its number in
the table of files, and the line. Tokens are kept in numbered slots, and
both kinds of number are types of their own, so that a slot is never taken
for a file.

Numbers are shown with their kind in front, `TokenId(3)` and `FileId(0)`.
Both kinds are natural numbers, and so are lines. Words of 32 bits hold them
as long as fewer than `2 ^ 32` tokens are put in and as many files met; the
theory of chains and of tables says how far the numbers go.
-/

namespace FlatC

/-- **The slot a token is kept in.** It says nothing about where in the chain
the token stands, and may name another token later. -/
structure TokenId where
  index : Nat
  deriving DecidableEq, Repr

/-- **The number of a source file**: its place in the table of files, which it
keeps. -/
structure FileId where
  index : Nat
  deriving DecidableEq, Repr

/-- The first file of a table, and the file that is given for a slot without a
token. -/
def FileId.first : FileId := ⟨0⟩

/-- How a slot is shown, with its kind in front. -/
def TokenId.label (id : TokenId) : String := "TokenId(" ++ id.index.repr ++ ")"

/-- How a file number is shown, with its kind in front. -/
def FileId.label (id : FileId) : String := "FileId(" ++ id.index.repr ++ ")"

/-- **A token**: its text, and the line and file it came from. A token that a
pass puts in has the place of one that was there. -/
structure Token where
  text : String
  line : Nat
  file : FileId
  deriving DecidableEq, Repr

namespace Token

/-- The token with another text, at the same place. This is the only way in
which a pass changes a token. -/
def withText (t : Token) (text : String) : Token := { t with text }

@[simp] theorem text_withText (t : Token) (s : String) :
    (t.withText s).text = s := rfl

@[simp] theorem line_withText (t : Token) (s : String) :
    (t.withText s).line = t.line := rfl

@[simp] theorem file_withText (t : Token) (s : String) :
    (t.withText s).file = t.file := rfl

end Token

end FlatC
