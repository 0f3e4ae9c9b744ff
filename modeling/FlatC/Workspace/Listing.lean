import FlatC.Text.Numeral
import FlatC.Workspace.Basic

/-!
# Listing tokens

Tokens are listed in two ways: all on one line with single spaces between
them, or **by place**, where every run of tokens of one file and line makes
a line of its own that begins with the place, as in `main.c:3: `. A run
ends where the place changes, so a place that is come back to makes
another line.
-/

namespace FlatC

/-- Whether two tokens come from the same line of the same file. The texts are
not compared. -/
def Token.samePlace (a b : Token) : Bool :=
  a.file == b.file && a.line == b.line

namespace Workspace

/-- **All tokens on one line**, the place they came from left out. -/
def flat (w : Workspace) : String := w.chain.display

/-- How a line begins that lists tokens of this one's place, up to the blank
behind the colon. -/
def placeOf (w : Workspace) (t : Token) : String :=
  (w.files.path? t.file).getD "" ++ ":" ++ Numeral.text t.line ++ ": "

/-- The texts that make up a listing by place, after the token listed last.
Without one it is the start of the listing, and no line has to be ended. -/
def listing (w : Workspace) : Option Token → List Token → List String
  | none, [] => []
  | some _, [] => ["\n"]
  | none, t :: ts => w.placeOf t :: t.text :: w.listing (some t) ts
  | some last, t :: ts =>
    if last.samePlace t then " " :: t.text :: w.listing (some t) ts
    else "\n" :: w.placeOf t :: t.text :: w.listing (some t) ts

/-- **The tokens listed by place.** Each line is ended, the last one too;
without tokens there is no line. -/
def byPlace (w : Workspace) : String :=
  String.join (w.listing none w.chain.tokens)

@[simp] theorem flat_empty : empty.flat = "" := rfl

@[simp] theorem byPlace_empty : empty.byPlace = "" := rfl

end Workspace

end FlatC
