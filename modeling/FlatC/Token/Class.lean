/-!
# Classes of token texts

What a text is taken for is decided by its first character, except that
eight keywords begin statements and so never name a type. No scope and no
grammar is involved: `int`, `x` and `while` are all names.
-/

namespace FlatC.Token

/-- Whether a text starts with one of the given characters. An operator of two
characters is taken for its first one. -/
def startsWithAny (chars : List Char) (text : String) : Bool :=
  match text.toList with
  | [] => false
  | c :: _ => chars.contains c

/-- **A name** starts with an ASCII letter or an underscore. The rest of the
text does not matter. -/
def isName (text : String) : Bool :=
  match text.toList with
  | [] => false
  | c :: _ => c.isAlpha || c == '_'

/-- **A number** starts with an ASCII digit, so `10UL` is one and `- 1` is two
tokens. -/
def isNumber (text : String) : Bool :=
  match text.toList with
  | [] => false
  | c :: _ => c.isDigit

/-- The keywords that begin statements. Other keywords, such as `while`, pass
for names of types. -/
def statementKeywords : List String :=
  ["delete", "return", "else", "goto", "case", "new", "throw", "sizeof"]

/-- Whether a text is one of the keywords that begin statements, in full. -/
def isStatementKeyword (text : String) : Bool :=
  statementKeywords.contains text

/-- **A type name** is a name that begins no statement, whether or not it was
ever declared as one. -/
def isTypeName (text : String) : Bool :=
  isName text && !isStatementKeyword text

/-- Every type name is a name, but not the other way around. -/
theorem isName_of_isTypeName {text : String} (h : isTypeName text = true) :
    isName text = true := by
  rw [isTypeName, Bool.and_eq_true] at h
  exact h.1

end FlatC.Token
