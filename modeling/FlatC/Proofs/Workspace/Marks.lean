import FlatC.Proofs.Text.Numeral
import FlatC.Proofs.Workspace.Growth

/-!
# What marks consist of

The mark of a lexeme is some texts put in the chain one after another, and
which these are depends on little: the path of the file, for the target of an
inclusion, and whether a statement can begin, for a comment
(`Lexeme.texts`). What is in the macro table has no part in that. It has in
what the texts are spelled as: a mark is spelled like the source
(`Workspace.tokens_mark`), and whether a text is **kept** is a matter of the
macros and of hexadecimal literals alone (`Workspace.spelling_eq_iff`).
-/

namespace FlatC

/-- **The texts of a directive's mark**, in a file with a path. A target is
resolved in this file, and the mark holds what it is resolved to. -/
def Directive.texts (path : String) : Directive → List String
  | .inclusion target => ["#include", FileName.resolve path target]
  | .definition name _ => ["def", name, ";"]
  | .malformed => []
  | .other => ["#", ";"]

/-- **The texts of a lexeme's mark**, in a file with a path and given whether
a statement can begin. Only a comment asks for the latter. -/
def Lexeme.texts (path : String) (starts : Bool) : Lexeme → List String
  | .word text => [text]
  | .symbol text => [text]
  | .character text => [text]
  | .string text => [text]
  | .directive line => (Directive.ofLine line).texts path
  | .comment text =>
    match Comment.deleted? text with
    | some name => if starts then ["delete", name, ";"] else []
    | none => []

namespace Hex

/-- The decimal form of a literal is another text, as it has no mark. -/
theorem toDecimal?_ne (text : String) : toDecimal? text ≠ some text := by
  intro h
  obtain ⟨digits, hdigits, htext⟩ := Option.map_eq_some_iff.mp h
  -- the mark of a literal has a letter
  have hmark : ∃ c ∈ text.toList, c.isDigit = false := by
    unfold afterMark? at hdigits
    split at hdigits
    · next hlist => exact ⟨'x', by rw [hlist]; simp, by decide⟩
    · next hlist => exact ⟨'X', by rw [hlist]; simp, by decide⟩
    · cases hdigits
  obtain ⟨c, hc, hdigit⟩ := hmark
  rw [← htext] at hc
  exact Bool.false_ne_true
    (hdigit.symm.trans (Numeral.isDigit_of_mem_text hc))

end Hex

namespace Workspace

variable {w : Workspace} {file : FileId} {line : Nat} {path text : String}

/-! ## Spelling -/

/-- A text put in the chain changes no spelling. -/
@[simp] theorem spelling_append (w : Workspace) (file : FileId) (line : Nat)
    (text : String) : (w.append file line text).spelling = w.spelling := by
  funext s
  rw [spelling, spelling, macros_append]

/-- **When a text is kept**: a macro of that name stands for itself, or there
is none and the text is no hexadecimal literal. A number may be the name of a
macro, so the first can happen. -/
theorem spelling_eq_iff : w.spelling text = text
    ↔ w.macros.find? text = some text
      ∨ w.macros.find? text = none ∧ Hex.toDecimal? text = none := by
  rw [spelling]
  cases w.macros.find? text with
  | some number => simp
  | none =>
    cases hhex : Hex.toDecimal? text with
    | none => simp
    | some decimal =>
      have hne : decimal ≠ text := fun h => Hex.toDecimal?_ne text (h ▸ hhex)
      simp [hne]

/-! ## Texts put in the chain -/

/-- Texts put in the chain change no macro. -/
@[simp] theorem macros_appendAll (w : Workspace) (file : FileId) (line : Nat)
    (texts : List String) :
    (w.appendAll file line texts).macros = w.macros := by
  induction texts generalizing w with
  | nil => rfl
  | cons text texts ih => rw [appendAll_cons, ih, macros_append]

/-- **The tokens some texts become**, as they are spelled, and none for those
that are empty. -/
theorem tokens_appendAll (h : w.chain.Laid w.chain.cells) (file : FileId)
    (line : Nat) (texts : List String) :
    (w.appendAll file line texts).chain.tokens
      = w.chain.tokens ++ (texts.filter fun text => !text.isEmpty).map
        fun text => ⟨w.spelling text, line, file⟩ := by
  induction texts generalizing w with
  | nil => exact (List.append_nil _).symm
  | cons text texts ih =>
    obtain ⟨hlaid, htokens⟩ := tokens_append h file line text
    rw [appendAll_cons, ih hlaid, htokens, spelling_append, List.filter_cons]
    cases text.isEmpty with
    | true => rw [if_pos rfl, List.append_nil]; rfl
    | false =>
      rw [if_neg Bool.false_ne_true, List.append_assoc]
      rfl

/-- **The tokens of a mark** are its texts as they are spelled, all of them
with the file and the line of the lexeme. They are spelled with the macros in
front of the lexeme, even if it defines one. -/
theorem tokens_mark (h : w.chain.Laid w.chain.cells)
    (hpath : w.files.path? file = some path) (line : Nat) (lexeme : Lexeme) :
    (w.mark file line lexeme).1.chain.tokens
      = w.chain.tokens
        ++ ((lexeme.texts path w.atStatementStart).filter
          fun text => !text.isEmpty).map
            fun text => ⟨w.spelling text, line, file⟩ := by
  cases lexeme with
  | word text => exact tokens_appendAll h file line [text]
  | symbol text => exact tokens_appendAll h file line [text]
  | character text => exact tokens_appendAll h file line [text]
  | string text => exact tokens_appendAll h file line [text]
  | directive body =>
    rw [mark, Lexeme.texts]
    cases Directive.ofLine body with
    | inclusion target =>
      rw [carryOut, hpath]
      exact tokens_appendAll h file line _
    | definition name value =>
      cases value <;> exact tokens_appendAll h file line ["def", name, ";"]
    | malformed => exact (List.append_nil _).symm
    | other => exact tokens_appendAll h file line ["#", ";"]
  | comment text =>
    rw [mark, Lexeme.texts]
    cases Comment.deleted? text with
    | none => exact (List.append_nil _).symm
    | some name =>
      dsimp only
      split
      · exact tokens_appendAll h file line ["delete", name, ";"]
      · exact (List.append_nil _).symm

/-- **A mark changes no macro**, but for that of a definition with a value,
which is taken in or not. -/
theorem macros_mark_cases (w : Workspace) (file : FileId) (line : Nat)
    (lexeme : Lexeme) :
    (w.mark file line lexeme).1.macros = w.macros
      ∨ ∃ body name value, lexeme = .directive body
        ∧ Directive.ofLine body = .definition name (some value)
        ∧ (w.mark file line lexeme).1.macros
          = (w.macros.define name value).2 := by
  cases lexeme with
  | word text | symbol text | character text | string text =>
    exact .inl (macros_append w file line text)
  | directive body =>
    rw [mark]
    cases hof : Directive.ofLine body with
    | inclusion target => exact .inl (macros_appendAll w file line _)
    | malformed => exact .inl rfl
    | other => exact .inl (macros_appendAll w file line _)
    | definition name value =>
      have hall := macros_appendAll w file line ["def", name, ";"]
      cases value with
      | none => exact .inl hall
      | some value =>
        refine .inr ⟨body, name, value, rfl, hof, ?_⟩
        rw [carryOut, ← hall]
  | comment text =>
    rw [mark]
    split
    · split
      · exact .inl (macros_appendAll w file line _)
      · exact .inl rfl
    · exact .inl rfl

end Workspace

end FlatC
