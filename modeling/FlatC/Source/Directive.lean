import FlatC.Text.Blank
import FlatC.Text.Lead

/-!
# Directive lines

What follows a `#` up to the end of its line is a directive. Two kinds
carry meaning: the inclusion of a quoted file, and the definition of a
name without parameters. Everything else – conditionals, pragmas,
inclusions in angle brackets – is only noted to have been there.

The readings are lenient. An inclusion begins with `include`, whatever
stands between that and the first quote, and its target runs to the next
quote or, without one, to the end of the line. A definition needs a blank
after `define`; its name has to be letters and digits throughout, so that
`MAX_N` or `f(x)` makes it malformed, and its value is the first word
after the name, if there is one.
-/

namespace FlatC

/-- **What a directive line asks for.** It depends on the line alone; macros
and files are looked up when it is carried out. -/
inductive Directive where
  /-- A file to be read here, by the path as written. -/
  | inclusion (target : String)
  /-- A name defined, with its value if it has one. -/
  | definition (name : String) (value : Option String)
  /-- A definition whose name is missing or not just letters and
  digits. -/
  | malformed
  /-- Any other directive. -/
  | other
  deriving DecidableEq, Repr

namespace Directive

/-- The quotation mark around a target. Angle brackets are none, so a file of
the system is never included. -/
def quote : Char := '\x22'

/-- The target in what follows `include`: between the first quote and the
next, or to the end of the line where there is no next. -/
def target? (cs : List Char) : Option (List Char) :=
  match cs.dropWhile (· != quote) with
  | [] => none
  | _ :: quoted => some (quoted.takeWhile (· != quote))

/-- The definition in what follows `define`, which starts with an ASCII blank.
Of what comes after the name only the first word is the value. -/
def definitionOf (cs : List Char) : Directive :=
  let cs := cs.dropWhile Text.isBlank
  let name := cs.takeWhile fun c => !Text.isAsciiBlank c
  let after := cs.dropWhile fun c => !Text.isAsciiBlank c
  if name.isEmpty || !name.all Char.isAlphanum then .malformed
  else
    .definition (String.ofList name)
      ((Text.words Text.isAsciiBlank after).head?.map String.ofList)

/-- **The directive a line asks for**, the line being what follows the `#`. A
word that only begins with `include` is taken for it, but `define` has to be
followed by a blank. -/
def ofLine (line : String) : Directive :=
  let cs := line.toList.dropWhile fun c => c == ' ' || c == '\t'
  match Text.behind? "include".toList cs with
  | some after =>
    match target? after with
    | some target => .inclusion (String.ofList target)
    | none => .other
  | none =>
    match Text.behind? "define".toList cs with
    | some (c :: after) =>
      if Text.isAsciiBlank c then definitionOf (c :: after) else .other
    | _ => .other

end Directive

end FlatC
