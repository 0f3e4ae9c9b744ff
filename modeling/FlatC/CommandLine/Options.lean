import FlatC.Target
import FlatC.Text.Lead
import FlatC.Text.Numeral

/-!
# Options

A command line names a command and a file, with options among what
follows the command. Three options give a size of the target machine, one
chooses the listing by place. Whatever starts with two dashes and is none
of these is passed over, as are a size that is no positive 32-bit number
and every file after the first; each leaves a **warning** and the reading
goes on. Only a missing or unknown command and a missing file are errors.

The sizes that are not given are those of the host, which is a parameter of
the reading.
-/

namespace FlatC

/-- What to list: a source as it was read, or as it was simplified. -/
inductive Command where
  /-- The tokens of the source. -/
  | lex
  /-- The tokens after simplification. -/
  | simplify
  deriving DecidableEq, Repr

/-- The command a word stands for. Words are compared as they are, with no
abbreviations and no other case. -/
def Command.ofWord? (word : String) : Option Command :=
  if word = "lex" then some .lex
  else if word = "simplify" then some .simplify
  else none

/-- **What a command line asks for.** All that is optional has its default
filled in, so nothing further has to be asked of the command line. -/
structure Options where
  command : Command
  path : String
  target : Target
  /-- Whether tokens are listed by place. -/
  byPlace : Bool
  deriving DecidableEq, Repr

/-- **Why a command line asks for nothing.** Everything else that is odd about
a command line is a warning. -/
inductive UsageError where
  | unknownCommand (word : String)
  | missingPath
  deriving DecidableEq, Repr

/-- The wording of a usage error, as it stands behind `error: `. -/
def UsageError.message : UsageError → String
  | unknownCommand word => "unknown command '" ++ word ++ "'"
  | missingPath => "missing file path"

/-- The sizes that can be given. The size of a `char` and the others are not
among them. -/
inductive SizeOption where
  | pointer
  | int
  | long
  deriving DecidableEq, Repr

namespace SizeOption

/-- The name of a size, in its option and in warnings alike. -/
def name : SizeOption → String
  | pointer => "pointer"
  | int => "int"
  | long => "long"

/-- How an option that gives this size begins. The value is what comes behind,
and may be empty. -/
def lead (s : SizeOption) : String := "--" ++ s.name ++ "-size="

/-- This size of a target. -/
def get : SizeOption → Target → Nat
  | pointer, t => t.pointer
  | int, t => t.int
  | long, t => t.long

/-- A target with this size. -/
def set : SizeOption → Nat → Target → Target
  | pointer, n, t => { t with pointer := n }
  | int, n, t => { t with int := n }
  | long, n, t => { t with long := n }

@[simp] theorem get_set (s : SizeOption) (n : Nat) (t : Target) :
    s.get (s.set n t) = n := by
  cases s <;> rfl

/-- To set one size leaves the others alone. -/
theorem get_set_of_ne {s other : SizeOption} (h : other ≠ s) (n : Nat)
    (t : Target) : other.get (s.set n t) = other.get t := by
  cases s <;> cases other <;> first | rfl | exact absurd rfl h

/-- The sizes that can be given are positive as they are on the host. -/
theorem get_pos {t : Target} (h : t.Positive) (s : SizeOption) :
    0 < s.get t := by
  obtain ⟨hbuiltins, hpointer⟩ := h
  cases s with
  | pointer => exact hpointer
  | int => exact hbuiltins ("int", t.int) (by simp [Target.builtins])
  | long => exact hbuiltins ("long", t.long) (by simp [Target.builtins])

end SizeOption

/-- **What was passed over** in a command line. A warning holds what its
wording needs, so it can be worded without the command line. -/
inductive OptionWarning where
  | unknownOption (word : String)
  | extraArgument (word : String)
  /-- A size that is none, with the one that stays in force. -/
  | invalidSize (size : SizeOption) (value : String) (inForce : Nat)
  deriving DecidableEq, Repr

/-- The wording of a warning, as it stands behind `warning: `. For a size it
names the one that stays in force, which an earlier option may have given. -/
def OptionWarning.message : OptionWarning → String
  | unknownOption word => "unknown option '" ++ word ++ "'"
  | extraArgument word => "extra argument '" ++ word ++ "' ignored"
  | invalidSize size value inForce =>
    "invalid " ++ size.name ++ " size '" ++ value ++ "', using "
      ++ Numeral.text inForce

namespace Options

/-- **The size a text writes**: a positive 32-bit number, with or without a
plus sign. Leading zeros are allowed; no digit at all, or anything else
between the digits, is no size. -/
def size? (value : String) : Option Nat :=
  let digits :=
    match value.toList with
    | '+' :: digits => digits
    | digits => digits
  match Numeral.ofDigits? digits with
  | some n => if 0 < n && n ≤ Numeral.maxWord32 then some n else none
  | none => none

/-- What one word after the command is. It depends on the word alone, and not
on what was read before it. -/
inductive Word where
  /-- The option that lists by place. -/
  | lines
  /-- An option that gives a size, with what follows its `=`. -/
  | size (which : SizeOption) (value : String)
  /-- An option nobody knows. -/
  | unknown
  /-- No option. -/
  | argument
  deriving DecidableEq, Repr

/-- The value of an option that gives a size, if a word is that option. No two
of these options begin alike, so a word is one of them at most. -/
def sizeValue? (which : SizeOption) (text : String) : Option String :=
  (Text.behind? which.lead.toList text.toList).map String.ofList

/-- **What a word after the command is.** A word that begins with two dashes
is never a file, however it goes on; one with a single dash is. -/
def Word.ofText (text : String) : Word :=
  if text = "--lines" then .lines
  else
    match sizeValue? .pointer text, sizeValue? .int text,
        sizeValue? .long text with
    | some value, _, _ => .size .pointer value
    | none, some value, _ => .size .int value
    | none, none, some value => .size .long value
    | none, none, none =>
      if (Text.behind? "--".toList text.toList).isSome then .unknown else .argument

/-- What has been read of a command line so far. Each word changes one part of
it, and adds to the warnings at most one. -/
structure State where
  path : Option String := none
  /-- The sizes in force: the host's, but for those that were given. -/
  target : Target
  byPlace : Bool := false
  /-- The warnings, the latest first. -/
  warnings : List OptionWarning := []
  deriving DecidableEq, Repr

/-- **One more word read.** A size that is none leaves in force what was given
before, and a file after the first one is passed over. -/
def State.step (s : State) (text : String) : State :=
  match Word.ofText text with
  | .lines => { s with byPlace := true }
  | .size which value =>
    match size? value with
    | some n => { s with target := which.set n s.target }
    | none =>
      let warning := .invalidSize which value (which.get s.target)
      { s with warnings := warning :: s.warnings }
  | .unknown => { s with warnings := .unknownOption text :: s.warnings }
  | .argument =>
    match s.path with
    | none => { s with path := some text }
    | some _ => { s with warnings := .extraArgument text :: s.warnings }

/-- **A command line read** on some host: the warnings it gave rise to, in
order, and what it asks for. The warnings are given also where a file is
missing, since all words have been read by then; with a command nobody knows,
none is read. -/
def parseOn (host : Target) (args : List String) :
    List OptionWarning × Except UsageError Options :=
  match args with
  | [] => ([], .error .missingPath)
  | word :: words =>
    match Command.ofWord? word with
    | none => ([], .error (.unknownCommand word))
    | some command =>
      let s := words.foldl State.step { target := host }
      let result :=
        match s.path with
        | none => .error .missingPath
        | some path =>
          .ok { command, path, target := s.target, byPlace := s.byPlace }
      (s.warnings.reverse, result)

/-- Without a command there is nothing to ask for. -/
@[simp] theorem parseOn_nil (host : Target) :
    parseOn host [] = ([], .error .missingPath) := rfl

/-- A command line read on the machine the program runs on, whose sizes are
those of `Target.host`. -/
def parse (args : List String) :
    List OptionWarning × Except UsageError Options :=
  parseOn .host args

end Options

end FlatC
