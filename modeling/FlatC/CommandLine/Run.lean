import FlatC.CommandLine.Options
import FlatC.Workspace.Listing
import FlatC.Workspace.Simplifying
import FlatC.Workspace.Tokenizing

/-!
# Running a command line

A command line is run against something that answers for paths, and what
comes of it is an exit code and two texts: what is printed, and what is
reported. Nothing is printed but the listing asked for or the usage.

A file that cannot be read is reported with the reason. Two reasons are so
common that they have a wording of their own.
-/

namespace FlatC

/-- **What comes of running a command line.** The exit code is 0 exactly where
something was listed, or the usage was asked for. -/
structure Outcome where
  code : Nat
  stdout : String
  stderr : String
  deriving DecidableEq, Repr

namespace CommandLine

/-- How the program is used. -/
def usage : String :=
  String.intercalate "\n"
    ["cchk - C/C++ tokenizer and simplifier",
     "",
     "Usage: cchk <command> <file.c> [options]",
     "",
     "Commands:",
     "  lex <file>       Print the token stream (includes, defines and "
       ++ "typedefs applied)",
     "  simplify <file>  Print the token stream after all simplifier "
       ++ "passes",
     "",
     "Options:",
     "  --pointer-size=N  Pointer size in bytes for sizeof (default: host)",
     "  --int-size=N      Size of int in bytes (default: host)",
     "  --long-size=N     Size of long in bytes (default: host)",
     "  --lines           Print one source line per output line",
     "",
     "Set RUST_LOG (e.g. RUST_LOG=cchk_lexer=debug) to enable tracing.",
     ""]

/-- The words that ask for the usage. -/
def helpWords : List String := ["help", "--help", "-h"]

/-- Whether a command line asks for the usage. It does with no word at all,
and with one of these words in the place of the command. -/
def wantsUsage (args : List String) : Bool :=
  match args with
  | [] => true
  | word :: _ => helpWords.contains word

/-- The wording of a failure to read the file a command line names. That
nothing is there is worded alike for files and for sources held in memory. -/
def readError (path : String) : ReadFailure → String
  | .notFound => "cannot find file '" ++ path ++ "'"
  | .notStored _ => "cannot find file '" ++ path ++ "'"
  | .denied => "permission denied reading '" ++ path ++ "'"
  | failure => "error reading '" ++ path ++ "': " ++ failure.reason

/-- **The listing some options ask for**, of a source under their path. The
source is read into a session of its own, so nothing of another run is in it. -/
def listing (sources : Sources) (options : Options) (bytes : List UInt8) :
    String :=
  let read :=
    (Workspace.empty.tokenize? sources bytes options.path).getD
      Workspace.empty
  let w :=
    match options.command with
    | .lex => read
    | .simplify => (read.simplify options.target).2
  if options.byPlace then w.byPlace else w.flat

/-- The warnings as they are reported, each on a line, before whatever else is
reported. -/
def report (warnings : List OptionWarning) : String :=
  String.join (warnings.map fun w => "warning: " ++ w.message ++ "\n")

/-- **A command line run** on some host. A listing on one line is ended by a
line feed, unless it is empty; one by place has all its line feeds already. -/
def runOn (host : Target) (sources : Sources) (args : List String) :
    Outcome :=
  if wantsUsage args then ⟨0, usage, ""⟩
  else
    let (warnings, parsed) := Options.parseOn host args
    let reported := report warnings
    match parsed with
    | .error (.unknownCommand word) =>
      let message := (UsageError.unknownCommand word).message
      ⟨1, usage, reported ++ "error: " ++ message ++ "\n\n"⟩
    | .error e => ⟨1, "", reported ++ "error: " ++ e.message ++ "\n"⟩
    | .ok options =>
      match sources options.path with
      | .error failure =>
        let message := readError options.path failure
        ⟨1, "", reported ++ "error: " ++ message ++ "\n"⟩
      | .ok bytes =>
        let text := listing sources options bytes
        let ended :=
          if options.byPlace || text.isEmpty then text else text ++ "\n"
        ⟨0, ended, reported⟩

/-- A command line run on the machine the program runs on. -/
def run (sources : Sources) (args : List String) : Outcome :=
  runOn .host sources args

end CommandLine

end FlatC
