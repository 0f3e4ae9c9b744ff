import FlatC.Source.Deletion
import FlatC.Source.Directive
import FlatC.Source.Lexeme
import FlatC.Source.Store
import FlatC.Workspace.Basic

/-!
# Reading sources into the workspace

A source is read by a **scan**: a cursor in its bytes, the file it is, the
line it is on, and the word it is gathering. In one `turn` the scan takes
a byte into its word, or it comes to something else; then the word is
finished, and what stands there is cut off.

What was cut leaves its mark in the workspace. Most lexemes become a token.
A directive may change what is known: an inclusion is noted by its path, a
definition adds a macro. A comment that stands where a statement can begin
and says that something is deleted leaves a `delete` statement.

A file that is included is read before the scan goes on, so its tokens come
right behind those of the directive. **Each file is read at most once.** A
file enters the table of files before its scan starts, so a file that
includes itself, however indirectly, finds itself there. That alone does not
bound how deep inclusions go, since relative paths can name one file in ever
new ways, so there is a limit as well: `readOn` is told what to do with an
inclusion, and `follow` tells it, with room for one inclusion less each
time.
-/

namespace FlatC

/-- **The scan of a source.** What it makes of the bytes goes to the
workspace, which is not part of it: an included file is scanned with the same
one. -/
structure Scan where
  cursor : Cursor
  /-- The file the source is. -/
  file : FileId
  /-- The line the scan is on. -/
  line : Nat
  /-- The bytes of the word that is being gathered. -/
  pending : Array UInt8
  deriving DecidableEq, Repr

namespace Scan

/-- **The scan at the start of a source**, which goes through as much of it
as a buffer holds. -/
def start (file : FileId) (bytes : List UInt8) : Scan :=
  ⟨.ofBytes (Buffer.held bytes), file, 1, #[]⟩

/-- A byte passed over, without ending the word that is gathered. -/
def pass (s : Scan) : Scan := { s with cursor := s.cursor.advance }

/-- **A byte taken into the word**, or dropped if the word is full. It is
passed in either case. -/
def gather (s : Scan) (b : UInt8) : Scan :=
  { s with
    cursor := s.cursor.advance
    pending :=
      if s.pending.size < Lexeme.maxLength then s.pending.push b
      else s.pending }

/-- **The scan behind a cut**, with no word begun. Where the cut is longer
than the source, the scan is at the end of it. -/
def behind (s : Scan) (cut : Lexeme.Cut) : Scan :=
  { s with
    cursor := s.cursor.skip (cut.length + 1)
    line := s.line + cut.lines
    pending := #[] }

/-- Whether a byte goes into the word. A `#` that would begin one begins a
directive; within a word it is like any other byte. -/
def gathers (s : Scan) (b : UInt8) : Bool :=
  Lexeme.isWordByte b && !(b == Lexeme.hash && s.pending.isEmpty)

end Scan

namespace Workspace

/-- How deep inclusions are followed. A chain of files that include each other
by ever longer paths ends here. -/
def maxDepth : Nat := 200

/-- Whether a statement can begin after what is in the chain: at the very
start, and after `;`, `{` and `}`. It is the last token that counts, whichever
file it came from. -/
def atStatementStart (w : Workspace) : Bool :=
  match w.chain.tail with
  | none => true
  | some last =>
    let text := w.chain.text last
    text == ";" || text == "\x7b" || text == "\x7d"

/-- **A directive carried out**, and the path of the file to be read now if it
is an inclusion. An inclusion and a definition leave tokens as well, which go
through the macros like any text. -/
def carryOut (file : FileId) (line : Nat) (w : Workspace) :
    Directive → Workspace × Option String
  | .inclusion target =>
    let path := FileName.resolve ((w.files.path? file).getD "") target
    (w.appendAll file line ["#include", path], some path)
  | .definition name value =>
    let w := w.appendAll file line ["def", name, ";"]
    match value with
    | some value => ({ w with macros := (w.macros.define name value).2 }, none)
    | none => (w, none)
  | .malformed => (w, none)
  | .other => (w.appendAll file line ["#", ";"], none)

/-- **The mark a lexeme leaves**, as part of a file, and the path of the file
to be read now if it is an inclusion. No lexeme but a directive leaves
anything besides tokens. -/
def mark (file : FileId) (line : Nat) (w : Workspace) :
    Lexeme → Workspace × Option String
  | .word text => (w.append file line text, none)
  | .symbol text => (w.append file line text, none)
  | .character text => (w.append file line text, none)
  | .string text => (w.append file line text, none)
  | .directive body => w.carryOut file line (Directive.ofLine body)
  | .comment text =>
    match Comment.deleted? text with
    | some name =>
      if w.atStatementStart then
        (w.appendAll file line ["delete", name, ";"], none)
      else (w, none)
    | none => (w, none)

/-- The mark of what was cut off, if it is a lexeme. Blanks and block comments
leave none. -/
def markCut (file : FileId) (line : Nat) (w : Workspace) :
    Option Lexeme → Workspace × Option String
  | some lexeme => w.mark file line lexeme
  | none => (w, none)

/-- The word of a scan put at the end of the chain. A scan without one has the
empty text, which becomes no token. -/
def flush (s : Scan) (w : Workspace) : Workspace :=
  w.append s.file s.line (Utf8.decode s.pending.toList)

/-- **What a turn comes to**: the scan to go on with, the workspace, and the
path of a file to be read first. The file is left to the reader of all of
them. -/
structure Turn where
  scan : Scan
  workspace : Workspace
  inclusion : Option String

/-- **A turn**, at a byte with these bytes behind it. The word is finished
before the mark is left of what stands behind it, so the two come in the order
of the source. -/
def turn (s : Scan) (w : Workspace) (b : UInt8) (rest : List UInt8) : Turn :=
  if s.gathers b then ⟨s.gather b, w, none⟩
  else if Lexeme.isHigh b then ⟨s.pass, w, none⟩
  else
    let cut := Lexeme.first (!s.pending.isEmpty) b rest
    let marked := (w.flush s).markCut s.file s.line cut.lexeme?
    ⟨s.behind cut, marked.1, marked.2⟩

/-- The file read that a mark includes. `follow` is what is done with the path
of an included file. -/
def readIncluded (follow : String → Workspace → Workspace) (w : Workspace) :
    Option String → Workspace
  | some path => follow path w
  | none => w

/-- **A turn, and the file read that it includes.** The scan of the including
file is not changed by that. -/
def round (follow : String → Workspace → Workspace) (s : Scan)
    (w : Workspace) (b : UInt8) (rest : List UInt8) : Scan × Workspace :=
  let t := turn s w b rest
  (t.scan, readIncluded follow t.workspace t.inclusion)

/-- A turn takes a byte, so that a scan comes to its end. -/
theorem rest_round (follow : String → Workspace → Workspace) (s : Scan)
    (w : Workspace) {b : UInt8} {rest : List UInt8}
    (h : s.cursor.rest = b :: rest) :
    ∃ n, (round follow s w b rest).1.cursor.rest = rest.drop n := by
  rw [round, turn]
  split
  · exact ⟨0, by simp [Scan.gather, h]⟩
  · split
    · exact ⟨0, by simp [Scan.pass, h]⟩
    · exact ⟨(Lexeme.first (!s.pending.isEmpty) b rest).length,
        by simp [Scan.behind, h]⟩

/-- **A scan read to its end**, turn by turn; there the last word is finished.
How deep the scan lies is known to `follow` alone. -/
def readOn (follow : String → Workspace → Workspace) (s : Scan)
    (w : Workspace) : Workspace :=
  match _h : s.cursor.rest with
  | [] => w.flush s
  | b :: rest =>
    let next := round follow s w b rest
    readOn follow next.1 next.2
termination_by s.cursor.rest.length
decreasing_by
  obtain ⟨n, hn⟩ := rest_round follow s w _h
  rw [hn, List.length_drop, _h, List.length_cons]
  omega

/-- **A file entered**: put in the table, and its source scanned. Nothing
comes back if the file is there already. It is in the table before the first
byte is read, and so cannot enter itself. -/
def enter? (follow : String → Workspace → Workspace) (bytes : List UInt8)
    (path : String) (w : Workspace) : Option Workspace :=
  (w.files.register? path).map fun (file, files) =>
    readOn follow (.start file bytes) { w with files }

/-- **An inclusion followed**, with room for so many inclusions in each other.
A file that is known, or for which there is no room, is left out; a file that
cannot be read is known from then on. -/
def follow (sources : Sources) : Nat → String → Workspace → Workspace
  | 0, _, w => w
  | room + 1, path, w =>
    match w.files.find? path with
    | some _ => w
    | none =>
      match sources path with
      | .ok bytes => (w.enter? (follow sources room) bytes path).getD w
      | .error _ => { w with files := w.files.add path }

/-- **A source read** with all it includes. Nothing comes back if its file was
read before. The source itself takes no room. -/
def read? (sources : Sources) (bytes : List UInt8) (path : String)
    (w : Workspace) : Option Workspace :=
  w.enter? (follow sources maxDepth) bytes path

/-! ## What a turn leaves alone -/

@[simp] theorem files_carryOut (file : FileId) (line : Nat) (w : Workspace)
    (d : Directive) : (w.carryOut file line d).1.files = w.files := by
  cases d with
  | inclusion target => exact files_appendAll w file line _
  | definition name value =>
    cases value <;> exact files_appendAll w file line ["def", name, ";"]
  | malformed => rfl
  | other => exact files_appendAll w file line _

@[simp] theorem files_mark (file : FileId) (line : Nat) (w : Workspace)
    (lexeme : Lexeme) : (w.mark file line lexeme).1.files = w.files := by
  cases lexeme with
  | word text => exact files_append w file line text
  | symbol text => exact files_append w file line text
  | character text => exact files_append w file line text
  | string text => exact files_append w file line text
  | directive body => exact files_carryOut file line w _
  | comment text =>
    rw [mark]
    split
    · split
      · exact files_appendAll w file line _
      · rfl
    · rfl

@[simp] theorem files_markCut (file : FileId) (line : Nat) (w : Workspace)
    (lexeme? : Option Lexeme) :
    (w.markCut file line lexeme?).1.files = w.files := by
  cases lexeme? with
  | none => rfl
  | some lexeme => exact files_mark file line w lexeme

@[simp] theorem files_flush (s : Scan) (w : Workspace) :
    (w.flush s).files = w.files :=
  files_append w s.file s.line _

/-- **A turn enters no file.** -/
@[simp] theorem files_turn (s : Scan) (w : Workspace) (b : UInt8)
    (rest : List UInt8) : (turn s w b rest).workspace.files = w.files := by
  rw [turn]
  split
  · rfl
  · split
    · rfl
    · exact (files_markCut s.file s.line (w.flush s) _).trans (files_flush s w)

/-- Without room nothing is followed, and no file becomes known. -/
@[simp] theorem follow_zero (sources : Sources) (path : String)
    (w : Workspace) : follow sources 0 path w = w := rfl

/-- A known file is not followed, in whatever spelling it is asked for. -/
theorem follow_of_find?_eq_some {sources : Sources} {room : Nat}
    {path : String} {w : Workspace} {id : FileId}
    (h : w.files.find? path = some id) :
    follow sources room path w = w := by
  cases room with
  | zero => rfl
  | succ room => simp [follow, h]

/-- A file is entered exactly when it is not known. What its source is does
not matter to that. -/
theorem enter?_eq_none_iff {follow : String → Workspace → Workspace}
    {bytes : List UInt8} {path : String} {w : Workspace} :
    w.enter? follow bytes path = none
      ↔ (w.files.find? path).isSome = true := by
  rw [enter?, Option.map_eq_none_iff, FileTable.register?_eq_none_iff]

end Workspace

end FlatC
