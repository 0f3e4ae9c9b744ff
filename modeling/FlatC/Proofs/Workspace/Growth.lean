import FlatC.Proofs.Chain.Insertion
import FlatC.Proofs.Workspace.Scanning

/-!
# What reading adds

Reading takes nothing away. Tokens are put at the end of the chain and
paths at the end of the table of files, and neither is touched again
(`Grown`). The tokens that a lexeme leaves by itself are of the file it is
in and on the line it is on (`Marked`); those of a file that is included are
of files that were not in the table before.
-/

namespace FlatC

variable {n m : Nat} {u v w : Workspace} {bytes : List UInt8}
variable {follow : String → Workspace → Workspace} {path : String}
variable {file : FileId} {line : Nat}

namespace Workspace

/-- **Tokens of one file and one line put at the end** of the chain, and
nothing else done to it. This is all that a lexeme can do by itself. -/
structure Marked (file : FileId) (line : Nat) (v w : Workspace) : Prop where
  laid : w.chain.Laid w.chain.cells
  tokens : ∃ ts, w.chain.tokens = v.chain.tokens ++ ts
    ∧ ∀ t ∈ ts, t.file = file ∧ t.line = line

/-- **Grown**: more tokens, all of them of files from the `n`th on, and more
files. Nothing that was there has changed, so what is said of it stays true. -/
structure Grown (n : Nat) (v w : Workspace) : Prop where
  laid : w.chain.Laid w.chain.cells
  paths : v.files.paths <+: w.files.paths
  tokens : ∃ ts, w.chain.tokens = v.chain.tokens ++ ts
    ∧ ∀ t ∈ ts, n ≤ t.file.index

/-! ## Marks -/

/-- Nothing put at the end is tokens put there, of any file and line. -/
theorem Marked.refl (file : FileId) (line : Nat)
    (h : v.chain.Laid v.chain.cells) : Marked file line v v :=
  ⟨h, [], by simp, by simp⟩

/-- Tokens of one file and line put at the end twice are put there. -/
theorem Marked.trans (h : Marked file line u v) (h' : Marked file line v w) :
    Marked file line u w := by
  obtain ⟨ts, hts, hof⟩ := h.tokens
  obtain ⟨ts', hts', hof'⟩ := h'.tokens
  refine ⟨h'.laid, ts ++ ts', ?_, ?_⟩
  · rw [hts', hts, List.append_assoc]
  · exact fun t ht => (List.mem_append.mp ht).elim (hof t) (hof' t)

/-- **The token a text becomes**, or none, if the text is empty. It is spelled
as the macros tell. -/
theorem tokens_append (h : w.chain.Laid w.chain.cells) (file : FileId)
    (line : Nat) (text : String) :
    (w.append file line text).chain.Laid
        (w.append file line text).chain.cells
      ∧ (w.append file line text).chain.tokens
        = w.chain.tokens
          ++ if text.isEmpty then [] else [⟨w.spelling text, line, file⟩] := by
  unfold append
  split
  · exact ⟨h, by simp⟩
  · have hpush := h.pushBack ⟨w.spelling text, line, file⟩
    refine ⟨hpush.cells_eq.symm ▸ hpush, ?_⟩
    rw [TokenChain.tokens, hpush.cells_eq, List.map_append]
    rfl

/-- A text leaves a token of its file and line, or none. -/
theorem marked_append (h : w.chain.Laid w.chain.cells) (file : FileId)
    (line : Nat) (text : String) :
    Marked file line w (w.append file line text) := by
  obtain ⟨hlaid, htokens⟩ := tokens_append h file line text
  refine ⟨hlaid, _, htokens, fun t ht => ?_⟩
  split at ht
  · cases ht
  · rw [List.mem_singleton.mp ht]
    exact ⟨rfl, rfl⟩

/-- Texts leave tokens of their file and line. -/
theorem marked_appendAll (h : w.chain.Laid w.chain.cells) (file : FileId)
    (line : Nat) (texts : List String) :
    Marked file line w (w.appendAll file line texts) := by
  induction texts generalizing w with
  | nil => exact .refl file line h
  | cons text texts ih =>
    rw [appendAll_cons]
    have hmarked := marked_append h file line text
    exact hmarked.trans (ih hmarked.laid)

/-- A directive leaves its mark, and perhaps a macro. -/
theorem marked_carryOut (h : w.chain.Laid w.chain.cells) (file : FileId)
    (line : Nat) (d : Directive) :
    Marked file line w (w.carryOut file line d).1 := by
  cases d with
  | inclusion target =>
    simp only [carryOut]
    exact marked_appendAll h file line _
  | definition name value =>
    have hmarked := marked_appendAll h file line ["def", name, ";"]
    cases value with
    | none => exact hmarked
    | some value => exact ⟨hmarked.laid, hmarked.tokens⟩
  | malformed => exact .refl file line h
  | other => exact marked_appendAll h file line ["#", ";"]

/-- **What a lexeme leaves by itself** is of its file and on its line,
whatever the lexeme says. -/
theorem marked_mark (h : w.chain.Laid w.chain.cells) (file : FileId)
    (line : Nat) (lexeme : Lexeme) :
    Marked file line w (w.mark file line lexeme).1 := by
  cases lexeme with
  | word text => exact marked_append h file line text
  | symbol text => exact marked_append h file line text
  | character text => exact marked_append h file line text
  | string text => exact marked_append h file line text
  | directive body => exact marked_carryOut h file line _
  | comment text =>
    rw [mark]
    split
    · split
      · exact marked_appendAll h file line _
      · exact .refl file line h
    · exact .refl file line h

/-- What a cut leaves is of its file and on its line; if it has no lexeme,
there is nothing. -/
theorem marked_markCut (h : w.chain.Laid w.chain.cells) (file : FileId)
    (line : Nat) (lexeme? : Option Lexeme) :
    Marked file line w (w.markCut file line lexeme?).1 := by
  cases lexeme? with
  | none => exact .refl file line h
  | some lexeme => exact marked_mark h file line lexeme

/-! ## Growth -/

/-- Nothing added is grown. -/
theorem Grown.refl (n : Nat) (h : v.chain.Laid v.chain.cells) :
    Grown n v v :=
  ⟨h, List.prefix_rfl, [], by simp, by simp⟩

/-- What has grown twice has grown. -/
theorem Grown.trans (h : Grown n u v) (h' : Grown n v w) : Grown n u w := by
  obtain ⟨ts, hts, hof⟩ := h.tokens
  obtain ⟨ts', hts', hof'⟩ := h'.tokens
  refine ⟨h'.laid, h.paths.trans h'.paths, ts ++ ts', ?_, ?_⟩
  · rw [hts', hts, List.append_assoc]
  · exact fun t ht => (List.mem_append.mp ht).elim (hof t) (hof' t)

/-- Files from some number on are files from a lower one on. -/
theorem Grown.mono (h : Grown n v w) (hm : m ≤ n) : Grown m v w := by
  obtain ⟨ts, hts, hof⟩ := h.tokens
  exact ⟨h.laid, h.paths, ts, hts, fun t ht => Nat.le_trans hm (hof t ht)⟩

/-- There are no fewer files than before. -/
theorem Grown.size_le (h : Grown n v w) : v.files.size ≤ w.files.size :=
  h.paths.length_le

/-- Tokens of one file put at the end are growth, if no file is added and this
one is among those that count. -/
theorem Marked.grown (h : Marked file line v w) (hfiles : w.files = v.files)
    (hn : n ≤ file.index) : Grown n v w := by
  obtain ⟨ts, hts, hof⟩ := h.tokens
  refine ⟨h.laid, hfiles ▸ List.prefix_rfl, ts, hts, fun t ht => ?_⟩
  rw [(hof t ht).1]
  exact hn

/-- **Following only adds**, and the tokens it adds are of new files. It is
asked for all paths and workspaces, as it is what a scan goes by when it meets
an inclusion. -/
def Grows (follow : String → Workspace → Workspace) : Prop :=
  ∀ path v, v.chain.Laid v.chain.cells →
    Grown v.files.size v (follow path v)

/-- An inclusion that is met or not only adds. -/
theorem Grows.readIncluded (h : Grows follow)
    (hv : v.chain.Laid v.chain.cells) (inclusion : Option String) :
    Grown v.files.size v (readIncluded follow v inclusion) := by
  cases inclusion with
  | none => exact .refl _ hv
  | some path => exact h path v hv

/-- Feeding a cut only adds: first what it leaves by itself, then what it
includes. -/
theorem Grows.feedCut (h : Grows follow) (hv : v.chain.Laid v.chain.cells)
    (hn : n ≤ file.index) (hfile : file.index < v.files.size)
    (line : Nat) (lexeme? : Option Lexeme) :
    Grown n v (feedCut follow file line v lexeme?) := by
  have hmarked := marked_markCut hv file line lexeme?
  have hincluded := h.readIncluded hmarked.laid
    (v.markCut file line lexeme?).2
  -- What is included is of files behind all that are known at the mark, and
  -- the mark itself adds none.
  have hfiles := files_markCut file line v lexeme?
  rw [hfiles] at hincluded
  exact (hmarked.grown hfiles hn).trans (hincluded.mono (by omega))

/-- **Feeding lexemes only adds**, one after another. The file that is read
stays in the table, so each of them finds it there. -/
theorem Grows.foldl_feed (h : Grows follow) (hv : v.chain.Laid v.chain.cells)
    (hn : n ≤ file.index) (hfile : file.index < v.files.size)
    (bytes : List UInt8) (ls : List Located) :
    Grown n v (ls.foldl (feed follow bytes file) v) := by
  induction ls generalizing v with
  | nil => exact .refl n hv
  | cons l ls ih =>
    have hfed : Grown n v (feed follow bytes file v l) :=
      h.feedCut hv hn hfile _ _
    exact hfed.trans (ih hfed.laid (Nat.lt_of_lt_of_le hfile hfed.size_le))

/-! ## Files entered -/

/-- The workspace in which a new file's source is scanned. -/
def entered (w : Workspace) (path : String) : Workspace :=
  { w with files := ⟨w.files.paths ++ [path]⟩ }

/-- The number a new file gets, which is that of the files there are. -/
def newFile (w : Workspace) : FileId := ⟨w.files.size⟩

/-- A file that has been entered is in the table. -/
theorem index_newFile_lt (w : Workspace) (path : String) :
    w.newFile.index < (w.entered path).files.size := by
  simp [newFile, entered, FileTable.size]

/-- A new file is entered, and its source scanned from the start. -/
theorem enter?_eq_readOn (h : w.files.find? path = none)
    (follow : String → Workspace → Workspace) (bytes : List UInt8) :
    w.enter? follow bytes path
      = some (readOn follow (.start w.newFile bytes) (w.entered path)) := by
  rw [enter?, FileTable.register?, h]
  rfl

/-- **A new file is entered, and its lexemes are fed**, those of what a buffer
holds of the source. With this nothing further on needs to speak of a scan. -/
theorem enter?_of_find?_eq_none (h : w.files.find? path = none)
    (follow : String → Workspace → Workspace) (bytes : List UInt8) :
    w.enter? follow bytes path
      = some ((lexemes (Buffer.held bytes)).foldl
        (feed follow (Buffer.held bytes) w.newFile) (w.entered path)) := by
  rw [enter?_eq_readOn h, readOn_start]

/-- The same of a source that a buffer holds all of. -/
theorem enter?_of_length_le (h : w.files.find? path = none)
    (follow : String → Workspace → Workspace)
    (hlength : bytes.length ≤ Buffer.capacity) :
    w.enter? follow bytes path
      = some ((lexemes bytes).foldl (feed follow bytes w.newFile)
        (w.entered path)) := by
  rw [enter?_of_find?_eq_none h, Buffer.held_of_le hlength]

/-- A new file is entered, and this only adds. -/
theorem Grows.enter? (h : Grows follow) (hw : w.chain.Laid w.chain.cells)
    (hnew : w.files.find? path = none) (bytes : List UInt8) :
    ∃ v, w.enter? follow bytes path = some v ∧ Grown w.files.size w v
      ∧ v.files.path? w.newFile = some path := by
  have hfed := h.foldl_feed (v := w.entered path) hw (Nat.le_refl _)
    (index_newFile_lt w path) (Buffer.held bytes)
    (lexemes (Buffer.held bytes))
  refine ⟨_, enter?_of_find?_eq_none hnew follow bytes,
    ⟨hfed.laid, (List.prefix_append _ _).trans hfed.paths, hfed.tokens⟩, ?_⟩
  exact FileTable.path?_of_prefix hfed.paths (w.files.path?_added path)

/-- **Following an inclusion only adds**, however much room is left. The
induction is on the room, as a file that is included may include others with
one less. -/
theorem grows_follow (sources : Sources) (room : Nat) :
    Grows (Workspace.follow sources room) := by
  induction room with
  | zero => exact fun path v hv => .refl _ hv
  | succ room ih =>
    intro path v hv
    rw [Workspace.follow]
    split
    · exact .refl _ hv
    · next hnew =>
      split
      · next bytes _ =>
        obtain ⟨x, hx, hgrown, -⟩ := ih.enter? hv hnew bytes
        rw [hx]
        exact hgrown
      · refine ⟨hv, ?_, [], by simp, by simp⟩
        dsimp only
        rw [FileTable.add_of_find?_eq_none hnew]
        exact List.prefix_append _ _

end Workspace

end FlatC
