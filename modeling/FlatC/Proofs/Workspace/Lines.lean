import FlatC.Proofs.Workspace.Growth

/-!
# Lines are counted right

A scan is at a **head** of its reading where it starts and after each turn
(`Head`). At every head before the end of the source, the line it has
counted is that of the place it has reached. Line feeds go by in six ways –
plain ones, those that end a directive or a line comment, those in block
comments and in literals – and each is counted once, whatever is read in
between for an inclusion.

So a token's line is right as well. Feeding a lexeme leaves its own tokens,
and behind them those of the file it includes, if it is an inclusion;
`Leaves` tells the two apart all through a source. The own tokens have the
file's number and the line of the place where the lexeme stands. The others
are of files that were entered later.
-/

namespace FlatC

variable {bytes rest : List UInt8} {b : UInt8} {s : Scan} {u v w : Workspace}
variable {follow : String → Workspace → Workspace} {path : String}
variable {file : FileId}

namespace Workspace

/-! ## Heads -/

/-- **The heads of a reading**, each a scan and the workspace at that time:
the one at the start, and behind each turn the next one. -/
inductive Head (follow : String → Workspace → Workspace)
    (bytes : List UInt8) (file : FileId) (w : Workspace) :
    Scan → Workspace → Prop
  | start : Head follow bytes file w (.start file bytes) w
  | next {s : Scan} {u : Workspace} {b : UInt8} {rest : List UInt8} :
    Head follow bytes file w s u → s.cursor.rest = b :: rest →
    Head follow bytes file w (round follow s u b rest).1
      (round follow s u b rest).2

namespace Head

/-- At a head the scan is on what a buffer holds of the source. -/
theorem on (h : Head follow bytes file w s u) : s.On (Buffer.held bytes) := by
  induction h with
  | start => exact Scan.on_start file bytes
  | next _ hrest ih => exact on_round follow _ ih hrest

/-- At a head the scan is of the file that is read, whatever files have been
read in between. -/
theorem file_eq (h : Head follow bytes file w s u) : s.file = file := by
  induction h with
  | start => rfl
  | next _ _ ih => rw [file_round, ih]

/-- **Reading goes on from any head** to the same end, so a head is a time in
the reading of the whole source. -/
theorem readOn_eq (h : Head follow bytes file w s u) :
    readOn follow s u = readOn follow (.start file bytes) w := by
  induction h with
  | start => rfl
  | next _ hrest ih => rw [← readOn_of_rest_eq_cons follow _ hrest, ih]

end Head

/-- A turn only adds, with the file that it includes. -/
theorem Grows.round (h : Grows follow) (hv : v.chain.Laid v.chain.cells)
    (hfile : s.file.index < v.files.size) (b : UInt8) (rest : List UInt8) :
    Grown s.file.index v (round follow s v b rest).2 := by
  rcases round_cases follow s v b rest with ⟨-, hr⟩ | ⟨-, hr⟩ | hr
  · rw [hr]
    exact .refl _ hv
  · rw [hr]
    exact .refl _ hv
  · rw [hr]
    have hflushed : Grown s.file.index v (v.flush s) :=
      (marked_append hv s.file s.line _).grown (files_flush s v)
        (Nat.le_refl _)
    exact hflushed.trans (h.feedCut hflushed.laid (Nat.le_refl _)
      (Nat.lt_of_lt_of_le hfile hflushed.size_le) _ _)

/-- At a head there is what was there at the start, and more. -/
theorem Head.grown (h : Head follow bytes file w s u) (hfollow : Grows follow)
    (hw : w.chain.Laid w.chain.cells) (hfile : file.index < w.files.size) :
    Grown file.index w u := by
  induction h with
  | start => exact .refl _ hw
  | next hhead _ ih =>
    have hlt := Nat.lt_of_lt_of_le hfile ih.size_le
    rw [← hhead.file_eq] at hlt
    exact ih.trans (hhead.file_eq ▸ hfollow.round ih.laid hlt _ _)

/-! ## Tokens -/

/-- **The tokens that lexemes leave**, one after another: those of each
lexeme's own mark, with the file's number and the line of its place, and then
those of the file it includes. The latter are of other files, so they are told
apart from the former. -/
inductive Leaves (follow : String → Workspace → Workspace)
    (bytes : List UInt8) (file : FileId) :
    List Located → Workspace → List Token → Prop
  | nil (u : Workspace) : Leaves follow bytes file [] u []
  | cons {l : Located} {ls : List Located} {u : Workspace}
      {own included more : List Token} :
    (u.mark file (lineAt bytes l.start) l.lexeme).1.chain.tokens
      = u.chain.tokens ++ own →
    (feed follow bytes file u l).chain.tokens
      = u.chain.tokens ++ own ++ included →
    (∀ t ∈ own, t.file = file ∧ t.line = lineAt bytes l.start) →
    (∀ t ∈ included, file.index < t.file.index) →
    Leaves follow bytes file ls (feed follow bytes file u l) more →
    Leaves follow bytes file (l :: ls) u (own ++ included ++ more)

/-- **Feeding lexemes leaves such tokens.** The induction takes lexemes off
the front, with the workspace left open. -/
theorem Grows.leaves (h : Grows follow) (hv : v.chain.Laid v.chain.cells)
    (hfile : file.index < v.files.size) (bytes : List UInt8)
    (ls : List Located) :
    ∃ ts, (ls.foldl (feed follow bytes file) v).chain.tokens
        = v.chain.tokens ++ ts
      ∧ Leaves follow bytes file ls v ts := by
  induction ls generalizing v with
  | nil => exact ⟨[], by simp, .nil v⟩
  | cons l ls ih =>
    have hmarked := marked_mark hv file (lineAt bytes l.start) l.lexeme
    have hincluded := h.readIncluded hmarked.laid
      (v.mark file (lineAt bytes l.start) l.lexeme).2
    have hfiles := files_mark file (lineAt bytes l.start) v l.lexeme
    rw [hfiles] at hincluded
    obtain ⟨own, hown, howns⟩ := hmarked.tokens
    obtain ⟨included, hin, hins⟩ := hincluded.tokens
    have hfed : (feed follow bytes file v l).chain.tokens
        = v.chain.tokens ++ own ++ included := by
      rw [← hown]
      exact hin
    have hsize := hincluded.size_le
    rw [hfiles] at hsize
    obtain ⟨more, hmore, hleaves⟩ := ih (v := feed follow bytes file v l)
      hincluded.laid (Nat.lt_of_lt_of_le hfile hsize)
    refine ⟨own ++ included ++ more, ?_, .cons hown hfed howns ?_ hleaves⟩
    · rw [List.foldl_cons, hmore, hfed]
      simp only [List.append_assoc]
    · exact fun t ht => Nat.lt_of_lt_of_le hfile (hins t ht)

/-! ## A source read -/

/-- **A source read with its lines counted right**, as a new file: at every
head, in the count of lines itself, and for the tokens of each lexeme. -/
structure LinesCounted (follow : String → Workspace → Workspace)
    (bytes : List UInt8) (path : String) (w v : Workspace) : Prop where
  /-- At every head the scan is in the source and of the file, which is in
  the table. -/
  scan : ∀ s u, Head follow bytes w.newFile (w.entered path) s u →
    s.cursor.passed.reverse ++ s.cursor.rest = bytes
      ∧ s.file = w.newFile ∧ u.files.path? w.newFile = some path
  /-- Reading goes on from there to its end. -/
  reads : ∀ s u, Head follow bytes w.newFile (w.entered path) s u →
    readOn follow s u = v
  /-- Before the end, its line is one more than the line feeds it has
  passed. -/
  line : ∀ s u, Head follow bytes w.newFile (w.entered path) s u →
    s.cursor.rest ≠ [] → s.line = 1 + s.cursor.passed.count lineFeed
  /-- Its line fits into 32 bits. -/
  line_le : ∀ s u, Head follow bytes w.newFile (w.entered path) s u →
    s.line ≤ Numeral.maxWord32
  /-- What is added to the chain is what the lexemes of the source leave. -/
  tokens : ∃ ts, v.chain.tokens = w.chain.tokens ++ ts
    ∧ Leaves follow bytes w.newFile (lexemes bytes) (w.entered path) ts
  /-- Each lexeme stands at its place. -/
  standsAt : ∀ l ∈ lexemes bytes, l.lexeme.StandsAt (bytes.drop l.start)

/-- **Lines are counted right** in every source that is read as a new file and
is no longer than a cursor can tell. What it includes may be anything, and is
read with counts of its own. -/
theorem linesCounted (sources : Sources) (room : Nat)
    (hbytes : bytes.length ≤ Numeral.maxWord32 - 64)
    (hw : w.chain.Laid w.chain.cells) (hnew : w.files.find? path = none) :
    ∃ v, w.enter? (Workspace.follow sources room) bytes path = some v
      ∧ LinesCounted (Workspace.follow sources room) bytes path w v := by
  have hgrows := grows_follow sources room
  have hlt := index_newFile_lt w path
  have hpath := w.files.path?_added path
  -- The buffer holds all of the source.
  have hheld : Buffer.held bytes = bytes := Buffer.held_of_le hbytes
  have hread := enter?_of_length_le hnew (follow sources room) hbytes
  have hon : ∀ s u, Head (follow sources room) bytes w.newFile
      (w.entered path) s u → s.On bytes := fun s u h => hheld ▸ h.on
  refine ⟨_, hread, ?_, ?_, ?_, ?_, ?_, ?_⟩
  · intro s u h
    exact ⟨(hon s u h).split, h.file_eq,
      FileTable.path?_of_prefix (h.grown hgrows hw hlt).paths hpath⟩
  · intro s u h
    rw [h.readOn_eq, readOn_start, hheld]
  · intro s u h hrest
    rw [(hon s u h).line hrest, Nat.add_comm]
  · intro s u h
    have hsplit := congrArg List.length (hon s u h).split
    rw [List.length_append, List.length_reverse] at hsplit
    have hle := (hon s u h).line_le
    unfold Cursor.pos at hle
    unfold Numeral.maxWord32 at hbytes ⊢
    omega
  · exact hgrows.leaves (v := w.entered path) hw hlt bytes (lexemes bytes)
  · exact fun l hl => standsAt_of_mem_lexemes hl

/-- A source in which line feeds go by in all six ways, and that includes
another in between. -/
theorem linesCounted_of_source :
    let ascii : String → List UInt8 := fun s =>
      s.toList.map fun c => UInt8.ofNat c.toNat
    let bytes := ascii
      "#include \x22a.h\x22\nint\na; // b\n/* \n */ '\n' \x22\n\x22 c"
    let sources : Sources := fun path =>
      if path = "a.h" then .ok (ascii "\nint d;\n") else .error .notFound
    (lexemes bytes).map (fun l => lineAt bytes l.start)
        = [1, 2, 3, 3, 3, 5, 6, 7]
      ∧ ∃ v, empty.enter? (Workspace.follow sources maxDepth) bytes "a.c"
          = some v
        ∧ LinesCounted (Workspace.follow sources maxDepth) bytes "a.c" empty
          v := by
  intro ascii bytes sources
  refine ⟨by decide +kernel, ?_⟩
  exact linesCounted sources maxDepth (by decide +kernel)
    TokenChain.laid_empty rfl

end Workspace

end FlatC
