import FlatC.Proofs.Source.Lexemes
import FlatC.Workspace.Reading

/-!
# Scanning is feeding lexemes

A scan goes through a source a byte at a time. What it does to the workspace
is the same as if the lexemes of the source were known from the start and
were **fed** to the workspace one by one, each with the line of its place
(`Workspace.readOn_start`). A word makes the difference between the two: it
is told whole on one side and gathered on the other, and it is put in the
chain only when something else is met.

The line that a scan counts is right at every turn (`Scan.On`), until the
source ends: a directive and a comment count the line feed that ends them
even where the source has none. A scan that is on its line while it gathers
a word is on the line of the word's first byte, as a word holds no line
feed.
-/

namespace FlatC

variable {bytes rest : List UInt8} {b : UInt8} {s : Scan} {w : Workspace}
variable {follow : String → Workspace → Workspace}

/-! ## Where a scan is -/

namespace Cursor

/-- What is passed by some steps is put in front, the last byte first. -/
theorem passed_skip (c : Cursor) (n : Nat) :
    (c.skip n).passed = (c.rest.take n).reverse ++ c.passed := by
  induction n generalizing c with
  | zero => simp
  | succ n ih =>
    rw [skip_succ, ih]
    unfold advance
    split
    · next h => simp [h]
    · next h => simp [h]

/-- A step is one step. -/
theorem advance_eq_skip (c : Cursor) : c.advance = c.skip 1 := by
  rw [skip_succ, skip_zero]

end Cursor

namespace Scan

/-- **A scan on a source**: its cursor is in the source, its line is that of
the place it has reached, unless that is the end, and it has counted no more
lines than bytes. At the end one line too many may have been counted, that of
a line feed which is not there. -/
structure On (bytes : List UInt8) (s : Scan) : Prop where
  split : s.cursor.passed.reverse ++ s.cursor.rest = bytes
  line : s.cursor.rest ≠ [] → s.line = s.cursor.passed.count lineFeed + 1
  line_le : s.line ≤ s.cursor.pos + 1

/-- A scan starts on what a buffer holds of its source. -/
theorem on_start (file : FileId) (bytes : List UInt8) :
    (start file bytes).On (Buffer.held bytes) where
  split := rfl
  line := fun _ => rfl
  line_le := Nat.le_refl 1

/-- The line of a scan is that of its place, as long as there is anything
ahead. -/
theorem On.line_eq (h : s.On bytes) (hrest : s.cursor.rest ≠ []) :
    s.line = lineAt bytes s.cursor.pos := by
  have hlen : s.cursor.pos = s.cursor.passed.reverse.length :=
    List.length_reverse.symm
  rw [h.line hrest, lineAt, ← h.split, hlen, List.take_left,
    List.count_reverse]

/-- **A stretch of the source behind it**, with the lines in it counted. The
count has to be right only if something comes behind the stretch. -/
theorem On.skip {t : Scan} {n : Nat} (h : s.On bytes)
    (hrest : s.cursor.rest = b :: rest)
    (hcursor : t.cursor = s.cursor.skip (n + 1))
    (hline : rest.drop n ≠ [] →
      t.line = s.line + (b :: rest.take n).count lineFeed)
    (hle : t.line ≤ s.line + ((rest.take n).length + 1)) : t.On bytes where
  split := by rw [hcursor, Cursor.reverse_passed_append_rest_skip, h.split]
  line := fun hne => by
    rw [hcursor, Cursor.rest_skip, hrest, List.drop_succ_cons] at hne
    rw [hline hne, h.line (by simp [hrest]), hcursor, Cursor.passed_skip,
      hrest, List.take_succ_cons, List.count_append, List.count_reverse]
    omega
  line_le := by
    have := h.line_le
    rw [hcursor, Cursor.pos, Cursor.passed_skip, hrest, List.take_succ_cons,
      List.length_append, List.length_reverse, List.length_cons]
    unfold Cursor.pos at this
    omega

/-- A byte behind it that ends no line leaves the line as it is. -/
theorem On.advance {t : Scan} (h : s.On bytes)
    (hrest : s.cursor.rest = b :: rest) (hb : b ≠ lineFeed)
    (hcursor : t.cursor = s.cursor.advance) (hline : t.line = s.line) :
    t.On bytes := by
  refine h.skip (n := 0) hrest (hcursor.trans s.cursor.advance_eq_skip)
    (fun _ => ?_) (by omega)
  rw [hline, List.take_zero, List.count_cons_of_ne hb]
  rfl

end Scan

/-- A byte of a word ends no line. -/
theorem Lexeme.ne_lineFeed_of_isWordByte (h : isWordByte b = true) :
    b ≠ lineFeed := by
  rintro rfl
  revert h
  decide

namespace Workspace

/-! ## Turns -/

/-- What feeding a lexeme comes to, if there is one: its mark, and the file
read that it includes. The file is read before the scan goes on. -/
def feedCut (follow : String → Workspace → Workspace) (file : FileId)
    (line : Nat) (w : Workspace) (lexeme? : Option Lexeme) : Workspace :=
  let m := w.markCut file line lexeme?
  readIncluded follow m.1 m.2

variable (follow) in
/-- A byte that is gathered into the word is all of its turn. -/
theorem round_of_gathers (h : s.gathers b = true) (w : Workspace)
    (rest : List UInt8) : round follow s w b rest = (s.gather b, w) := by
  rw [round, turn, if_pos h]
  rfl

variable (follow) in
/-- A byte outside ASCII is passed over, and is all of its turn. -/
theorem round_of_isHigh (h : Lexeme.isHigh b = true) (w : Workspace)
    (rest : List UInt8) : round follow s w b rest = (s.pass, w) := by
  have hgathers : s.gathers b = false := by
    rw [Scan.gathers, Lexeme.isWordByte_of_isHigh h, Bool.false_and]
  rw [round, turn, if_neg (Bool.eq_false_iff.mp hgathers), if_pos h]
  rfl

variable (follow) in
/-- **A turn that cuts** finishes the word first. -/
theorem round_of_cut (hgathers : s.gathers b = false)
    (hhigh : Lexeme.isHigh b = false) (w : Workspace) (rest : List UInt8) :
    round follow s w b rest
      = (s.behind (Lexeme.first (!s.pending.isEmpty) b rest),
        feedCut follow s.file s.line (w.flush s)
          (Lexeme.first (!s.pending.isEmpty) b rest).lexeme?) := by
  rw [round, turn, if_neg (Bool.eq_false_iff.mp hgathers),
    if_neg (Bool.eq_false_iff.mp hhigh)]
  rfl

/-- **A turn of one of three kinds**: a byte is gathered, a byte outside ASCII
is passed over, or something is cut. What is said of turns is said of these. -/
theorem round_cases (follow : String → Workspace → Workspace) (s : Scan)
    (w : Workspace) (b : UInt8) (rest : List UInt8) :
    (s.gathers b = true ∧ round follow s w b rest = (s.gather b, w))
      ∨ (Lexeme.isHigh b = true ∧ round follow s w b rest = (s.pass, w))
      ∨ round follow s w b rest
        = (s.behind (Lexeme.first (!s.pending.isEmpty) b rest),
          feedCut follow s.file s.line (w.flush s)
            (Lexeme.first (!s.pending.isEmpty) b rest).lexeme?) := by
  cases hgathers : s.gathers b with
  | true => exact .inl ⟨rfl, round_of_gathers follow hgathers w rest⟩
  | false =>
    cases hhigh : Lexeme.isHigh b with
    | true => exact .inr (.inl ⟨rfl, round_of_isHigh follow hhigh w rest⟩)
    | false => exact .inr (.inr (round_of_cut follow hgathers hhigh w rest))

/-- A turn stays with its file. -/
@[simp] theorem file_round : (round follow s w b rest).1.file = s.file := by
  rcases round_cases follow s w b rest with ⟨-, h⟩ | ⟨-, h⟩ | h <;>
    rw [h] <;> rfl

/-- **A turn keeps a scan on its source**, whichever kind it is. This is the
invariant of the scan. -/
theorem on_round (follow : String → Workspace → Workspace) (w : Workspace)
    (h : s.On bytes) (hrest : s.cursor.rest = b :: rest) :
    (round follow s w b rest).1.On bytes := by
  rcases round_cases follow s w b rest with ⟨hb, hr⟩ | ⟨hb, hr⟩ | hr
  · rw [hr]
    exact h.advance hrest
      (Lexeme.ne_lineFeed_of_isWordByte (Bool.and_eq_true_iff.mp hb).1) rfl rfl
  · rw [hr]
    exact h.advance hrest (Lexeme.ne_of_isHigh hb (by decide)) rfl rfl
  · rw [hr]
    have hcut := Lexeme.cuts_first (!s.pending.isEmpty) b rest
    exact h.skip hrest rfl (fun hne => congrArg _ (hcut.lines hne))
      (Nat.add_le_add_left hcut.lines_le _)

/-! ## Words -/

/-- At the end of the source the word is finished, and that is all. -/
theorem readOn_of_rest_eq_nil (follow : String → Workspace → Workspace)
    (w : Workspace) (h : s.cursor.rest = []) :
    readOn follow s w = w.flush s := by
  rw [readOn]
  split
  · rfl
  · next hrest =>
    rw [h] at hrest
    cases hrest

/-- Anywhere else a turn is taken, and then reading goes on. -/
theorem readOn_of_rest_eq_cons (follow : String → Workspace → Workspace)
    (w : Workspace) (h : s.cursor.rest = b :: rest) :
    readOn follow s w
      = readOn follow (round follow s w b rest).1
        (round follow s w b rest).2 := by
  rw [readOn]
  split
  · next hrest =>
    rw [h] at hrest
    cases hrest
  · next hrest =>
    rw [h] at hrest
    cases hrest
    rfl

/-- A scan without a word has nothing to finish. -/
theorem flush_of_pending_eq (h : s.pending = #[]) : w.flush s = w := by
  rw [flush, h]
  exact append_empty w s.file s.line

/-- **A full word takes no more bytes.** What it has is the beginning of what
it was given. -/
theorem toList_pending_gather (h : s.pending.size ≤ Lexeme.maxLength)
    (b : UInt8) :
    (s.gather b).pending.toList
      = (s.pending.toList ++ [b]).take Lexeme.maxLength := by
  unfold Scan.gather
  dsimp only
  split
  · next hlt =>
    rw [Array.toList_push, List.take_of_length_le]
    rw [List.length_append, Array.length_toList]
    exact hlt
  · next hge =>
    have hfull : s.pending.toList.length = Lexeme.maxLength := by
      rw [Array.length_toList]
      omega
    rw [← hfull, List.take_left]

/-- A word does not come to have more bytes than are kept. -/
theorem size_pending_gather (h : s.pending.size ≤ Lexeme.maxLength)
    (b : UInt8) : (s.gather b).pending.size ≤ Lexeme.maxLength := by
  rw [← Array.length_toList, toList_pending_gather h, List.length_take]
  exact Nat.min_le_left _ _

/-- A scan that has taken a byte has a word. -/
theorem isEmpty_pending_gather (s : Scan) (b : UInt8) :
    (s.gather b).pending.isEmpty = false := by
  unfold Scan.gather
  dsimp only
  split
  · simp
  · next hge =>
    rw [Array.isEmpty_eq_false_iff]
    rintro hnil
    rw [hnil] at hge
    exact hge (by decide)

/-- A list cut off before more is put behind it, and cut off again, might as
well have been cut off once. -/
theorem take_take_append {α : Type} (n : Nat) (xs ys : List α) :
    (xs.take n ++ ys).take n = (xs ++ ys).take n := by
  rw [List.take_append, List.take_append, List.take_take, List.length_take,
    Nat.min_self]
  congr 2
  omega

/-- **A scan that has gathered a run** of bytes into the word it had begun.
The word has the bytes of the run that can stand in one, up to what is kept. -/
structure Gathered (s : Scan) (run : List UInt8) (t : Scan) : Prop where
  cursor : t.cursor = s.cursor.skip run.length
  file : t.file = s.file
  line : t.line = s.line
  begun : t.pending.isEmpty = false
  word : t.pending.toList
    = (s.pending.toList ++ run.filter Lexeme.isWordByte).take
      Lexeme.maxLength

namespace Gathered

variable {run more : List UInt8} {t : Scan}

/-- No bytes are gathered at first. -/
theorem nil (hbegun : s.pending.isEmpty = false)
    (hsize : s.pending.size ≤ Lexeme.maxLength) : Gathered s [] s where
  cursor := rfl
  file := rfl
  line := rfl
  begun := hbegun
  word := by
    rw [List.filter_nil, List.append_nil, List.take_of_length_le]
    rwa [Array.length_toList]

/-- A byte taken into the word first. -/
theorem gather (hsize : s.pending.size ≤ Lexeme.maxLength)
    (hb : Lexeme.isWordByte b = true) (h : Gathered (s.gather b) run t) :
    Gathered s (b :: run) t where
  cursor := h.cursor.trans (Cursor.skip_succ _ _).symm
  file := h.file
  line := h.line
  begun := h.begun
  word := by
    rw [h.word, toList_pending_gather hsize, take_take_append,
      List.filter_cons_of_pos hb, List.append_assoc]
    rfl

/-- A byte passed over first. -/
theorem pass (hb : Lexeme.isWordByte b = false)
    (h : Gathered s.pass run t) : Gathered s (b :: run) t where
  cursor := h.cursor.trans (Cursor.skip_succ _ _).symm
  file := h.file
  line := h.line
  begun := h.begun
  word := by
    rw [h.word, List.filter_cons_of_neg (by rw [hb]; exact Bool.false_ne_true)]
    rfl

/-- Behind a run there is ahead what comes behind it. -/
theorem rest_eq (h : Gathered s run t)
    (hrest : s.cursor.rest = run ++ more) : t.cursor.rest = more := by
  rw [h.cursor, Cursor.rest_skip, hrest, List.drop_left]

/-- Behind a run the place is as many bytes on. -/
theorem pos_eq (h : Gathered s run t)
    (hrest : s.cursor.rest = run ++ more) :
    t.cursor.pos = s.cursor.pos + run.length := by
  rw [h.cursor, Cursor.pos, Cursor.passed_skip, hrest, List.take_left,
    List.length_append, List.length_reverse, Nat.add_comm]
  rfl

/-- **The word is told whole** when it is finished, by the run alone. Before,
the scan only ever had the bytes so far. -/
theorem flush_eq (h : Gathered s run t) (hpending : s.pending = #[])
    (w : Workspace) :
    w.flush t = w.append s.file s.line (Lexeme.wordText run) := by
  rw [flush, h.file, h.line, h.word, hpending]
  rfl

end Gathered

/-- **The rest of a word gathered**, byte by byte. The induction is on the
run, with the scan left open. -/
theorem readOn_of_run (follow : String → Workspace → Workspace)
    (w : Workspace) {run more : List UInt8} (hon : s.On bytes)
    (hrest : s.cursor.rest = run ++ more)
    (hrun : ∀ b ∈ run, (Lexeme.isWordByte b || Lexeme.isHigh b) = true)
    (hbegun : s.pending.isEmpty = false)
    (hsize : s.pending.size ≤ Lexeme.maxLength) :
    ∃ t, Gathered s run t ∧ t.On bytes
      ∧ readOn follow s w = readOn follow t w := by
  induction run generalizing s with
  | nil => exact ⟨s, .nil hbegun hsize, hon, rfl⟩
  | cons b run ih =>
    have hrun' := fun c hc => hrun c (List.mem_cons_of_mem b hc)
    have hread := readOn_of_rest_eq_cons follow w hrest
    have hround := on_round follow w hon hrest
    -- A byte of the run goes into the word or is outside ASCII; both keep the
    -- word begun.
    cases hword : Lexeme.isWordByte b with
    | true =>
      have hgathers : s.gathers b = true := by
        rw [Scan.gathers, hword, hbegun, Bool.and_false]
        rfl
      rw [round_of_gathers follow hgathers] at hread hround
      obtain ⟨t, hgathered, ht, hr⟩ :=
        ih hround (by simp [Scan.gather, hrest]) hrun'
          (isEmpty_pending_gather s b) (size_pending_gather hsize b)
      exact ⟨t, hgathered.gather hsize hword, ht, hread.trans hr⟩
    | false =>
      have hhigh : Lexeme.isHigh b = true := by
        simpa [hword] using hrun b List.mem_cons_self
      rw [round_of_isHigh follow hhigh] at hread hround
      obtain ⟨t, hgathered, ht, hr⟩ :=
        ih hround (by simp [Scan.pass, hrest]) hrun' hbegun hsize
      exact ⟨t, hgathered.pass hword, ht, hread.trans hr⟩

/-- A byte that is not taken into a word, with none begun, begins none. -/
theorem gathers_of_isEmpty (h : s.pending.isEmpty = true) (b : UInt8) :
    s.gathers b = Lexeme.beginsWord b := by
  rw [Scan.gathers, Lexeme.beginsWord, h, Bool.and_true]
  rfl

/-- **A whole word gathered** by a scan that has none begun, to the last byte
of its run. -/
theorem readOn_of_beginsWord (follow : String → Workspace → Workspace)
    (w : Workspace) (hon : s.On bytes) (hrest : s.cursor.rest = b :: rest)
    (hpending : s.pending = #[]) (hbegins : Lexeme.beginsWord b = true) :
    ∃ t, Gathered s (b :: Lexeme.wordRun rest) t ∧ t.On bytes
      ∧ readOn follow s w = readOn follow t w := by
  have hempty : s.pending.isEmpty = true := by rw [hpending]; rfl
  have hsize : s.pending.size ≤ Lexeme.maxLength := by
    rw [hpending]
    exact Nat.zero_le _
  have hgathers := (gathers_of_isEmpty hempty b).trans hbegins
  have hround := on_round follow w hon hrest
  rw [round_of_gathers follow hgathers] at hround
  obtain ⟨t, hgathered, ht, hr⟩ := readOn_of_run follow w hround
    (by rw [Lexeme.wordRun_append_drop rest]; simp [Scan.gather, hrest])
    (fun c hc => Lexeme.of_mem_wordRun hc) (isEmpty_pending_gather s b)
    (size_pending_gather hsize b)
  refine ⟨t, hgathered.gather hsize (Bool.and_eq_true_iff.mp hbegins).1, ht,
    ?_⟩
  rw [readOn_of_rest_eq_cons follow w hrest, round_of_gathers follow hgathers,
    hr]

/-! ## Sources -/

/-- **A lexeme fed to the workspace**: its mark, with the line of its place,
and the file read that it includes. No scan is left in this. -/
def feed (follow : String → Workspace → Workspace) (bytes : List UInt8)
    (file : FileId) (w : Workspace) (l : Located) : Workspace :=
  feedCut follow file (lineAt bytes l.start) w (some l.lexeme)

/-- To feed what a cut leaves, if it leaves a lexeme, is to feed the cut. -/
theorem foldl_feed_toList (follow : String → Workspace → Workspace)
    (file : FileId) (start : Nat) (lexeme? : Option Lexeme) :
    (lexeme?.map (Located.mk start)).toList.foldl (feed follow bytes file) w
      = feedCut follow file (lineAt bytes start) w lexeme? := by
  cases lexeme? <;> rfl

/-- The place behind a cut, if the source goes on there, is where the next
lexemes are counted from. -/
theorem lexemesFrom_behind (hrest : s.cursor.rest = b :: rest)
    (glued : Bool) (cut : Lexeme.Cut) :
    lexemesFrom glued (s.behind cut).cursor.pos (rest.drop cut.length)
      = lexemesFrom glued (s.cursor.pos + 1 + cut.length)
        (rest.drop cut.length) := by
  by_cases h : rest.drop cut.length = []
  · rw [h, lexemesFrom_nil, lexemesFrom_nil]
  · have hlen : cut.length ≤ rest.length :=
      Nat.le_of_not_le fun hle => h (List.drop_of_length_le hle)
    have hpos : (s.behind cut).cursor.pos
        = s.cursor.pos + 1 + cut.length := by
      simp only [Scan.behind, Cursor.pos, Cursor.passed_skip, hrest,
        List.take_succ_cons, List.length_append, List.length_reverse,
        List.length_cons, List.length_take]
      omega
    rw [hpos]

/-- Behind a cut less is ahead, even if nothing was cut off. -/
theorem length_rest_behind (hrest : s.cursor.rest = b :: rest)
    (cut : Lexeme.Cut) :
    (s.behind cut).cursor.rest.length < s.cursor.rest.length := by
  rw [Scan.behind, Cursor.rest_skip, hrest, List.drop_succ_cons,
    List.length_drop, List.length_cons]
  omega

/-- **Reading from a scan with no word begun** is feeding the lexemes ahead of
it, in whatever workspace. -/
def FeedsFrom (follow : String → Workspace → Workspace) (bytes : List UInt8)
    (s : Scan) : Prop :=
  ∀ w, readOn follow s w
    = (lexemesFrom false s.cursor.pos s.cursor.rest).foldl
      (feed follow bytes s.file) w

/-- **A scan that cuts** finishes its word, and feeds what it cuts. What comes
behind is fed as it is by a scan there. -/
theorem readOn_of_cut (hon : s.On bytes) (hrest : s.cursor.rest = b :: rest)
    (hgathers : s.gathers b = false) (hbegins : Lexeme.beginsWord b = false)
    (hhigh : Lexeme.isHigh b = false)
    (hfeeds : FeedsFrom follow bytes
      (s.behind (Lexeme.first (!s.pending.isEmpty) b rest)))
    (w : Workspace) :
    readOn follow s w
      = (lexemesFrom (!s.pending.isEmpty) s.cursor.pos s.cursor.rest).foldl
        (feed follow bytes s.file) (w.flush s) := by
  have hline := hon.line_eq (by rw [hrest]; exact List.cons_ne_nil b rest)
  rw [readOn_of_rest_eq_cons follow _ hrest,
    round_of_cut follow hgathers hhigh, hfeeds, hrest,
    lexemesFrom_cut hbegins, List.foldl_append, foldl_feed_toList, ← hline,
    ← lexemesFrom_behind hrest]
  simp only [Scan.behind, Cursor.rest_skip, hrest, List.drop_succ_cons]

/-- **A scan that begins a word** gathers it to its end, and then cuts or
comes to the end of the source. Behind a word the cut is made as one that
stands directly behind it. -/
theorem readOn_of_word (hon : s.On bytes) (hrest : s.cursor.rest = b :: rest)
    (hpending : s.pending = #[]) (hbegins : Lexeme.beginsWord b = true)
    (hfeeds : ∀ t : Scan, t.cursor.rest.length < s.cursor.rest.length →
      t.On bytes → t.pending = #[] → FeedsFrom follow bytes t)
    (w : Workspace) :
    readOn follow s w
      = (lexemesFrom false s.cursor.pos s.cursor.rest).foldl
        (feed follow bytes s.file) w := by
  have hline := hon.line_eq (by rw [hrest]; exact List.cons_ne_nil b rest)
  have hsplit : s.cursor.rest = (b :: Lexeme.wordRun rest)
      ++ rest.drop (Lexeme.wordRun rest).length := by
    rw [hrest, List.cons_append, Lexeme.wordRun_append_drop]
  obtain ⟨t, hgathered, ht, hread⟩ :=
    readOn_of_beginsWord follow w hon hrest hpending hbegins
  have hword : w.flush t
      = feed follow bytes s.file w
        ⟨s.cursor.pos, .word (Lexeme.wordText (b :: Lexeme.wordRun rest))⟩ := by
    rw [hgathered.flush_eq hpending, feed, ← hline]
    rfl
  have htrest := hgathered.rest_eq hsplit
  rw [hread, hrest, lexemesFrom_word hbegins, List.foldl_cons, ← hword]
  cases hmore : rest.drop (Lexeme.wordRun rest).length with
  | nil =>
    rw [readOn_of_rest_eq_nil follow _ (htrest.trans hmore), lexemesFrom_nil]
    rfl
  | cons c more =>
    -- The byte behind the word is neither taken into it nor passed over.
    obtain ⟨hc, hhigh⟩ := Lexeme.wordRun_stops hmore
    have htmore := htrest.trans hmore
    have hgathers : t.gathers c = false := by rw [Scan.gathers, hc]; rfl
    have hbegins : Lexeme.beginsWord c = false := by
      rw [Lexeme.beginsWord, hc]
      rfl
    have hbehind := on_round follow w ht htmore
    rw [round_of_cut follow hgathers hhigh] at hbehind
    have hle : t.cursor.rest.length ≤ s.cursor.rest.length := by
      rw [htrest, hsplit, List.length_append]
      exact Nat.le_add_left _ _
    have hlt := fun cut =>
      Nat.lt_of_lt_of_le (length_rest_behind htmore cut) hle
    have hpos : t.cursor.pos
        = s.cursor.pos + 1 + (Lexeme.wordRun rest).length := by
      rw [hgathered.pos_eq hsplit, List.length_cons]
      omega
    rw [readOn_of_cut ht htmore hgathers hbegins hhigh
        (hfeeds _ (hlt _) hbehind rfl), hgathered.begun, hgathered.file, hpos,
      htmore]
    rfl

/-- **Scanning a source is feeding its lexemes.** The induction is on how much
is ahead, as a turn passes over one byte or more. -/
theorem feedsFrom (follow : String → Workspace → Workspace)
    (hon : s.On bytes) (hpending : s.pending = #[]) :
    FeedsFrom follow bytes s := by
  induction hn : s.cursor.rest.length using Nat.strongRecOn generalizing s with
  | ind n ih =>
    have hfeeds : ∀ t : Scan, t.cursor.rest.length < s.cursor.rest.length →
        t.On bytes → t.pending = #[] → FeedsFrom follow bytes t :=
      fun t hlt ht hp => ih _ (hn ▸ hlt) ht hp rfl
    intro w
    cases hrest : s.cursor.rest with
    | nil =>
      rw [readOn_of_rest_eq_nil follow _ hrest, flush_of_pending_eq hpending,
        lexemesFrom_nil]
      rfl
    | cons b rest =>
      have hgathers := gathers_of_isEmpty (s := s) (by rw [hpending]; rfl) b
      cases hbegins : Lexeme.beginsWord b with
      | true =>
        rw [← hrest]
        exact readOn_of_word hon hrest hpending hbegins hfeeds w
      | false =>
        have hround := on_round follow w hon hrest
        rw [hbegins] at hgathers
        cases hhigh : Lexeme.isHigh b with
        | true =>
          rw [round_of_isHigh follow hhigh] at hround
          rw [readOn_of_rest_eq_cons follow _ hrest,
            round_of_isHigh follow hhigh,
            hfeeds s.pass (by simp [Scan.pass, hrest]) hround hpending,
            lexemesFrom_cut hbegins, Lexeme.first_of_isHigh hhigh]
          simp [Scan.pass, hrest, Cursor.pos, Cursor.advance]
        | false =>
          rw [round_of_cut follow hgathers hhigh] at hround
          rw [← hrest, readOn_of_cut hon hrest hgathers hbegins hhigh
            (hfeeds _ (length_rest_behind hrest _) hround rfl),
            flush_of_pending_eq hpending, hpending]
          rfl

/-- **Reading a source is feeding its lexemes**, in order. Here the scan goes
out of the theory: what is said of reading from now on is said of lists of
lexemes. -/
theorem readOn_start (follow : String → Workspace → Workspace)
    (bytes : List UInt8) (file : FileId) (w : Workspace) :
    readOn follow (.start file bytes) w
      = (lexemes (Buffer.held bytes)).foldl
        (feed follow (Buffer.held bytes) file) w :=
  feedsFrom follow (Scan.on_start file bytes) rfl w

end Workspace

end FlatC
