import FlatC.Proofs.Source.Ahead
import FlatC.Proofs.Workspace.Lines
import FlatC.Workspace.Tokenizing

/-!
# Sources read in two parts

Let a source be two parts, one behind the other, and let its scan come to a
head right between them with no word begun. Then the parts can be read one
after the other: the first as a source of its own, and the second from where
that ends, with the line that has been reached (`Workspace.enter?_append`).
Includes are followed and macros defined on the way as they would be.

Two comparisons make this up. In the first part, a scan that ends there is
compared with one that has more ahead (`Scan.extend`): what more there is
makes no difference as long as no turn goes beyond the end, since no cut
looks behind its own end. In the second part, a scan that starts there is
compared with one that has passed something (`Scan.shift`), and what has been
passed never makes a difference. That no word is begun is needed: where the
first part ends in a word, as a source it ends the word, and the second part
may go on with it.
-/

namespace FlatC

variable {bytes rest near far before : List UInt8} {b : UInt8} {s : Scan}
variable {u w : Workspace} {follow : String → Workspace → Workspace}
variable {file : FileId} {path : String}

/-! ## More ahead and more behind -/

namespace Cursor

/-- A cursor with more ahead, at the end of its source. -/
def extend (c : Cursor) (far : List UInt8) : Cursor :=
  ⟨c.passed, c.rest ++ far⟩

/-- A cursor that has passed more before. -/
def shift (c : Cursor) (before : List UInt8) : Cursor :=
  ⟨c.passed ++ before.reverse, c.rest⟩

/-- What is ahead has more behind it. -/
@[simp] theorem rest_extend (c : Cursor) (far : List UInt8) :
    (c.extend far).rest = c.rest ++ far := rfl

/-- What is ahead is the same, whatever has been passed. -/
@[simp] theorem rest_shift (c : Cursor) (before : List UInt8) :
    (c.shift before).rest = c.rest := rfl

/-- As many steps as there are bytes end in front of what more there is. -/
theorem skip_extend (c : Cursor) (far : List UInt8) {n : Nat}
    (h : n ≤ c.rest.length) :
    (c.extend far).skip n = (c.skip n).extend far := by
  induction n generalizing c with
  | zero => rfl
  | succ n ih =>
    obtain ⟨passed, rest⟩ := c
    cases rest with
    | nil => cases h
    | cons b rest => exact ih ⟨b :: passed, rest⟩ (Nat.le_of_succ_le_succ h)

/-- A step is the same, whatever has been passed before. -/
theorem advance_shift (c : Cursor) (before : List UInt8) :
    (c.shift before).advance = c.advance.shift before := by
  obtain ⟨passed, rest⟩ := c
  cases rest <;> rfl

/-- Any number of steps are the same, whatever has been passed before. -/
theorem skip_shift (c : Cursor) (before : List UInt8) (n : Nat) :
    (c.shift before).skip n = (c.skip n).shift before := by
  induction n generalizing c with
  | zero => rfl
  | succ n ih => rw [skip_succ, skip_succ, advance_shift, ih]

end Cursor

namespace Scan

/-- **A scan with more ahead.** -/
def extend (s : Scan) (far : List UInt8) : Scan :=
  { s with cursor := s.cursor.extend far }

/-- **A scan that has passed more before.** -/
def shift (s : Scan) (before : List UInt8) : Scan :=
  { s with cursor := s.cursor.shift before }

/-- What is ahead has more behind it. -/
@[simp] theorem rest_extend (s : Scan) (far : List UInt8) :
    (s.extend far).cursor.rest = s.cursor.rest ++ far := rfl

/-- What is ahead is the same, whatever has been passed. -/
@[simp] theorem rest_shift (s : Scan) (before : List UInt8) :
    (s.shift before).cursor.rest = s.cursor.rest := rfl

/-- With nothing more ahead it is the same scan. -/
theorem extend_nil (s : Scan) : s.extend [] = s := by
  rw [extend, Cursor.extend, List.append_nil]

/-- A byte is gathered in the same way, whatever has been passed before. -/
theorem gather_shift (s : Scan) (before : List UInt8) (b : UInt8) :
    (s.shift before).gather b = (s.gather b).shift before := by
  unfold gather shift
  rw [Cursor.advance_shift]

/-- A byte is passed over in the same way, whatever has been passed before. -/
theorem pass_shift (s : Scan) (before : List UInt8) :
    (s.shift before).pass = s.pass.shift before := by
  simp only [pass, shift, Cursor.advance_shift]

/-- A cut leads as far on, whatever has been passed before. -/
theorem behind_shift (s : Scan) (before : List UInt8) (cut : Lexeme.Cut) :
    (s.shift before).behind cut = (s.behind cut).shift before := by
  simp only [behind, shift, Cursor.skip_shift]

/-- A cut that ends in front of what more there is leads as far on without it. -/
theorem behind_extend (far : List UInt8) {cut : Lexeme.Cut}
    (h : cut.length + 1 ≤ s.cursor.rest.length) :
    (s.extend far).behind cut = (s.behind cut).extend far := by
  simp only [behind, extend, Cursor.skip_extend s.cursor far h]

end Scan

namespace Workspace

/-! ## The second part -/

/-- **What has been passed makes no difference** to a turn, which looks only
ahead. -/
theorem round_shift (follow : String → Workspace → Workspace) (s : Scan)
    (before : List UInt8) (w : Workspace) (b : UInt8) (rest : List UInt8) :
    round follow (s.shift before) w b rest
      = ((round follow s w b rest).1.shift before,
        (round follow s w b rest).2) := by
  cases hgathers : s.gathers b with
  | true =>
    have hshift : (s.shift before).gathers b = true := hgathers
    rw [round_of_gathers follow hgathers, round_of_gathers follow hshift,
      Scan.gather_shift]
  | false =>
    have hshift : (s.shift before).gathers b = false := hgathers
    cases hhigh : Lexeme.isHigh b with
    | true =>
      rw [round_of_isHigh follow hhigh, round_of_isHigh follow hhigh,
        Scan.pass_shift]
    | false =>
      rw [round_of_cut follow hgathers hhigh,
        round_of_cut follow hshift hhigh, Scan.behind_shift]
      rfl

/-- **The head that many turns after** a scan and its workspace; at the end of
the source no more turns are taken. Numbers of turns are what two readings can
be compared by. -/
def headAfter (follow : String → Workspace → Workspace) :
    Nat → Scan → Workspace → Scan × Workspace
  | 0, s, w => (s, w)
  | n + 1, s, w =>
    match s.cursor.rest with
    | [] => (s, w)
    | b :: rest =>
      let next := round follow s w b rest
      headAfter follow n next.1 next.2

/-- The heads after a head are heads. -/
theorem Head.headAfter (h : Head follow bytes file w s u) (n : Nat) :
    Head follow bytes file w (headAfter follow n s u).1
      (headAfter follow n s u).2 := by
  induction n generalizing s u with
  | zero => exact h
  | succ n ih =>
    rw [Workspace.headAfter]
    split
    · exact h
    · next hrest => exact ih (h.next hrest)

/-- **Heads go side by side**, whatever has been passed before. The line is
not told by what has been passed, but counted, so it need not be the same as
at the start of a file. -/
theorem headAfter_shift (follow : String → Workspace → Workspace) (n : Nat)
    (s : Scan) (before : List UInt8) (w : Workspace) :
    headAfter follow n (s.shift before) w
      = ((headAfter follow n s w).1.shift before,
        (headAfter follow n s w).2) := by
  induction n generalizing s w with
  | zero => rfl
  | succ n ih =>
    rw [headAfter, headAfter, Scan.rest_shift]
    split
    · rfl
    · rw [round_shift]
      exact ih _ _

/-- **What has been passed makes no difference** to reading on, to the end of
the source. -/
theorem readOn_shift (follow : String → Workspace → Workspace) (s : Scan)
    (before : List UInt8) (w : Workspace) :
    readOn follow (s.shift before) w = readOn follow s w := by
  induction hn : s.cursor.rest.length using Nat.strongRecOn
    generalizing s w with
  | ind n ih =>
    cases hrest : s.cursor.rest with
    | nil =>
      rw [readOn_of_rest_eq_nil follow w hrest,
        readOn_of_rest_eq_nil follow w (s := s.shift before) hrest]
      rfl
    | cons b rest =>
      obtain ⟨k, hk⟩ := rest_round follow s w hrest
      have hlt : (round follow s w b rest).1.cursor.rest.length < n := by
        rw [hk, List.length_drop, ← hn, hrest, List.length_cons]
        omega
      rw [readOn_of_rest_eq_cons follow w hrest,
        readOn_of_rest_eq_cons follow w (s := s.shift before) hrest,
        round_shift, ih _ hlt _ _ rfl]

/-! ## The first part -/

/-- **What more there is makes no difference** to a turn that does not go
beyond the end. A byte that is gathered or passed over is one, and a cut does
not look behind its end. -/
theorem round_extend (follow : String → Workspace → Workspace)
    (w : Workspace) (hrest : s.cursor.rest = b :: near) (hfar : far ≠ [])
    (hle : far.length
      ≤ (round follow (s.extend far) w b (near ++ far)).1.cursor.rest.length) :
    round follow (s.extend far) w b (near ++ far)
      = ((round follow s w b near).1.extend far,
        (round follow s w b near).2) := by
  have hadvance : (s.cursor.extend far).advance
      = s.cursor.advance.extend far := by
    rw [Cursor.advance_eq_skip, Cursor.advance_eq_skip]
    exact s.cursor.skip_extend far (by rw [hrest]; exact Nat.succ_pos _)
  cases hgathers : s.gathers b with
  | true =>
    have hextend : (s.extend far).gathers b = true := hgathers
    rw [round_of_gathers follow hgathers, round_of_gathers follow hextend,
      Scan.gather, Scan.extend, hadvance]
    rfl
  | false =>
    have hextend : (s.extend far).gathers b = false := hgathers
    cases hhigh : Lexeme.isHigh b with
    | true =>
      rw [round_of_isHigh follow hhigh, round_of_isHigh follow hhigh]
      simp only [Scan.pass, Scan.extend, hadvance]
    | false =>
      -- The cut ends in front of what more there is, which is something.
      have hpos := List.length_pos_iff.mpr hfar
      rw [round_of_cut follow hextend hhigh, Scan.behind, Cursor.rest_skip,
        Scan.rest_extend, hrest, List.cons_append, List.drop_succ_cons,
        List.length_drop, List.length_append] at hle
      have hcut : Lexeme.first (!s.pending.isEmpty) b near
          = Lexeme.first (!s.pending.isEmpty) b (near ++ far) :=
        Lexeme.first_append (by
          show (Lexeme.first (!(s.extend far).pending.isEmpty) b
            (near ++ far)).length ≤ near.length
          omega)
      have hlen : (Lexeme.first (!s.pending.isEmpty) b near).length + 1
          ≤ s.cursor.rest.length := by
        rw [hcut, hrest, List.length_cons]
        show (Lexeme.first (!(s.extend far).pending.isEmpty) b
          (near ++ far)).length + 1 ≤ _
        omega
      rw [round_of_cut follow hgathers hhigh,
        round_of_cut follow hextend hhigh, ← Scan.behind_extend far hlen,
        hcut]
      rfl

/-- The scan at the start of both parts, as long as a buffer holds them, is
that of the first part with more ahead. -/
theorem start_append (file : FileId)
    (h : (near ++ far).length ≤ Buffer.capacity) :
    Scan.start file (near ++ far) = (Scan.start file near).extend far := by
  have hnear : near.length ≤ Buffer.capacity :=
    Nat.le_trans (List.length_append ▸ Nat.le_add_right _ _) h
  rw [Scan.start, Scan.start, Buffer.held_of_le h, Buffer.held_of_le hnear]
  rfl

/-- **Each head in the first part** is one of the part as a source, which is
then the same scan without what more there is. The induction follows the
turns; as none leads back, each of them begins in the first part. -/
theorem Head.of_append {t : Scan}
    (hlength : (near ++ far).length ≤ Buffer.capacity)
    (h : Head follow (near ++ far) file w t u)
    (hle : far.length ≤ t.cursor.rest.length) :
    ∃ s, Head follow near file w s u ∧ t = s.extend far := by
  by_cases hfar : far = []
  · subst hfar
    rw [List.append_nil] at h
    exact ⟨t, h, t.extend_nil.symm⟩
  induction h with
  | start => exact ⟨_, .start, start_append file hlength⟩
  | @next t u b rest hhead hrest ih =>
    obtain ⟨k, hk⟩ := rest_round follow t u hrest
    have hlen := hle
    rw [hk, List.length_drop] at hlen
    obtain ⟨s, hs, rfl⟩ := ih (by
      rw [hrest, List.length_cons]
      omega)
    rw [Scan.rest_extend] at hrest
    -- The scan has not passed the end yet, as it could not come back to it.
    cases hnear : s.cursor.rest with
    | nil =>
      rw [hnear, List.nil_append] at hrest
      rw [hrest, List.length_cons] at hlen
      omega
    | cons a more =>
      rw [hnear, List.cons_append] at hrest
      obtain ⟨rfl, rfl⟩ := List.cons.inj hrest
      have hround := round_extend follow u hnear hfar hle
      rw [hround]
      exact ⟨_, hs.next hnear, rfl⟩

/-! ## Both parts -/

/-- The scan of a file that starts at a line with some source ahead. It is
what reading the second part by itself begins with. -/
def resumed (file : FileId) (line : Nat) (bytes : List UInt8) : Scan :=
  { Scan.start file bytes with line }

/-- **A source is read part by part**, as long as a buffer holds all of it.
Let the scan of a new file come to a head right behind its first part, with no
word begun. The first part alone,
read as this file, leaves the workspace that there is at this head. The heads
from there on are those of a scan of the second part that starts with this
workspace, as the same file and on the line that has been reached; and so is
what the whole leaves. -/
theorem enter?_append (sources : Sources) (room : Nat)
    (hlength : (near ++ far).length ≤ Buffer.capacity)
    (hnew : w.files.find? path = none)
    (hhead : Head (Workspace.follow sources room) (near ++ far) w.newFile
      (w.entered path) s u)
    (hpos : s.cursor.pos = near.length) (hpending : s.pending = #[]) :
    w.enter? (Workspace.follow sources room) near path = some u
      ∧ (∀ n, headAfter (Workspace.follow sources room) n s u
        = ((headAfter (Workspace.follow sources room) n
              (resumed w.newFile s.line far) u).1.shift near,
          (headAfter (Workspace.follow sources room) n
              (resumed w.newFile s.line far) u).2))
      ∧ w.enter? (Workspace.follow sources room) (near ++ far) path
        = some (readOn (Workspace.follow sources room)
            (resumed w.newFile s.line far) u) := by
  have hlen : s.cursor.passed.reverse.length = near.length :=
    List.length_reverse.trans hpos
  have hsplit := hhead.on.split
  rw [Buffer.held_of_le hlength] at hsplit
  obtain ⟨hpassed, hrest⟩ := List.append_inj hsplit hlen
  have hfar : Buffer.held far = far := by
    refine Buffer.held_of_le (Nat.le_trans ?_ hlength)
    rw [List.length_append]
    exact Nat.le_add_left _ _
  -- the scan at the head is the one that starts there, but for what it has
  -- passed
  have hshift : s = (resumed w.newFile s.line far).shift near := by
    obtain ⟨⟨passed, rest⟩, file, line, pending⟩ := s
    obtain rfl : file = w.newFile := hhead.file_eq
    obtain rfl : pending = #[] := hpending
    obtain rfl : rest = far := hrest
    simp only [resumed, Scan.shift, Scan.start, hfar, Cursor.shift,
      Cursor.ofBytes, List.nil_append, ← hpassed, List.reverse_reverse]
  refine ⟨?_, fun n => ?_, ?_⟩
  · obtain ⟨t, ht, rfl⟩ := hhead.of_append hlength
      (Nat.le_of_eq (by rw [hrest]))
    have hend : t.cursor.rest = [] := by
      rwa [Scan.rest_extend, List.append_left_eq_self] at hrest
    rw [enter?_eq_readOn hnew, ← ht.readOn_eq,
      readOn_of_rest_eq_nil _ u hend, flush_of_pending_eq (s := t) hpending]
  · rw [← headAfter_shift, ← hshift]
  · have hread := readOn_shift (Workspace.follow sources room)
      (resumed w.newFile s.line far) near u
    rw [← hshift] at hread
    rw [enter?_eq_readOn hnew, ← hhead.readOn_eq, hread]

/-- A source whose first part ends right behind a slash, so that the second
might have made a comment of it. The second part has a macro that the first
one defines. -/
theorem enter?_append_of_source :
    let ascii : String → List UInt8 := fun s =>
      s.toList.map fun c => UInt8.ofNat c.toNat
    let near := ascii "#define N 2\n/"
    let far := ascii " N;"
    let follow := Workspace.follow (fun _ => .error .notFound) maxDepth
    let head := headAfter follow 2 (.start empty.newFile (near ++ far))
      (empty.entered "a.c")
    head.1.cursor.pos = near.length ∧ head.1.pending = #[]
      ∧ head.1.line = 2 ∧ head.2.macros.find? "N" = some "2"
      ∧ empty.enter? follow near "a.c" = some head.2
      ∧ empty.enter? follow (near ++ far) "a.c"
        = some (readOn follow (resumed empty.newFile 2 far) head.2) := by
  intro ascii near far follow head
  have hhead : Head follow (near ++ far) empty.newFile (empty.entered "a.c")
      head.1 head.2 := Head.start.headAfter 2
  have hpos : head.1.cursor.pos = near.length := by decide +kernel
  have hpending : head.1.pending = #[] := by decide +kernel
  have hline : head.1.line = 2 := by decide +kernel
  obtain ⟨hfirst, -, hboth⟩ := enter?_append (fun _ => .error .notFound)
    maxDepth (by decide +kernel) rfl hhead hpos hpending
  rw [hline] at hboth
  exact ⟨hpos, hpending, hline, by decide +kernel, hfirst, hboth⟩

/-- **A blank where no word is begun** is passed over, and changes nothing. -/
theorem round_blank (follow : String → Workspace → Workspace)
    (hpending : s.pending = #[]) (u : Workspace) (rest : List UInt8) :
    round follow s u 0x20 rest = (s.behind ⟨none, 0, 0⟩, u) := by
  have hgathers : s.gathers 0x20 = false := rfl
  have hfirst : Lexeme.first (!s.pending.isEmpty) 0x20 rest = ⟨none, 0, 0⟩ :=
    rfl
  rw [round_of_cut follow hgathers rfl, hfirst, flush_of_pending_eq hpending]
  rfl

/-- **A head in front of blanks** leads to one behind them, with the workspace
as it was. -/
theorem Head.blanks {n : Nat} (h : Head follow bytes file w s u)
    (hpending : s.pending = #[])
    (hrest : s.cursor.rest = List.replicate n 0x20) :
    ∃ t, Head follow bytes file w t u ∧ t.cursor.rest = []
      ∧ t.cursor.pos = s.cursor.pos + n ∧ t.pending = #[]
      ∧ t.line = s.line := by
  induction n generalizing s with
  | zero => exact ⟨s, h, hrest, rfl, hpending, rfl⟩
  | succ n ih =>
    rw [List.replicate_succ] at hrest
    have hnext := h.next hrest
    rw [round_blank follow hpending] at hnext
    have hpos : (s.behind ⟨none, 0, 0⟩).cursor.pos = s.cursor.pos + 1 := by
      simp [Scan.behind, Cursor.pos, Cursor.skip_succ, Cursor.advance, hrest]
    obtain ⟨t, ht, hend, htpos, htpending, hline⟩ :=
      ih (s := s.behind ⟨none, 0, 0⟩) hnext rfl (by simp [Scan.behind, hrest])
    rw [hpos] at htpos
    exact ⟨t, ht, hend, by omega, htpending, hline⟩

/-- **The parts need not be read one after the other.** Behind as many blanks
as a buffer has room for bytes, there is no second part any more, while alone
it would be a name. And operators that the first part ends with are fused when
it has been tokenized, while at the head behind it they are not. -/
theorem not_append :
    let ascii : String → List UInt8 := fun s =>
      s.toList.map fun c => UInt8.ofNat c.toNat
    let sources : Sources := fun _ => .error .notFound
    let follow := Workspace.follow sources maxDepth
    let near := List.replicate Buffer.capacity 0x20
    let far := ascii "x"
    let plus := ascii "+= "
    (∃ s u, Head follow (near ++ far) empty.newFile (empty.entered "a.c") s u
        ∧ s.cursor.pos = near.length ∧ s.pending = #[]
        ∧ ∃ v, empty.enter? follow (near ++ far) "a.c" = some v
          ∧ v.chain.tokens = []
          ∧ (readOn follow (resumed empty.newFile s.line far)
              u).chain.tokens.map Token.text = ["x"])
      ∧ ∃ s u, Head follow (plus ++ far) empty.newFile (empty.entered "a.c") s u
        ∧ s.cursor.pos = plus.length ∧ s.pending = #[]
        ∧ u.chain.tokens.map Token.text = ["+", "="]
        ∧ (empty.tokenize? sources plus "a.c").map
            (fun v => v.chain.tokens.map Token.text) = some ["+="] := by
  intro ascii sources follow near far plus
  constructor
  · have hheld : Buffer.held (near ++ far) = near :=
      List.take_left' List.length_replicate
    have hstart : Head follow (near ++ far) empty.newFile (empty.entered "a.c")
        _ _ := .start
    obtain ⟨s, hs, hend, hpos, hpending, hline⟩ := hstart.blanks rfl hheld
    have hfirst : s.line = 1 := hline
    refine ⟨s, _, hs, ?_, hpending, _, enter?_eq_readOn rfl follow _, ?_, ?_⟩
    · rw [hpos, List.length_replicate]
      exact Nat.zero_add _
    · rw [← hs.readOn_eq, readOn_of_rest_eq_nil follow _ hend,
        flush_of_pending_eq hpending]
      rfl
    · rw [hfirst]
      have hfar := readOn_start follow far empty.newFile (empty.entered "a.c")
      rw [Buffer.held_of_le (by decide +kernel)] at hfar
      have hresumed : resumed empty.newFile 1 far
          = Scan.start empty.newFile far := rfl
      rw [hresumed, hfar]
      decide +kernel
  · exact ⟨_, _, Head.start.headAfter 3, by decide +kernel,
      by decide +kernel, by decide +kernel, by decide +kernel⟩

end Workspace

end FlatC
