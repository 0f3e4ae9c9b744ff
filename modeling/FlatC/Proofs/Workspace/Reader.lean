import FlatC.Proofs.Workspace.Growth
import FlatC.Workspace.Tokenizing
import Mathlib.Logic.Function.Iterate

/-!
# A reader at work

Tokenizing is a recursion: a scan that meets an inclusion waits for the
scan of the file it includes. What happens *when* cannot be told from the
workspace that comes out. A **reader** does the same work a move at a time.
The scans it has open are a stack, so how deep it is in inclusions, what it
knows, and what it asks for can be read off it at any time.

What a reader does next is decided first (`Reader.next?`) and done then
(`Reader.make`). A reader that is given calls comes to their end, and leaves
the workspace and the answers of tokenizing them one after another
(`Reader.reaches_tokenizeAll`). What it has asked for on the way is all that
matters of the sources (`Reader.run_congr`).
-/

namespace FlatC

/-- **A call**: a source to be tokenized, under a path. The source is given by
whoever calls, and only those of inclusions are asked for. -/
structure Call where
  bytes : List UInt8
  path : String
  deriving DecidableEq, Repr

namespace Workspace

/-- **A call answered**: whether its source was tokenized, and what is known
then. A call for a known file is refused. -/
def tokenize (sources : Sources) (call : Call) (w : Workspace) :
    Bool × Workspace :=
  match w.tokenize? sources call.bytes call.path with
  | some v => (true, v)
  | none => (false, w)

/-- **Calls answered** one after another, each in the workspace that the one
before leaves. -/
def tokenizeAll (sources : Sources) :
    List Call → Workspace → List Bool × Workspace
  | [], w => ([], w)
  | call :: calls, w =>
    let first := w.tokenize sources call
    let others := tokenizeAll sources calls first.2
    (first.1 :: others.1, others.2)

/-- A call for a known file changes nothing. -/
theorem tokenize_of_find?_eq_some {sources : Sources} {call : Call}
    {w : Workspace} {id : FileId} (h : w.files.find? call.path = some id) :
    w.tokenize sources call = (false, w) := by
  have hnone : w.tokenize? sources call.bytes call.path = none :=
    tokenize?_eq_none_iff.mpr (by rw [h]; rfl)
  rw [tokenize, hnone]

end Workspace

/-- **A reader at work**: all that there is between two steps, the scans that
wait for an inclusion among it. -/
structure Reader where
  /-- The calls to come. -/
  calls : List Call
  /-- The scans that are open, the innermost first. -/
  scans : List Scan
  /-- The path of an inclusion just met. -/
  wanted : Option String
  workspace : Workspace
  /-- The answers to the calls before. -/
  answers : List Bool

/-- **A move of a reader**, with what it is about. Taking a byte of a source
is one, and so is each decision about a file. -/
inductive Move
  /-- A call for a known file is refused. -/
  | refuse (call : Call)
  /-- A call for a new file is taken. -/
  | accept (call : Call)
  /-- An inclusion of a known file is left. -/
  | leave (path : String)
  /-- An inclusion that is too deep is skipped. -/
  | skip (path : String)
  /-- The sources are asked for a path. -/
  | ask (path : String)
  /-- A scan takes a turn. -/
  | turn (s : Scan) (b : UInt8) (rest : List UInt8)
  /-- A scan is finished. -/
  | finish (s : Scan)

/-- The path that a move puts in the table. -/
def Move.entered? : Move → Option String
  | .accept call => some call.path
  | .ask path => some path
  | _ => none

namespace Reader

variable {sources : Sources} {r r' r'' : Reader} {s : Scan} {below : List Scan}
variable {calls : List Call} {w : Workspace} {answers : List Bool}
variable {path : String} {b : UInt8} {rest : List UInt8}

/-- The reader that is given calls, before its first step. -/
def start (calls : List Call) (w : Workspace) : Reader :=
  ⟨calls, [], none, w, []⟩

/-- The reader at the end of its calls, which does nothing any more. -/
def done (w : Workspace) (answers : List Bool) : Reader :=
  ⟨[], [], none, w, answers⟩

/-- A new file opened, to be scanned before all else. Its path is in the table
from here on. -/
def opened (r : Reader) (bytes : List UInt8) (path : String) : Reader :=
  { r with
    scans := .start r.workspace.newFile bytes :: r.scans
    workspace := r.workspace.entered path }

/-- **What a reader does next**, if there is anything left to do. An inclusion
just met comes first, then the innermost scan, then the next call. It does not
look at any source to decide. -/
def next? (r : Reader) : Option Move :=
  match r.wanted, r.scans, r.calls with
  | some path, scans, _ =>
    match r.workspace.files.find? path with
    | some _ => some (.leave path)
    | none =>
      if Workspace.maxDepth < scans.length then some (.skip path)
      else some (.ask path)
  | none, s :: _, _ =>
    match s.cursor.rest with
    | [] => some (.finish s)
    | b :: rest => some (.turn s b rest)
  | none, [], call :: _ =>
    match r.workspace.files.find? call.path with
    | some _ => some (.refuse call)
    | none => some (.accept call)
  | none, [], [] => none

/-- **What a reader goes by** when it makes a move, for each kind of move. It
says all that is known of the reader then. -/
def Fits (r : Reader) : Move → Prop
  | .refuse call => r.calls.head? = some call
    ∧ (r.workspace.files.find? call.path).isSome = true
  | .accept call => r.calls.head? = some call
    ∧ r.workspace.files.find? call.path = none
  | .leave path => r.wanted = some path
    ∧ (r.workspace.files.find? path).isSome = true
  | .skip path => r.wanted = some path
    ∧ r.workspace.files.find? path = none
    ∧ Workspace.maxDepth < r.scans.length
  | .ask path => r.wanted = some path
    ∧ r.workspace.files.find? path = none
    ∧ r.scans.length ≤ Workspace.maxDepth
  | .turn s b rest => r.wanted = none ∧ r.scans.head? = some s
    ∧ s.cursor.rest = b :: rest
  | .finish s => r.wanted = none ∧ r.scans.head? = some s
    ∧ s.cursor.rest = []

/-- **A reader decides on a move that fits.** The cases of the decision are
gone through here once, so that no other proof has to. -/
theorem fits_of_next? {m : Move} (h : r.next? = some m) : r.Fits m := by
  unfold next? at h
  split at h
  · next hwanted =>
    split at h
    · next hfind =>
      cases h
      exact ⟨hwanted, by rw [hfind]; rfl⟩
    · next hfind =>
      split at h
      · next hdeep =>
        cases h
        exact ⟨hwanted, hfind, hdeep⟩
      · next hdeep =>
        cases h
        exact ⟨hwanted, hfind, Nat.le_of_not_lt hdeep⟩
  · next hwanted hscans =>
    split at h
    · next hrest =>
      cases h
      exact ⟨hwanted, by rw [hscans]; rfl, hrest⟩
    · next hrest =>
      cases h
      exact ⟨hwanted, by rw [hscans]; rfl, hrest⟩
  · next hcalls =>
    split at h
    · next hfind =>
      cases h
      exact ⟨by rw [hcalls]; rfl, by rw [hfind]; rfl⟩
    · next hfind =>
      cases h
      exact ⟨by rw [hcalls]; rfl, hfind⟩
  · cases h

/-- **A move made.** The call is answered, and the chain arranged, when the
last scan is finished. A source that is not there has its path put in the
table all the same. -/
def make (sources : Sources) (r : Reader) : Move → Reader
  | .refuse _ =>
    { r with calls := r.calls.tail, answers := r.answers ++ [false] }
  | .accept call =>
    { r with calls := r.calls.tail }.opened call.bytes call.path
  | .leave _ => { r with wanted := none }
  | .skip _ => { r with wanted := none }
  | .ask path =>
    let r := { r with wanted := none }
    match sources path with
    | .ok bytes => r.opened bytes path
    | .error _ =>
      { r with
        workspace :=
          { r.workspace with files := r.workspace.files.add path } }
  | .turn s b rest =>
    let t := Workspace.turn s r.workspace b rest
    { r with
      scans := t.scan :: r.scans.tail
      wanted := t.inclusion
      workspace := t.workspace }
  | .finish s =>
    let w := r.workspace.flush s
    match r.scans.tail with
    | [] =>
      { r with
        scans := []
        workspace := { w with chain := (w.chain.edit arrange).2 }
        answers := r.answers ++ [true] }
    | below => { r with scans := below, workspace := w }

/-- **A step**: the next move made. -/
def step (sources : Sources) (r : Reader) : Reader :=
  match r.next? with
  | some m => r.make sources m
  | none => r

/-- **A reader after so many steps.** -/
def run (sources : Sources) (r : Reader) (n : Nat) : Reader :=
  (step sources)^[n] r

/-- A step is the move that comes next. -/
theorem step_of_next? {m : Move} (h : r.next? = some m) :
    r.step sources = r.make sources m := by
  rw [step, h]

/-- One step more is a step from where the run has come to. -/
theorem run_succ (sources : Sources) (r : Reader) (n : Nat) :
    r.run sources (n + 1) = (r.run sources n).step sources :=
  Function.iterate_succ_apply' _ n r

/-- A run may be gone on with. -/
theorem run_add (sources : Sources) (r : Reader) (n k : Nat) :
    r.run sources (n + k) = (r.run sources n).run sources k := by
  rw [run, Nat.add_comm, Function.iterate_add_apply]
  rfl

/-- At the end of its calls a reader stays there. -/
@[simp] theorem run_done (sources : Sources) (w : Workspace)
    (answers : List Bool) (n : Nat) :
    (done w answers).run sources n = done w answers :=
  Function.iterate_fixed rfl n

/-! ## The end of a reader's work -/

/-- That a reader becomes another in time, in any number of steps. -/
def Reaches (sources : Sources) (r r' : Reader) : Prop :=
  ∃ n, r.run sources n = r'

/-- A reader is itself after no steps. -/
theorem Reaches.refl (sources : Sources) (r : Reader) :
    Reaches sources r r := ⟨0, rfl⟩

/-- What is reached from what is reached is reached. -/
theorem Reaches.trans (h : Reaches sources r r')
    (h' : Reaches sources r' r'') : Reaches sources r r'' := by
  obtain ⟨n, rfl⟩ := h
  obtain ⟨k, rfl⟩ := h'
  exact ⟨n + k, run_add sources r n k⟩

/-- One move is a way to reach something. -/
theorem Reaches.of_next? {m : Move} (h : r.next? = some m)
    (hr : r.make sources m = r') : Reaches sources r r' :=
  ⟨1, (step_of_next? h).trans hr⟩

/-- **A reader comes to one end only**, however many steps are counted on the
way. -/
theorem Reaches.done_unique {w' : Workspace} {answers' : List Bool}
    (h : Reaches sources r (done w answers))
    (h' : Reaches sources r (done w' answers')) :
    done w answers = done w' answers' := by
  obtain ⟨n, hn⟩ := h
  obtain ⟨k, hk⟩ := h'
  rw [← run_done sources w answers k, ← hn, ← run_add, Nat.add_comm, run_add,
    hk, run_done]

/-! ## What stays open meanwhile -/

/-- **That a reader becomes another in time above some scans**, which stay
open all the while and are not touched. -/
def ReachesAbove (sources : Sources) (floor : List Scan) (r r' : Reader) :
    Prop :=
  ∃ n, r.run sources n = r' ∧ ∀ k ≤ n, floor <:+ (r.run sources k).scans

namespace ReachesAbove

variable {floor floor' : List Scan}

/-- What is reached above some scans is reached. -/
theorem reaches (h : ReachesAbove sources floor r r') :
    Reaches sources r r' :=
  h.imp fun _ hn => hn.1

/-- A reader is itself above the scans that are open. -/
theorem refl (sources : Sources) (h : floor <:+ r.scans) :
    ReachesAbove sources floor r r :=
  ⟨0, rfl, fun k hk => by rwa [Nat.le_zero.mp hk]⟩

/-- What is reached above some scans, from what is reached above them, is
reached above them. -/
theorem trans (h : ReachesAbove sources floor r r')
    (h' : ReachesAbove sources floor r' r'') :
    ReachesAbove sources floor r r'' := by
  obtain ⟨n, rfl, hn⟩ := h
  obtain ⟨m, rfl, hm⟩ := h'
  refine ⟨n + m, run_add sources r n m, fun k hk => ?_⟩
  rcases Nat.le_total k n with hkn | hnk
  · exact hn k hkn
  · obtain ⟨j, rfl⟩ := Nat.exists_eq_add_of_le hnk
    rw [run_add]
    exact hm j (Nat.le_of_add_le_add_left hk)

/-- One move that leaves some scans open is a way to reach something above
them. -/
theorem of_next? {m : Move} (hr : floor <:+ r.scans)
    (hr' : floor <:+ r'.scans) (h : r.next? = some m)
    (hmake : r.make sources m = r') : ReachesAbove sources floor r r' := by
  refine ⟨1, (step_of_next? h).trans hmake, fun k hk => ?_⟩
  cases k with
  | zero => exact hr
  | succ k =>
    obtain rfl : k = 0 := by omega
    rw [run_succ, show r.run sources 0 = r from rfl, step_of_next? h, hmake]
    exact hr'

/-- What stays open above some scans stays open above fewer. -/
theorem mono (hfloor : floor' <:+ floor)
    (h : ReachesAbove sources floor r r') :
    ReachesAbove sources floor' r r' :=
  h.imp fun _ hn => ⟨hn.1, fun k hk => hfloor.trans (hn.2 k hk)⟩

end ReachesAbove

/-- A turn, with no inclusion met before it, changes the innermost scan alone. -/
theorem reaches_turn (hrest : s.cursor.rest = b :: rest) :
    ReachesAbove sources below ⟨calls, s :: below, none, w, answers⟩
      ⟨calls, (Workspace.turn s w b rest).scan :: below,
        (Workspace.turn s w b rest).inclusion,
        (Workspace.turn s w b rest).workspace, answers⟩ :=
  .of_next? (m := .turn s b rest) (List.suffix_cons _ _)
    (List.suffix_cons _ _) (by simp only [next?, hrest]) rfl

/-- **A scan is read to its end** above those that wait for it, if what
inclusions it has are followed as they should be. The induction is on what is
left of the source, which goes down with each turn. -/
theorem reaches_end {room : Nat}
    (hfollow : ∀ s path w, ReachesAbove sources (s :: below)
        ⟨calls, s :: below, some path, w, answers⟩
        ⟨calls, s :: below, none, Workspace.follow sources room path w,
          answers⟩)
    (s : Scan) (w : Workspace) :
    ∃ t v, ReachesAbove sources below ⟨calls, s :: below, none, w, answers⟩
        ⟨calls, t :: below, none, v, answers⟩
      ∧ t.cursor.rest = []
      ∧ v.flush t
        = Workspace.readOn (Workspace.follow sources room) s w := by
  -- A turn may take any number of bytes, so the induction is on how many
  -- there are ahead.
  induction hn : s.cursor.rest.length using Nat.strongRecOn
    generalizing s w with
  | ind n ih =>
    cases hrest : s.cursor.rest with
    | nil =>
      exact ⟨s, w, .refl _ (List.suffix_cons _ _), hrest,
        (Workspace.readOn_of_rest_eq_nil _ w hrest).symm⟩
    | cons b rest =>
      let next := Workspace.round (Workspace.follow sources room) s w b rest
      have hround : ReachesAbove sources below
          ⟨calls, s :: below, none, w, answers⟩
          ⟨calls, next.1 :: below, none, next.2, answers⟩ := by
        refine (reaches_turn hrest).trans ?_
        simp only [next, Workspace.round]
        cases (Workspace.turn s w b rest).inclusion with
        | none => exact .refl _ (List.suffix_cons _ _)
        | some path => exact (hfollow _ path _).mono (List.suffix_cons _ _)
      obtain ⟨k, hk⟩ := Workspace.rest_round
        (Workspace.follow sources room) s w hrest
      have hlt : next.1.cursor.rest.length < n := by
        rw [hk, List.length_drop, ← hn, hrest, List.length_cons]
        omega
      obtain ⟨t, v, hreach, ht, hflush⟩ := ih _ hlt next.1 next.2 rfl
      exact ⟨t, v, hround.trans hreach, ht,
        hflush.trans (Workspace.readOn_of_rest_eq_cons _ w hrest).symm⟩

/-- An inclusion of a known file is left, as following it would do. -/
theorem reaches_leave {id : FileId} (hfind : w.files.find? path = some id)
    (room : Nat) :
    ReachesAbove sources (s :: below)
      ⟨calls, s :: below, some path, w, answers⟩
      ⟨calls, s :: below, none, Workspace.follow sources room path w,
        answers⟩ := by
  rw [Workspace.follow_of_find?_eq_some hfind]
  exact .of_next? (m := .leave path) List.suffix_rfl List.suffix_rfl
    (by simp only [next?, hfind]) rfl

/-- **An inclusion is followed** as it should be, above the scan that has
it. The scans that are open and the room for more make up the limit at any
time. -/
theorem reaches_follow (sources : Sources) (room : Nat) (below : List Scan)
    (hroom : below.length + room = Workspace.maxDepth) (s : Scan)
    (path : String) (w : Workspace) :
    ReachesAbove sources (s :: below)
      ⟨calls, s :: below, some path, w, answers⟩
      ⟨calls, s :: below, none, Workspace.follow sources room path w,
        answers⟩ := by
  induction room generalizing s path w below with
  | zero =>
    cases hfind : w.files.find? path with
    | some id => exact reaches_leave hfind 0
    | none =>
      have hdeep : Workspace.maxDepth < (s :: below).length := by
        rw [List.length_cons]
        omega
      exact .of_next? (m := .skip path) List.suffix_rfl List.suffix_rfl
        (by simp only [next?, hfind, if_pos hdeep]) rfl
  | succ room ih =>
    cases hfind : w.files.find? path with
    | some id => exact reaches_leave hfind (room + 1)
    | none =>
      rw [Workspace.follow, hfind]
      have hdeep : ¬ Workspace.maxDepth < (s :: below).length := by
        rw [List.length_cons]
        omega
      have hnext : (⟨calls, s :: below, some path, w, answers⟩ : Reader).next?
          = some (.ask path) := by
        simp only [next?, hfind, if_neg hdeep]
      cases hbytes : sources path with
      | error failure =>
        exact .of_next? List.suffix_rfl List.suffix_rfl hnext
          (by simp only [make, hbytes])
      | ok bytes =>
        -- The file is scanned above `s`, with room for one inclusion less.
        have hopen : ReachesAbove sources (s :: below)
            ⟨calls, s :: below, some path, w, answers⟩
            ⟨calls, .start w.newFile bytes :: s :: below, none,
              w.entered path, answers⟩ :=
          .of_next? List.suffix_rfl (List.suffix_cons _ _) hnext
            (by simp only [make, hbytes]; rfl)
        obtain ⟨t, v, hreach, ht, hflush⟩ := reaches_end
          (ih (s :: below) (by rw [List.length_cons]; omega))
          (.start w.newFile bytes) (w.entered path)
        have hclose : ReachesAbove sources (s :: below)
            ⟨calls, t :: s :: below, none, v, answers⟩
            ⟨calls, s :: below, none, v.flush t, answers⟩ :=
          .of_next? (m := .finish t) (List.suffix_cons _ _) List.suffix_rfl
            (by simp only [next?, ht]) rfl
        dsimp only
        rw [Workspace.enter?_eq_readOn hfind, Option.getD_some, ← hflush]
        exact (hopen.trans hreach).trans hclose

/-- **A call is answered** as it should be: at once if its file is known, and
else when its scan has come to the end. -/
theorem reaches_tokenize (sources : Sources) (call : Call)
    (calls : List Call) (w : Workspace) (answers : List Bool) :
    Reaches sources ⟨call :: calls, [], none, w, answers⟩
      ⟨calls, [], none, (w.tokenize sources call).2,
        answers ++ [(w.tokenize sources call).1]⟩ := by
  cases hfind : w.files.find? call.path with
  | some id =>
    rw [Workspace.tokenize_of_find?_eq_some hfind]
    exact .of_next? (m := .refuse call) (by simp only [next?, hfind]) rfl
  | none =>
    have hopen : Reaches sources ⟨call :: calls, [], none, w, answers⟩
        ⟨calls, [.start w.newFile call.bytes], none, w.entered call.path,
          answers⟩ :=
      .of_next? (m := .accept call) (by simp only [next?, hfind]) rfl
    obtain ⟨t, v, hreach, ht, hflush⟩ := reaches_end
      (reaches_follow sources Workspace.maxDepth [] (Nat.zero_add _))
      (.start w.newFile call.bytes) (w.entered call.path)
    have hread : w.read? sources call.bytes call.path = some (v.flush t) := by
      rw [Workspace.read?, Workspace.enter?_eq_readOn hfind, hflush]
    refine (hopen.trans hreach.reaches).trans
      (.of_next? (m := .finish t) (by simp only [next?, ht]) ?_)
    simp only [Workspace.tokenize, Workspace.tokenize?, hread, make,
      Option.map_some, List.tail_cons]

/-- **A reader comes to the end of its calls**, with the workspace and the
answers of tokenizing. So to reason about steps is to reason about the same
thing. -/
theorem reaches_tokenizeAll (sources : Sources) (calls : List Call)
    (w : Workspace) (answers : List Bool) :
    Reaches sources ⟨calls, [], none, w, answers⟩
      (done (w.tokenizeAll sources calls).2
        (answers ++ (w.tokenizeAll sources calls).1)) := by
  induction calls generalizing w answers with
  | nil =>
    rw [Workspace.tokenizeAll, List.append_nil]
    exact .refl _ _
  | cons call calls ih =>
    refine (reaches_tokenize sources call calls w answers).trans ?_
    have hcalls := ih (w.tokenize sources call).2
      (answers ++ [(w.tokenize sources call).1])
    rwa [List.append_assoc] at hcalls

/-! ## What a reader asks for -/

/-- **A step depends on what it asks for** and on no other source. -/
theorem step_congr {sources' : Sources}
    (h : ∀ path, r.next? = some (.ask path) → sources' path = sources path) :
    r.step sources' = r.step sources := by
  unfold step
  cases hnext : r.next? with
  | none => rfl
  | some m =>
    cases m with
    | ask path => simp only [make, h path hnext]
    | _ => rfl

/-- **A run depends on what it asks for** and on no other source, step by
step. -/
theorem run_congr {sources' : Sources}
    (h : ∀ n path, (r.run sources n).next? = some (.ask path) →
      sources' path = sources path) (n : Nat) :
    r.run sources' n = r.run sources n := by
  induction n with
  | zero => rfl
  | succ n ih => rw [run_succ, run_succ, ih, step_congr (h n)]

end Reader

/-- **Tokenizing depends on what its reader asks for** and on no other source.
What is behind other paths may change, or not be there. -/
theorem Workspace.tokenizeAll_congr {sources sources' : Sources}
    {calls : List Call} {w : Workspace}
    (h : ∀ n path, ((Reader.start calls w).run sources n).next?
      = some (.ask path) → sources' path = sources path) :
    w.tokenizeAll sources' calls = w.tokenizeAll sources calls := by
  have hreach := Reader.reaches_tokenizeAll sources calls w []
  obtain ⟨n, hn⟩ := Reader.reaches_tokenizeAll sources' calls w []
  have hdone := hreach.done_unique ⟨n, (Reader.run_congr h n).symm.trans hn⟩
  simp only [Reader.done, Reader.mk.injEq, List.nil_append] at hdone
  exact (Prod.ext hdone.2.2.2.2 hdone.2.2.2.1).symm

end FlatC
