import FlatC.Proofs.Workspace.Reader

/-!
# Reading comes to an end

What a source includes may include more, and the sources may answer for ever
new paths with ever new bytes, so that no table of files would bound the
work. Two things bound it. Each turn of a scan takes a byte of its source at
least, and a scan is opened for an inclusion only while fewer than the limit
are open (`Reader.within_run`).

The scans that wait are not touched meanwhile. When an inclusion has been
dealt with, whether it was read, left, skipped or could not be read, the
reader is as deep as it was when it met it, with the same scans open
(`Workspace.bounded`). What it has done to the workspace by then is what
`Workspace.follow` does with the room that was left at this depth, so the
depth of a reader and the room of the recursion are two counts of one thing.

A third one is a counter. It goes up by one before the source of an inclusion
is scanned and down by one when it has been, and it is held to the limit
before anything is asked for. The scans that are open need not be known for
that: the counter is the depth at every step (`Reader.depth_run`), and an
inclusion is skipped just where it has come to the limit
(`Reader.next?_of_wanted`).
-/

namespace FlatC

/-- **What a move makes of a counter of inclusions.** It goes up where the
source that was asked for is there, and is about to be scanned. It goes down
where a scan is finished. The scan of a call is not counted, so the counter is
0 by then and stays so. -/
def Move.counted (sources : Sources) (n : Nat) : Move → Nat
  | .ask path =>
    match sources path with
    | .ok _ => n + 1
    | .error _ => n
  | .finish _ => n - 1
  | _ => n

namespace Reader

variable {sources : Sources} {r : Reader} {m : Move} {s : Scan}
variable {b : UInt8} {rest : List UInt8} {path : String}

/-- **How deep a reader is** in inclusions: of the scans that are open, one
is that of the call. -/
def depth (r : Reader) : Nat := r.scans.length - 1

/-- **Within the limit**: no more scans are open than one for the call and
one for each inclusion in another, and an inclusion is met only by a scan
that is open. -/
structure Within (r : Reader) : Prop where
  length_le : r.scans.length ≤ Workspace.maxDepth + 1
  met : r.wanted.isSome = true → r.scans ≠ []

/-- At the start no scan is open. -/
theorem within_start (calls : List Call) (w : Workspace) :
    (start calls w).Within :=
  ⟨Nat.zero_le _, by rintro ⟨⟩⟩

/-- A call is taken when no scan is open, so its scan is the outermost one. -/
theorem scans_eq_nil_of_next? {call : Call}
    (h : r.next? = some (.accept call)) : r.scans = [] := by
  unfold next? at h
  split at h
  · split at h
    · cases h
    · split at h <;> cases h
  · split at h <;> cases h
  · next hscans _ => exact hscans
  · cases h

/-- The scan that takes a turn is the innermost one, and it has a byte left. -/
theorem scans_of_turn (h : r.next? = some (.turn s b rest)) :
    ∃ below, r.scans = s :: below ∧ s.cursor.rest = b :: rest := by
  obtain ⟨-, hhead, hrest⟩ := fits_of_next? h
  obtain ⟨below, hscans⟩ := List.head?_eq_some_iff.mp hhead
  exact ⟨below, hscans, hrest⟩

/-- **A move stays within the limit.** A scan is opened only where there is
room for it, or by a call, when none is open. -/
theorem Within.make (hr : r.Within) (h : r.next? = some m)
    (sources : Sources) : (r.make sources m).Within := by
  cases m with
  | refuse call => exact ⟨hr.length_le, hr.met⟩
  | accept call =>
    have hscans := scans_eq_nil_of_next? h
    refine ⟨?_, fun _ => List.cons_ne_nil _ _⟩
    show (_ :: r.scans).length ≤ _
    rw [hscans]
    exact Nat.le_add_left 1 _
  | leave path => exact ⟨hr.length_le, by rintro ⟨⟩⟩
  | skip path => exact ⟨hr.length_le, by rintro ⟨⟩⟩
  | ask path =>
    obtain ⟨-, -, hroom⟩ := fits_of_next? h
    rw [Reader.make]
    cases sources path with
    | ok bytes => exact ⟨Nat.succ_le_succ hroom, by rintro ⟨⟩⟩
    | error failure => exact ⟨hr.length_le, by rintro ⟨⟩⟩
  | turn s b rest =>
    obtain ⟨below, hscans, -⟩ := scans_of_turn h
    have hlen := hr.length_le
    rw [hscans] at hlen
    refine ⟨?_, fun _ => List.cons_ne_nil _ _⟩
    show (_ :: r.scans.tail).length ≤ _
    rw [hscans]
    exact hlen
  | finish s =>
    obtain ⟨hwanted, -, -⟩ := fits_of_next? h
    have hle := hr.length_le
    rw [Reader.make]
    split
    · exact ⟨Nat.zero_le _, by simp [hwanted]⟩
    · refine ⟨?_, by simp [hwanted]⟩
      show r.scans.tail.length ≤ _
      rw [List.length_tail]
      omega

/-- **A reader stays within the limit** all the time, step by step. -/
theorem within_run (sources : Sources) (hr : r.Within) (n : Nat) :
    (r.run sources n).Within := by
  induction n with
  | zero => exact hr
  | succ n ih =>
    rw [run_succ, step]
    cases h : (r.run sources n).next? with
    | none => exact ih
    | some m => exact ih.make h sources

/-- **A turn takes a byte** of its scan's source, perhaps more, and leaves the
scans below alone. So what a scan has left goes down with each of its turns,
and this is why reading comes to an end. -/
theorem scans_step_of_turn (h : r.next? = some (.turn s b rest)) :
    ∃ t below, r.scans = s :: below
      ∧ (r.step sources).scans = t :: below
      ∧ s.cursor.rest = b :: rest ∧ t.cursor.rest <:+ rest := by
  obtain ⟨below, hscans, hrest⟩ := scans_of_turn h
  obtain ⟨k, hk⟩ := Workspace.rest_round (fun _ w => w) s r.workspace hrest
  refine ⟨(Workspace.turn s r.workspace b rest).scan, below, hscans, ?_,
    hrest, ?_⟩
  · rw [step_of_next? h]
    show _ :: r.scans.tail = _
    rw [hscans]
    rfl
  · exact hk ▸ List.drop_suffix k rest

/-! ## The depth as a counter -/

/-- **A counter of inclusions** after so many steps, which is told the moves
that are made and nothing of the scans. -/
def counter (sources : Sources) (r : Reader) : Nat → Nat
  | 0 => 0
  | n + 1 =>
    match (r.run sources n).next? with
    | some m => m.counted sources (r.counter sources n)
    | none => r.counter sources n

/-- **A move changes the depth** as it changes the counter. Every scan that is
opened for an inclusion is counted, and every one that is finished is taken
off again, on each way out. -/
theorem depth_make (hr : r.Within) (h : r.next? = some m)
    (sources : Sources) :
    (r.make sources m).depth = m.counted sources r.depth := by
  cases m with
  | refuse call => rfl
  | accept call =>
    have hscans := scans_eq_nil_of_next? h
    show (_ :: r.scans).length - 1 = r.scans.length - 1
    rw [hscans]
    rfl
  | leave path => rfl
  | skip path => rfl
  | ask path =>
    -- The scan that has met the inclusion is open, and one is put above it.
    obtain ⟨hwanted, -, -⟩ := fits_of_next? h
    have hopen : 0 < r.scans.length :=
      List.length_pos_of_ne_nil (hr.met (by rw [hwanted]; rfl))
    rw [Reader.make, Move.counted]
    cases sources path with
    | ok bytes =>
      show (_ :: r.scans).length - 1 = r.scans.length - 1 + 1
      rw [List.length_cons]
      omega
    | error failure => rfl
  | turn s b rest =>
    obtain ⟨below, hscans, -⟩ := scans_of_turn h
    show (_ :: r.scans.tail).length - 1 = r.scans.length - 1
    rw [hscans]
    rfl
  | finish s =>
    have htail : (r.make sources (.finish s)).scans = r.scans.tail := by
      rw [Reader.make]
      split
      · next htail => exact htail.symm
      · rfl
    rw [Move.counted, depth, depth, htail, List.length_tail]

/-- **The counter is the depth** at every step. So it makes no difference
whether inclusions are counted or the open scans are. -/
theorem depth_run (sources : Sources) (calls : List Call) (w : Workspace)
    (n : Nat) : ((start calls w).run sources n).depth
      = (start calls w).counter sources n := by
  induction n with
  | zero => rfl
  | succ n ih =>
    rw [run_succ, step, counter]
    cases h : ((start calls w).run sources n).next? with
    | none => exact ih
    | some m =>
      have hwithin := within_run sources (within_start calls w) n
      exact (depth_make hwithin h sources).trans
        (congrArg (fun k => m.counted sources k) ih)

/-- **An inclusion of a new file is skipped** where the depth has come to the
limit, and its source is asked for otherwise. No other move is made before. -/
theorem next?_of_wanted (hr : r.Within) (h : r.wanted = some path)
    (hnew : r.workspace.files.find? path = none) :
    r.next? = some (if Workspace.maxDepth ≤ r.depth then .skip path
      else .ask path) := by
  have hopen : 0 < r.scans.length :=
    List.length_pos_of_ne_nil (hr.met (by rw [h]; rfl))
  have hlimit : Workspace.maxDepth < r.scans.length
      ↔ Workspace.maxDepth ≤ r.depth := by
    rw [depth]
    omega
  simp only [next?, h, hnew, hlimit]
  split <;> rfl

/-! ## What becomes of an inclusion -/

/-- **An inclusion is dealt with** above the scans that are open when it is
met, and as `Workspace.follow` does with the room left at that depth.
Afterwards these scans are open again, as they were. -/
theorem returns_of_wanted (sources : Sources) (hr : r.Within)
    (h : r.wanted = some path) :
    ∃ k, r.run sources k
        = { r with
            wanted := none
            workspace := Workspace.follow sources
              (Workspace.maxDepth - r.depth) path r.workspace }
      ∧ ∀ j ≤ k, r.scans <:+ (r.run sources j).scans := by
  obtain ⟨calls, scans, wanted, w, answers⟩ := r
  obtain rfl : wanted = some path := h
  cases scans with
  | nil => exact absurd rfl (hr.met rfl)
  | cons s below =>
    have hle : below.length ≤ Workspace.maxDepth :=
      Nat.le_of_succ_le_succ hr.length_le
    exact reaches_follow sources (Workspace.maxDepth - below.length) below
      (Nat.add_sub_cancel' hle) s path w

end Reader

namespace Workspace

/-- **Bounded work**, in answering calls: reading ends, is never deeper in
inclusions than the limit, and leaves a scan as it was when something has been
included. -/
structure Bounded (sources : Sources) (calls : List Call) (w : Workspace) :
    Prop where
  /-- The reader comes to the end, and leaves what tokenizing leaves. -/
  ends : ∃ n, (Reader.start calls w).run sources n
    = .done (w.tokenizeAll sources calls).2 (w.tokenizeAll sources calls).1
  /-- Each turn takes a byte of its source at least. -/
  turns : ∀ n s b rest,
    ((Reader.start calls w).run sources n).next? = some (.turn s b rest) →
    ∃ t below, ((Reader.start calls w).run sources n).scans = s :: below
      ∧ ((Reader.start calls w).run sources (n + 1)).scans = t :: below
      ∧ s.cursor.rest = b :: rest ∧ t.cursor.rest <:+ rest
  /-- The reader is never deeper than the limit. -/
  depth_le : ∀ n, ((Reader.start calls w).run sources n).depth ≤ maxDepth
  /-- No more than 201 files are open at once. -/
  open_le : ∀ n, ((Reader.start calls w).run sources n).scans.length ≤ 201
  /-- The reader comes back from each inclusion it meets, to the same depth
  and the same open scans, which it has not touched meanwhile. It has then
  done with the inclusion what there was room for. -/
  returns : ∀ n path,
    ((Reader.start calls w).run sources n).wanted = some path →
    ∃ k, ((Reader.start calls w).run sources (n + k)).wanted = none
      ∧ ((Reader.start calls w).run sources (n + k)).depth
        = ((Reader.start calls w).run sources n).depth
      ∧ ((Reader.start calls w).run sources (n + k)).scans
        = ((Reader.start calls w).run sources n).scans
      ∧ ((Reader.start calls w).run sources (n + k)).workspace
        = Workspace.follow sources
          (maxDepth - ((Reader.start calls w).run sources n).depth) path
          ((Reader.start calls w).run sources n).workspace
      ∧ ∀ j ≤ k, ((Reader.start calls w).run sources n).scans
        <:+ ((Reader.start calls w).run sources (n + j)).scans

/-- **Reading comes to an end and stays within its limit**, whatever the
sources, the calls and what is known before. Sources that include themselves
or each other, without end, are among these. -/
theorem bounded (sources : Sources) (calls : List Call) (w : Workspace) :
    Bounded sources calls w where
  ends := Reader.reaches_tokenizeAll sources calls w []
  turns := fun n s b rest h => by
    rw [Reader.run_succ]
    exact Reader.scans_step_of_turn h
  depth_le := fun n => Nat.sub_le_of_le_add
    (Reader.within_run sources (Reader.within_start calls w) n).length_le
  open_le := fun n =>
    (Reader.within_run sources (Reader.within_start calls w) n).length_le
  returns := fun n path h => by
    have hwithin :=
      Reader.within_run sources (Reader.within_start calls w) n
    obtain ⟨k, hk, habove⟩ := Reader.returns_of_wanted sources hwithin h
    refine ⟨k, ?_⟩
    rw [Reader.run_add, hk]
    refine ⟨rfl, rfl, rfl, rfl, fun j hj => ?_⟩
    rw [Reader.run_add]
    exact habove j hj

end Workspace

end FlatC
