import Mathlib.Data.List.Perm.Basic
import FlatC.Source.Cursor

/-!
# Searching bytes

Where a line ends and where a comment closes is found by a search for bytes,
and how such a search goes about it does not matter. What does is that it
finds the first place of all, and one whenever there is any: `IsFirst`. Then
`lineLength` and `blockLength` are what can be read off it
(`IsFirst.lineLength_eq`, `IsFirst.blockLength_eq`).

A search that looks at one place after the other (`ByteSearch.scan`) is one of
those that can be relied on.
-/

namespace FlatC

/-! ## First places -/

/-- **The first place of which something holds**, or none if it holds of no
place. There is one answer, so two searches that give what is first give the
same. -/
def IsFirst (p : Nat → Prop) (found : Option Nat) : Prop :=
  ∀ i, found = some i ↔ p i ∧ ∀ j < i, ¬ p j

namespace IsFirst

variable {p q : Nat → Prop} {found : Option Nat} {lo : Nat}

/-- What is first hangs on nothing but of which places it holds. -/
theorem congr (h : IsFirst p found) (hpq : ∀ i, p i ↔ q i) :
    IsFirst q found := by
  intro i
  rw [h i, hpq i]
  exact and_congr_right fun _ => forall₂_congr fun j _ => not_congr (hpq j)

/-- **What is first from some place on** is first in what is behind it, with
places counted from there. -/
theorem behind (h : IsFirst (fun i => lo ≤ i ∧ p i) found) :
    ∃ rest, found = rest.map (lo + ·)
      ∧ IsFirst (fun i => p (lo + i)) rest := by
  have hpast : ∀ i, found = some (lo + i)
      ↔ p (lo + i) ∧ ∀ j < i, ¬ p (lo + j) := by
    intro i
    rw [h (lo + i)]
    refine and_congr (and_iff_right (Nat.le_add_right lo i)) ?_
    constructor
    · exact fun hfirst j hj hpj =>
        hfirst (lo + j) (Nat.add_lt_add_left hj lo)
          ⟨Nat.le_add_right lo j, hpj⟩
    · rintro hfirst j hj ⟨hle, hpj⟩
      obtain ⟨k, rfl⟩ := Nat.exists_eq_add_of_le hle
      exact hfirst k (Nat.lt_of_add_lt_add_left hj) hpj
  cases found with
  | none => exact ⟨none, rfl, fun i => by rw [← hpast]; simp⟩
  | some k =>
    obtain ⟨i, rfl⟩ := Nat.exists_eq_add_of_le ((h k).mp rfl).1.1
    exact ⟨some i, rfl, fun j => by rw [← hpast]; simp⟩

/-- If it is not the very first place, it is found behind that, with places
counted from the second. This is what a recursion along a list needs. -/
theorem succ (h : IsFirst p found) (h0 : ¬ p 0) :
    ∃ rest, found = rest.map (· + 1) ∧ IsFirst (fun i => p (i + 1)) rest := by
  have hpos : ∀ i, p i ↔ 1 ≤ i ∧ p i := fun i =>
    (and_iff_right_of_imp fun hi =>
      Nat.one_le_iff_ne_zero.mpr fun hi0 => h0 (hi0 ▸ hi)).symm
  simpa only [Nat.add_comm 1] using (h.congr hpos).behind

end IsFirst

/-- **One place looked at after the other**, as far as there is anything to be
found, gives what is first. -/
theorem isFirst_find?_range {p : Nat → Prop} [DecidablePred p] {n : Nat}
    (hn : ∀ i, p i → ∃ j < n, p j) :
    IsFirst p ((List.range n).find? fun i => p i) := by
  intro i
  simp only [List.find?_range_eq_some, decide_eq_true_eq, List.mem_range,
    Bool.not_eq_true', decide_eq_false_iff_not]
  refine ⟨fun h => ⟨h.1, h.2.2⟩, fun h => ⟨h.1, ?_, h.2⟩⟩
  obtain ⟨j, hj, hpj⟩ := hn i h.1
  exact Nat.lt_of_le_of_lt (Nat.le_of_not_lt fun hlt => h.2 j hlt hpj) hj

/-! ## Lines and comments -/

/-- The two bytes that close a comment, `*/`. -/
def closing : List UInt8 := [0x2A, 0x2F]

/-- **A comment closes** at a place: the `*` is there, and the `/` behind it. -/
def ClosesAt (bytes : List UInt8) (i : Nat) : Prop :=
  bytes[i]? = some 0x2A ∧ bytes[i + 1]? = some 0x2F

instance (bytes : List UInt8) : DecidablePred (ClosesAt bytes) :=
  fun _ => inferInstanceAs (Decidable (_ ∧ _))

/-- A comment closes where the two bytes come in a row. -/
theorem closesAt_iff {bytes : List UInt8} {i : Nat} :
    ClosesAt bytes i ↔ closing <+: bytes.drop i := by
  have hnext : ∀ n, bytes[i + n]? = (bytes.drop i)[n]? := fun n =>
    List.getElem?_drop.symm
  rw [ClosesAt, ← Nat.add_zero i, hnext, Nat.add_zero, hnext]
  rcases bytes.drop i with _ | ⟨a, _ | ⟨b, more⟩⟩
  · simp [closing]
  · simp [closing, List.cons_prefix_cons]
  · simp [closing, List.cons_prefix_cons, eq_comm]

/-- A comment closes within the bytes. -/
theorem ClosesAt.lt_length {bytes : List UInt8} {i : Nat}
    (h : ClosesAt bytes i) : i < bytes.length :=
  (List.getElem?_eq_some_iff.mp h.1).1

namespace IsFirst

variable {found : Option Nat} {bytes : List UInt8}

/-- **A line ends at the first line feed**, or else with the bytes. The
induction is on the bytes, with what is found moved along. -/
theorem lineLength_eq
    (h : IsFirst (fun i => bytes[i]? = some lineFeed) found) :
    lineLength bytes = found.getD bytes.length := by
  induction bytes generalizing found with
  | nil =>
    cases found with
    | none => rfl
    | some i => exact nomatch ((h i).mp rfl).1
  | cons b bytes ih =>
    rw [lineLength]
    split
    · next hb =>
      rw [(h 0).mpr ⟨congrArg some hb, fun _ hj => nomatch hj⟩]
      rfl
    · next hb =>
      obtain ⟨rest, rfl, hrest⟩ := h.succ fun h0 => hb (Option.some.inj h0)
      rw [ih hrest]
      cases rest <;> rfl

/-- **A comment reaches through the first `*/`**, or else as far as the bytes.
The measure looks at two bytes at a time, so the induction has a case for a
single byte. -/
theorem blockLength_eq (h : IsFirst (ClosesAt bytes) found) :
    blockLength bytes = (found.map (· + 2)).getD bytes.length := by
  induction bytes generalizing found with
  | nil =>
    cases found with
    | none => rfl
    | some i => exact nomatch ((h i).mp rfl).1.1
  | cons a bytes ih =>
    cases bytes with
    | nil =>
      cases found with
      | none => rfl
      | some i => exact nomatch ((h i).mp rfl).1.2
    | cons b bytes =>
      rw [blockLength]
      split
      · next hcloses =>
        have hhere : ClosesAt (a :: b :: bytes) 0 :=
          ⟨congrArg some hcloses.1, congrArg some hcloses.2⟩
        rw [(h 0).mpr ⟨hhere, fun _ hj => nomatch hj⟩]
        rfl
      · next hopen =>
        obtain ⟨rest, rfl, hrest⟩ := h.succ fun h0 =>
          hopen ⟨Option.some.inj h0.1, Option.some.inj h0.2⟩
        rw [ih hrest]
        cases rest <;> rfl

end IsFirst

/-- A comment is no longer than the bytes it is cut from. -/
theorem blockLength_le (bytes : List UInt8) :
    blockLength bytes ≤ bytes.length := by
  have hfirst := isFirst_find?_range (p := ClosesAt bytes)
    fun i h => ⟨i, h.lt_length, h⟩
  rw [hfirst.blockLength_eq]
  cases hfound : (List.range bytes.length).find? _ with
  | none => exact Nat.le_refl _
  | some i => exact (List.getElem?_eq_some_iff.mp ((hfirst i).mp hfound).1.2).1

/-! ## Searches -/

/-- **Searches for bytes** that whoever reads them may be given. How they go
about it, many bytes at a time or one, is left to them. -/
structure ByteSearch where
  /-- Where a byte is found. -/
  byte? : UInt8 → List UInt8 → Option Nat
  /-- Where some bytes in a row are found to begin. -/
  run? : List UInt8 → List UInt8 → Option Nat
  /-- Where a byte is found, one place after the other. -/
  places : UInt8 → List UInt8 → List Nat

/-- **Searches that can be relied on**: they find what is first, and all there
is. This is what the documentation of such searches promises. -/
structure ByteSearch.Reliable (search : ByteSearch) : Prop where
  byte : ∀ b bytes,
    IsFirst (fun i => bytes[i]? = some b) (search.byte? b bytes)
  run : ∀ run bytes,
    IsFirst (fun i => run <+: bytes.drop i) (search.run? run bytes)
  ascending : ∀ b bytes, (search.places b bytes).Pairwise (· < ·)
  mem_places : ∀ b bytes i,
    i ∈ search.places b bytes ↔ bytes[i]? = some b

namespace ByteSearch

/-- The search that looks at one place after the other. It shows that there
are searches that can be relied on. -/
def scan : ByteSearch where
  byte? b bytes := (List.range bytes.length).find? fun i => bytes[i]? = some b
  run? run bytes :=
    (List.range (bytes.length + 1)).find? fun i => run <+: bytes.drop i
  places b bytes := (List.range bytes.length).filter fun i => bytes[i]? = some b

/-- How far it is to the end of a comment, by a search for it. -/
def blockLength (search : ByteSearch) (bytes : List UInt8) : Nat :=
  match search.run? closing bytes with
  | some offset => offset + 2
  | none => bytes.length

variable {search : ByteSearch}

/-- The search that looks everywhere can be relied on. -/
theorem scan_reliable : scan.Reliable where
  byte b bytes := isFirst_find?_range fun i h =>
    ⟨i, (List.getElem?_eq_some_iff.mp h).1, h⟩
  run run bytes := isFirst_find?_range fun i h => by
    refine ⟨min i bytes.length,
      Nat.lt_succ_of_le (Nat.min_le_right _ _), ?_⟩
    rcases Nat.le_total i bytes.length with hle | hle
    · rwa [Nat.min_eq_left hle]
    · rwa [Nat.min_eq_right hle, List.drop_length,
        ← List.drop_eq_nil_of_le hle]
  ascending b bytes := List.pairwise_lt_range.filter _
  mem_places b bytes i := by
    simp only [scan, List.mem_filter, List.mem_range, decide_eq_true_eq]
    exact and_iff_right_of_imp fun h => (List.getElem?_eq_some_iff.mp h).1

/-- A comment found by a search that can be relied on is as long as the
comment is. -/
theorem Reliable.blockLength_eq (h : search.Reliable) (bytes : List UInt8) :
    search.blockLength bytes = FlatC.blockLength bytes := by
  have hfirst := (h.run closing bytes).congr fun _ => closesAt_iff.symm
  rw [hfirst.blockLength_eq, blockLength]
  cases search.run? closing bytes <;> rfl

/-- Looking everywhere finds as many places as there are such bytes. -/
theorem length_scan_places (b : UInt8) (bytes : List UInt8) :
    (scan.places b bytes).length = bytes.count b := by
  rw [scan, ← List.countP_eq_length_filter]
  induction bytes with
  | nil => rfl
  | cons c bytes ih =>
    rw [List.length_cons, List.range_succ_eq_map, List.countP_cons,
      List.countP_map, List.count_cons]
    exact congrArg₂ (· + ·) ih (by simp)

/-- **As many places are found as there are such bytes**, by any search that
can be relied on: it finds the same places, in whatever way it looks for them. -/
theorem Reliable.length_places (h : search.Reliable) (b : UInt8)
    (bytes : List UInt8) : (search.places b bytes).length = bytes.count b := by
  have hnodup : ∀ {ns : List Nat}, ns.Pairwise (· < ·) → ns.Nodup :=
    fun hns => hns.imp fun hlt => Nat.ne_of_lt hlt
  have hperm : (search.places b bytes).Perm (scan.places b bytes) := by
    refine (List.perm_ext_iff_of_nodup (hnodup (h.ascending b bytes))
      (hnodup (scan_reliable.ascending b bytes))).mpr fun i => ?_
    rw [h.mem_places, scan_reliable.mem_places]
  rw [hperm.length_eq, length_scan_places]

end ByteSearch

end FlatC
