import FlatC.Proofs.Edit.Arrays

/-!
# The size of an array, to the last byte

What is written for a use should be the product of two numbers: the size of
the type, and the number that the digits of the bound write, however many
digits there are. A product that does not fit in a word should not be written
at all (`Walk.Exact`).

The number of elements is read with a cap, though, and the cap is the largest
word. If it is reached, so that the number read is not the one that is
written, then a type of two bytes or more makes the product too large anyway.
A type of one byte does not (`Capped`). Its size comes out as the largest
word, which fits and is wrong. Apart from that, all is exact
(`product_eq_of_le`).
-/

namespace FlatC

namespace ArraySizeof

variable {sizes : TypeSizes} {name type bound : String} {total size : Nat}
variable {cells six x y : List Cell}

/-- The number that the digits at the beginning of a bound write, with no cap. -/
def written (bound : String) : Nat :=
  Numeral.value 10 (Numeral.digitRun bound.toList)

/-- **A bound whose number is cut down to one that fits**, the type having one
byte. With any larger type the product is too large as well, and nothing is
written. -/
def Capped (size : Nat) (bound : String) : Prop :=
  size = 1 ∧ Numeral.maxWord64 < written bound

/-- **A product that fits is exact**, but for a bound that is cut down. Where
the bound is cut down it is the largest word, and of that no larger multiple
fits than itself. -/
theorem product_eq_of_le (hsize : size ≠ 0)
    (hle : size * elements bound ≤ Numeral.maxWord64)
    (hcapped : ¬ Capped size bound) :
    size * elements bound = size * written bound := by
  have hmin : elements bound = min Numeral.maxWord64 (written bound) :=
    Numeral.capped_eq_min 10 Numeral.maxWord64 _ (by decide)
  rcases Nat.le_total (written bound) Numeral.maxWord64 with h | h
  · rw [hmin, Nat.min_eq_right h]
  · rw [hmin, Nat.min_eq_left h] at hle
    -- Twice the largest word does not fit.
    have hone : size = 1 := by
      have hpos : 0 < Numeral.maxWord64 := by decide
      have := Nat.le_of_mul_le_mul_right
        (hle.trans_eq (Nat.one_mul _).symm) hpos
      omega
    have heq : written bound = Numeral.maxWord64 :=
      Nat.le_antisymm (Nat.le_of_not_lt fun hlt => hcapped ⟨hone, hlt⟩) h
    rw [hmin, heq, Nat.min_self]

namespace Walk

/-- **A step that writes sizes exactly.** What it replaces are uses of the
array declared at the head of what is ahead; each becomes the product of the
two numbers, and the product fits in a word. -/
def Exact (sizes : TypeSizes) (w w' : Walk) : Prop :=
  ∃ segments : List Segment, segments.flatMap Segment.old = w.all
    ∧ segments.flatMap Segment.new = w'.all
    ∧ w.count + segments.countP Segment.isReplaced = w'.count
    ∧ ∀ x y, .replaced x y ∈ segments →
      ∃ six rest type name bound, w.ahead = six ++ rest
        ∧ IsArray six type name bound
        ∧ Evaluates name (sizes.sizeOf type * written bound) x y
        ∧ sizes.sizeOf type * written bound ≤ Numeral.maxWord64

/-- A step that keeps all cells writes no size. -/
theorem exact_of_all_eq {w w' : Walk} (hall : w'.all = w.all)
    (hcount : w'.count = w.count) : Exact sizes w w' := by
  refine ⟨w.all.map .kept, flatMap_old_kept _, ?_, ?_, by simp⟩
  · rw [flatMap_new_kept, hall]
  · rw [countP_isReplaced_kept, hcount, Nat.add_zero]

/-- **A step writes sizes exactly**, unless the bound of the declaration that
it carries out is cut down. -/
theorem exact_step (sizes : TypeSizes) (w : Walk)
    (h : ∀ six rest type name bound, w.ahead = six ++ rest →
      IsArray six type name bound → ¬ Capped (sizes.sizeOf type) bound) :
    Exact sizes w (w.step sizes) := by
  rcases step_cases sizes w with
    ⟨-, hstep⟩ | ⟨c, rest, hahead, -, hstep⟩
      | ⟨c, five, rest, name, total, r, hahead, hdeclares, rfl, hstep⟩
  · rw [hstep]
    exact exact_of_all_eq rfl rfl
  · rw [hstep]
    exact exact_of_all_eq (all_pass hahead) rfl
  · obtain ⟨used, hswept, hold, hnew, hcount⟩ :=
      sweeps_replaceUses name total 0 rest w.pool
    obtain ⟨type, bound, harray, hsize, rfl, hle⟩ := hdeclares
    have hproduct := product_eq_of_le hsize hle
      (h _ rest type name bound hahead harray)
    refine ⟨(w.passed ++ c :: five).map .kept ++ used, ?_, ?_, ?_, ?_⟩
    · rw [List.flatMap_append, flatMap_old_kept, hold, all, hahead]
      simp
    · rw [List.flatMap_append, flatMap_new_kept, hnew, hstep, all]
      simp
    · rw [List.countP_append, hcount, hstep, countP_isReplaced_kept,
        Nat.zero_add]
    · intro x y hmem
      rcases List.mem_append.mp hmem with hkept | hused
      · simp at hkept
      · obtain ⟨j, k, hjk⟩ := List.append_of_mem hused
        have hevaluates := (hswept.evaluates hjk).1
        rw [hproduct] at hevaluates hle
        exact ⟨c :: five, rest, type, name, bound, hahead, harray, hevaluates,
          hle⟩

end Walk

end ArraySizeof

/-! ## Chains -/

namespace TokenChain

open ArraySizeof

variable {c : TokenChain}

/-- **A chain on which the sizes of arrays were evaluated exactly**, and how
many, but for bounds that are cut down. It is told step by step. -/
structure ArraysExact (sizes : TypeSizes) (c : TokenChain) (count : Nat)
    (c' : TokenChain) : Prop where
  /-- All this comes of a walk, -/
  ends : ∃ pool,
    (Walk.step sizes)^[c'.cells.length] (.start c.cells c.pool)
      = ⟨c'.cells, [], pool, count⟩
  /-- each step of which is exact. -/
  steps : ∀ k, let w := (Walk.step sizes)^[k] (.start c.cells c.pool)
    (∀ six rest type name bound, w.ahead = six ++ rest →
      IsArray six type name bound → ¬ Capped (sizes.sizeOf type) bound) →
    Walk.Exact sizes w (w.step sizes)

/-- **Sizes of arrays are exact or left alone**, but for bounds that are cut
down, on every chain and with any sizes. -/
theorem Laid.arraysExact (h : c.Laid c.cells) (sizes : TypeSizes) :
    c.ArraysExact sizes (c.edit (evalArraySizeof sizes)).1
      (c.edit (evalArraySizeof sizes)).2 where
  ends := by
    rw [(h.edit (sound_evalArraySizeof sizes)).cells_eq]
    exact ⟨_, Walk.iterate_start sizes c.cells c.pool⟩
  steps := fun _ hcapped => Walk.exact_step sizes _ hcapped

/-- The largest product that fits and one that does not, a bound of thirty
digits for a type of two bytes, and bounds with more behind the digits. -/
theorem arraysExact_of_texts :
    let sizes := ((TypeSizes.empty.insert "int" 4).insert "short" 2).insert
      "char" 1
    let texts := ["int", "a", "[", "4611686018427387903", "]", ";",
      "int", "b", "[", "4611686018427387904", "]", ";",
      "short", "d", "[", "100000000000000000000000000000", "]", ";",
      "char", "e", "[", "18446744073709551615UL", "]", ";",
      "int", "f", "[", "0x10", "]", ";",
      "sizeof", "(", "a", ")", "sizeof", "(", "b", ")", "sizeof", "(", "d",
      ")", "sizeof", "(", "e", ")", "sizeof", "(", "f", ")"]
    let c := (ChainOp.run TokenChain.act .empty
      (texts.map fun s => .pushBack ⟨s, 1, .first⟩)).2
    let r := c.edit (evalArraySizeof sizes)
    c.tokens.map Token.text = texts
      ∧ r.2.tokens.map Token.text = texts.take 30
        ++ ["18446744073709551612", "sizeof", "(", "b", ")", "sizeof", "(",
          "d", ")", "18446744073709551615", "0"]
      ∧ c.ArraysExact sizes r.1 r.2 := by
  intro sizes texts c r
  refine ⟨by decide +kernel, by decide +kernel, ?_⟩
  have hlaid : c.Laid c.cells := laid_empty.run _
  exact hlaid.arraysExact sizes

/-- **A bound past the largest word** for a type of one byte: the size is
written as the largest word. -/
theorem not_arraysExact :
    let sizes := TypeSizes.empty.insert "char" 1
    let texts := ["char", "b", "[", "18446744073709551616", "]", ";", "n", "=",
      "sizeof", "(", "b", ")", ";"]
    let c := (ChainOp.run TokenChain.act .empty
      (texts.map fun s => .pushBack ⟨s, 1, .first⟩)).2
    let r := c.edit (evalArraySizeof sizes)
    let w := Walk.start c.cells c.pool
    c.tokens.map Token.text = texts
      ∧ r.2.tokens.map Token.text
        = ["char", "b", "[", "18446744073709551616", "]", ";", "n", "=",
          "18446744073709551615", ";"]
      ∧ ¬ Walk.Exact sizes w (w.step sizes) := by
  intro sizes texts c r w
  refine ⟨by decide +kernel, by decide +kernel, ?_⟩
  rintro ⟨segments, -, -, hcount, hexact⟩
  have hone : w.count + 1 = (w.step sizes).count := by decide +kernel
  obtain ⟨s, hs, hreplaced⟩ := List.countP_pos_iff.mp
    (show 0 < segments.countP Segment.isReplaced by omega)
  cases s with
  | kept c => cases hreplaced
  | replaced x y =>
    obtain ⟨six, rest, type, name, bound, hahead, harray, -, hle⟩ :=
      hexact x y hs
    have htexts := congrArg (List.map Cell.text) hahead
    rw [show w.ahead.map Cell.text = texts by decide +kernel] at htexts
    obtain ⟨-, -, -, -, -, -⟩ := harray
    simp only [List.map_cons, List.cons_append, texts, List.cons.injEq]
      at htexts
    rw [← htexts.1, ← htexts.2.2.2.1] at hle
    exact absurd hle (by decide +kernel)

end TokenChain

end FlatC
