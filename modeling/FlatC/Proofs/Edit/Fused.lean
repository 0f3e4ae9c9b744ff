import FlatC.Edit.Fusion
import Mathlib.Data.List.Chain

/-!
# What fusing leaves

Fusing goes from left to right and tries each token once, so one could fear
that it leaves a pair behind: a joined token next to one it could be joined
with, or one that had been tried before its neighbour was made. Neither
happens, as no joined text is part of a pair (`Fusion.isChain_fuseOperators`).
So what has been fused can be gone over again, with more behind it, and
nothing happens to it (`Fusion.cells_fuseOperators_append`).

As far as texts go, fusing puts them into **groups** and writes each as one
text. A group is one text or a pair. Taking the groups apart again and fusing
anew gives the same groups (`Fusion.groups_parts`). That is so even though
`->` has become a text by itself in the meantime, since `.` is part of no pair
either.
-/

namespace FlatC

namespace Fusion

variable {a b c text : String} {ts : List String} {xs ys cells : List Cell}
variable {pool : SlotPool}

/-! ## Pairs -/

/-- What is joined is a pair, and the text is one after the other. -/
theorem joined?_eq_some_iff :
    joined? a b = some text ↔ (a, b) ∈ pairs ∧ text = a ++ b := by
  unfold joined?
  split
  · next h =>
    rw [List.contains_iff_mem] at h
    simp [h, eq_comm]
  · next h =>
    rw [List.contains_iff_mem] at h
    simp [h]

/-- Two texts that are not joined. -/
def Unjoined (a b : String) : Prop := joined? a b = none

instance (a b : String) : Decidable (Unjoined a b) :=
  inferInstanceAs (Decidable (joined? a b = none))

theorem unjoined_of_notMem (h : (a, b) ∉ pairs) : Unjoined a b := by
  rw [Unjoined, Option.eq_none_iff_forall_ne_some]
  exact fun text htext => h (joined?_eq_some_iff.mp htext).1

/-- A text that is the first of no pair is joined with nothing behind it. -/
theorem unjoined_left (h : ∀ p ∈ pairs, p.1 ≠ a) (b : String) :
    Unjoined a b :=
  unjoined_of_notMem fun hmem => h _ hmem rfl

/-- A text that is the second of no pair is joined with nothing before it. -/
theorem unjoined_right (h : ∀ p ∈ pairs, p.2 ≠ b) (a : String) :
    Unjoined a b :=
  unjoined_of_notMem fun hmem => h _ hmem rfl

/-- **A joined text is part of no pair**, which is seen by going through the
pairs. -/
theorem ne_of_joined? (h : joined? a b = some text) :
    ∀ p ∈ pairs, p.1 ≠ text ∧ p.2 ≠ text := by
  have hall : ∀ q ∈ pairs, ∀ p ∈ pairs,
      p.1 ≠ q.1 ++ q.2 ∧ p.2 ≠ q.1 ++ q.2 := by
    decide +kernel
  obtain ⟨hmem, rfl⟩ := joined?_eq_some_iff.mp h
  exact hall _ hmem

theorem ne_dot : ∀ p ∈ pairs, p.1 ≠ "." ∧ p.2 ≠ "." := by decide

/-- What `->` is written as. -/
def dot (text : String) : String := if text == "->" then "." else text

/-- Writing `->` as `.` makes no pair. -/
theorem Unjoined.dot (h : Unjoined a b) :
    Unjoined (Fusion.dot a) (Fusion.dot b) := by
  unfold Fusion.dot
  split
  · exact unjoined_left (fun p hp => (ne_dot p hp).1) _
  · split
    · exact unjoined_right (fun p hp => (ne_dot p hp).2) _
    · exact h

/-- No text is written as `->`. -/
theorem dot_ne (text : String) : dot text ≠ "->" := by
  unfold dot
  split
  · decide
  · next h => simpa using h

theorem texts_dotted (cells : List Cell) :
    (dotted cells).map Cell.text = (cells.map Cell.text).map dot := by
  rw [dotted, Cell.rename, List.map_map, List.map_map]
  refine List.map_congr_left fun c _ => ?_
  show (if c.text == "->" then c.withText "." else c).text
    = if c.text == "->" then "." else c.text
  split <;> rfl

/-! ## Groups -/

/-- **Texts put into groups** from left to right: two that are joined are a
group, and any other is one by itself. This is fusing, told of texts. -/
def groups : List String → List (List String)
  | [] => []
  | [a] => [[a]]
  | a :: b :: rest =>
    match joined? a b with
    | some _ => [a, b] :: groups rest
    | none => [a] :: groups (b :: rest)

/-- The text a group is written as. -/
def written (group : List String) : String := dot (String.join group)

/-- **What a group falls apart into** once it has been written: `.` was one of
two texts, but is one now. It is what reading the written text would give. -/
def parts (group : List String) : List String :=
  if group = ["-", ">"] then ["."] else group

/-- A group is one text or a pair, which is in the table. -/
theorem of_mem_groups {group : List String} (h : group ∈ groups ts) :
    (∃ a ∈ ts, group = [a]) ∨ ∃ p ∈ pairs, group = [p.1, p.2] := by
  fun_induction groups ts with
  | case1 => cases h
  | case2 a =>
    exact .inl ⟨a, List.mem_singleton_self a, List.mem_singleton.mp h⟩
  | case3 a b rest text hjoined ih =>
    rcases List.mem_cons.mp h with rfl | h
    · exact .inr ⟨(a, b), (joined?_eq_some_iff.mp hjoined).1, rfl⟩
    · refine (ih h).imp_left fun ⟨t, ht, hgroup⟩ => ⟨t, ?_, hgroup⟩
      exact List.mem_cons_of_mem a (List.mem_cons_of_mem b ht)
  | case4 a b rest hjoined ih =>
    rcases List.mem_cons.mp h with rfl | h
    · exact .inl ⟨a, List.mem_cons_self, rfl⟩
    · exact (ih h).imp_left fun ⟨t, ht, hgroup⟩ =>
        ⟨t, List.mem_cons_of_mem a ht, hgroup⟩

/-- The groups hold the texts in order, each of them once. -/
theorem flatten_groups (ts : List String) : (groups ts).flatten = ts := by
  fun_induction groups ts with
  | case1 => rfl
  | case2 a => rfl
  | case3 a b rest text hjoined ih => rw [List.flatten_cons, ih]; rfl
  | case4 a b rest hjoined ih => rw [List.flatten_cons, ih]; rfl

/-- Joining pairs writes each group as one text. -/
theorem texts_join (cells : List Cell) (pool : SlotPool) :
    (join cells pool).cells.map Cell.text
      = (groups (cells.map Cell.text)).map String.join := by
  fun_induction join cells pool with
  | case1 pool => rfl
  | case2 c pool => simp [groups]
  | case3 c d rest pool text hjoined ih =>
    have htext := (joined?_eq_some_iff.mp hjoined).2
    simp only [List.map_cons, groups, hjoined, Edit.cells_plus,
      Edit.cells_cons, ih]
    simp [htext]
  | case4 c d rest pool hjoined ih =>
    simp only [List.map_cons, groups, hjoined, Edit.cells_cons] at ih ⊢
    rw [ih]
    simp

/-- **The texts that fusing leaves** are the groups, written. -/
theorem texts_fuseOperators (cells : List Cell) (pool : SlotPool) :
    (fuseOperators cells pool).cells.map Cell.text
      = (groups (cells.map Cell.text)).map written := by
  show (dotted (join cells pool).cells).map Cell.text = _
  rw [texts_dotted, texts_join, List.map_map]
  rfl

/-- A text that is not joined with the next is a group. -/
theorem groups_cons (h : ∀ b ∈ ts.head?, Unjoined a b) :
    groups (a :: ts) = [a] :: groups ts := by
  cases ts with
  | nil => rfl
  | cons b ts => rw [groups, show joined? a b = none from h b rfl]

theorem parts_singleton (a : String) : parts [a] = [a] :=
  if_neg fun h => by simpa using congrArg List.length h

/-- What written texts fall apart into was there before, but for `.`. -/
theorem of_mem_parts (h : text ∈ ((groups ts).map parts).flatten) :
    text = "." ∨ text ∈ ts := by
  obtain ⟨part, hpart, htext⟩ := List.mem_flatten.mp h
  obtain ⟨group, hgroup, rfl⟩ := List.mem_map.mp hpart
  rw [parts] at htext
  split at htext
  · exact .inl (List.mem_singleton.mp htext)
  · refine .inr ?_
    rw [← flatten_groups ts]
    exact List.mem_flatten.mpr ⟨group, hgroup, htext⟩

/-- What written texts begin with when they have fallen apart: the first of
them, or the dot that an arrow is written as. -/
theorem head?_parts (b : String) (ts : List String) :
    (((groups (b :: ts)).map parts).flatten.head? = some b)
      ∨ ((groups (b :: ts)).map parts).flatten.head? = some "." := by
  cases ts with
  | nil =>
    rw [groups, List.map_cons, parts_singleton]
    exact .inl rfl
  | cons c ts =>
    rw [groups]
    split
    · rw [List.map_cons, parts]
      split
      · exact .inr rfl
      · exact .inl rfl
    · rw [List.map_cons, parts_singleton]
      exact .inl rfl

/-- **Fusing what has fallen apart gives the same groups**, so written texts
can be read again and fused to the same. -/
theorem groups_parts (ts : List String) :
    groups ((groups ts).map parts).flatten = (groups ts).map parts := by
  fun_induction groups ts with
  | case1 => rfl
  | case2 a => simp [parts_singleton, groups]
  | case3 a b rest text hjoined ih =>
    rw [List.map_cons, List.flatten_cons]
    by_cases hdash : [a, b] = ["-", ">"]
    · rw [parts, if_pos hdash, List.cons_append, List.nil_append,
        groups_cons fun c _ => unjoined_left (fun p hp => (ne_dot p hp).1) c,
        ih]
    · rw [parts, if_neg hdash, List.cons_append, List.cons_append,
        List.nil_append, groups, hjoined]
      exact congrArg _ ih
  | case4 a b rest hjoined ih =>
    rw [List.map_cons, List.flatten_cons, parts_singleton, List.cons_append,
      List.nil_append, groups_cons, ih]
    intro c hc
    rcases head?_parts b rest with h | h
    · obtain rfl := Option.some.inj (h.symm.trans hc)
      exact hjoined
    · obtain rfl := Option.some.inj (h.symm.trans hc)
      exact unjoined_right (fun p hp => (ne_dot p hp).2) a

/-- What has fallen apart is written as it was. -/
theorem written_parts (group : List String) :
    written (parts group) = written group := by
  unfold parts
  split
  · next h => rw [h]; decide
  · rfl

/-! ## No pair is left -/

/-- No group is joined with the next one. What a pair is written as is in no
pair, on neither side, so it does not matter which of the two groups is a
pair. -/
theorem isChain_groups (ts : List String) :
    ((groups ts).map String.join).IsChain Unjoined := by
  fun_induction groups ts with
  | case1 => exact .nil
  | case2 a => exact .singleton _
  | case3 a b rest text hjoined ih =>
    refine List.isChain_cons.mpr ⟨fun c _ => ?_, ih⟩
    have htext := (joined?_eq_some_iff.mp hjoined).2
    have hjoin : String.join [a, b] = text := by simp [htext]
    rw [hjoin]
    exact unjoined_left (fun p hp => (ne_of_joined? hjoined p hp).1) c
  | case4 a b rest hjoined ih =>
    refine List.isChain_cons.mpr ⟨fun c hc => ?_, ih⟩
    have hjoin : String.join [a] = a := by simp
    rw [hjoin]
    -- The next text is `b` by itself or joined with what comes after it.
    cases rest with
    | nil =>
      obtain rfl : b = c := by simpa [groups] using hc
      exact hjoined
    | cons d rest =>
      rw [groups] at hc
      split at hc
      · next text htext =>
        have hbd := (joined?_eq_some_iff.mp htext).2
        obtain rfl : text = c := by simpa [hbd] using hc
        exact unjoined_right (fun p hp => (ne_of_joined? htext p hp).2) a
      · obtain rfl : b = c := by simpa using hc
        exact hjoined

/-- **Fusing leaves no pair** next to each other. -/
theorem isChain_fuseOperators (cells : List Cell) (pool : SlotPool) :
    ((fuseOperators cells pool).cells.map Cell.text).IsChain Unjoined := by
  rw [texts_fuseOperators]
  have hgroups := isChain_groups (cells.map Cell.text)
  rw [List.isChain_map] at hgroups ⊢
  exact hgroups.imp fun _ _ h => h.dot

/-- Fusing leaves no `->`. -/
theorem ne_of_mem_fuseOperators {c : Cell}
    (h : c ∈ (fuseOperators cells pool).cells) : c.text ≠ "->" := by
  have htext := List.mem_map_of_mem (f := Cell.text) h
  rw [texts_fuseOperators] at htext
  obtain ⟨group, -, hgroup⟩ := List.mem_map.mp htext
  rw [← hgroup]
  exact dot_ne _

/-! ## Fused tokens with more behind -/

/-- What no pair is in stays, whatever is joined behind it. Only the first of
the cells behind can make a pair with the last one in front. -/
theorem cells_join_append (pool : SlotPool)
    (h : ((xs ++ ys.take 1).map Cell.text).IsChain Unjoined) :
    (join (xs ++ ys) pool).cells = xs ++ (join ys pool).cells := by
  induction xs with
  | nil => rfl
  | cons c xs ih =>
    rw [List.cons_append, List.map_cons, List.isChain_cons] at h
    obtain ⟨hhead, hrest⟩ := h
    rw [List.cons_append, List.cons_append, ← ih hrest]
    cases hmore : xs ++ ys with
    | nil =>
      obtain ⟨rfl, rfl⟩ := List.append_eq_nil_iff.mp hmore
      rfl
    | cons d more =>
      have hd : joined? c.text d.text = none := by
        refine hhead d.text ?_
        cases xs with
        | nil =>
          rw [List.nil_append] at hmore
          rw [hmore]
          rfl
        | cons x xs =>
          obtain ⟨rfl, -⟩ := List.cons.inj hmore
          rfl
      rw [join, hd]
      rfl

/-- **What has been fused stays**, whatever is behind it that its last token
is not joined with. -/
theorem cells_fuseOperators_append (pool : SlotPool)
    (h : ((xs ++ ys.take 1).map Cell.text).IsChain Unjoined)
    (hdash : ∀ c ∈ xs, c.text ≠ "->") :
    (fuseOperators (xs ++ ys) pool).cells
      = xs ++ (fuseOperators ys pool).cells := by
  have hdotted : dotted xs = xs :=
    (List.map_congr_left fun c hc => if_neg (by simpa using hdash c hc)).trans
      (List.map_id xs)
  show dotted (join (xs ++ ys) pool).cells = xs ++ dotted (join ys pool).cells
  rw [cells_join_append pool h, dotted, Cell.rename, List.map_append]
  exact congrArg (· ++ _) hdotted

end Fusion

end FlatC
