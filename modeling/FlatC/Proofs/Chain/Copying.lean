import FlatC.Proofs.Chain.Removal

/-!
# Copying tokens along the chain

`copyAfter` reads one token, puts its copy in and goes on behind both. What
it reads therefore depends on which of the two slots comes first:

* if the source comes **after** the destination, the copies go in behind
  the reader's back, and what is read is what stood there before, up to
  the end of the chain;
* if the source comes **at or before** the destination, the reader gets to
  its own copies when it is past the destination, and what is read is the
  stretch from the source to the destination, over and over (`cycle`).

In the second case the stretch that is still to be read has always the
same length: one token has left it in front and its copy has joined it at
the end. That is the invariant of the loop, and it makes `cycle` a
rotation.
-/

namespace FlatC

/-- **A stretch of tokens over and over**, so many tokens in all. It is told
by putting each token that is read behind the others, as the copies are. -/
def cycle : Nat → List Token → List Token
  | 0, _ => []
  | _ + 1, [] => []
  | n + 1, t :: ts => t :: cycle n (ts ++ [t])

namespace TokenChain

open Cell (entry slots)

variable {c : TokenChain} {cells before rest : List Cell}
variable {d : Cell} {t : Token} {ts : List Token}
variable {dest src new : TokenId} {n : Nat}

/-- **One token copied, and then the others**, from where the source leads
once the copy is in. That may be the copy just made, where the source is the
destination. -/
theorem copyAfter_succ (ht : c.get? src = some t) :
    c.copyAfter dest src (n + 1)
      = match (c.insertAfter dest t).2.next? src with
        | none => (some c.pool.take.1, (c.insertAfter dest t).2)
        | some next =>
          (((c.insertAfter dest t).2.copyAfter c.pool.take.1 next n).1
              <|> some c.pool.take.1,
            ((c.insertAfter dest t).2.copyAfter c.pool.take.1 next n).2) := by
  cases hnext : (c.insertAfter dest t).2.next? src with
  | none => simp only [copyAfter, ht, hnext, fst_insertAfter]
  | some next => simp only [copyAfter, ht, hnext, fst_insertAfter]

/-- From a slot without a token nothing is copied, whatever the destination. -/
theorem copyAfter_of_get?_eq_none (h : c.get? src = none) :
    c.copyAfter dest src n = (none, c) := by
  cases n with
  | zero => rfl
  | succ n =>
    rw [copyAfter, h]

/-- **What it is to put copies in**: `r` comes of `c` by copies of `ts`
between some cells, in the slots the pool hands out, and the slot of the last
copy is the answer. Both ways of reading the source come to this, with
different tokens. -/
structure Copies (c : TokenChain) (r : Option TokenId × TokenChain)
    (ts : List Token) (before rest : List Cell) : Prop where
  answer : r.1 = (c.pool.copy ts).1.getLast?.map Cell.slot
  laid : r.2.Laid (before ++ ((c.pool.copy ts).1 ++ rest))
  pool : r.2.pool = (c.pool.copy ts).2
  len : r.2.len = c.len + ts.length

theorem Copies.nil (h : c.Laid (before ++ rest)) :
    c.Copies (none, c) [] before rest :=
  ⟨rfl, h, rfl, rfl⟩

/-- The copies of some tokens are that of the first, in the next slot, and
those of the others. -/
theorem copy_cons (p : SlotPool) (t : Token) (ts : List Token) :
    p.copy (t :: ts)
      = (⟨p.take.1, t⟩ :: (p.take.2.copy ts).1, (p.take.2.copy ts).2) :=
  rfl

/-- One copy put in, and copies behind it, are copies. The answer is the last
slot of all of them. -/
theorem Copies.cons {r : Option TokenId × TokenChain}
    (h : (c.insertAfter dest t).2.Copies r ts
      (before ++ [⟨c.pool.take.1, t⟩]) rest) :
    c.Copies (r.1 <|> some c.pool.take.1, r.2) (t :: ts) before rest := by
  have ha := h.answer
  have hl := h.laid
  have hp := h.pool
  have hn := h.len
  rw [pool_insertAfter] at ha hl hp
  rw [len_insertAfter] at hn
  constructor
  · rw [copy_cons, List.getLast?_cons, ha]
    cases (c.pool.take.2.copy ts).1.getLast? <;> rfl
  · rw [copy_cons]
    simpa using hl
  · rw [copy_cons]
    exact hp
  · rw [hn, List.length_cons]
    show c.len + 1 + _ = _
    omega

/-- The last copy, where the source leads nowhere. -/
theorem Copies.last
    (h : (c.insertAfter dest t).2.Laid
      (before ++ ⟨c.pool.take.1, t⟩ :: rest)) :
    c.Copies (some c.pool.take.1, (c.insertAfter dest t).2) [t]
      before rest := by
  refine Copies.cons (r := (none, _)) (Copies.nil ?_)
  simpa using h

namespace Laid

/-- **Copying from behind the destination** reads what stands there. The
copies go in between the two, so the reader never meets them, and it stops at
the end of the chain. -/
theorem copyAfter_of_behind {mid read : List Cell}
    (h : c.Laid (before ++ d :: (mid ++ read)))
    (hsrc : entry read none = some src) (n : Nat) :
    c.Copies (c.copyAfter d.slot src n) ((read.map Cell.token).take n)
      (before ++ [d]) (mid ++ read) := by
  induction n generalizing c before d mid read src with
  | zero => exact Copies.nil (by simpa using h)
  | succ n ih =>
    cases read with
    | nil => cases hsrc
    | cons s read =>
      injection hsrc with hsrc
      subst hsrc
      have hget : c.get? s.slot = some s.token := h.get?_of_mem (by simp)
      -- once the copy is in, the reader has one cell more behind it
      have hins : (c.insertAfter d.slot s.token).2.Laid
          ((before ++ [d]) ++ ⟨c.pool.take.1, s.token⟩
            :: ((mid ++ [s]) ++ read)) := by
        simpa using h.insertAfter_mem s.token
      have hnext : (c.insertAfter d.slot s.token).2.next? s.slot
          = entry read none := by
        have hsplit : (c.insertAfter d.slot s.token).2.Laid
            ((before ++ d :: ⟨c.pool.take.1, s.token⟩ :: mid)
              ++ s :: read) := by
          simpa using hins
        exact hsplit.next?_mem
      rw [copyAfter_succ hget, hnext, List.map_cons, List.take_succ_cons]
      cases read with
      | nil =>
        rw [List.map_nil, List.take_nil]
        exact Copies.last (by simpa using hins)
      | cons r read =>
        have hrest : (c.insertAfter d.slot s.token).2.Copies _ _ _ _ :=
          ih hins rfl
        exact Copies.cons (by simpa using hrest)

/-- **Copying from at or before the destination** reads the stretch between
the two over and over, since behind the destination it comes to the copies. -/
theorem copyAfter_of_stretch {init : List Cell}
    (h : c.Laid (before ++ (init ++ d :: rest)))
    (hsrc : entry (init ++ [d]) none = some src) (n : Nat) :
    c.Copies (c.copyAfter d.slot src n)
      (cycle n ((init ++ [d]).map Cell.token))
      (before ++ (init ++ [d])) rest := by
  induction n generalizing c before init d src with
  | zero => exact Copies.nil (by simpa using h)
  | succ n ih =>
    have hins : ∀ t, (c.insertAfter d.slot t).2.Laid
        ((before ++ init) ++ d :: ⟨c.pool.take.1, t⟩ :: rest) := by
      intro t
      have hsplit : c.Laid ((before ++ init) ++ d :: rest) := by
        simpa using h
      exact hsplit.insertAfter_mem t
    cases init with
    | nil =>
      -- the destination is read, and then each copy in turn
      injection hsrc with hsrc
      subst hsrc
      have hget : c.get? d.slot = some d.token := h.get?_of_mem (by simp)
      have hnext : (c.insertAfter d.slot d.token).2.next? d.slot
          = some c.pool.take.1 := (hins d.token).next?_mem
      have hrest : (c.insertAfter d.slot d.token).2.Copies _ _
          ((before ++ [d]) ++ ([] ++ [⟨c.pool.take.1, d.token⟩])) rest :=
        ih (by simpa using hins d.token) rfl
      rw [copyAfter_succ hget, hnext]
      exact Copies.cons (by simpa using hrest)
    | cons s init =>
      injection hsrc with hsrc
      subst hsrc
      have hget : c.get? s.slot = some s.token := h.get?_of_mem (by simp)
      have hnext : (c.insertAfter d.slot s.token).2.next? s.slot
          = entry (init ++ d :: ⟨c.pool.take.1, s.token⟩ :: rest) none := by
        have hsplit : (c.insertAfter d.slot s.token).2.Laid
            (before ++ s
              :: (init ++ d :: ⟨c.pool.take.1, s.token⟩ :: rest)) := by
          simpa using hins s.token
        exact hsplit.next?_mem
      obtain ⟨next, hentry⟩ : ∃ next, ∀ ys : List Cell,
          entry (init ++ d :: ys) none = some next := by
        cases init <;> exact ⟨_, fun _ => rfl⟩
      have hrest : (c.insertAfter d.slot s.token).2.Copies _ _
          ((before ++ [s])
            ++ ((init ++ [d]) ++ [⟨c.pool.take.1, s.token⟩])) rest :=
        ih (by simpa using hins s.token) (by simpa using hentry _)
      rw [copyAfter_succ hget, hnext, hentry]
      exact Copies.cons (by simpa [cycle] using hrest)

/-- **Copies put in beside the chain** leave its cells alone, wherever they
are read. -/
theorem copyAfter_notMem (h : c.Laid cells) (hdest : dest ∉ slots cells)
    (src : TokenId) (n : Nat) : (c.copyAfter dest src n).2.Laid cells := by
  induction n generalizing c dest src with
  | zero => exact h
  | succ n ih =>
    cases ht : c.get? src with
    | none => rwa [copyAfter_of_get?_eq_none ht]
    | some t =>
      have hins := h.insertAfter_notMem hdest t
      rw [copyAfter_succ ht]
      split
      · exact hins
      · exact ih hins h.take_notMem _

/-- Whatever slot it is given, an insertion leaves a chain that lays down some
cells: those of before, with the new one among them or not. -/
theorem insertAfter (h : c.Laid cells) (id : TokenId) (t : Token) :
    ∃ left, (c.insertAfter id t).2.Laid left := by
  by_cases hid : id ∈ slots cells
  · obtain ⟨cell, hcell, rfl⟩ := List.mem_map.mp hid
    obtain ⟨before, rest, rfl⟩ := List.append_of_mem hcell
    exact ⟨_, h.insertAfter_mem t⟩
  · exact ⟨_, h.insertAfter_notMem hid t⟩

/-- Whatever slots it is given, copying leaves a chain that lays down some
cells. -/
theorem copyAfter (h : c.Laid cells) (dest src : TokenId) (n : Nat) :
    ∃ left, (c.copyAfter dest src n).2.Laid left := by
  induction n generalizing c cells dest src with
  | zero => exact ⟨_, h⟩
  | succ n ih =>
    cases ht : c.get? src with
    | none =>
      rw [copyAfter_of_get?_eq_none ht]
      exact ⟨_, h⟩
    | some t =>
      obtain ⟨left, hleft⟩ := h.insertAfter dest t
      rw [copyAfter_succ ht]
      split
      · exact ⟨_, hleft⟩
      · exact ih hleft _ _

end Laid

end TokenChain

end FlatC
