import Mathlib.Data.List.Induction
import FlatC.Source.Lexeme

/-!
# Quotes that are escaped

A quote ends a string literal unless it is escaped, that is, unless the
backslashes directly in front of it are odd in number (`Escapes`). So a string
literal is a body between two quotes in which each quote is escaped, and
behind which none is (`IsBody`, `IsLiteral`). This is told of bytes and of
characters alike.

What is read from bytes keeps this. The bytes of ASCII are read one by one.
What stands between them becomes other characters, and it becomes some: a
broken part is not dropped, so a backslash in front of it is not moved to what
comes behind it (`Utf8.Reads`). The quotes of a text are therefore those of its
bytes, and the same of them are escaped.
-/

namespace FlatC

/-! ## Backslashes -/

section Escapes

variable {α : Type} [DecidableEq α] {quote backslash b : α} {xs body : List α}

/-- **What comes behind is escaped**: the backslashes at the end are odd in
number. Two of them are one that is escaped, which escapes nothing. -/
def Escapes (backslash : α) (xs : List α) : Prop :=
  (xs.reverse.takeWhile (· == backslash)).length % 2 = 1

instance (backslash : α) (xs : List α) : Decidable (Escapes backslash xs) :=
  inferInstanceAs (Decidable (_ = _))

/-- **The body of a string literal**: each quote in it is escaped, and one
behind it is not. So the literal ends with its body and not before. -/
structure IsBody (quote backslash : α) (body : List α) : Prop where
  escaped : ∀ before after, body = before ++ quote :: after →
    Escapes backslash before
  ends : ¬ Escapes backslash body

/-- **A string literal**: a body between quotes. A quote that opens and is not
closed makes none. -/
def IsLiteral (quote backslash : α) (xs : List α) : Prop :=
  ∃ body, xs = quote :: body ++ [quote] ∧ IsBody quote backslash body

/-- A backslash that is not escaped escapes, and nothing else does. -/
theorem escapes_concat : Escapes backslash (xs ++ [b])
    ↔ b = backslash ∧ ¬ Escapes backslash xs := by
  rw [Escapes, Escapes, List.reverse_append, List.reverse_singleton,
    List.singleton_append, List.takeWhile_cons]
  by_cases h : b = backslash
  · rw [if_pos (beq_iff_eq.mpr h), List.length_cons, and_iff_right h]
    omega
  · rw [if_neg (mt beq_iff_eq.mp h)]
    simp [h]

/-- Whether an element escapes, given whether it is escaped. It is the state
that a scan of the literal carries. -/
def escapeStep (backslash : α) (escaped : Bool) (b : α) : Bool :=
  !escaped && b == backslash

/-- **Escaping is a matter of going through the elements**, from the front,
which is how a scan does it. Counting backslashes from the end comes to the
same. -/
theorem escapes_iff :
    Escapes backslash xs ↔ xs.foldl (escapeStep backslash) false = true := by
  induction xs using List.reverseRecOn with
  | nil => simp [Escapes]
  | append_singleton xs b ih =>
    rw [escapes_concat, ih, List.foldl_append]
    simp [escapeStep, and_comm]

/-- Elements other than backslashes escape nothing, if there are any. The last
of them decides, whatever was escaped in front. -/
theorem foldl_escapeStep_of_ne (hne : xs ≠ []) (h : ∀ b ∈ xs, b ≠ backslash)
    (escaped : Bool) : xs.foldl (escapeStep backslash) escaped = false := by
  induction xs generalizing escaped with
  | nil => exact absurd rfl hne
  | cons b xs ih =>
    obtain ⟨hb, hxs⟩ := List.forall_mem_cons.mp h
    have hstep : escapeStep backslash escaped b = false := by
      simp [escapeStep, hb]
    rw [List.foldl_cons, hstep]
    rcases xs with _ | ⟨c, xs⟩
    · rfl
    · exact ih (List.cons_ne_nil c xs) hxs false

end Escapes

/-! ## Bytes and characters -/

namespace Utf8

variable {b : UInt8} {p q : Partial} {bytes rest : List UInt8}
variable {c : Char} {cs ds : List Char} {bits : Nat}

/-- **A character that is neither a quote nor a backslash.** Such characters
are all alike to what is escaped. -/
def Other (c : Char) : Prop := c ≠ '\x22' ∧ c ≠ '\\'

/-- What is written for broken bytes is neither of the two. -/
theorem other_replacement : Other replacement := ⟨by decide, by decide⟩

/-- A number that is one of a character is the number of this character. -/
theorem toNat_ofNat (h : bits.isValidChar) :
    (Char.ofNat bits).toNat = bits := by
  rw [show Char.ofNat bits = Char.ofNatAux bits h from dif_pos h]
  rfl

/-- A byte of ASCII is told by its character, so a quote among the characters
was one among the bytes. -/
theorem ofNat_eq_iff {a : UInt8} (ha : a < 0x80) (hb : b < 0x80) :
    Char.ofNat b.toNat = Char.ofNat a.toNat ↔ b = a := by
  have hvalid : ∀ {c : UInt8}, c < 0x80 → c.toNat.isValidChar := fun hc =>
    .inl (Nat.lt_trans (UInt8.lt_iff_toNat_lt.mp hc) (by decide))
  rw [← Char.toNat_inj, toNat_ofNat (hvalid ha), toNat_ofNat (hvalid hb),
    UInt8.toNat_inj]

/-- A number beyond ASCII is that of another character, or of none, which
stands for the first one and is no quote either. -/
theorem other_ofNat (h : 0x80 ≤ bits) : Other (Char.ofNat bits) := by
  by_cases hvalid : bits.isValidChar
  · have htoNat := toNat_ofNat hvalid
    constructor
    all_goals
      intro heq
      rw [heq] at htoNat
      have : bits < 0x80 := htoNat ▸ by decide
      omega
  · rw [show Char.ofNat bits = ⟨0, .inl (by decide)⟩ from dif_neg hvalid]
    exact ⟨by decide, by decide⟩

/-! ### Unfinished characters -/

/-- **An unfinished character that will be none of ASCII**: the bytes it is
owed are not, and its bits are too many for that. With more than one byte
owed, the next one may have to make them so. -/
structure Partial.Past (p : Partial) : Prop where
  low : 0x80 ≤ p.low
  bits : 2 ≤ p.bits ∨ 1 < p.owed ∧ 2 ≤ p.bits * 64 + (p.low.toNat - 0x80)

/-- Some bits are too many if more than one byte is owed. -/
theorem Partial.Past.of_bits_pos {owed : Nat} {high : UInt8} (h : 0 < bits) :
    Past ⟨bits, owed + 2, 0x80, high⟩ :=
  ⟨UInt8.le_refl 0x80, .inr ⟨show 1 < owed + 2 by omega,
    Nat.le_trans (show 2 ≤ bits * 64 by omega) (Nat.le_add_right _ _)⟩⟩

/-- A byte that opens a character is of none of ASCII. The bytes that would
open one of these in more bytes than it needs are refused, or owe a byte that
is high enough. -/
theorem past_of_lead (h : lead b = .opens p) : p.Past := by
  have hle : ∀ c : UInt8, ¬ b < c → c.toNat ≤ b.toNat := fun c hlt =>
    UInt8.le_iff_toNat_le.mp (UInt8.not_lt.mp hlt)
  have hlt : ∀ c : UInt8, ¬ b < c → ¬ (b == c) = true → c.toNat < b.toNat :=
    fun c hlt hne => Nat.lt_of_le_of_ne (hle c hlt)
      fun heq => hne (beq_iff_eq.mpr (UInt8.toNat_inj.mp heq.symm))
  unfold lead at h
  split at h
  · cases h
  split at h
  · cases h
  next hC2 =>
  split at h
  · obtain rfl := Lead.opens.inj h
    have hbits : 0xC2 ≤ b.toNat := hle 0xC2 hC2
    exact ⟨UInt8.le_refl 0x80, .inl (show 2 ≤ b.toNat - 0xC0 by omega)⟩
  next hE0 =>
  split at h
  · cases h
    exact ⟨by decide, .inr (by decide)⟩
  next hneE0 =>
  have hbits : 0xE0 < b.toNat := hlt 0xE0 hE0 hneE0
  split at h
  · cases h
    exact ⟨by decide, .inl (by decide)⟩
  split at h
  · obtain rfl := Lead.opens.inj h
    exact .of_bits_pos (show 0 < b.toNat - 0xE0 by omega)
  next hF0 =>
  split at h
  · cases h
    exact ⟨by decide, .inr (by decide)⟩
  next hneF0 =>
  have hbits : 0xF0 < b.toNat := hlt 0xF0 hF0 hneF0
  split at h
  · obtain rfl := Lead.opens.inj h
    exact .of_bits_pos (show 0 < b.toNat - 0xF0 by omega)
  split at h
  · cases h
    exact ⟨by decide, .inl (by decide)⟩
  · cases h

/-- A byte that is owed is none of ASCII. -/
theorem Partial.Past.le (h : p.Past) (hb : p.low ≤ b) : 0x80 ≤ b :=
  UInt8.le_trans h.low hb

/-- A byte that is owed is read, and what is still unfinished will be none of
ASCII. -/
theorem Partial.Past.next (h : p.Past) (hb : p.low ≤ b) :
    Past ⟨p.bits * 64 + (b.toNat - 0x80), p.owed - 1, 0x80, 0xBF⟩ where
  low := UInt8.le_refl 0x80
  bits := by
    have hle := UInt8.le_iff_toNat_le.mp hb
    refine .inl (show 2 ≤ p.bits * 64 + (b.toNat - 0x80) from ?_)
    rcases h.bits with hbits | ⟨-, hbits⟩
    · omega
    · omega

/-- The last byte that is owed finishes a character that is none of ASCII. -/
theorem Partial.Past.last (h : p.Past) (howed : p.owed ≤ 1) :
    Other (Char.ofNat (p.bits * 64 + (b.toNat - 0x80))) := by
  refine other_ofNat ?_
  rcases h.bits with hbits | ⟨hlt, -⟩
  · omega
  · omega

/-- A byte that is not owed is met between characters, behind a sign for what
was broken off. -/
theorem decodeFrom_of_not
    (h : (decide (p.low ≤ b) && decide (b ≤ p.high)) ≠ true)
    (bytes : List UInt8) :
    decodeFrom (some p) (b :: bytes)
      = replacement :: decodeFrom none (b :: bytes) := by
  rw [decodeFrom, decodeFrom, if_neg h]
  cases lead b <;> rfl

/-- A byte that is a character by itself is one of ASCII. -/
theorem lt_of_lead (h : lead b = .single c) : b < 0x80 := by
  unfold lead at h
  split at h
  · next hb => exact hb
  · repeat' split at h
    all_goals cases h

/-! ### What is read -/

/-- **What is read from bytes**: those of ASCII one by one, and other
characters from what stands between them. At least one character is read from
such a stretch, and which ones does not matter here. -/
inductive Reads : List UInt8 → List Char → Prop
  | nil : Reads [] []
  | ascii {b : UInt8} {bytes : List UInt8} {cs : List Char} : b < 0x80 →
    Reads bytes cs → Reads (b :: bytes) (Char.ofNat b.toNat :: cs)
  | other {between bytes : List UInt8} {ds cs : List Char} :
    between ≠ [] → (∀ b ∈ between, 0x80 ≤ b) →
    ds ≠ [] → (∀ d ∈ ds, Other d) → Reads bytes cs →
    Reads (between ++ bytes) (ds ++ cs)

/-- **What is read from inside of a character**: some others, from no bytes or
more that are none of ASCII, and then what there is. The byte that opened the
character is among those that have been read. -/
def ReadsOn (bytes : List UInt8) (cs : List Char) : Prop :=
  ∃ between rest ds ds', bytes = between ++ rest ∧ cs = ds ++ ds'
    ∧ (∀ b ∈ between, 0x80 ≤ b) ∧ ds ≠ [] ∧ (∀ d ∈ ds, Other d)
    ∧ Reads rest ds'

/-- A character that has been opened, and what is read on, are read from
between characters. -/
theorem ReadsOn.reads (h : ReadsOn bytes cs) (hb : 0x80 ≤ b) :
    Reads (b :: bytes) cs := by
  obtain ⟨between, rest, ds, ds', rfl, rfl, hbetween, hne, hother, hrest⟩ := h
  exact .other (List.cons_ne_nil b between)
    (List.forall_mem_cons.mpr ⟨hb, hbetween⟩) hne hother hrest

/-- One other character from no more bytes, and then what there is. -/
theorem ReadsOn.of_reads (hc : Other c) (h : Reads bytes cs) :
    ReadsOn bytes (c :: cs) :=
  ⟨[], bytes, [c], cs, rfl, rfl, by simp, List.cons_ne_nil _ _, by simpa, h⟩

/-- One more byte that is none of ASCII may belong to what is read on. -/
theorem ReadsOn.cons (hb : 0x80 ≤ b) (h : ReadsOn bytes cs) :
    ReadsOn (b :: bytes) cs := by
  obtain ⟨between, rest, ds, ds', rfl, rfl, hbetween, hne, hother, hrest⟩ := h
  exact ⟨b :: between, rest, ds, ds', rfl, rfl,
    List.forall_mem_cons.mpr ⟨hb, hbetween⟩, hne, hother, hrest⟩

/-- **What is read from bytes**, from between characters and from inside of
one. Both are proved in one induction on the bytes, as reading goes from one
to the other. -/
theorem reads_decodeFrom (bytes : List UInt8) :
    Reads bytes (decodeFrom none bytes)
      ∧ ∀ p, Partial.Past p → ReadsOn bytes (decodeFrom (some p) bytes) := by
  induction bytes with
  | nil => exact ⟨.nil, fun p _ => .of_reads other_replacement .nil⟩
  | cons b bytes ih =>
    obtain ⟨hnone, hsome⟩ := ih
    have hreads : Reads (b :: bytes) (decodeFrom none (b :: bytes)) := by
      by_cases hb : b < 0x80
      · rw [decodeFrom_ascii bytes hb]
        exact .ascii hb hnone
      · have hhigh : 0x80 ≤ b := UInt8.not_lt.mp hb
        rw [decodeFrom]
        split
        · next c hlead => exact absurd (lt_of_lead hlead) hb
        · next p hlead => exact (hsome p (past_of_lead hlead)).reads hhigh
        · exact ReadsOn.reads (.of_reads other_replacement hnone) hhigh
    refine ⟨hreads, fun p hp => ?_⟩
    by_cases hrange : (decide (p.low ≤ b) && decide (b ≤ p.high)) = true
    · have hlow : p.low ≤ b := by
        rw [Bool.and_eq_true, decide_eq_true_eq] at hrange
        exact hrange.1
      rw [decodeFrom, if_pos hrange]
      dsimp only
      split
      · next howed =>
        exact .cons (hp.le hlow) (.of_reads (hp.last howed) hnone)
      · exact .cons (hp.le hlow) (hsome _ (hp.next hlow))
    · rw [decodeFrom_of_not hrange]
      exact .of_reads other_replacement hreads

namespace Reads

/-- **What escapes in some bytes escapes in what is read from them.** A
stretch that is none of ASCII escapes nothing, and neither do the characters
that it is read as, of which there is at least one. -/
theorem foldl_escapeStep (h : Reads bytes cs) (escaped : Bool) :
    bytes.foldl (escapeStep Lexeme.backslash) escaped
      = cs.foldl (escapeStep '\\') escaped := by
  induction h generalizing escaped with
  | nil => rfl
  | @ascii b bytes cs hb _ ih =>
    have hstep : escapeStep Lexeme.backslash escaped b
        = escapeStep '\\' escaped (Char.ofNat b.toNat) := by
      have hiff := ofNat_eq_iff (a := Lexeme.backslash) (by decide) hb
      rw [escapeStep, escapeStep, Bool.eq_iff_iff]
      simp only [Bool.and_eq_true, beq_iff_eq]
      exact and_congr_right fun _ => hiff.symm
    rw [List.foldl_cons, List.foldl_cons, hstep, ih]
  | other hne hbetween hne' hother _ ih =>
    rw [List.foldl_append, List.foldl_append, foldl_escapeStep_of_ne hne,
      foldl_escapeStep_of_ne hne', ih]
    · exact fun d hd => (hother d hd).2
    · rintro b hb rfl
      exact absurd (hbetween _ hb) (by decide)

/-- What comes behind some bytes is escaped just if what comes behind the
characters is. -/
theorem escapes_iff (h : Reads bytes cs) :
    Escapes Lexeme.backslash bytes ↔ Escapes '\\' cs := by
  rw [FlatC.escapes_iff, FlatC.escapes_iff, h.foldl_escapeStep]

/-- **A quote in what is read** is one in the bytes, with what is read from
the bytes in front of it in front. The induction follows what is read, as a
quote is never inside of a stretch. -/
theorem exists_quote (h : Reads bytes cs) {before after : List Char}
    (heq : cs = before ++ '\x22' :: after) :
    ∃ near far, bytes = near ++ Lexeme.doubleQuote :: far
      ∧ Reads near before := by
  induction h generalizing before with
  | nil => simp at heq
  | @ascii b bytes cs hb _ ih =>
    rcases before with _ | ⟨c, before⟩
    · obtain ⟨hquote, -⟩ := List.cons.inj heq
      have hb : b = Lexeme.doubleQuote :=
        (ofNat_eq_iff (by decide) hb).mp hquote
      exact ⟨[], bytes, by rw [hb]; rfl, .nil⟩
    · obtain ⟨rfl, htail⟩ := List.cons.inj heq
      obtain ⟨near, far, rfl, hnear⟩ := ih htail
      exact ⟨b :: near, far, rfl, .ascii hb hnear⟩
  | @other between bytes ds cs hne hbetween hne' hother _ ih =>
    obtain ⟨t, rfl, htail⟩ : ∃ t, before = ds ++ t
        ∧ cs = t ++ '\x22' :: after := by
      rcases List.append_eq_append_iff.mp heq with ⟨t, ht, hcs⟩ | ⟨t, ht, hcs⟩
      · exact ⟨t, ht, hcs⟩
      · rcases t with _ | ⟨d, t⟩
        · exact ⟨[], by simp [ht], hcs.symm⟩
        · -- a quote is none of the other characters
          obtain ⟨rfl, -⟩ := List.cons.inj hcs
          exact absurd rfl (hother _ (ht ▸ by simp)).1
    obtain ⟨near, far, rfl, hnear⟩ := ih htail
    exact ⟨between ++ near, far, (List.append_assoc _ _ _).symm,
      .other hne hbetween hne' hother hnear⟩

/-- **The quotes of a text are escaped** if those of its bytes are, each by
the bytes in front of it. -/
theorem escaped (h : Reads bytes cs)
    (hescaped : ∀ near far, bytes = near ++ Lexeme.doubleQuote :: far →
      Escapes Lexeme.backslash near) {before after : List Char}
    (heq : cs = before ++ '\x22' :: after) : Escapes '\\' before := by
  obtain ⟨near, far, hbytes, hnear⟩ := h.exists_quote heq
  exact hnear.escapes_iff.mp (hescaped near far hbytes)

end Reads

/-- **A byte of ASCII ends what is unfinished** in front of it, so what comes
before and what comes after are read by themselves. -/
theorem decodeFrom_append_ascii (hb : b < 0x80) (bytes rest : List UInt8) :
    decodeFrom none (bytes ++ b :: rest)
        = decodeFrom none bytes ++ Char.ofNat b.toNat :: decodeFrom none rest
      ∧ ∀ p, Partial.Past p → decodeFrom (some p) (bytes ++ b :: rest)
        = decodeFrom (some p) bytes
          ++ Char.ofNat b.toNat :: decodeFrom none rest := by
  induction bytes with
  | nil =>
    refine ⟨decodeFrom_ascii rest hb, fun p hp => ?_⟩
    have hrange : ¬ (decide (p.low ≤ b) && decide (b ≤ p.high)) = true := by
      rw [Bool.and_eq_true, decide_eq_true_eq]
      exact fun h => UInt8.not_lt.mpr (hp.le h.1) hb
    rw [List.nil_append, decodeFrom_of_not hrange, decodeFrom_ascii rest hb]
    rfl
  | cons a bytes ih =>
    obtain ⟨hnone, hsome⟩ := ih
    have hcons : decodeFrom none (a :: bytes ++ b :: rest)
        = decodeFrom none (a :: bytes)
          ++ Char.ofNat b.toNat :: decodeFrom none rest := by
      rw [List.cons_append, decodeFrom, decodeFrom]
      split
      · rw [hnone]
        rfl
      · next p hlead => exact hsome p (past_of_lead hlead)
      · rw [hnone]
        rfl
    refine ⟨hcons, fun p hp => ?_⟩
    by_cases hrange : (decide (p.low ≤ a) && decide (a ≤ p.high)) = true
    · have hlow : p.low ≤ a := by
        rw [Bool.and_eq_true, decide_eq_true_eq] at hrange
        exact hrange.1
      rw [List.cons_append, decodeFrom, decodeFrom, if_pos hrange,
        if_pos hrange]
      dsimp only
      split
      · rw [hnone]
        rfl
      · exact hsome _ (hp.next hlow)
    · rw [List.cons_append, decodeFrom_of_not hrange,
        decodeFrom_of_not hrange]
      exact congrArg (replacement :: ·) hcons

end Utf8

/-! ## String literals -/

namespace Lexeme

variable {body : List UInt8}

/-- **A string literal is cut off behind the quote that ends it**, whatever
comes behind. The induction takes bytes off the front, with the state of the
scan left open. -/
theorem bodyLength_of_isBody (h : IsBody doubleQuote backslash body)
    (more : List UInt8) :
    bodyLength false (body ++ doubleQuote :: more) = body.length := by
  have key : ∀ (body : List UInt8) (escaped : Bool),
      (∀ before after, body = before ++ doubleQuote :: after →
        before.foldl (escapeStep backslash) escaped = true) →
      body.foldl (escapeStep backslash) escaped = false →
      bodyLength escaped (body ++ doubleQuote :: more) = body.length := by
    intro body
    induction body with
    | nil =>
      rintro escaped - hends
      obtain rfl : escaped = false := hends
      rfl
    | cons b body ih =>
      intro escaped hescaped hends
      have hgoes : ¬ (!escaped && b == doubleQuote) = true := by
        intro hquote
        rw [Bool.and_eq_true, beq_iff_eq] at hquote
        have := hescaped [] body (by rw [hquote.2]; rfl)
        simp_all
      rw [List.cons_append, bodyLength, if_neg hgoes, List.length_cons]
      refine congrArg (· + 1) (ih _ (fun before after hbody => ?_) hends)
      exact hescaped (b :: before) after (by rw [hbody]; rfl)
  refine key body false (fun before after hbody => ?_) ?_
  · exact escapes_iff.mp (h.escaped before after hbody)
  · exact Bool.eq_false_iff.mpr (mt escapes_iff.mpr h.ends)

/-- **The text of a string literal**: what is kept of the body, read, between
quotes. The closing quote is put there after the cut to the length. -/
theorem toList_stringText (body : List UInt8) :
    (stringText body).toList
      = '\x22' :: Utf8.decodeFrom none (body.take (maxLength - 1))
        ++ ['\x22'] := by
  have htake : (doubleQuote :: body).take maxLength
      = doubleQuote :: body.take (maxLength - 1) := rfl
  rw [stringText, Utf8.decode, String.toList_ofList, htake, List.cons_append,
    Utf8.decodeFrom_ascii _ (by decide),
    (Utf8.decodeFrom_append_ascii (by decide) _ []).1, Utf8.decodeFrom_nil]
  rfl

/-- What is kept of a body has the quotes of it that are kept, and each is
escaped by what is in front, which is kept too. -/
theorem escaped_take (h : IsBody doubleQuote backslash body) (n : Nat)
    (near far : List UInt8) (heq : body.take n = near ++ doubleQuote :: far) :
    Escapes backslash near := by
  refine h.escaped near (far ++ body.drop n) ?_
  rw [← List.cons_append, ← List.append_assoc, ← heq, List.take_append_drop]

/-- **The token of a string literal**: a text between quotes, each quote in it
escaped. If all of the body is kept then it is a literal again; else the last
thing kept may be a backslash that escapes the closing quote. -/
structure IsCut (body : List UInt8) (text : String) : Prop where
  quoted : ∃ kept, text.toList = '\x22' :: kept ++ ['\x22']
    ∧ ∀ before after, kept = before ++ '\x22' :: after →
      Escapes '\\' before
  /-- It is a string literal, unless the body has been cut behind a backslash
  that escapes. -/
  isLiteral_iff : IsLiteral '\x22' '\\' text.toList
    ↔ ¬ Escapes backslash (body.take (maxLength - 1))

/-- **What a string literal is cut to** is such a token, for a body of any
length. -/
theorem isCut_stringText (h : IsBody doubleQuote backslash body) :
    IsCut body (stringText body) := by
  have hreads := (Utf8.reads_decodeFrom (body.take (maxLength - 1))).1
  have hescaped : ∀ before after,
      Utf8.decodeFrom none (body.take (maxLength - 1))
        = before ++ '\x22' :: after → Escapes '\\' before :=
    fun before after => hreads.escaped (escaped_take h _)
  refine ⟨⟨_, toList_stringText body, hescaped⟩, ?_⟩
  rw [hreads.escapes_iff, toList_stringText]
  constructor
  · rintro ⟨kept, heq, hkept⟩
    obtain ⟨-, heq⟩ := List.cons.inj heq
    rw [List.append_cancel_right heq]
    exact hkept.ends
  · exact fun hends => ⟨_, rfl, hescaped, hends⟩

end Lexeme

end FlatC
