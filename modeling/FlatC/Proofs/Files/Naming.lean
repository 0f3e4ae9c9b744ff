import Mathlib.Data.List.Forall2
import FlatC.Files.Table
import FlatC.Proofs.Text.Utf8

/-!
# Names of one file

Names are compared character by character, and are stored as bytes. That
comes to the same thing: no byte of a character outside ASCII is a separator
or a letter, so to fold a character is to fold its bytes
(`map_foldByte_encode`). Two names are of one file exactly if they are equally
long and each byte of one is **alike** the byte in its place in the other
(`same_iff_alike`).

A path is cut behind its last separator, and there is one place to cut it
(`directory_eq_iff`). What stands in front of the cut is empty or ends in a
separator, so a path put behind it is cut where it is cut by itself
(`directory_append`); and as separators are folded to a separator, and nothing
else is, the cut stays where it is when the path is spelled in another way
(`directory_map_foldChar`). So a target of a target lies where it does
whichever of the two inclusions is resolved first, and names that are spelled
in another way lead to the same file (`composes`).
-/

namespace FlatC.FileName

variable {a a' b b' : String} {c : Char} {cs dir name : List Char}
variable {x y : UInt8}

/-! ## Bytes -/

/-- The bytes of capital letters. That of the small letter is `0x20` further
on. Bytes of longer characters are no capitals, so only ASCII letters are told
apart by case. -/
def Capital (x : UInt8) : Prop := 0x41 ≤ x ∧ x ≤ 0x5A

instance : DecidablePred Capital :=
  fun x => inferInstanceAs (Decidable (0x41 ≤ x ∧ x ≤ 0x5A))

/-- **Bytes that are alike**: the two separators are, the two cases of an
ASCII letter are, and a byte is alike itself. Nothing else is, so this can be
read without knowing what names are folded to. -/
inductive Alike : UInt8 → UInt8 → Prop
  | refl (x : UInt8) : Alike x x
  | separators {x y : UInt8} (hx : x = 0x2F ∨ x = 0x5C)
    (hy : y = 0x2F ∨ y = 0x5C) : Alike x y
  | small {x : UInt8} (h : Capital x) : Alike x (x + 0x20)
  | capital {x : UInt8} (h : Capital x) : Alike (x + 0x20) x

/-- A byte in the one spelling names are compared in: with `/` between
directories and in small letters. -/
def foldByte (x : UInt8) : UInt8 :=
  if x = 0x5C then 0x2F else if Capital x then x + 0x20 else x

/-- A capital is made small, and that is neither folded further nor a
separator. So folding a name twice is folding it once. -/
theorem foldByte_of_capital (h : Capital x) : foldByte x = x + 0x20
    ∧ foldByte (x + 0x20) = x + 0x20 ∧ x + 0x20 ≠ 0x2F := by
  refine forall_byte (P := fun x => Capital x → foldByte x = x + 0x20
    ∧ foldByte (x + 0x20) = x + 0x20 ∧ x + 0x20 ≠ 0x2F) ?_ x h
  decide +kernel

/-- **A byte that folding changes** is a separator or a capital. -/
theorem foldByte_cases (x : UInt8) :
    x = 0x5C ∨ Capital x ∨ foldByte x = x := by
  by_cases hx : x = 0x5C
  · exact .inl hx
  by_cases hcapital : Capital x
  · exact .inr (.inl hcapital)
  · exact .inr (.inr (by rw [foldByte, if_neg hx, if_neg hcapital]))

/-- Bytes that are alike are folded to one byte. -/
theorem Alike.foldByte_eq (h : Alike x y) : foldByte x = foldByte y := by
  cases h with
  | refl => rfl
  | separators hx hy =>
    rcases hx with rfl | rfl <;> rcases hy with rfl | rfl <;> rfl
  | small h =>
    obtain ⟨hfold, hsmall, -⟩ := foldByte_of_capital h
    rw [hfold, hsmall]
  | capital h =>
    obtain ⟨hfold, hsmall, -⟩ := foldByte_of_capital h
    rw [hfold, hsmall]

/-- **Bytes are alike exactly if they are folded to one byte.** From left to
right this follows the constructors; from right to left it follows what the
two bytes are, and two different capitals are kept apart by their small
letters. -/
theorem alike_iff : Alike x y ↔ foldByte x = foldByte y := by
  refine ⟨Alike.foldByte_eq, fun h => ?_⟩
  rcases foldByte_cases x with rfl | hx | hx
  · rcases foldByte_cases y with rfl | hy | hy
    · exact .refl _
    · obtain ⟨hfold, -, hne⟩ := foldByte_of_capital hy
      exact absurd (hfold.symm.trans h.symm) hne
    · exact .separators (.inr rfl) (.inl (hy.symm.trans h.symm))
  · obtain ⟨hfold, -, hne⟩ := foldByte_of_capital hx
    rcases foldByte_cases y with rfl | hy | hy
    · exact absurd (hfold.symm.trans h) hne
    · rw [hfold, (foldByte_of_capital hy).1, UInt8.add_left_inj] at h
      exact h ▸ .refl x
    · rw [hfold, hy] at h
      exact h ▸ .small hx
  · rw [hx] at h
    rcases foldByte_cases y with rfl | hy | hy
    · exact .separators (.inl h) (.inr rfl)
    · rw [(foldByte_of_capital hy).1] at h
      exact h ▸ .capital hy
    · exact (h.trans hy) ▸ .refl x

/-! ## Characters -/

/-- Outside ASCII there is nothing to fold, whatever is a letter there. -/
theorem foldChar_of_le (h : 0x80 ≤ c.toNat) : foldChar c = c := by
  have hle : ∀ d : Char, d.toNat < 0x80 → ¬ c ≤ d := fun d hd hcd =>
    Nat.not_lt.mpr h (Nat.lt_of_le_of_lt (UInt32.le_iff_toNat_le.mp hcd) hd)
  have hback : (c == '\\') = false := beq_eq_false_iff_ne.mpr fun hc =>
    hle '\\' (by decide) (hc ▸ Char.le_refl c)
  rw [foldChar, hback, if_neg Bool.false_ne_true]
  exact dif_neg fun hc => hle 'Z' (by decide) hc.2

/-- **To fold a character is to fold its bytes.** A character of several bytes
has none below `0x80`, so its bytes stay as they are and so does the
character. -/
theorem map_foldByte_encodeChar (c : Char) :
    (String.utf8EncodeChar c).map foldByte
      = String.utf8EncodeChar (foldChar c) := by
  by_cases hc : c.toNat < 0x80
  · refine Utf8.forall_ascii (P := fun c => (String.utf8EncodeChar c).map
      foldByte = String.utf8EncodeChar (foldChar c)) ?_ hc
    decide +kernel
  · have hc := Nat.le_of_not_lt hc
    have hkept : ∀ x : UInt8, 0x80 ≤ x → foldByte x = x :=
      forall_byte (by decide +kernel)
    rw [foldChar_of_le hc]
    refine (List.map_congr_left fun x hx => ?_).trans (List.map_id _)
    exact hkept x (Utf8.le_of_mem_encodeChar hc hx)

/-- To fold a name is to fold its bytes, as is done character by character. -/
theorem map_foldByte_encode (name : String) :
    (Utf8.encode name).map foldByte
      = Utf8.encode (String.ofList (fold name)) := by
  rw [Utf8.encode_ofList, Utf8.encode, List.map_flatMap, fold,
    List.flatMap_map]
  simp only [map_foldByte_encodeChar]

/-- **Names of one file are alike, byte by byte**, and are then equally long.
Names are compared as characters, but what is compared in the end are the
bytes that the system uses. -/
theorem same_iff_alike : same a b = true
    ↔ List.Forall₂ Alike (Utf8.encode a) (Utf8.encode b) := by
  have halike : Alike = fun x y => foldByte x = foldByte y :=
    funext₂ fun _ _ => propext alike_iff
  have hbytes : List.Forall₂ Alike (Utf8.encode a) (Utf8.encode b)
      ↔ (Utf8.encode a).map foldByte = (Utf8.encode b).map foldByte := by
    rw [← List.forall₂_eq_eq_eq, List.forall₂_map_left_iff,
      List.forall₂_map_right_iff, halike]
  rw [hbytes, map_foldByte_encode, map_foldByte_encode,
    Utf8.encode_injective.eq_iff, String.ofList_inj, same_iff]

/-- Separators are folded to a separator, and nothing else is. So another
spelling has its separators in the same places. -/
theorem isSeparator_foldChar (c : Char) :
    isSeparator (foldChar c) = isSeparator c := by
  by_cases hc : c.toNat < 0x80
  · refine Utf8.forall_ascii
      (P := fun c => isSeparator (foldChar c) = isSeparator c) ?_ hc
    decide +kernel
  · rw [foldChar_of_le (Nat.le_of_not_lt hc)]

/-! ## Directories -/

/-- **A path cut behind its last separator**, into its directory and what is
in there. The directory is empty if there is no separator, and what is in it
is empty if the path ends with one. -/
structure CutBehind (cs dir name : List Char) : Prop where
  append_eq : dir ++ name = cs
  ends : ∀ c ∈ dir.getLast?, isSeparator c = true
  plain : ∀ c ∈ name, isSeparator c = false

/-- **Every path is cut behind its directory.** So `directory` is what its
name says for all paths, those without a separator included. -/
theorem exists_cutBehind (cs : List Char) :
    ∃ name, CutBehind cs (directory cs) name := by
  induction cs with
  | nil => exact ⟨[], rfl, by simp, by simp⟩
  | cons c cs ih =>
    obtain ⟨name, happend, hends, hplain⟩ := ih
    rw [directory]
    split
    · next hnil =>
      rw [hnil, List.nil_append] at happend
      split
      · next hc =>
        refine ⟨name, congrArg (c :: ·) happend, ?_, hplain⟩
        rintro _ ⟨⟩
        exact hc
      · next hc =>
        rw [Bool.not_eq_true] at hc
        exact ⟨c :: name, congrArg (c :: ·) happend, by simp,
          List.forall_mem_cons.mpr ⟨hc, hplain⟩⟩
    · next d ds hdir =>
      rw [hdir] at happend hends
      exact ⟨name, congrArg (c :: ·) happend, hends, hplain⟩

/-- **There is one place to cut a path**, since no separator comes behind it
and one comes right in front. -/
theorem CutBehind.directory_eq (h : CutBehind cs dir name) :
    directory cs = dir := by
  obtain ⟨rfl, hends, hplain⟩ := h
  induction dir with
  | nil => exact directory_eq_nil hplain
  | cons c dir ih =>
    cases dir with
    | nil =>
      rw [List.cons_append, List.nil_append, directory,
        directory_eq_nil hplain, if_pos (hends c rfl)]
    | cons d dir => rw [List.cons_append, directory, ih hends]

/-- The directory is told by the place where the path is cut. -/
theorem directory_eq_iff :
    directory cs = dir ↔ ∃ name, CutBehind cs dir name :=
  ⟨fun h => h ▸ exists_cutBehind cs, fun ⟨_, h⟩ => h.directory_eq⟩

/-- **A path spelled in another way** is cut in the same place, and its
directory is spelled in that way. -/
theorem directory_map_foldChar (cs : List Char) :
    directory (cs.map foldChar) = (directory cs).map foldChar := by
  obtain ⟨name, happend, hends, hplain⟩ := exists_cutBehind cs
  refine directory_eq_iff.mpr ⟨name.map foldChar, ?_, fun c hc => ?_,
    List.forall_mem_map.mpr fun c hc => ?_⟩
  · rw [← List.map_append, happend]
  · rw [List.getLast?_map, Option.mem_def, Option.map_eq_some_iff] at hc
    obtain ⟨d, hd, rfl⟩ := hc
    rw [isSeparator_foldChar, hends d hd]
  · rw [isSeparator_foldChar, hplain c hc]

/-- **A path behind a directory** is cut where it is cut by itself. If it has
no separator then the cut is where the directory ends, as a directory ends
with one or is empty. -/
theorem directory_append (cs ds : List Char) :
    directory (directory cs ++ ds) = directory cs ++ directory ds := by
  obtain ⟨-, -, hfront, -⟩ := exists_cutBehind cs
  obtain ⟨name, happend, hends, hplain⟩ := exists_cutBehind ds
  refine directory_eq_iff.mpr ⟨name, ?_, fun c hc => ?_, hplain⟩
  · rw [List.append_assoc, happend]
  · rw [List.getLast?_append, Option.mem_def, Option.or_eq_some_iff] at hc
    rcases hc with hc | ⟨-, hc⟩
    · exact hends c hc
    · exact hfront c hc

/-! ## Inclusions -/

/-- A target is put behind the directory, character by character. -/
theorem toList_resolve (a b : String) :
    (resolve a b).toList = directory a.toList ++ b.toList := by
  rw [resolve, String.toList_ofList]

/-- **What a resolved target is folded to** hangs on what the names are folded
to, and on nothing else about their spelling. -/
theorem fold_resolve (a b : String) :
    fold (resolve a b) = directory (fold a) ++ fold b := by
  rw [fold, toList_resolve, List.map_append, ← directory_map_foldChar]
  rfl

/-- To resolve a target in what another one leads to is to resolve the two,
one in the other, first. So a chain of inclusions leads to one path, however
it is cut up. -/
theorem resolve_assoc (a b c : String) :
    resolve (resolve a b) c = resolve a (resolve b c) := by
  rw [← String.toList_inj]
  simp only [toList_resolve, directory_append, List.append_assoc]

/-- Targets of one file, in paths of one file, lead to one file. -/
theorem same_resolve (ha : same a a' = true) (hb : same b b' = true) :
    same (resolve a b) (resolve a' b') = true := by
  rw [same_iff] at ha hb ⊢
  rw [fold_resolve, fold_resolve, ha, hb]

/-- **An inclusion of `b` in `a`**, and one of `c` in what it leads to: where
the targets are put, that the two steps can be taken in either order, and that
spelling makes no difference. -/
structure Composes (a b c : String) : Prop where
  /-- The target is put behind what the path has up to its last separator. -/
  behind : ∃ dir name : String,
    CutBehind a.toList dir.toList name.toList ∧ resolve a b = dir ++ b
  /-- It does not matter which of the two inclusions is resolved first. -/
  assoc : resolve (resolve a b) c = resolve a (resolve b c)
  /-- Names that are spelled in another way lead to the same file. -/
  spelled : ∀ a' b' : String, same a a' = true → same b b' = true →
    same (resolve a b) (resolve a' b') = true
  /-- No table of files tells where they lead from one another. -/
  found : ∀ a' b' : String, same a a' = true → same b b' = true →
    ∀ t : FileTable, t.find? (resolve a b) = t.find? (resolve a' b')

/-- **Inclusions compose**, and lead to the same file from whatever spelling.
Nothing is asked of the three names: they may be empty, absolute or end with a
separator. -/
theorem composes (a b c : String) : Composes a b c where
  behind := by
    obtain ⟨name, hcut⟩ := exists_cutBehind a.toList
    refine ⟨String.ofList (directory a.toList), String.ofList name, ?_, ?_⟩
    · rwa [String.toList_ofList, String.toList_ofList]
    · rw [resolve, String.ofList_append, String.ofList_toList]
  assoc := resolve_assoc a b c
  spelled := fun _ _ => same_resolve
  found := fun _ _ ha hb t => t.find?_congr (same_resolve ha hb)

/-- Both separators count, and which of them it is makes no difference. -/
example : resolve (resolve "src\\win/main.c" "inc\\a.h") "b.h"
      = "src\\win/inc\\b.h"
    ∧ same (resolve "src\\win/main.c" "B.h") "SRC/win/b.h" = true := by
  decide

end FlatC.FileName
