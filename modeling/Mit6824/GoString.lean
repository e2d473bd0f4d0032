/-
# Byte strings

The strings of Go: sequences of bytes, not necessarily of characters.

* `GoString`, compared byte by byte (`<` on Go strings), with `lit` for the string
  constants of a program;
* `itoa`: `strconv.Itoa` of a number that is not negative.  It is injective and
  all its bytes are digits;
* `ValidUtf8`: the strings that a JSON encoder keeps as they are;
* `sortStrings`: `sort.Strings`.  Two lists with the same elements, neither with
  duplicates, are sorted into the same list (`sortStrings_eq`).
-/
import Mathlib.Data.List.Sort
import Mathlib.Data.List.Lex
import Mathlib.Tactic

instance UInt8.linearOrderOfLe : LinearOrder UInt8 where
  le_refl := fun _ => UInt8.le_refl _
  le_trans := fun _ _ _ => UInt8.le_trans
  le_antisymm := fun _ _ => UInt8.le_antisymm
  le_total := UInt8.le_total
  lt_iff_le_not_ge := fun a b => by
    rw [UInt8.not_le]
    exact ⟨fun h => ⟨UInt8.le_of_lt h, h⟩, fun h => h.2⟩
  toDecidableLE := inferInstance

/-- A Go string. -/
abbrev GoString := List UInt8

namespace GoString

/-- A string constant, of ASCII characters. -/
def lit (s : String) : GoString :=
  s.toList.map fun c => UInt8.ofNat c.toNat

/-- `strconv.Itoa`. -/
def itoa (n : ℕ) : GoString :=
  (Nat.toDigits 10 n).map fun c => UInt8.ofNat c.toNat

/-- The UTF-8 encoding of some characters. -/
def ValidUtf8 (s : GoString) : Prop :=
  ∃ cs : List Char, s = cs.flatMap String.utf8EncodeChar

/-- `sort.Strings`. -/
def sortStrings (l : List GoString) : List GoString :=
  l.insertionSort (· ≤ ·)

/-! ## Numerals -/

/-- A digit is one byte, between `'0'` and `'9'`. -/
theorem toNat_digit {c : Char} (hc : c.isDigit) :
    (UInt8.ofNat c.toNat).toNat = c.toNat ∧ 48 ≤ c.toNat ∧ c.toNat ≤ 57 := by
  have hrange : 48 ≤ c.toNat ∧ c.toNat ≤ 57 := by
    simp only [Char.isDigit, Bool.and_eq_true, decide_eq_true_eq, UInt32.le_iff_toNat_le] at hc
    exact hc
  refine ⟨?_, hrange⟩
  rw [UInt8.toNat_ofNat']
  omega

/-- A number is written with digits. -/
theorem mem_itoa {n : ℕ} {b : UInt8} (hb : b ∈ itoa n) : 48 ≤ b.toNat ∧ b.toNat ≤ 57 := by
  obtain ⟨c, hc, rfl⟩ := List.mem_map.mp hb
  obtain ⟨heq, hrange⟩ := toNat_digit (Nat.isDigit_of_mem_toDigits (by decide) (by decide) hc)
  rw [heq]
  exact hrange

/-- The digits can be read back. -/
theorem map_ofNat_itoa (n : ℕ) :
    (itoa n).map (fun b => Char.ofNat b.toNat) = Nat.toDigits 10 n := by
  rw [itoa, List.map_map]
  refine (List.map_congr_left ?_).trans (List.map_id _)
  intro c hc
  have hdigit := toNat_digit (Nat.isDigit_of_mem_toDigits (by decide) (by decide) hc)
  simp [hdigit.1]

/-- Different numbers are written differently. -/
theorem itoa_injective : Function.Injective itoa := by
  intro m n h
  have hdigits : Nat.toDigits 10 m = Nat.toDigits 10 n := by
    rw [← map_ofNat_itoa m, ← map_ofNat_itoa n, h]
  calc
    m = Nat.ofDigitChars 10 (Nat.toDigits 10 m) 0 := Nat.ofDigitChars_ten_toDigits.symm
    _ = Nat.ofDigitChars 10 (Nat.toDigits 10 n) 0 := by rw [hdigits]
    _ = n := Nat.ofDigitChars_ten_toDigits

/-! ## Valid strings -/

/-- An ASCII character is its own encoding. -/
theorem validUtf8_ascii {cs : List Char} (h : ∀ c ∈ cs, c.toNat ≤ 127) :
    ValidUtf8 (cs.map fun c => UInt8.ofNat c.toNat) := by
  refine ⟨cs, ?_⟩
  rw [← List.flatMap_pure_eq_map]
  apply List.flatMap_congr
  intro c hc
  simp [String.utf8EncodeChar, h c hc]

/-- An ASCII literal is valid. -/
theorem validUtf8_lit (s : String) (h : (s.toList.all fun c => c.toNat ≤ 127) = true) :
    ValidUtf8 (lit s) := by
  apply validUtf8_ascii
  intro c hc
  exact of_decide_eq_true (List.all_eq_true.mp h c hc)

theorem validUtf8_itoa (n : ℕ) : ValidUtf8 (itoa n) := by
  apply validUtf8_ascii
  intro c hc
  have hdigit := toNat_digit (Nat.isDigit_of_mem_toDigits (by decide) (by decide) hc)
  omega

theorem validUtf8_utf8EncodeChar (c : Char) : ValidUtf8 (String.utf8EncodeChar c) := by
  refine ⟨[c], ?_⟩
  rw [List.flatMap_singleton]

/-- Valid strings may be put together. -/
theorem ValidUtf8.append {s t : GoString} (hs : ValidUtf8 s) (ht : ValidUtf8 t) :
    ValidUtf8 (s ++ t) := by
  obtain ⟨cs, rfl⟩ := hs
  obtain ⟨ds, rfl⟩ := ht
  refine ⟨cs ++ ds, ?_⟩
  rw [List.flatMap_append]

theorem validUtf8_flatMap {α : Type*} {f : α → GoString} {l : List α}
    (h : ∀ a ∈ l, ValidUtf8 (f a)) : ValidUtf8 (l.flatMap f) := by
  induction l with
  | nil => exact ⟨[], rfl⟩
  | cons a l ih =>
      rw [List.flatMap_cons]
      apply (h a List.mem_cons_self).append
      exact ih fun b hb => h b (List.mem_cons_of_mem a hb)

/-! ## Sorting -/

/-- Sorting keeps the strings. -/
theorem sortStrings_perm (l : List GoString) : (sortStrings l).Perm l :=
  List.perm_insertionSort _ _

theorem sortStrings_sorted (l : List GoString) : (sortStrings l).Pairwise (· ≤ ·) :=
  List.pairwise_insertionSort _ _

/-- Sorting does not depend on the order of the list. -/
theorem sortStrings_eq {l l' : List GoString} (h : l.Perm l') : sortStrings l = sortStrings l' :=
  List.Perm.eq_of_pairwise (fun _ _ _ _ => le_antisymm) (sortStrings_sorted l)
    (sortStrings_sorted l') ((sortStrings_perm l).trans (h.trans (sortStrings_perm l').symm))

/-- Without duplicates, the order is strict. -/
theorem sortStrings_strict {l : List GoString} (h : l.Nodup) :
    (sortStrings l).Pairwise (· < ·) := by
  have hnd : (sortStrings l).Pairwise (· ≠ ·) := (sortStrings_perm l).nodup_iff.mpr h
  exact hnd.imp₂ (fun _ _ hne hle => lt_of_le_of_ne hle hne) (sortStrings_sorted l)

end GoString
