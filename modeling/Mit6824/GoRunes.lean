/-
# Characters of byte strings

Go reads a string as UTF-8: from the bytes that encode no character, one is taken and
stands for the character U+FFFD.

* `decodeRune`: `utf8.DecodeRuneInString`.  It finds the character that a string begins
  with, if there is one (`decodeRune_append`, `decodeRune_cases`);
* `runes`: the characters of a string with the bytes that they were read from;
* `Unicode`: the tables of the package `unicode`, as far as they are used.
-/
import Mit6824.GoString

namespace GoString

/-! ## One character -/

/-- `utf8.RuneError`, which is U+FFFD. -/
def runeError : Char :=
  Char.ofNat 0xFFFD

/-- The first character of a string and the number of its bytes. -/
def decodeRune (s : GoString) : Char × ℕ :=
  if s = [] then (runeError, 0)
  else
    match s.toByteArray.utf8DecodeChar? 0 with
    | some c => (c, c.utf8Size)
    | none => (runeError, 1)

theorem utf8EncodeChar_ne_nil (c : Char) : String.utf8EncodeChar c ≠ [] := by
  apply List.ne_nil_of_length_pos
  rw [String.length_utf8EncodeChar]
  exact c.utf8Size_pos

/-- The character that a string begins with. -/
theorem decodeRune_append (c : Char) (s : GoString) :
    decodeRune (String.utf8EncodeChar c ++ s) = (c, c.utf8Size) := by
  rw [decodeRune, if_neg (List.append_ne_nil_of_left_ne_nil (utf8EncodeChar_ne_nil c) s),
    List.toByteArray_append, ByteArray.utf8DecodeChar?_utf8EncodeChar_append]

/-- Either a string begins with a character, or its first byte stands for U+FFFD. -/
theorem decodeRune_cases {s : GoString} (hs : s ≠ []) :
    (∃ c t, s = String.utf8EncodeChar c ++ t ∧ decodeRune s = (c, c.utf8Size)) ∨
      decodeRune s = (runeError, 1) := by
  rw [decodeRune, if_neg hs]
  rcases hdecode : s.toByteArray.utf8DecodeChar? 0 with _ | c
  · exact .inr rfl
  · left
    obtain ⟨t, ht⟩ := ByteArray.exists_of_utf8DecodeChar?_eq_some hdecode
    refine ⟨c, t.data.toList, ?_, rfl⟩
    have hbytes : t = t.data.toList.toByteArray := by
      apply ByteArray.ext
      rw [List.data_toByteArray, Array.toArray_toList]
    rw [hbytes, ← List.toByteArray_append, List.toByteArray_inj] at ht
    exact ht

/-! ## The tables of Unicode -/

/-- The tables of the package `unicode`.  The character that stands for a wrong encoding is
neither a letter nor upper case. -/
structure Unicode where
  isLetter : Char → Bool
  isUpper : Char → Bool
  isLetter_runeError : isLetter runeError = false
  isUpper_runeError : isUpper runeError = false

/-- The tables restricted to ASCII. -/
def asciiTables : Unicode where
  isLetter := Char.isAlpha
  isUpper := Char.isUpper
  isLetter_runeError := by decide
  isUpper_runeError := by decide

/-! ## All characters -/

/-- A character and the bytes that it was read from. -/
structure Rune where
  char : Char
  bytes : GoString
  deriving DecidableEq, Repr

/-- The first `n` characters of a string. -/
def runesFrom : ℕ → GoString → List Rune
  | 0, _ => []
  | n + 1, s =>
      if s = [] then []
      else ⟨(decodeRune s).1, s.take (decodeRune s).2⟩ :: runesFrom n (s.drop (decodeRune s).2)

/-- The characters of `for _, c := range s`. -/
def runes (s : GoString) : List Rune :=
  runesFrom s.length s

/-- Every character has a byte. -/
theorem decodeRune_width_pos {s : GoString} (hs : s ≠ []) : 0 < (decodeRune s).2 := by
  rcases decodeRune_cases hs with ⟨c, t, -, hdecode⟩ | hdecode
  · rw [hdecode]
    exact c.utf8Size_pos
  · rw [hdecode]
    exact Nat.one_pos

/-- Every character is the first one of some string. -/
theorem exists_of_mem_runes {s : GoString} {r : Rune} (hr : r ∈ runes s) :
    ∃ t, t ≠ [] ∧ r = ⟨(decodeRune t).1, t.take (decodeRune t).2⟩ := by
  have hfrom : ∀ {n : ℕ} {s : GoString}, r ∈ runesFrom n s →
      ∃ t, t ≠ [] ∧ r = ⟨(decodeRune t).1, t.take (decodeRune t).2⟩ := by
    intro n
    induction n with
    | zero => exact fun hr => absurd hr List.not_mem_nil
    | succ n ih =>
        intro s hr
        rw [runesFrom] at hr
        split at hr
        · cases hr
        · rename_i hs
          rcases List.mem_cons.mp hr with rfl | hr
          · exact ⟨s, hs, rfl⟩
          · exact ih hr
  exact hfrom hr

/-- The bytes of a character encode it, or it is U+FFFD. -/
theorem bytes_of_mem_runes {s : GoString} {r : Rune} (hr : r ∈ runes s) :
    r.bytes = String.utf8EncodeChar r.char ∨ r.char = runeError := by
  obtain ⟨t, ht, rfl⟩ := exists_of_mem_runes hr
  rcases decodeRune_cases ht with ⟨c, u, rfl, hdecode⟩ | hdecode
  · left
    rw [hdecode, ← String.length_utf8EncodeChar, List.take_left]
  · right
    rw [hdecode]

theorem bytes_ne_nil_of_mem_runes {s : GoString} {r : Rune} (hr : r ∈ runes s) :
    r.bytes ≠ [] := by
  obtain ⟨t, ht, rfl⟩ := exists_of_mem_runes hr
  have hpos := decodeRune_width_pos ht
  intro hnil
  rcases List.take_eq_nil_iff.mp hnil with hzero | hnil
  · omega
  · exact ht hnil

end GoString
