/-
# The bitset of the linearizability checker

`bitset.go`: a set of positions kept in 64-bit words.  An access to a word that
does not exist is a fault and gives `none`.  A bitset is a value here: `set` and
`clear` return the changed words, which the caller stores back.

* `Bitset.Represents`: the words describe a finite set of positions below `n`;
* `Bitset.Represents.set`, `.clear`: setting and clearing a position below `n` is
  never out of range and adds or removes just this position;
* `Bitset.Represents.unique`: one set has one description.
-/
import Mathlib.Data.Finset.Basic
import Mathlib.Tactic

namespace Mit6824

/-- A set of positions: the position `p` is bit `p % 64` of word `p / 64`. -/
structure Bitset where
  words : List (BitVec 64)
  deriving DecidableEq, Repr

/-- The number of words for a number of bits. -/
def chunks (bits : ℕ) : ℕ :=
  let extra := if bits % 64 ≠ 0 then 1 else 0
  bits / 64 + extra

/-- No position set. -/
def newBitset (bits : ℕ) : Bitset :=
  ⟨List.replicate (chunks bits) 0⟩

/-- The word of a position and the bit in it. -/
def bitsetIndex (pos : ℕ) : ℕ × ℕ :=
  (pos / 64, pos % 64)

namespace Bitset

/-- A copy of the words. -/
def clone (b : Bitset) : Bitset :=
  ⟨b.words⟩

/-- Set the bit at `pos`.  A position outside the slice is a panic. -/
def set (b : Bitset) (pos : ℕ) : Option Bitset :=
  let (major, minor) := bitsetIndex pos
  b.words[major]?.map fun w => ⟨b.words.set major (w ||| (1#64 <<< minor))⟩

/-- Clear the bit at `pos`. -/
def clear (b : Bitset) (pos : ℕ) : Option Bitset :=
  let (major, minor) := bitsetIndex pos
  b.words[major]?.map fun w => ⟨b.words.set major (w &&& ~~~(1#64 <<< minor))⟩

/-- The bit at `pos`. -/
def get (b : Bitset) (pos : ℕ) : Option Bool :=
  let (major, minor) := bitsetIndex pos
  b.words[major]?.map fun w => w &&& (1#64 <<< minor) != 0#64

/-- The number of bits of one word, by sums over neighbouring fields. -/
def popcntWord (v : BitVec 64) : BitVec 64 :=
  let v := (v &&& 0x5555555555555555#64) + ((v &&& 0xAAAAAAAAAAAAAAAA#64) >>> 1)
  let v := (v &&& 0x3333333333333333#64) + ((v &&& 0xCCCCCCCCCCCCCCCC#64) >>> 2)
  let v := (v &&& 0x0F0F0F0F0F0F0F0F#64) + ((v &&& 0xF0F0F0F0F0F0F0F0#64) >>> 4)
  let v := v * 0x0101010101010101#64
  (v >>> 56) &&& 0xFF#64

/-- The number of bits of the slice, word by word. -/
def popcnt (b : Bitset) : BitVec 64 :=
  b.words.foldl (fun total v => total + popcntWord v) 0

/-- The number of bits, with every word mixed in by exclusive or. -/
def hash (b : Bitset) : BitVec 64 :=
  b.words.foldl (fun hash v => hash ^^^ v) b.popcnt

/-- Slices of different lengths are different, others are compared word by word. -/
def equals (b b2 : Bitset) : Bool :=
  if b.words.length ≠ b2.words.length then false
  else (b.words.zip b2.words).all fun v => v.1 == v.2

/-- `equals` is equality. -/
theorem equals_iff {b b2 : Bitset} : b.equals b2 = true ↔ b = b2 := by
  obtain ⟨v⟩ := b
  obtain ⟨w⟩ := b2
  unfold equals
  dsimp only
  constructor
  · intro h
    split at h
    · cases h
    · rename_i hlen
      rw [not_not] at hlen
      refine congrArg Bitset.mk (List.ext_getElem hlen ?_)
      intro i hi hi'
      have hmem : (v[i], w[i]) ∈ v.zip w := by
        rw [List.mem_iff_getElem]
        refine ⟨i, ?_, List.getElem_zip⟩
        rw [List.length_zip]
        omega
      exact beq_iff_eq.mp (List.all_eq_true.mp h _ hmem)
  · rintro ⟨⟩
    rw [if_neg (not_not.mpr rfl), List.all_eq_true]
    intro x hx
    rw [List.zip_eq_zipWith, List.zipWith_self, List.mem_map] at hx
    obtain ⟨y, -, rfl⟩ := hx
    exact beq_self_eq_true y

/-! ## The set that the words describe -/

/-- The bit at a position; there is none set beyond the last word. -/
def bit (b : Bitset) (pos : ℕ) : Bool :=
  (b.words[pos / 64]?.getD 0).getLsbD (pos % 64)

/-- The words describe the set `S` of positions below `n`. -/
structure Represents (b : Bitset) (n : ℕ) (S : Finset ℕ) : Prop where
  length : b.words.length = chunks n
  bit : ∀ p, b.bit p = true ↔ p ∈ S
  lt : ∀ p ∈ S, p < n

theorem div_lt_chunks {p n : ℕ} (hp : p < n) : p / 64 < chunks n := by
  unfold chunks
  dsimp only
  split <;> omega

theorem represents_newBitset (n : ℕ) : (newBitset n).Represents n ∅ := by
  refine ⟨List.length_replicate, ?_, ?_⟩
  · intro p
    unfold Bitset.bit newBitset
    rw [List.getElem?_replicate]
    split <;> simp
  · intro p hp
    exact absurd hp (Finset.notMem_empty p)

/-- The only bit of a mask. -/
theorem getLsbD_mask {i j : ℕ} (hj : j < 64) :
    (1#64 <<< i).getLsbD j = decide (i = j) := by
  rw [← BitVec.twoPow_eq, BitVec.getLsbD_twoPow, ← Bool.decide_and, decide_eq_decide]
  omega

/-- How a change of one word shows in the bits. -/
theorem bit_set_word {b : Bitset} {p : ℕ} (hp : p / 64 < b.words.length) (w : BitVec 64) (q : ℕ) :
    Bitset.bit ⟨b.words.set (p / 64) w⟩ q =
      if p / 64 = q / 64 then w.getLsbD (q % 64) else b.bit q := by
  unfold Bitset.bit
  dsimp only
  split
  · rename_i heq
    rw [← heq, List.getElem?_set_self hp]
    rfl
  · rename_i hne
    rw [List.getElem?_set_ne hne]

/-- Changing the bit of one position in its word changes the set at this position. -/
theorem Represents.setWord {b : Bitset} {n : ℕ} {S S' : Finset ℕ} (hb : b.Represents n S) {p : ℕ}
    (hp : p < n) (hlt : ∀ q ∈ S', q < n) (hne : ∀ q, q ≠ p → (q ∈ S' ↔ q ∈ S))
    (f : BitVec 64 → BitVec 64)
    (hf : ∀ w q, p / 64 = q / 64 → (w.getLsbD (q % 64) = true ↔ q ∈ S) →
      ((f w).getLsbD (q % 64) = true ↔ q ∈ S')) :
    ∃ b' : Bitset, (b.words[p / 64]?.map fun w => ⟨b.words.set (p / 64) (f w)⟩) = some b' ∧
      b'.Represents n S' := by
  have hword : p / 64 < b.words.length := by
    rw [hb.length]
    exact div_lt_chunks hp
  rw [List.getElem?_eq_getElem hword]
  refine ⟨_, rfl, ?_, ?_, hlt⟩
  · rw [List.length_set, hb.length]
  · intro q
    rw [bit_set_word hword]
    split
    · rename_i heq
      refine hf _ q heq ?_
      rw [← hb.bit q]
      unfold Bitset.bit
      rw [← heq, List.getElem?_eq_getElem hword]
      rfl
    · rename_i hdiv
      rw [hb.bit q, hne q]
      rintro rfl
      exact hdiv rfl

/-- **Setting a position.** -/
theorem Represents.set {b : Bitset} {n : ℕ} {S : Finset ℕ} (hb : b.Represents n S) {p : ℕ}
    (hp : p < n) : ∃ b', b.set p = some b' ∧ b'.Represents n (insert p S) := by
  refine hb.setWord hp ?_ ?_ _ ?_
  · intro q hq
    rcases Finset.mem_insert.mp hq with rfl | hq
    · exact hp
    · exact hb.lt q hq
  · intro q hqp
    rw [Finset.mem_insert, or_iff_right hqp]
  · intro w q hdiv hw
    rw [BitVec.getLsbD_or, getLsbD_mask (Nat.mod_lt q (by decide)), Bool.or_eq_true, hw,
      decide_eq_true_iff, Finset.mem_insert, or_comm]
    refine or_congr_left ?_
    omega

/-- **Clearing a position.** -/
theorem Represents.clear {b : Bitset} {n : ℕ} {S : Finset ℕ} (hb : b.Represents n S) {p : ℕ}
    (hp : p < n) : ∃ b', b.clear p = some b' ∧ b'.Represents n (S.erase p) := by
  refine hb.setWord hp ?_ ?_ _ ?_
  · intro q hq
    exact hb.lt q (Finset.mem_of_mem_erase hq)
  · intro q hqp
    rw [Finset.mem_erase, and_iff_right hqp]
  · intro w q hdiv hw
    have hmod : q % 64 < 64 := Nat.mod_lt q (by decide)
    rw [BitVec.getLsbD_and, BitVec.getLsbD_not, getLsbD_mask hmod, Bool.and_eq_true, hw,
      Bool.and_eq_true, Bool.not_eq_true', decide_eq_true_iff, decide_eq_false_iff_not,
      Finset.mem_erase, and_comm]
    refine and_congr_left fun _ => ?_
    omega

/-- **One set has one description.** -/
theorem Represents.unique {b b' : Bitset} {n : ℕ} {S : Finset ℕ} (hb : b.Represents n S)
    (hb' : b'.Represents n S) : b = b' := by
  obtain ⟨v⟩ := b
  obtain ⟨w⟩ := b'
  have hlen : v.length = w.length := hb.length.trans hb'.length.symm
  refine congrArg Bitset.mk (List.ext_getElem hlen ?_)
  intro i hi hi'
  refine BitVec.eq_of_getLsbD_eq fun j hj => ?_
  -- bit `j` of word `i` is the position `64 * i + j`
  have hdiv : (64 * i + j) / 64 = i := by omega
  have hmod : (64 * i + j) % 64 = j := by omega
  have hbit : Bitset.bit ⟨v⟩ (64 * i + j) = Bitset.bit ⟨w⟩ (64 * i + j) := by
    rw [Bool.eq_iff_iff, hb.bit, hb'.bit]
  unfold Bitset.bit at hbit
  rw [hdiv, hmod, List.getElem?_eq_getElem hi, List.getElem?_eq_getElem hi'] at hbit
  exact hbit

/-- One description has one set. -/
theorem Represents.set_unique {b : Bitset} {n n' : ℕ} {S S' : Finset ℕ} (hb : b.Represents n S)
    (hb' : b.Represents n' S') : S = S' := by
  ext p
  rw [← hb.bit, hb'.bit]

end Bitset

end Mit6824
