/-
# Bitsets as finite sets

`bitset.go` once more.  A bitset is a slice, that is a pointer to an array of words: `set`
and `clear` write into the array, `clone` makes a new one.  Here the arrays are on a heap,
so that the changes of one bitset could show in another one.

* `HasBytes.popcntWord`, `toNat_popcnt`: the sums of `popcnt` over neighbouring fields of a
  word count its bits, for every word;
* `Op.exec`, `Op.effect`: an operation on the heap, and on the sets that the bitsets stand
  for;
* `bitset_refines_sets`: what a program sees of its bitsets are these sets.
-/
import Mathlib.Data.List.GetD
import Mit6824.Bitset
import Mit6824.ByteSums

namespace Mit6824.Bitset

open ByteSums

/-! ## Counting the bits of a word -/

/-- The eight bytes of a word, the lowest first. -/
structure HasBytes (v : BitVec 64) (l : List ℕ) : Prop where
  length : l.length = 8
  lt : ∀ x ∈ l, x < 2 ^ 8
  eq : v.toNat = Nat.ofDigits (2 ^ 8) l

theorem hasBytes_fields (v : BitVec 64) : HasBytes v (fields 8 8 v.toNat) := by
  refine ⟨length_fields 8 8 _, fun x hx => lt_of_mem_fields hx, ?_⟩
  have hlt : v.toNat < (2 ^ 8) ^ 8 := v.isLt
  exact (ofDigits_fields hlt).symm

/-- The word with the same byte eight times. -/
def splat (m : ℕ) : BitVec 64 :=
  BitVec.ofNat 64 (Nat.ofDigits (2 ^ 8) (List.replicate 8 m))

theorem toNat_splat {m : ℕ} (hm : m < 2 ^ 8) :
    (splat m).toNat = Nat.ofDigits (2 ^ 8) (List.replicate 8 m) := by
  have hlt : Nat.ofDigits (2 ^ 8) (List.replicate 8 m) < 2 ^ 64 := by
    have hbound := Nat.ofDigits_lt_base_pow_length (b := 2 ^ 8) (l := List.replicate 8 m)
      (by decide) (fun x hx => by rw [List.eq_of_mem_replicate hx]; exact hm)
    rwa [List.length_replicate] at hbound
  rw [splat, BitVec.toNat_ofNat, Nat.mod_eq_of_lt hlt]

/-- A sum over neighbouring fields that stays within the bytes. -/
theorem HasBytes.fold {v : BitVec 64} {l : List ℕ} (hv : HasBytes v l) (m m' s : ℕ)
    (hm : m < 2 ^ 8) (hm' : m' < 2 ^ 8) (hs : ∀ x < 2 ^ 8, 2 ^ s ∣ x &&& m')
    (hfit : ∀ x < 2 ^ 8, ByteSums.fold m m' s x < 2 ^ 8) :
    HasBytes ((v &&& splat m) + ((v &&& splat m') >>> s)) (l.map (ByteSums.fold m m' s)) := by
  have hlt : ∀ x ∈ l.map (ByteSums.fold m m' s), x < 2 ^ 8 := by
    intro x hx
    obtain ⟨y, hy, rfl⟩ := List.mem_map.mp hx
    exact hfit y (hv.lt y hy)
  have hlen : (l.map (ByteSums.fold m m' s)).length = 8 := by rw [List.length_map, hv.length]
  refine ⟨hlen, hlt, ?_⟩
  have hsum := fold_map hv.lt hm hm' hs
  rw [hv.length, ← hv.eq, ← toNat_splat hm, ← toNat_splat hm'] at hsum
  have hbound : Nat.ofDigits (2 ^ 8) (l.map (ByteSums.fold m m' s)) < 2 ^ 64 := by
    have hpow := Nat.ofDigits_lt_base_pow_length (b := 2 ^ 8) (by decide) hlt
    rwa [hlen] at hpow
  rw [BitVec.toNat_add, BitVec.toNat_ushiftRight, BitVec.toNat_and, BitVec.toNat_and, ← hsum]
  rw [← hsum] at hbound
  exact Nat.mod_eq_of_lt hbound

/-- The number of ones in a byte, as the three sums of `popcnt` compute it. -/
def byteCount (x : ℕ) : ℕ :=
  ByteSums.fold 0x0F 0xF0 4 (ByteSums.fold 0x33 0xCC 2 (ByteSums.fold 0x55 0xAA 1 x))

theorem byteCount_eq {x : ℕ} (hx : x < 2 ^ 8) : byteCount x = ones 8 x := by
  have hall : ∀ x : Fin 256, byteCount x = ones 8 x := by decide +kernel
  exact hall ⟨x, hx⟩

theorem ones_le (k v : ℕ) : ones k v ≤ k := by
  calc
    ones k v ≤ ∑ _i ∈ Finset.range k, 1 := Finset.sum_le_sum fun i _ => Bool.toNat_le _
    _ = k := by simp

/-- The wrapping product with a one in each byte, shifted to its highest byte. -/
theorem HasBytes.mul_splat_one {v : BitVec 64} {l : List ℕ} (hv : HasBytes v l)
    (hsum : l.sum < 2 ^ 8) : (((v * splat 1) >>> 56) &&& 0xFF#64).toNat = l.sum := by
  obtain ⟨x, l, rfl⟩ : ∃ x l', l = x :: l' := by
    cases l with
    | nil => cases hv.length
    | cons x l => exact ⟨x, l, rfl⟩
  have hlen : l.length = 7 := Nat.succ.inj hv.length
  rw [List.sum_cons] at hsum ⊢
  have htop := mul_repunit_top hsum
  rw [hlen, ← hv.eq] at htop
  have hone : (splat 1).toNat = repunit (2 ^ 8) 8 := toNat_splat (by decide)
  have hprod : ((v * splat 1) >>> 56).toNat = x + l.sum := by
    rw [BitVec.toNat_ushiftRight, BitVec.toNat_mul, hone, Nat.shiftRight_eq_div_pow, ← htop]
    rfl
  rw [BitVec.toNat_and, hprod]
  exact Nat.and_two_pow_sub_one_of_lt_two_pow hsum

/-- The sums stay within the bytes. -/
theorem HasBytes.popcntWord {v : BitVec 64} {l : List ℕ} (hv : HasBytes v l) :
    ∃ v', popcntWord v = ((v' * splat 1) >>> 56) &&& 0xFF#64 ∧
      HasBytes v' (l.map byteCount) := by
  have h₁ := hv.fold 0x55 0xAA 1 (by decide) (by decide) (by decide +kernel) (by decide +kernel)
  have h₂ := h₁.fold 0x33 0xCC 2 (by decide) (by decide) (by decide +kernel) (by decide +kernel)
  have h₃ := h₂.fold 0x0F 0xF0 4 (by decide) (by decide) (by decide +kernel) (by decide +kernel)
  rw [List.map_map, List.map_map] at h₃
  exact ⟨_, rfl, h₃⟩

/-- **The bits of a word.**  The sums never carry out of a byte, and the wrapping product
adds the eight counts up in the highest byte. -/
theorem toNat_popcntWord (v : BitVec 64) : (popcntWord v).toNat = ones 64 v.toNat := by
  have hbytes := hasBytes_fields v
  obtain ⟨v', hv', hcount⟩ := hbytes.popcntWord
  have hones : (fields 8 8 v.toNat).map byteCount = (fields 8 8 v.toNat).map (ones 8) := by
    apply List.map_congr_left
    intro x hx
    exact byteCount_eq (hbytes.lt x hx)
  have hsum : ((fields 8 8 v.toNat).map byteCount).sum = ones 64 v.toNat := by
    rw [hones]
    exact (ones_fields 8 8 v.toNat).symm
  have hsmall := ones_le 64 v.toNat
  rw [hv', hcount.mul_splat_one (by omega), hsum]

/-! ## Counting the bits of a bitset -/

/-- The words of a bitset, one after the other. -/
theorem bit_cons (w : BitVec 64) (ws : List (BitVec 64)) (p : ℕ) :
    Bitset.bit ⟨w :: ws⟩ p = if p < 64 then w.getLsbD p else Bitset.bit ⟨ws⟩ (p - 64) := by
  unfold Bitset.bit
  split
  · rename_i hp
    have hdiv : p / 64 = 0 := by omega
    have hmod : p % 64 = p := by omega
    rw [hdiv, hmod]
    rfl
  · rename_i hp
    have hdiv : p / 64 = (p - 64) / 64 + 1 := by omega
    have hmod : p % 64 = (p - 64) % 64 := by omega
    rw [hdiv, hmod]
    rfl

/-- The bits of the words are the bits of the bitset. -/
theorem sum_ones (ws : List (BitVec 64)) :
    (ws.map fun w => ones 64 w.toNat).sum =
      ∑ p ∈ Finset.range (64 * ws.length), (Bitset.bit ⟨ws⟩ p).toNat := by
  induction ws with
  | nil => rfl
  | cons w ws ih =>
      rw [List.map_cons, List.sum_cons, ih, List.length_cons, Nat.mul_succ, Nat.add_comm (64 * _),
        Finset.sum_range_add, ones]
      refine congrArg₂ (· + ·) ?_ ?_
      · apply Finset.sum_congr rfl
        intro p hp
        rw [bit_cons, if_pos (Finset.mem_range.mp hp), BitVec.testBit_toNat]
      · apply Finset.sum_congr rfl
        intro p _
        rw [bit_cons, if_neg (by omega), Nat.add_sub_cancel_left]

theorem toNat_foldl_popcntWord (ws : List (BitVec 64)) (total : BitVec 64) :
    (ws.foldl (fun total v => total + popcntWord v) total).toNat =
      (total.toNat + (ws.map fun w => ones 64 w.toNat).sum) % 2 ^ 64 := by
  induction ws generalizing total with
  | nil => exact (Nat.mod_eq_of_lt total.isLt).symm
  | cons w ws ih =>
      rw [List.foldl_cons, ih, BitVec.toNat_add, toNat_popcntWord, List.map_cons, List.sum_cons,
        Nat.mod_add_mod, Nat.add_assoc]

/-- **`popcnt` is the number of elements.** -/
theorem Represents.toNat_popcnt {b : Bitset} {n : ℕ} {S : Finset ℕ} (hb : b.Represents n S)
    (hn : n < 2 ^ 64) : b.popcnt.toNat = S.card := by
  have hmem : S = {p ∈ Finset.range (64 * b.words.length) | b.bit p = true} := by
    ext p
    rw [Finset.mem_filter, Finset.mem_range, hb.bit, iff_and_self]
    intro hp
    have hword := div_lt_chunks (hb.lt p hp)
    rw [hb.length]
    omega
  have hcard : S.card = (b.words.map fun w => ones 64 w.toNat).sum := by
    rw [sum_ones, hmem, Finset.card_filter]
    apply Finset.sum_congr rfl
    intro p _
    cases b.bit p <;> rfl
  have hle : S.card ≤ n := by
    have hsub : S ⊆ Finset.range n := fun p hp => Finset.mem_range.mpr (hb.lt p hp)
    simpa using Finset.card_le_card hsub
  have htotal := toNat_foldl_popcntWord b.words 0
  have hzero : (0 : BitVec 64).toNat = 0 := rfl
  rw [← hcard, hzero, Nat.zero_add, Nat.mod_eq_of_lt (by omega)] at htotal
  exact htotal

/-- `get` tells whether a position is in the set. -/
theorem Represents.get {b : Bitset} {n : ℕ} {S : Finset ℕ} (hb : b.Represents n S) {p : ℕ}
    (hp : p < n) : b.get p = some (decide (p ∈ S)) := by
  have hword : p / 64 < b.words.length := by
    rw [hb.length]
    exact div_lt_chunks hp
  have hmod : p % 64 < 64 := Nat.mod_lt p (by decide)
  have hbit : (b.words[p / 64] &&& (1#64 <<< (p % 64)) != 0#64) = b.bit p := by
    unfold Bitset.bit
    rw [List.getElem?_eq_getElem hword, Option.getD_some, Bool.eq_iff_iff, bne_iff_ne, ne_eq]
    constructor
    · intro hne
      by_contra hclear
      rw [Bool.not_eq_true] at hclear
      -- a word with this bit clear has nothing in common with the mask
      refine hne (BitVec.eq_of_getLsbD_eq fun j hj => ?_)
      rw [BitVec.getLsbD_and, getLsbD_mask hj, BitVec.getLsbD_zero]
      by_cases hpj : p % 64 = j
      · rw [← hpj, hclear, Bool.false_and]
      · rw [decide_eq_false hpj, Bool.and_false]
    · intro hset hzero
      have hcommon := congrArg (fun w => BitVec.getLsbD w (p % 64)) hzero
      simp only [BitVec.getLsbD_and, getLsbD_mask hmod, hset, BitVec.getLsbD_zero, decide_true,
        Bool.and_self, Bool.true_eq_false] at hcommon
  show (b.words[p / 64]?.map fun w => w &&& (1#64 <<< (p % 64)) != 0#64) = _
  rw [List.getElem?_eq_getElem hword, Option.map_some, hbit, Option.some_inj, Bool.eq_iff_iff,
    hb.bit, decide_eq_true_iff]

/-! ## Bitsets on a heap -/

/-- An operation of a program on its bitsets, which have the numbers `0`, `1`, … in the order
in which they were made. -/
inductive Op where
  | newBitset
  | clone (a : ℕ)
  | set (a pos : ℕ)
  | clear (a pos : ℕ)
  deriving DecidableEq, Repr

namespace Op

/-- An operation on the arrays; all bitsets are made for `n` positions. -/
def exec (n : ℕ) (heap : List Bitset) : Op → Option (List Bitset)
  | newBitset => some (heap ++ [Mit6824.newBitset n])
  | clone a => heap[a]?.map fun b => heap ++ [b.clone]
  | set a pos => (heap[a]?.bind fun b => b.set pos).map fun b => heap.set a b
  | clear a pos => (heap[a]?.bind fun b => b.clear pos).map fun b => heap.set a b

/-- The same operation on the sets. -/
def effect (sets : List (Finset ℕ)) : Op → List (Finset ℕ)
  | newBitset => sets ++ [∅]
  | clone a => sets ++ [sets.getD a ∅]
  | set a pos => sets.modify a (insert pos)
  | clear a pos => sets.modify a (·.erase pos)

/-- The bitset that an operation writes to. -/
def target : Op → Option ℕ
  | newBitset | clone _ => none
  | set a _ | clear a _ => some a

/-- The operation is on a bitset that has been made, and on a position below `n`. -/
def Legal (n count : ℕ) : Op → Prop
  | newBitset => True
  | clone a => a < count
  | set a pos | clear a pos => a < count ∧ pos < n

/-- All operations of a program are on bitsets that it has made, and on positions below `n`. -/
def LegalFrom (n : ℕ) : List (Finset ℕ) → List Op → Prop
  | _, [] => True
  | sets, op :: ops => op.Legal n sets.length ∧ LegalFrom n (op.effect sets) ops

instance decidableLegal (n count : ℕ) : (op : Op) → Decidable (op.Legal n count)
  | newBitset => inferInstanceAs (Decidable True)
  | clone a => inferInstanceAs (Decidable (a < count))
  | set a pos | clear a pos => inferInstanceAs (Decidable (a < count ∧ pos < n))

instance decidableLegalFrom (n : ℕ) :
    (sets : List (Finset ℕ)) → (ops : List Op) → Decidable (LegalFrom n sets ops)
  | _, [] => inferInstanceAs (Decidable True)
  | sets, op :: ops =>
      have := decidableLegalFrom n (op.effect sets) ops
      inferInstanceAs (Decidable (op.Legal n sets.length ∧ LegalFrom n (op.effect sets) ops))

end Op

/-- Every array describes its set. -/
structure Describes (n : ℕ) (heap : List Bitset) (sets : List (Finset ℕ)) : Prop where
  length : heap.length = sets.length
  represents : ∀ (a : ℕ) (b : Bitset) (S : Finset ℕ), heap[a]? = some b → sets[a]? = some S →
    b.Represents n S

theorem describes_nil (n : ℕ) : Describes n [] [] :=
  ⟨rfl, fun _ _ _ h => by cases h⟩

/-- One more array. -/
theorem Describes.append {n : ℕ} {heap : List Bitset} {sets : List (Finset ℕ)}
    (h : Describes n heap sets) {b : Bitset} {S : Finset ℕ} (hb : b.Represents n S) :
    Describes n (heap ++ [b]) (sets ++ [S]) := by
  refine ⟨?_, ?_⟩
  · rw [List.length_append, List.length_append, h.length]
    rfl
  · intro a b' S' hb' hS'
    rcases lt_trichotomy a heap.length with hlt | rfl | hgt
    · rw [List.getElem?_append_left hlt] at hb'
      rw [List.getElem?_append_left (h.length ▸ hlt)] at hS'
      exact h.represents a b' S' hb' hS'
    · rw [List.getElem?_concat_length] at hb'
      rw [h.length, List.getElem?_concat_length] at hS'
      cases hb'
      cases hS'
      exact hb
    · rw [List.getElem?_eq_none (by rw [List.length_append, List.length_singleton]; omega)] at hb'
      cases hb'

/-- One array changed. -/
theorem Describes.update {n : ℕ} {heap : List Bitset} {sets : List (Finset ℕ)}
    (h : Describes n heap sets) {a : ℕ} {f : Bitset → Option Bitset}
    {g : Finset ℕ → Finset ℕ} (ha : a < sets.length)
    (hf : ∀ b S, b.Represents n S → ∃ b', f b = some b' ∧ b'.Represents n (g S)) :
    ∃ heap', (heap[a]?.bind f).map (fun b => heap.set a b) = some heap' ∧
      Describes n heap' (sets.modify a g) := by
  have hheap : a < heap.length := by
    rw [h.length]
    exact ha
  obtain ⟨b', hb', hrep⟩ := hf _ _ (h.represents a _ _ (List.getElem?_eq_getElem hheap)
    (List.getElem?_eq_getElem ha))
  refine ⟨heap.set a b', ?_, ?_, ?_⟩
  · rw [List.getElem?_eq_getElem hheap, Option.bind_some, hb']
    rfl
  · rw [List.length_set, List.length_modify, h.length]
  · intro a' b S hb hS
    rw [List.getElem?_modify] at hS
    rcases eq_or_ne a a' with rfl | hne
    · rw [List.getElem?_set_self hheap] at hb
      simp only [List.getElem?_eq_getElem ha, if_true, Option.map_eq_map, Option.map_some] at hS
      cases hb
      cases hS
      exact hrep
    · rw [List.getElem?_set_ne hne] at hb
      simp only [if_neg hne, Option.map_eq_map, Option.map_id'] at hS
      exact h.represents a' b S hb hS

/-- **One operation.** -/
theorem Describes.exec {n : ℕ} {heap : List Bitset} {sets : List (Finset ℕ)}
    (h : Describes n heap sets) {op : Op} (hop : op.Legal n sets.length) :
    ∃ heap', op.exec n heap = some heap' ∧ Describes n heap' (op.effect sets) := by
  cases op with
  | newBitset => exact ⟨_, rfl, h.append (represents_newBitset n)⟩
  | clone a =>
      have ha : a < sets.length := hop
      have hheap : a < heap.length := h.length ▸ ha
      refine ⟨heap ++ [heap[a].clone], ?_, ?_⟩
      · show heap[a]?.map _ = _
        rw [List.getElem?_eq_getElem hheap]
        rfl
      · show Describes n _ (sets ++ [sets.getD a ∅])
        rw [List.getD_eq_getElem _ _ ha]
        exact h.append (h.represents a _ _ (List.getElem?_eq_getElem hheap)
          (List.getElem?_eq_getElem ha))
  | set a pos => exact h.update hop.1 fun b S hb => hb.set hop.2
  | clear a pos => exact h.update hop.1 fun b S hb => hb.clear hop.2

/-- **A whole program.** -/
theorem Describes.run {n : ℕ} {heap : List Bitset} {sets : List (Finset ℕ)}
    (h : Describes n heap sets) {ops : List Op} (hops : Op.LegalFrom n sets ops) :
    ∃ heap', ops.foldlM (Op.exec n) heap = some heap' ∧
      Describes n heap' (ops.foldl Op.effect sets) := by
  induction ops generalizing heap sets with
  | nil => exact ⟨heap, rfl, h⟩
  | cons op ops ih =>
      obtain ⟨heap₁, hexec, h₁⟩ := h.exec hops.1
      obtain ⟨heap₂, hrun, h₂⟩ := ih h₁ hops.2
      refine ⟨heap₂, ?_, h₂⟩
      rw [List.foldlM_cons, hexec]
      exact hrun

/-- An operation only changes the array that it writes to. -/
theorem exec_getElem? {n a : ℕ} {heap heap' : List Bitset} {op : Op} (ha : a < heap.length)
    (hop : op.target ≠ some a) (hexec : op.exec n heap = some heap') :
    heap'[a]? = heap[a]? ∧ a < heap'.length := by
  have hset : ∀ {a' : ℕ} {o : Option Bitset}, a' ≠ a →
      o.map (fun b => heap.set a' b) = some heap' → heap'[a]? = heap[a]? ∧ a < heap'.length := by
    intro a' o hne hsome
    obtain ⟨b, -, rfl⟩ := Option.map_eq_some_iff.mp hsome
    rw [List.getElem?_set_ne hne, List.length_set]
    exact ⟨rfl, ha⟩
  have happend : ∀ b, (heap ++ [b])[a]? = heap[a]? ∧ a < (heap ++ [b]).length := by
    intro b
    rw [List.getElem?_append_left ha, List.length_append]
    exact ⟨rfl, Nat.lt_add_right _ ha⟩
  cases op with
  | newBitset =>
      cases hexec
      exact happend _
  | clone a' =>
      obtain ⟨b, -, rfl⟩ := Option.map_eq_some_iff.mp hexec
      exact happend _
  | set a' pos => exact hset (fun heq => hop (congrArg some heq)) hexec
  | clear a' pos => exact hset (fun heq => hop (congrArg some heq)) hexec

/-- A program only changes the arrays that it writes to. -/
theorem run_getElem? {n a : ℕ} {heap heap' : List Bitset} {ops : List Op} (ha : a < heap.length)
    (hops : ∀ op ∈ ops, op.target ≠ some a) (hrun : ops.foldlM (Op.exec n) heap = some heap') :
    heap'[a]? = heap[a]? := by
  induction ops generalizing heap with
  | nil =>
      cases hrun
      rfl
  | cons op ops ih =>
      rw [List.foldlM_cons] at hrun
      obtain ⟨heap₁, hexec, hrest⟩ := Option.bind_eq_some_iff.mp hrun
      obtain ⟨hget, ha₁⟩ := exec_getElem? ha (hops op List.mem_cons_self) hexec
      rw [← hget]
      exact ih ha₁ (fun op' hop' => hops op' (List.mem_cons_of_mem op hop')) hrest

/-- **A bitset is a finite set.**  In a program that makes and clones bitsets for `n` positions
and sets and clears positions below `n`, no access to a word is out of range; `get` answers
whether a position is in the set that the operations describe; `popcnt` is the number of its
elements; `equals` holds of two bitsets just when their sets are the same, and then their
hashes are the same; and a bitset, such as a clone, keeps its words as long as the program
writes to others. -/
theorem bitset_refines_sets (n : BitVec 64) (ops : List Op)
    (hops : Op.LegalFrom n.toNat [] ops) :
    ∃ heap, ops.foldlM (Op.exec n.toNat) [] = some heap ∧
      heap.length = (ops.foldl Op.effect []).length ∧
      (∀ (a : ℕ) (b : Bitset) (S : Finset ℕ),
        heap[a]? = some b → (ops.foldl Op.effect [])[a]? = some S →
        (∀ p < n.toNat, b.get p = some (decide (p ∈ S))) ∧ b.popcnt.toNat = S.card ∧
        ∀ (a' : ℕ) (b' : Bitset) (S' : Finset ℕ),
          heap[a']? = some b' → (ops.foldl Op.effect [])[a']? = some S' →
          (b.equals b' = true ↔ S = S') ∧ (S = S' → b.hash = b'.hash)) ∧
      ∀ (a : ℕ) (ops' : List Op) (heap' : List Bitset), a < heap.length →
        (∀ op ∈ ops', op.target ≠ some a) →
        ops'.foldlM (Op.exec n.toNat) heap = some heap' → heap'[a]? = heap[a]? := by
  obtain ⟨heap, hrun, h⟩ := (describes_nil n.toNat).run hops
  refine ⟨heap, hrun, h.length, ?_, fun a ops' heap' => run_getElem?⟩
  intro a b S hb hS
  have hrep := h.represents a b S hb hS
  refine ⟨fun p => hrep.get, hrep.toNat_popcnt n.isLt, ?_⟩
  intro a' b' S' hb' hS'
  have hrep' := h.represents a' b' S' hb' hS'
  have heq : b = b' ↔ S = S' := by
    constructor
    · rintro rfl
      exact hrep.set_unique hrep'
    · rintro rfl
      exact hrep.unique hrep'
  refine ⟨equals_iff.trans heq, ?_⟩
  intro hS
  rw [heq.mpr hS]

/-- A clone is changed, then the original. -/
def changedClone : List Op :=
  [.newBitset, .set 0 3, .clone 0, .set 1 65, .clear 0 3]

theorem bitset_refines_sets_changedClone :
    Op.LegalFrom 70 [] changedClone ∧ ∃ heap, changedClone.foldlM (Op.exec 70) [] = some heap ∧
      heap.length = 2 ∧ ∀ b b' : Bitset, heap[0]? = some b → heap[1]? = some b' →
        b.get 3 = some false ∧ b'.get 3 = some true ∧ b'.get 65 = some true ∧
          b'.popcnt.toNat = 2 ∧ ¬ b.equals b' = true := by
  have hlegal : Op.LegalFrom 70 [] changedClone := by decide
  obtain ⟨heap, hrun, hlen, hsets, -⟩ := bitset_refines_sets 70#64 changedClone hlegal
  have heffect : changedClone.foldl Op.effect [] = [∅, {65, 3}] := by decide
  rw [heffect] at hlen hsets
  refine ⟨hlegal, heap, hrun, hlen, ?_⟩
  intro b b' hb hb'
  obtain ⟨hget, -, hequals⟩ := hsets 0 b _ hb rfl
  obtain ⟨hget', hcount, -⟩ := hsets 1 b' _ hb' rfl
  refine ⟨hget 3 (by decide), hget' 3 (by decide), hget' 65 (by decide), hcount, ?_⟩
  rw [(hequals 1 b' _ hb' rfl).1]
  decide

end Mit6824.Bitset
