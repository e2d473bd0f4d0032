/-
# Numbers as lists of fields

A machine word is often used as a row of fields of `w` bits, all of them computed with
at once.  Here a number is the list of its fields, the lowest first, and the operations on
the number are operations on each field.

* `fields`: the first `k` fields of a number, which make up the number when it has no
  more (`ofDigits_fields`);
* `and_replicate`, `shiftRight_map`, `add_map`: a mask that is the same in every field, a
  shift by no more than the bits that are known to be zero, and a sum;
* `fold_map`: adding the bits under one mask to those under another one, field by field.
  No carry leaves a field because the fields are numbers, not bits: a field may become as
  large as it likes, and only the next mask asks that it fits;
* `mul_repunit_top`: a product with a number of ones has the sum of all fields in its
  highest field;
* `ones`: the number of ones below a position, field by field (`ones_fields`).
-/
import Mathlib.Algebra.BigOperators.Intervals
import Mathlib.Data.Nat.Digits.Defs
import Mathlib.Tactic

namespace ByteSums

variable {w : ℕ}

/-! ## Fields -/

/-- The first `k` fields of a number. -/
def fields (w : ℕ) : ℕ → ℕ → List ℕ
  | 0, _ => []
  | k + 1, v => v % 2 ^ w :: fields w k (v / 2 ^ w)

theorem length_fields (w k v : ℕ) : (fields w k v).length = k := by
  induction k generalizing v with
  | zero => rfl
  | succ k ih => rw [fields, List.length_cons, ih]

theorem lt_of_mem_fields {k v x : ℕ} (hx : x ∈ fields w k v) : x < 2 ^ w := by
  induction k generalizing v with
  | zero => cases hx
  | succ k ih =>
      rcases List.mem_cons.mp hx with rfl | hx
      · exact Nat.mod_lt _ (Nat.two_pow_pos w)
      · exact ih hx

theorem ofDigits_fields {k v : ℕ} (hv : v < (2 ^ w) ^ k) :
    Nat.ofDigits (2 ^ w) (fields w k v) = v := by
  induction k generalizing v with
  | zero =>
      have hzero : v = 0 := by simpa using hv
      rw [hzero]
      rfl
  | succ k ih =>
      have hdiv : v / 2 ^ w < (2 ^ w) ^ k := by
        rw [Nat.div_lt_iff_lt_mul (Nat.two_pow_pos w), ← pow_succ]
        exact hv
      rw [fields, Nat.ofDigits_cons, ih hdiv, Nat.mod_add_div]

/-! ## Operations on all fields -/

/-- Two numbers are split at the same bit. -/
theorem and_add_mul {a b x y : ℕ} (ha : a < 2 ^ w) (hb : b < 2 ^ w) :
    (a + 2 ^ w * x) &&& (b + 2 ^ w * y) = (a &&& b) + 2 ^ w * (x &&& y) := by
  have hmod : ∀ {c z : ℕ}, c < 2 ^ w → (c + 2 ^ w * z) % 2 ^ w = c := by
    intro c z hc
    rw [Nat.add_mul_mod_self_left, Nat.mod_eq_of_lt hc]
  have hdiv : ∀ {c z : ℕ}, c < 2 ^ w → (c + 2 ^ w * z) / 2 ^ w = z := by
    intro c z hc
    rw [Nat.add_mul_div_left _ _ (Nat.two_pow_pos w), Nat.div_eq_of_lt hc, Nat.zero_add]
  rw [← Nat.mod_add_div ((a + 2 ^ w * x) &&& (b + 2 ^ w * y)) (2 ^ w), Nat.and_mod_two_pow,
    Nat.and_div_two_pow, hmod ha, hmod hb, hdiv ha, hdiv hb]

/-- The same mask in every field. -/
theorem and_replicate {l : List ℕ} (hl : ∀ x ∈ l, x < 2 ^ w) {m : ℕ} (hm : m < 2 ^ w) :
    Nat.ofDigits (2 ^ w) l &&& Nat.ofDigits (2 ^ w) (List.replicate l.length m) =
      Nat.ofDigits (2 ^ w) (l.map (· &&& m)) := by
  induction l with
  | nil => simp
  | cons x l ih =>
      rw [List.length_cons, List.replicate_succ, List.map_cons, Nat.ofDigits_cons,
        Nat.ofDigits_cons, Nat.ofDigits_cons, and_add_mul (hl x List.mem_cons_self) hm,
        ih fun y hy => hl y (List.mem_cons_of_mem x hy)]

/-- A shift within the fields. -/
theorem shiftRight_map {l : List ℕ} {s : ℕ} (hl : ∀ x ∈ l, 2 ^ s ∣ x) :
    Nat.ofDigits (2 ^ w) l >>> s = Nat.ofDigits (2 ^ w) (l.map (· >>> s)) := by
  have hmul : Nat.ofDigits (2 ^ w) l = 2 ^ s * Nat.ofDigits (2 ^ w) (l.map (· >>> s)) := by
    induction l with
    | nil => rfl
    | cons x l ih =>
        have hx : 2 ^ s * (x >>> s) = x := by
          rw [Nat.shiftRight_eq_div_pow, Nat.mul_div_cancel' (hl x List.mem_cons_self)]
        rw [List.map_cons, Nat.ofDigits_cons, Nat.ofDigits_cons, mul_add, hx,
          ih fun y hy => hl y (List.mem_cons_of_mem x hy), mul_left_comm]
  rw [hmul, Nat.shiftRight_eq_div_pow, Nat.mul_div_cancel_left _ (Nat.two_pow_pos s)]

theorem add_map (b : ℕ) (f g : ℕ → ℕ) (l : List ℕ) :
    Nat.ofDigits b (l.map f) + Nat.ofDigits b (l.map g) =
      Nat.ofDigits b (l.map fun x => f x + g x) := by
  induction l with
  | nil => rfl
  | cons x l ih =>
      rw [List.map_cons, List.map_cons, List.map_cons, Nat.ofDigits_cons, Nat.ofDigits_cons,
        Nat.ofDigits_cons, ← ih]
      ring

/-- Add the bits of a field under one mask to those under another. -/
def fold (m m' s x : ℕ) : ℕ :=
  (x &&& m) + ((x &&& m') >>> s)

/-- **Folding a number folds its fields.** -/
theorem fold_map {l : List ℕ} (hl : ∀ x ∈ l, x < 2 ^ w) {m m' s : ℕ} (hm : m < 2 ^ w)
    (hm' : m' < 2 ^ w) (hs : ∀ x < 2 ^ w, 2 ^ s ∣ x &&& m') :
    fold (Nat.ofDigits (2 ^ w) (List.replicate l.length m))
        (Nat.ofDigits (2 ^ w) (List.replicate l.length m')) s (Nat.ofDigits (2 ^ w) l) =
      Nat.ofDigits (2 ^ w) (l.map (fold m m' s)) := by
  have hshift : ∀ x ∈ l.map (· &&& m'), 2 ^ s ∣ x := by
    intro x hx
    obtain ⟨y, hy, rfl⟩ := List.mem_map.mp hx
    exact hs y (hl y hy)
  rw [fold, and_replicate hl hm, and_replicate hl hm', shiftRight_map hshift, List.map_map,
    add_map]
  rfl

/-! ## The sum of the fields -/

/-- The number with a one in each of `k` fields. -/
def repunit (b k : ℕ) : ℕ :=
  Nat.ofDigits b (List.replicate k 1)

theorem repunit_succ (b k : ℕ) : repunit b (k + 1) = 1 + b * repunit b k := by
  rw [repunit, List.replicate_succ, Nat.ofDigits_cons]
  rfl

theorem repunit_succ' (b k : ℕ) : repunit b (k + 1) = repunit b k + b ^ k := by
  rw [repunit, List.replicate_succ', Nat.ofDigits_append, List.length_replicate,
    Nat.ofDigits_singleton, mul_one]
  rfl

theorem sub_one_mul_repunit_lt {b : ℕ} (hb : 0 < b) (k : ℕ) : (b - 1) * repunit b k < b ^ k := by
  obtain ⟨c, rfl⟩ : ∃ c, b = c + 1 := ⟨b - 1, by omega⟩
  rw [Nat.add_sub_cancel]
  -- both ways to split off a field of the number with one field more
  have hsplit : repunit (c + 1) k + (c + 1) ^ k = 1 + (c + 1) * repunit (c + 1) k := by
    rw [← repunit_succ', repunit_succ]
  have hmul : (c + 1) * repunit (c + 1) k = c * repunit (c + 1) k + repunit (c + 1) k := by ring
  omega

/-- In the product with a number of ones, the field of the highest one has the sum of all
fields, the fields below have sums of some of them. -/
theorem mul_repunit (b x : ℕ) (l : List ℕ) :
    ∃ q r, Nat.ofDigits b (x :: l) * repunit b (l.length + 1) =
        q * b ^ (l.length + 1) + (x + l.sum) * b ^ l.length + r ∧
      r ≤ (x + l.sum) * repunit b l.length := by
  induction l generalizing x with
  | nil => exact ⟨0, 0, by simp [repunit], Nat.zero_le _⟩
  | cons y l ih =>
      obtain ⟨q, r, hprod, hr⟩ := ih y
      refine ⟨q + Nat.ofDigits b (y :: l), x * repunit b (l.length + 1) + b * r, ?_, ?_⟩
      · rw [List.length_cons, Nat.ofDigits_cons, repunit_succ', List.sum_cons, add_mul, mul_add,
          mul_add, mul_assoc b, mul_assoc b, hprod]
        ring
      · have hb : b * r ≤ (y + l.sum) * repunit b (l.length + 1) := by
          calc
            b * r ≤ b * ((y + l.sum) * repunit b l.length) := Nat.mul_le_mul_left b hr
            _ = (y + l.sum) * (b * repunit b l.length) := by ring
            _ ≤ (y + l.sum) * repunit b (l.length + 1) := by
              rw [repunit_succ]
              exact Nat.mul_le_mul_left _ (Nat.le_add_left _ _)
        rw [List.length_cons, List.sum_cons, add_mul x]
        exact Nat.add_le_add_left hb _

/-- **The highest field of the product is the sum of the fields**, if this fits in a field. -/
theorem mul_repunit_top {b x : ℕ} {l : List ℕ} (h : x + l.sum < b) :
    Nat.ofDigits b (x :: l) * repunit b (l.length + 1) % b ^ (l.length + 1) / b ^ l.length =
      x + l.sum := by
  obtain ⟨q, r, hprod, hr⟩ := mul_repunit b x l
  have hb : 0 < b := by omega
  have hlow : r < b ^ l.length := by
    calc
      r ≤ (x + l.sum) * repunit b l.length := hr
      _ ≤ (b - 1) * repunit b l.length := Nat.mul_le_mul_right _ (by omega)
      _ < b ^ l.length := sub_one_mul_repunit_lt hb l.length
  have hsum : (x + l.sum) * b ^ l.length + r < b ^ (l.length + 1) := by
    calc
      (x + l.sum) * b ^ l.length + r < (x + l.sum) * b ^ l.length + b ^ l.length :=
        Nat.add_lt_add_left hlow _
      _ = (x + l.sum + 1) * b ^ l.length := by ring
      _ ≤ b * b ^ l.length := Nat.mul_le_mul_right _ h
      _ = b ^ (l.length + 1) := (pow_succ' b l.length).symm
  rw [hprod, add_assoc, Nat.mul_add_mod_self_right, Nat.mod_eq_of_lt hsum, add_comm,
    Nat.add_mul_div_right _ _ (Nat.pow_pos hb), Nat.div_eq_of_lt hlow, Nat.zero_add]

/-! ## Counting ones -/

/-- The number of ones below a position. -/
def ones (k v : ℕ) : ℕ :=
  ∑ i ∈ Finset.range k, (v.testBit i).toNat

theorem ones_add (k n v : ℕ) : ones (k + n) v = ones k (v % 2 ^ k) + ones n (v / 2 ^ k) := by
  rw [ones, Finset.sum_range_add, ones, ones]
  congr 1
  · refine Finset.sum_congr rfl ?_
    intro i hi
    rw [Nat.testBit_mod_two_pow, decide_eq_true (Finset.mem_range.mp hi), Bool.true_and]
  · refine Finset.sum_congr rfl ?_
    intro i _
    rw [Nat.testBit_div_two_pow, Nat.add_comm]

/-- The ones are counted field by field. -/
theorem ones_fields (w k v : ℕ) : ones (w * k) v = ((fields w k v).map (ones w)).sum := by
  induction k generalizing v with
  | zero => rfl
  | succ k ih => rw [Nat.mul_succ, Nat.add_comm, ones_add, ih, fields, List.map_cons, List.sum_cons]

end ByteSums
