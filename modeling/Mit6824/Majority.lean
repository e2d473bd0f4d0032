/-
# Majorities

More than half of a finite set of voters.  The one fact that elections and
commit decisions rest on is that two majorities share a voter.
-/
import Mathlib.Data.Fintype.Card
import Mathlib.Data.List.FinRange
import Mathlib.Tactic

variable {S : Type*} [Fintype S]

/-- More than half of all voters. -/
def IsMajority (Q : Finset S) : Prop :=
  Fintype.card S < 2 * Q.card

/-- **Two majorities share a voter.** -/
theorem IsMajority.inter {P Q : Finset S} (hP : IsMajority P) (hQ : IsMajority Q) :
    ∃ v, v ∈ P ∧ v ∈ Q := by
  classical
  by_contra hno
  push Not at hno
  have hdisj : Disjoint P Q := Finset.disjoint_left.mpr hno
  have hle : (P ∪ Q).card ≤ Fintype.card S := Finset.card_le_univ _
  rw [Finset.card_union_of_disjoint hdisj] at hle
  unfold IsMajority at *
  omega

/-- Above the rounded half is a majority. -/
theorem isMajority_of_half_lt {n : ℕ} {Q : Finset (Fin n)} (h : n / 2 < Q.card) :
    IsMajority Q := by
  unfold IsMajority
  rw [Fintype.card_fin]
  omega

/-- Counting over the list of all indices is counting a finite set. -/
theorem countP_finRange_eq_card {n : ℕ} (p : Fin n → Bool) :
    (List.finRange n).countP p = (Finset.univ.filter fun i => p i = true).card := by
  rw [List.countP_eq_length_filter, ← List.toFinset_card_of_nodup
    ((List.nodup_finRange n).filter p)]
  congr 1
  ext i
  simp
