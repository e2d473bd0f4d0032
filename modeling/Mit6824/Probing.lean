/-
# Probes and their answers

A party keeps an index `next`, sends probes for it from time to time, and changes it only
when an answer to one of its probes arrives.  Answers may be late and out of order, so an
answer may be about an index that has been given up long ago.

* `eventually_fresh`: when every probe is answered at most once, the answers to a finite
  number of probes are over at some time.
* `eventually_le`: when an answer moves `next` to a bound that grows, or below the index of
  the probe that it answers, and answers keep coming, then `next` is in the end below the
  bound for good.  A late answer can raise `next` again, but only below the index of a probe
  sent before; the old probes run out, and the excess over the bound goes down one by one.
-/
import Mathlib.Order.Filter.AtTopBot.Basic
import Mathlib.Order.Filter.AtTopBot.Finite
import Mathlib.Tactic

namespace Probing

open Filter

/-- **Old probes run out.**  `answered j q` says that probe number `q` is answered at the
moment `j`. -/
theorem eventually_fresh (answered : ℕ → ℕ → Prop)
    (honce : ∀ q j j', answered j q → answered j' q → j = j') (N : ℕ) :
    ∀ᶠ j in atTop, ∀ q, answered j q → N ≤ q := by
  induction N with
  | zero => exact Eventually.of_forall fun j q _ => Nat.zero_le q
  | succ N ih =>
      -- the answer to the last probe, if there is one, comes at one moment
      have hlast : ∀ᶠ j in atTop, ¬ answered j N := by
        by_cases h : ∃ j, answered j N
        · obtain ⟨j₀, hj₀⟩ := h
          refine (eventually_gt_atTop j₀).mono fun j hj hans => ?_
          exact absurd (honce N j₀ j hj₀ hans) hj.ne
        · exact Eventually.of_forall fun j hans => h ⟨j, hans⟩
      filter_upwards [ih, hlast] with j hold hnew q hq
      rcases (hold q hq).eq_or_lt with rfl | hlt
      · exact absurd hq hnew
      · exact hlt

section Chase

variable {next bound : ℕ → ℕ} {reply : ℕ → ℕ → Prop}

/-- An answer that moves `next` at the moment `j` to the bound or below the index probed at
the moment `t`. -/
def Backs (next bound : ℕ → ℕ) (j t : ℕ) : Prop :=
  next (j + 1) ≤ bound (j + 1) ∨ next (j + 1) < next t

/-- The index never goes far beyond the bound. -/
theorem exists_excess (hmono : Monotone bound) (hpast : ∀ j t, reply j t → t ≤ j)
    (hkeep : ∀ᶠ j in atTop, (∀ t, ¬ reply j t) → next (j + 1) = next j)
    (hback : ∀ᶠ j in atTop, ∀ t, reply j t → Backs next bound j t) :
    ∃ b, ∀ j, next j ≤ max b (bound j) := by
  obtain ⟨J, hJ⟩ := eventually_atTop.mp (hkeep.and hback)
  refine ⟨(Finset.range (J + 1)).sup next, fun j => ?_⟩
  -- by induction on the moment: an answer falls behind an earlier value
  induction j using Nat.strong_induction_on with
  | _ j ih =>
      by_cases hj : j ≤ J
      · exact le_max_of_le_left (Finset.le_sup (Finset.mem_range.mpr (by omega)))
      · obtain ⟨i, rfl⟩ : ∃ i, j = i + 1 := ⟨j - 1, by omega⟩
        obtain ⟨hkeepi, hbacki⟩ := hJ i (by omega)
        have hbound : bound i ≤ bound (i + 1) := hmono (Nat.le_succ i)
        by_cases hreply : ∃ t, reply i t
        · obtain ⟨t, ht⟩ := hreply
          rcases hbacki t ht with hle | hlt
          · exact le_max_of_le_right hle
          · have hti : t ≤ i := hpast i t ht
            have hih := ih t (by omega)
            have hbt : bound t ≤ bound (i + 1) := hmono (by omega)
            omega
        · rw [hkeepi fun t ht => hreply ⟨t, ht⟩]
          have hih := ih i (by omega)
          omega

/-- One answer less the excess: if `next` is at most `b + 1` above the bound, then in the
end it is at most `b` above. -/
theorem eventually_less {b : ℕ} (hmono : Monotone bound) (hpast : ∀ j t, reply j t → t ≤ j)
    (hfresh : ∀ k, ∀ᶠ j in atTop, ∀ t, reply j t → k ≤ t)
    (hoften : ∃ᶠ j in atTop, ∃ t, reply j t)
    (hkeep : ∀ᶠ j in atTop, (∀ t, ¬ reply j t) → next (j + 1) = next j)
    (hback : ∀ᶠ j in atTop, ∀ t, reply j t → Backs next bound j t)
    (hb : ∀ᶠ j in atTop, next j ≤ max (b + 1) (bound j)) :
    ∀ᶠ j in atTop, next j ≤ max b (bound j) := by
  obtain ⟨J, hJ⟩ := eventually_atTop.mp hb
  obtain ⟨J', hJ'⟩ := eventually_atTop.mp ((hfresh J).and (hkeep.and hback))
  -- from `J'` on, every answer is to a probe that was sent within the old excess
  have hanswer : ∀ j ≥ J', ∀ t, reply j t → next (j + 1) ≤ max b (bound (j + 1)) := by
    intro j hj t ht
    obtain ⟨hfreshj, -, hbackj⟩ := hJ' j hj
    rcases hbackj t ht with hle | hlt
    · exact le_max_of_le_right hle
    · have hprobe := hJ t (hfreshj t ht)
      have htj := hpast j t ht
      have hbt : bound t ≤ bound (j + 1) := hmono (by omega)
      omega
  obtain ⟨j₀, hj₀, t₀, ht₀⟩ := frequently_atTop.mp hoften J'
  refine eventually_atTop.mpr ⟨j₀ + 1, fun j hj => ?_⟩
  induction j, hj using Nat.le_induction with
  | base => exact hanswer j₀ hj₀ t₀ ht₀
  | succ j hj ih =>
      obtain ⟨-, hkeepj, -⟩ := hJ' j (by omega)
      by_cases hreply : ∃ t, reply j t
      · obtain ⟨t, ht⟩ := hreply
        exact hanswer j (by omega) t ht
      · rw [hkeepj fun t ht => hreply ⟨t, ht⟩]
        have hbound : bound j ≤ bound (j + 1) := hmono (Nat.le_succ j)
        omega

/-- **The index comes down to the bound.**  `reply j t` says that at the moment `j` a probe
sent at the moment `t` is answered. -/
theorem eventually_le (next bound : ℕ → ℕ) (reply : ℕ → ℕ → Prop) (hmono : Monotone bound)
    (hpast : ∀ j t, reply j t → t ≤ j)
    (hfresh : ∀ k, ∀ᶠ j in atTop, ∀ t, reply j t → k ≤ t)
    (hoften : ∃ᶠ j in atTop, ∃ t, reply j t)
    (hkeep : ∀ᶠ j in atTop, (∀ t, ¬ reply j t) → next (j + 1) = next j)
    (hback : ∀ᶠ j in atTop, ∀ t, reply j t → Backs next bound j t) :
    ∀ᶠ j in atTop, next j ≤ bound j := by
  have hdown : ∀ b, (∀ᶠ j in atTop, next j ≤ max b (bound j)) →
      ∀ᶠ j in atTop, next j ≤ bound j := by
    intro b
    induction b with
    | zero =>
        intro h
        exact h.mono fun j hj => by omega
    | succ b ih =>
        intro h
        exact ih (eventually_less hmono hpast hfresh hoften hkeep hback h)
  obtain ⟨b, hb⟩ := exists_excess hmono hpast hkeep hback
  exact hdown b (Eventually.of_forall hb)

end Chase

end Probing
