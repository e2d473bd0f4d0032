/-
# Straight-line programs beside an environment

A goroutine that works through a list of operations, one at a time, while everybody else runs in
between.  The operations act on a part of the state that nobody else touches, so that what the
rest of the list will do is known at every moment: `Safely` says of a state and of the operations
that are left that each of them will find its precondition and that the end will be in order.  It
is kept by executing the first operation, and that is all that an invariant over interleaved runs
needs to know of the program.

* `safely_append`, `safely_flatMap`: the rules for sequences and loops;
* `safely_of_forall`: a property that every operation keeps.
-/
import Mathlib.Tactic

namespace Straightline

variable {σ ο ι : Type*} {exec : σ → ο → Option σ}

/-- Every operation finds its precondition, and the state at the end meets `post`; an operation
that is not enabled ends the program. -/
def Safely (exec : σ → ο → Option σ) (pre : σ → ο → Prop) (post : σ → Prop) : σ → List ο → Prop
  | s, [] => post s
  | s, o :: l => pre s o ∧ ∀ s', exec s o = some s' → Safely exec pre post s' l

variable {pre : σ → ο → Prop} {post post' : σ → Prop} {s s' : σ} {l₁ l₂ : List ο}

/-- The rule for a sequence. -/
theorem safely_append : Safely exec pre post s (l₁ ++ l₂) ↔
    Safely exec pre (fun s' => Safely exec pre post s' l₂) s l₁ := by
  induction l₁ generalizing s with
  | nil => exact Iff.rfl
  | cons o l ih => simp only [List.cons_append, Safely, ih]

theorem Safely.mono (h : Safely exec pre post s l₁) (hpost : ∀ s, post s → post' s) :
    Safely exec pre post' s l₁ := by
  induction l₁ generalizing s with
  | nil => exact hpost s h
  | cons o l ih => exact ⟨h.1, fun s' hs' => ih (h.2 s' hs')⟩

/-- A property that all operations keep. -/
theorem safely_of_forall {I : σ → Prop} (hs : I s)
    (h : ∀ o ∈ l₁, ∀ s, I s → pre s o ∧ ∀ s', exec s o = some s' → I s') :
    Safely exec pre I s l₁ := by
  induction l₁ generalizing s with
  | nil => exact hs
  | cons o l ih =>
      obtain ⟨hpre, hkeep⟩ := h o List.mem_cons_self s hs
      refine ⟨hpre, fun s' hs' => ih (hkeep s' hs') ?_⟩
      exact fun o' ho' => h o' (List.mem_cons_of_mem o ho')

/-- **The rule for a loop.**  The invariant speaks about the rounds that are done. -/
theorem safely_flatMap {body : ι → List ο} {I : List ι → σ → Prop} (l : List ι)
    (hbody : ∀ done j s, I done s → Safely exec pre (I (done ++ [j])) s (body j)) :
    ∀ {done : List ι} {s : σ}, I done s → Safely exec pre (I (done ++ l)) s (l.flatMap body) := by
  induction l with
  | nil =>
      intro done s hs
      rw [List.append_nil]
      exact hs
  | cons j l ih =>
      intro done s hs
      rw [List.flatMap_cons, safely_append]
      refine (hbody done j s hs).mono fun s' hs' => ?_
      have hrest := ih hs'
      rwa [List.append_assoc] at hrest

/-- A loop with one operation in each round. -/
theorem safely_map {f : ι → ο} {I : List ι → σ → Prop} (l : List ι)
    (hbody : ∀ done j s, I done s →
      pre s (f j) ∧ ∀ s', exec s (f j) = some s' → I (done ++ [j]) s') (hs : I [] s) :
    Safely exec pre (I l) s (l.map f) := by
  rw [List.map_eq_flatMap]
  have hround : ∀ done j s, I done s → Safely exec pre (I (done ++ [j])) s [f j] :=
    fun done j s h => hbody done j s h
  exact safely_flatMap l hround hs

end Straightline
