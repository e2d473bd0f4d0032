/-
# Walks of a graph that mark what they have seen

A walk from some roots marks every node before it goes on to the children of the node, and
never enters a marked node.

* `Extends`: the marks before and after a walk.  A walk from several roots is a walk from
  each of them in turn (`Extends.append`), and a walk from an unmarked node is a walk from
  its children after the node is marked (`Extends.visit`).  From no marks at all, the walk
  marks what is reachable (`Extends.mem_iff`);
* `Walks`: such a walk that also adds up the weights of the nodes that it marks, where the
  weight of a node may be added in parts while its children are visited.
-/
import Mathlib.Algebra.BigOperators.Group.Finset.Basic
import Mathlib.Logic.Relation
import Mathlib.Tactic.Abel

namespace Traversal

variable {T : Type*} {next : T → List T}

/-- A path leads from one node to the other. -/
def Reaches (next : T → List T) : T → T → Prop :=
  Relation.ReflTransGen fun a b => b ∈ next a

/-! ## The marks -/

/-- A walk from `roots` turns the marks `seen` into `seen'`. -/
structure Extends (next : T → List T) (seen : Finset T) (roots : List T)
    (seen' : Finset T) : Prop where
  subset : seen ⊆ seen'
  starts : ∀ t ∈ roots, t ∈ seen'
  closed : ∀ t ∈ seen', t ∉ seen → ∀ child ∈ next t, child ∈ seen'
  reached : ∀ t ∈ seen', t ∉ seen → ∃ root ∈ roots, Reaches next root t

/-- Nothing is visited from no roots. -/
theorem Extends.nil (seen : Finset T) : Extends next seen [] seen where
  subset := Finset.Subset.refl seen
  starts := by simp
  closed := fun _ ht hnot => absurd ht hnot
  reached := fun _ ht hnot => absurd ht hnot

/-- A root that is marked already is not entered. -/
theorem Extends.marked {seen : Finset T} {t : T} (ht : t ∈ seen) :
    Extends next seen [t] seen where
  subset := Finset.Subset.refl seen
  starts := by simpa using ht
  closed := fun _ hmem hnot => absurd hmem hnot
  reached := fun _ hmem hnot => absurd hmem hnot

/-- Roots can be visited one after the other. -/
theorem Extends.append {seen seen₁ seen₂ : Finset T} {roots₁ roots₂ : List T}
    (h₁ : Extends next seen roots₁ seen₁) (h₂ : Extends next seen₁ roots₂ seen₂) :
    Extends next seen (roots₁ ++ roots₂) seen₂ where
  subset := h₁.subset.trans h₂.subset
  starts t ht := by
    rcases List.mem_append.1 ht with ht | ht
    · exact h₂.subset (h₁.starts t ht)
    · exact h₂.starts t ht
  closed t ht hnot child hchild := by
    by_cases hmid : t ∈ seen₁
    · exact h₂.subset (h₁.closed t hmid hnot child hchild)
    · exact h₂.closed t ht hmid child hchild
  reached t ht hnot := by
    by_cases hmid : t ∈ seen₁
    · obtain ⟨root, hroot, hpath⟩ := h₁.reached t hmid hnot
      exact ⟨root, List.mem_append_left _ hroot, hpath⟩
    · obtain ⟨root, hroot, hpath⟩ := h₂.reached t ht hmid
      exact ⟨root, List.mem_append_right _ hroot, hpath⟩

/-- A root is marked before its successors are visited. -/
theorem Extends.visit [DecidableEq T] {seen seen' : Finset T} {t : T}
    (h : Extends next (insert t seen) (next t) seen') : Extends next seen [t] seen' where
  subset := (Finset.subset_insert t seen).trans h.subset
  starts := by simpa using h.subset (Finset.mem_insert_self t seen)
  closed x hx hnot child hchild := by
    by_cases hxt : x = t
    · subst hxt
      exact h.starts child hchild
    · exact h.closed x hx (by simp [hxt, hnot]) child hchild
  reached x hx hnot := by
    refine ⟨t, List.mem_singleton_self t, ?_⟩
    by_cases hxt : x = t
    · subst hxt
      exact Relation.ReflTransGen.refl
    · obtain ⟨child, hchild, hpath⟩ := h.reached x hx (by simp [hxt, hnot])
      exact Relation.ReflTransGen.head hchild hpath

/-- From an empty set, what is visited is what can be reached. -/
theorem Extends.mem_iff {roots : List T} {seen : Finset T} (h : Extends next ∅ roots seen)
    {t : T} : t ∈ seen ↔ ∃ root ∈ roots, Reaches next root t := by
  constructor
  · intro ht
    exact h.reached t ht (Finset.notMem_empty t)
  · rintro ⟨root, hroot, hpath⟩
    induction hpath with
    | refl => exact h.starts root hroot
    | tail _ hchild ih => exact h.closed _ ih (Finset.notMem_empty _) _ hchild

/-! ## The weights -/

section

variable {M : Type*} [AddCommMonoid M]

/-- A walk from `roots` turns the marks `seen` and the total `total` into `seen'` and
`total'`.  Of the total, `own` belongs to nodes that were marked before. -/
structure Walks (next : T → List T) (weight : T → M) (seen : Finset T) (total : M)
    (roots : List T) (own : M) (seen' : Finset T) (total' : M) : Prop where
  marks : Extends next seen roots seen'
  total : total' + ∑ t ∈ seen, weight t = total + own + ∑ t ∈ seen', weight t

variable {weight : T → M} {seen seen₁ seen₂ : Finset T} {total total₁ total₂ : M}

/-- A part of the weight of the node whose children are being visited. -/
theorem Walks.own (seen : Finset T) (total own : M) :
    Walks next weight seen total [] own seen (total + own) where
  marks := .nil seen
  total := rfl

theorem Walks.marked {t : T} (ht : t ∈ seen) :
    Walks next weight seen total [t] 0 seen total where
  marks := .marked ht
  total := by rw [add_zero]

end

section

variable {M : Type*} [AddCancelCommMonoid M]
variable {weight : T → M} {seen seen₁ seen₂ : Finset T} {total total₁ total₂ : M}

theorem Walks.append {roots₁ roots₂ : List T} {own₁ own₂ : M}
    (h₁ : Walks next weight seen total roots₁ own₁ seen₁ total₁)
    (h₂ : Walks next weight seen₁ total₁ roots₂ own₂ seen₂ total₂) :
    Walks next weight seen total (roots₁ ++ roots₂) (own₁ + own₂) seen₂ total₂ where
  marks := h₁.marks.append h₂.marks
  total := by
    -- Both equations hold with the weight of the marks in between on each side.
    apply add_right_cancel (b := ∑ t ∈ seen₁, weight t)
    calc total₂ + ∑ t ∈ seen, weight t + ∑ t ∈ seen₁, weight t
        = total₂ + ∑ t ∈ seen₁, weight t + ∑ t ∈ seen, weight t := add_right_comm _ _ _
      _ = total₁ + own₂ + ∑ t ∈ seen₂, weight t + ∑ t ∈ seen, weight t := by rw [h₂.total]
      _ = total₁ + ∑ t ∈ seen, weight t + (own₂ + ∑ t ∈ seen₂, weight t) := by abel
      _ = total + own₁ + ∑ t ∈ seen₁, weight t + (own₂ + ∑ t ∈ seen₂, weight t) := by
        rw [h₁.total]
      _ = total + (own₁ + own₂) + ∑ t ∈ seen₂, weight t + ∑ t ∈ seen₁, weight t := by abel

/-- The node is marked, and its weight is added while its children are visited. -/
theorem Walks.visit [DecidableEq T] {t : T} (ht : t ∉ seen)
    (h : Walks next weight (insert t seen) total (next t) (weight t) seen₁ total₁) :
    Walks next weight seen total [t] 0 seen₁ total₁ where
  marks := h.marks.visit
  total := by
    apply add_left_cancel (a := weight t)
    calc weight t + (total₁ + ∑ t ∈ seen, weight t)
        = total₁ + ∑ t ∈ insert t seen, weight t := by
          rw [Finset.sum_insert ht, add_left_comm]
      _ = total + weight t + ∑ t ∈ seen₁, weight t := h.total
      _ = weight t + (total + 0 + ∑ t ∈ seen₁, weight t) := by abel

/-- What a walk from no marks adds is the weight of all that it marks. -/
theorem Walks.total_eq {roots : List T}
    (h : Walks next weight ∅ total roots 0 seen₁ total₁) :
    total₁ = total + ∑ t ∈ seen₁, weight t := by
  have htotal := h.total
  rwa [Finset.sum_empty, add_zero, add_zero] at htotal

end

end Traversal
