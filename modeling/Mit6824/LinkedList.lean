/-
# Doubly linked lists on a heap

A heap maps addresses to cells; a cell holds a payload and the addresses of its
two neighbours, `none` being the nil pointer.  `Chain h a l` says that the cells
at the addresses `l` follow the cell `a` in this order, with both links
consistent and no cell after the last.

A cell is taken out of the list by redirecting the links of its neighbours only.
It keeps its own two links, and they are enough to put it back:

* `Chain.unlink`: taking a cell out never meets a nil pointer and leaves the
  chain of the others;
* `relink_unlink`: putting it back gives the very same heap, so that removals
  are undone by insertions in the opposite order.
-/
import Mathlib.Data.List.Nodup
import Mathlib.Logic.Function.Basic
import Mathlib.Tactic

namespace LinkedList

/-- A cell of a doubly linked list. -/
structure Cell (α : Type*) where
  val : α
  next : Option ℕ
  prev : Option ℕ

/-- The cells by their addresses. -/
abbrev Heap (α : Type*) := ℕ → Cell α

variable {α : Type*}

/-! ## Writing links -/

/-- Write the link to the next cell. -/
def setNext (h : Heap α) (p : ℕ) (x : Option ℕ) : Heap α :=
  Function.update h p { h p with next := x }

/-- Write the link to the previous cell. -/
def setPrev (h : Heap α) (p : ℕ) (x : Option ℕ) : Heap α :=
  Function.update h p { h p with prev := x }

@[simp] theorem setNext_val (h : Heap α) (p q : ℕ) (x : Option ℕ) :
    (setNext h p x q).val = (h q).val := by
  unfold setNext
  rcases eq_or_ne q p with rfl | hq
  · rw [Function.update_self]
  · rw [Function.update_of_ne hq]

@[simp] theorem setPrev_val (h : Heap α) (p q : ℕ) (x : Option ℕ) :
    (setPrev h p x q).val = (h q).val := by
  unfold setPrev
  rcases eq_or_ne q p with rfl | hq
  · rw [Function.update_self]
  · rw [Function.update_of_ne hq]

@[simp] theorem setNext_prev (h : Heap α) (p q : ℕ) (x : Option ℕ) :
    (setNext h p x q).prev = (h q).prev := by
  unfold setNext
  rcases eq_or_ne q p with rfl | hq
  · rw [Function.update_self]
  · rw [Function.update_of_ne hq]

@[simp] theorem setPrev_next (h : Heap α) (p q : ℕ) (x : Option ℕ) :
    (setPrev h p x q).next = (h q).next := by
  unfold setPrev
  rcases eq_or_ne q p with rfl | hq
  · rw [Function.update_self]
  · rw [Function.update_of_ne hq]

@[simp] theorem setNext_next_self (h : Heap α) (p : ℕ) (x : Option ℕ) :
    (setNext h p x p).next = x := by
  unfold setNext
  rw [Function.update_self]

@[simp] theorem setPrev_prev_self (h : Heap α) (p : ℕ) (x : Option ℕ) :
    (setPrev h p x p).prev = x := by
  unfold setPrev
  rw [Function.update_self]

theorem setNext_next_of_ne (h : Heap α) {p q : ℕ} (hq : q ≠ p) (x : Option ℕ) :
    (setNext h p x q).next = (h q).next := by
  unfold setNext
  rw [Function.update_of_ne hq]

theorem setPrev_prev_of_ne (h : Heap α) {p q : ℕ} (hq : q ≠ p) (x : Option ℕ) :
    (setPrev h p x q).prev = (h q).prev := by
  unfold setPrev
  rw [Function.update_of_ne hq]

/-- Two heaps with the same payloads and links are the same. -/
theorem heap_ext {h h' : Heap α} (hval : ∀ p, (h p).val = (h' p).val)
    (hnext : ∀ p, (h p).next = (h' p).next) (hprev : ∀ p, (h p).prev = (h' p).prev) :
    h = h' := by
  funext p
  have hv := hval p
  have hn := hnext p
  have hp := hprev p
  cases hc : h p
  cases hc' : h' p
  simp_all

/-! ## Chains -/

/-- The cells at `l` follow the cell at `a`, and nothing follows them. -/
def Chain (h : Heap α) : ℕ → List ℕ → Prop
  | a, [] => (h a).next = none
  | a, b :: l => (h a).next = some b ∧ (h b).prev = some a ∧ Chain h b l

/-- The first cell after `a`. -/
theorem Chain.next_eq {h : Heap α} {a : ℕ} {l : List ℕ} (hc : Chain h a l) :
    (h a).next = l.head? := by
  cases l with
  | nil => exact hc
  | cons b l => exact hc.1

/-- The links tell which cells follow. -/
theorem Chain.unique {h : Heap α} {a : ℕ} {l l' : List ℕ} (hc : Chain h a l)
    (hc' : Chain h a l') : l = l' := by
  induction l generalizing a l' with
  | nil =>
      have hnext := hc'.next_eq
      rw [hc.next_eq, eq_comm, List.head?_nil, List.head?_eq_none_iff] at hnext
      exact hnext.symm
  | cons b l ih =>
      have hnext := hc'.next_eq
      rw [hc.next_eq] at hnext
      cases l' with
      | nil => cases hnext
      | cons b' l' =>
          cases hnext
          rw [ih hc.2.2 hc'.2.2]

/-- The part of a chain from one of its cells on. -/
theorem Chain.tail {h : Heap α} {a x : ℕ} {l₁ l₂ : List ℕ} (hc : Chain h a (l₁ ++ x :: l₂)) :
    Chain h x l₂ := by
  induction l₁ generalizing a with
  | nil => exact hc.2.2
  | cons b l₁ ih => exact ih hc.2.2

/-- The cell before a cell of the chain, and the link from it. -/
theorem Chain.prev_eq {h : Heap α} {a x : ℕ} {l₁ l₂ : List ℕ}
    (hc : Chain h a (l₁ ++ x :: l₂)) :
    ∃ p ∈ a :: l₁, (h x).prev = some p ∧ (h p).next = some x := by
  induction l₁ generalizing a with
  | nil => exact ⟨a, List.mem_cons_self, hc.2.1, hc.1⟩
  | cons b l₁ ih =>
      obtain ⟨p, hp, hprev, hnext⟩ := ih hc.2.2
      exact ⟨p, List.mem_cons_of_mem _ hp, hprev, hnext⟩

/-- Every cell after the first points back to the one before it. -/
theorem Chain.prev_of_next {h : Heap α} {a x n : ℕ} {l₁ l₂ : List ℕ}
    (hc : Chain h a (l₁ ++ x :: l₂)) (hn : (h x).next = some n) :
    (h n).prev = some x ∧ n ∈ l₂ := by
  have htail := hc.tail
  cases l₂ with
  | nil =>
      rw [htail.next_eq] at hn
      cases hn
  | cons b l₂ =>
      rw [htail.next_eq] at hn
      cases hn
      exact ⟨htail.2.1, List.mem_cons_self⟩

/-- A chain depends on the links inside it only. -/
theorem Chain.congr {h h' : Heap α} {a : ℕ} {l : List ℕ} (hc : Chain h a l)
    (hnext : ∀ p ∈ a :: l, (h' p).next = (h p).next) (hprev : ∀ p ∈ l, (h' p).prev = (h p).prev) :
    Chain h' a l := by
  induction l generalizing a with
  | nil =>
      show (h' a).next = none
      rw [hnext a List.mem_cons_self]
      exact hc
  | cons b l ih =>
      obtain ⟨hab, hba, htail⟩ := hc
      refine ⟨?_, ?_, ih htail ?_ ?_⟩
      · rw [hnext a List.mem_cons_self, hab]
      · rw [hprev b List.mem_cons_self, hba]
      · intro p hp
        exact hnext p (List.mem_cons_of_mem _ hp)
      · intro p hp
        exact hprev p (List.mem_cons_of_mem _ hp)

/-! ## Taking a cell out and putting it back -/

/-- Redirect the links of the neighbours of `x` past it; `none` when `x` has no
cell before it. -/
def unlink (h : Heap α) (x : ℕ) : Option (Heap α) :=
  (h x).prev.bind fun p =>
    let h := setNext h p (h x).next
    match (h x).next with
    | none => some h
    | some n => some (setPrev h n (h x).prev)

/-- Direct the links of the neighbours that `x` remembers back to it. -/
def relink (h : Heap α) (x : ℕ) : Option (Heap α) :=
  (h x).prev.bind fun p =>
    let h := setNext h p (some x)
    match (h x).next with
    | none => some h
    | some n => some (setPrev h n (some x))

/-- What taking a cell out of a list does: it redirects one link forward and, when
the cell is not the last, one link back. -/
structure Unlinks (h : Heap α) (x : ℕ) (h' : Heap α) (p : ℕ) : Prop where
  val : ∀ q, (h' q).val = (h q).val
  next : (h' p).next = (h x).next
  next_of_ne : ∀ q, q ≠ p → (h' q).next = (h q).next
  prev : ∀ n, (h x).next = some n → (h' n).prev = some p
  prev_of_ne : ∀ q, (h x).next ≠ some q → (h' q).prev = (h q).prev

theorem unlink_eq {h : Heap α} {x p : ℕ} (hp : (h x).prev = some p) (hne : x ≠ p) :
    ∃ h', unlink h x = some h' ∧ Unlinks h x h' p := by
  have hx : (setNext h p (h x).next x).next = (h x).next := setNext_next_of_ne h hne _
  unfold unlink
  rw [hp, Option.bind_some]
  dsimp only
  rw [hx, setNext_prev, hp]
  rcases hn : (h x).next with _ | n
  · refine ⟨_, rfl, ?_, ?_, ?_, ?_, ?_⟩
    · intro q; exact setNext_val h p q _
    · rw [setNext_next_self, hn]
    · intro q hq; exact setNext_next_of_ne h hq _
    · intro n hn'; rw [hn] at hn'; cases hn'
    · intro q _; exact setNext_prev h p q _
  · refine ⟨_, rfl, ?_, ?_, ?_, ?_, ?_⟩
    · intro q; rw [setPrev_val, setNext_val]
    · rw [setPrev_next, setNext_next_self, hn]
    · intro q hq; rw [setPrev_next, setNext_next_of_ne h hq]
    · intro n' hn'
      rw [hn] at hn'
      cases hn'
      exact setPrev_prev_self _ n _
    · intro q hq
      rw [hn] at hq
      rw [setPrev_prev_of_ne _ (fun heq => hq (by rw [heq])), setNext_prev]

/-- **A removed cell can be put back.**  Its own links were not touched, and the
links of its neighbours get their old values. -/
theorem relink_unlink {h h' : Heap α} {x p : ℕ} (hu : Unlinks h x h' p)
    (hp : (h x).prev = some p) (hpx : (h p).next = some x) (hne : x ≠ p)
    (hn : ∀ n, (h x).next = some n → (h n).prev = some x ∧ n ≠ x) :
    relink h' x = some h := by
  have hxnext : (h' x).next = (h x).next := hu.next_of_ne x hne
  have hxprev : (h' x).prev = some p := by
    rw [hu.prev_of_ne x (fun hx => (hn x hx).2 rfl), hp]
  have hnext : ∀ q, (setNext h' p (some x) q).next = (h q).next := by
    intro q
    rcases eq_or_ne q p with rfl | hq
    · rw [setNext_next_self, hpx]
    · rw [setNext_next_of_ne _ hq, hu.next_of_ne q hq]
  unfold relink
  rw [hxprev, Option.bind_some]
  dsimp only
  rw [setNext_next_of_ne _ hne, hxnext]
  rcases hxn : (h x).next with _ | n
  · refine congrArg some (heap_ext ?_ hnext ?_)
    · intro q; rw [setNext_val, hu.val]
    · intro q
      rw [setNext_prev, hu.prev_of_ne q (by rw [hxn]; exact Option.some_ne_none q |>.symm)]
  · refine congrArg some (heap_ext ?_ ?_ ?_)
    · intro q; rw [setPrev_val, setNext_val, hu.val]
    · intro q; rw [setPrev_next, hnext]
    · intro q
      rcases eq_or_ne q n with rfl | hq
      · rw [setPrev_prev_self, (hn q hxn).1]
      · rw [setPrev_prev_of_ne _ hq, setNext_prev, hu.prev_of_ne q]
        rw [hxn]
        exact fun heq => hq (Option.some.inj heq).symm

/-- The chain of the others when a cell has been taken out. -/
theorem Chain.of_unlinks {h h' : Heap α} {a x p : ℕ} {l₁ l₂ : List ℕ}
    (hc : Chain h a (l₁ ++ x :: l₂)) (hnd : (a :: (l₁ ++ x :: l₂)).Nodup)
    (hu : Unlinks h x h' p) (hp : (h x).prev = some p) : Chain h' a (l₁ ++ l₂) := by
  induction l₁ generalizing a with
  | nil =>
      -- `x` is the first cell, so the redirected link is the one of `a`
      obtain ⟨-, hxa, htail⟩ := hc
      obtain rfl : a = p := Option.some.inj (hxa.symm.trans hp)
      have hal : a ∉ x :: l₂ := (List.nodup_cons.mp hnd).1
      cases l₂ with
      | nil =>
          show (h' a).next = none
          rw [hu.next, htail.next_eq]
          rfl
      | cons b l₂ =>
          have hbl : b ∉ l₂ := by
            have hx := (List.nodup_cons.mp (List.nodup_cons.mp hnd).2).2
            exact (List.nodup_cons.mp hx).1
          refine ⟨?_, hu.prev b htail.1, htail.2.2.congr ?_ ?_⟩
          · rw [hu.next, htail.1]
          · intro q hq
            refine hu.next_of_ne q ?_
            rintro rfl
            exact hal (List.mem_cons_of_mem _ hq)
          · intro q hq
            refine hu.prev_of_ne q ?_
            rw [htail.1]
            rintro ⟨⟩
            exact hbl hq
  | cons b l₁ ih =>
      -- both links between `a` and `b` stay
      obtain ⟨hab, hba, htail⟩ := hc
      obtain ⟨ha, hnd'⟩ := List.nodup_cons.mp hnd
      obtain ⟨p', hp', hprev, -⟩ := htail.prev_eq
      obtain rfl : p' = p := Option.some.inj (hprev.symm.trans hp)
      refine ⟨?_, ?_, ih htail hnd'⟩
      · rw [hu.next_of_ne a ?_, hab]
        rintro rfl
        refine ha ?_
        rcases List.mem_cons.mp hp' with rfl | hmem
        · exact List.mem_cons_self
        · exact List.mem_cons_of_mem _ (List.mem_append_left _ hmem)
      · rw [hu.prev_of_ne b ?_, hba]
        intro hxb
        have hmem := (htail.prev_of_next hxb).2
        exact (List.nodup_cons.mp hnd').1 (List.mem_append_right _ (List.mem_cons_of_mem _ hmem))

/-- **A cell is taken out of a chain.**  The others stay linked in their order, the
cell keeps its link forward, and putting it back undoes everything. -/
theorem Chain.unlink {h : Heap α} {a x : ℕ} {l₁ l₂ : List ℕ} (hc : Chain h a (l₁ ++ x :: l₂))
    (hnd : (a :: (l₁ ++ x :: l₂)).Nodup) :
    ∃ h', unlink h x = some h' ∧ Chain h' a (l₁ ++ l₂) ∧ (∀ q, (h' q).val = (h q).val) ∧
      (h' x).next = (h x).next ∧ relink h' x = some h := by
  obtain ⟨p, hmem, hp, hpx⟩ := hc.prev_eq
  have hsplit : (a :: l₁ ++ x :: l₂).Nodup := hnd
  rw [List.nodup_append] at hsplit
  obtain ⟨-, hx, hdisj⟩ := hsplit
  have hne : x ≠ p := (hdisj p hmem x List.mem_cons_self).symm
  obtain ⟨h', hunlink, hu⟩ := unlink_eq hp hne
  refine ⟨h', hunlink, hc.of_unlinks hnd hu hp, hu.val, hu.next_of_ne x hne,
    relink_unlink hu hp hpx hne ?_⟩
  intro n hn
  obtain ⟨hback, hmem⟩ := hc.prev_of_next hn
  refine ⟨hback, ?_⟩
  rintro rfl
  exact (List.nodup_cons.mp hx).1 hmem

end LinkedList
