/-
# Orders of timed operations, and locality

A list of operations, each with a time of its call and a time of its return, and
a sequential object.  The operations can be ordered when some permutation of the
list is accepted by the object and puts no operation before one that had returned
when it was called.

* `Orderable`: the operations of a list can be ordered; a list may hold an
  operation several times, so this is `Arrangeable` over the positions of the list
  (`arrangeable_iff_orderable`, and `arrangeable_of_orderable` when fewer pairs of
  positions have to be kept in order);
* `SeqSpec.keyed`: one object for each key;
* `orderable_keyed_iff`: **locality**.  Operations on the keyed object can be
  ordered exactly when the operations of every single key can.  The orders of the
  keys are chosen independently; they are merged by taking, again and again, the
  first operation of the key that owns the earliest return.  Keys that do not
  occur can be left out (`orderable_keyed_iff_of_mem`).
-/
import Mit6824.ObjectHistory
import Mathlib.Data.List.MinMax
import Mathlib.Data.List.Perm.Basic

namespace ObjectHistory

variable {α σ ι ο : Type*}

/-- Some order of the operations is accepted from state `s` and keeps `prec`. -/
def Orderable (S : SeqSpec σ ι ο) (io : α → ι × ο) (prec : α → α → Prop) (ops : List α)
    (s : σ) : Prop :=
  ∃ order : List α, order.Perm ops ∧ order.Pairwise (fun a b => ¬ prec b a) ∧
    (S.run s (order.map io)).isSome

section Orderable

variable {S : SeqSpec σ ι ο} {io : α → ι × ο} {prec : α → α → Prop} {ops ops' : List α} {s s' : σ}

/-- The listing order does not matter. -/
theorem Orderable.perm (h : Orderable S io prec ops s) (hp : ops.Perm ops') :
    Orderable S io prec ops' s := by
  obtain ⟨order, hperm, htime, hlegal⟩ := h
  exact ⟨order, hperm.trans hp, htime, hlegal⟩

theorem orderable_nil : Orderable S io prec [] s :=
  ⟨[], List.Perm.refl [], List.Pairwise.nil, rfl⟩

/-- An operation that nothing else has to precede can come first. -/
theorem Orderable.cons {a : α} (hfirst : ∀ b ∈ ops, ¬ prec b a)
    (hstep : S.step s (io a).1 (io a).2 = some s') (hrest : Orderable S io prec ops s') :
    Orderable S io prec (a :: ops) s := by
  obtain ⟨order, hperm, htime, hlegal⟩ := hrest
  refine ⟨a :: order, hperm.cons a, ?_, ?_⟩
  · rw [List.pairwise_cons]
    exact ⟨fun b hb => hfirst b (hperm.mem_iff.mp hb), htime⟩
  · rw [List.map_cons, S.run_cons, hstep]
    exact hlegal

/-- Every order starts with some operation that nothing else has to precede. -/
theorem Orderable.exists_first (h : Orderable S io prec ops s) (hne : ops ≠ []) :
    ∃ a rest s', ops.Perm (a :: rest) ∧ (∀ b ∈ rest, ¬ prec b a) ∧
      S.step s (io a).1 (io a).2 = some s' ∧ Orderable S io prec rest s' := by
  obtain ⟨order, hperm, htime, hlegal⟩ := h
  cases order with
  | nil => exact absurd hperm.nil_eq.symm hne
  | cons a rest =>
      rw [List.pairwise_cons] at htime
      rw [List.map_cons, S.run_cons, Option.isSome_bind] at hlegal
      rcases hstep : S.step s (io a).1 (io a).2 with _ | s'
      · rw [hstep] at hlegal
        cases hlegal
      · rw [hstep] at hlegal
        exact ⟨a, rest, s', hperm.symm, htime.1, hstep, rest, List.Perm.refl rest, htime.2, hlegal⟩

/-- A permutation of a list of images comes from a permutation of the list. -/
theorem exists_perm_of_perm_map {β : Type*} {f : β → α} {l : List β} {order : List α}
    (h : order.Perm (l.map f)) : ∃ l' : List β, l'.Perm l ∧ l'.map f = order := by
  have hrel : List.Forall₂ (fun a b => a = f b) (l.map f) l := by
    rw [List.forall₂_map_left_iff]
    exact List.forall₂_same.mpr fun _ _ => rfl
  obtain ⟨l', horder, hperm⟩ := List.perm_comp_forall₂ h hrel
  rw [← List.forall₂_map_right_iff (R := (· = ·)), List.forall₂_eq_eq_eq] at horder
  exact ⟨l', hperm, horder.symm⟩

/-- The positions of a list can be arranged when the list can be ordered and no other pairs of
positions have to be kept in order. -/
theorem arrangeable_of_orderable {op : ℕ → ι × ο} {before : ℕ → ℕ → Prop} {f : ℕ → α} {n : ℕ}
    (hop : ∀ i < n, op i = io (f i))
    (hbefore : ∀ i < n, ∀ j < n, before i j → prec (f i) (f j))
    (h : Orderable S io prec ((List.range n).map f) s) :
    Arrangeable S op before (Finset.range n) s := by
  obtain ⟨order, hperm, htime, hlegal⟩ := h
  obtain ⟨ps, hps, rfl⟩ := exists_perm_of_perm_map hperm
  have hlt : ∀ i ∈ ps, i < n := fun i hi => List.mem_range.mp (hps.mem_iff.mp hi)
  refine ⟨ps, hps.nodup_iff.mpr List.nodup_range, ?_, ?_, ?_⟩
  · intro i
    rw [hps.mem_iff, Finset.mem_range, List.mem_range]
  · rw [List.pairwise_map] at htime
    refine htime.imp_of_mem ?_
    intro i j hi hj hno hprec
    exact hno (hbefore j (hlt j hj) i (hlt i hi) hprec)
  · rw [List.map_map, List.map_congr_left (g := op)] at hlegal
    · exact hlegal
    · intro i hi
      exact (hop i (hlt i hi)).symm

/-- The positions of a list can be arranged exactly when the list can be ordered. -/
theorem arrangeable_iff_orderable {op : ℕ → ι × ο} {before : ℕ → ℕ → Prop} {f : ℕ → α} {n : ℕ}
    (hop : ∀ i < n, op i = io (f i))
    (hbefore : ∀ i < n, ∀ j < n, before i j ↔ prec (f i) (f j)) :
    Arrangeable S op before (Finset.range n) s ↔
      Orderable S io prec ((List.range n).map f) s := by
  constructor
  · rintro ⟨order, hnd, hmem, htime, hlegal⟩
    have hlt : ∀ i ∈ order, i < n := fun i hi => Finset.mem_range.mp ((hmem i).mp hi)
    refine ⟨order.map f, List.Perm.map f ?_, ?_, ?_⟩
    · rw [List.perm_ext_iff_of_nodup hnd List.nodup_range]
      intro i
      rw [hmem, Finset.mem_range, List.mem_range]
    · rw [List.pairwise_map]
      refine htime.imp_of_mem ?_
      intro i j hi hj hno hprec
      exact hno ((hbefore j (hlt j hj) i (hlt i hi)).mpr hprec)
    · rw [List.map_map, List.map_congr_left (g := op)]
      · exact hlegal
      · intro i hi
        exact (hop i (hlt i hi)).symm
  · exact arrangeable_of_orderable hop fun i hi j hj => (hbefore i hi j hj).mp

end Orderable

end ObjectHistory

/-! ## One object for each key -/

section Keyed

variable {α σ ι ο K T : Type*} [DecidableEq K]

/-- One object for each key; an operation acts on the object of its key. -/
def SeqSpec.keyed (S : SeqSpec σ ι ο) (key : ι → K) : SeqSpec (K → σ) ι ο where
  init := fun _ => S.init
  step s x y := (S.step (s (key x)) x y).map (Function.update s (key x))

variable {S : SeqSpec σ ι ο} {key : ι → K}

theorem SeqSpec.keyed_step (s : K → σ) (x : ι) (y : ο) :
    (S.keyed key).step s x y = (S.step (s (key x)) x y).map (Function.update s (key x)) := rfl

/-- A sequence on the keyed object, seen by one of the objects. -/
theorem SeqSpec.run_filter_of_keyed {s s' : K → σ} {l : List (ι × ο)}
    (h : (S.keyed key).run s l = some s') (k : K) :
    S.run (s k) (l.filter fun xy => key xy.1 = k) = some (s' k) := by
  induction l generalizing s with
  | nil => exact congrArg (Option.map (· k)) h
  | cons xy l ih =>
      obtain ⟨x, y⟩ := xy
      rw [SeqSpec.run_cons] at h
      obtain ⟨t, ht, hrun⟩ := Option.bind_eq_some_iff.mp h
      obtain ⟨u, hu, rfl⟩ := Option.map_eq_some_iff.mp ht
      have hih := ih hrun
      by_cases hk : key x = k
      · subst hk
        rw [Function.update_self] at hih
        rw [List.filter_cons_of_pos (by simp), SeqSpec.run_cons, hu]
        exact hih
      · rw [Function.update_of_ne (Ne.symm hk)] at hih
        rw [List.filter_cons_of_neg (by simpa using hk)]
        exact hih

namespace ObjectHistory

variable [LinearOrder T] {io : α → ι × ο} {call ret : α → T} {ops : List α} {s : K → σ}

/-- The operations of one key, in the order of all of them. -/
theorem Orderable.of_keyed {prec : α → α → Prop}
    (h : Orderable (S.keyed key) io prec ops s) (k : K) :
    Orderable S io prec (ops.filter fun a => key (io a).1 = k) (s k) := by
  obtain ⟨order, hperm, htime, hlegal⟩ := h
  obtain ⟨s', hs'⟩ := Option.isSome_iff_exists.mp hlegal
  have hrun := SeqSpec.run_filter_of_keyed hs' k
  rw [List.filter_map] at hrun
  refine ⟨order.filter fun a => key (io a).1 = k, hperm.filter _, htime.filter _, ?_⟩
  exact Option.isSome_iff_exists.mpr ⟨s' k, hrun⟩

/-- The operation with the earliest return. -/
theorem exists_min_ret (ret : α → T) (hne : ops ≠ []) : ∃ b ∈ ops, ∀ c ∈ ops, ret b ≤ ret c := by
  rcases h : ops.argmin ret with _ | b
  · exact absurd (List.argmin_eq_none.mp h) hne
  · exact ⟨b, List.argmin_mem h, fun c hc => List.le_of_mem_argmin hc h⟩

/-- Merge the orders of the keys. -/
theorem orderable_keyed (hle : ∀ a ∈ ops, call a ≤ ret a)
    (h : ∀ k, Orderable S io (fun a b => ret a < call b)
      (ops.filter fun a => key (io a).1 = k) (s k)) :
    Orderable (S.keyed key) io (fun a b => ret a < call b) ops s := by
  induction hn : ops.length generalizing ops s with
  | zero =>
      rw [List.length_eq_zero_iff.mp hn]
      exact orderable_nil
  | succ n ih =>
      have hne : ops ≠ [] := List.ne_nil_of_length_pos (by omega)
      obtain ⟨b, hb, hmin⟩ := exists_min_ret ret hne
      -- the key of `b` has an operation to offer, and nothing precedes it
      have hbk : b ∈ ops.filter fun a => key (io a).1 = key (io b).1 :=
        List.mem_filter.mpr ⟨hb, by simp⟩
      obtain ⟨a, rest, t, hperm, hfirst, hstep, hrest⟩ :=
        (h (key (io b).1)).exists_first (List.ne_nil_of_mem hbk)
      obtain ⟨ha, hak⟩ := List.mem_filter.mp (hperm.mem_iff.mpr List.mem_cons_self)
      have hak : key (io a).1 = key (io b).1 := by simpa using hak
      have hab : ¬ ret b < call a := by
        rcases List.mem_cons.mp (hperm.mem_iff.mp hbk) with rfl | hin
        · exact not_lt.mpr (hle b hb)
        · exact hfirst b hin
      obtain ⟨l₁, l₂, rfl⟩ := List.append_of_mem ha
      have hmid : (l₁ ++ a :: l₂).Perm (a :: (l₁ ++ l₂)) := List.perm_middle
      have hsub : ∀ c ∈ l₁ ++ l₂, c ∈ l₁ ++ a :: l₂ := fun c hc =>
        hmid.mem_iff.mpr (List.mem_cons_of_mem a hc)
      have hlen : (l₁ ++ l₂).length = n := by
        have := hmid.length_eq
        rw [List.length_cons] at this
        omega
      have hkeyed : (S.keyed key).step s (io a).1 (io a).2
          = some (Function.update s (key (io a).1) t) := by
        rw [SeqSpec.keyed_step, hak, hstep]
        rfl
      refine Orderable.perm (Orderable.cons ?_ hkeyed
        (ih (fun c hc => hle c (hsub c hc)) ?_ hlen)) hmid.symm
      · intro c hc hlt
        exact hab (lt_of_le_of_lt (hmin c (hsub c hc)) hlt)
      · intro k
        have hfilter := hmid.filter fun c => decide (key (io c).1 = k)
        by_cases hk : key (io a).1 = k
        · subst hk
          rw [List.filter_cons_of_pos (by simp)] at hfilter
          rw [Function.update_self]
          rw [← hak] at hperm
          exact hrest.perm (hperm.symm.trans hfilter).cons_inv
        · rw [List.filter_cons_of_neg (by simpa using hk)] at hfilter
          rw [Function.update_of_ne (Ne.symm hk)]
          exact (h k).perm hfilter

/-- **Locality.**  Timed operations on the keyed object can be ordered exactly when
those of each key can. -/
theorem orderable_keyed_iff (hle : ∀ a ∈ ops, call a ≤ ret a) :
    Orderable (S.keyed key) io (fun a b => ret a < call b) ops s ↔
      ∀ k, Orderable S io (fun a b => ret a < call b)
        (ops.filter fun a => key (io a).1 = k) (s k) :=
  ⟨fun h k => h.of_keyed k, orderable_keyed hle⟩

/-- Only the keys that occur matter: the others have no operations. -/
theorem orderable_keyed_iff_of_mem (hle : ∀ a ∈ ops, call a ≤ ret a) {keys : List K}
    (hkeys : ∀ a ∈ ops, key (io a).1 ∈ keys) :
    Orderable (S.keyed key) io (fun a b => ret a < call b) ops s ↔
      ∀ k ∈ keys, Orderable S io (fun a b => ret a < call b)
        (ops.filter fun a => key (io a).1 = k) (s k) := by
  rw [orderable_keyed_iff hle]
  refine ⟨fun h k _ => h k, fun h k => ?_⟩
  by_cases hk : k ∈ keys
  · exact h k hk
  · have hnil : (ops.filter fun a => key (io a).1 = k) = [] := by
      rw [List.filter_eq_nil_iff]
      intro a ha hak
      exact hk (of_decide_eq_true hak ▸ hkeys a ha)
    rw [hnil]
    exact orderable_nil

end ObjectHistory

end Keyed
