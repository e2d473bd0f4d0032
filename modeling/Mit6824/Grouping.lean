/-
# Maps built in a loop and visited in any order

A loop files the elements of a list under their keys (`m[k] = append(m[k], v)`),
and later loops visit the keys of the map in an order that is not specified.

* `RangeOrder`: an order in which a loop visits the keys of a map;
* `group`: the elements of a list under their keys.  What is filed under a key
  are the values of the elements with that key, in the order of the list
  (`lookup_group`), and the keys are those that occur (`mem_group`);
* `flatten_filter_perm`: the groups make up the whole list.
-/
import Mathlib.Data.List.AList
import Mathlib.Tactic

/-- An order in which a loop visits the keys of a map. -/
structure RangeOrder (K : Type*) where
  visit : List K → List K
  perm : ∀ l, (visit l).Perm l

namespace Grouping

variable {α K V : Type*} [DecidableEq K]

/-- `m[k] = append(m[k], v)`. -/
def appendAt (m : AList fun _ : K => List V) (k : K) (v : V) : AList fun _ : K => List V :=
  m.insert k ((m.lookup k).getD [] ++ [v])

/-- File the elements of a list under their keys. -/
def group (key : α → K) (val : α → V) (m : AList fun _ : K => List V) (l : List α) :
    AList fun _ : K => List V :=
  l.foldl (fun m a => appendAt m (key a) (val a)) m

variable {key : α → K} {val : α → V}

theorem lookup_appendAt (m : AList fun _ : K => List V) (k k' : K) (v : V) :
    ((appendAt m k v).lookup k').getD [] =
      (m.lookup k').getD [] ++ if k = k' then [v] else [] := by
  unfold appendAt
  by_cases h : k = k'
  · subst h
    rw [AList.lookup_insert, if_pos rfl]
    rfl
  · rw [AList.lookup_insert_ne (Ne.symm h), if_neg h, List.append_nil]

/-- What is filed under a key. -/
theorem lookup_group (m : AList fun _ : K => List V) (l : List α) (k : K) :
    ((group key val m l).lookup k).getD [] =
      (m.lookup k).getD [] ++ (l.filter fun a => key a = k).map val := by
  induction l generalizing m with
  | nil => simp [group]
  | cons a l ih =>
      have hcons : group key val m (a :: l) = group key val (appendAt m (key a) (val a)) l := rfl
      rw [hcons, ih, lookup_appendAt, List.append_assoc]
      by_cases h : key a = k
      · rw [if_pos h, List.filter_cons_of_pos (by simpa using h)]
        rfl
      · rw [if_neg h, List.filter_cons_of_neg (by simpa using h)]
        rfl

/-- The keys that occur. -/
theorem mem_group (m : AList fun _ : K => List V) (l : List α) (k : K) :
    k ∈ group key val m l ↔ k ∈ m ∨ ∃ a ∈ l, key a = k := by
  induction l generalizing m with
  | nil => simp [group]
  | cons a l ih =>
      have hcons : group key val m (a :: l) = group key val (appendAt m (key a) (val a)) l := rfl
      rw [hcons, ih, appendAt, AList.mem_insert]
      constructor
      · rintro ((rfl | hm) | ⟨b, hb, hk⟩)
        · exact .inr ⟨a, List.mem_cons_self, rfl⟩
        · exact .inl hm
        · exact .inr ⟨b, List.mem_cons_of_mem a hb, hk⟩
      · rintro (hm | ⟨b, hb, rfl⟩)
        · exact .inl (.inr hm)
        · rcases List.mem_cons.mp hb with rfl | hb
          · exact .inl (.inl rfl)
          · exact .inr ⟨b, hb, rfl⟩

/-- The groups of distinct keys make up the list. -/
theorem flatten_filter_perm {keys : List K} (hnd : keys.Nodup) {l : List α}
    (hl : ∀ a ∈ l, key a ∈ keys) :
    (keys.map fun k => l.filter fun a => key a = k).flatten.Perm l := by
  induction keys generalizing l with
  | nil =>
      cases l with
      | nil => exact List.Perm.refl _
      | cons a l => cases hl a List.mem_cons_self
  | cons k keys ih =>
      rw [List.nodup_cons] at hnd
      -- the groups of the other keys only see the elements with another key
      have hrest : (keys.map fun k' => l.filter fun a => key a = k') = keys.map fun k' =>
          (l.filter fun a => !decide (key a = k)).filter fun a => key a = k' := by
        refine List.map_congr_left ?_
        intro k' hk'
        rw [List.filter_filter]
        refine List.filter_congr ?_
        intro a _
        by_cases h : key a = k'
        · have hne : key a ≠ k := by
            rintro rfl
            rw [h] at hnd
            exact hnd.1 hk'
          simp [h, h ▸ hne]
        · simp [h]
      rw [List.map_cons, List.flatten_cons, hrest]
      have hih := ih hnd.2 (l := l.filter fun a => !decide (key a = k)) ?_
      · exact (hih.append_left _).trans (List.filter_append_perm _ l)
      · intro a ha
        obtain ⟨hal, hak⟩ := List.mem_filter.mp ha
        exact (List.mem_cons.mp (hl a hal)).resolve_left (by simpa using hak)

end Grouping
