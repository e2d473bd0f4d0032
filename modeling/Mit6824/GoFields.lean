/-
# The fields of a string

`strings.FieldsFunc` cuts a string into the maximal runs of characters that are not
separators.  A field can occur more than once: its occurrences are the positions at which
a maximal run begins whose bytes are the field.

* `MaximalRun`, and `RunAt` with the position at which the run begins;
* `ncard_runStarts_append_cons`: an element that ends a run splits the positions in two;
* `count_fieldsFunc`: `strings.FieldsFunc` returns a field as often as it occurs, so it
  returns those that occur (`mem_fieldsFunc`).
-/
import Mathlib.Data.Set.Card
import Mit6824.GoRunes

namespace GoString

/-! ## Maximal runs and where they begin -/

section Positions

variable {α : Type*}

/-- `run` is a part of `l` with `p` throughout, and there is no larger one around it. -/
def MaximalRun (p : α → Bool) (l run : List α) : Prop :=
  ∃ pre post, l = pre ++ (run ++ post) ∧ run ≠ [] ∧ (∀ a ∈ run, p a = true) ∧
    (∀ a, pre.getLast? = some a → p a = false) ∧ ∀ a, post.head? = some a → p a = false

/-- `run` begins at position `i` of `l`, has `p` throughout, and there is no larger such part
around it. -/
def RunAt (p : α → Bool) (l : List α) (i : ℕ) (run : List α) : Prop :=
  ∃ pre post, l = pre ++ (run ++ post) ∧ pre.length = i ∧ run ≠ [] ∧ (∀ a ∈ run, p a = true) ∧
    (∀ a, pre.getLast? = some a → p a = false) ∧ ∀ a, post.head? = some a → p a = false

/-- The positions at which the runs with the property `P` begin. -/
def runStarts (p : α → Bool) (P : List α → Prop) (l : List α) : Set ℕ :=
  {i | ∃ run, RunAt p l i run ∧ P run}

variable {p : α → Bool} {P : List α → Prop} {cur run l : List α} {i : ℕ}

/-- A maximal run begins somewhere. -/
theorem maximalRun_iff : MaximalRun p l run ↔ ∃ i, RunAt p l i run := by
  constructor
  · rintro ⟨pre, post, hsplit, hrun⟩
    exact ⟨pre.length, pre, post, hsplit, rfl, hrun⟩
  · rintro ⟨-, pre, post, hsplit, -, hrun⟩
    exact ⟨pre, post, hsplit, hrun⟩

theorem RunAt.lt_length (h : RunAt p l i run) : i < l.length := by
  obtain ⟨pre, post, rfl, rfl, hne, -⟩ := h
  have hpos := List.length_pos_of_ne_nil hne
  simp only [List.length_append]
  omega

theorem finite_runStarts (p : α → Bool) (P : List α → Prop) (l : List α) :
    (runStarts p P l).Finite := by
  refine (Set.finite_lt_nat l.length).subset ?_
  rintro i ⟨run, hrun, -⟩
  exact hrun.lt_length

/-- Nothing stands between a run and the beginning of a list with `p` throughout. -/
theorem eq_nil_of_getLast? {pre : List α} (hpre : ∀ a ∈ pre, p a = true)
    (hlast : ∀ a, pre.getLast? = some a → p a = false) : pre = [] := by
  rcases hpre' : pre.getLast? with _ | a
  · exact List.getLast?_eq_none_iff.mp hpre'
  · have hfalse := hlast a hpre'
    rw [hpre a (List.mem_of_getLast? hpre')] at hfalse
    cases hfalse

/-- Nothing stands between a run and the end of a list with `p` throughout. -/
theorem eq_nil_of_head? {post : List α} (hpost : ∀ a ∈ post, p a = true)
    (hhead : ∀ a, post.head? = some a → p a = false) : post = [] := by
  cases post with
  | nil => rfl
  | cons a post =>
      have hfalse := hhead a rfl
      rw [hpost a List.mem_cons_self] at hfalse
      cases hfalse

/-- A list with `p` throughout is one run. -/
theorem runAt_all (hcur : ∀ a ∈ cur, p a = true) :
    RunAt p cur i run ↔ i = 0 ∧ cur ≠ [] ∧ run = cur := by
  constructor
  · rintro ⟨pre, post, rfl, rfl, hne, -, hlast, hhead⟩
    obtain rfl := eq_nil_of_getLast? (fun a ha => hcur a (by simp [ha])) hlast
    obtain rfl := eq_nil_of_head? (fun a ha => hcur a (by simp [ha])) hhead
    simpa using hne
  · rintro ⟨rfl, hne, rfl⟩
    exact ⟨[], [], by simp, rfl, hne, hcur, by simp, by simp⟩

/-- Behind an element without `p` the runs are those of the rest. -/
theorem runAt_cons {b : α} (hb : p b = false) :
    RunAt p (b :: l) i run ↔ ∃ j, i = j + 1 ∧ RunAt p l j run := by
  constructor
  · rintro ⟨pre, post, hsplit, rfl, hne, hrun, hlast, hhead⟩
    cases pre with
    | nil =>
        obtain ⟨a, run, rfl⟩ := List.exists_cons_of_ne_nil hne
        cases hsplit
        rw [hrun b List.mem_cons_self] at hb
        cases hb
    | cons a pre =>
        cases hsplit
        refine ⟨pre.length, rfl, pre, post, rfl, rfl, hne, hrun, ?_, hhead⟩
        intro a ha
        refine hlast a ?_
        rw [List.getLast?_cons, ha]
        rfl
  · rintro ⟨j, rfl, pre, post, rfl, rfl, hne, hrun, hlast, hhead⟩
    refine ⟨b :: pre, post, rfl, rfl, hne, hrun, ?_, hhead⟩
    intro a ha
    rw [List.getLast?_cons] at ha
    rcases hpre : pre.getLast? with _ | a'
    · rw [hpre] at ha
      cases ha
      exact hb
    · rw [hpre] at ha
      cases ha
      exact hlast _ hpre

/-- An element without `p` ends a run. -/
theorem runAt_append_cons (hcur : ∀ a ∈ cur, p a = true) {b : α} (hb : p b = false) :
    RunAt p (cur ++ b :: l) i run ↔
      (i = 0 ∧ cur ≠ [] ∧ run = cur) ∨ ∃ j, i = cur.length + (j + 1) ∧ RunAt p l j run := by
  constructor
  · rintro ⟨pre, post, hsplit, rfl, hne, hrun, hlast, hhead⟩
    rcases List.append_eq_append_iff.mp hsplit with ⟨rest, rfl, hrest⟩ | ⟨rest, rfl, hrest⟩
    · -- the run begins behind `cur`
      have hafter : RunAt p (b :: l) rest.length run := by
        refine ⟨rest, post, hrest, rfl, hne, hrun, ?_, hhead⟩
        intro a ha
        refine hlast a ?_
        rw [List.getLast?_append, ha]
        rfl
      obtain ⟨j, hj, hrunAt⟩ := (runAt_cons hb).mp hafter
      exact .inr ⟨j, by rw [List.length_append, hj], hrunAt⟩
    · -- the run begins in `cur` and ends with it
      left
      obtain rfl := eq_nil_of_getLast? (fun a ha => hcur a (by simp [ha])) hlast
      have hbrun : b ∉ run := by
        intro hmem
        rw [hrun b hmem] at hb
        cases hb
      rcases List.append_eq_append_iff.mp hrest with ⟨rest', rfl, rfl⟩ | ⟨rest', rfl, hpost⟩
      · cases rest' with
        | nil => exact ⟨rfl, by simpa using hne, by simp⟩
        | cons a rest' =>
            have hfalse := hhead a rfl
            rw [hcur a (by simp)] at hfalse
            cases hfalse
      · cases rest' with
        | nil => exact ⟨rfl, by simpa using hne, by simp⟩
        | cons a rest' =>
            cases hpost
            exact absurd (by simp) hbrun
  · rintro (⟨rfl, hne, rfl⟩ | ⟨j, rfl, hrunAt⟩)
    · refine ⟨[], b :: l, rfl, rfl, hne, hcur, by simp, ?_⟩
      intro a ha
      cases ha
      exact hb
    · obtain ⟨pre, post, hsplit, hlen, hne, hrun, hlast, hhead⟩ :=
        (runAt_cons hb).mpr ⟨j, rfl, hrunAt⟩
      refine ⟨cur ++ pre, post, by rw [hsplit, List.append_assoc], ?_, hne, hrun, ?_, hhead⟩
      · rw [List.length_append, hlen]
      · intro a ha
        refine hlast a ?_
        have hpre : pre ≠ [] := List.ne_nil_of_length_pos (by omega)
        rwa [List.getLast?_append_of_ne_nil _ hpre] at ha

/-- A list with `p` throughout has one run at most. -/
theorem ncard_runStarts_all [DecidablePred P] (hcur : ∀ a ∈ cur, p a = true) :
    (runStarts p P cur).ncard = if cur ≠ [] ∧ P cur then 1 else 0 := by
  have hmem : ∀ i, i ∈ runStarts p P cur ↔ i = 0 ∧ cur ≠ [] ∧ P cur := by
    intro i
    constructor
    · rintro ⟨run, hrun, hP⟩
      obtain ⟨rfl, hne, rfl⟩ := (runAt_all hcur).mp hrun
      exact ⟨rfl, hne, hP⟩
    · rintro ⟨rfl, hne, hP⟩
      exact ⟨cur, (runAt_all hcur).mpr ⟨rfl, hne, rfl⟩, hP⟩
  split_ifs with h
  · rw [show runStarts p P cur = {0} from Set.ext fun i => (hmem i).trans (and_iff_left h)]
    exact Set.ncard_singleton 0
  · rw [show runStarts p P cur = ∅ from Set.eq_empty_of_forall_notMem fun i hi =>
      h ((hmem i).mp hi).2]
    exact Set.ncard_empty ℕ

/-- The runs in front of an element without `p`, and those behind it. -/
theorem ncard_runStarts_append_cons [DecidablePred P] (hcur : ∀ a ∈ cur, p a = true) {b : α}
    (hb : p b = false) :
    (runStarts p P (cur ++ b :: l)).ncard =
      (if cur ≠ [] ∧ P cur then 1 else 0) + (runStarts p P l).ncard := by
  have hinj : Function.Injective fun j => cur.length + (j + 1) := by
    intro i j hij
    simpa using hij
  have hsplit : runStarts p P (cur ++ b :: l) =
      runStarts p P cur ∪ (fun j => cur.length + (j + 1)) '' runStarts p P l := by
    ext i
    constructor
    · rintro ⟨run, hrun, hP⟩
      rcases (runAt_append_cons hcur hb).mp hrun with hfirst | ⟨j, rfl, hlater⟩
      · exact .inl ⟨run, (runAt_all hcur).mpr hfirst, hP⟩
      · exact .inr ⟨j, ⟨run, hlater, hP⟩, rfl⟩
    · rintro (⟨run, hrun, hP⟩ | ⟨j, ⟨run, hrun, hP⟩, rfl⟩)
      · exact ⟨run, (runAt_append_cons hcur hb).mpr (.inl ((runAt_all hcur).mp hrun)), hP⟩
      · exact ⟨run, (runAt_append_cons hcur hb).mpr (.inr ⟨j, rfl, hrun⟩), hP⟩
  have hdisjoint : Disjoint (runStarts p P cur)
      ((fun j => cur.length + (j + 1)) '' runStarts p P l) := by
    rw [Set.disjoint_left]
    rintro i ⟨run, hrun, -⟩ ⟨j, -, rfl⟩
    have hlt : cur.length + (j + 1) < cur.length := hrun.lt_length
    omega
  rw [hsplit, Set.ncard_union_eq hdisjoint (finite_runStarts p P cur)
    ((finite_runStarts p P l).image _), ncard_runStarts_all hcur,
    Set.ncard_image_of_injective _ hinj]

end Positions

/-! ## Fields -/

/-- The loop of `FieldsFunc`: `field` is the field that has been begun. -/
def fieldsFrom (f : Char → Bool) : GoString → List Rune → List GoString
  | field, [] => if field = [] then [] else [field]
  | field, r :: rs =>
      if f r.char then
        if field = [] then fieldsFrom f [] rs else field :: fieldsFrom f [] rs
      else fieldsFrom f (field ++ r.bytes) rs

/-- `strings.FieldsFunc`. -/
def fieldsFunc (s : GoString) (f : Char → Bool) : List GoString :=
  fieldsFrom f [] (runes s)

/-- The loop counts the runs, where the characters of `cur` have been read. -/
theorem count_fieldsFrom {f : Char → Bool} (cur : List Rune) {rs : List Rune}
    (hcur : ∀ r ∈ cur, (!f r.char) = true) (hbytes : ∀ r ∈ cur ++ rs, r.bytes ≠ [])
    (w : GoString) : (fieldsFrom f (cur.flatMap Rune.bytes) rs).count w =
      (runStarts (fun r => !f r.char) (fun run => run.flatMap Rune.bytes = w)
        (cur ++ rs)).ncard := by
  -- a field has been begun when it has a byte
  have hnil : ∀ {cur rs : List Rune}, (∀ r ∈ cur ++ rs, r.bytes ≠ []) →
      (cur.flatMap Rune.bytes = [] ↔ cur = []) := by
    intro cur rs hbytes
    cases cur with
    | nil => simp
    | cons r cur => simp [hbytes r (by simp)]
  induction rs generalizing cur with
  | nil =>
      rw [List.append_nil, fieldsFrom, ncard_runStarts_all hcur]
      simp only [hnil hbytes]
      by_cases hcur' : cur = []
      · simp [hcur']
      · simp [hcur', List.count_singleton]
  | cons r rs ih =>
      rw [fieldsFrom]
      by_cases hr : f r.char = true
      · have hbytes' : ∀ r' ∈ [] ++ rs, r'.bytes ≠ [] := by
          intro r' hr'
          exact hbytes r' (List.mem_append_right cur (List.mem_cons_of_mem r hr'))
        have hrest := ih [] (by simp) hbytes'
        simp only [List.flatMap_nil, List.nil_append] at hrest
        have hend : (!f r.char) = false := by rw [hr]; rfl
        rw [if_pos hr, ncard_runStarts_append_cons hcur hend, ← hrest]
        simp only [hnil hbytes]
        by_cases hcur' : cur = []
        · simp [hcur']
        · simp [hcur', List.count_cons, Nat.add_comm]
      · -- the character joins the field
        have hcur' : ∀ r' ∈ cur ++ [r], (!f r'.char) = true := by
          intro r' hr'
          rcases List.mem_append.mp hr' with hr' | hr'
          · exact hcur r' hr'
          · rw [List.mem_singleton.mp hr', Bool.not_eq_true']
            exact Bool.eq_false_of_not_eq_true hr
        have hstep := ih (cur ++ [r]) hcur' (by simpa using hbytes)
        rw [if_neg hr]
        simpa using hstep

/-- **A field is returned as often as it occurs.** -/
theorem count_fieldsFunc (f : Char → Bool) (s w : GoString) :
    (fieldsFunc s f).count w =
      (runStarts (fun r => !f r.char) (fun run => run.flatMap Rune.bytes = w) (runes s)).ncard :=
  count_fieldsFrom [] (by simp) (fun _ hr => bytes_ne_nil_of_mem_runes hr) w

/-- **The fields of a string are the maximal runs** of characters that are not separators. -/
theorem mem_fieldsFunc {f : Char → Bool} {s w : GoString} :
    w ∈ fieldsFunc s f ↔
      ∃ run, MaximalRun (fun r => !f r.char) (runes s) run ∧ w = run.flatMap Rune.bytes := by
  rw [← List.count_pos_iff, count_fieldsFunc, Set.ncard_pos (finite_runStarts _ _ _)]
  constructor
  · rintro ⟨i, run, hrun, rfl⟩
    exact ⟨run, maximalRun_iff.mpr ⟨i, hrun⟩, rfl⟩
  · rintro ⟨run, hrun, rfl⟩
    obtain ⟨i, hi⟩ := maximalRun_iff.mp hrun
    exact ⟨i, run, hi, rfl⟩

end GoString
