/-
# The search of the linearizability checker is sound and complete

`checkSingle` walks over the nodes that are still in the list.  A search from a
set `S` of operations already done either empties the list, and then the calls
taken out on the way are an arrangement of all the others, or it comes back to a
return with list, bitset, state and stack exactly as they were.  In between it
may have extended the memo table, by pairs that it has refuted.

A pair in the table prunes the search only when it has the same set of
operations.  The pairs on the current path have fewer operations, so a pair that
prunes is never one whose search is still going on: it has been refuted.

* `Layout.live`: the nodes in the list when the operations `S` have been taken out;
* `Layout.explore`: the search from one set, by induction on the number of
  operations left, with an inner induction along the list;
* `checkSingle_iff`: the result of `checkSingle` on every complete history.
-/
import Mit6824.LinLayout
import Mit6824.ObjectHistory
import Mathlib.Logic.Relation

namespace Mit6824

open LinkedList ObjectHistory

variable {σ V : Type}

/-! ## The model as a sequential object -/

/-- The sequential object that a model describes. -/
def Model.spec (model : Model σ V) : SeqSpec σ V V where
  init := model.init
  step s x y := if (model.step s x y).1 then some (model.step s x y).2 else none

/-- `Equal` is an equivalence, and equal states accept the same steps and lead to
equal states. -/
structure Model.Congruent (model : Model σ V) : Prop where
  equivalence : Equivalence fun s t => model.equal s t = true
  accepts : ∀ s t x y, model.equal s t = true → (model.step s x y).1 = (model.step t x y).1
  leads : ∀ s t x y, model.equal s t = true → (model.step s x y).1 = true →
    model.equal (model.step s x y).2 (model.step t x y).2 = true

/-- An equal state can follow. -/
theorem Model.Congruent.simulates {model : Model σ V} (h : model.Congruent) {s t s' : σ} {x y : V}
    (hst : model.equal s t = true) (hstep : model.spec.step s x y = some s') :
    ∃ t', model.spec.step t x y = some t' ∧ model.equal s' t' = true := by
  have hok : (model.step s x y).1 = true := by
    by_contra hno
    rw [show model.spec.step s x y = none from if_neg hno] at hstep
    cases hstep
  have hs' : (model.step s x y).2 = s' := by
    rw [show model.spec.step s x y = some (model.step s x y).2 from if_pos hok] at hstep
    exact Option.some.inj hstep
  have hok' : (model.step t x y).1 = true := by
    rw [← h.accepts s t x y hst, hok]
  refine ⟨(model.step t x y).2, if_pos hok', ?_⟩
  rw [← hs']
  exact h.leads s t x y hst hok

/-! ## The rounds of the loop -/

section Rounds

variable {model : Model σ V} {headEntry p q i : ℕ} {x y : V} {s : Search σ V}

theorem iterate_refused (hentry : s.entry = some p) (hp : (s.nodes p).val = ⟨x, some q, i⟩)
    (hq : (s.nodes q).val.value = y) (hno : (model.step s.state x y).1 = false) :
    iterate model headEntry s = some (.continue { s with entry := (s.nodes p).next }) := by
  simp [iterate, hentry, hp, hq, hno]

theorem iterate_cached {b : Bitset} (hentry : s.entry = some p)
    (hp : (s.nodes p).val = ⟨x, some q, i⟩) (hq : (s.nodes q).val.value = y)
    (hok : (model.step s.state x y).1 = true) (hset : s.linearized.set i = some b)
    (hcache : cacheContains model s.cache ⟨b, (model.step s.state x y).2⟩ = true) :
    iterate model headEntry s = some (.continue { s with entry := (s.nodes p).next }) := by
  simp [iterate, Bitset.clone, hentry, hp, hq, hok, hset, hcache]

theorem iterate_lift {b : Bitset} {nodes : Nodes V} (hentry : s.entry = some p)
    (hp : (s.nodes p).val = ⟨x, some q, i⟩) (hq : (s.nodes q).val.value = y)
    (hok : (model.step s.state x y).1 = true) (hset : s.linearized.set i = some b)
    (hcache : cacheContains model s.cache ⟨b, (model.step s.state x y).2⟩ = false)
    (hlift : lift s.nodes p = some nodes) :
    iterate model headEntry s = some (.continue
      { nodes := nodes
        state := (model.step s.state x y).2
        linearized := b
        cache := Function.update s.cache b.hash
          (s.cache b.hash ++ [⟨b, (model.step s.state x y).2⟩])
        calls := ⟨p, s.state⟩ :: s.calls
        entry := (nodes headEntry).next }) := by
  simp [iterate, Bitset.clone, hentry, hp, hq, hok, hset, hcache, hlift]

theorem iterate_unlift {b : Bitset} {nodes : Nodes V} {top : CallsEntry σ}
    {calls : List (CallsEntry σ)} (hentry : s.entry = some p)
    (hp : (s.nodes p).val.matchNode = none) (hcalls : s.calls = top :: calls)
    (hclear : s.linearized.clear (s.nodes top.entry).val.id = some b)
    (hunlift : unlift s.nodes top.entry = some nodes) :
    iterate model headEntry s = some (.continue
      { nodes := nodes
        state := top.state
        linearized := b
        cache := s.cache
        calls := calls
        entry := (nodes top.entry).next }) := by
  simp [iterate, hentry, hp, hcalls, hclear, hunlift]

theorem iterate_return (hentry : s.entry = some p) (hp : (s.nodes p).val.matchNode = none)
    (hcalls : s.calls = []) : iterate model headEntry s = some (.return false) := by
  simp [iterate, hentry, hp, hcalls]

/-- The loop ends when the list is empty. -/
theorem loop_done {kill : ℕ → ℤ} (hnext : (s.nodes headEntry).next = none) (fuel : ℕ) :
    loop model headEntry kill (fuel + 1) s = some true := by
  rw [loop, hnext]

theorem loop_return {ok : Bool} (hnext : (s.nodes headEntry).next ≠ none)
    (hiter : iterate model headEntry s = some (.return ok)) (fuel : ℕ) :
    loop model headEntry (fun _ => 0) (fuel + 1) s = some ok := by
  obtain ⟨first, hfirst⟩ := Option.ne_none_iff_exists'.mp hnext
  rw [loop, hfirst]
  simp only [ne_eq, not_true_eq_false, if_false, hiter]

theorem loop_continue {t : Search σ V} (hnext : (s.nodes headEntry).next ≠ none)
    (hiter : iterate model headEntry s = some (.continue t)) (fuel : ℕ) :
    loop model headEntry (fun _ => 0) (fuel + 1) s = loop model headEntry (fun _ => 0) fuel t := by
  obtain ⟨first, hfirst⟩ := Option.ne_none_iff_exists'.mp hnext
  rw [loop, hfirst]
  simp only [ne_eq, not_true_eq_false, if_false, hiter]

/-- The loop goes from `s` to `t` in one round. -/
def Turns (model : Model σ V) (headEntry : ℕ) (s t : Search σ V) : Prop :=
  (s.nodes headEntry).next ≠ none ∧ iterate model headEntry s = some (.continue t)

/-- The loop goes from `s` to `t` in some number of rounds. -/
abbrev Runs (model : Model σ V) (headEntry : ℕ) : Search σ V → Search σ V → Prop :=
  Relation.ReflTransGen (Turns model headEntry)

/-- With enough rounds the loop gets from `s` to `t` and goes on from there. -/
theorem Runs.loop_eq {s t : Search σ V} (h : Runs model headEntry s t) :
    ∃ n, ∀ fuel, loop model headEntry (fun _ => 0) (n + fuel) s =
      loop model headEntry (fun _ => 0) fuel t := by
  induction h using Relation.ReflTransGen.head_induction_on with
  | refl => exact ⟨0, fun fuel => by rw [Nat.zero_add]⟩
  | head hturn _ ih =>
      obtain ⟨n, ih⟩ := ih
      obtain ⟨hnext, hiter⟩ := hturn
      refine ⟨n + 1, ?_⟩
      intro fuel
      rw [Nat.add_right_comm, loop_continue hnext hiter, ih fuel]

end Rounds

/-! ## The nodes still in the list -/

namespace Layout

variable {data : ℕ → NodeData V} {k : ℕ} {op : ℕ → V × V} {prec : ℕ → ℕ → Prop}

/-- The nodes of the operations outside `S`, in the order of the list. -/
def live (_L : Layout data k op prec) (S : Finset ℕ) : List ℕ :=
  (addresses (2 * k)).filter fun p => (data p).id ∉ S

variable (L : Layout data k op prec)

theorem mem_live {S : Finset ℕ} {p : ℕ} : p ∈ L.live S ↔ p < 2 * k ∧ (data p).id ∉ S := by
  unfold live
  rw [List.mem_filter, mem_addresses, decide_eq_true_iff]

theorem call_mem_live {S : Finset ℕ} {i : ℕ} (hi : i < k) (hS : i ∉ S) : L.call i ∈ L.live S := by
  rw [mem_live, L.data_call hi]
  exact ⟨L.call_lt hi, hS⟩

theorem ret_mem_live {S : Finset ℕ} {i : ℕ} (hi : i < k) (hS : i ∉ S) : L.ret i ∈ L.live S := by
  rw [mem_live, L.data_ret hi]
  exact ⟨(L.ret_lt hi).trans (L.call_lt hi), hS⟩

/-- A node in the list is the call or the return of an operation outside `S`. -/
theorem exists_of_mem_live {S : Finset ℕ} {p : ℕ} (hp : p ∈ L.live S) :
    ∃ i < k, i ∉ S ∧ (p = L.call i ∨ p = L.ret i) := by
  obtain ⟨hlt, hS⟩ := L.mem_live.mp hp
  obtain ⟨i, hi, rfl | rfl⟩ := L.node hlt
  · rw [L.data_call hi] at hS
    exact ⟨i, hi, hS, .inl rfl⟩
  · rw [L.data_ret hi] at hS
    exact ⟨i, hi, hS, .inr rfl⟩

theorem call_ne_ret {i j : ℕ} (hi : i < k) (hj : j < k) : L.call i ≠ L.ret j := by
  intro h
  have hmatch := congrArg NodeData.matchNode (L.data_call hi)
  rw [h, L.data_ret hj] at hmatch
  cases hmatch

theorem live_pairwise (S : Finset ℕ) : (L.live S).Pairwise (· > ·) :=
  (addresses_pairwise (2 * k)).filter _

/-- The head node and the nodes in the list are different. -/
theorem live_nodup (S : Finset ℕ) : (2 * k :: L.live S).Nodup := by
  rw [List.nodup_cons]
  constructor
  · intro hmem
    exact lt_irrefl _ (L.mem_live.mp hmem).1
  · exact (L.live_pairwise S).imp fun h => ne_of_gt h

/-- The return of a call in the list comes later in the list. -/
theorem live_split {S : Finset ℕ} {l₁ l : List ℕ} {i : ℕ} (hi : i < k)
    (hlive : L.live S = l₁ ++ L.call i :: l) : ∃ l₂ l₃, l = l₂ ++ L.ret i :: l₃ := by
  have hcall : L.call i ∈ L.live S := by
    rw [hlive]
    simp
  have hS : i ∉ S := by
    have := (L.mem_live.mp hcall).2
    rwa [L.data_call hi] at this
  have hret : L.ret i ∈ l₁ ++ L.call i :: l := by
    rw [← hlive]
    exact L.ret_mem_live hi hS
  have hsorted := L.live_pairwise S
  rw [hlive, List.pairwise_append] at hsorted
  refine List.append_of_mem ?_
  rcases List.mem_append.mp hret with hmem | hmem
  · have := hsorted.2.2 _ hmem _ List.mem_cons_self
    have := L.ret_lt hi
    omega
  · rcases List.mem_cons.mp hmem with heq | hmem
    · exact absurd heq.symm (L.call_ne_ret hi hi)
    · exact hmem

/-- The list when one more operation has been taken out. -/
theorem live_insert {S : Finset ℕ} {l₁ l₂ l₃ : List ℕ} {i : ℕ} (hi : i < k)
    (hlive : L.live S = l₁ ++ L.call i :: (l₂ ++ L.ret i :: l₃)) :
    L.live (insert i S) = l₁ ++ (l₂ ++ l₃) := by
  have hfilter : L.live (insert i S) = (L.live S).filter fun p => (data p).id ≠ i := by
    unfold live
    rw [List.filter_filter]
    refine List.filter_congr fun p _ => ?_
    rw [← Bool.decide_and, decide_eq_decide, Finset.mem_insert, not_or]
  -- the two nodes of the operation do not occur anywhere else
  have hnd := (List.nodup_cons.mp (L.live_nodup S)).2
  have hother : ∀ p ∈ L.live S, p ≠ L.call i → p ≠ L.ret i → (data p).id ≠ i := by
    intro p hp hcall hret hid
    obtain ⟨j, hj, -, rfl | rfl⟩ := L.exists_of_mem_live hp
    · rw [L.data_call hj] at hid
      exact hcall (congrArg L.call hid)
    · rw [L.data_ret hj] at hid
      exact hret (congrArg L.ret hid)
  have hkeep : ∀ l : List ℕ, (∀ p ∈ l, p ∈ L.live S) → L.call i ∉ l → L.ret i ∉ l →
      l.filter (fun p => (data p).id ≠ i) = l := by
    intro l hsub hcall hret
    rw [List.filter_eq_self]
    intro p hp
    rw [decide_eq_true_iff]
    refine hother p (hsub p hp) ?_ ?_
    · rintro rfl
      exact hcall hp
    · rintro rfl
      exact hret hp
  have hsub : ∀ p, p ∈ l₁ ∨ p ∈ l₂ ∨ p ∈ l₃ → p ∈ L.live S := by
    intro p hp
    rw [hlive]
    simp only [List.mem_append, List.mem_cons]
    tauto
  rw [hlive] at hnd
  simp only [List.nodup_append, List.nodup_cons, List.mem_append, List.mem_cons] at hnd
  rw [hfilter, hlive, List.filter_append, List.filter_cons_of_neg (by simp [L.data_call hi]),
    List.filter_append, List.filter_cons_of_neg (by simp [L.data_ret hi]),
    hkeep l₁ (fun p hp => hsub p (.inl hp)) (by grind) (by grind),
    hkeep l₂ (fun p hp => hsub p (.inr (.inl hp))) (by grind) (by grind),
    hkeep l₃ (fun p hp => hsub p (.inr (.inr hp))) (by grind) (by grind)]

/-! ## The search from one set -/

/-- The operations outside `S` can be arranged from state `state`. -/
def Finishable (_L : Layout data k op prec) (model : Model σ V) (S : Finset ℕ) (state : σ) : Prop :=
  Arrangeable model.spec op prec (Finset.range k \ S) state

/-- The operations outside `S` cannot be arranged from state `state`; this rests on
the memo table and therefore on `Equal`. -/
def Refuted (L : Layout data k op prec) (model : Model σ V) (S : Finset ℕ) (state : σ) : Prop :=
  model.Congruent → ¬ L.Finishable model S state

/-- The search has done the operations `S`. -/
structure At (L : Layout data k op prec) (S : Finset ℕ) (s : Search σ V) : Prop where
  chain : Chain s.nodes (2 * k) (L.live S)
  val : ∀ p < 2 * k, (s.nodes p).val = data p
  bits : s.linearized.Represents k S

/-- The pair `ce` has been refuted. -/
def Known (L : Layout data k op prec) (model : Model σ V) (ce : CacheEntry σ) : Prop :=
  ∃ T, ce.linearized.Represents k T ∧ L.Refuted model T ce.state

/-- The pairs in the memo table with more than `m` operations have been refuted. -/
def CacheOk (L : Layout data k op prec) (model : Model σ V) (m : ℕ)
    (cache : BitVec 64 → List (CacheEntry σ)) : Prop :=
  ∀ h, ∀ ce ∈ cache h, ∃ T, ce.linearized.Represents k T ∧ (m < T.card → L.Refuted model T ce.state)

/-- The search from `S` has come back without success: it stands at a return and
everything but the memo table is as it was. -/
structure Back (L : Layout data k op prec) (model : Model σ V) (S : Finset ℕ)
    (s s' : Search σ V) : Prop where
  nodes : s'.nodes = s.nodes
  state : s'.state = s.state
  linearized : s'.linearized = s.linearized
  calls : s'.calls = s.calls
  entry : ∃ i < k, i ∉ S ∧ s'.entry = some (L.ret i)
  cache : ∀ h, ∀ ce ∈ s'.cache h, ce ∈ s.cache h ∨ L.Known model ce
  refuted : L.Refuted model S s.state

/-- How the search from `S` ends: with an empty list, or back at a return. -/
def Ends (L : Layout data k op prec) (model : Model σ V) (S : Finset ℕ) (s : Search σ V) : Prop :=
  (∃ s', Runs model (2 * k) s s' ∧ (s'.nodes (2 * k)).next = none ∧
    L.Finishable model S s.state) ∨
  ∃ s', Runs model (2 * k) s s' ∧ L.Back model S s s'

/-- Operation `i` cannot come first: the model refuses it, or what it leads to has
been refuted. -/
def Tried (L : Layout data k op prec) (model : Model σ V) (S : Finset ℕ) (state : σ) (i : ℕ) :
    Prop :=
  ∀ state', model.spec.step state (op i).1 (op i).2 = some state' →
    L.Refuted model (insert i S) state'

variable {L} {model : Model σ V} {S : Finset ℕ} {s : Search σ V}

/-- The list is not empty when there is a node in it. -/
theorem At.next_ne_none (hat : L.At S s) {p : ℕ} (hp : p ∈ L.live S) :
    (s.nodes (2 * k)).next ≠ none := by
  rw [hat.chain.next_eq]
  intro hnil
  rw [List.head?_eq_none_iff.mp hnil] at hp
  cases hp

theorem At.val_call (hat : L.At S s) {i : ℕ} (hi : i < k) :
    (s.nodes (L.call i)).val = ⟨(op i).1, some (L.ret i), i⟩ := by
  rw [hat.val _ (L.call_lt hi), L.data_call hi]

theorem At.val_ret (hat : L.At S s) {i : ℕ} (hi : i < k) :
    (s.nodes (L.ret i)).val = ⟨(op i).2, none, i⟩ := by
  rw [hat.val _ ((L.ret_lt hi).trans (L.call_lt hi)), L.data_ret hi]

/-- At most all operations have been done. -/
theorem At.card_le (hat : L.At S s) : S.card ≤ k := by
  have hsub : S ⊆ Finset.range k := fun i hi => Finset.mem_range.mpr (hat.bits.lt i hi)
  have := Finset.card_le_card hsub
  rwa [Finset.card_range] at this

theorem range_sdiff_insert {i : ℕ} :
    Finset.range k \ insert i S = (Finset.range k \ S).erase i := by
  ext j
  simp only [Finset.mem_sdiff, Finset.mem_insert, Finset.mem_erase]
  tauto

/-- A pair that prunes has been refuted, and so has every pair equal to it. -/
theorem CacheOk.refuted_of_contains (hcache : L.CacheOk model S.card s.cache) {i : ℕ} (hi : i ∉ S)
    {b : Bitset} (hb : b.Represents k (insert i S)) {state : σ}
    (hcontains : cacheContains model s.cache ⟨b, state⟩ = true) :
    L.Refuted model (insert i S) state := by
  intro hcong hfin
  unfold cacheContains at hcontains
  obtain ⟨ce, hce, hsame⟩ := List.any_eq_true.mp hcontains
  rw [Bool.and_eq_true] at hsame
  obtain ⟨hbits, hequal⟩ := hsame
  obtain ⟨T, hT, hrefuted⟩ := hcache _ ce hce
  rw [← Bitset.equals_iff.mp hbits] at hT
  obtain rfl := hb.set_unique hT
  have hcard : S.card < (insert i S).card := by
    rw [Finset.card_insert_of_notMem hi]
    exact Nat.lt_succ_self _
  exact hrefuted hcard hcong (hfin.of_simulates (R := fun s t => model.equal s t = true)
    hcong.simulates hequal)

/-- **Why the search may turn back at a return.**  An operation that could come first
has its call before every return in the list, and all of these have been tried. -/
theorem refuted_of_tried {l₁ l₂ : List ℕ} {r : ℕ} (hr : r < k) (hrS : r ∉ S)
    (hlive : L.live S = l₁ ++ L.ret r :: l₂) {state : σ}
    (htried : ∀ p ∈ l₁, ∃ i < k, p = L.call i ∧ L.Tried model S state i) :
    L.Refuted model S state := by
  intro hcong hfin
  have hne : (Finset.range k \ S).Nonempty :=
    ⟨r, Finset.mem_sdiff.mpr ⟨Finset.mem_range.mpr hr, hrS⟩⟩
  obtain ⟨a, ha, hfirst, state', hstep, hrest⟩ := hfin.exists_first hne
  obtain ⟨hak, haS⟩ := Finset.mem_sdiff.mp ha
  rw [Finset.mem_range] at hak
  have hmem : L.call a ∈ l₁ ++ L.ret r :: l₂ := by
    rw [← hlive]
    exact L.call_mem_live hak haS
  rcases List.mem_append.mp hmem with hmem | hmem
  · -- the call stands before the return
    obtain ⟨i, hi, heq, htry⟩ := htried _ hmem
    have hai : a = i := by
      have hid := congrArg NodeData.id (L.data_call hak)
      rw [heq, L.data_call hi] at hid
      exact hid.symm
    subst hai
    refine htry state' hstep hcong ?_
    unfold Finishable
    rw [range_sdiff_insert]
    exact hrest
  · -- the call stands behind the return, so operation `r` has to come before it
    have hsorted := L.live_pairwise S
    rw [hlive, List.pairwise_append] at hsorted
    have hlt : L.call a < L.ret r := by
      rcases List.mem_cons.mp hmem with heq | hmem
      · exact absurd heq (L.call_ne_ret hak hr)
      · exact (List.pairwise_cons.mp hsorted.2.1).1 _ hmem
    have hra : r ≠ a := by
      rintro rfl
      have := L.ret_lt hr
      omega
    exact hfirst r (Finset.mem_sdiff.mpr ⟨Finset.mem_range.mpr hr, hrS⟩) hra
      ((L.prec_iff hr hak).mpr hlt)

/-- An operation whose call stands before every return in the list can come first. -/
theorem finishable_cons {l₁ l₂ : List ℕ} {i : ℕ} (hi : i < k) (hiS : i ∉ S)
    (hlive : L.live S = l₁ ++ L.call i :: l₂) {state state' : σ}
    (hcalls : ∀ p ∈ l₁, ∃ j < k, p = L.call j)
    (hstep : model.spec.step state (op i).1 (op i).2 = some state')
    (hrest : L.Finishable model (insert i S) state') : L.Finishable model S state := by
  unfold Finishable at hrest ⊢
  rw [range_sdiff_insert] at hrest
  refine Arrangeable.cons (Finset.mem_sdiff.mpr ⟨Finset.mem_range.mpr hi, hiS⟩) ?_ hstep hrest
  intro b hb hprec
  obtain ⟨hbk, hbS⟩ := Finset.mem_sdiff.mp hb
  rw [Finset.mem_range] at hbk
  have hlt := (L.prec_iff hbk hi).mp hprec
  have hmem : L.ret b ∈ l₁ ++ L.call i :: l₂ := by
    rw [← hlive]
    exact L.ret_mem_live hbk hbS
  rcases List.mem_append.mp hmem with hmem | hmem
  · obtain ⟨j, hj, heq⟩ := hcalls _ hmem
    exact L.call_ne_ret hj hbk heq.symm
  · have hsorted := L.live_pairwise S
    rw [hlive, List.pairwise_append] at hsorted
    rcases List.mem_cons.mp hmem with heq | hmem
    · exact L.call_ne_ret hi hbk heq.symm
    · have := (List.pairwise_cons.mp hsorted.2.1).1 _ hmem
      omega

/-- The search goes on behind the node where it stood, with more refuted pairs. -/
theorem Ends.of_runs {cache : BitVec 64 → List (CacheEntry σ)} {entry : Option ℕ}
    (hruns : Runs model (2 * k) s { s with cache := cache, entry := entry })
    (hcache : ∀ h, ∀ ce ∈ cache h, ce ∈ s.cache h ∨ L.Known model ce)
    (h : L.Ends model S { s with cache := cache, entry := entry }) : L.Ends model S s := by
  rcases h with ⟨s', hruns', hnil, hfin⟩ | ⟨s', hruns', hback⟩
  · exact .inl ⟨s', hruns.trans hruns', hnil, hfin⟩
  · refine .inr ⟨s', hruns.trans hruns', hback.nodes, hback.state, hback.linearized, hback.calls,
      hback.entry, ?_, hback.refuted⟩
    intro h ce hce
    rcases hback.cache h ce hce with hold | hknown
    · exact hcache h ce hold
    · exact .inr hknown

/-- The search has taken operation `i` out and starts again at the head. -/
structure Lifted (L : Layout data k op prec) (S : Finset ℕ) (i : ℕ) (s s₁ : Search σ V) :
    Prop where
  done : L.At (insert i S) s₁
  entry : s₁.entry = (L.live (insert i S)).head?
  calls : s₁.calls = ⟨L.call i, s.state⟩ :: s.calls
  unlift : unlift s₁.nodes (L.call i) = some s.nodes
  cache : ∀ h, ∀ ce ∈ s₁.cache h, ce ∈ s.cache h ∨
    (ce.linearized.Represents k (insert i S) ∧ ce.state = s₁.state)

/-- A call that the model accepts and that does not lead to a known pair is taken out. -/
theorem At.lift (hat : L.At S s) {l₁ l₂ : List ℕ} {i : ℕ} (hi : i < k)
    (hlive : L.live S = l₁ ++ L.call i :: l₂) (hentry : s.entry = some (L.call i))
    (hok : (model.step s.state (op i).1 (op i).2).1 = true) {b : Bitset}
    (hset : s.linearized.set i = some b) (hb : b.Represents k (insert i S))
    (hnew : cacheContains model s.cache ⟨b, (model.step s.state (op i).1 (op i).2).2⟩ = false) :
    ∃ s₁, Turns model (2 * k) s s₁ ∧ L.Lifted S i s s₁ ∧
      s₁.state = (model.step s.state (op i).1 (op i).2).2 := by
  have hmem : L.call i ∈ L.live S := by
    rw [hlive]
    exact List.mem_append_right _ List.mem_cons_self
  obtain ⟨l₂, l₃, rfl⟩ := L.live_split hi hlive
  have hchain := hat.chain
  have hnd := L.live_nodup S
  rw [hlive] at hchain hnd
  have hmatch : (s.nodes (L.call i)).val.matchNode = some (L.ret i) := by
    rw [hat.val_call hi]
  obtain ⟨nodes, hlift, hchain', hval, hunlift⟩ := lift_spec hchain hnd hmatch
  rw [← L.live_insert hi hlive] at hchain'
  refine ⟨_, ⟨hat.next_ne_none hmem, iterate_lift hentry (hat.val_call hi)
    (by rw [hat.val_ret hi]) hok hset hnew hlift⟩, ⟨⟨hchain', ?_, hb⟩, hchain'.next_eq, rfl,
    hunlift, ?_⟩, rfl⟩
  · intro p hp
    rw [hval p, hat.val p hp]
  · intro h ce hce
    dsimp only at hce
    rcases eq_or_ne h b.hash with rfl | hh
    · rw [Function.update_self] at hce
      rcases List.mem_append.mp hce with hold | hlast
      · exact .inl hold
      · rw [List.mem_singleton.mp hlast]
        exact .inr ⟨hb, rfl⟩
    · rw [Function.update_of_ne hh] at hce
      exact .inl hce

/-- The operation taken out last is put back, and the search goes on behind its call. -/
theorem Lifted.back {i : ℕ} (hi : i < k) (hiS : i ∉ S) {s₁ s₂ : Search σ V}
    (hlifted : L.Lifted S i s s₁) (hat : L.At S s) (hback : L.Back model (insert i S) s₁ s₂) :
    Turns model (2 * k) s₂
      { s with cache := s₂.cache, entry := (s.nodes (L.call i)).next } := by
  obtain ⟨r, hr, hrS, hentry⟩ := hback.entry
  have hbits : s₂.linearized.Represents k (insert i S) := by
    rw [hback.linearized]
    exact hlifted.done.bits
  obtain ⟨b, hclear, hb⟩ := hbits.clear hi
  rw [Finset.erase_insert hiS] at hb
  -- the bitset is the one from before, bit by bit
  obtain rfl := hb.unique hat.bits
  constructor
  · rw [hback.nodes]
    exact hlifted.done.next_ne_none (L.ret_mem_live hr hrS)
  · refine iterate_unlift hentry ?_ (hback.calls.trans hlifted.calls) ?_ ?_
    · rw [hback.nodes, hlifted.done.val_ret hr]
    · rw [hback.nodes, hlifted.done.val_call hi]
      exact hclear
    · rw [hback.nodes]
      exact hlifted.unlift

/-- The pair just entered has as many operations as the search has done, not more. -/
theorem Lifted.cacheOk {i : ℕ} (hiS : i ∉ S) {s₁ : Search σ V} (hlifted : L.Lifted S i s s₁)
    (hcache : L.CacheOk model S.card s.cache) : L.CacheOk model (insert i S).card s₁.cache := by
  intro h ce hce
  rcases hlifted.cache h ce hce with hold | ⟨hbits, -⟩
  · obtain ⟨T, hT, hrefuted⟩ := hcache h ce hold
    refine ⟨T, hT, ?_⟩
    intro hlt
    rw [Finset.card_insert_of_notMem hiS] at hlt
    exact hrefuted (Nat.lt_of_succ_lt hlt)
  · exact ⟨_, hbits, fun hlt => absurd hlt (lt_irrefl _)⟩

/-- The pairs that a search which came back has left in the table. -/
theorem Lifted.known {i : ℕ} {s₁ s₂ : Search σ V} (hlifted : L.Lifted S i s s₁)
    (hback : L.Back model (insert i S) s₁ s₂) {h : BitVec 64} {ce : CacheEntry σ}
    (hce : ce ∈ s₂.cache h) : ce ∈ s.cache h ∨ L.Known model ce := by
  rcases hback.cache h ce hce with hce₁ | hknown
  · rcases hlifted.cache h ce hce₁ with hold | ⟨hbits, hstate⟩
    · exact .inl hold
    · refine .inr ⟨_, hbits, ?_⟩
      rw [hstate]
      exact hback.refuted
  · exact .inr hknown

/-- Searches from the sets with one more operation end. -/
def Deeper (L : Layout data k op prec) (model : Model σ V) (S : Finset ℕ) : Prop :=
  ∀ i (s : Search σ V), i < k → i ∉ S → L.At (insert i S) s →
    L.CacheOk model (insert i S).card s.cache → s.entry = (L.live (insert i S)).head? →
    L.Ends model (insert i S) s

/-- **One call is tried.**  Either the search succeeds with it as the first operation,
or it comes to stand behind it. -/
theorem At.try (hdeep : L.Deeper model S) (hat : L.At S s)
    (hcache : L.CacheOk model S.card s.cache) {l₁ l₂ : List ℕ} {i : ℕ} (hi : i < k) (hiS : i ∉ S)
    (hlive : L.live S = l₁ ++ L.call i :: l₂) (hentry : s.entry = some (L.call i))
    (hcalls : ∀ p ∈ l₁, ∃ j < k, p = L.call j) :
    (∃ s', Runs model (2 * k) s s' ∧ (s'.nodes (2 * k)).next = none ∧
      L.Finishable model S s.state) ∨
    ∃ cache, Runs model (2 * k) s { s with cache := cache, entry := (s.nodes (L.call i)).next } ∧
      (∀ h, ∀ ce ∈ cache h, ce ∈ s.cache h ∨ L.Known model ce) ∧ L.Tried model S s.state i := by
  have hnext : (s.nodes (2 * k)).next ≠ none := hat.next_ne_none (L.call_mem_live hi hiS)
  have hret : (s.nodes (L.ret i)).val.value = (op i).2 := by
    rw [hat.val_ret hi]
  rcases hok : (model.step s.state (op i).1 (op i).2).1 with _ | _
  · -- the model refuses the call
    refine .inr ⟨s.cache, .single ⟨hnext, iterate_refused hentry (hat.val_call hi) hret hok⟩,
      fun h ce hce => .inl hce, ?_⟩
    intro state' hstep
    have hno : model.spec.step s.state (op i).1 (op i).2 = none :=
      if_neg (by rw [hok]; exact Bool.false_ne_true)
    rw [hno] at hstep
    cases hstep
  · have hstep : model.spec.step s.state (op i).1 (op i).2 =
        some (model.step s.state (op i).1 (op i).2).2 := if_pos hok
    obtain ⟨b, hset, hb⟩ := hat.bits.set hi
    rcases hcon : cacheContains model s.cache
        ⟨b, (model.step s.state (op i).1 (op i).2).2⟩ with _ | _
    · -- a new pair: search from there first
      obtain ⟨s₁, hturn, hlifted, hstate⟩ := hat.lift hi hlive hentry hok hset hb hcon
      rcases hdeep i s₁ hi hiS hlifted.done (hlifted.cacheOk hiS hcache) hlifted.entry with
        ⟨s', hruns, hnil, hfin⟩ | ⟨s₂, hruns, hback⟩
      · refine .inl ⟨s', hruns.head hturn, hnil, ?_⟩
        exact finishable_cons hi hiS hlive hcalls hstep (hstate ▸ hfin)
      · refine .inr ⟨s₂.cache, (hruns.head hturn).tail (hlifted.back hi hiS hat hback),
          fun h ce hce => hlifted.known hback hce, ?_⟩
        intro state' hstep'
        obtain rfl := Option.some.inj (hstep.symm.trans hstep')
        rw [← hstate]
        exact hback.refuted
    · -- the pair has been refuted before
      refine .inr ⟨s.cache,
        .single ⟨hnext, iterate_cached hentry (hat.val_call hi) hret hok hset hcon⟩,
        fun h ce hce => .inl hce, ?_⟩
      intro state' hstep'
      obtain rfl := Option.some.inj (hstep.symm.trans hstep')
      exact hcache.refuted_of_contains hiS hb hcon

/-- When the list is empty, all operations are done. -/
theorem finishable_of_live_nil (hlive : L.live S = []) (state : σ) :
    L.Finishable model S state := by
  have hempty : Finset.range k \ S = ∅ := by
    rw [Finset.sdiff_eq_empty_iff_subset]
    intro i hi
    by_contra hiS
    have hmem := L.call_mem_live (Finset.mem_range.mp hi) hiS
    rw [hlive] at hmem
    cases hmem
  unfold Finishable
  rw [hempty]
  exact arrangeable_empty

/-- The walk along the list: the calls of `l₁` have been tried, and the search stands
at the first node of `l₂`. -/
theorem walk (hdeep : L.Deeper model S) {l₁ l₂ : List ℕ} (hlive : L.live S = l₁ ++ l₂)
    (hat : L.At S s) (hcache : L.CacheOk model S.card s.cache) (hentry : s.entry = l₂.head?)
    (htried : ∀ p ∈ l₁, ∃ i < k, p = L.call i ∧ L.Tried model S s.state i) :
    L.Ends model S s := by
  induction l₂ generalizing l₁ s with
  | nil =>
      rw [List.append_nil] at hlive
      cases l₁ with
      | nil =>
          refine .inl ⟨s, .refl, ?_, finishable_of_live_nil hlive s.state⟩
          rw [hat.chain.next_eq, hlive]
          rfl
      | cons p l₁ =>
          -- a call is followed by its return, so the list does not end with calls only
          obtain ⟨i, hi, rfl, -⟩ := htried p List.mem_cons_self
          have hhead : L.live S = [] ++ L.call i :: l₁ := hlive
          obtain ⟨l₂, l₃, rfl⟩ := L.live_split hi hhead
          obtain ⟨j, hj, heq, -⟩ := htried (L.ret i) (by simp)
          exact absurd heq.symm (L.call_ne_ret hj hi)
  | cons p l₂ ih =>
      have hmem : p ∈ L.live S := by
        rw [hlive]
        exact List.mem_append_right _ List.mem_cons_self
      obtain ⟨i, hi, hiS, rfl | rfl⟩ := L.exists_of_mem_live hmem
      · have hcalls : ∀ p ∈ l₁, ∃ j < k, p = L.call j := by
          intro p hp
          obtain ⟨j, hj, heq, -⟩ := htried p hp
          exact ⟨j, hj, heq⟩
        rcases hat.try hdeep hcache hi hiS hlive hentry hcalls with
          hdone | ⟨cache, hruns, hnew, htry⟩
        · exact .inl hdone
        · -- the search goes on behind the call
          have hlive' : L.live S = (l₁ ++ [L.call i]) ++ l₂ := by
            rw [hlive, List.append_assoc]
            rfl
          refine Ends.of_runs hruns hnew (ih hlive' ⟨hat.chain, hat.val, hat.bits⟩ ?_ ?_ ?_)
          · intro h ce hce
            rcases hnew h ce hce with hold | ⟨T, hT, hrefuted⟩
            · exact hcache h ce hold
            · exact ⟨T, hT, fun _ => hrefuted⟩
          · have hchain := hat.chain
            rw [hlive] at hchain
            exact hchain.tail.next_eq
          · intro p hp
            rcases List.mem_append.mp hp with hp | hp
            · exact htried p hp
            · exact ⟨i, hi, List.mem_singleton.mp hp, htry⟩
      · -- a return
        refine .inr ⟨s, .refl, rfl, rfl, rfl, rfl, ⟨i, hi, hiS, hentry⟩, ?_,
          refuted_of_tried hi hiS hlive htried⟩
        intro h ce hce
        exact .inl hce

/-- **The search from any set ends.** -/
theorem explore (hat : L.At S s) (hcache : L.CacheOk model S.card s.cache)
    (hentry : s.entry = (L.live S).head?) : L.Ends model S s := by
  -- induction on the number of operations that have not been done
  induction hn : k - S.card generalizing S s with
  | zero =>
      refine walk ?_ (List.nil_append _).symm hat hcache hentry (by simp)
      intro i s₁ hi hiS hat₁
      have hcard := hat₁.card_le
      rw [Finset.card_insert_of_notMem hiS] at hcard
      omega
  | succ n ih =>
      refine walk ?_ (List.nil_append _).symm hat hcache hentry (by simp)
      intro i s₁ hi hiS hat₁ hcache₁ hentry₁
      refine ih hat₁ hcache₁ hentry₁ ?_
      rw [Finset.card_insert_of_notMem hiS]
      omega

end Layout

/-! ## The whole search -/

/-- The length of a list, with enough rounds. -/
theorem length_eq {nodes : Nodes V} {root : Option ℕ} {l : List ℕ} (hroot : root = l.head?)
    (hchain : ∀ p, root = some p → Chain nodes p l.tail) {fuel : ℕ} (hfuel : l.length < fuel) :
    length nodes fuel root = some l.length := by
  induction l generalizing root fuel with
  | nil =>
      obtain ⟨fuel, rfl⟩ := Nat.exists_eq_add_of_lt hfuel
      rw [hroot]
      rfl
  | cons p l ih =>
      rw [List.length_cons] at hfuel
      obtain ⟨fuel, rfl⟩ : ∃ m, fuel = m + 1 := ⟨fuel - 1, by omega⟩
      have hp := hchain p hroot
      rw [hroot, List.head?_cons, length, ih hp.next_eq ?_ (by omega)]
      · rfl
      · intro q hq
        rw [hp.next_eq] at hq
        cases l with
        | nil => cases hq
        | cons q' l =>
            obtain rfl : q' = q := Option.some.inj hq
            exact hp.2.2

section Whole

variable [Inhabited V] {model : Model σ V} {entries : List (Entry V)} {k : ℕ}

/-- The variables when the loop starts. -/
def Search.start (model : Model σ V) (entries : List (Entry V)) (k : ℕ) : Search σ V where
  nodes := insertBefore ((linkEntries entries).mem.alloc ⟨default, none, 2 ^ 64 - 1⟩).1.nodes
    (2 * k) (linkEntries entries).root
  state := model.init
  linearized := newBitset k
  cache := fun _ => []
  calls := []
  entry := (linkEntries entries).root

theorem checkSingle_eq_loop (hc : Complete entries k) (kill : ℕ → ℤ) {fuel : ℕ}
    (hfuel : 2 * k < fuel) :
    checkSingle model (makeLinkedEntries entries).1 (makeLinkedEntries entries).2 kill fuel =
      loop model (2 * k) kill fuel (Search.start model entries k) := by
  have hl := linkEntries_linked entries
  have hlen : length (linkEntries entries).mem.nodes fuel (linkEntries entries).root =
      some (2 * k) := by
    have haddr : (addresses entries.length).length = 2 * k := by
      rw [← hc.length_eq]
      simp [addresses]
    rw [length_eq hl.root hl.chain (by omega), haddr]
  have hsize : (linkEntries entries).mem.size = 2 * k := hl.size.trans hc.length_eq
  have hhalf : 2 * k / 2 = k := by omega
  simp only [checkSingle, makeLinkedEntries, hlen, Option.bind_eq_bind, Option.bind_some, hhalf,
    Memory.alloc, hsize, Search.start]

/-- The search starts with nothing done. -/
theorem at_start (model : Model σ V) (hc : Complete entries k)
    (L : Layout (fun p => ((linkEntries entries).mem.nodes p).val) k (operation entries)
      (ReturnsBefore entries)) :
    L.At ∅ (Search.start model entries k) ∧
      (Search.start model entries k).entry = (L.live ∅).head? := by
  have hl := linkEntries_linked entries
  have hlive : L.live ∅ = addresses entries.length := by
    unfold Layout.live
    rw [hc.length_eq, List.filter_eq_self]
    intro p _
    simp
  have hsize : (linkEntries entries).mem.size = 2 * k := hl.size.trans hc.length_eq
  obtain ⟨hchain, -, -, hval⟩ := chain_insertBefore_alloc hl.root (addresses_nodup _)
    (fun p hp => by rw [hl.size]; exact mem_addresses.mp hp) hl.first hl.chain rfl
  rw [hsize] at hchain hval
  rw [hlive]
  refine ⟨⟨?_, ?_, Bitset.represents_newBitset k⟩, hl.root⟩
  · rw [hlive]
    exact hchain
  · intro p hp
    exact hval p hp.ne

/-- **The search stops with a verdict.**  The verdict `true` is always right; the
verdict `false` is when `Equal` respects the model. -/
theorem checkSingle_stops (model : Model σ V) (hc : Complete entries k) :
    ∃ ok n, (∀ fuel ≥ n, checkSingle model (makeLinkedEntries entries).1
        (makeLinkedEntries entries).2 (fun _ => 0) fuel = some ok) ∧
      (ok = true → Arrangeable model.spec (operation entries) (ReturnsBefore entries)
        (Finset.range k) model.init) ∧
      (ok = false → model.Congruent → ¬ Arrangeable model.spec (operation entries)
        (ReturnsBefore entries) (Finset.range k) model.init) := by
  obtain ⟨L⟩ := hc.layout
  obtain ⟨hat, hentry⟩ := at_start model hc L
  have hcache : L.CacheOk model (∅ : Finset ℕ).card (Search.start model entries k).cache := by
    intro h ce hce
    cases hce
  have hends := Layout.explore hat hcache hentry
  -- one round is enough when the search has ended
  have hstop : ∀ {s' ok}, Runs model (2 * k) (Search.start model entries k) s' →
      (∀ fuel, loop model (2 * k) (fun _ => 0) (fuel + 1) s' = some ok) →
      ∃ n, ∀ fuel ≥ n, checkSingle model (makeLinkedEntries entries).1
        (makeLinkedEntries entries).2 (fun _ => 0) fuel = some ok := by
    intro s' ok hruns hlast
    obtain ⟨n, hn⟩ := hruns.loop_eq
    refine ⟨2 * k + 1 + n, ?_⟩
    intro fuel hfuel
    obtain ⟨m, rfl⟩ : ∃ m, fuel = n + (m + 1) := ⟨fuel - n - 1, by omega⟩
    rw [checkSingle_eq_loop hc _ (by omega), hn, hlast]
  rw [← Finset.sdiff_empty (s := Finset.range k)]
  rcases hends with ⟨s', hruns, hnil, hfin⟩ | ⟨s', hruns, hback⟩
  · obtain ⟨n, hn⟩ := hstop hruns (loop_done hnil)
    exact ⟨true, n, hn, fun _ => hfin, nofun⟩
  · obtain ⟨r, hr, hrS, hret⟩ := hback.entry
    have hiter : iterate model (2 * k) s' = some (.return false) := by
      refine iterate_return hret ?_ hback.calls
      rw [hback.nodes, hat.val_ret hr]
    have hnext : (s'.nodes (2 * k)).next ≠ none := by
      rw [hback.nodes]
      exact hat.next_ne_none (L.ret_mem_live hr hrS)
    obtain ⟨n, hn⟩ := hstop hruns (loop_return hnext hiter)
    exact ⟨false, n, hn, nofun, fun _ => hback.refuted⟩

/-- When `Equal` respects the model, both verdicts are right. -/
theorem checkSingle_decides (hcong : model.Congruent) (hc : Complete entries k) :
    ∃ ok n, (∀ fuel ≥ n, checkSingle model (makeLinkedEntries entries).1
        (makeLinkedEntries entries).2 (fun _ => 0) fuel = some ok) ∧
      (ok = true ↔ Arrangeable model.spec (operation entries) (ReturnsBefore entries)
        (Finset.range k) model.init) := by
  obtain ⟨ok, n, hn, htrue, hfalse⟩ := checkSingle_stops model hc
  refine ⟨ok, n, hn, htrue, ?_⟩
  intro harr
  cases ok with
  | true => rfl
  | false => exact absurd harr (hfalse rfl hcong)

/-- **The checker decides linearizability.**  For every model whose `Equal` is an
equivalence that `Step` respects, and every history of `k` complete operations,
`checkSingle` returns, and it returns `true` exactly when the operations can be
put into an order that keeps every operation behind those that returned before its
call and that the model accepts from its initial state. -/
theorem checkSingle_iff (model : Model σ V) (hcong : model.Congruent) (entries : List (Entry V))
    (k : ℕ) (hc : Complete entries k) (kill : ℕ → ℤ) (hkill : ∀ i, kill i = 0) :
    ∃ ok n, (∀ fuel ≥ n, checkSingle model (makeLinkedEntries entries).1
        (makeLinkedEntries entries).2 kill fuel = some ok) ∧
      (ok = true ↔ Arrangeable model.spec (operation entries) (ReturnsBefore entries)
        (Finset.range k) model.init) := by
  obtain rfl : kill = fun _ => 0 := funext hkill
  exact checkSingle_decides hcong hc

end Whole

/-- A register: an input `some v` writes `v`, and the output of a read is `some` of the
value. -/
def register : Model ℕ (Option ℕ) where
  init := 0
  step s x y :=
    match x with
    | some v => (true, v)
    | none => (y == some s, s)
  equal s t := s == t

theorem register_congruent : register.Congruent := by
  constructor
  · constructor
    · intro s
      exact beq_self_eq_true s
    · intro s t h
      exact beq_iff_eq.mpr (beq_iff_eq.mp h).symm
    · intro s t u h h'
      exact beq_iff_eq.mpr ((beq_iff_eq.mp h).trans (beq_iff_eq.mp h'))
  · intro s t x y h
    rw [beq_iff_eq.mp h]
  · intro s t x y h _
    rw [beq_iff_eq.mp h]
    exact beq_self_eq_true _

/-- A write of 1 that overlaps a read of 0, and a later read of 1. -/
def registerEntries : List (Entry (Option ℕ)) :=
  [⟨.callEntry, some 1, 0, 0⟩, ⟨.callEntry, none, 1, 1⟩, ⟨.returnEntry, none, 0, 2⟩,
    ⟨.returnEntry, some 0, 1, 3⟩, ⟨.callEntry, none, 2, 4⟩, ⟨.returnEntry, some 1, 2, 5⟩]

theorem registerEntries_complete : Complete registerEntries 3 :=
  ⟨by decide, by decide⟩

theorem checkSingle_iff_register :
    register.Congruent ∧ Complete registerEntries 3 ∧
      ∃ ok n, (∀ fuel ≥ n, checkSingle register (makeLinkedEntries registerEntries).1
          (makeLinkedEntries registerEntries).2 (fun _ => 0) fuel = some ok) ∧
        (ok = true ↔ Arrangeable register.spec (operation registerEntries)
          (ReturnsBefore registerEntries) (Finset.range 3) 0) :=
  ⟨register_congruent, registerEntries_complete,
    checkSingle_iff register register_congruent registerEntries 3 registerEntries_complete
      (fun _ => 0) fun _ => rfl⟩

/-- The search takes the write back once and then finds the order read, write, read. -/
example : checkSingle register (makeLinkedEntries registerEntries).1
    (makeLinkedEntries registerEntries).2 (fun _ => 0) 12 = some true := by
  decide

end Mit6824
