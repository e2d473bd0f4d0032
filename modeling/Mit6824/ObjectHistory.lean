/-
# Histories of a shared object and their linearizations

Clients call operations of a shared object and get answers; a history is what
they see, the calls and returns in the order in which they happen.  It is
linearizable with respect to a sequential object when the completed calls, and
some of those still pending, can be put into one order that the sequential
object accepts and that keeps every call after all those that had returned
before it was made.

* `SeqSpec.run`: what a sequential object says about a whole sequence;
* `IsLinearization`, `Linearizable`;
* `Leveling`: operations sorted into levels, as when each takes effect at a
  position of a log.  An operation that returns before another is called must
  only be on a lower level for the levels to give a linearization
  (`Leveling.linearizable`);
* `Arrangeable`: given operations can still be done one after the other from a
  given state.  It unfolds into the choice of a first operation
  (`Arrangeable.cons`, `Arrangeable.exists_first`), and it depends on the state
  only up to simulation (`Arrangeable.of_simulates`): the facts a search for a
  linearization rests on.
-/
import Mathlib.Data.List.Nodup
import Mathlib.Tactic

/-- A sequential object: `step s x y` is the state after the operation `x`, when
`y` is an answer to it in state `s`. -/
structure SeqSpec (σ ι ο : Type*) where
  init : σ
  step : σ → ι → ο → Option σ

namespace SeqSpec

variable {σ ι ο : Type*} (S : SeqSpec σ ι ο)

/-- The state after a sequence of operations with their answers, when the object
accepts them all. -/
def run : σ → List (ι × ο) → Option σ
  | s, [] => some s
  | s, (x, y) :: l => (S.step s x y).bind fun s' => run s' l

theorem run_cons (s : σ) (x : ι) (y : ο) (l : List (ι × ο)) :
    S.run s ((x, y) :: l) = (S.step s x y).bind fun s' => S.run s' l := rfl

theorem run_append (s : σ) (l l' : List (ι × ο)) :
    S.run s (l ++ l') = (S.run s l).bind fun s' => S.run s' l' := by
  induction l generalizing s with
  | nil => rfl
  | cons p l ih =>
      obtain ⟨x, y⟩ := p
      rw [List.cons_append, run_cons, run_cons]
      rcases S.step s x y with _ | s'
      · rfl
      · exact ih s'

/-- A state that can follow every step of another one can follow whole sequences. -/
theorem run_isSome_of_simulates {R : σ → σ → Prop}
    (hR : ∀ {s t x y s'}, R s t → S.step s x y = some s' → ∃ t', S.step t x y = some t' ∧ R s' t')
    {s t : σ} (hst : R s t) {l : List (ι × ο)} (h : (S.run s l).isSome) :
    (S.run t l).isSome := by
  induction l generalizing s t with
  | nil => rfl
  | cons xy l ih =>
      obtain ⟨x, y⟩ := xy
      rw [run_cons] at h ⊢
      rcases hstep : S.step s x y with _ | s'
      · rw [hstep] at h
        cases h
      · rw [hstep] at h
        obtain ⟨t', ht', hst'⟩ := hR hst hstep
        rw [ht']
        exact ih hst' h

/-- Operations that are accepted wherever `P` holds, and keep `P`, are accepted in a row. -/
theorem run_isSome_of_invariant {P : σ → Prop} {l : List (ι × ο)}
    (h : ∀ xy ∈ l, ∀ s, P s → ∃ s', S.step s xy.1 xy.2 = some s' ∧ P s') {s : σ} (hs : P s) :
    (S.run s l).isSome := by
  induction l generalizing s with
  | nil => rfl
  | cons xy l ih =>
      obtain ⟨s', hstep, hs'⟩ := h xy List.mem_cons_self s hs
      rw [run_cons, hstep]
      exact ih (fun z hz => h z (List.mem_cons_of_mem xy hz)) hs'

/-- What every operation keeps holds in the end. -/
theorem run_invariant {P : σ → Prop} {l : List (ι × ο)}
    (h : ∀ xy ∈ l, ∀ s s', P s → S.step s xy.1 xy.2 = some s' → P s') {s t : σ} (hs : P s)
    (hrun : S.run s l = some t) : P t := by
  induction l generalizing s with
  | nil => exact Option.some.inj hrun ▸ hs
  | cons xy l ih =>
      rw [run_cons] at hrun
      obtain ⟨s', hstep, hrest⟩ := Option.bind_eq_some_iff.mp hrun
      exact ih (fun z hz => h z (List.mem_cons_of_mem xy hz))
        (h xy List.mem_cons_self s s' hs hstep) hrest

end SeqSpec

namespace ObjectHistory

variable {I σ ι ο : Type*}

/-- What the clients see. -/
inductive Event (I ι ο : Type*) where
  | call (id : I) (input : ι)
  | ret (id : I) (output : ο)
  deriving DecidableEq

/-- The operation that an event belongs to. -/
def Event.id : Event I ι ο → I
  | .call id _ => id
  | .ret id _ => id

/-- The operation that an event ends. -/
def Event.retId : Event I ι ο → Option I
  | .call _ _ => none
  | .ret id _ => some id

/-- An operation with its answer. -/
structure Operation (I ι ο : Type*) where
  id : I
  input : ι
  output : ο

/-- The call and the answer, without the identity. -/
def Operation.io (op : Operation I ι ο) : ι × ο :=
  (op.input, op.output)

/-! ## Real-time order -/

/-- Operation `a` has returned before operation `b` is called. -/
def Precedes (h : List (Event I ι ο)) (a b : I) : Prop :=
  ∃ (i j : ℕ) (y : ο) (x : ι), i < j ∧ h[i]? = some (.ret a y) ∧ h[j]? = some (.call b x)

theorem Precedes.mem_ret {h : List (Event I ι ο)} {a b : I} (hab : Precedes h a b) :
    ∃ y, .ret a y ∈ h := by
  obtain ⟨i, j, y, x, -, hi, -⟩ := hab
  exact ⟨y, List.mem_of_getElem? hi⟩

/-- A longer history keeps the order. -/
theorem Precedes.append {h : List (Event I ι ο)} {a b : I} (hab : Precedes h a b)
    (h' : List (Event I ι ο)) : Precedes (h ++ h') a b := by
  obtain ⟨i, j, y, x, hij, hi, hj⟩ := hab
  obtain ⟨hlt, -⟩ := List.getElem?_eq_some_iff.mp hi
  obtain ⟨hlt', -⟩ := List.getElem?_eq_some_iff.mp hj
  refine ⟨i, j, y, x, hij, ?_, ?_⟩
  · rw [List.getElem?_append_left hlt, hi]
  · rw [List.getElem?_append_left hlt', hj]

/-- A new call comes after everything that has returned. -/
theorem precedes_call {h : List (Event I ι ο)} {a b : I} {y : ο} (x : ι) (ha : .ret a y ∈ h) :
    Precedes (h ++ [.call b x]) a b := by
  obtain ⟨i, hi⟩ := List.mem_iff_getElem?.mp ha
  obtain ⟨hlt, -⟩ := List.getElem?_eq_some_iff.mp hi
  refine ⟨i, h.length, y, x, hlt, ?_, ?_⟩
  · rw [List.getElem?_append_left hlt, hi]
  · rw [List.getElem?_append_right le_rfl, Nat.sub_self]
    rfl

/-- Where a pair of the order comes from when one event is added. -/
theorem Precedes.of_append {h : List (Event I ι ο)} {e : Event I ι ο} {a b : I}
    (hab : Precedes (h ++ [e]) a b) :
    Precedes h a b ∨ ((∃ x, e = .call b x) ∧ ∃ y, .ret a y ∈ h) := by
  obtain ⟨i, j, y, x, hij, hi, hj⟩ := hab
  have hlen : j < h.length + 1 := by
    obtain ⟨hlt, -⟩ := List.getElem?_eq_some_iff.mp hj
    simpa using hlt
  rw [List.getElem?_append_left (by omega)] at hi
  rcases Nat.lt_or_eq_of_le (Nat.le_of_lt_succ hlen) with hlt | rfl
  · rw [List.getElem?_append_left hlt] at hj
    exact .inl ⟨i, j, y, x, hij, hi, hj⟩
  · rw [List.getElem?_append_right le_rfl, Nat.sub_self] at hj
    exact .inr ⟨⟨x, Option.some.inj hj⟩, y, List.mem_of_getElem? hi⟩

/-! ## Linearizations -/

/-- The order of operations explains the history. -/
structure IsLinearization (S : SeqSpec σ ι ο) (h : List (Event I ι ο))
    (order : List (Operation I ι ο)) : Prop where
  nodup : (order.map Operation.id).Nodup
  called : ∀ op ∈ order, .call op.id op.input ∈ h
  returned : ∀ {a y}, .ret a y ∈ h → ∃ op ∈ order, op.id = a ∧ op.output = y
  /-- No operation stands before one that had returned when it was called. -/
  realTime : order.Pairwise fun a b => ¬ Precedes h b.id a.id
  legal : (S.run S.init (order.map Operation.io)).isSome

/-- The history has a linearization. -/
def Linearizable (S : SeqSpec σ ι ο) (h : List (Event I ι ο)) : Prop :=
  ∃ order, IsLinearization S h order

/-- Operations sorted into levels, with the state of the object below each level. -/
structure Leveling (S : SeqSpec σ ι ο) (h : List (Event I ι ο)) where
  height : ℕ
  level : ℕ → List (Operation I ι ο)
  state : ℕ → σ
  state_zero : state 0 = S.init
  legal : ∀ p < height, S.run (state p) ((level p).map Operation.io) = some (state (p + 1))
  called : ∀ {p op}, p < height → op ∈ level p → .call op.id op.input ∈ h
  returned : ∀ {a y}, .ret a y ∈ h → ∃ p < height, ∃ op ∈ level p, op.id = a ∧ op.output = y
  nodup : ∀ p < height, ((level p).map Operation.id).Nodup
  /-- An operation is on one level only. -/
  disjoint : ∀ {p q a b}, p < height → q < height → a ∈ level p → b ∈ level q → a.id = b.id → p = q
  /-- Real time goes up. -/
  realTime : ∀ {p q a b}, p < height → q < height → a ∈ level p → b ∈ level q →
    Precedes h a.id b.id → p < q

namespace Leveling

variable {S : SeqSpec σ ι ο} {h : List (Event I ι ο)} (L : Leveling S h)

/-- The levels, one above the other. -/
def order (m : ℕ) : List (Operation I ι ο) :=
  (List.range m).flatMap L.level

theorem order_succ (m : ℕ) : L.order (m + 1) = L.order m ++ L.level m := by
  unfold order
  rw [List.range_succ, List.flatMap_append, List.flatMap_singleton]

theorem mem_order {m : ℕ} {op : Operation I ι ο} :
    op ∈ L.order m ↔ ∃ p < m, op ∈ L.level p := by
  unfold order
  simp only [List.mem_flatMap, List.mem_range]

/-- The object accepts the levels up to any height. -/
theorem run_order {m : ℕ} (hm : m ≤ L.height) :
    S.run S.init ((L.order m).map Operation.io) = some (L.state m) := by
  induction m with
  | zero => rw [L.state_zero]; rfl
  | succ m ih =>
      rw [order_succ, List.map_append, S.run_append, ih (by omega)]
      exact L.legal m (by omega)

/-- An operation stands once in the order. -/
theorem nodup_order {m : ℕ} (hm : m ≤ L.height) : ((L.order m).map Operation.id).Nodup := by
  induction m with
  | zero => exact List.nodup_nil
  | succ m ih =>
      rw [order_succ, List.map_append]
      -- an operation of the new level is on no level below it
      refine List.Nodup.append (ih (by omega)) (L.nodup m (by omega)) ?_
      intro id hold hnew
      obtain ⟨a, ha, rfl⟩ := List.mem_map.mp hold
      obtain ⟨b, hb, hab⟩ := List.mem_map.mp hnew
      obtain ⟨p, hp, ha⟩ := L.mem_order.mp ha
      have := L.disjoint (by omega) (by omega) ha hb hab.symm
      omega

/-- No operation stands before one that had returned when it was called. -/
theorem realTime_order {m : ℕ} (hm : m ≤ L.height) :
    (L.order m).Pairwise fun a b => ¬ Precedes h b.id a.id := by
  induction m with
  | zero => exact List.Pairwise.nil
  | succ m ih =>
      rw [order_succ, List.pairwise_append]
      refine ⟨ih (by omega), ?_, ?_⟩
      · -- on one level, nothing returns before anything is called
        refine List.pairwise_of_forall_mem_list ?_
        intro a ha b hb hprec
        exact lt_irrefl m (L.realTime (by omega) (by omega) hb ha hprec)
      · intro a ha b hb hprec
        obtain ⟨p, hp, ha⟩ := L.mem_order.mp ha
        have := L.realTime (by omega) (by omega) hb ha hprec
        omega

include L in
/-- **Levels give a linearization.** -/
theorem linearizable : Linearizable S h := by
  refine ⟨L.order L.height, L.nodup_order le_rfl, ?_, ?_, L.realTime_order le_rfl, ?_⟩
  · intro op hop
    obtain ⟨p, hp, hop⟩ := L.mem_order.mp hop
    exact L.called hp hop
  · intro a y hret
    obtain ⟨p, hp, op, hop, hid, hout⟩ := L.returned hret
    exact ⟨op, L.mem_order.mpr ⟨p, hp, hop⟩, hid, hout⟩
  · rw [L.run_order le_rfl]
    rfl

end Leveling

/-! ## Operations still to be arranged -/

/-- The operations `todo` in an order that the object accepts from state `s` and
in which no operation stands before one that has to precede it. -/
structure IsArrangement (S : SeqSpec σ ι ο) (op : I → ι × ο) (prec : I → I → Prop)
    (todo : Finset I) (s : σ) (order : List I) : Prop where
  nodup : order.Nodup
  mem_iff : ∀ a, a ∈ order ↔ a ∈ todo
  realTime : order.Pairwise fun a b => ¬ prec b a
  legal : (S.run s (order.map op)).isSome

/-- The operations `todo` can be arranged from state `s`. -/
def Arrangeable (S : SeqSpec σ ι ο) (op : I → ι × ο) (prec : I → I → Prop) (todo : Finset I)
    (s : σ) : Prop :=
  ∃ order, IsArrangement S op prec todo s order

section Arrangeable

variable {S : SeqSpec σ ι ο} {op : I → ι × ο} {prec : I → I → Prop} {todo : Finset I} {s s' : σ}

theorem arrangeable_empty : Arrangeable S op prec ∅ s := by
  refine ⟨[], List.nodup_nil, ?_, List.Pairwise.nil, rfl⟩
  intro a
  simp

/-- The names of the operations do not matter. -/
theorem arrangeable_image_iff {J : Type*} [DecidableEq J] {f : I → J} {op' : J → ι × ο}
    {prec' : J → J → Prop} (hf : Set.InjOn f todo) (hop : ∀ a ∈ todo, op' (f a) = op a)
    (hprec : ∀ a ∈ todo, ∀ b ∈ todo, prec' (f a) (f b) ↔ prec a b) :
    Arrangeable S op' prec' (todo.image f) s ↔ Arrangeable S op prec todo s := by
  constructor
  · rintro ⟨order, hnd, hmem, htime, hlegal⟩
    -- every new name is the name of one operation
    have hex : ∀ b ∈ order, ∃ a ∈ todo, f a = b := fun b hb =>
      Finset.mem_image.mp ((hmem b).mp hb)
    obtain ⟨order, hsub, rfl⟩ :
        ∃ order' : List I, (∀ a ∈ order', a ∈ todo) ∧ order'.map f = order := by
      clear hnd hmem htime hlegal
      induction order with
      | nil => exact ⟨[], by simp, rfl⟩
      | cons b order ih =>
          obtain ⟨a, ha, rfl⟩ := hex b List.mem_cons_self
          obtain ⟨order', hsub, rfl⟩ := ih fun c hc => hex c (List.mem_cons_of_mem _ hc)
          exact ⟨a :: order', List.forall_mem_cons.mpr ⟨ha, hsub⟩, rfl⟩
    refine ⟨order, hnd.of_map f, fun a => ⟨hsub a, fun ha => ?_⟩, ?_, ?_⟩
    · obtain ⟨a', ha', heq⟩ := List.mem_map.mp ((hmem _).mpr (Finset.mem_image_of_mem f ha))
      rwa [← hf (hsub a' ha') ha heq]
    · rw [List.pairwise_map] at htime
      exact htime.imp_of_mem fun ha hb h => (hprec _ (hsub _ hb) _ (hsub _ ha)).not.mp h
    · rw [List.map_map] at hlegal
      rwa [← List.map_congr_left fun a ha => hop a (hsub a ha)]
  · rintro ⟨order, hnd, hmem, htime, hlegal⟩
    have hsub : ∀ a ∈ order, a ∈ todo := fun a => (hmem a).mp
    refine ⟨order.map f, ?_, fun b => ?_, ?_, ?_⟩
    · exact hnd.map_on fun a ha b hb h => hf (hsub a ha) (hsub b hb) h
    · rw [List.mem_map, Finset.mem_image]
      exact exists_congr fun a => by rw [hmem a]
    · rw [List.pairwise_map]
      exact htime.imp_of_mem fun ha hb h => (hprec _ (hsub _ hb) _ (hsub _ ha)).not.mpr h
    · rw [List.map_map]
      rwa [← List.map_congr_left fun a ha => hop a (hsub a ha)] at hlegal

variable [DecidableEq I]

/-- An operation that nothing else has to precede can come first. -/
theorem Arrangeable.cons {a : I} (ha : a ∈ todo) (hfirst : ∀ b ∈ todo, ¬ prec b a)
    (hstep : S.step s (op a).1 (op a).2 = some s')
    (hrest : Arrangeable S op prec (todo.erase a) s') : Arrangeable S op prec todo s := by
  obtain ⟨order, hnd, hmem, htime, hlegal⟩ := hrest
  have hsub : ∀ b ∈ order, b ∈ todo := fun b hb => Finset.mem_of_mem_erase ((hmem b).mp hb)
  refine ⟨a :: order, ?_, ?_, ?_, ?_⟩
  · rw [List.nodup_cons]
    refine ⟨?_, hnd⟩
    intro hin
    exact Finset.notMem_erase a todo ((hmem a).mp hin)
  · intro b
    rw [List.mem_cons, hmem b, Finset.mem_erase]
    constructor
    · rintro (rfl | ⟨-, hb⟩)
      · exact ha
      · exact hb
    · intro hb
      rcases eq_or_ne b a with hba | hba
      · exact .inl hba
      · exact .inr ⟨hba, hb⟩
  · rw [List.pairwise_cons]
    exact ⟨fun b hb => hfirst b (hsub b hb), htime⟩
  · rw [List.map_cons, S.run_cons, hstep]
    exact hlegal

/-- Every arrangement starts with some operation that nothing else has to precede. -/
theorem Arrangeable.exists_first (h : Arrangeable S op prec todo s) (hne : todo.Nonempty) :
    ∃ a ∈ todo, (∀ b ∈ todo, b ≠ a → ¬ prec b a) ∧
      ∃ s', S.step s (op a).1 (op a).2 = some s' ∧ Arrangeable S op prec (todo.erase a) s' := by
  obtain ⟨order, hnd, hmem, htime, hlegal⟩ := h
  cases order with
  | nil =>
      obtain ⟨a, ha⟩ := hne
      cases (hmem a).mpr ha
  | cons a order =>
      rw [List.nodup_cons] at hnd
      rw [List.pairwise_cons] at htime
      rw [List.map_cons, S.run_cons, Option.isSome_bind] at hlegal
      refine ⟨a, (hmem a).mp List.mem_cons_self, ?_, ?_⟩
      · intro b hb hba
        rcases List.mem_cons.mp ((hmem b).mpr hb) with heq | hin
        · exact absurd heq hba
        · exact htime.1 b hin
      · rcases hstep : S.step s (op a).1 (op a).2 with _ | s'
        · rw [hstep] at hlegal
          cases hlegal
        · rw [hstep] at hlegal
          refine ⟨s', rfl, order, hnd.2, ?_, htime.2, hlegal⟩
          intro b
          rw [Finset.mem_erase, ← hmem b, List.mem_cons]
          constructor
          · intro hb
            refine ⟨?_, .inr hb⟩
            rintro rfl
            exact hnd.1 hb
          · rintro ⟨hba, hb⟩
            exact hb.resolve_left hba

omit [DecidableEq I] in
/-- A state that accepts everything another one accepts admits its arrangements. -/
theorem Arrangeable.of_simulates {R : σ → σ → Prop}
    (hR : ∀ {s t x y s'}, R s t → S.step s x y = some s' → ∃ t', S.step t x y = some t' ∧ R s' t')
    {t : σ} (hst : R s t) (h : Arrangeable S op prec todo s) : Arrangeable S op prec todo t := by
  obtain ⟨order, hnd, hmem, htime, hlegal⟩ := h
  exact ⟨order, hnd, hmem, htime, S.run_isSome_of_simulates hR hst hlegal⟩

end Arrangeable

end ObjectHistory
