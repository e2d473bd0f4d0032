/-
# Transition systems, their runs, and simulations

The common ground of every protocol in this development.  A system has one
initial state and a partial step function; a run is an infinite sequence of
states in which every moment either takes an enabled action or idles, so that
"at any two moments of a run" is a quantifier over two natural numbers and a
finite run is one that idles from some moment on.

* `Run.invariant` is the induction rule for safety properties, relative to a
  condition `ok` that every step of the run meets;
* `Run.rel_of_le` carries a preorder along a run (histories only grow);
* `Run.exists_ghost` is the simulation rule: when every step can be matched by
  an abstract system, a whole run has a run of the abstract system beside it;
* `Projection.run`: a run of a system is a run of the system that is part of it;
* `Run.WeaklyFair.leadsTo` is the rule for progress under weak fairness;
* `ofList` turns a list of actions into a run that can be evaluated.
-/
import Mathlib.Logic.Relation
import Mathlib.Tactic

/-- A transition system: an initial state and a partial step function, where
`step s a = none` says that the action `a` is not enabled in `s`. -/
structure TransitionSystem (σ α : Type*) where
  init : σ
  step : σ → α → Option σ

namespace TransitionSystem

variable {σ α : Type*} (S : TransitionSystem σ α)

/-- A run of the system: a state at every moment and, between two moments, an
enabled action or nothing at all. -/
structure Run where
  state : ℕ → σ
  act : ℕ → Option α
  state_zero : state 0 = S.init
  /-- An idle moment keeps the state. -/
  idle : ∀ k, act k = none → state (k + 1) = state k
  /-- An action taken was enabled, and the next state is its result. -/
  taken : ∀ k a, act k = some a → S.step (state k) a = some (state (k + 1))

variable {S}

/-- Every step of the run meets the condition `ok` on the state before it and
its action. -/
def Run.Meets (r : S.Run) (ok : σ → α → Prop) : Prop :=
  ∀ k a, r.act k = some a → ok (r.state k) a

/-- A run meets the trivial condition. -/
theorem Run.meets_true (r : S.Run) : r.Meets (fun _ _ => True) :=
  fun _ _ _ => trivial

/-- **The invariant rule.**  What holds initially and is kept by every step
that meets `ok` holds at every moment of a run that meets `ok`. -/
theorem Run.invariant (r : S.Run) {ok : σ → α → Prop} (hok : r.Meets ok) {I : σ → Prop}
    (hinit : I S.init)
    (hstep : ∀ s a s', I s → ok s a → S.step s a = some s' → I s') :
    ∀ k, I (r.state k) := by
  intro k
  induction k with
  | zero => rw [r.state_zero]; exact hinit
  | succ k ih =>
      rcases ha : r.act k with _ | a
      · rw [r.idle k ha]; exact ih
      · exact hstep _ a _ ih (hok k a ha) (r.taken k a ha)

/-- **Monotonicity along a run.**  A preorder that relates every state to its
successors relates every moment to all later ones. -/
theorem Run.rel_of_le (r : S.Run) {ok : σ → α → Prop} (hok : r.Meets ok)
    {R : σ → σ → Prop} (hrefl : ∀ s, R s s) (htrans : ∀ a b c, R a b → R b c → R a c)
    (hstep : ∀ k a, r.act k = some a → ok (r.state k) a →
      S.step (r.state k) a = some (r.state (k + 1)) → R (r.state k) (r.state (k + 1)))
    {j k : ℕ} (hjk : j ≤ k) : R (r.state j) (r.state k) := by
  induction k, hjk using Nat.le_induction with
  | base => exact hrefl _
  | succ k _ ih =>
      refine htrans _ _ _ ih ?_
      rcases ha : r.act k with _ | a
      · rw [r.idle k ha]; exact hrefl _
      · exact hstep k a ha (hok k a ha) (r.taken k a ha)

/-! ## Simulation -/

section Simulation

variable {τ : Type*}

/-- Choose the abstract state of the next moment, keeping the invariant. -/
private noncomputable def ghost {P : ℕ → τ → Prop} {B : τ → τ → Prop} (b₀ : {b // P 0 b})
    (h : ∀ k b, P k b → ∃ b', B b b' ∧ P (k + 1) b') : (k : ℕ) → {b // P k b}
  | 0 => b₀
  | k + 1 => ⟨(h k _ (ghost b₀ h k).2).choose, (h k _ (ghost b₀ h k).2).choose_spec.2⟩

/-- **The simulation rule.**  If the initial state is related to `b₀` and every
step of the run can be answered by finitely many abstract steps that restore
the relation, then an abstract sequence accompanies the whole run. -/
theorem Run.exists_ghost (r : S.Run) {ok : σ → α → Prop} (hok : r.Meets ok)
    {R : σ → τ → Prop} {B : τ → τ → Prop} {b₀ : τ} (hinit : R S.init b₀)
    (hstep : ∀ s a s' b, R s b → ok s a → S.step s a = some s' →
      ∃ b', Relation.ReflTransGen B b b' ∧ R s' b') :
    ∃ g : ℕ → τ, g 0 = b₀ ∧ (∀ k, R (r.state k) (g k)) ∧
      ∀ k, Relation.ReflTransGen B (g k) (g (k + 1)) := by
  have hnext : ∀ k b, R (r.state k) b →
      ∃ b', Relation.ReflTransGen B b b' ∧ R (r.state (k + 1)) b' := by
    intro k b hb
    rcases ha : r.act k with _ | a
    · exact ⟨b, .refl, by rw [r.idle k ha]; exact hb⟩
    · exact hstep _ a _ b hb (hok k a ha) (r.taken k a ha)
  have h0 : R (r.state 0) b₀ := by rw [r.state_zero]; exact hinit
  let g := ghost (P := fun k b => R (r.state k) b) ⟨b₀, h0⟩ hnext
  refine ⟨fun k => (g k).1, rfl, fun k => (g k).2, fun k => ?_⟩
  exact (hnext k _ (g k).2).choose_spec.1

/-- Every moment of an accompanying sequence reaches all later ones. -/
theorem ghost_reaches {B : τ → τ → Prop} {g : ℕ → τ}
    (hg : ∀ k, Relation.ReflTransGen B (g k) (g (k + 1))) {j k : ℕ} (hjk : j ≤ k) :
    Relation.ReflTransGen B (g j) (g k) := by
  induction k, hjk using Nat.le_induction with
  | base => exact .refl
  | succ k _ ih => exact ih.trans (hg k)

end Simulation

/-! ## Projection -/

section Projection

variable {τ β : Type*} {T : TransitionSystem τ β}

/-- The system `T` as a part of the system `S`: a step of `S` is a step of `T` in this part, or
leaves it as it is. -/
structure Projection (S : TransitionSystem σ α) (T : TransitionSystem τ β) where
  state : σ → τ
  /-- The step of the part, if the action is one. -/
  act : σ → α → Option β
  init : state S.init = T.init
  idle : ∀ {s a s'}, S.step s a = some s' → act s a = none → state s' = state s
  taken : ∀ {s a s' b}, S.step s a = some s' → act s a = some b →
    T.step (state s) b = some (state s')

/-- The run of the part. -/
def Projection.run (p : Projection S T) (r : S.Run) : T.Run where
  state k := p.state (r.state k)
  act k := (r.act k).bind (p.act (r.state k))
  state_zero := by
    rw [r.state_zero]
    exact p.init
  idle k hk := by
    rcases ha : r.act k with _ | a
    · rw [r.idle k ha]
    · rw [ha, Option.bind_some] at hk
      exact p.idle (r.taken k a ha) hk
  taken k b hk := by
    obtain ⟨a, ha, hb⟩ := Option.bind_eq_some_iff.mp hk
    exact p.taken (r.taken k a ha) hb

/-- A condition on the steps of the part. -/
theorem Projection.meets (p : Projection S T) {r : S.Run} {ok : σ → α → Prop}
    {ok' : τ → β → Prop} (hok : r.Meets ok)
    (h : ∀ s a b, ok s a → p.act s a = some b → ok' (p.state s) b) : (p.run r).Meets ok' := by
  intro k b hb
  obtain ⟨a, ha, hact⟩ := Option.bind_eq_some_iff.mp hb
  exact h _ a b (hok k a ha) hact

end Projection

/-! ## Progress -/

/-- The run is weakly fair to an action: it does not stay enabled without being taken. -/
def Run.WeaklyFair (r : S.Run) (a : α) : Prop :=
  ∀ k, ∃ j ≥ k, r.act j = some a ∨ S.step (r.state j) a = none

/-- **The progress rule.**  If the run goes from `P` to `P` or to `Q`, and the fair action `a` is
enabled in `P` and reaches `Q`, then the run reaches `Q`. -/
theorem Run.WeaklyFair.leadsTo {r : S.Run} {a : α} (hfair : r.WeaklyFair a) {P Q : σ → Prop}
    {k : ℕ} (hP : P (r.state k))
    (hstep : ∀ j ≥ k, P (r.state j) → P (r.state (j + 1)) ∨ Q (r.state (j + 1)))
    (hact : ∀ j ≥ k, P (r.state j) → ∃ s', S.step (r.state j) a = some s' ∧ Q s') :
    ∃ j ≥ k, Q (r.state j) := by
  by_contra hnever
  -- the run then stays in `P`, where `a` is always enabled
  have hstay : ∀ j ≥ k, P (r.state j) := by
    intro j hj
    induction j, hj using Nat.le_induction with
    | base => exact hP
    | succ j hj ih =>
        refine (hstep j hj ih).resolve_right ?_
        exact fun hQ => hnever ⟨j + 1, by omega, hQ⟩
  obtain ⟨j, hj, htaken | hdisabled⟩ := hfair k
  · obtain ⟨s', hs', hQ⟩ := hact j hj (hstay j hj)
    have htake := r.taken j a htaken
    rw [hs'] at htake
    cases htake
    exact hnever ⟨j + 1, by omega, hQ⟩
  · obtain ⟨s', hs', _⟩ := hact j hj (hstay j hj)
    rw [hdisabled] at hs'
    cases hs'

/-- The progress rule for a measure that never decreases. -/
theorem Run.WeaklyFair.eventually_lt {r : S.Run} {a : α} (hfair : r.WeaklyFair a) {μ : σ → ℕ}
    {k n : ℕ} (hk : n ≤ μ (r.state k))
    (hmono : ∀ j ≥ k, μ (r.state j) ≤ μ (r.state (j + 1)))
    (hact : ∀ j ≥ k, μ (r.state j) = n → ∃ s', S.step (r.state j) a = some s' ∧ n < μ s') :
    ∃ j ≥ k, n < μ (r.state j) := by
  rcases hk.eq_or_lt with heq | hlt
  · refine hfair.leadsTo (P := fun s => μ s = n) heq.symm ?_ hact
    intro j hj hn
    have := hmono j hj
    omega
  · exact ⟨k, le_rfl, hlt⟩

/-- The run of a part is fair to an action of the part that is enabled only when the whole is. -/
theorem Run.WeaklyFair.projection {τ β : Type*} {T : TransitionSystem τ β} {r : S.Run} {a : α}
    (hfair : r.WeaklyFair a) (p : Projection S T) {b : β} (hact : ∀ s, p.act s a = some b)
    (hstep : ∀ s, S.step s a = none → T.step (p.state s) b = none) :
    (p.run r).WeaklyFair b := by
  intro k
  obtain ⟨j, hj, htaken | hdisabled⟩ := hfair k
  · refine ⟨j, hj, .inl ?_⟩
    show (r.act j).bind _ = _
    rw [htaken]
    exact hact _
  · exact ⟨j, hj, .inr (hstep _ hdisabled)⟩

/-! ## Runs from lists of actions -/

section OfList

variable (S)

/-- The state after a list of actions, where an action that is not enabled is
skipped. -/
def exec (s : σ) (l : List α) : σ :=
  l.foldl (fun s a => (S.step s a).getD s) s

/-- Every step of the list that is enabled meets `ok`. -/
def Checks (ok : σ → α → Prop) : σ → List α → Prop
  | _, [] => True
  | s, a :: l =>
      match S.step s a with
      | none => Checks ok s l
      | some s' => ok s a ∧ Checks ok s' l

instance decidableChecks (ok : σ → α → Prop) [∀ s a, Decidable (ok s a)] :
    (s : σ) → (l : List α) → Decidable (S.Checks ok s l)
  | _, [] => .isTrue trivial
  | s, a :: l =>
      match h : S.step s a with
      | none =>
          have := decidableChecks ok s l
          decidable_of_iff (S.Checks ok s l) (by simp only [Checks, h])
      | some s' =>
          have := decidableChecks ok s' l
          decidable_of_iff (ok s a ∧ S.Checks ok s' l) (by simp only [Checks, h])

/-- One more action of the list. -/
theorem exec_take_succ (s : σ) {l : List α} {k : ℕ} {a : α} (ha : l[k]? = some a) :
    S.exec s (l.take (k + 1))
      = (S.step (S.exec s (l.take k)) a).getD (S.exec s (l.take k)) := by
  rw [List.take_add_one, ha, exec, List.foldl_append]
  rfl

/-- The run that takes the enabled actions of a list in turn and idles from
then on. -/
def ofList (l : List α) : S.Run where
  state k := S.exec S.init (l.take k)
  act k := (l[k]?).filter fun a => (S.step (S.exec S.init (l.take k)) a).isSome
  state_zero := rfl
  idle k hk := by
    rcases hl : l[k]? with _ | a
    · have hlen : l.length ≤ k := List.getElem?_eq_none_iff.mp hl
      rw [List.take_of_length_le hlen, List.take_of_length_le (by omega)]
    · rw [hl] at hk
      have hnone : S.step (S.exec S.init (l.take k)) a = none := by
        simpa [Option.filter_eq_none_iff] using hk
      rw [S.exec_take_succ _ hl, hnone]
      rfl
  taken k a hk := by
    obtain ⟨hl, hsome⟩ := Option.filter_eq_some_iff.mp hk
    obtain ⟨s', hs'⟩ := Option.isSome_iff_exists.mp hsome
    rw [S.exec_take_succ _ hl, hs']
    rfl

variable {S}

/-- A checked list meets the condition from any state. -/
theorem checks_exec {ok : σ → α → Prop} {l : List α} :
    ∀ {s : σ}, S.Checks ok s l → ∀ k a, l[k]? = some a →
      (S.step (S.exec s (l.take k)) a).isSome → ok (S.exec s (l.take k)) a := by
  induction l with
  | nil => intro s _ k a hk; simp at hk
  | cons b l ih =>
      intro s hs k a hk hen
      rcases k with _ | k
      · obtain rfl : b = a := by simpa using hk
        obtain ⟨s', hs'⟩ := Option.isSome_iff_exists.mp hen
        have hstep : S.step s b = some s' := hs'
        simp only [Checks, hstep] at hs
        exact hs.1
      · have hk' : l[k]? = some a := by simpa using hk
        have hexec : S.exec s ((b :: l).take (k + 1))
            = S.exec ((S.step s b).getD s) (l.take k) := rfl
        rw [hexec] at hen ⊢
        rcases hb : S.step s b with _ | s'
        · simp only [Checks, hb] at hs
          rw [hb] at hen
          exact ih hs k a hk' hen
        · simp only [Checks, hb] at hs
          rw [hb] at hen
          exact ih hs.2 k a hk' hen

/-- The run of a checked list meets the condition at every step. -/
theorem meets_ofList {ok : σ → α → Prop} {l : List α} (h : S.Checks ok S.init l) :
    (S.ofList l).Meets ok := by
  intro k a hk
  obtain ⟨hl, hsome⟩ := Option.filter_eq_some_iff.mp hk
  exact checks_exec h k a hl hsome

/-- After the list the run stays where it is. -/
theorem ofList_state_of_le {l : List α} {k : ℕ} (h : l.length ≤ k) :
    (S.ofList l).state k = (S.ofList l).state l.length := by
  show S.exec S.init (l.take k) = S.exec S.init (l.take l.length)
  rw [List.take_of_length_le h, List.take_length]

/-- What holds from some moment to the end of the list holds from this moment on. -/
theorem ofList_forall_ge {l : List α} {P : σ → Prop} {K : ℕ}
    (h : ∀ k < l.length + 1, K ≤ k → P ((S.ofList l).state k)) (hK : K ≤ l.length) :
    ∀ k ≥ K, P ((S.ofList l).state k) := by
  intro k hk
  by_cases hlt : k < l.length + 1
  · exact h k hlt hk
  · rw [ofList_state_of_le (by omega)]
    exact h l.length (by omega) hK

/-- The run of a list is fair to an action that is disabled at the end. -/
theorem weaklyFair_ofList {l : List α} {a : α}
    (h : S.step ((S.ofList l).state l.length) a = none) : (S.ofList l).WeaklyFair a := by
  intro k
  refine ⟨max k l.length, le_max_left _ _, .inr ?_⟩
  rw [ofList_state_of_le (le_max_right _ _)]
  exact h

end OfList

end TransitionSystem
