/-
# The search stops and never faults

`checkSingle` follows pointers and indexes a bitset without a test.  A nil pointer
and an index out of range are `none` in the model, and so is a search that has not
ended within the given rounds.  For histories of complete operations the search ends
with a verdict (`checkSingle_stops`), whatever the model; nothing that happens on the
way to a verdict is a fault:

* `iterate_eq_some`: what a round that does not fault must have found;
* `iterate_isSome_of_runs`: no round before a verdict faults;
* `loop_of_kill`: the kill flag only ends the search earlier;
* `checkSingle_never_faults`: the assembled statement.
-/
import Mit6824.LinSearch

namespace Mit6824

open LinkedList

variable {σ V : Type} {model : Model σ V} {headEntry : ℕ} {s t : Search σ V}

/-- A round finds a node under the cursor, and every access that it then makes succeeds. -/
structure RoundSafe (model : Model σ V) (s : Search σ V) (p : ℕ) : Prop where
  cursor : s.entry = some p
  /-- The positions of the bitset that are set are in range, and `lift` finds its neighbours. -/
  call : ∀ q, (s.nodes p).val.matchNode = some q →
    (model.step s.state (s.nodes p).val.value (s.nodes q).val.value).1 = true →
    ∃ b, s.linearized.set (s.nodes p).val.id = some b ∧
      (cacheContains model s.cache
          ⟨b, (model.step s.state (s.nodes p).val.value (s.nodes q).val.value).2⟩ = false →
        ∃ nodes, lift s.nodes p = some nodes)
  /-- The positions that are cleared are in range, and `unlift` finds its neighbours. -/
  ret : (s.nodes p).val.matchNode = none → ∀ top calls, s.calls = top :: calls →
    (∃ b, s.linearized.clear (s.nodes top.entry).val.id = some b) ∧
      ∃ nodes, unlift s.nodes top.entry = some nodes

/-- A round that does not fault is safe. -/
theorem iterate_eq_some {round : Round σ V} (h : iterate model headEntry s = some round) :
    ∃ p, RoundSafe model s p := by
  obtain ⟨p, hp, hround⟩ := Option.bind_eq_some_iff.mp h
  refine ⟨p, hp, ?_, ?_⟩
  · intro q hq hok
    simp only [hq, hok, if_true] at hround
    obtain ⟨b, hb, hround⟩ := Option.bind_eq_some_iff.mp hround
    refine ⟨b, hb, ?_⟩
    intro hnew
    simp only [hnew, Bool.not_false, if_true] at hround
    obtain ⟨b', -, hround⟩ := Option.bind_eq_some_iff.mp hround
    obtain ⟨nodes, hnodes, -⟩ := Option.bind_eq_some_iff.mp hround
    exact ⟨nodes, hnodes⟩
  · intro hnone top calls hcalls
    simp only [hnone, hcalls] at hround
    obtain ⟨b, hb, hround⟩ := Option.bind_eq_some_iff.mp hround
    obtain ⟨nodes, hnodes, -⟩ := Option.bind_eq_some_iff.mp hround
    exact ⟨⟨b, hb⟩, nodes, hnodes⟩

/-- A loop that returns makes a round that does not fault, or has nothing left to do. -/
theorem iterate_isSome_of_loop {fuel : ℕ} {ok : Bool} (hnext : (s.nodes headEntry).next ≠ none)
    (h : loop model headEntry (fun _ => 0) fuel s = some ok) :
    ∃ round, iterate model headEntry s = some round := by
  cases fuel with
  | zero => cases h
  | succ fuel =>
      obtain ⟨first, hfirst⟩ := Option.ne_none_iff_exists'.mp hnext
      rw [loop, hfirst] at h
      simp only [ne_eq, not_true_eq_false, if_false] at h
      rcases hround : iterate model headEntry s with _ | round
      · rw [hround] at h
        cases h
      · exact ⟨round, rfl⟩

/-- A loop that returns from a state returns from every state that it passes. -/
theorem Runs.exists_loop {fuel : ℕ} {ok : Bool} (hruns : Runs model headEntry s t)
    (h : loop model headEntry (fun _ => 0) fuel s = some ok) :
    ∃ fuel', loop model headEntry (fun _ => 0) fuel' t = some ok := by
  -- induction on the rounds that have been made
  induction hruns with
  | refl => exact ⟨fuel, h⟩
  | @tail t u _ hturn ih =>
      obtain ⟨fuel', hloop⟩ := ih
      cases fuel' with
      | zero => cases hloop
      | succ fuel' =>
          rw [loop_continue hturn.1 hturn.2] at hloop
          exact ⟨fuel', hloop⟩

/-- No round before a verdict faults. -/
theorem iterate_isSome_of_runs {fuel : ℕ} {ok : Bool}
    (h : loop model headEntry (fun _ => 0) fuel s = some ok) (hruns : Runs model headEntry s t)
    (hnext : (t.nodes headEntry).next ≠ none) :
    ∃ round, iterate model headEntry t = some round := by
  obtain ⟨fuel', hloop⟩ := Runs.exists_loop hruns h
  exact iterate_isSome_of_loop hnext hloop

/-- The kill flag can only end the loop earlier. -/
theorem loop_of_kill {fuel : ℕ} {ok : Bool} (kill : ℕ → ℤ)
    (h : loop model headEntry (fun _ => 0) fuel s = some ok) :
    ∃ ok', loop model headEntry kill fuel s = some ok' := by
  induction fuel generalizing kill s with
  | zero => cases h
  | succ fuel ih =>
      rcases hnext : (s.nodes headEntry).next with _ | first
      · exact ⟨true, loop_done hnext fuel⟩
      · have hne : (s.nodes headEntry).next ≠ none := by
          rw [hnext]
          exact Option.some_ne_none first
        by_cases hkill : kill 0 = 0
        · obtain ⟨round, hround⟩ := iterate_isSome_of_loop hne h
          rw [loop, hnext]
          simp only [hkill, ne_eq, not_true_eq_false, if_false, hround]
          cases round with
          | «return» ok' => exact ⟨ok', rfl⟩
          | «continue» s' =>
              rw [loop_continue hne hround] at h
              exact ih _ h
        · refine ⟨false, ?_⟩
          rw [loop, hnext]
          exact if_pos hkill

/-- **The search always stops, and no step of it faults.**  For every model, whatever its
`Equal` does, and every history of `k` complete operations: whenever and if ever the kill flag
is set, `checkSingle` returns, and in every state that its loop can reach with a non-empty list
the cursor is at a node and all pointers and positions that the round uses are valid. -/
theorem checkSingle_never_faults [Inhabited V] (model : Model σ V) (entries : List (Entry V))
    (k : ℕ) (hc : Complete entries k) :
    (∀ kill : ℕ → ℤ, ∃ ok n, ∀ fuel ≥ n, checkSingle model (makeLinkedEntries entries).1
        (makeLinkedEntries entries).2 kill fuel = some ok) ∧
      ∀ s, Runs model (2 * k) (Search.start model entries k) s →
        (s.nodes (2 * k)).next ≠ none → ∃ p, RoundSafe model s p := by
  obtain ⟨ok, n, hn, -⟩ := checkSingle_stops model hc
  have hloop : loop model (2 * k) (fun _ => 0) (max n (2 * k + 1)) (Search.start model entries k) =
      some ok := by
    rw [← checkSingle_eq_loop hc _ (by omega)]
    exact hn _ (le_max_left ..)
  constructor
  · intro kill
    obtain ⟨ok', hok'⟩ := loop_of_kill kill hloop
    refine ⟨ok', max n (2 * k + 1), ?_⟩
    intro fuel hfuel
    rw [checkSingle_eq_loop hc kill (by omega)]
    exact loop_mono hfuel hok'
  · intro s hruns hnext
    obtain ⟨round, hround⟩ := iterate_isSome_of_runs hloop hruns hnext
    exact iterate_eq_some hround

/-- A register whose states are never equal, so that nothing is found in the cache. -/
theorem checkSingle_never_faults_register :
    Complete registerEntries 3 ∧
      ∃ p, RoundSafe { register with equal := fun _ _ => false }
        (Search.start { register with equal := fun _ _ => false } registerEntries 3) p :=
  ⟨registerEntries_complete,
    (checkSingle_never_faults { register with equal := fun _ _ => false } registerEntries 3
      registerEntries_complete).2 _ .refl (by decide)⟩

end Mit6824
